import NetMod.Lib.ByteMemory
import NetMod.Lib.FixedWidth
import NetMod.Lib.PartialRuns

/-!
# `TMemorySink`

The sink's array and its fill level, in the arithmetic of the source: an array's length is an `Int`,
the counts are `Size_T`.  `Write` gives `none` where its `MemCopy` would leave the array.  Growing
the array computes `data.Length * 3` in an `Int`, which wraps from 715827883 bytes on, and narrows
the new length to an `Int`; `Fits` is the exact condition under which the array is long enough
afterwards, and `sink_keeps_iff` says that this is when the sink keeps every byte.
-/

namespace NetMod.MemorySink

open NetMod.ByteMemory NetMod.FixedWidth NetMod.PartialRuns

/-- `TMemorySink`; the length of an array is an `Int`. -/
structure TMemorySink where
  data : List UInt8
  size : UInt64
  length_lt : data.length < 2 ^ 31
deriving DecidableEq

namespace TMemorySink

/-- `New TMemorySink`. -/
def new : TMemorySink := ⟨List.replicate 1024 0, 0, by rw [List.length_replicate]; decide⟩

/-- `data.Length`. -/
def dataLength (sink : TMemorySink) : Int32 := Int32.ofNat sink.data.length

end TMemorySink

/-- A `Size_T` as the bound of a slice. -/
def sliceBound (n : UInt64) : Nat := n.toUInt32.toInt32.toInt.toNat

theorem sliceBound_lt (n : UInt64) : sliceBound n < 2 ^ 31 := by
  have := Int32.toInt_lt n.toUInt32.toInt32
  rw [sliceBound]
  omega

namespace TMemorySink

/-- `data.Length * 3/2 + count`. -/
def newSize (sink : TMemorySink) (count : UInt64) : UInt64 :=
  (sink.dataLength * 3 / 2).toInt64.toUInt64 + count

/-- The growth step of `Write`. -/
def reserve (sink : TMemorySink) (count : UInt64) : TMemorySink :=
  if sink.dataLength.toInt64.toUInt64 < sink.size + count then
    { data := resize 0 sink.data (sliceBound (sink.newSize count))
      size := sink.size
      length_lt := by rw [resize_length]; exact sliceBound_lt _ }
  else sink

/-- `Write(buffer, count)`: the sink and the result. -/
def write (sink : TMemorySink) (buffer : List UInt8) : Option (TMemorySink × UInt64) :=
  let count := UInt64.ofNat buffer.length
  if count = 0 then some (sink, 0)
  else
    let sink := sink.reserve count
    match h : memcpyTo sink.data sink.size.toNat buffer with
    | none => none
    | some data =>
      some (⟨data, sink.size + count, by rw [memcpyTo_length h]; exact sink.length_lt⟩, count)

/-- `GetData`; `Null` is the empty array. -/
def getData (sink : TMemorySink) : List UInt8 :=
  if sink.size ≠ 0 then resize 0 sink.data (sliceBound sink.size) else []

/-- `BeginAttempt`. -/
def beginAttempt (sink : TMemorySink) : TMemorySink := { sink with size := 0 }

end TMemorySink

/-! ### Calls -/

inductive SinkCall where
  | beginAttempt
  | write (buffer : List UInt8)

/-- The sink, and the bytes written since the last `BeginAttempt`. -/
structure Recording where
  sink : TMemorySink := .new
  written : List UInt8 := []
deriving DecidableEq

/-- One call; a copy that leaves the array gives `none`. -/
def sinkStep (s : Recording) : SinkCall → Option Recording
  | .beginAttempt => some ⟨s.sink.beginAttempt, []⟩
  | .write buffer => (s.sink.write buffer).map fun p => ⟨p.1, s.written ++ buffer⟩

/-- The bytes since the last `BeginAttempt`, with those of this call, are at most 2^31 - 1. -/
def Bounded (s : Recording) : SinkCall → Prop
  | .beginAttempt => True
  | .write buffer => s.written.length + buffer.length < 2 ^ 31

/-- The call keeps every byte: the copy stays inside the array, the front of the array is what was
written, `Write` returns the count and `GetData` what was written. -/
def Keeps (s : Recording) : SinkCall → Prop
  | .beginAttempt => True
  | .write buffer =>
    ∃ sink, s.sink.write buffer = some (sink, UInt64.ofNat buffer.length) ∧
      sink.size.toNat = (s.written ++ buffer).length ∧ sink.size.toNat ≤ sink.data.length ∧
      sink.data.take sink.size.toNat = s.written ++ buffer ∧ sink.getData = s.written ++ buffer

/-- The bytes have room, or the array that `data.Length * 3/2 + count` makes has it: the first
summand, as the `Int` it is, is not below the fill level, and the sum is an `Int`. -/
def Fits (s : Recording) : SinkCall → Prop
  | .beginAttempt => True
  | .write buffer =>
    buffer = [] ∨ s.sink.size.toNat + buffer.length ≤ s.sink.data.length ∨
      ((s.sink.size.toNat : Int) ≤ (s.sink.dataLength * 3 / 2).toInt ∧
        (s.sink.dataLength * 3 / 2).toInt + buffer.length < 2 ^ 31)

/-- The front of the array is what was written. -/
structure SinkInv (s : Recording) : Prop where
  size_eq : s.sink.size.toNat = s.written.length
  size_le : s.written.length ≤ s.sink.data.length
  front : s.sink.data.take s.written.length = s.written

theorem sinkInv_new : SinkInv {} where
  size_eq := rfl
  size_le := Nat.zero_le _
  front := rfl

/-! ### The growth step -/

theorem sliceBound_of_lt {n : UInt64} (h : n.toNat < 2 ^ 31) : sliceBound n = n.toNat := by
  rw [sliceBound, narrowed_toInt, Int.bmod_eq_of_le (by omega) (by omega)]
  rfl

/-- The new length: `data.Length * 3/2` as an `Int`, and the count, unless the sum is no `Int`. -/
theorem sliceBound_newSize (sink : TMemorySink) {count : UInt64} (h : count.toNat < 2 ^ 31) :
    sliceBound (sink.newSize count) =
      if (sink.dataLength * 3 / 2).toInt + count.toNat < 2 ^ 31 then
        ((sink.dataLength * 3 / 2).toInt + count.toNat).toNat
      else 0 := by
  obtain ⟨hlow, hhigh⟩ := half_bounds (sink.dataLength * 3)
  have hsum : ((sink.newSize count).toNat : Int) =
      ((sink.dataLength * 3 / 2).toInt + count.toNat) % (2 ^ 64 : Nat) := by
    rw [TMemorySink.newSize, UInt64.toNat_add, Int.natCast_mod, Int.natCast_add, widened_toNat,
      Int.emod_add_emod]
  have hnarrow : (sink.newSize count).toUInt32.toInt32.toInt =
      ((sink.dataLength * 3 / 2).toInt + count.toNat).bmod (2 ^ 32) := by
    rw [narrowed_toInt, hsum, Int.bmod_def, Int.bmod_def, Int.emod_emod_of_dvd _ (by norm_num)]
  rw [sliceBound, hnarrow, Int.bmod_def]
  split <;> split <;> omega

theorem dataLength_toNat (sink : TMemorySink) :
    sink.dataLength.toInt64.toUInt64.toNat = sink.data.length := by
  have hlen := sink.length_lt
  have hint : sink.dataLength.toInt = sink.data.length := Int32.toInt_ofNat_of_lt hlen
  have hwide := widened_toNat sink.dataLength
  rw [hint, Int.emod_eq_of_lt (by omega) (by omega)] at hwide
  exact_mod_cast hwide

theorem count_toNat {n : Nat} (h : n < 2 ^ 64) : (UInt64.ofNat n).toNat = n :=
  UInt64.toNat_ofNat_of_lt h

section Writes

variable {s : Recording} {buffer : List UInt8}

/-- **Exactly where the bytes fit is there room for them after the growth step.** -/
theorem fits_iff_room (hi : SinkInv s) (hb : Bounded s (.write buffer)) :
    Fits s (.write buffer) ↔ buffer = [] ∨ s.sink.size.toNat + buffer.length ≤
      (s.sink.reserve (UInt64.ofNat buffer.length)).data.length := by
  have hsize := hi.size_eq
  have hbound : s.written.length + buffer.length < 2 ^ 31 := hb
  have hcount : (UInt64.ofNat buffer.length).toNat = buffer.length := count_toNat (by omega)
  have hless : s.sink.dataLength.toInt64.toUInt64 < s.sink.size + UInt64.ofNat buffer.length ↔
      s.sink.data.length < s.sink.size.toNat + buffer.length := by
    rw [UInt64.lt_iff_toNat_lt, dataLength_toNat, UInt64.toNat_add, hcount,
      Nat.mod_eq_of_lt (by omega)]
  rw [Fits]
  apply or_congr_right'
  intro hne
  have hpos : 0 < buffer.length := List.length_pos_iff.mpr hne
  rw [TMemorySink.reserve]
  split
  · rename_i hgrow
    rw [hless] at hgrow
    rw [resize_length, sliceBound_newSize _ (by omega), hcount]
    split <;> omega
  · rename_i hroom
    rw [hless] at hroom
    omega

/-- The growth step keeps what was written, where it leaves room for it. -/
theorem reserve_front (hi : SinkInv s) (count : UInt64)
    (h : s.written.length ≤ (s.sink.reserve count).data.length) :
    (s.sink.reserve count).data.take s.written.length = s.written := by
  rw [TMemorySink.reserve] at h ⊢
  split
  · rename_i hgrow
    rw [if_pos hgrow, resize_length] at h
    rw [take_resize 0 _ h hi.size_le, hi.front]
  · exact hi.front

@[simp] theorem reserve_size (sink : TMemorySink) (count : UInt64) :
    (sink.reserve count).size = sink.size := by
  rw [TMemorySink.reserve]
  split <;> rfl

/-- **What `GetData` returns.** -/
theorem getData_eq (hi : SinkInv s) (h : s.written.length < 2 ^ 31) : s.sink.getData = s.written := by
  have hsize := hi.size_eq
  rw [TMemorySink.getData]
  split
  · rw [sliceBound_of_lt (by omega), hsize]
    have hlen : (resize 0 s.sink.data s.written.length).length = s.written.length :=
      resize_length _ _ _
    have htake := take_resize 0 s.sink.data le_rfl hi.size_le
    rw [List.take_of_length_le hlen.le] at htake
    exact htake.trans hi.front
  · rename_i hzero
    rw [not_not.mp hzero] at hsize
    exact (List.length_eq_zero_iff.mp hsize.symm).symm

theorem ofNat_length_ne_zero (h : buffer.length < 2 ^ 64) (hne : buffer ≠ []) :
    UInt64.ofNat buffer.length ≠ 0 := by
  intro h0
  have hcount := count_toNat h
  rw [h0] at hcount
  exact hne (List.length_eq_zero_iff.mp hcount.symm)

/-- `Write`, by what its copy does. -/
theorem write_of_copy (hne : UInt64.ofNat buffer.length ≠ 0) {data : List UInt8}
    (h : memcpyTo (s.sink.reserve (UInt64.ofNat buffer.length)).data s.sink.size.toNat buffer =
      some data) :
    ∃ sink, s.sink.write buffer = some (sink, UInt64.ofNat buffer.length) ∧ sink.data = data ∧
      sink.size = s.sink.size + UInt64.ofNat buffer.length := by
  rw [TMemorySink.write]
  simp only [if_neg hne]
  split
  · rename_i hnone
    rw [reserve_size, h] at hnone
    cases hnone
  · rename_i data' hsome
    rw [reserve_size, h] at hsome
    exact ⟨_, rfl, (Option.some.inj hsome).symm, congrArg (· + _) (reserve_size _ _)⟩

/-- A write whose copy leaves the array. -/
theorem write_eq_none (hne : UInt64.ofNat buffer.length ≠ 0)
    (h : (s.sink.reserve (UInt64.ofNat buffer.length)).data.length <
      s.sink.size.toNat + buffer.length) : s.sink.write buffer = none := by
  have hnone := memcpyTo_eq_none.mpr h
  rw [TMemorySink.write]
  simp only [if_neg hne]
  split
  · rfl
  · rename_i data hsome
    rw [reserve_size, hnone] at hsome
    cases hsome

/-- A write with room appends its bytes. -/
theorem write_of_room (hi : SinkInv s) (hb : Bounded s (.write buffer))
    (hroom : buffer = [] ∨ s.sink.size.toNat + buffer.length ≤
      (s.sink.reserve (UInt64.ofNat buffer.length)).data.length) :
    ∃ sink, s.sink.write buffer = some (sink, UInt64.ofNat buffer.length) ∧
      SinkInv ⟨sink, s.written ++ buffer⟩ ∧
      (buffer ≠ [] →
        sink.data.length = (s.sink.reserve (UInt64.ofNat buffer.length)).data.length) := by
  have hsize := hi.size_eq
  have hbound : s.written.length + buffer.length < 2 ^ 31 := hb
  rcases eq_or_ne buffer [] with rfl | hne
  · rw [List.append_nil]
    exact ⟨s.sink, rfl, hi, fun hne => absurd rfl hne⟩
  have hfits := hroom.resolve_left hne
  have hcount : (UInt64.ofNat buffer.length).toNat = buffer.length := count_toNat (by omega)
  have hfront := reserve_front hi (UInt64.ofNat buffer.length) (by omega)
  obtain ⟨data, hcopy, hlen, htake⟩ := memcpyTo_spec _ _ buffer hfits
  rw [hsize, hfront] at htake
  obtain ⟨sink, hwrite, rfl, hnew⟩ := write_of_copy (ofNat_length_ne_zero (by omega) hne) hcopy
  refine ⟨sink, hwrite, ⟨?_, ?_, ?_⟩, fun _ => hlen⟩
  · show sink.size.toNat = (s.written ++ buffer).length
    rw [hnew, UInt64.toNat_add, hcount, hsize, Nat.mod_eq_of_lt (by omega), List.length_append]
  · show (s.written ++ buffer).length ≤ sink.data.length
    rw [List.length_append]
    omega
  · show sink.data.take (s.written ++ buffer).length = s.written ++ buffer
    rw [List.length_append]
    exact htake

end Writes

/-- The count of a write is a `Size_T`. -/
def Counted : SinkCall → Prop
  | .beginAttempt => True
  | .write buffer => buffer.length < 2 ^ 64

theorem Bounded.counted {s : Recording} {call : SinkCall} (h : Bounded s call) : Counted call := by
  cases call with
  | beginAttempt => trivial
  | write buffer =>
    have hbound : s.written.length + buffer.length < 2 ^ 31 := h
    show buffer.length < 2 ^ 64
    omega

/-- Bytes that fit are at most 2^31 - 1 with those before them. -/
theorem Fits.bounded {s : Recording} {call : SinkCall} (hi : SinkInv s) (h : Fits s call) :
    Bounded s call := by
  cases call with
  | beginAttempt => trivial
  | write buffer =>
    have hsize := hi.size_eq
    have hle := hi.size_le
    have hlen := s.sink.length_lt
    show s.written.length + buffer.length < 2 ^ 31
    rcases h with rfl | h | h
    · rw [List.length_nil]
      omega
    · omega
    · omega

/-- **A call is possible exactly when its bytes fit.** -/
theorem sinkStep_isSome_iff {s : Recording} (hi : SinkInv s) {call : SinkCall} (hc : Counted call) :
    (sinkStep s call).isSome = true ↔ Fits s call := by
  constructor
  · intro h
    cases call with
    | beginAttempt => trivial
    | write buffer =>
      have hcount : buffer.length < 2 ^ 64 := hc
      have hroom : buffer = [] ∨ s.sink.size.toNat + buffer.length ≤
          (s.sink.reserve (UInt64.ofNat buffer.length)).data.length := by
        by_contra hnone
        rw [not_or, not_le] at hnone
        rw [sinkStep, write_eq_none (ofNat_length_ne_zero hcount hnone.1) hnone.2] at h
        cases h
      have hb : Bounded s (.write buffer) := by
        have hsize := hi.size_eq
        have hle := hi.size_le
        have hlen := s.sink.length_lt
        have hlen' := (s.sink.reserve (UInt64.ofNat buffer.length)).length_lt
        show s.written.length + buffer.length < 2 ^ 31
        rcases hroom with rfl | hroom
        · rw [List.length_nil]
          omega
        · omega
      exact (fits_iff_room hi hb).mpr hroom
  · intro hfits
    cases call with
    | beginAttempt => rfl
    | write buffer =>
      have hb := hfits.bounded hi
      obtain ⟨sink, hwrite, -⟩ := write_of_room hi hb ((fits_iff_room hi hb).mp hfits)
      rw [sinkStep, hwrite]
      rfl

/-- **A call keeps every byte exactly when its bytes fit.** -/
theorem keeps_iff_fits {s : Recording} (hi : SinkInv s) (call : SinkCall) (hb : Bounded s call) :
    Keeps s call ↔ Fits s call := by
  rw [← sinkStep_isSome_iff hi hb.counted]
  cases call with
  | beginAttempt => exact iff_of_true trivial rfl
  | write buffer =>
    constructor
    · intro hkeeps
      obtain ⟨sink, hwrite, -⟩ := hkeeps
      rw [sinkStep, hwrite]
      rfl
    · intro hpossible
      have hfits := (sinkStep_isSome_iff hi hb.counted).mp hpossible
      obtain ⟨sink, hwrite, hinv, -⟩ := write_of_room hi hb ((fits_iff_room hi hb).mp hfits)
      have hsize : sink.size.toNat = (s.written ++ buffer).length := hinv.size_eq
      refine ⟨sink, hwrite, hsize, hsize ▸ hinv.size_le, hsize ▸ hinv.front, getData_eq hinv ?_⟩
      show (s.written ++ buffer).length < 2 ^ 31
      rw [List.length_append]
      exact hb

/-! ### Sequences of calls -/

/-- **Every call keeps the invariant.** -/
theorem sinkInv_step (s : Recording) (call : SinkCall) (s' : Recording) (hi : SinkInv s)
    (hc : Counted call) (h : sinkStep s call = some s') : SinkInv s' := by
  cases call with
  | beginAttempt =>
    obtain rfl := Option.some.inj h
    exact ⟨rfl, Nat.zero_le _, rfl⟩
  | write buffer =>
    have hfits := (sinkStep_isSome_iff hi hc).mp (by rw [h]; rfl)
    have hb := hfits.bounded hi
    obtain ⟨sink, hwrite, hinv, -⟩ := write_of_room hi hb ((fits_iff_room hi hb).mp hfits)
    rw [sinkStep, hwrite] at h
    exact Option.some.inj h ▸ hinv

/-- **The sink keeps every byte exactly in the sequences whose bytes fit**, among those that write
at most 2^31 - 1 bytes in an attempt. -/
theorem sink_keeps_iff (calls : List SinkCall) (hb : Along sinkStep Bounded {} calls) :
    Along sinkStep Keeps {} calls ↔ Along sinkStep Fits {} calls :=
  along_congr_of_invariant SinkInv (fun s call s' hi hb => sinkInv_step s call s' hi hb.counted)
    (fun _ call hi hb => keeps_iff_fits hi call hb) sinkInv_new hb

theorem sink_keeps_one : Along sinkStep Keeps {} [.write [1, 2, 3]] := by
  refine (sink_keeps_iff _ ?_).mpr ?_
  · refine along_cons.mpr ⟨?_, fun s' _ => along_nil s'⟩
    show 0 + 3 < 2 ^ 31
    decide
  · refine along_cons.mpr ⟨Or.inr (Or.inl ?_), fun s' _ => along_nil s'⟩
    show 0 + 3 ≤ (List.replicate 1024 (0 : UInt8)).length
    rw [List.length_replicate]
    decide

/-- A body of 715826347 bytes makes an array of 715827883. -/
theorem large_write {body : List UInt8} (h : body.length = 715826347) :
    ∃ sink, sinkStep {} (.write body) = some ⟨sink, body⟩ ∧ SinkInv ⟨sink, body⟩ ∧
      sink.data.length = 715827883 := by
  have hnew : TMemorySink.new.data.length = 1024 := List.length_replicate
  have hlen : TMemorySink.new.dataLength = 1024 := by
    rw [TMemorySink.dataLength, hnew]
    rfl
  have hgrown : (TMemorySink.new.reserve (UInt64.ofNat body.length)).data.length = 715827883 := by
    rw [h, TMemorySink.reserve, hlen, if_pos (by decide), resize_length,
      sliceBound_newSize _ (by decide), hlen]
    decide +kernel
  have hb : Bounded {} (.write body) := by
    show ([] : List UInt8).length + body.length < 2 ^ 31
    rw [h, List.length_nil]
    decide
  obtain ⟨sink, hwrite, hinv, hsame⟩ := write_of_room sinkInv_new hb (Or.inr (by
    rw [hgrown, h]
    decide))
  refine ⟨sink, ?_, hinv, (hsame (List.ne_nil_of_length_pos (by omega))).trans hgrown⟩
  rw [sinkStep, hwrite]
  rfl

/-- Three times the length of that array is no `Int`. -/
theorem large_third {sink : TMemorySink} (h : sink.data.length = 715827883) :
    (sink.dataLength * 3 / 2).toInt = -1073741823 := by
  rw [TMemorySink.dataLength, h]
  decide +kernel

/-- Behind a body of 715826347 bytes there is no room for 1537 more. -/
theorem not_every_sink_keeps :
    ¬ ∀ calls, Along sinkStep Bounded {} calls → Along sinkStep Keeps {} calls := by
  intro hall
  obtain ⟨body, hbody⟩ : ∃ body : List UInt8, body.length = 715826347 :=
    ⟨List.replicate 715826347 0, List.length_replicate⟩
  obtain ⟨rest, hrest⟩ : ∃ rest : List UInt8, rest.length = 1537 :=
    ⟨List.replicate 1537 0, List.length_replicate⟩
  obtain ⟨sink, hfirst, hinv, hfull⟩ := large_write hbody
  have hsize : sink.size.toNat = 715826347 := hinv.size_eq.trans hbody
  have hb : Bounded {} (.write body) := by
    show ([] : List UInt8).length + body.length < 2 ^ 31
    rw [hbody, List.length_nil]
    decide
  have hb' : Bounded ⟨sink, body⟩ (.write rest) := by
    show body.length + rest.length < 2 ^ 31
    rw [hbody, hrest]
    decide
  have hbounded : Along sinkStep Bounded {} [.write body, .write rest] := by
    refine along_cons.mpr ⟨hb, fun s' hs' => along_cons.mpr ⟨?_, fun s'' _ => along_nil s''⟩⟩
    rw [hfirst] at hs'
    exact Option.some.inj hs' ▸ hb'
  have hkeeps := (along_cons.mp (hall _ hbounded)).2 _ hfirst
  rcases (keeps_iff_fits hinv _ hb').mp (along_cons.mp hkeeps).1 with h | h | h
  · rw [h] at hrest
    cases hrest
  · have h' : sink.size.toNat + rest.length ≤ sink.data.length := h
    omega
  · have h' : (sink.size.toNat : Int) ≤ (sink.dataLength * 3 / 2).toInt := h.1
    rw [large_third hfull, hsize] at h'
    exact absurd h' (by decide)

end NetMod.MemorySink
