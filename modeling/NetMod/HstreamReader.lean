import Mathlib.Tactic.NormNum
import NetMod.Lib.ByteMemory
import NetMod.Lib.PartialRuns

/-!
# `httpsstream.mod/glue.c`: the buffer of the HTTPS stream reader

A `size_t` is a `UInt64`.  A `bmx_curl_reader` is its three buffer fields; the multi handle it points
to is libcurl's and is passed beside it.  A copy that would leave its block has no defined outcome,
so the functions that copy return `none` there.

The write callback doubles the buffer at most once.  `Fits` is the condition, on the reader before
the call, under which that is enough; `inBounds_iff` says that a run of calls stays inside the
buffer exactly when every write meets it.
-/

namespace NetMod.HstreamReader

open NetMod.ByteMemory NetMod.PartialRuns

/-- `bmx_curl_reader`: `buffer` is the whole allocated block. -/
structure Reader where
  buffer : List UInt8
  bufferSize : UInt64
  bufferOffset : UInt64
deriving DecidableEq

/-- The block has the recorded length, and the fill does not exceed it. -/
structure Reader.Valid (r : Reader) : Prop where
  allocated : r.buffer.length = r.bufferSize.toNat
  fill_le : r.bufferOffset.toNat ≤ r.bufferSize.toNat

/-- The bytes received and not yet read. -/
def Reader.contents (r : Reader) : List UInt8 := r.buffer.take r.bufferOffset.toNat

theorem Reader.Valid.contents_length {r : Reader} (hr : r.Valid) :
    r.contents.length = r.bufferOffset.toNat := by
  have := hr.allocated
  have := hr.fill_le
  rw [Reader.contents, List.length_take]
  omega

/-! ### The write callback -/

/-- One call of the write callback: its arguments, and whether a `realloc` it makes succeeds. -/
structure WriteCall where
  ptr : List UInt8
  size : UInt64
  nmemb : UInt64
  realloc : Bool
  ptr_length : ptr.length = (size * nmemb).toNat
deriving DecidableEq

def WriteCall.realsize (w : WriteCall) : UInt64 := w.size * w.nmemb

@[simp] theorem WriteCall.length_ptr (w : WriteCall) : w.ptr.length = w.realsize.toNat :=
  w.ptr_length

/-- The reader after `reader->buffer_size * 2` and a successful `realloc`. -/
def Reader.grown (r : Reader) : Reader :=
  let newSize := r.bufferSize * 2
  { r with buffer := resize 0 r.buffer newSize.toNat, bufferSize := newSize }

/-- The `if` of the write callback; `none` is its early return. -/
def makeRoom (r : Reader) (realsize : UInt64) (realloc : Bool) : Option Reader :=
  if r.bufferSize - r.bufferOffset < realsize then
    if realloc then some r.grown else none
  else some r

/-- `bmx_hstream_write_callback`, with its return value. -/
def writeCallback (r : Reader) (w : WriteCall) : Option (Reader × UInt64) :=
  match makeRoom r w.realsize w.realloc with
  | none => some (r, 0)
  | some r =>
    (memcpyTo r.buffer r.bufferOffset.toNat w.ptr).map fun buffer =>
      ({ r with buffer, bufferOffset := r.bufferOffset + w.realsize }, w.realsize)

/-! ### Initialisation -/

/-- Which allocations of `bmx_hstream_curl_reader_init` succeed. -/
structure InitOutcome where
  readerMalloc : Bool
  bufferMalloc : Bool
  multiInit : Bool

/-- `bmx_hstream_curl_reader_init`; `none` is `NULL`.  A failed `malloc(4096)` goes unnoticed. -/
def curlReaderInit (o : InitOutcome) : Option Reader :=
  if !o.readerMalloc then none
  else if !o.multiInit then none
  else some
    { buffer := if o.bufferMalloc then List.replicate 4096 0 else []
      bufferSize := 4096
      bufferOffset := 0 }

theorem curlReaderInit_eq {o : InitOutcome} {r : Reader} (h : curlReaderInit o = some r) :
    r = ⟨if o.bufferMalloc then List.replicate 4096 0 else [], 4096, 0⟩ := by
  rw [curlReaderInit] at h
  split at h
  · cases h
  · split at h
    · cases h
    · exact (Option.some.inj h).symm

theorem curlReaderInit_valid_iff {o : InitOutcome} {r : Reader} (h : curlReaderInit o = some r) :
    r.Valid ↔ o.bufferMalloc = true := by
  obtain rfl := curlReaderInit_eq h
  constructor
  · intro hv
    by_contra hb
    have hlen := hv.allocated
    rw [if_neg hb] at hlen
    exact absurd hlen (by decide)
  · intro hb
    refine ⟨?_, Nat.zero_le _⟩
    rw [if_pos hb]
    exact List.length_replicate

theorem curlReaderInit_contents {o : InitOutcome} {r : Reader} (h : curlReaderInit o = some r) :
    r.contents = [] := by
  obtain rfl := curlReaderInit_eq h
  exact List.take_zero

/-! ### The write callback on a valid reader -/

/-- The chunk fits behind the fill, or no memory is to be had, or one doubling makes it fit. -/
def Fits (r : Reader) (w : WriteCall) : Prop :=
  r.bufferOffset.toNat + w.realsize.toNat ≤ r.bufferSize.toNat ∨ w.realloc = false ∨
    r.bufferOffset.toNat + w.realsize.toNat ≤ 2 * r.bufferSize.toNat % 2 ^ 64

instance (r : Reader) (w : WriteCall) : Decidable (Fits r w) :=
  inferInstanceAs (Decidable (_ ∨ _ ∨ _))

theorem Reader.grown_size (r : Reader) : r.grown.bufferSize.toNat = 2 * r.bufferSize.toNat % 2 ^ 64 := by
  simp only [Reader.grown, UInt64.toNat_mul]
  rw [Nat.mul_comm]
  rfl

@[simp] theorem Reader.grown_offset (r : Reader) : r.grown.bufferOffset = r.bufferOffset := rfl

theorem Reader.grown_length (r : Reader) : r.grown.buffer.length = r.grown.bufferSize.toNat := by
  simp [Reader.grown]

/-- Doubling keeps the contents, as long as it does not wrap below the fill. -/
theorem Reader.grown_contents {r : Reader} (hr : r.Valid)
    (h : r.bufferOffset.toNat ≤ r.grown.bufferSize.toNat) : r.grown.contents = r.contents := by
  have halloc := hr.allocated
  have hfill := hr.fill_le
  exact take_resize 0 r.buffer h (by rw [r.grown_offset]; omega)

theorem lacksRoom_iff {r : Reader} (hr : r.Valid) (n : UInt64) :
    r.bufferSize - r.bufferOffset < n ↔ r.bufferSize.toNat < r.bufferOffset.toNat + n.toNat := by
  have hle := hr.fill_le
  rw [UInt64.lt_iff_toNat_lt, UInt64.toNat_sub_of_le _ _ (UInt64.le_iff_toNat_le.mpr hle)]
  omega

/-- **What making room can do** to a valid reader. -/
theorem makeRoom_cases {r : Reader} (hr : r.Valid) (n : UInt64) (realloc : Bool) :
    (r.bufferOffset.toNat + n.toNat ≤ r.bufferSize.toNat ∧ makeRoom r n realloc = some r) ∨
    (r.bufferSize.toNat < r.bufferOffset.toNat + n.toNat ∧ realloc = false ∧
      makeRoom r n realloc = none) ∨
    (r.bufferSize.toNat < r.bufferOffset.toNat + n.toNat ∧ realloc = true ∧
      makeRoom r n realloc = some r.grown) := by
  rw [makeRoom]
  by_cases hlack : r.bufferSize - r.bufferOffset < n
  · have := (lacksRoom_iff hr n).mp hlack
    cases realloc
    · exact Or.inr (Or.inl ⟨this, rfl, by simp [hlack]⟩)
    · exact Or.inr (Or.inr ⟨this, rfl, by simp [hlack]⟩)
  · have := mt (lacksRoom_iff hr n).mpr hlack
    exact Or.inl ⟨by omega, by simp [hlack]⟩

/-- The copy of the write callback, once there is room for it. -/
theorem store_spec {d : Reader} {w : WriteCall} (halloc : d.buffer.length = d.bufferSize.toNat)
    (hroom : d.bufferOffset.toNat + w.realsize.toNat ≤ d.bufferSize.toNat) :
    ∃ buffer, memcpyTo d.buffer d.bufferOffset.toNat w.ptr = some buffer ∧
      (Reader.mk buffer d.bufferSize (d.bufferOffset + w.realsize)).Valid ∧
      (Reader.mk buffer d.bufferSize (d.bufferOffset + w.realsize)).contents = d.contents ++ w.ptr := by
  obtain ⟨buffer, hcopy, hlen, htake⟩ :=
    memcpyTo_spec d.buffer d.bufferOffset.toNat w.ptr (by simpa [halloc])
  have hsum : (d.bufferOffset + w.realsize).toNat = d.bufferOffset.toNat + w.realsize.toNat := by
    rw [UInt64.toNat_add, Nat.mod_eq_of_lt (lt_of_le_of_lt hroom d.bufferSize.toNat_lt)]
  refine ⟨buffer, hcopy, ⟨by simp [hlen, halloc], ?_⟩, ?_⟩
  · show (d.bufferOffset + w.realsize).toNat ≤ d.bufferSize.toNat
    omega
  · show buffer.take (d.bufferOffset + w.realsize).toNat = _
    rw [hsum, ← w.length_ptr, htake]
    rfl

/-- **The write callback under `Fits`** stores the chunk, or returns 0 and changes nothing. -/
theorem writeCallback_spec {r : Reader} {w : WriteCall} (hr : r.Valid) (hfits : Fits r w) :
    (r.bufferSize.toNat < r.bufferOffset.toNat + w.realsize.toNat ∧ w.realloc = false ∧
      writeCallback r w = some (r, 0)) ∨
    ∃ r', writeCallback r w = some (r', w.realsize) ∧ r'.Valid ∧
      r'.contents = r.contents ++ w.ptr := by
  rcases makeRoom_cases hr w.realsize w.realloc with ⟨hroom, hm⟩ | ⟨hlack, hno, hm⟩ | ⟨hlack, hyes, hm⟩
  · obtain ⟨buffer, hcopy, hvalid, hcont⟩ := store_spec hr.allocated hroom
    exact Or.inr ⟨_, by simp [writeCallback, hm, hcopy], hvalid, hcont⟩
  · exact Or.inl ⟨hlack, hno, by simp [writeCallback, hm]⟩
  · have hdouble : r.bufferOffset.toNat + w.realsize.toNat ≤ r.grown.bufferSize.toNat := by
      rw [r.grown_size]
      rcases hfits with h | h | h
      · omega
      · simp [hyes] at h
      · exact h
    obtain ⟨buffer, hcopy, hvalid, hcont⟩ := store_spec (w := w) r.grown_length hdouble
    rw [r.grown_contents hr (by omega)] at hcont
    rw [r.grown_offset] at hcopy
    exact Or.inr ⟨_, by simp [writeCallback, hm, hcopy], hvalid, hcont⟩

/-- **A write that does not fit leaves the buffer.** -/
theorem writeCallback_eq_none {r : Reader} {w : WriteCall} (hr : r.Valid) (hfits : ¬ Fits r w) :
    writeCallback r w = none := by
  simp only [Fits, not_or, not_le] at hfits
  obtain ⟨hlack, hyes, hdouble⟩ := hfits
  rcases makeRoom_cases hr w.realsize w.realloc with ⟨hroom, -⟩ | ⟨-, hno, -⟩ | ⟨-, -, hm⟩
  · omega
  · exact absurd hno hyes
  · have hcopy : memcpyTo r.grown.buffer r.bufferOffset.toNat w.ptr = none := by
      rw [memcpyTo_eq_none, r.grown_length, r.grown_size, w.length_ptr]
      exact hdouble
    simp [writeCallback, hm, hcopy]

/-! ### Taking bytes out -/

/-- The end of `bmx_hstream_read_from_curl`: the bytes stored at `data`, the rest moved down. -/
def copyOut (r : Reader) (size : UInt64) : Option (Reader × List UInt8) :=
  let bytesToCopy := if size < r.bufferOffset then size else r.bufferOffset
  (memcpyFrom r.buffer bytesToCopy.toNat).bind fun data =>
    (memmoveDown r.buffer bytesToCopy.toNat (r.bufferOffset - bytesToCopy).toNat).map fun buffer =>
      ({ r with buffer, bufferOffset := r.bufferOffset - bytesToCopy }, data)

/-- **Taking bytes out of a valid reader** removes the front of its contents. -/
theorem copyOut_spec {r : Reader} (hr : r.Valid) (size : UInt64) :
    ∃ r' data, copyOut r size = some (r', data) ∧ r'.Valid ∧ r.contents = data ++ r'.contents ∧
      data.length = min size.toNat r.bufferOffset.toNat := by
  have halloc := hr.allocated
  have hfill := hr.fill_le
  set n := if size < r.bufferOffset then size else r.bufferOffset with hn
  have hmin : n.toNat = min size.toNat r.bufferOffset.toNat := by
    rw [hn]
    split <;> rename_i hlt <;> rw [UInt64.lt_iff_toNat_lt] at hlt <;> omega
  have hle : n ≤ r.bufferOffset := UInt64.le_iff_toNat_le.mpr (by omega)
  have hsub : (r.bufferOffset - n).toNat = r.bufferOffset.toNat - n.toNat :=
    UInt64.toNat_sub_of_le _ _ hle
  obtain ⟨buffer, hmove, hlen, htake⟩ :=
    memmoveDown_spec r.buffer n.toNat (r.bufferOffset - n).toNat (by omega)
  have hcopy := memcpyFrom_spec r.buffer n.toNat (by omega)
  refine ⟨⟨buffer, r.bufferSize, r.bufferOffset - n⟩, r.buffer.take n.toNat, ?_, ⟨?_, ?_⟩, ?_, ?_⟩
  · simp only [copyOut, ← hn, hcopy, Option.bind_some, hmove, Option.map_some]
  · show buffer.length = r.bufferSize.toNat
    rw [hlen, halloc]
  · show (r.bufferOffset - n).toNat ≤ r.bufferSize.toNat
    omega
  · show r.buffer.take r.bufferOffset.toNat =
      r.buffer.take n.toNat ++ buffer.take (r.bufferOffset - n).toNat
    rw [htake, hsub, Nat.add_sub_cancel' (by omega)]
    have hfront : r.buffer.take n.toNat = (r.buffer.take r.bufferOffset.toNat).take n.toNat := by
      rw [List.take_take, Nat.min_eq_left (by omega)]
    rw [hfront, List.take_append_drop]
  · rw [List.length_take]
    omega

/-! ### Runs of calls -/

/-- A call on the reader; a read is its copying part, since the callbacks its filling part makes are
calls of their own. -/
inductive Call where
  | write (w : WriteCall)
  | read (size : UInt64)
deriving DecidableEq

def call (r : Reader) : Call → Option Reader
  | .write w => (writeCallback r w).map (·.1)
  | .read size => (copyOut r size).map (·.1)

/-- The condition on a call, in the state it is made in. -/
def CallFits (r : Reader) : Call → Prop
  | .write w => Fits r w
  | .read _ => True

theorem call_valid {r : Reader} (hr : r.Valid) (c : Call) (hok : CallFits r c) :
    ∃ r', call r c = some r' ∧ r'.Valid := by
  cases c with
  | write w =>
    rcases writeCallback_spec hr hok with ⟨-, -, hw⟩ | ⟨r', hw, hvalid, -⟩
    · exact ⟨r, by simp [call, hw], hr⟩
    · exact ⟨r', by simp [call, hw], hvalid⟩
  | read size =>
    obtain ⟨r', data, hc, hvalid, -⟩ := copyOut_spec hr size
    exact ⟨r', by simp [call, hc], hvalid⟩

theorem fits_of_call {r r' : Reader} {c : Call} (hr : r.Valid) (h : call r c = some r') :
    CallFits r c := by
  cases c with
  | write w =>
    by_contra hno
    simp [call, writeCallback_eq_none hr hno] at h
  | read size => trivial

/-- A run of calls that stays inside the buffer. -/
structure InBounds (r : Reader) (calls : List Call) : Prop where
  /-- initially and after every call, the fill is within the allocated block -/
  valid : ∀ pre post, calls = pre ++ post → ∃ s, run call r pre = some s ∧ s.Valid
  /-- at the `memcpy` of a write the chunk fits behind the fill -/
  memcpy : ∀ pre w post, calls = pre ++ .write w :: post → ∀ s, run call r pre = some s →
    ∀ d, makeRoom s w.realsize w.realloc = some d →
      d.bufferOffset.toNat + w.realsize.toNat ≤ d.bufferSize.toNat
  /-- a failed `realloc` changes nothing and the callback returns 0 -/
  failed : ∀ pre w post, calls = pre ++ .write w :: post → ∀ s, run call r pre = some s →
    makeRoom s w.realsize w.realloc = none → writeCallback s w = some (s, 0)

/-- **The reader stays inside its buffer exactly when** its first block was allocated and every
write fits, at the latest after one doubling. -/
theorem inBounds_iff (o : InitOutcome) (r : Reader) (hinit : curlReaderInit o = some r)
    (calls : List Call) :
    InBounds r calls ↔ o.bufferMalloc = true ∧ Along call CallFits r calls := by
  rw [← curlReaderInit_valid_iff hinit]
  constructor
  · intro h
    obtain ⟨s₀, hs₀, hr⟩ := h.valid [] calls rfl
    obtain rfl : r = s₀ := Option.some.inj hs₀
    refine ⟨hr, fun pre c post hl mid hmid => ?_⟩
    obtain ⟨s, hs, hvalid⟩ := h.valid pre (c :: post) hl
    obtain rfl : s = mid := Option.some.inj (hs.symm.trans hmid)
    obtain ⟨s', hs', -⟩ := h.valid (pre ++ [c]) post (by simp [hl])
    rw [run_concat, hs] at hs'
    exact fits_of_call hvalid hs'
  · intro hparts
    obtain ⟨hr, hal⟩ := hparts
    have hvalid : ∀ pre post, calls = pre ++ post → ∃ s, run call r pre = some s ∧ s.Valid := by
      intro pre post heq
      subst heq
      exact run_total Reader.Valid (fun s c hs hok => call_valid hs c hok) hr hal.left
    refine ⟨hvalid, ?_, ?_⟩
    · intro pre w post hl s hs d hd
      obtain ⟨s', hs', hsv⟩ := hvalid pre _ hl
      obtain rfl : s' = s := Option.some.inj (hs'.symm.trans hs)
      have hfits : Fits s' w := hal pre (.write w) post hl s' hs
      rcases makeRoom_cases hsv w.realsize w.realloc with ⟨hroom, hm⟩ | ⟨-, -, hm⟩ | ⟨hlack, hyes, hm⟩
      · obtain rfl : s' = d := Option.some.inj (hm.symm.trans hd)
        exact hroom
      · rw [hm] at hd
        cases hd
      · obtain rfl : s'.grown = d := Option.some.inj (hm.symm.trans hd)
        rw [s'.grown_size, s'.grown_offset]
        rcases hfits with h | h | h
        · omega
        · simp [hyes] at h
        · exact h
    · intro pre w post _ s _ hnone
      simp [writeCallback, hnone]

/-- Fresh reader, all allocations served. -/
def freshReader : Reader := ⟨List.replicate 4096 0, 4096, 0⟩

/-- A chunk of `n` zero bytes, as libcurl passes it. -/
def zeroWrite (n : UInt64) : WriteCall where
  ptr := List.replicate n.toNat 0
  size := 1
  nmemb := n
  realloc := true
  ptr_length := by simp

theorem inBounds_small : InBounds freshReader [.write (zeroWrite 100), .read 64] :=
  (inBounds_iff ⟨true, true, true⟩ freshReader rfl _).mpr
    ⟨rfl, along_cons.mpr ⟨(by decide : Fits freshReader (zeroWrite 100)), fun _ _ =>
      along_cons.mpr ⟨trivial, fun _ _ => along_nil _⟩⟩⟩

/-- A first chunk of 16 KiB overruns the 8 KiB that one doubling gives. -/
theorem not_every_run_inBounds :
    ¬ ∀ (o : InitOutcome) (r : Reader) (calls : List Call), curlReaderInit o = some r →
      o.bufferMalloc = true → InBounds r calls := by
  intro hall
  have hsafe := hall ⟨true, true, true⟩ freshReader [.write (zeroWrite 16384)] rfl rfl
  have hfits := ((inBounds_iff ⟨true, true, true⟩ freshReader rfl _).mp hsafe).2
  exact absurd (along_cons.mp hfits).1 (by decide : ¬ Fits freshReader (zeroWrite 16384))

end NetMod.HstreamReader
