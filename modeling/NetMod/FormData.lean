import NetMod.BlitzText
import NetMod.Lib.ByteMemory
import NetMod.Lib.FreeLedger
import NetMod.Lib.PartialRuns

/-!
# The strings of a form: `TCurlFormData`

A form keeps the strings it has allocated in `ptrs[0..count)`, an array that grows in steps of five,
and hands them to `curl_formadd`, which links a part to the tail `last`.  `free` releases the parts
and the strings but leaves `count` and `last` as they are: `bookkept_iff` says which sequences of
calls keep the books.
-/

namespace NetMod.FormData

open NetMod.BlitzText NetMod.ByteMemory NetMod.FreeLedger NetMod.PartialRuns

/-- What a part holds besides its name: the strings are named by their position among the allocated
ones. -/
inductive PartValue where
  | contents (c : Nat)
  | file (f : Nat)
  | fileContent (f : Nat)
  | buffer (b : Nat) (address : Nat) (length : Int32)
deriving DecidableEq

/-- `struct curl_httppost`. -/
structure FormPart where
  name : Nat
  value : PartValue
  contentType : Option Nat
  next : Option Nat := none
deriving DecidableEq

/-- A form, with all the strings it ever allocated, the parts `curl_formadd` made for it, and the
calls of `MemFree`.  `Null` and the empty array are one value. -/
structure TCurlFormData where
  post : Option Nat := none
  last : Option Nat := none
  count : Nat := 0
  ptrs : List (Option Nat) := []
  strings : List (List UInt8) := []
  parts : List FormPart := []
  ledger : List (Event Nat) := []
deriving DecidableEq

inductive Call where
  | addContent (name contents contentType : Text) (linked : Bool)
  | addFile (name file contentType : Text) (linked : Bool)
  | addFileContent (name file contentType : Text) (linked : Bool)
  | addBuffer (name bufName : Text) (buffer : Nat) (length : Int32) (linked : Bool)
  | free

namespace TCurlFormData

/-- `t.toUTF8String()` allocates the string and gives its name. -/
def toUTF8String (s : TCurlFormData) (t : Text) : TCurlFormData × Nat :=
  ({ s with strings := s.strings ++ [BlitzText.toUTF8String t] }, s.strings.length)

/-- The array after the extension step of `addPtr`. -/
def extend (s : TCurlFormData) : Option (List (Option Nat)) :=
  if s.count = s.ptrs.length then
    let tmpPtrs := List.replicate ((s.ptrs.length + 5 : Int).bmod (2 ^ 32)).toNat none
    (memcpyFrom s.ptrs s.count).bind fun copied => memcpyTo tmpPtrs 0 copied
  else some s.ptrs

/-- `addPtr`; `none` is an index out of the array. -/
def addPtr (s : TCurlFormData) (newPtr : Nat) : Option TCurlFormData :=
  s.extend.bind fun ptrs => (assign ptrs s.count (some newPtr)).map fun ptrs =>
    { s with ptrs := ptrs, count := s.count + 1 }

/-- `curl_formadd`: a part that could be made becomes the tail. -/
def formadd (s : TCurlFormData) (linked : Bool) (part : FormPart) : TCurlFormData :=
  if linked then
    let new := s.parts.length
    match s.last with
    | some l =>
      { s with parts := s.parts.modify l (fun q => { q with next := some new }) ++ [part],
               last := some new }
    | none => { s with parts := s.parts ++ [part], post := some new, last := some new }
  else s

/-- The body the four methods share; a string that is `Null` gives no content type. -/
def addSection (s : TCurlFormData) (name value contentType : Text) (linked : Bool)
    (part : Nat → Nat → Option Nat → FormPart) : Option TCurlFormData :=
  let (s, n) := s.toUTF8String name
  let (s, c) := s.toUTF8String value
  (s.addPtr n).bind fun s => (s.addPtr c).bind fun s =>
    if contentType ≠ [] then
      let (s, t) := s.toUTF8String contentType
      (s.addPtr t).map fun s => s.formadd linked (part n c (some t))
    else some (s.formadd linked (part n c none))

def addContent (s : TCurlFormData) (name contents contentType : Text) (linked : Bool) :
    Option TCurlFormData :=
  s.addSection name contents contentType linked fun n c t => ⟨n, .contents c, t, none⟩

def addFile (s : TCurlFormData) (name file contentType : Text) (linked : Bool) :
    Option TCurlFormData :=
  s.addSection name file contentType linked fun n f t => ⟨n, .file f, t, none⟩

def addFileContent (s : TCurlFormData) (name file contentType : Text) (linked : Bool) :
    Option TCurlFormData :=
  s.addSection name file contentType linked fun n f t => ⟨n, .fileContent f, t, none⟩

/-- `addBuffer` has no content type. -/
def addBuffer (s : TCurlFormData) (name bufName : Text) (buffer : Nat) (length : Int32)
    (linked : Bool) : Option TCurlFormData :=
  s.addSection name bufName [] linked fun n b t => ⟨n, .buffer b buffer length, t, none⟩

/-- `free`, which `Delete` calls; `freeLists` finds no list in a form. -/
def free (s : TCurlFormData) : Option TCurlFormData :=
  let s := { s with post := none }
  if s.ptrs ≠ [] ∧ 0 < s.count then
    (memcpyFrom s.ptrs s.count).map fun freed =>
      { s with ptrs := [], ledger := s.ledger ++ (freed.filterMap id).map .free }
  else some s

def delete (s : TCurlFormData) : Option TCurlFormData := s.free

def step (s : TCurlFormData) : Call → Option TCurlFormData
  | .addContent name contents contentType linked => s.addContent name contents contentType linked
  | .addFile name file contentType linked => s.addFile name file contentType linked
  | .addFileContent name file contentType linked => s.addFileContent name file contentType linked
  | .addBuffer name bufName buffer length linked => s.addBuffer name bufName buffer length linked
  | .free => s.free

/-- The allocated strings that were not freed, in order. -/
def live (s : TCurlFormData) : List Nat :=
  (List.range s.strings.length).filter fun i => decide (.free i ∉ s.ledger)

/-- `ptrs[0..count)` is inside the array and has the live strings. -/
structure Tracks (s : TCurlFormData) : Prop where
  inside : s.count ≤ s.ptrs.length
  held : s.ptrs.take s.count = s.live.map some

/-- The fields are those of a form just made. -/
structure IsReset (s : TCurlFormData) : Prop where
  count : s.count = 0
  ptrs : s.ptrs = []
  post : s.post = none
  last : s.last = none

end TCurlFormData

open TCurlFormData

variable {s : TCurlFormData} {ps : List Nat}

/-! ### Storing a string -/

/-- The longest array: five cells more overflow an `Int`. -/
def maxStrings : Nat := 2147483645

/-- The array was grown in steps of five and holds the strings `ps`. -/
structure Held (s : TCurlFormData) (ps : List Nat) : Prop where
  steps : 5 ∣ s.ptrs.length
  bound : s.ptrs.length ≤ maxStrings
  count : s.count = ps.length
  inside : s.count ≤ s.ptrs.length
  held : s.ptrs.take s.count = ps.map some

/-- After the extension step there is room, and the strings are where they were. -/
theorem extend_spec (h : Held s ps) (hroom : ps.length < maxStrings) :
    ∃ ptrs, s.extend = some ptrs ∧ s.count < ptrs.length ∧ Held { s with ptrs := ptrs } ps := by
  have hsteps := h.steps
  have hcount := h.count
  have hinside := h.inside
  rw [extend]
  split
  · rename_i hfull
    have hlen : ((s.ptrs.length + 5 : Int).bmod (2 ^ 32)).toNat = s.ptrs.length + 5 := by
      rw [Int.bmod_eq_of_le (by omega) (by rw [maxStrings] at hroom; omega)]
      omega
    have hcopied : (s.ptrs.take s.count).length = s.count := List.length_take_of_le hinside
    obtain ⟨tmpPtrs, hcopy, hlength, htake⟩ :=
      memcpyTo_spec (List.replicate (s.ptrs.length + 5) (none : Option Nat)) 0
        (s.ptrs.take s.count) (by rw [hcopied, List.length_replicate]; omega)
    rw [List.length_replicate] at hlength
    refine ⟨tmpPtrs, ?_, by omega, ⟨?_, ?_, h.count, ?_, ?_⟩⟩
    · dsimp only
      rw [hlen, memcpyFrom_spec _ _ hinside, Option.bind_some]
      exact hcopy
    · show 5 ∣ tmpPtrs.length
      omega
    · show tmpPtrs.length ≤ maxStrings
      rw [maxStrings] at hroom ⊢
      omega
    · show s.count ≤ tmpPtrs.length
      omega
    · show tmpPtrs.take s.count = ps.map some
      rw [Nat.zero_add, hcopied] at htake
      rw [htake, h.held]
      rfl
  · exact ⟨s.ptrs, rfl, by omega, h⟩

/-- **One string is stored** behind the others. -/
theorem addPtr_spec (h : Held s ps) (hroom : ps.length < maxStrings) (p : Nat) :
    ∃ s', s.addPtr p = some s' ∧ Held s' (ps ++ [p]) ∧ s'.strings = s.strings ∧
      s'.ledger = s.ledger := by
  obtain ⟨ptrs, hextend, hlt, hheld⟩ := extend_spec h hroom
  obtain ⟨ptrs', hassign, hlength, htake⟩ := assign_spec ptrs (some p) hlt
  have hinside := hheld.held
  refine ⟨{ s with ptrs := ptrs', count := s.count + 1 }, ?_, ⟨?_, ?_, ?_, ?_, ?_⟩, rfl, rfl⟩
  · rw [addPtr, hextend, Option.bind_some, hassign]
    rfl
  · show 5 ∣ ptrs'.length
    rw [hlength]
    exact hheld.steps
  · show ptrs'.length ≤ maxStrings
    rw [hlength]
    exact hheld.bound
  · show s.count + 1 = (ps ++ [p]).length
    rw [h.count, List.length_append]
    rfl
  · show s.count + 1 ≤ ptrs'.length
    omega
  · show ptrs'.take (s.count + 1) = (ps ++ [p]).map some
    rw [htake, List.map_append, ← hinside]
    rfl

/-- A full array cannot grow. -/
theorem addPtr_full (h : Held s ps) (hfull : ps.length = maxStrings) (p : Nat) :
    s.addPtr p = none := by
  have hbound := h.bound
  have hinside := h.inside
  have hcount := h.count
  have hlen : s.ptrs.length = maxStrings := by omega
  have hshort : ((s.ptrs.length + 5 : Int).bmod (2 ^ 32)).toNat = 0 := by
    rw [hlen]
    decide
  have hcopy : memcpyTo ([] : List (Option Nat)) 0 (s.ptrs.take s.count) = none := by
    rw [memcpyTo_eq_none, List.length_take, hlen, hcount, hfull]
    decide
  rw [addPtr, extend, if_pos (by omega)]
  dsimp only
  rw [hshort, memcpyFrom_spec _ _ hinside, Option.bind_some, List.replicate_zero, hcopy]
  rfl

/-! ### One call -/

/-- How many strings a call allocates. -/
def Call.strings : Call → Nat
  | .addContent _ _ contentType _ => if contentType = [] then 2 else 3
  | .addFile _ _ contentType _ => if contentType = [] then 2 else 3
  | .addFileContent _ _ contentType _ => if contentType = [] then 2 else 3
  | .addBuffer _ _ _ _ _ => 2
  | .free => 0

/-- Nothing was freed and the form tracks the `k` strings it has allocated. -/
structure Filled (s : TCurlFormData) (k : Nat) : Prop where
  held : Held s (List.range k)
  strings : s.strings.length = k
  ledger : s.ledger = []
  fresh : k = 0 → IsReset s

theorem filled_new : Filled {} 0 := by
  refine ⟨⟨⟨0, rfl⟩, Nat.zero_le _, rfl, Nat.le_refl 0, rfl⟩, rfl, rfl, fun _ => ⟨rfl, rfl, rfl, rfl⟩⟩

/-- Only the array and its count matter for what it holds. -/
theorem Held.congr (h : Held s ps) {s' : TCurlFormData} (hptrs : s'.ptrs = s.ptrs)
    (hcount : s'.count = s.count) : Held s' ps := by
  obtain ⟨hsteps, hbound, hlen, hinside, hheld⟩ := h
  rw [← hptrs] at hsteps hbound hinside hheld
  rw [← hcount] at hlen hinside hheld
  exact ⟨hsteps, hbound, hlen, hinside, hheld⟩

theorem formadd_frame (s : TCurlFormData) (linked : Bool) (part : FormPart) :
    ∃ post last parts, s.formadd linked part =
      { s with post := post, last := last, parts := parts } := by
  rw [formadd]
  split
  · dsimp only
    cases s.last with
    | none => exact ⟨_, _, _, rfl⟩
    | some l => exact ⟨_, _, _, rfl⟩
  · exact ⟨_, _, _, rfl⟩

/-- Linking a part leaves the strings alone. -/
theorem filled_formadd {k : Nat} (hk : 0 < k) (hheld : Held s (List.range k))
    (hstrings : s.strings.length = k) (hledger : s.ledger = []) (linked : Bool) (part : FormPart) :
    Filled (s.formadd linked part) k := by
  obtain ⟨post, last, parts, heq⟩ := formadd_frame s linked part
  rw [heq]
  exact ⟨hheld.congr rfl rfl, hstrings, hledger, fun hzero => by omega⟩

theorem addPtr_range {k : Nat} (h : Held s (List.range k)) (hroom : k < maxStrings) :
    ∃ s', s.addPtr k = some s' ∧ Held s' (List.range (k + 1)) ∧ s'.strings = s.strings ∧
      s'.ledger = s.ledger := by
  rw [List.range_succ]
  exact addPtr_spec h (by rw [List.length_range]; exact hroom) k

/-- The form once the name and the value are allocated. -/
def withSection (s : TCurlFormData) (name value : Text) : TCurlFormData :=
  { s with strings := s.strings ++ [BlitzText.toUTF8String name] ++ [BlitzText.toUTF8String value] }

/-- A section with the names of its strings. -/
theorem addSection_eq {k : Nat} (hstrings : s.strings.length = k) (name value contentType : Text)
    (linked : Bool) (part : Nat → Nat → Option Nat → FormPart) :
    s.addSection name value contentType linked part =
      ((withSection s name value).addPtr k).bind fun s => (s.addPtr (k + 1)).bind fun s =>
        if contentType ≠ [] then
          ((s.toUTF8String contentType).1.addPtr s.strings.length).map fun s' =>
            s'.formadd linked (part k (k + 1) (some s.strings.length))
        else some (s.formadd linked (part k (k + 1) none)) := by
  subst hstrings
  have hvalue : (s.toUTF8String name).1.strings.length = s.strings.length + 1 := by
    simp [TCurlFormData.toUTF8String]
  rw [← hvalue]
  rfl

/-- **A section** allocates its strings and stores them, as long as an array can hold them. -/
theorem addSection_spec {k : Nat} (h : Filled s k) (name value contentType : Text) (linked : Bool)
    (part : Nat → Nat → Option Nat → FormPart)
    (hroom : k + (if contentType = [] then 2 else 3) ≤ maxStrings) :
    ∃ s', s.addSection name value contentType linked part = some s' ∧
      Filled s' (k + if contentType = [] then 2 else 3) := by
  obtain ⟨hheld, hstrings, hledger, -⟩ := h
  have htwo : k + 2 ≤ maxStrings := by
    split at hroom <;> omega
  have hlength : (withSection s name value).strings.length = k + 2 := by
    simp [withSection, hstrings]
  obtain ⟨s₁, h₁, hheld₁, hs₁, hl₁⟩ :=
    addPtr_range (s := withSection s name value) (hheld.congr rfl rfl) (by omega)
  obtain ⟨s₂, h₂, hheld₂, hs₂, hl₂⟩ := addPtr_range hheld₁ (by omega)
  have hlength₂ : s₂.strings.length = k + 2 := by rw [hs₂, hs₁, hlength]
  have hledger₂ : s₂.ledger = [] := by rw [hl₂, hl₁, ← hledger]; rfl
  rw [addSection_eq hstrings, h₁, Option.bind_some, h₂, Option.bind_some, hlength₂]
  by_cases hnull : contentType = []
  · rw [if_neg (not_not.mpr hnull), if_pos hnull]
    exact ⟨_, rfl, filled_formadd (by omega) hheld₂ hlength₂ hledger₂ _ _⟩
  · rw [if_neg hnull] at hroom
    rw [if_pos hnull, if_neg hnull]
    have hlength₂' : (s₂.toUTF8String contentType).1.strings.length = k + 3 := by
      simp [TCurlFormData.toUTF8String, hlength₂]
    obtain ⟨s₃, h₃, hheld₃, hs₃, hl₃⟩ :=
      addPtr_range (s := (s₂.toUTF8String contentType).1) (hheld₂.congr rfl rfl) (by omega)
    rw [h₃]
    refine ⟨_, rfl, filled_formadd (by omega) hheld₃ ?_ ?_ _ _⟩
    · rw [hs₃, hlength₂']
    · rw [hl₃]
      exact hledger₂

/-- A section whose strings do not fit stores one of them out of the array. -/
theorem addSection_full {k : Nat} (h : Filled s k) (name value contentType : Text) (linked : Bool)
    (part : Nat → Nat → Option Nat → FormPart)
    (hfull : maxStrings < k + if contentType = [] then 2 else 3) :
    s.addSection name value contentType linked part = none := by
  obtain ⟨hheld, hstrings, -, -⟩ := h
  have hk : k ≤ maxStrings := by
    have hcount := hheld.count
    have hinside := hheld.inside
    have hbound := hheld.bound
    rw [List.length_range] at hcount
    omega
  have hlength : (withSection s name value).strings.length = k + 2 := by
    simp [withSection, hstrings]
  have hheld' : Held (withSection s name value) (List.range k) := hheld.congr rfl rfl
  rw [addSection_eq hstrings]
  by_cases hfirst : k = maxStrings
  · rw [addPtr_full hheld' (by rw [List.length_range, hfirst])]
    rfl
  obtain ⟨s₁, h₁, hheld₁, hs₁, -⟩ := addPtr_range hheld' (by omega)
  rw [h₁, Option.bind_some]
  by_cases hsecond : k + 1 = maxStrings
  · rw [addPtr_full hheld₁ (by rw [List.length_range, hsecond])]
    rfl
  obtain ⟨s₂, h₂, hheld₂, hs₂, -⟩ := addPtr_range hheld₁ (by omega)
  have hnull : contentType ≠ [] := by
    intro hnull
    rw [if_pos hnull] at hfull
    omega
  rw [if_neg hnull] at hfull
  rw [h₂, Option.bind_some, if_pos hnull]
  have hheld₂' : Held (s₂.toUTF8String contentType).1 (List.range (k + 1 + 1)) :=
    hheld₂.congr rfl rfl
  rw [addPtr_full hheld₂' (by rw [List.length_range]; omega)]
  rfl

/-- Every call but `free` adds a section. -/
theorem step_section (s : TCurlFormData) {c : Call} (hc : c ≠ .free) :
    ∃ name value contentType linked part,
      step s c = s.addSection name value contentType linked part ∧
        c.strings = if contentType = [] then 2 else 3 := by
  cases c with
  | addContent name contents contentType linked => exact
    ⟨name, contents, contentType, linked, fun n c t => ⟨n, .contents c, t, none⟩, rfl, rfl⟩
  | addFile name file contentType linked => exact
    ⟨name, file, contentType, linked, fun n f t => ⟨n, .file f, t, none⟩, rfl, rfl⟩
  | addFileContent name file contentType linked => exact
    ⟨name, file, contentType, linked, fun n f t => ⟨n, .fileContent f, t, none⟩, rfl, rfl⟩
  | addBuffer name bufName buffer length linked => exact
    ⟨name, bufName, [], linked, fun n b t => ⟨n, .buffer b buffer length, t, none⟩, rfl, rfl⟩
  | free => exact absurd rfl hc

/-- **A call that adds** goes through exactly when its strings fit. -/
theorem step_spec {k : Nat} (h : Filled s k) {c : Call} (hc : c ≠ .free)
    (hroom : k + c.strings ≤ maxStrings) :
    ∃ s', step s c = some s' ∧ Filled s' (k + c.strings) := by
  obtain ⟨name, value, contentType, linked, part, hstep, hstrings⟩ := step_section s hc
  rw [hstep, hstrings]
  rw [hstrings] at hroom
  exact addSection_spec h name value contentType linked part hroom

theorem step_full {k : Nat} (h : Filled s k) {c : Call} (hc : c ≠ .free)
    (hfull : maxStrings < k + c.strings) : step s c = none := by
  obtain ⟨name, value, contentType, linked, part, hstep, hstrings⟩ := step_section s hc
  rw [hstep]
  rw [hstrings] at hfull
  exact addSection_full h name value contentType linked part hfull

/-- `free` releases what the array holds, and the count stays. -/
theorem free_spec {k : Nat} (h : Filled s k) :
    ∃ s', s.free = some s' ∧ s'.count = k ∧ s'.strings.length = k ∧
      s'.ledger = (List.range k).map .free := by
  have hcount : s.count = k := by rw [h.held.count, List.length_range]
  rw [TCurlFormData.free]
  dsimp only
  by_cases hk : k = 0
  · rw [if_neg (by omega)]
    refine ⟨_, rfl, hcount, h.strings, ?_⟩
    rw [hk]
    exact h.ledger
  · have hptrs : s.ptrs ≠ [] := by
      intro hempty
      have hinside := h.held.inside
      rw [hempty, List.length_nil] at hinside
      omega
    rw [if_pos ⟨hptrs, by omega⟩, memcpyFrom_spec _ _ h.held.inside]
    refine ⟨_, rfl, hcount, h.strings, ?_⟩
    show s.ledger ++ ((s.ptrs.take s.count).filterMap id).map .free = _
    rw [h.ledger, h.held.held, List.filterMap_map, List.nil_append]
    exact congrArg _ List.filterMap_some

/-- A form without strings is as new, and `free` leaves it so. -/
theorem free_empty (h : Filled s 0) : s.free = some s := by
  have hcount : s.count = 0 := (h.fresh rfl).count
  have hpost : s.post = none := (h.fresh rfl).post
  rw [TCurlFormData.free, ← hpost]
  exact if_neg (by show ¬ (s.ptrs ≠ [] ∧ 0 < s.count); omega)

theorem tracks_of_filled {k : Nat} (h : Filled s k) : Tracks s := by
  refine ⟨h.held.inside, ?_⟩
  have hlive : s.live = List.range k := by
    rw [live, h.ledger, h.strings]
    exact List.filter_eq_self.mpr fun i _ => decide_eq_true List.not_mem_nil
  rw [h.held.held, hlive]

/-! ### Runs -/

/-- How many strings the calls allocate together. -/
def total (calls : List Call) : Nat := (calls.map Call.strings).sum

/-- Nothing is added before a `free`. -/
def FreesFirst (calls : List Call) : Prop :=
  ∀ before behind, calls = before ++ .free :: behind → ∀ c ∈ before, c = .free

/-- Up to every point of the run no string was stored out of the array and the array has the live
strings; the form is as new after each `free`; and `Delete` leaves every string freed once. -/
structure Bookkept (calls : List Call) : Prop where
  tracked : ∀ before behind, calls = before ++ behind →
    ∃ s, run step {} before = some s ∧ Tracks s
  fresh : ∀ before behind s, calls = before ++ .free :: behind →
    run step {} (before ++ [.free]) = some s → IsReset s
  freed : ∃ s s', run step {} calls = some s ∧ s.delete = some s' ∧
    ∀ i < s'.strings.length, FreedOnce s'.ledger i

theorem total_concat (calls : List Call) (c : Call) :
    total (calls ++ [c]) = total calls + c.strings := by
  simp [total]

theorem two_le_strings {c : Call} (hc : c ≠ .free) : 2 ≤ c.strings := by
  obtain ⟨-, -, contentType, -, -, -, hstrings⟩ := step_section {} hc
  rw [hstrings]
  split <;> omega

theorem total_eq_zero {calls : List Call} : total calls = 0 ↔ ∀ c ∈ calls, c = .free := by
  rw [total, List.sum_eq_zero_iff_forall_eq_nat]
  constructor
  · intro hzero c hc
    by_contra hne
    have htwo := two_le_strings hne
    have hstrings : c.strings = 0 := hzero _ (List.mem_map_of_mem hc)
    omega
  · intro hfree n hn
    obtain ⟨c, hc, rfl⟩ := List.mem_map.mp hn
    rw [hfree c hc]
    rfl

theorem freesFirst_concat {calls : List Call} {c : Call} :
    FreesFirst (calls ++ [c]) ↔ FreesFirst calls ∧ (c = .free → total calls = 0) := by
  rw [total_eq_zero]
  constructor
  · intro h
    refine ⟨fun before behind hsplit => h before (behind ++ [c]) (by simp [hsplit]), ?_⟩
    rintro rfl
    exact h calls [] rfl
  · rintro ⟨h, hlast⟩ before behind hsplit
    rcases List.eq_nil_or_concat behind with rfl | ⟨behind', d, rfl⟩
    · obtain ⟨rfl, hc⟩ := List.append_inj' hsplit rfl
      exact hlast (List.cons.inj hc).1
    · rw [List.concat_eq_append, ← List.cons_append, ← List.append_assoc] at hsplit
      exact h before behind' (List.append_inj' hsplit rfl).1

/-- **A run that frees first** tracks all its strings. -/
theorem filled_run {calls : List Call} (hfrees : FreesFirst calls)
    (htotal : total calls ≤ maxStrings) :
    ∃ s, run step {} calls = some s ∧ Filled s (total calls) := by
  induction calls using List.reverseRecOn with
  | nil => exact ⟨{}, rfl, filled_new⟩
  | append_singleton calls c ih =>
    rw [total_concat] at htotal ⊢
    obtain ⟨hbefore, hlast⟩ := freesFirst_concat.mp hfrees
    obtain ⟨s, hrun, hfilled⟩ := ih hbefore (by omega)
    rw [run_concat, hrun, Option.bind_some]
    by_cases hc : c = .free
    · subst hc
      have hzero := hlast rfl
      rw [hzero] at hfilled ⊢
      exact ⟨s, free_empty hfilled, hfilled⟩
    · exact step_spec hfilled hc htotal

/-- What a bookkept run has done so far. -/
theorem prefix_of_bookkept {calls : List Call} (h : Bookkept calls) :
    ∀ before behind, calls = before ++ behind → FreesFirst before ∧ total before ≤ maxStrings := by
  intro before
  induction before using List.reverseRecOn with
  | nil =>
    intro behind _
    refine ⟨fun before behind hsplit => ?_, Nat.zero_le _⟩
    simp at hsplit
  | append_singleton before c ih =>
    intro behind hsplit
    have hsplit' : calls = before ++ c :: behind := by
      rw [hsplit, List.append_assoc, List.singleton_append]
    obtain ⟨hfrees, htotal⟩ := ih (c :: behind) hsplit'
    obtain ⟨s, hrun, hfilled⟩ := filled_run hfrees htotal
    rw [freesFirst_concat, total_concat]
    by_cases hc : c = .free
    · subst hc
      obtain ⟨s', hfree, hcount, -, -⟩ := free_spec hfilled
      have hreset : IsReset s' := by
        apply h.fresh before behind s' hsplit'
        rw [run_concat, hrun, Option.bind_some]
        exact hfree
      refine ⟨⟨hfrees, fun _ => ?_⟩, htotal⟩
      rw [← hcount, hreset.count]
    · refine ⟨⟨hfrees, fun hfree => absurd hfree hc⟩, ?_⟩
      by_contra hfull
      obtain ⟨s', hrun', -⟩ := h.tracked (before ++ [c]) behind hsplit
      rw [run_concat, hrun, Option.bind_some, step_full hfilled hc (by omega)] at hrun'
      cases hrun'

/-- **The books are kept exactly when nothing is added before a `free`** and the strings fit into an
array. -/
theorem bookkept_iff (calls : List Call) :
    Bookkept calls ↔ FreesFirst calls ∧ total calls ≤ maxStrings := by
  constructor
  · intro h
    exact prefix_of_bookkept h calls [] (List.append_nil _).symm
  · rintro ⟨hfrees, htotal⟩
    have hprefix : ∀ before behind, calls = before ++ behind →
        FreesFirst before ∧ total before ≤ maxStrings := by
      rintro before behind rfl
      refine ⟨fun b b' hsplit => hfrees b (b' ++ behind) (by rw [hsplit]; simp), ?_⟩
      rw [total, List.map_append, List.sum_append] at htotal
      exact Nat.le_trans (Nat.le_add_right _ _) htotal
    refine ⟨fun before behind hsplit => ?_, fun before behind s hsplit hs => ?_, ?_⟩
    · obtain ⟨hbefore, hfits⟩ := hprefix before behind hsplit
      obtain ⟨s, hrun, hfilled⟩ := filled_run hbefore hfits
      exact ⟨s, hrun, tracks_of_filled hfilled⟩
    · have hsplit' : calls = (before ++ [.free]) ++ behind := by
        rw [hsplit, List.append_assoc, List.singleton_append]
      obtain ⟨hbefore, hfits⟩ := hprefix _ behind hsplit'
      obtain ⟨s', hrun, hfilled⟩ := filled_run hbefore hfits
      have hzero : total (before ++ [.free]) = 0 := by
        rw [total_concat, (freesFirst_concat.mp hbefore).2 rfl]
        rfl
      obtain rfl : s' = s := Option.some.inj (hrun.symm.trans hs)
      rw [hzero] at hfilled
      exact hfilled.fresh rfl
    · obtain ⟨s, hrun, hfilled⟩ := filled_run hfrees htotal
      obtain ⟨s', hfree, -, hstrings, hledger⟩ := free_spec hfilled
      refine ⟨s, s', hrun, hfree, fun i hi => ?_⟩
      rw [hledger]
      rw [hstrings] at hi
      exact freedOnce_map List.nodup_range (List.mem_range.mpr hi)

/-- A section, `free` and a section: the second is stored out of the array. -/
theorem not_every_form_bookkept : ¬ ∀ calls : List Call, Bookkept calls := by
  intro hall
  obtain ⟨s, hrun, -⟩ := (hall [.addContent (lit "name") (lit "daniel") [] true, .free,
    .addContent (lit "project") (lit "curl") [] true]).tracked _ [] (List.append_nil _).symm
  have hout : run step {} [.addContent (lit "name") (lit "daniel") [] true, .free,
      .addContent (lit "project") (lit "curl") [] true] = none := by decide
  rw [hout] at hrun
  cases hrun

end NetMod.FormData
