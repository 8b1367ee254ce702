import NetMod.Lib.ByteMemory
import NetMod.Utf8Text

/-!
# String lists of libcurl: `TSList` and `curlProcessSlist`

A native list is the list of its C strings, `NULL` the empty one.  `curlProcessSlist` walks over it
with a count and an array that grows by half when it is full.  The array's lengths are `capacity k`;
the growth computes `count * 3` as an `Int`, which overflows at `capacity 44`, so the walk reads back
every list that is not longer than that (`processLoop_eq`).
-/

namespace NetMod.CurlSlist

open NetMod.BlitzText NetMod.Utf8Text NetMod.ByteMemory

/-- `SCurlSlist Ptr`: the strings of the nodes. -/
abbrev SCurlSlist := List (List UInt8)

/-- `curl_slist_append`; `none` is the `NULL` of a failed allocation. -/
def curlSlistAppend (allocates : Bool) (list : SCurlSlist) (data : List UInt8) :
    Option SCurlSlist :=
  if allocates then some (list ++ [data.takeWhile (· ≠ 0)]) else none

structure TSList where
  slist : SCurlSlist := []
  count : Int32 := 0
deriving DecidableEq

/-- `Append`, with its result. -/
def TSList.append (allocates : Bool) (l : TSList) (txt : Text) : TSList × Bool :=
  match curlSlistAppend allocates l.slist (toUTF8String txt) with
  | some tmp => (⟨tmp, l.count + 1⟩, true)
  | none => (⟨[], 0⟩, false)

/-- The body of the loop of `processArray`. -/
def appendString (l : TSList) (txt : Text × Bool) : TSList :=
  match curlSlistAppend txt.2 l.slist (toUTF8String txt.1) with
  | some tmp => ⟨tmp, l.count + 1⟩
  | none => l

/-- The list `TCurlEasy.processArray` makes of an array; each string comes with the success of its
allocation. -/
def processArray (array : List (Text × Bool)) : Option TSList :=
  if array ≠ [] then some (array.foldl appendString {}) else none

/-- `list[..count * 3 / 2]`. -/
def grow (list : List Text) (count : Nat) : List Text :=
  resize [] list (((count * 3 : Int).bmod (2 ^ 32)).tdiv 2).toNat

/-- The loop of `curlProcessSlist`; `none` is the exception of an index past the end. -/
def processLoop : SCurlSlist → List Text → Nat → Option (List Text)
  | [], list, count => some (resize [] list count)
  | data :: nxt, list, count =>
    let list := if count = list.length then grow list count else list
    (assign list count (fromUTF8String data)).bind fun list => processLoop nxt list (count + 1)

/-- `curlProcessSlist`; `Null` and the empty array are one value. -/
def curlProcessSlist : Option TSList → Option (List Text)
  | none => some []
  | some l => processLoop l.slist (List.replicate 16 []) 0

/-! ### The lists that are built -/

/-- Successive `Append` calls. -/
def appendAll (array : List Text) : TSList :=
  array.foldl (fun l txt => (l.append true txt).1) {}

/-- The native list of an array. -/
def nodes (array : List Text) : SCurlSlist :=
  array.map fun txt => (toUTF8String txt).takeWhile (· ≠ 0)

theorem foldl_append (array : List Text) (l : TSList) :
    array.foldl (fun l txt => (l.append true txt).1) l =
      ⟨l.slist ++ nodes array, l.count + Int32.ofNat array.length⟩ := by
  induction array generalizing l with
  | nil => simp [nodes]
  | cons txt array ih =>
    rw [List.foldl_cons, ih]
    show TSList.mk (l.slist ++ [(toUTF8String txt).takeWhile (· ≠ 0)] ++ nodes array)
      (l.count + 1 + Int32.ofNat array.length) = _
    rw [List.append_assoc, List.length_cons, Int32.ofNat_add, Int32.add_assoc,
      Int32.add_comm 1]
    rfl

theorem appendAll_eq (array : List Text) :
    appendAll array = ⟨nodes array, Int32.ofNat array.length⟩ := by
  rw [appendAll, foldl_append]
  simp

/-- `processArray` appends as `Append` does. -/
theorem processArray_eq (array : List Text) :
    processArray (array.map (·, true)) = if array ≠ [] then some (appendAll array) else none := by
  rw [processArray, List.foldl_map]
  simp only [ne_eq, List.map_eq_nil_iff]
  rfl

/-! ### Reading a list back -/

/-- The lengths of the array: from 16 on by half. -/
def capacity (k : Nat) : Nat := (fun c => c * 3 / 2)^[k] 16

/-- The last length whose half more an `Int` can compute. -/
def maxStrings : Nat := 885410839

theorem capacity_succ (k : Nat) : capacity (k + 1) = capacity k * 3 / 2 :=
  Function.iterate_succ_apply' _ _ _

theorem two_le_capacity (k : Nat) : 2 ≤ capacity k := by
  induction k with
  | zero => decide
  | succ k ih =>
    rw [capacity_succ]
    omega

theorem capacity_mono : Monotone capacity := by
  apply monotone_nat_of_le_succ
  intro k
  rw [capacity_succ]
  omega

theorem capacity_last : capacity 44 = maxStrings := by decide

theorem grow_length {list : List Text} {k : Nat} (hk : k < 44) (hlist : list.length = capacity k) :
    (grow list list.length).length = capacity (k + 1) := by
  have hmax : capacity k ≤ capacity 43 := capacity_mono (by omega)
  have hvalue : capacity 43 = 590273893 := by decide
  have hint : ((list.length * 3 : Int).bmod (2 ^ 32)) = list.length * 3 :=
    Int.bmod_eq_of_le (by omega) (by omega)
  rw [grow, resize_length, hint, Int.tdiv_eq_ediv_of_nonneg (by omega), capacity_succ, ← hlist]
  omega

theorem grow_last {list : List Text} (hlist : list.length = maxStrings) :
    grow list list.length = [] := by
  have hneg : (((list.length * 3 : Int).bmod (2 ^ 32)).tdiv 2).toNat = 0 := by
    rw [hlist]
    decide
  rw [grow, hneg, resize]
  simp

/-- **The loop**: it reads the nodes behind what it has, as long as an array can hold them. -/
theorem processLoop_eq (ns : SCurlSlist) :
    ∀ (list : List Text) (count k : Nat), k ≤ 44 → list.length = capacity k → count ≤ list.length →
      processLoop ns list count =
        if count + ns.length ≤ maxStrings then some (list.take count ++ ns.map fromUTF8String)
        else none := by
  induction ns with
  | nil =>
    intro list count k hk hlist hcount
    have hle : capacity k ≤ capacity 44 := capacity_mono hk
    rw [capacity_last] at hle
    rw [processLoop, if_pos (by rw [List.length_nil]; omega), resize,
      Nat.sub_eq_zero_of_le hcount]
    simp
  | cons data ns ih =>
    intro list count k hk hlist hcount
    -- what one turn does once the array has room for the string
    have hturn : ∀ (list' : List Text) (k' : Nat), k' ≤ 44 → list'.length = capacity k' →
        count < list'.length → list'.take count = list.take count →
        ((assign list' count (fromUTF8String data)).bind fun list => processLoop ns list (count + 1)) =
          if count + (data :: ns).length ≤ maxStrings then
            some (list.take count ++ (data :: ns).map fromUTF8String)
          else none := by
      intro list' k' hk' hlist' hroom htake
      obtain ⟨block, hblock, hlen, hfront⟩ := assign_spec list' (fromUTF8String data) hroom
      rw [hblock, Option.bind_some, ih block (count + 1) k' hk' (by rw [hlen, hlist']) (by omega),
        hfront, htake, List.length_cons, List.append_assoc, Nat.add_assoc, Nat.add_comm 1]
      rfl
    rw [processLoop]
    by_cases hfull : count = list.length
    · rw [if_pos hfull]
      by_cases hlast : k = 44
      · have hmax : list.length = maxStrings := by rw [hlist, hlast, capacity_last]
        rw [hfull, grow_last hmax, assign_eq_none.mpr (Nat.zero_le _), Option.bind_none, if_neg]
        rw [List.length_cons]
        omega
      · have hgrown := grow_length (show k < 44 by omega) hlist
        have hmore := two_le_capacity k
        rw [capacity_succ] at hgrown
        rw [hfull] at hturn ⊢
        apply hturn _ (k + 1) (by omega) (by rw [hgrown, capacity_succ]) (by omega)
        exact take_resize _ _ (by rw [grow, resize_length] at hgrown; omega) (le_refl _)
    · rw [if_neg hfull]
      exact hturn list k hk hlist (by omega) rfl

theorem curlProcessSlist_eq (l : TSList) :
    curlProcessSlist (some l) =
      if l.slist.length ≤ maxStrings then some (l.slist.map fromUTF8String) else none := by
  have hloop := processLoop_eq l.slist (List.replicate 16 []) 0 0 (by omega) rfl (Nat.zero_le _)
  rw [Nat.zero_add, List.take_zero, List.nil_append] at hloop
  exact hloop

/-- The strings of the nodes are those of the array. -/
theorem map_nodes {array : List Text} (h : ∀ s ∈ array, 0 ∉ s) :
    (nodes array).map fromUTF8String = array := by
  rw [nodes, List.map_map]
  conv_rhs => rw [← List.map_id array]
  apply List.map_congr_left
  intro s hs
  show fromUTF8Bytes (((toUTF8String s).takeWhile (· ≠ 0)).takeWhile (· ≠ 0)) = s
  rw [List.takeWhile_idem]
  exact fromUTF8String_toUTF8String (h s hs)

/-! ### The round trip -/

/-- The array is read back from both lists made of it, and the node count is the list's. -/
structure ReadBack (array : List Text) : Prop where
  processed : curlProcessSlist (processArray (array.map (·, true))) = some array
  appended : curlProcessSlist (some (appendAll array)) = some array
  counted : (appendAll array).count.toInt = (appendAll array).slist.length ∧
    ∀ l, processArray (array.map (·, true)) = some l → l.count.toInt = l.slist.length

theorem readBack_of_le {array : List Text} (h : ∀ s ∈ array, 0 ∉ s)
    (hlen : array.length ≤ maxStrings) : ReadBack array := by
  have hsize : (nodes array).length = array.length := List.length_map _
  have happended : curlProcessSlist (some (appendAll array)) = some array := by
    rw [appendAll_eq, curlProcessSlist_eq]
    dsimp only
    rw [hsize, if_pos hlen, map_nodes h]
  have hcount : (appendAll array).count.toInt = (appendAll array).slist.length := by
    rw [appendAll_eq]
    dsimp only
    rw [hsize, Int32.toInt_ofNat_of_lt]
    exact Nat.lt_of_le_of_lt hlen (by decide)
  refine ⟨?_, happended, hcount, fun l hl => ?_⟩
  · rw [processArray_eq]
    split
    · exact happended
    · rename_i hnil
      rw [not_not.mp hnil]
      rfl
  · rw [processArray_eq] at hl
    split at hl
    · obtain rfl := Option.some.inj hl
      exact hcount
    · cases hl

theorem length_le_of_readBack {array : List Text} (h : ReadBack array) :
    array.length ≤ maxStrings := by
  have happended := h.appended
  rw [appendAll_eq, curlProcessSlist_eq] at happended
  split at happended
  · rename_i hle
    rwa [nodes, List.length_map] at hle
  · cases happended

/-- **String lists round-trip, exactly** where they have no more strings than an `Int` lets the array
grow to. -/
theorem readBack_iff (array : List Text) (h : ∀ s ∈ array, 0 ∉ s) :
    ReadBack array ↔ array.length ≤ 885410839 :=
  ⟨length_le_of_readBack, readBack_of_le h⟩

theorem readBack_three :
    ReadBack [lit "one", lit "two", lit "three"] ↔
      [lit "one", lit "two", lit "three"].length ≤ 885410839 :=
  readBack_iff [lit "one", lit "two", lit "three"] (by decide)

/-- One string more, and the array is cut to nothing where it should grow. -/
theorem not_every_list_read_back :
    ¬ ∀ array : List Text, (∀ s ∈ array, 0 ∉ s) → ReadBack array := by
  intro hall
  have hread := hall (List.replicate 885410840 []) fun s hs => by
    rw [List.eq_of_mem_replicate hs]
    exact List.not_mem_nil
  have hle := length_le_of_readBack hread
  rw [List.length_replicate] at hle
  exact absurd hle (by decide)

end NetMod.CurlSlist
