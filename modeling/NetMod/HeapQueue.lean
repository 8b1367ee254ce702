import Mathlib.Tactic.Linarith
import NetMod.MinHeapOrder
import NetMod.Lib.PartialRuns

/-!
# The heap with the indices of the source

`TMinHeap` computes its indices as `Int`s.  `item` and `setItem` are the accesses of a `TArrayList`,
which fail out of its range, and `wrap` is what an `Int` makes of a number.  As long as `Pop` finds
at most `2 ^ 30` elements the loops are those of `NetMod.MinHeap` (`siftUp_eq`, `siftDown_eq`), and
the heap is a priority queue: `queue_right`.  With one element more the index of a right child can
overflow.
-/

namespace NetMod.HeapQueue

open NetMod.PartialRuns
open NetMod.MinHeap (OrdersOn HeapOrdered)

variable {α : Type*}

/-- The value of an `Int`. -/
def wrap (x : Int) : Int := x.bmod (2 ^ 32)

/-- `TArrayList<T>`: it holds as many elements as an `Int` counts. -/
structure TArrayList (α : Type*) where
  data : List α
  fits : data.length < 2147483648

namespace TArrayList

def empty : TArrayList α := ⟨[], Nat.succ_pos _⟩

def count (list : TArrayList α) : Int := list.data.length

/-- `list[index]`. -/
def item (list : TArrayList α) (index : Int) : Option α :=
  if 0 ≤ index then list.data[index.toNat]? else none

/-- `list[index] = x`. -/
def setItem (list : TArrayList α) (index : Int) (x : α) : Option (TArrayList α) :=
  if 0 ≤ index ∧ index.toNat < list.data.length then
    some ⟨list.data.set index.toNat x, by rw [List.length_set]; exact list.fits⟩
  else none

def add (list : TArrayList α) (x : α) : Option (TArrayList α) :=
  if h : (list.data ++ [x]).length < 2147483648 then some ⟨list.data ++ [x], h⟩ else none

def removeLast (list : TArrayList α) : TArrayList α :=
  ⟨list.data.dropLast, by
    have hfits := list.fits
    rw [List.length_dropLast]
    omega⟩

/-- The three assignments through `temp`. -/
def swapItems (list : TArrayList α) (i j : Int) : Option (TArrayList α) :=
  (list.item i).bind fun temp => (list.item j).bind fun x =>
    (list.setItem i x).bind fun list => list.setItem j temp

end TArrayList

/-- `_SiftUp`; `none` is an index out of range. -/
def siftUp (compare : α → α → Int32) (list : TArrayList α) (index : Int) :
    Option (TArrayList α) :=
  if _h : 0 < index then
    let parent := (index - 1).tdiv 2
    (list.item index).bind fun x => (list.item parent).bind fun y =>
      if compare x y < 0 then
        (list.swapItems index parent).bind fun list => siftUp compare list parent
      else some list
  else some list
termination_by index.toNat
decreasing_by
  rw [Int.tdiv_eq_ediv_of_nonneg (by omega)]
  omega

/-- One of the two tests of `_SiftDown`. -/
def smaller (compare : α → α → Int32) (list : TArrayList α) (smallest child : Int) : Option Int :=
  if child < list.count then
    (list.item child).bind fun x => (list.item smallest).bind fun y =>
      if compare x y < 0 then some child else some smallest
  else some smallest

/-- The smallest of an element and its children.  It stays folded in the loop below. -/
@[irreducible] def smallest (compare : α → α → Int32) (list : TArrayList α) (index : Int) :
    Option Int :=
  (smaller compare list index (wrap (index * 2 + 1))).bind fun smallest =>
    smaller compare list smallest (wrap (index * 2 + 2))

section

variable {compare : α → α → Int32} {list list' : TArrayList α}

/-- The index is inside the list. -/
def InRange (list : TArrayList α) (index : Int) : Prop :=
  0 ≤ index ∧ index.toNat < list.data.length

theorem item_some {i : Int} {x : α} (h : list.item i = some x) : InRange list i := by
  rw [TArrayList.item] at h
  split at h
  · exact ⟨‹_›, (List.getElem?_eq_some_iff.mp h).1⟩
  · cases h

theorem setItem_length {i : Int} {x : α} (h : list.setItem i x = some list') :
    list'.data.length = list.data.length := by
  rw [TArrayList.setItem] at h
  split at h
  · rw [← Option.some.inj h, List.length_set]
  · cases h

theorem swapItems_length {i j : Int} (h : list.swapItems i j = some list') :
    list'.data.length = list.data.length := by
  obtain ⟨temp, -, h⟩ := Option.bind_eq_some_iff.mp h
  obtain ⟨x, -, h⟩ := Option.bind_eq_some_iff.mp h
  obtain ⟨list₁, h₁, h₂⟩ := Option.bind_eq_some_iff.mp h
  rw [setItem_length h₂, setItem_length h₁]

theorem smaller_some {first child s : Int} (h : smaller compare list first child = some s) :
    s = first ∨ s = child ∧ InRange list first ∧ InRange list child := by
  rw [smaller] at h
  split at h
  · obtain ⟨x, hx, h⟩ := Option.bind_eq_some_iff.mp h
    obtain ⟨y, hy, h⟩ := Option.bind_eq_some_iff.mp h
    split at h
    · exact Or.inr ⟨(Option.some.inj h).symm, item_some hy, item_some hx⟩
    · exact Or.inl (Option.some.inj h).symm
  · exact Or.inl (Option.some.inj h).symm

/-- A child inside the list is behind its parent: one that overflows is negative. -/
theorem lt_child {index d : Int} (hindex : InRange list index) (hd : 1 ≤ d) (hd' : d ≤ 2)
    (hchild : InRange list (wrap (index * 2 + d))) : index < wrap (index * 2 + d) := by
  obtain ⟨h0, hlt⟩ := hindex
  obtain ⟨hc, -⟩ := hchild
  have hfits := list.fits
  rw [wrap, Int.bmod_def] at hc ⊢
  split at hc <;> split <;> omega

theorem smallest_gt {index s : Int} (h : smallest compare list index = some s) (hne : s ≠ index) :
    index < s ∧ InRange list index ∧ InRange list s := by
  rw [smallest] at h
  obtain ⟨m, hm, hs⟩ := Option.bind_eq_some_iff.mp h
  rcases smaller_some hm with rfl | ⟨rfl, hindex, hleft⟩
  · rcases smaller_some hs with rfl | ⟨rfl, hindex, hright⟩
    · exact absurd rfl hne
    · exact ⟨lt_child hindex (by omega) (by omega) hright, hindex, hright⟩
  · rcases smaller_some hs with rfl | ⟨rfl, -, hright⟩
    · exact ⟨lt_child hindex (by omega) (by omega) hleft, hindex, hleft⟩
    · exact ⟨lt_child hindex (by omega) (by omega) hright, hindex, hright⟩

end

/-- `_SiftDown`. -/
def siftDown (compare : α → α → Int32) (list : TArrayList α) (index : Int) :
    Option (TArrayList α) :=
  match _hs : smallest compare list index with
  | none => none
  | some s =>
    if _hne : s = index then some list
    else
      match _hswap : list.swapItems index s with
      | none => none
      | some list' => siftDown compare list' s
termination_by list.data.length - index.toNat
decreasing_by
  obtain ⟨hlt, ⟨h0, -⟩, -, hin⟩ := smallest_gt _hs _hne
  rw [swapItems_length _hswap]
  omega

/-- `TMinHeap<T>`; the comparer is an argument of its methods. -/
structure TMinHeap (α : Type*) where
  data : TArrayList α := .empty

namespace TMinHeap

def push (compare : α → α → Int32) (heap : TMinHeap α) (item : α) : Option (TMinHeap α) :=
  (heap.data.add item).bind fun list =>
    (siftUp compare list (list.count - 1)).map fun list => ⟨list⟩

/-- `Pop`, which gives `Null` for the empty heap. -/
def pop (compare : α → α → Int32) (heap : TMinHeap α) : Option (Option α × TMinHeap α) :=
  if heap.data.data = [] then some (none, heap)
  else
    (heap.data.item 0).bind fun result => (heap.data.item (heap.data.count - 1)).bind fun last =>
      (heap.data.setItem 0 last).bind fun list =>
        (siftDown compare list.removeLast 0).map fun list => (some result, ⟨list⟩)

def peek (heap : TMinHeap α) : Option (Option α) :=
  if heap.data.data = [] then some none else (heap.data.item 0).map some

end TMinHeap

/-! ### The indices stay in range -/

section

variable {compare : α → α → Int32} {list : TArrayList α}

theorem item_natCast (list : TArrayList α) (i : Nat) : list.item i = list.data[i]? :=
  if_pos (Int.natCast_nonneg i)

theorem swapItems_natCast {i j : Nat} (hi : i < list.data.length) (hj : j < list.data.length) :
    ∃ list', list.swapItems i j = some list' ∧ list'.data = MinHeap.swap list.data i j hi hj := by
  let list₁ : TArrayList α :=
    ⟨list.data.set i list.data[j], by rw [List.length_set]; exact list.fits⟩
  have h₁ : list.setItem i list.data[j] = some list₁ := if_pos ⟨Int.natCast_nonneg i, hi⟩
  have hj' : j < list₁.data.length := by rwa [List.length_set]
  refine ⟨⟨list₁.data.set j list.data[i], by rw [List.length_set]; exact list₁.fits⟩, ?_, rfl⟩
  rw [TArrayList.swapItems, item_natCast, item_natCast, List.getElem?_eq_getElem hi,
    List.getElem?_eq_getElem hj, Option.bind_some, Option.bind_some, h₁, Option.bind_some]
  exact if_pos ⟨Int.natCast_nonneg j, hj'⟩

theorem parent_natCast {index : Nat} (h0 : 0 < index) :
    ((index : Int) - 1).tdiv 2 = ((index - 1) / 2 : Nat) := by
  rw [Int.tdiv_eq_ediv_of_nonneg (by omega)]
  omega

variable (compare) in
/-- **`_SiftUp`** is the loop over natural indices. -/
theorem siftUp_eq (data : List α) (index : Nat) (h : index < data.length) :
    ∀ list : TArrayList α, list.data = data →
      ∃ list', siftUp compare list index = some list' ∧
        list'.data = MinHeap.siftUp compare data index h := by
  induction data, index, h using MinHeap.siftUp.induct compare with
  | case1 data index h h0 parent hparent hless ih =>
    rintro list rfl
    obtain ⟨list₁, hswap, hdata₁⟩ := swapItems_natCast h hparent
    obtain ⟨list', hsift, hdata'⟩ := ih list₁ hdata₁
    refine ⟨list', ?_, ?_⟩
    · rw [siftUp, dif_pos (by omega)]
      dsimp only
      rw [parent_natCast h0, item_natCast, item_natCast, List.getElem?_eq_getElem h,
        List.getElem?_eq_getElem hparent, Option.bind_some, Option.bind_some, if_pos hless, hswap]
      exact hsift
    · rw [MinHeap.siftUp, dif_pos h0, if_pos hless]
      exact hdata'
  | case2 data index h h0 parent hparent hless =>
    rintro list rfl
    refine ⟨list, ?_, ?_⟩
    · rw [siftUp, dif_pos (by omega)]
      dsimp only
      rw [parent_natCast h0, item_natCast, item_natCast, List.getElem?_eq_getElem h,
        List.getElem?_eq_getElem hparent, Option.bind_some, Option.bind_some, if_neg hless]
    · rw [MinHeap.siftUp, dif_pos h0, if_neg hless]
  | case3 data index h h0 =>
    rintro list rfl
    refine ⟨list, ?_, ?_⟩
    · rw [siftUp, dif_neg (by omega)]
    · rw [MinHeap.siftUp, dif_neg h0]

theorem smaller_eq {first child : Nat} (hle : first ≤ child) :
    smaller compare list first child =
      some ((MinHeap.smaller compare list.data first child hle : Nat) : Int) := by
  rw [smaller, MinHeap.smaller, TArrayList.count]
  by_cases hchild : child < list.data.length
  · have hfirst : first < list.data.length := Nat.lt_of_le_of_lt hle hchild
    rw [if_pos (by omega), dif_pos hchild, item_natCast, item_natCast,
      List.getElem?_eq_getElem hchild, List.getElem?_eq_getElem hfirst, Option.bind_some,
      Option.bind_some]
    dsimp only
    split <;> rfl
  · rw [if_neg (by omega), dif_neg hchild]

/-- No child overflows as long as the list is short. -/
theorem smallest_eq {index : Nat} (hindex : index < 2 ^ 30 - 1) :
    smallest compare list index = some ((MinHeap.smallest compare list.data index : Nat) : Int) := by
  have hleft : wrap (index * 2 + 1) = (index * 2 + 1 : Nat) := by
    rw [wrap, Int.bmod_eq_of_le (by omega) (by omega)]
    omega
  have hright : wrap (index * 2 + 2) = (index * 2 + 2 : Nat) := by
    rw [wrap, Int.bmod_eq_of_le (by omega) (by omega)]
    omega
  rw [smallest, hleft, hright, smaller_eq (by omega), Option.bind_some]
  exact smaller_eq _

/-- One round of the loop. -/
theorem siftDown_stop {index : Int} (hs : smallest compare list index = some index) :
    siftDown compare list index = some list := by
  rw [siftDown]
  split
  · rename_i hnone
    rw [hnone] at hs
    cases hs
  · rename_i s hsome
    exact dif_pos (Option.some.inj (hsome.symm.trans hs))

theorem siftDown_swap {index s : Int} {list' : TArrayList α}
    (hs : smallest compare list index = some s) (hne : s ≠ index)
    (hswap : list.swapItems index s = some list') :
    siftDown compare list index = siftDown compare list' s := by
  rw [siftDown]
  split
  · rename_i hnone
    rw [hnone] at hs
    cases hs
  · rename_i s' hsome
    obtain rfl : s' = s := Option.some.inj (hsome.symm.trans hs)
    rw [dif_neg hne]
    split
    · rename_i hnone
      rw [hnone] at hswap
      cases hswap
    · rename_i list₁ hsome₁
      rw [Option.some.inj (hsome₁.symm.trans hswap)]

variable (compare) in
/-- **`_SiftDown`** is the loop over natural indices on a list of fewer than `2 ^ 30` elements. -/
theorem siftDown_eq (data : List α) (index : Nat) (hshort : data.length < 2 ^ 30)
    (hindex : index < 2 ^ 30 - 1) :
    ∀ list : TArrayList α, list.data = data →
      ∃ list', siftDown compare list index = some list' ∧
        list'.data = MinHeap.siftDown compare data index := by
  induction data, index using MinHeap.siftDown.induct compare with
  | case1 data index h =>
    rintro list rfl
    refine ⟨list, siftDown_stop ?_, ?_⟩
    · rw [smallest_eq hindex, h]
    · rw [MinHeap.siftDown, dif_pos h]
  | case2 data index h hbound ih =>
    rintro list rfl
    obtain ⟨list₁, hswap, hdata₁⟩ := swapItems_natCast (Nat.lt_trans hbound.1 hbound.2) hbound.2
    obtain ⟨list', hsift, hdata'⟩ :=
      ih (by rw [MinHeap.length_swap]; exact hshort) (by omega) list₁ hdata₁
    refine ⟨list', ?_, ?_⟩
    · rw [siftDown_swap (smallest_eq hindex) (by omega) hswap]
      exact hsift
    · rw [MinHeap.siftDown, dif_neg h]
      exact hdata'

/-- The heap over natural indices that has the same elements. -/
def TMinHeap.view (heap : TMinHeap α) : MinHeap.TMinHeap α := ⟨heap.data.data⟩

variable (compare) in
theorem push_eq {heap : TMinHeap α} (hroom : heap.data.data.length < 2147483647) (item : α) :
    ∃ heap', heap.push compare item = some heap' ∧ heap'.view = heap.view.push compare item := by
  have hlength : (heap.data.data ++ [item]).length = heap.data.data.length + 1 := by simp
  have hadd : heap.data.add item = some ⟨heap.data.data ++ [item], by omega⟩ :=
    dif_pos (by omega)
  obtain ⟨list', hsift, hdata⟩ := siftUp_eq compare (heap.data.data ++ [item])
    heap.data.data.length (by omega) ⟨heap.data.data ++ [item], by omega⟩ rfl
  refine ⟨⟨list'⟩, ?_, ?_⟩
  · have hlast : ((heap.data.data ++ [item]).length : Int) - 1 = heap.data.data.length := by omega
    rw [TMinHeap.push, hadd, Option.bind_some, TArrayList.count, hlast, hsift]
    rfl
  · rw [TMinHeap.view, hdata]
    rfl

theorem peek_eq (heap : TMinHeap α) : heap.peek = some heap.view.peek := by
  rw [TMinHeap.peek, MinHeap.TMinHeap.peek, List.head?_eq_getElem?]
  have hitem : heap.data.item 0 = heap.data.data[0]? := item_natCast heap.data 0
  show _ = some heap.data.data[0]?
  split
  · rename_i hempty
    rw [hempty]
    rfl
  · rename_i hne
    rw [hitem, List.getElem?_eq_getElem (List.length_pos_iff.mpr hne)]
    rfl

theorem pop_empty {heap : TMinHeap α} (hempty : heap.data.data = []) :
    heap.pop compare = some (none, heap) := if_pos hempty

variable (compare) in
/-- What `Pop` sifts. -/
theorem pop_nonempty {heap : TMinHeap α} {result : α} {rest : List α}
    (hdata : heap.data.data = result :: rest) :
    ∃ list : TArrayList α, list.data =
        ((result :: rest).set 0 ((result :: rest).getLast (List.cons_ne_nil _ _))).dropLast ∧
      heap.pop compare = (siftDown compare list 0).map fun list => (some result, ⟨list⟩) := by
  have hfirst : heap.data.item 0 = some result := by
    rw [show (0 : Int) = (0 : Nat) from rfl, item_natCast, hdata]
    rfl
  have hlast : heap.data.item (heap.data.count - 1) =
      some ((result :: rest).getLast (List.cons_ne_nil _ _)) := by
    have hcount : heap.data.count - 1 = (rest.length : Nat) := by
      rw [TArrayList.count, hdata, List.length_cons]
      omega
    rw [hcount, item_natCast, hdata, ← List.getLast?_eq_some_getLast, List.getLast?_eq_getElem?]
    rfl
  let moved : TArrayList α :=
    ⟨heap.data.data.set 0 ((result :: rest).getLast (List.cons_ne_nil _ _)),
      by rw [List.length_set]; exact heap.data.fits⟩
  have hset : heap.data.setItem 0 ((result :: rest).getLast (List.cons_ne_nil _ _)) = some moved :=
    if_pos ⟨Int.le_refl 0, by rw [hdata]; exact Nat.succ_pos _⟩
  refine ⟨moved.removeLast, ?_, ?_⟩
  · show (heap.data.data.set 0 _).dropLast = _
    rw [hdata]
  · rw [TMinHeap.pop, if_neg (by rw [hdata]; exact List.cons_ne_nil _ _), hfirst, Option.bind_some,
      hlast, Option.bind_some, hset, Option.bind_some]

theorem pop_eq {heap : TMinHeap α} (hshort : heap.data.data.length ≤ 2 ^ 30) {item : α}
    {rest : MinHeap.TMinHeap α} (hpop : heap.view.pop compare = some (item, rest)) :
    ∃ heap', heap.pop compare = some (some item, heap') ∧ heap'.view = rest := by
  rw [MinHeap.TMinHeap.pop] at hpop
  split at hpop
  · cases hpop
  · rename_i result others hdata
    obtain ⟨rfl, rfl⟩ := Prod.mk.inj (Option.some.inj hpop)
    obtain ⟨list, hlist, heq⟩ := pop_nonempty compare hdata
    obtain ⟨list', hsift, hdata'⟩ := siftDown_eq compare _ 0 (by
      change heap.data.data = _ at hdata
      rw [hdata, List.length_cons] at hshort
      simp only [List.length_dropLast, List.length_set, List.length_cons]
      omega) (by omega) list hlist
    refine ⟨⟨list'⟩, ?_, ?_⟩
    · rw [heq]
      show (siftDown compare list ((0 : Nat) : Int)).map _ = _
      rw [hsift]
      rfl
    · rw [TMinHeap.view, hdata']

end

/-! ### The queue -/

inductive Call (α : Type*) where
  | push (item : α)
  | pop
  | peek

/-- A heap with all that was pushed and all that `Pop` gave. -/
structure History (α : Type*) where
  heap : TMinHeap α := {}
  pushed : List α := []
  popped : List α := []

namespace History

/-- The elements of the heap. -/
def data (h : History α) : List α := h.heap.data.data

def step (compare : α → α → Int32) (h : History α) : Call α → Option (History α)
  | .push item => (h.heap.push compare item).map fun heap =>
      { h with heap := heap, pushed := h.pushed ++ [item] }
  | .pop => (h.heap.pop compare).map fun answer =>
      { h with heap := answer.2, popped := h.popped ++ answer.1.toList }
  | .peek => h.heap.peek.map fun _ => h

end History

open History

/-- The list has room for one more, and `Pop` finds at most `2 ^ 30` elements. -/
def Short (h : History α) : Call α → Prop
  | .push _ => h.data.length < 2147483647
  | .pop => h.data.length ≤ 2 ^ 30
  | .peek => True

/-- No element is before it. -/
def IsLeast (compare : α → α → Int32) (data : List α) (item : α) : Prop :=
  item ∈ data ∧ ∀ x ∈ data, ¬ compare x item < 0

/-- The heap has what was pushed and not popped, in heap order; `Peek` and `Pop` give a least
element, or `Null` when there is none; `Pop` takes out one occurrence of it; and popping until the
heap is empty gives all the elements in order. -/
structure IsQueue (compare : α → α → Int32) (h : History α) : Prop where
  content : (h.popped ++ h.data).Perm h.pushed
  ordered : HeapOrdered compare h.data
  peek : ∃ answer, h.heap.peek = some answer ∧ (answer = none ↔ h.data = []) ∧
    ∀ item, answer = some item → IsLeast compare h.data item
  pop : h.data.length ≤ 2 ^ 30 → ∃ answer heap', h.heap.pop compare = some (answer, heap') ∧
    h.heap.peek = some answer ∧ h.data.Perm (answer.toList ++ heap'.data.data)
  drain : h.data.length ≤ 2 ^ 30 → ∃ h' out,
    run (step compare) h (List.replicate h.data.length .pop) = some h' ∧ h'.data = [] ∧
      h'.popped = h.popped ++ out ∧ out.Perm h.data ∧ out.Pairwise fun x y => ¬ compare y x < 0

/-- Every call so far went through, and the heap is a queue after each. -/
def AlwaysQueue (compare : α → α → Int32) (calls : List (Call α)) : Prop :=
  ∀ before behind, calls = before ++ behind →
    ∃ h, run (step compare) {} before = some h ∧ IsQueue compare h

section

variable {compare : α → α → Int32} {h : History α}

/-- `Pop` gives the first element, which is a least one, and leaves the others in heap order. -/
theorem pop_spec (ho : OrdersOn compare fun _ => True) {heap : TMinHeap α}
    (hord : HeapOrdered compare heap.data.data) (hshort : heap.data.data.length ≤ 2 ^ 30)
    (hne : heap.data.data ≠ []) :
    ∃ item heap', heap.pop compare = some (some item, heap') ∧ heap.peek = some (some item) ∧
      IsLeast compare heap.data.data item ∧ heap.data.data.Perm (item :: heap'.data.data) ∧
      HeapOrdered compare heap'.data.data := by
  cases hpop : heap.view.pop compare with
  | none => exact absurd ((MinHeap.pop_eq_none compare).mp hpop) hne
  | some answer =>
    obtain ⟨item, rest⟩ := answer
    obtain ⟨heap', heq, rfl⟩ := pop_eq hshort hpop
    obtain ⟨hpeek, hperm⟩ := MinHeap.pop_perm compare hpop
    refine ⟨item, heap', heq, ?_, ⟨?_, ?_⟩, hperm, ?_⟩
    · rw [peek_eq, hpeek]
    · exact hperm.symm.subset List.mem_cons_self
    · exact MinHeap.peek_le ho (fun _ _ => trivial) hord hpeek
    · exact MinHeap.pop_ordered ho (fun _ _ => trivial) hord hpop

/-- Popping `n` times from a heap of `n` elements. -/
theorem drain_spec (ho : OrdersOn compare fun _ => True) (n : Nat) :
    ∀ h : History α, h.data.length = n → n ≤ 2 ^ 30 → HeapOrdered compare h.data → ∃ h' out,
      run (step compare) h (List.replicate n .pop) = some h' ∧ h'.data = [] ∧
        h'.popped = h.popped ++ out ∧ out.Perm h.data ∧ out.Pairwise fun x y => ¬ compare y x < 0 := by
  induction n with
  | zero =>
    intro h hlen _ _
    have hempty : h.data = [] := List.length_eq_zero_iff.mp hlen
    refine ⟨h, [], rfl, hempty, (List.append_nil _).symm, ?_, List.Pairwise.nil⟩
    rw [hempty]
  | succ n ih =>
    intro h hlen hn hord
    have hne : h.data ≠ [] := by
      intro hempty
      rw [hempty] at hlen
      cases hlen
    have hshort : h.data.length ≤ 2 ^ 30 := by omega
    obtain ⟨item, heap', hpop, -, hleast, hperm, hord'⟩ := pop_spec ho hord hshort hne
    let next : History α := { h with heap := heap', popped := h.popped ++ [item] }
    have hnext : step compare h .pop = some next := by
      show (h.heap.pop compare).map _ = _
      rw [hpop]
      rfl
    have hlen' : next.data.length = n := by
      have hlength := hperm.length_eq
      change h.data.length = heap'.data.data.length + 1 at hlength
      show heap'.data.data.length = n
      omega
    obtain ⟨h', out, hrun, hempty, hpopped, hout, hsorted⟩ := ih next hlen' (by omega) hord'
    refine ⟨h', item :: out, ?_, hempty, ?_, (hout.cons item).trans hperm.symm, ?_⟩
    · rw [List.replicate_succ, run_cons, hnext]
      exact hrun
    · rw [hpopped]
      exact List.append_assoc _ _ _
    · refine List.Pairwise.cons (fun x hx => hleast.2 x ?_) hsorted
      exact hperm.symm.subset (List.mem_cons_of_mem _ (hout.subset hx))

/-- What has the right content and is in heap order is a queue. -/
theorem isQueue_of_ordered (ho : OrdersOn compare fun _ => True)
    (hcontent : (h.popped ++ h.data).Perm h.pushed) (hord : HeapOrdered compare h.data) :
    IsQueue compare h := by
  refine ⟨hcontent, hord, ⟨h.heap.view.peek, peek_eq _, MinHeap.peek_eq_none, ?_⟩, ?_, ?_⟩
  · intro item hpeek
    refine ⟨?_, MinHeap.peek_le ho (fun _ _ => trivial) hord hpeek⟩
    exact List.mem_of_mem_head? hpeek
  · intro hshort
    by_cases hempty : h.data = []
    · refine ⟨none, h.heap, pop_empty hempty, ?_, List.Perm.refl _⟩
      rw [peek_eq, MinHeap.peek_eq_none.mpr hempty]
    · obtain ⟨item, heap', hpop, hpeek, -, hperm, -⟩ := pop_spec ho hord hshort hempty
      exact ⟨some item, heap', hpop, hpeek, hperm⟩
  · exact fun hshort => drain_spec ho _ h rfl hshort hord

/-- **One call** keeps the content and the order. -/
theorem step_spec (ho : OrdersOn compare fun _ => True) (hcontent : (h.popped ++ h.data).Perm h.pushed)
    (hord : HeapOrdered compare h.data) (c : Call α) (hc : Short h c) :
    ∃ h', step compare h c = some h' ∧ (h'.popped ++ h'.data).Perm h'.pushed ∧
      HeapOrdered compare h'.data := by
  cases c with
  | push item =>
    obtain ⟨heap', hpush, hview⟩ := push_eq compare hc item
    have hdata : heap'.data.data = (h.heap.view.push compare item).data := by
      rw [← hview]
      rfl
    refine ⟨{ h with heap := heap', pushed := h.pushed ++ [item] }, ?_, ?_, ?_⟩
    · show (h.heap.push compare item).map _ = _
      rw [hpush]
      rfl
    · show (h.popped ++ heap'.data.data).Perm (h.pushed ++ [item])
      have hperm := MinHeap.push_perm compare h.heap.view item
      rw [← hdata] at hperm
      calc (h.popped ++ heap'.data.data).Perm (h.popped ++ item :: h.data) := hperm.append_left _
        List.Perm _ (item :: (h.popped ++ h.data)) := List.perm_middle
        List.Perm _ (item :: h.pushed) := hcontent.cons item
        List.Perm _ (h.pushed ++ [item]) := (List.perm_append_singleton item _).symm
    · show HeapOrdered compare heap'.data.data
      rw [hdata]
      exact MinHeap.push_ordered ho (fun _ _ => trivial) trivial hord
  | pop =>
    by_cases hempty : h.data = []
    · refine ⟨h, ?_, hcontent, hord⟩
      show (h.heap.pop compare).map _ = _
      rw [pop_empty hempty]
      show some { h with heap := h.heap, popped := h.popped ++ [] } = some h
      rw [List.append_nil]
    · obtain ⟨item, heap', hpop, -, -, hperm, hord'⟩ := pop_spec ho hord hc hempty
      refine ⟨{ h with heap := heap', popped := h.popped ++ [item] }, ?_, ?_, hord'⟩
      · show (h.heap.pop compare).map _ = _
        rw [hpop]
        rfl
      · show (h.popped ++ [item] ++ heap'.data.data).Perm h.pushed
        rw [List.append_assoc]
        exact (hperm.symm.append_left _).trans hcontent
  | peek =>
    refine ⟨h, ?_, hcontent, hord⟩
    show h.heap.peek.map _ = _
    rw [peek_eq]
    rfl

/-- **The heap is a priority queue** in every run in which `Pop` finds at most `2 ^ 30` elements. -/
theorem queue_right (ho : OrdersOn compare fun _ => True) (calls : List (Call α))
    (hshort : Along (step compare) Short {} calls) : AlwaysQueue compare calls := by
  rintro before behind rfl
  obtain ⟨h, hrun, hcontent, hord⟩ := run_total
    (fun h : History α => (h.popped ++ h.data).Perm h.pushed ∧ HeapOrdered compare h.data)
    (fun s c hs hc => step_spec ho hs.1 hs.2 c hc)
    ⟨List.Perm.refl _, MinHeap.heapOrdered_nil⟩ hshort.left
  exact ⟨h, hrun, isQueue_of_ordered ho hcontent hord⟩

theorem pushed_length {h' : History α} {c : Call α} (hstep : step compare h c = some h') :
    h'.pushed.length ≤ h.pushed.length + 1 := by
  cases c with
  | push item =>
    obtain ⟨heap', -, rfl⟩ := Option.map_eq_some_iff.mp hstep
    show (h.pushed ++ [item]).length ≤ h.pushed.length + 1
    rw [List.length_append]
    exact Nat.le_refl _
  | pop =>
    obtain ⟨answer, -, rfl⟩ := Option.map_eq_some_iff.mp hstep
    exact Nat.le_succ _
  | peek =>
    obtain ⟨answer, -, rfl⟩ := Option.map_eq_some_iff.mp hstep
    exact Nat.le_succ _

/-- A run of at most `2 ^ 30` calls meets the condition. -/
theorem short_of_length (ho : OrdersOn compare fun _ => True) (calls : List (Call α)) :
    ∀ h : History α, (h.popped ++ h.data).Perm h.pushed → HeapOrdered compare h.data →
      h.pushed.length + calls.length ≤ 2 ^ 30 → Along (step compare) Short h calls := by
  induction calls with
  | nil => exact fun h _ _ _ => along_nil h
  | cons c calls ih =>
    intro h hcontent hord hlen
    rw [List.length_cons] at hlen
    have hsize : h.data.length ≤ h.pushed.length := by
      rw [← hcontent.length_eq, List.length_append]
      exact Nat.le_add_left _ _
    have hshort : Short h c := by
      cases c with
      | push item => show h.data.length < 2147483647; omega
      | pop => show h.data.length ≤ 2 ^ 30; omega
      | peek => trivial
    refine along_cons.mpr ⟨hshort, fun h' hstep => ?_⟩
    obtain ⟨h'', hstep', hcontent', hord'⟩ := step_spec ho hcontent hord c hshort
    obtain rfl : h'' = h' := Option.some.inj (hstep'.symm.trans hstep)
    have hpushed := pushed_length hstep
    exact ih h'' hcontent' hord' (by omega)

end

/-- The order of the natural numbers. -/
def compareNat (a b : Nat) : Int32 := if a < b then -1 else if b < a then 1 else 0

theorem compareNat_neg {a b : Nat} : compareNat a b < 0 ↔ a < b := by
  rw [compareNat]
  split
  · exact iff_of_true (by decide) ‹_›
  · split
    · exact iff_of_false (by decide) ‹_›
    · exact iff_of_false (by decide) ‹_›

theorem orders_compareNat : OrdersOn compareNat fun _ => True := by
  constructor
  · intro a b _ _ hab hba
    rw [compareNat_neg] at hab hba
    omega
  · intro a b c _ _ _ hab hbc
    rw [compareNat_neg] at hab hbc ⊢
    omega

/-- Two numbers are pushed and the smaller one is popped. -/
theorem queue_right_two : AlwaysQueue compareNat [.push 2, .push 1, .pop] :=
  queue_right orders_compareNat _ (short_of_length orders_compareNat _ {} (List.Perm.refl _)
    MinHeap.heapOrdered_nil (by show 0 + 3 ≤ 2 ^ 30; omega))

/-! ### A heap that is too large -/

/-- Pushing the numbers in increasing order moves none. -/
theorem push_increasing {n : Nat} (hn : n < 2147483647) {heap : TMinHeap Nat}
    (hdata : heap.data.data = List.range n) :
    ∃ heap', heap.push compareNat n = some heap' ∧ heap'.data.data = List.range (n + 1) := by
  obtain ⟨heap', hpush, hview⟩ := push_eq compareNat
    (by rw [hdata, List.length_range]; exact hn : heap.data.data.length < 2147483647) n
  refine ⟨heap', hpush, ?_⟩
  have hpushed : heap'.data.data = (heap.view.push compareNat n).data := by
    rw [← hview]
    rfl
  have hlast : heap.data.data ++ [n] = List.range (n + 1) := by rw [hdata, List.range_succ]
  have hsift : ∀ data (hlt : n < data.length), data = List.range (n + 1) →
      MinHeap.siftUp compareNat data n hlt = data := by
    rintro data hlt rfl
    rw [MinHeap.siftUp]
    split
    · dsimp only
      rw [if_neg]
      rw [compareNat_neg, List.getElem_range, List.getElem_range]
      omega
    · rfl
  have hlength : heap.data.data.length = n := by rw [hdata, List.length_range]
  rw [hpushed, MinHeap.TMinHeap.push, ← hlast]
  show MinHeap.siftUp compareNat (heap.data.data ++ [n]) heap.data.data.length _ = _
  simp only [hlength]
  exact hsift _ _ hlast

theorem run_increasing {n : Nat} (hn : n < 2147483648) :
    ∃ h, run (step compareNat) {} ((List.range n).map .push) = some h ∧
      h.data = List.range n := by
  induction n with
  | zero => exact ⟨{}, rfl, rfl⟩
  | succ n ih =>
    obtain ⟨h, hrun, hdata⟩ := ih (by omega)
    obtain ⟨heap', hpush, hdata'⟩ := push_increasing (by omega) hdata
    refine ⟨{ h with heap := heap', pushed := h.pushed ++ [n] }, ?_, hdata'⟩
    rw [List.range_succ, List.map_append, List.map_singleton, run_concat, hrun, Option.bind_some]
    show (h.heap.push compareNat n).map _ = _
    rw [hpush]
    rfl

/-- The largest element has come down to `hole`, and the elements behind are where they were. -/
structure Sunk (list : TArrayList Nat) (hole : Nat) : Prop where
  inside : hole < list.data.length
  top : list.data[hole]? = some list.data.length
  behind : ∀ i, hole < i → i < list.data.length → list.data[i]? = some i

theorem Sunk.left {list : TArrayList Nat} {hole : Nat} (h : Sunk list hole)
    (hleft : hole * 2 + 1 < list.data.length) :
    MinHeap.smallest compareNat list.data hole = hole * 2 + 1 := by
  have htop := List.getElem?_eq_some_iff.mp h.top
  have hchild := List.getElem?_eq_some_iff.mp (h.behind (hole * 2 + 1) (by omega) hleft)
  have hfirst : MinHeap.smaller compareNat list.data hole (hole * 2 + 1) (by omega) =
      hole * 2 + 1 := by
    rw [MinHeap.smaller, dif_pos hleft]
    dsimp only
    rw [htop.2, hchild.2]
    exact if_pos (compareNat_neg.mpr hleft)
  rw [MinHeap.smallest]
  simp only [hfirst]
  rw [MinHeap.smaller]
  split
  · rename_i hright
    have hother := List.getElem?_eq_some_iff.mp (h.behind (hole * 2 + 2) (by omega) hright)
    dsimp only
    rw [hother.2, hchild.2, if_neg]
    rw [compareNat_neg]
    omega
  · rfl

/-- **It comes down on the left** until the index of the right child overflows. -/
theorem siftDown_overflows (j : Nat) : ∀ (k : Nat) (list : TArrayList Nat), k + j = 30 →
    2 ^ 30 ≤ list.data.length → Sunk list (2 ^ k - 1) →
      siftDown compareNat list (2 ^ k - 1 : Nat) = none := by
  induction j with
  | zero =>
    intro k list hk hlen h
    obtain rfl : k = 30 := by omega
    have hfits := list.fits
    have hright : wrap ((2 ^ 30 - 1 : Nat) * 2 + 2) = -2 ^ 31 := by decide
    have hleft : wrap ((2 ^ 30 - 1 : Nat) * 2 + 1) = 2 ^ 31 - 1 := by decide
    have hnone : smallest compareNat list (2 ^ 30 - 1 : Nat) = none := by
      rw [smallest, hright, hleft, smaller, if_neg (by rw [TArrayList.count]; omega),
        Option.bind_some, smaller, if_pos (by rw [TArrayList.count]; omega), TArrayList.item,
        if_neg (by decide)]
      rfl
    rw [siftDown]
    split
    · rfl
    · rename_i s hsome
      rw [hnone] at hsome
      cases hsome
  | succ j ih =>
    intro k list hk hlen h
    have hpow : 2 ^ (k + 1) = 2 ^ k * 2 := Nat.pow_succ 2 k
    have hpos : 0 < 2 ^ k := Nat.two_pow_pos k
    have hmax : 2 ^ (k + 1) ≤ 2 ^ 30 := Nat.pow_le_pow_right (by omega) (by omega)
    have hnext : (2 ^ k - 1) * 2 + 1 = 2 ^ (k + 1) - 1 := by omega
    have hsmallest : smallest compareNat list (2 ^ k - 1 : Nat) =
        some ((2 ^ (k + 1) - 1 : Nat) : Int) := by
      rw [smallest_eq (by omega), h.left (by omega), hnext]
    have hin : 2 ^ (k + 1) - 1 < list.data.length := by omega
    obtain ⟨list', hswap, hdata⟩ := swapItems_natCast h.inside hin
    have hlen' : list'.data.length = list.data.length := by rw [hdata, MinHeap.length_swap]
    rw [siftDown_swap hsmallest (by omega) hswap]
    refine ih (k + 1) list' (by omega) (by omega) ⟨by omega, ?_, fun i hi hi' => ?_⟩
    · rw [hlen', hdata, MinHeap.getElem?_swap, if_pos rfl]
      exact congrArg some (List.getElem?_eq_some_iff.mp h.top).2
    · rw [hdata, MinHeap.getElem?_swap, if_neg (by omega), if_neg (by omega)]
      exact h.behind i (by omega) (by omega)

/-- `Pop` fails on every increasing heap of more than `2 ^ 30` elements. -/
theorem pop_increasing {n : Nat} (hn : 2 ^ 30 < n) {heap : TMinHeap Nat}
    (hdata : heap.data.data = List.range n) : heap.pop compareNat = none := by
  obtain ⟨m, rfl⟩ : ∃ m, n = m + 1 := ⟨n - 1, by omega⟩
  have hcons : 0 :: (List.range m).map Nat.succ = List.range (m + 1) := List.range_succ_eq_map.symm
  obtain ⟨list, hlist, hpop⟩ := pop_nonempty compareNat (hdata.trans hcons.symm)
  simp only [hcons, List.getLast_range] at hlist
  have hlength : list.data.length = m := by
    rw [hlist, List.length_dropLast, List.length_set, List.length_range]
    rfl
  have hsunk : Sunk list 0 := by
    have helem : ∀ i, i < m → list.data[i]? = if i = 0 then some m else some i := by
      intro i hi
      rw [hlist, List.getElem?_dropLast, List.length_set, List.length_range, if_pos (by omega),
        List.getElem?_set, List.length_range]
      by_cases h0 : i = 0
      · rw [if_pos h0.symm, if_pos (by omega), if_pos h0]
        rfl
      · rw [if_neg (Ne.symm h0), if_neg h0, List.getElem?_range (by omega)]
    refine ⟨by omega, ?_, fun i hi hi' => ?_⟩
    · rw [hlength, helem _ (by omega), if_pos rfl]
    · rw [helem i (by omega), if_neg (by omega)]
  rw [hpop]
  have hnone : siftDown compareNat list 0 = none :=
    siftDown_overflows 30 0 list rfl (by omega) hsunk
  rw [hnone]
  rfl

/-- A heap of `2 ^ 30 + 1` elements cannot be popped. -/
theorem not_every_queue_right :
    ¬ ∀ compare : Nat → Nat → Int32, OrdersOn compare (fun _ => True) →
      ∀ calls : List (Call Nat), AlwaysQueue compare calls := by
  intro hall
  obtain ⟨h, hrun, hdata⟩ := run_increasing (n := 2 ^ 30 + 1) (by omega)
  obtain ⟨h', hrun', -⟩ := hall compareNat orders_compareNat
    ((List.range (2 ^ 30 + 1)).map .push ++ [.pop]) _ [] (List.append_nil _).symm
  rw [run_concat, hrun, Option.bind_some] at hrun'
  change (h.heap.pop compareNat).map _ = _ at hrun'
  rw [pop_increasing (Nat.lt_succ_self _) hdata] at hrun'
  cases hrun'

end NetMod.HeapQueue
