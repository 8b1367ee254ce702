import Mathlib.Data.List.Basic
import Mathlib.Data.List.Perm.Basic

/-!
# `TMinHeap`

The heap of `http.bmx` over a list, with the two sift loops as recursions on the index.  An index
comes with the proof that it is inside the list, so no access can miss.  What the retry queue needs
of it is that no operation loses or doubles an element: `push_perm` and `pop_perm`.
-/

namespace NetMod.MinHeap

/-- `TMinHeap<T>`; the comparer is an argument of its methods. -/
structure TMinHeap (α : Type*) where
  data : List α := []
deriving DecidableEq

variable {α : Type*} (compare : α → α → Int32)

/-- The three assignments through `temp`. -/
def swap (data : List α) (i j : Nat) (hi : i < data.length) (hj : j < data.length) : List α :=
  (data.set i data[j]).set j data[i]

omit compare in
theorem swap_perm (data : List α) {i j : Nat} (hi : i < data.length) (hj : j < data.length) :
    (swap data i j hi hj).Perm data := List.set_set_perm hi hj

omit compare in
@[simp] theorem length_swap (data : List α) {i j : Nat} (hi : i < data.length)
    (hj : j < data.length) : (swap data i j hi hj).length = data.length := by
  simp [swap]

/-- `_SiftUp`. -/
def siftUp (data : List α) (index : Nat) (h : index < data.length) : List α :=
  if h0 : 0 < index then
    let parent := (index - 1) / 2
    have hparent : parent < data.length := by omega
    if compare data[index] data[parent] < 0 then
      siftUp (swap data index parent h hparent) parent (by simpa using hparent)
    else data
  else data
termination_by index

/-- One of the two tests of `_SiftDown`: `child` if it is there and smaller. -/
def smaller (data : List α) (smallest child : Nat) (hle : smallest ≤ child) : Nat :=
  if h : child < data.length then
    have hsmallest : smallest < data.length := Nat.lt_of_le_of_lt hle h
    if compare data[child] data[smallest] < 0 then child else smallest
  else smallest

theorem smaller_cases (data : List α) {smallest child : Nat} (hle : smallest ≤ child) :
    smaller compare data smallest child hle = smallest ∨
      smaller compare data smallest child hle = child ∧ child < data.length := by
  rw [smaller]
  split
  · rename_i h
    dsimp only
    split
    · exact Or.inr ⟨rfl, h⟩
    · exact Or.inl rfl
  · exact Or.inl rfl

theorem smaller_le (data : List α) {smallest child : Nat} (hle : smallest ≤ child) :
    smaller compare data smallest child hle ≤ child := by
  rcases smaller_cases compare data hle with h | ⟨h, -⟩ <;> omega

/-- The smallest of an element and its children. -/
def smallest (data : List α) (index : Nat) : Nat :=
  smaller compare data (smaller compare data index (index * 2 + 1) (by omega)) (index * 2 + 2)
    (by have := smaller_le compare data (show index ≤ index * 2 + 1 by omega); omega)

theorem smallest_cases (data : List α) (index : Nat) :
    smallest compare data index = index ∨
      index < smallest compare data index ∧ smallest compare data index < data.length := by
  have hleft := smaller_cases compare data (show index ≤ index * 2 + 1 by omega)
  have hle := smaller_le compare data (show index ≤ index * 2 + 1 by omega)
  have hright := smaller_cases compare data
    (show smaller compare data index (index * 2 + 1) (by omega) ≤ index * 2 + 2 by omega)
  rw [smallest]
  omega

/-- `_SiftDown`. -/
def siftDown (data : List α) (index : Nat) : List α :=
  if h : smallest compare data index = index then data
  else
    have hbound : index < smallest compare data index ∧ smallest compare data index < data.length :=
      (smallest_cases compare data index).resolve_left h
    siftDown
      (swap data index (smallest compare data index) (Nat.lt_trans hbound.1 hbound.2) hbound.2)
      (smallest compare data index)
termination_by data.length - index
decreasing_by
  rw [length_swap]
  omega

namespace TMinHeap

/-- `Push`. -/
def push (heap : TMinHeap α) (item : α) : TMinHeap α :=
  ⟨siftUp compare (heap.data ++ [item]) heap.data.length (by simp)⟩

/-- `Pop`: the first element and the rest, or `Null`. -/
def pop (heap : TMinHeap α) : Option (α × TMinHeap α) :=
  match heap.data with
  | [] => none
  | result :: rest =>
    let data := (result :: rest).set 0 ((result :: rest).getLast (List.cons_ne_nil _ _))
    some (result, ⟨siftDown compare data.dropLast 0⟩)

def peek (heap : TMinHeap α) : Option α := heap.data.head?

def isEmpty (heap : TMinHeap α) : Bool := heap.data.isEmpty

end TMinHeap

/-! ### Nothing is lost or doubled -/

theorem siftUp_perm (data : List α) (index : Nat) (h : index < data.length) :
    (siftUp compare data index h).Perm data := by
  induction data, index, h using siftUp.induct compare with
  | case1 data index h h0 parent hparent hless ih =>
    rw [siftUp, dif_pos h0, if_pos hless]
    exact ih.trans (swap_perm data h hparent)
  | case2 data index h h0 parent hparent hless =>
    rw [siftUp, dif_pos h0, if_neg hless]
  | case3 data index h h0 =>
    rw [siftUp, dif_neg h0]

theorem siftDown_perm (data : List α) (index : Nat) : (siftDown compare data index).Perm data := by
  induction data, index using siftDown.induct compare with
  | case1 data index h =>
    rw [siftDown, dif_pos h]
  | case2 data index h hbound ih =>
    rw [siftDown, dif_neg h]
    exact ih.trans (swap_perm data (Nat.lt_trans hbound.1 hbound.2) hbound.2)

/-- The list `Pop` sifts holds what is left when the first element is gone. -/
theorem dropLast_set_perm (result : α) (rest : List α) :
    (((result :: rest).set 0 ((result :: rest).getLast (List.cons_ne_nil _ _))).dropLast).Perm
      rest := by
  rw [List.set_cons_zero]
  cases hrest : rest with
  | nil => simp
  | cons y ys =>
    have hne : y :: ys ≠ [] := List.cons_ne_nil y ys
    rw [List.getLast_cons hne, List.dropLast_cons_of_ne_nil hne]
    calc ((y :: ys).getLast hne :: (y :: ys).dropLast).Perm
          ((y :: ys).dropLast ++ [(y :: ys).getLast hne]) := (List.perm_append_singleton _ _).symm
      _ = y :: ys := List.dropLast_append_getLast hne

/-- **`Push` adds the item and nothing else.** -/
theorem push_perm (heap : TMinHeap α) (item : α) :
    (heap.push compare item).data.Perm (item :: heap.data) := by
  have hsift := siftUp_perm compare (heap.data ++ [item]) heap.data.length (by simp)
  exact hsift.trans (List.perm_append_singleton item heap.data)

/-- **`Pop` takes out what `Peek` shows and nothing else.** -/
theorem pop_perm {heap heap' : TMinHeap α} {item : α} (h : heap.pop compare = some (item, heap')) :
    heap.peek = some item ∧ heap.data.Perm (item :: heap'.data) := by
  rw [TMinHeap.pop] at h
  rw [TMinHeap.peek]
  split at h
  · cases h
  · rename_i result rest hdata
    obtain ⟨rfl, rfl⟩ := Prod.mk.inj (Option.some.inj h)
    rw [hdata]
    refine ⟨rfl, List.Perm.cons _ ?_⟩
    exact ((siftDown_perm compare _ 0).trans (dropLast_set_perm result rest)).symm

theorem pop_eq_none {heap : TMinHeap α} : heap.pop compare = none ↔ heap.data = [] := by
  rw [TMinHeap.pop]
  cases heap.data <;> simp

theorem peek_eq_none {heap : TMinHeap α} : heap.peek = none ↔ heap.data = [] := List.head?_eq_none_iff

end NetMod.MinHeap
