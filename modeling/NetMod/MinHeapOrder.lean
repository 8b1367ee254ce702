import NetMod.MinHeap

/-!
# `TMinHeap` keeps its elements in heap order

The comparer only has to order the elements that are in the heap: `OrdersOn compare S` says that it
does so on the set `S`.  `_SiftUp` and `_SiftDown` start from a list with one misplaced element, the
hole; `RisingHole` and `SinkingHole` say what holds of the others.  With the order, `Peek` and `Pop`
give a least element: `pop_ordered`.
-/

namespace NetMod.MinHeap

variable {α : Type*} {compare : α → α → Int32} {S : α → Prop}

/-- `compare` is the strict part of a total preorder on `S`. -/
structure OrdersOn (compare : α → α → Int32) (S : α → Prop) : Prop where
  asymm : ∀ a b, S a → S b → compare a b < 0 → ¬ compare b a < 0
  trans : ∀ a b c, S a → S b → S c → ¬ compare b a < 0 → ¬ compare c b < 0 → ¬ compare c a < 0

theorem OrdersOn.irrefl (ho : OrdersOn compare S) {a : α} (ha : S a) : ¬ compare a a < 0 :=
  fun h => ho.asymm a a ha ha h h

/-- No element is before its parent. -/
def HeapOrdered (compare : α → α → Int32) (data : List α) : Prop :=
  ∀ i x y, 0 < i → data[i]? = some x → data[(i - 1) / 2]? = some y → ¬ compare x y < 0

/-- Only the hole may be before its parent, and its children are not before that parent. -/
structure RisingHole (compare : α → α → Int32) (data : List α) (hole : Nat) : Prop where
  others : ∀ i x y, 0 < i → i ≠ hole → data[i]? = some x → data[(i - 1) / 2]? = some y →
    ¬ compare x y < 0
  skip : ∀ i x y, 0 < hole → 0 < i → (i - 1) / 2 = hole → data[i]? = some x →
    data[(hole - 1) / 2]? = some y → ¬ compare x y < 0

/-- Only the children of the hole may be before it, and they are not before its parent. -/
structure SinkingHole (compare : α → α → Int32) (data : List α) (hole : Nat) : Prop where
  others : ∀ i x y, 0 < i → (i - 1) / 2 ≠ hole → data[i]? = some x → data[(i - 1) / 2]? = some y →
    ¬ compare x y < 0
  skip : ∀ i x y, 0 < hole → 0 < i → (i - 1) / 2 = hole → data[i]? = some x →
    data[(hole - 1) / 2]? = some y → ¬ compare x y < 0

theorem getElem?_swap (data : List α) {i j : Nat} (hi : i < data.length) (hj : j < data.length)
    (k : Nat) :
    (swap data i j hi hj)[k]? =
      if k = j then some data[i] else if k = i then some data[j] else data[k]? := by
  rw [swap, List.getElem?_set, List.length_set, List.getElem?_set]
  by_cases hkj : k = j
  · simp [hkj, hj]
  · by_cases hki : k = i
    · subst hki
      simp [hkj, Ne.symm hkj, hi]
    · simp [hkj, hki, Ne.symm hkj, Ne.symm hki]

/-! ### `_SiftUp` -/

/-- A swap with the parent moves the hole up. -/
theorem RisingHole.swap_parent {data : List α} {hole : Nat} (ho : OrdersOn compare S)
    (hS : ∀ x ∈ data, S x) (hup : RisingHole compare data hole) (h0 : 0 < hole)
    (hhole : hole < data.length) (hparent : (hole - 1) / 2 < data.length)
    (hless : compare data[hole] data[(hole - 1) / 2] < 0) :
    RisingHole compare (swap data hole ((hole - 1) / 2) hhole hparent) ((hole - 1) / 2) := by
  have hSe : S data[hole] := hS _ (List.getElem_mem _)
  have hSp : S data[(hole - 1) / 2] := hS _ (List.getElem_mem _)
  have hp : data[(hole - 1) / 2]? = some data[(hole - 1) / 2] := List.getElem?_eq_getElem hparent
  have hback : ¬ compare data[(hole - 1) / 2] data[hole] < 0 := ho.asymm _ _ hSe hSp hless
  constructor
  · intro i x y hi hne hx hy
    rw [getElem?_swap, if_neg hne] at hx
    rw [getElem?_swap] at hy
    by_cases hih : i = hole
    · subst hih
      rw [if_pos rfl] at hx hy
      obtain rfl := Option.some.inj hx
      obtain rfl := Option.some.inj hy
      exact hback
    · rw [if_neg hih] at hx
      have hSx : S x := hS x (List.mem_of_getElem? hx)
      by_cases hpp : (i - 1) / 2 = (hole - 1) / 2
      · rw [if_pos hpp] at hy
        obtain rfl := Option.some.inj hy
        have hxp := hup.others i x _ hi hih hx (by rw [hpp]; exact hp)
        exact ho.trans _ _ _ hSe hSp hSx hback hxp
      · rw [if_neg hpp] at hy
        by_cases hph : (i - 1) / 2 = hole
        · rw [if_pos hph] at hy
          obtain rfl := Option.some.inj hy
          exact hup.skip i x _ h0 hi hph hx hp
        · rw [if_neg hph] at hy
          exact hup.others i x y hi hih hx hy
  · intro i x y hp0 hi hip hx hy
    have hgp : ((hole - 1) / 2 - 1) / 2 ≠ (hole - 1) / 2 := by omega
    have hgh : ((hole - 1) / 2 - 1) / 2 ≠ hole := by omega
    rw [getElem?_swap, if_neg hgp, if_neg hgh] at hy
    have hne : (hole - 1) / 2 ≠ hole := by omega
    have hpg : ¬ compare data[(hole - 1) / 2] y < 0 := hup.others _ _ y hp0 hne hp hy
    rw [getElem?_swap, if_neg (show i ≠ (hole - 1) / 2 by omega)] at hx
    by_cases hih : i = hole
    · rw [if_pos hih] at hx
      obtain rfl := Option.some.inj hx
      exact hpg
    · rw [if_neg hih] at hx
      have hSx : S x := hS x (List.mem_of_getElem? hx)
      have hSy : S y := hS y (List.mem_of_getElem? hy)
      have hxp := hup.others i x _ hi hih hx (by rw [hip]; exact hp)
      exact ho.trans _ _ _ hSy hSp hSx hpg hxp

/-- With the hole not before its parent, all are in order. -/
theorem RisingHole.done {data : List α} {hole : Nat} (hup : RisingHole compare data hole)
    (hstop : ∀ x y, 0 < hole → data[hole]? = some x → data[(hole - 1) / 2]? = some y →
      ¬ compare x y < 0) : HeapOrdered compare data := by
  intro i x y hi hx hy
  by_cases hih : i = hole
  · subst hih
    exact hstop x y hi hx hy
  · exact hup.others i x y hi hih hx hy

theorem siftUp_ordered (ho : OrdersOn compare S) (data : List α) (index : Nat)
    (h : index < data.length) (hS : ∀ x ∈ data, S x) (hup : RisingHole compare data index) :
    HeapOrdered compare (siftUp compare data index h) := by
  induction data, index, h using siftUp.induct compare with
  | case1 data index h h0 parent hparent hless ih =>
    rw [siftUp, dif_pos h0, if_pos hless]
    refine ih (fun x hx => hS x ((swap_perm data h hparent).subset hx)) ?_
    exact hup.swap_parent ho hS h0 h hparent hless
  | case2 data index h h0 parent hparent hless =>
    rw [siftUp, dif_pos h0, if_neg hless]
    apply hup.done
    intro x y _ hx hy
    rw [List.getElem?_eq_getElem h] at hx
    rw [List.getElem?_eq_getElem hparent] at hy
    obtain rfl := Option.some.inj hx
    obtain rfl := Option.some.inj hy
    exact hless
  | case3 data index h h0 =>
    rw [siftUp, dif_neg h0]
    exact hup.done fun x y hpos => absurd hpos h0

/-! ### `_SiftDown` -/

theorem smaller_first (ho : OrdersOn compare S) {data : List α} (hS : ∀ x ∈ data, S x)
    {first child : Nat} (hle : first ≤ child) {x y : α} (hx : data[first]? = some x)
    (hy : data[smaller compare data first child hle]? = some y) : ¬ compare x y < 0 := by
  have hSx : S x := hS x (List.mem_of_getElem? hx)
  rw [smaller] at hy
  split at hy
  · rename_i hchild
    have hfirst : first < data.length := Nat.lt_of_le_of_lt hle hchild
    rw [List.getElem?_eq_getElem hfirst] at hx
    obtain rfl := Option.some.inj hx
    dsimp only at hy
    split at hy
    · rename_i hless
      rw [List.getElem?_eq_getElem hchild] at hy
      obtain rfl := Option.some.inj hy
      exact ho.asymm _ _ (hS _ (List.getElem_mem _)) hSx hless
    · rw [List.getElem?_eq_getElem hfirst] at hy
      obtain rfl := Option.some.inj hy
      exact ho.irrefl hSx
  · rw [hx] at hy
    obtain rfl := Option.some.inj hy
    exact ho.irrefl hSx

theorem smaller_child (ho : OrdersOn compare S) {data : List α} (hS : ∀ x ∈ data, S x)
    {first child : Nat} (hle : first ≤ child) {x y : α} (hx : data[child]? = some x)
    (hy : data[smaller compare data first child hle]? = some y) : ¬ compare x y < 0 := by
  have hSx : S x := hS x (List.mem_of_getElem? hx)
  obtain ⟨hchild, rfl⟩ := List.getElem?_eq_some_iff.mp hx
  have hfirst : first < data.length := Nat.lt_of_le_of_lt hle hchild
  rw [smaller, dif_pos hchild] at hy
  dsimp only at hy
  split at hy
  · rw [hx] at hy
    obtain rfl := Option.some.inj hy
    exact ho.irrefl hSx
  · rename_i hless
    rw [List.getElem?_eq_getElem hfirst] at hy
    obtain rfl := Option.some.inj hy
    exact hless

/-- Neither the element nor its children are before the smallest of them. -/
theorem smallest_le (ho : OrdersOn compare S) {data : List α} (hS : ∀ x ∈ data, S x)
    {index i : Nat} (hi : i = index ∨ 0 < i ∧ (i - 1) / 2 = index) {x y : α}
    (hx : data[i]? = some x) (hy : data[smallest compare data index]? = some y) :
    ¬ compare x y < 0 := by
  have hleft : index ≤ index * 2 + 1 := by omega
  have hle := smaller_le compare data hleft
  have hright : smaller compare data index (index * 2 + 1) hleft ≤ index * 2 + 2 := by omega
  rw [smallest] at hy
  obtain ⟨m, hm⟩ : ∃ m, data[smaller compare data index (index * 2 + 1) hleft]? = some m := by
    refine ⟨_, List.getElem?_eq_getElem ?_⟩
    have hind : i < data.length := (List.getElem?_eq_some_iff.mp hx).1
    rcases smaller_cases compare data hleft with h | ⟨h, hlt⟩ <;> omega
  have hmy : ¬ compare m y < 0 := smaller_first ho hS hright hm hy
  have hvia : ¬ compare x m < 0 → ¬ compare x y < 0 := fun hxm =>
    ho.trans _ _ _ (hS y (List.mem_of_getElem? hy)) (hS m (List.mem_of_getElem? hm))
      (hS x (List.mem_of_getElem? hx)) hmy hxm
  have hwhich : i = index ∨ i = index * 2 + 1 ∨ i = index * 2 + 2 := by omega
  rcases hwhich with rfl | rfl | rfl
  · exact hvia (smaller_first ho hS hleft hx hm)
  · exact hvia (smaller_child ho hS hleft hx hm)
  · exact smaller_child ho hS hright hx hy

/-- A swap with the smallest child moves the hole down. -/
theorem SinkingHole.swap_smallest {data : List α} {hole : Nat} (ho : OrdersOn compare S)
    (hS : ∀ x ∈ data, S x) (hdown : SinkingHole compare data hole) {s : Nat}
    (hs : smallest compare data hole = s) (hhole : hole < data.length) (hslen : s < data.length)
    (hchild : 0 < s ∧ (s - 1) / 2 = hole) :
    SinkingHole compare (swap data hole s hhole hslen) s := by
  obtain ⟨hs0, hsp⟩ := hchild
  have hsmall : data[smallest compare data hole]? = some data[s] := by
    rw [hs]
    exact List.getElem?_eq_getElem hslen
  have hsh : hole ≠ s := by omega
  constructor
  · intro i x y hi hne hx hy
    rw [getElem?_swap] at hx
    rw [getElem?_swap, if_neg hne] at hy
    by_cases his : i = s
    · subst his
      rw [if_pos rfl] at hx
      rw [if_pos hsp] at hy
      obtain rfl := Option.some.inj hx
      obtain rfl := Option.some.inj hy
      exact smallest_le ho hS (Or.inl rfl) (List.getElem?_eq_getElem hhole) hsmall
    · rw [if_neg his] at hx
      by_cases hih : i = hole
      · subst hih
        rw [if_pos rfl] at hx
        obtain rfl := Option.some.inj hx
        rw [if_neg (show (i - 1) / 2 ≠ i by omega)] at hy
        exact hdown.skip s _ y hi hs0 hsp (List.getElem?_eq_getElem hslen) hy
      · rw [if_neg hih] at hx
        by_cases hph : (i - 1) / 2 = hole
        · rw [if_pos hph] at hy
          obtain rfl := Option.some.inj hy
          exact smallest_le ho hS (Or.inr ⟨hi, hph⟩) hx hsmall
        · rw [if_neg hph] at hy
          exact hdown.others i x y hi hph hx hy
  · intro i x y _ hi his hx hy
    rw [hsp, getElem?_swap, if_neg hsh, if_pos rfl] at hy
    obtain rfl := Option.some.inj hy
    rw [getElem?_swap, if_neg (show i ≠ s by omega), if_neg (show i ≠ hole by omega)] at hx
    apply hdown.others i x _ hi (by omega) hx
    rw [his]
    exact List.getElem?_eq_getElem hslen

/-- With no child before the hole, all are in order. -/
theorem SinkingHole.done {data : List α} {hole : Nat} (hdown : SinkingHole compare data hole)
    (hstop : ∀ i x y, 0 < i → (i - 1) / 2 = hole → data[i]? = some x → data[hole]? = some y →
      ¬ compare x y < 0) : HeapOrdered compare data := by
  intro i x y hi hx hy
  by_cases hph : (i - 1) / 2 = hole
  · rw [hph] at hy
    exact hstop i x y hi hph hx hy
  · exact hdown.others i x y hi hph hx hy

theorem smallest_child {data : List α} {index : Nat}
    (h : smallest compare data index ≠ index) :
    0 < smallest compare data index ∧ (smallest compare data index - 1) / 2 = index := by
  have hleft := smaller_cases compare data (show index ≤ index * 2 + 1 by omega)
  have hle := smaller_le compare data (show index ≤ index * 2 + 1 by omega)
  have hright := smaller_cases compare data
    (show smaller compare data index (index * 2 + 1) (by omega) ≤ index * 2 + 2 by omega)
  rw [smallest] at h ⊢
  omega

theorem siftDown_ordered (ho : OrdersOn compare S) (data : List α) (index : Nat)
    (hS : ∀ x ∈ data, S x) (hdown : SinkingHole compare data index) :
    HeapOrdered compare (siftDown compare data index) := by
  induction data, index using siftDown.induct compare with
  | case1 data index h =>
    rw [siftDown, dif_pos h]
    apply hdown.done
    intro i x y hi hp hx hy
    exact smallest_le ho hS (Or.inr ⟨hi, hp⟩) hx (by rw [h]; exact hy)
  | case2 data index h hbound ih =>
    rw [siftDown, dif_neg h]
    have hlt : index < data.length := Nat.lt_trans hbound.1 hbound.2
    refine ih (fun x hx => hS x ((swap_perm data hlt hbound.2).subset hx)) ?_
    exact hdown.swap_smallest ho hS rfl hlt hbound.2 (smallest_child h)

/-! ### `Push`, `Peek` and `Pop` -/

theorem heapOrdered_nil : HeapOrdered compare ([] : List α) := by
  intro i x y _ hx
  cases hx

/-- **`Push` keeps the heap order.** -/
theorem push_ordered (ho : OrdersOn compare S) {heap : TMinHeap α} {item : α}
    (hS : ∀ x ∈ heap.data, S x) (hitem : S item) (hh : HeapOrdered compare heap.data) :
    HeapOrdered compare (heap.push compare item).data := by
  refine siftUp_ordered ho _ _ _ (fun x hx => ?_) ⟨fun i x y hi hne hx hy => ?_, ?_⟩
  · rcases List.mem_append.mp hx with hx | hx
    · exact hS x hx
    · rw [List.mem_singleton] at hx
      rw [hx]
      exact hitem
  · have hi' : i < (heap.data ++ [item]).length := (List.getElem?_eq_some_iff.mp hx).1
    rw [List.length_append, List.length_singleton] at hi'
    rw [List.getElem?_append_left (by omega)] at hx hy
    exact hh i x y hi hx hy
  · intro i x y _ hi hp hx
    have hi' : i < (heap.data ++ [item]).length := (List.getElem?_eq_some_iff.mp hx).1
    rw [List.length_append, List.length_singleton] at hi'
    omega

/-- The first element of an ordered heap is a least one. -/
theorem HeapOrdered.first_le (ho : OrdersOn compare S) {data : List α} (hS : ∀ x ∈ data, S x)
    (hh : HeapOrdered compare data) {first : α} (hfirst : data[0]? = some first) (i : Nat) :
    ∀ x, data[i]? = some x → ¬ compare x first < 0 := by
  induction i using Nat.strongRecOn with
  | ind i ih =>
    intro x hx
    by_cases h0 : i = 0
    · rw [h0, hfirst] at hx
      obtain rfl := Option.some.inj hx
      exact ho.irrefl (hS _ (List.mem_of_getElem? hfirst))
    · have hlt : (i - 1) / 2 < data.length := by
        have hi := (List.getElem?_eq_some_iff.mp hx).1
        omega
      have hp : data[(i - 1) / 2]? = some data[(i - 1) / 2] := List.getElem?_eq_getElem hlt
      exact ho.trans _ _ _ (hS _ (List.mem_of_getElem? hfirst)) (hS _ (List.getElem_mem _))
        (hS x (List.mem_of_getElem? hx)) (ih _ (by omega) _ hp) (hh i x _ (by omega) hx hp)

/-- **`Peek` shows a least element.** -/
theorem peek_le (ho : OrdersOn compare S) {heap : TMinHeap α} (hS : ∀ x ∈ heap.data, S x)
    (hh : HeapOrdered compare heap.data) {item : α} (hpeek : heap.peek = some item) :
    ∀ x ∈ heap.data, ¬ compare x item < 0 := by
  intro x hx
  obtain ⟨i, hi, rfl⟩ := List.getElem_of_mem hx
  rw [TMinHeap.peek, List.head?_eq_getElem?] at hpeek
  exact hh.first_le ho hS hpeek i _ (List.getElem?_eq_getElem hi)

/-- **`Pop` keeps the heap order.** -/
theorem pop_ordered (ho : OrdersOn compare S) {heap heap' : TMinHeap α} {item : α}
    (hS : ∀ x ∈ heap.data, S x) (hh : HeapOrdered compare heap.data)
    (hpop : heap.pop compare = some (item, heap')) : HeapOrdered compare heap'.data := by
  rw [TMinHeap.pop] at hpop
  split at hpop
  · cases hpop
  · rename_i result rest hdata
    obtain ⟨rfl, rfl⟩ := Prod.mk.inj (Option.some.inj hpop)
    have hmem := (dropLast_set_perm result rest).subset
    refine siftDown_ordered ho _ _ (fun x hx => hS x ?_) ⟨fun i x y hi hne hx hy => ?_, ?_⟩
    · rw [hdata]
      exact List.mem_cons_of_mem _ (hmem hx)
    · have hparent : 0 < (i - 1) / 2 := by omega
      rw [List.set_cons_zero, List.getElem?_dropLast] at hx hy
      split at hx
      · split at hy
        · rw [List.getElem?_cons, if_neg (by omega)] at hx hy
          refine hh i x y hi ?_ ?_
          · rw [hdata, List.getElem?_cons, if_neg (by omega)]
            exact hx
          · rw [hdata, List.getElem?_cons, if_neg (by omega)]
            exact hy
        · cases hy
      · cases hx
    · intro i x y h0
      exact absurd h0 (Nat.lt_irrefl 0)

end NetMod.MinHeap
