import Mathlib.Data.List.Basic

/-!
# Lists cut at a separator

`splitOn` cuts a list into its pieces.  A fold that treats the end of its list like one more
separator is a fold over the pieces (`foldlM_splitOn`), and the number of pieces tells how often the
separator occurs (`length_splitOn`).  `behind` are the suffixes that begin right behind a separator, the
longest first.
-/

namespace NetMod.SeparatedText

variable {α : Type} [BEq α]

/-- There is one piece more than separators. -/
theorem length_splitOn (sep : α) (xs : List α) :
    (xs.splitOn sep).length = xs.count sep + 1 := by
  induction xs with
  | nil => rfl
  | cons x xs ih =>
    rw [List.splitOn_cons_eq_if_modifyHead, List.count_cons]
    by_cases hx : (x == sep) = true
    · rw [if_pos hx, if_pos hx, List.length_cons, ih]
    · rw [if_neg hx, if_neg hx, List.length_modifyHead, ih]

variable [LawfulBEq α]

/-- Every piece with its separator: the list and one more separator. -/
theorem flatMap_splitOn (sep : α) (xs : List α) :
    (xs.splitOn sep).flatMap (fun p => p ++ [sep]) = xs ++ [sep] := by
  induction xs with
  | nil => simp
  | cons x xs ih =>
    rw [List.splitOn_cons_eq_if_modifyHead]
    by_cases hx : (x == sep) = true
    · rw [if_pos hx, List.flatMap_cons, ih, eq_of_beq hx]
      rfl
    · rw [if_neg hx]
      obtain ⟨p, ps, hp⟩ := List.exists_cons_of_ne_nil (List.splitOn_ne_nil sep xs)
      rw [hp, List.flatMap_cons] at ih
      rw [hp, List.modifyHead_cons, List.flatMap_cons, List.cons_append, List.cons_append, ih,
        List.cons_append]

/-- **A fold over a list and a last separator goes piece by piece.** -/
theorem foldlM_splitOn {m : Type → Type} [Monad m] [LawfulMonad m] {σ : Type} (f : σ → α → m σ)
    (sep : α) (xs : List α) (s : σ) :
    (xs ++ [sep]).foldlM f s = (xs.splitOn sep).foldlM (fun s p => (p ++ [sep]).foldlM f s) s := by
  rw [← flatMap_splitOn]
  generalize xs.splitOn sep = ps
  induction ps generalizing s with
  | nil => rfl
  | cons p ps ih =>
    rw [List.flatMap_cons, List.foldlM_append, List.foldlM_cons]
    exact congrArg _ (funext ih)

/-- No piece has the separator. -/
theorem not_mem_of_mem_splitOn {sep : α} {xs p : List α} (hp : p ∈ xs.splitOn sep) : sep ∉ p := by
  induction xs generalizing p with
  | nil =>
    rw [List.splitOn_nil, List.mem_singleton] at hp
    rw [hp]
    exact List.not_mem_nil
  | cons x xs ih =>
    rw [List.splitOn_cons_eq_if_modifyHead] at hp
    by_cases hx : (x == sep) = true
    · rw [if_pos hx] at hp
      rcases List.mem_cons.mp hp with rfl | hp
      · exact List.not_mem_nil
      · exact ih hp
    · rw [if_neg hx] at hp
      obtain ⟨q, qs, hq⟩ := List.exists_cons_of_ne_nil (List.splitOn_ne_nil sep xs)
      rw [hq, List.modifyHead_cons] at hp
      rcases List.mem_cons.mp hp with rfl | hp
      · intro hmem
        rcases List.mem_cons.mp hmem with hx' | hmem
        · exact hx (beq_iff_eq.mpr hx'.symm)
        · exact ih (hq ▸ List.mem_cons_self) hmem
      · exact ih (hq ▸ List.mem_cons_of_mem q hp)

/-- The pieces are parts of the list. -/
theorem mem_of_mem_splitOn {sep a : α} {xs p : List α} (hp : p ∈ xs.splitOn sep) (ha : a ∈ p) :
    a ∈ xs := by
  have hmem : a ∈ xs ++ [sep] := by
    rw [← flatMap_splitOn]
    exact List.mem_flatMap.mpr ⟨p, hp, List.mem_append_left _ ha⟩
  rcases List.mem_append.mp hmem with h | h
  · exact h
  · rw [List.mem_singleton.mp h] at ha
    exact absurd ha (not_mem_of_mem_splitOn hp)

theorem length_le_of_mem_splitOn {sep : α} {xs p : List α} (hp : p ∈ xs.splitOn sep) :
    p.length ≤ xs.length := by
  have hsub : (p ++ [sep]).Sublist (xs ++ [sep]) := by
    rw [← flatMap_splitOn sep xs, List.flatMap_def]
    exact List.sublist_flatten_of_mem (List.mem_map.mpr ⟨p, hp, rfl⟩)
  have hlen := hsub.length_le
  rw [List.length_append, List.length_append] at hlen
  omega

/-- The list from its pieces. -/
theorem joined_of_splitOn {sep : α} {xs p : List α} {ps : List (List α)}
    (h : xs.splitOn sep = p :: ps) : xs = p ++ ps.flatMap fun q => sep :: q := by
  have hshift : ∀ (p : List α) (ps : List (List α)),
      (p :: ps).flatMap (fun q => q ++ [sep]) = (p ++ ps.flatMap fun q => sep :: q) ++ [sep] := by
    intro p ps
    induction ps generalizing p with
    | nil => simp
    | cons q ps ih =>
      rw [List.flatMap_cons, ih q, List.flatMap_cons]
      simp
  have hpieces := flatMap_splitOn sep xs
  rw [h, hshift] at hpieces
  exact (List.append_cancel_right hpieces).symm

/-- **Pieces put together with separators** are the pieces of the result. -/
theorem splitOn_joined {sep : α} {p : List α} {ps : List (List α)} (h : ∀ q ∈ p :: ps, sep ∉ q) :
    (p ++ ps.flatMap fun q => sep :: q).splitOn sep = p :: ps := by
  induction ps generalizing p with
  | nil =>
    rw [List.flatMap_nil, List.append_nil]
    exact List.splitOn_eq_singleton (h p List.mem_cons_self)
  | cons q qs ih =>
    rw [List.flatMap_cons, List.cons_append,
      List.splitOn_append_cons_self_of_not_mem (h p List.mem_cons_self),
      ih fun r hr => h r (List.mem_cons_of_mem p hr)]

omit [BEq α] [LawfulBEq α] in
/-- What the separator and all pieces satisfy, the join satisfies. -/
theorem forall_mem_intercalate {q : α → Prop} {x : α} (hx : q x) :
    ∀ {ls : List (List α)}, (∀ p ∈ ls, ∀ a ∈ p, q a) → ∀ a ∈ [x].intercalate ls, q a := by
  intro ls
  induction ls with
  | nil => exact fun _ a ha => absurd ha List.not_mem_nil
  | cons p ls ih =>
    intro hls a ha
    have hp := hls p List.mem_cons_self
    cases ls with
    | nil =>
      rw [List.intercalate_singleton] at ha
      exact hp a ha
    | cons l ls =>
      rw [List.intercalate_cons_cons, List.append_assoc] at ha
      rcases List.mem_append.mp ha with ha | ha
      · exact hp a ha
      · rcases List.mem_cons.mp ha with rfl | ha
        · exact hx
        · exact ih (fun q hq => hls q (List.mem_cons_of_mem p hq)) a ha

omit [BEq α] [LawfulBEq α] in
/-- **A function that respects the separator respects the whole join.** -/
theorem intercalate_hom {β : Type} {F : List α → List β} {x : α} {y : β} :
    ∀ {ls : List (List α)}, (∀ p ∈ ls, ∀ s, F (p ++ x :: s) = F p ++ y :: F s) → ls ≠ [] →
      F ([x].intercalate ls) = [y].intercalate (ls.map F) := by
  intro ls
  induction ls with
  | nil => exact fun _ hne => absurd rfl hne
  | cons p ls ih =>
    intro hF _
    cases ls with
    | nil => rw [List.map_cons, List.map_nil, List.intercalate_singleton, List.intercalate_singleton]
    | cons l ls =>
      have hrest := ih (fun q hq => hF q (List.mem_cons_of_mem p hq)) (List.cons_ne_nil l ls)
      rw [List.map_cons] at hrest
      rw [List.intercalate_cons_cons, List.map_cons, List.map_cons, List.intercalate_cons_cons,
        List.append_assoc, List.append_assoc, List.singleton_append, List.singleton_append,
        hF p List.mem_cons_self, hrest]

/-! ### Suffixes -/

/-- The suffixes that begin right behind a separator. -/
def behind (sep : α) : List α → List (List α)
  | [] => []
  | x :: xs => if x == sep then xs :: behind sep xs else behind sep xs

theorem mem_behind {sep : α} {xs t : List α} : t ∈ behind sep xs ↔ sep :: t <:+ xs := by
  induction xs with
  | nil =>
    rw [behind, List.suffix_nil]
    exact iff_of_false List.not_mem_nil (List.cons_ne_nil _ _)
  | cons x xs ih =>
    rw [behind, List.suffix_cons_iff, List.cons.injEq]
    by_cases hx : (x == sep) = true
    · rw [if_pos hx, List.mem_cons, ih, and_iff_right (eq_of_beq hx).symm]
    · have hne : sep ≠ x := fun h => hx (beq_iff_eq.mpr h.symm)
      rw [if_neg hx, ih, or_iff_right fun h => hne h.1]

theorem behind_of_not_mem {sep : α} {xs : List α} (h : sep ∉ xs) : behind sep xs = [] := by
  apply List.eq_nil_iff_forall_not_mem.mpr
  intro t ht
  exact h ((mem_behind.mp ht).subset List.mem_cons_self)

theorem behind_append {sep : α} {p : List α} (h : sep ∉ p) (t : List α) :
    behind sep (p ++ sep :: t) = t :: behind sep t := by
  induction p with
  | nil => rw [List.nil_append, behind, if_pos BEq.rfl]
  | cons x p ih =>
    obtain ⟨hx, hp⟩ := not_or.mp (mt List.mem_cons.mpr h)
    rw [List.cons_append, behind, if_neg fun heq => hx (eq_of_beq heq).symm, ih hp]

theorem length_lt_of_mem_behind {sep : α} {xs t : List α} (h : t ∈ behind sep xs) :
    t.length < xs.length :=
  (mem_behind.mp h).length_le

/-- Each of them is shorter than those before it. -/
theorem behind_shrinking (sep : α) (xs : List α) :
    (behind sep xs).Pairwise fun s t => t.length < s.length := by
  induction xs with
  | nil => exact List.Pairwise.nil
  | cons x xs ih =>
    rw [behind]
    split
    · exact List.Pairwise.cons (fun t ht => length_lt_of_mem_behind ht) ih
    · exact ih

omit [BEq α] [LawfulBEq α] in
theorem nodup_of_shrinking {ls : List (List α)} (h : ls.Pairwise fun s t => t.length < s.length) :
    ls.Nodup := by
  apply List.Pairwise.imp _ h
  rintro s t hlt rfl
  exact Nat.lt_irrefl _ hlt

/-! ### The first separator -/

theorem idxOf?_append {a : List α} {sep : α} (h : sep ∉ a) (b : List α) :
    (a ++ sep :: b).idxOf? sep = some a.length := by
  rw [List.idxOf?_eq_some_iff]
  refine ⟨by simp, by simp, fun j hj hjc => h ?_⟩
  rw [List.getElem_append_left hj] at hjc
  exact hjc ▸ List.getElem_mem hj

theorem exists_of_idxOf? {xs : List α} {sep : α} {i : Nat} (h : xs.idxOf? sep = some i) :
    ∃ a b, xs = a ++ sep :: b ∧ sep ∉ a ∧ a.length = i := by
  obtain ⟨hi, hc, hbefore⟩ := List.idxOf?_eq_some_iff.mp h
  refine ⟨xs.take i, xs.drop (i + 1), ?_, ?_, List.length_take_of_le (Nat.le_of_lt hi)⟩
  · rw [← hc, List.getElem_cons_drop, List.take_append_drop]
  · intro hmem
    obtain ⟨j, hj, hjc⟩ := List.mem_iff_getElem.mp hmem
    rw [List.length_take] at hj
    rw [List.getElem_take] at hjc
    exact hbefore j (by omega) hjc

end NetMod.SeparatedText
