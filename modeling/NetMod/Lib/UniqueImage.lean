import Mathlib.Data.List.Basic
import Mathlib.Data.List.Nodup

/-!
# Lists whose elements have distinct images

A list that stores at most one element per key is a list with `(l.map key).Nodup`.  The lemmas say
what the usual list edits do to such a list: removing the first element with a given key removes
all of them, so membership after the removal is membership before it and a different key.
-/

namespace NetMod.UniqueImage

variable {α κ : Type*} {key : α → κ}

/-- Two members with one key are one member. -/
theorem eq_of_mem_of_key {l : List α} (hl : (l.map key).Nodup) {a b : α} (ha : a ∈ l) (hb : b ∈ l)
    (hk : key a = key b) : a = b :=
  List.inj_on_of_nodup_map hl ha hb hk

/-- Removing the first element with key `k` keeps the others and only the others. -/
theorem mem_eraseP_key [DecidableEq κ] {l : List α} (hl : (l.map key).Nodup) (k : κ) (a : α) :
    a ∈ l.eraseP (fun x => decide (key x = k)) ↔ a ∈ l ∧ key a ≠ k := by
  induction l with
  | nil => simp
  | cons x l ih =>
    have hl' : (l.map key).Nodup := (List.nodup_cons.mp hl).2
    have hx : key x ∉ l.map key := (List.nodup_cons.mp hl).1
    by_cases hxk : key x = k
    · rw [List.eraseP_cons_of_pos (by simpa using hxk)]
      have hne : ∀ b ∈ l, key b ≠ k := by
        intro b hb hbk
        exact hx (List.mem_map.mpr ⟨b, hb, hbk.trans hxk.symm⟩)
      constructor
      · intro ha
        exact ⟨List.mem_cons_of_mem x ha, hne a ha⟩
      · intro hmem
        obtain ⟨ha, hak⟩ := hmem
        rcases List.mem_cons.mp ha with rfl | ha
        · exact absurd hxk hak
        · exact ha
    · rw [List.eraseP_cons_of_neg (by simpa using hxk), List.mem_cons, List.mem_cons, ih hl']
      constructor
      · intro hor
        rcases hor with rfl | ⟨ha, hak⟩
        · exact ⟨Or.inl rfl, hxk⟩
        · exact ⟨Or.inr ha, hak⟩
      · intro hmem
        obtain ⟨rfl | ha, hak⟩ := hmem
        · exact Or.inl rfl
        · exact Or.inr ⟨ha, hak⟩

/-- Removing the first element with a key filters that key out. -/
theorem eraseP_key_eq_filter [DecidableEq κ] {l : List α} (hl : (l.map key).Nodup) (k : κ) :
    l.eraseP (fun x => decide (key x = k)) = l.filter fun x => decide (key x ≠ k) := by
  induction l with
  | nil => rfl
  | cons x l ih =>
    have hl' : (l.map key).Nodup := (List.nodup_cons.mp hl).2
    by_cases hxk : key x = k
    · have hrest : l.filter (fun x => decide (key x ≠ k)) = l := by
        refine List.filter_eq_self.mpr fun y hy => decide_eq_true fun hyk => ?_
        exact (List.nodup_cons.mp hl).1 (List.mem_map.mpr ⟨y, hy, hyk.trans hxk.symm⟩)
      rw [List.eraseP_cons_of_pos (by simpa using hxk), List.filter_cons_of_neg (by simp [hxk]),
        hrest]
    · rw [List.eraseP_cons_of_neg (by simpa using hxk), List.filter_cons_of_pos (by simp [hxk]),
        ih hl']

/-- At most one element has a key. -/
theorem length_filter_key_le_one [DecidableEq κ] {l : List α} (hl : (l.map key).Nodup) (k : κ) :
    (l.filter fun x => decide (key x = k)).length ≤ 1 := by
  have hcount := List.nodup_iff_count_le_one.mp hl k
  rw [List.count_eq_countP, List.countP_map, List.countP_eq_length_filter] at hcount
  refine le_of_eq_of_le (congrArg List.length (List.filter_congr fun x _ => ?_)) hcount
  simp only [Function.comp_apply, beq_eq_decide]

/-- A sublist of a list with distinct keys has distinct keys. -/
theorem nodup_map_of_sublist {l l' : List α} (hs : l'.Sublist l) (hl : (l.map key).Nodup) :
    (l'.map key).Nodup :=
  hl.sublist (hs.map key)

/-- Appending an element with a new key keeps the keys distinct. -/
theorem nodup_map_concat {l : List α} (hl : (l.map key).Nodup) {a : α}
    (ha : ∀ b ∈ l, key b ≠ key a) : ((l ++ [a]).map key).Nodup := by
  rw [List.map_append, List.map_singleton, List.nodup_append]
  refine ⟨hl, List.nodup_singleton _, ?_⟩
  intro x hx y hy hxy
  obtain ⟨b, hb, rfl⟩ := List.mem_map.mp hx
  rw [List.mem_singleton] at hy
  exact ha b hb (hxy.trans hy)

/-- The elements with the key of a member are that member. -/
theorem filter_key_eq [DecidableEq κ] {l : List α} (hl : (l.map key).Nodup) {a : α} (ha : a ∈ l) :
    l.filter (fun x => decide (key x = key a)) = [a] := by
  induction l with
  | nil => cases ha
  | cons x l ih =>
    obtain ⟨hx, hl'⟩ := List.nodup_cons.mp hl
    rcases List.mem_cons.mp ha with rfl | ha
    · have hnone : l.filter (fun x => decide (key x = key a)) = [] := by
        rw [List.filter_eq_nil_iff]
        intro b hb hba
        exact hx (List.mem_map.mpr ⟨b, hb, of_decide_eq_true hba⟩)
      rw [List.filter_cons_of_pos (by simp), hnone]
    · have hne : key x ≠ key a := fun h => hx (List.mem_map.mpr ⟨a, ha, h.symm⟩)
      rw [List.filter_cons_of_neg (by simpa using hne), ih hl' ha]

theorem filterMap_singleton_eq {β : Type*} (f : α → Option β) (a : α) :
    [a].filterMap f = (f a).toList := by
  cases h : f a <;> simp [h]

/-- Among values made from a list, each with the key of its origin, those with the key of a member
are the one made from it. -/
theorem filter_filterMap_key [DecidableEq κ] {β : Type*} (f : α → Option β) (key' : β → κ)
    (hf : ∀ x y, f x = some y → key' y = key x) {l : List α} (hl : (l.map key).Nodup) {a : α}
    (ha : a ∈ l) : (l.filterMap f).filter (fun y => decide (key' y = key a)) = (f a).toList := by
  have hpush : (l.filterMap f).filter (fun y => decide (key' y = key a)) =
      (l.filter (fun x => decide (key x = key a))).filterMap f := by
    rw [List.filter_filterMap, List.filterMap_filter]
    congr 1
    funext x
    cases hx : f x with
    | none => simp
    | some y => simp [Option.filter, hf x y hx]
  rw [hpush, filter_key_eq hl ha, filterMap_singleton_eq]

/-! ### Collecting one element per key -/

section

variable [DecidableEq κ]

/-- `a` joins `l` unless its key is there. -/
def collect (key : α → κ) (l : List α) (a : α) : List α :=
  if key a ∈ l.map key then l else l ++ [a]

theorem nodup_collect {l : List α} (hl : (l.map key).Nodup) (a : α) :
    ((collect key l a).map key).Nodup := by
  rw [collect]
  split
  · exact hl
  · rename_i hnew
    rw [List.map_append, List.map_singleton, List.nodup_append]
    refine ⟨hl, List.nodup_singleton _, ?_⟩
    intro k hk k' hk' heq
    rw [List.mem_singleton] at hk'
    exact hnew (hk' ▸ heq ▸ hk)

theorem mem_collect {l : List α} {a b : α} (hb : b ∈ collect key l a) : b ∈ l ∨ b = a := by
  rw [collect] at hb
  split at hb
  · exact Or.inl hb
  · rw [List.mem_append, List.mem_singleton] at hb
    exact hb

/-- Nothing leaves, and the key of `a` is there afterwards. -/
theorem keys_collect {l : List α} {a : α} {k : κ} (hk : k ∈ l.map key ∨ k = key a) :
    k ∈ (collect key l a).map key := by
  rw [collect]
  split
  · rename_i hold
    exact hk.elim id fun h => h ▸ hold
  · rw [List.map_append, List.map_singleton, List.mem_append, List.mem_singleton]
    exact hk

/-- **A list collected has one element for each key, elements of the list only, and an element for
every key of the list.** -/
theorem collected {l as : List α} (hl : (l.map key).Nodup) :
    ((as.foldl (collect key) l).map key).Nodup
      ∧ (∀ b ∈ as.foldl (collect key) l, b ∈ l ∨ b ∈ as)
      ∧ ∀ k, k ∈ l.map key ∨ k ∈ as.map key → k ∈ (as.foldl (collect key) l).map key := by
  induction as generalizing l with
  | nil =>
    refine ⟨hl, fun b hb => Or.inl hb, fun k hk => ?_⟩
    exact hk.elim id fun h => absurd h List.not_mem_nil
  | cons a as ih =>
    obtain ⟨hnodup, hmem, hkeys⟩ := ih (nodup_collect hl a)
    refine ⟨hnodup, fun b hb => ?_, fun k hk => hkeys k ?_⟩
    · rcases hmem b hb with hb | hb
      · rcases mem_collect hb with hb | rfl
        · exact Or.inl hb
        · exact Or.inr List.mem_cons_self
      · exact Or.inr (List.mem_cons_of_mem a hb)
    · rw [List.map_cons, List.mem_cons] at hk
      rcases hk with hk | hk | hk
      · exact Or.inl (keys_collect (Or.inl hk))
      · exact Or.inl (keys_collect (Or.inr hk))
      · exact Or.inr hk

end

end NetMod.UniqueImage
