import Mathlib.Data.List.AList

/-!
# Maps from keys to lists, none of them empty

A container that files its elements under keys can tell by its keys whether it is empty only as long
as no key is left behind with an empty list.  `NoEmptyList` is that invariant; what an insertion or
an erasure does to it, and what it says about the number of keys and of elements, is all there is to
know about the container's bookkeeping.
-/

namespace NetMod.ListMap

variable {κ ε : Type*} [DecidableEq κ]

/-- No key maps to the empty list. -/
def NoEmptyList (m : AList fun _ : κ => List ε) : Prop := ∀ k l, m.lookup k = some l → l ≠ []

/-- The elements of all lists. -/
def elements (m : AList fun _ : κ => List ε) : List ε := m.entries.flatMap (·.2)

theorem noEmptyList_empty : NoEmptyList (∅ : AList fun _ : κ => List ε) := by
  intro k l hl
  rw [AList.lookup_empty] at hl
  exact absurd hl.symm (Option.some_ne_none l)

theorem noEmptyList_iff {m : AList fun _ : κ => List ε} :
    NoEmptyList m ↔ ∀ p ∈ m.entries, p.2 ≠ [] := by
  constructor
  · intro h p hp
    exact h p.1 p.2 (AList.mem_lookup_iff.mpr hp)
  · intro h k l hl
    exact h ⟨k, l⟩ (AList.mem_lookup_iff.mp hl)

/-- **Filing a list keeps the invariant iff the list has an element.** -/
theorem NoEmptyList.insert_iff {m : AList fun _ : κ => List ε} (hm : NoEmptyList m) (k : κ)
    (l : List ε) : NoEmptyList (m.insert k l) ↔ l ≠ [] := by
  constructor
  · intro h
    exact h k l (AList.lookup_insert m)
  · intro hl k' l' hlookup
    by_cases hk : k' = k
    · subst hk
      rw [AList.lookup_insert] at hlookup
      obtain rfl := Option.some.inj hlookup
      exact hl
    · rw [AList.lookup_insert_ne hk] at hlookup
      exact hm k' l' hlookup

theorem NoEmptyList.erase {m : AList fun _ : κ => List ε} (hm : NoEmptyList m) (k : κ) :
    NoEmptyList (m.erase k) := by
  intro k' l' hlookup
  by_cases hk : k' = k
  · subst hk
    rw [AList.lookup_erase] at hlookup
    exact absurd hlookup.symm (Option.some_ne_none l')
  · rw [AList.lookup_erase_ne hk] at hlookup
    exact hm k' l' hlookup

/-- Lists that all have an element are no more than their elements. -/
theorem length_le_length_flatMap {α : Type*} {f : α → List ε} :
    ∀ {es : List α}, (∀ p ∈ es, f p ≠ []) → es.length ≤ (es.flatMap f).length := by
  intro es
  induction es with
  | nil => exact fun _ => le_rfl
  | cons p es ih =>
    intro hlists
    have hone := List.length_pos_iff.mpr (hlists p List.mem_cons_self)
    have hrest := ih fun q hq => hlists q (List.mem_cons_of_mem p hq)
    rw [List.flatMap_cons, List.length_append, List.length_cons]
    omega

/-- There are no more keys than elements. -/
theorem NoEmptyList.keys_le {m : AList fun _ : κ => List ε} (hm : NoEmptyList m) :
    m.entries.length ≤ (elements m).length :=
  length_le_length_flatMap (noEmptyList_iff.mp hm)

/-- The container has no key iff it has no element. -/
theorem NoEmptyList.entries_eq_nil_iff {m : AList fun _ : κ => List ε} (hm : NoEmptyList m) :
    m.entries = [] ↔ elements m = [] := by
  constructor
  · intro h
    rw [elements, h, List.flatMap_nil]
  · intro h
    have hle := hm.keys_le
    rw [h] at hle
    exact List.length_eq_zero_iff.mp (Nat.le_zero.mp hle)

end NetMod.ListMap
