import Mathlib.Data.List.Nodup

/-!
# A ledger of uses and releases

Resources are handed out under names and released by them.  The ledger records, in order, every use
and every release.  `FreedOnce` says that a resource was released once and not touched afterwards;
the rules say what a longer ledger must not contain for that to hold (`FreedOnce.append`), and that
nothing may follow a release (`FreedOnce.silent`).
-/

namespace NetMod.FreeLedger

variable {ι : Type*}

inductive Event (ι : Type*) where
  | use (i : ι)
  | free (i : ι)
deriving DecidableEq

/-- The resource is neither used nor released. -/
def Silent (l : List (Event ι)) (i : ι) : Prop := .use i ∉ l ∧ .free i ∉ l

/-- The resource is released once and not touched afterwards. -/
def FreedOnce (l : List (Event ι)) (i : ι) : Prop :=
  ∃ before behind, l = before ++ .free i :: behind ∧ .free i ∉ before ∧ Silent behind i

variable {l l' : List (Event ι)} {i : ι}

theorem silent_nil : Silent ([] : List (Event ι)) i := ⟨List.not_mem_nil, List.not_mem_nil⟩

theorem Silent.append (h : Silent l i) (h' : Silent l' i) : Silent (l ++ l') i :=
  ⟨mt List.mem_append.mp (not_or.mpr ⟨h.1, h'.1⟩), mt List.mem_append.mp (not_or.mpr ⟨h.2, h'.2⟩)⟩

theorem FreedOnce.mem (h : FreedOnce l i) : .free i ∈ l := by
  obtain ⟨before, behind, rfl, -, -⟩ := h
  simp

/-- What follows must leave the resource alone. -/
theorem FreedOnce.append (h : FreedOnce l i) (h' : Silent l' i) : FreedOnce (l ++ l') i := by
  obtain ⟨before, behind, rfl, hbefore, hbehind⟩ := h
  exact ⟨before, behind ++ l', by simp, hbefore, hbehind.append h'⟩

/-- What goes before must not release it. -/
theorem FreedOnce.prepend (h : FreedOnce l' i) (hl : .free i ∉ l) : FreedOnce (l ++ l') i := by
  obtain ⟨before, behind, rfl, hbefore, hbehind⟩ := h
  refine ⟨l ++ before, behind, by simp, ?_, hbehind⟩
  exact mt List.mem_append.mp (not_or.mpr ⟨hl, hbefore⟩)

/-- **Nothing follows the release.** -/
theorem FreedOnce.silent (h : FreedOnce (l ++ l') i) (hl : .free i ∈ l) : Silent l' i := by
  obtain ⟨before, behind, heq, hbefore, hbehind⟩ := h
  have hsuffix : l' <:+ behind := by
    rcases List.append_eq_append_iff.mp heq with ⟨as, rfl, hrest⟩ | ⟨bs, rfl, hrest⟩
    · -- the first part would end before the release
      exact absurd (List.mem_append_left _ hl) hbefore
    · cases bs with
      | nil =>
        rw [List.append_nil] at hl
        exact absurd hl hbefore
      | cons e bs =>
        obtain ⟨-, hbehind'⟩ := List.cons.inj hrest
        exact ⟨bs, hbehind'.symm⟩
  exact ⟨fun hmem => hbehind.1 (hsuffix.mem hmem), fun hmem => hbehind.2 (hsuffix.mem hmem)⟩

/-- Releasing a list of different resources releases each once. -/
theorem freedOnce_map {is : List ι} (hnodup : is.Nodup) (hi : i ∈ is) :
    FreedOnce (is.map Event.free) i := by
  obtain ⟨before, behind, rfl⟩ := List.append_of_mem hi
  have hapart := List.nodup_middle.mp hnodup
  rw [List.nodup_cons, List.mem_append, not_or] at hapart
  have hnot : ∀ js : List ι, i ∉ js → (.free i : Event ι) ∉ js.map Event.free := by
    intro js hjs hmem
    obtain ⟨j, hj, heq⟩ := List.mem_map.mp hmem
    cases heq
    exact hjs hj
  refine ⟨before.map .free, behind.map .free, by simp, hnot _ hapart.1.1, ?_, hnot _ hapart.1.2⟩
  intro hmem
  obtain ⟨j, -, heq⟩ := List.mem_map.mp hmem
  cases heq

end NetMod.FreeLedger
