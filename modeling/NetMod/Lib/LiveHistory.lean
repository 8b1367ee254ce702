import Mathlib.Data.List.Basic

/-!
# Elements kept alive by a history of operations

A keyed container is run through a list of operations.  Each operation may create elements and may
kill elements; what it neither creates nor kills is left as it was.  If that description is exact
for one step (`ExactStep`), the content after a whole history is exact too: an element is held iff
some operation of the history created it and no later one killed it.

Soundness and completeness of a cache, a store or a registry over whole runs are the two directions
of that one equivalence (`holds_run_iff`).
-/

namespace NetMod.LiveHistory

variable {σ ω ε : Type*}

/-- One step changes membership exactly as `kills` and `creates` say, on states satisfying `inv`. -/
structure ExactStep (apply : σ → ω → σ) (inv : σ → Prop) (holds : σ → ε → Prop)
    (kills creates : ω → ε → Prop) : Prop where
  keeps : ∀ s op, inv s → inv (apply s op)
  mem : ∀ s op e, inv s → (holds (apply s op) e ↔ (holds s e ∧ ¬ kills op e) ∨ creates op e)

/-- `e` was created by one operation of the history and killed by none of the later ones. -/
def Live (kills creates : ω → ε → Prop) (h : List ω) (e : ε) : Prop :=
  ∃ h₁ op h₂, h = h₁ ++ op :: h₂ ∧ creates op e ∧ ∀ op' ∈ h₂, ¬ kills op' e

theorem live_nil {kills creates : ω → ε → Prop} {e : ε} : ¬ Live kills creates [] e := by
  intro hlive
  obtain ⟨h₁, op, h₂, hsplit, -⟩ := hlive
  simp at hsplit

theorem live_cons {kills creates : ω → ε → Prop} {op : ω} {h : List ω} {e : ε} :
    Live kills creates (op :: h) e ↔
      (creates op e ∧ ∀ op' ∈ h, ¬ kills op' e) ∨ Live kills creates h e := by
  constructor
  · intro hlive
    obtain ⟨h₁, op₁, h₂, hsplit, hc, hk⟩ := hlive
    cases h₁ with
    | nil =>
      obtain ⟨rfl, rfl⟩ := List.cons.inj hsplit
      exact Or.inl ⟨hc, hk⟩
    | cons a h₁ =>
      obtain ⟨rfl, rfl⟩ := List.cons.inj hsplit
      exact Or.inr ⟨h₁, op₁, h₂, rfl, hc, hk⟩
  · intro hor
    rcases hor with ⟨hc, hk⟩ | ⟨h₁, op₁, h₂, rfl, hc, hk⟩
    · exact ⟨[], op, h, rfl, hc, hk⟩
    · exact ⟨op :: h₁, op₁, h₂, rfl, hc, hk⟩

section

variable {apply : σ → ω → σ} {inv : σ → Prop} {holds : σ → ε → Prop}
  {kills creates : ω → ε → Prop}

theorem ExactStep.inv_run (hx : ExactStep apply inv holds kills creates) :
    ∀ (h : List ω) (s : σ), inv s → inv (h.foldl apply s) := by
  intro h
  induction h with
  | nil => intro s hs; exact hs
  | cons op h ih => intro s hs; exact ih _ (hx.keeps s op hs)

/-- **Exactness over a whole history**, from any state satisfying the invariant. -/
theorem ExactStep.holds_foldl_iff (hx : ExactStep apply inv holds kills creates) (e : ε) :
    ∀ (h : List ω) (s : σ), inv s →
      (holds (h.foldl apply s) e ↔
        (holds s e ∧ ∀ op ∈ h, ¬ kills op e) ∨ Live kills creates h e) := by
  intro h
  induction h with
  | nil => intro s _; simp [live_nil]
  | cons op h ih =>
    intro s hs
    rw [List.foldl_cons, ih _ (hx.keeps s op hs), hx.mem s op e hs, live_cons]
    simp only [List.mem_cons, forall_eq_or_imp]
    tauto

/-- From a state holding nothing, what is held is exactly what the history keeps alive. -/
theorem ExactStep.holds_run_iff (hx : ExactStep apply inv holds kills creates) {s : σ}
    (hs : inv s) (hempty : ∀ e, ¬ holds s e) (h : List ω) (e : ε) :
    holds (h.foldl apply s) e ↔ Live kills creates h e := by
  rw [hx.holds_foldl_iff e h s hs]
  simp [hempty e]

end

end NetMod.LiveHistory
