import Mathlib.Data.List.Basic

/-!
# Runs that keep a property all the time

A machine takes a step for each input.  If, wherever the property holds, a step keeps it exactly when
it meets a condition, then the property holds in all states of a run exactly when all the steps of
the run meet the condition (`always_iff`).  What every step keeps may be assumed of the states.
-/

namespace NetMod.StepConditions

variable {σ ι : Type*} (step : σ → ι → σ)

/-- The property holds in every state of the run from `s`. -/
def Always (P : σ → Prop) (s : σ) (l : List ι) : Prop :=
  ∀ before behind, l = before ++ behind → P (before.foldl step s)

/-- Every step of the run from `s` meets the condition in the state it is taken from. -/
def Each (ok : σ → ι → Prop) (s : σ) (l : List ι) : Prop :=
  ∀ before i behind, l = before ++ i :: behind → ok (before.foldl step s) i

variable {step} {P Inv : σ → Prop} {ok : σ → ι → Prop} {s : σ}

theorem always_nil : Always step P s [] ↔ P s := by
  constructor
  · exact fun h => h [] [] rfl
  · intro h before behind hsplit
    rw [(List.append_eq_nil_iff.mp hsplit.symm).1]
    exact h

theorem always_cons {i : ι} {l : List ι} :
    Always step P s (i :: l) ↔ P s ∧ Always step P (step s i) l := by
  constructor
  · intro h
    refine ⟨h [] (i :: l) rfl, fun before behind hsplit => ?_⟩
    exact h (i :: before) behind (by rw [hsplit, List.cons_append])
  · rintro ⟨hs, h⟩ before behind hsplit
    cases before with
    | nil => exact hs
    | cons a before =>
      obtain ⟨rfl, hrest⟩ := List.cons.inj hsplit
      exact h before behind hrest

theorem each_nil : Each step ok s [] := by
  intro before i behind hsplit
  simp at hsplit

theorem each_cons {i : ι} {l : List ι} :
    Each step ok s (i :: l) ↔ ok s i ∧ Each step ok (step s i) l := by
  constructor
  · intro h
    refine ⟨h [] i l rfl, fun before j behind hsplit => ?_⟩
    exact h (i :: before) j behind (by rw [hsplit, List.cons_append])
  · rintro ⟨hs, h⟩ before j behind hsplit
    cases before with
    | nil =>
      obtain ⟨rfl, -⟩ := List.cons.inj hsplit
      exact hs
    | cons a before =>
      obtain ⟨rfl, hrest⟩ := List.cons.inj hsplit
      exact h before j behind hrest

/-- **The property holds all the time exactly when each step meets the condition.** -/
theorem always_iff (hinv : ∀ s i, Inv s → Inv (step s i))
    (hstep : ∀ s i, Inv s → P s → (P (step s i) ↔ ok s i)) (hs : Inv s) (hP : P s) (l : List ι) :
    Always step P s l ↔ Each step ok s l := by
  induction l generalizing s with
  | nil => exact ⟨fun _ => each_nil, fun _ => always_nil.mpr hP⟩
  | cons i l ih =>
    rw [always_cons, each_cons]
    constructor
    · rintro ⟨-, hrest⟩
      have hnext : P (step s i) := hrest [] l rfl
      exact ⟨(hstep s i hs hP).mp hnext, (ih (hinv s i hs) hnext).mp hrest⟩
    · rintro ⟨hok, hrest⟩
      exact ⟨hP, (ih (hinv s i hs) ((hstep s i hs hP).mpr hok)).mpr hrest⟩

end NetMod.StepConditions
