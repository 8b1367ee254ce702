import Mathlib.Data.Option.Basic
import Mathlib.Data.List.Basic

/-!
# Runs of a partial step function

A machine is a `step : σ → ι → Option σ`; a label that is not possible in a state gives `none`.
`run` executes a list of labels.  `Along step ok s l` says that every step of the run from `s` meets
the condition `ok` in the state it is taken from.

The rules are the usual two: an invariant of one step is an invariant of a run, and a run whose
steps all meet a sufficient condition exists.
-/

namespace NetMod.PartialRuns

variable {σ ι : Type*} {step : σ → ι → Option σ}

/-- Execute a list of labels. -/
def run (step : σ → ι → Option σ) : σ → List ι → Option σ
  | s, [] => some s
  | s, i :: l => (step s i).bind fun s' => run step s' l

@[simp] theorem run_nil (s : σ) : run step s [] = some s := rfl

@[simp] theorem run_cons (s : σ) (i : ι) (l : List ι) :
    run step s (i :: l) = (step s i).bind fun s' => run step s' l := rfl

theorem run_append (s : σ) (l₁ l₂ : List ι) :
    run step s (l₁ ++ l₂) = (run step s l₁).bind fun s' => run step s' l₂ := by
  induction l₁ generalizing s with
  | nil => rfl
  | cons i l₁ ih =>
    simp only [List.cons_append, run_cons, ih, Option.bind_assoc]

theorem run_concat (s : σ) (l : List ι) (i : ι) :
    run step s (l ++ [i]) = (run step s l).bind fun s' => step s' i := by
  simp [run_append]

/-- Every step of the run from `s` meets `ok` in the state it is taken from. -/
def Along (step : σ → ι → Option σ) (ok : σ → ι → Prop) (s : σ) (l : List ι) : Prop :=
  ∀ pre i post, l = pre ++ i :: post → ∀ mid, run step s pre = some mid → ok mid i

theorem along_nil {ok : σ → ι → Prop} (s : σ) : Along step ok s [] := by
  intro pre i post h
  simp at h

theorem along_cons {ok : σ → ι → Prop} {s : σ} {i : ι} {l : List ι} :
    Along step ok s (i :: l) ↔ ok s i ∧ ∀ s', step s i = some s' → Along step ok s' l := by
  constructor
  · intro h
    refine ⟨h [] i l rfl s rfl, fun s' hs pre j post hl mid hmid => ?_⟩
    exact h (i :: pre) j post (by rw [hl, List.cons_append]) mid (by rw [run_cons, hs]; exact hmid)
  · intro hcons pre j post hl mid hmid
    obtain ⟨hok, hrest⟩ := hcons
    cases pre with
    | nil =>
      obtain ⟨rfl, -⟩ := List.cons.inj hl
      obtain rfl : s = mid := Option.some.inj hmid
      exact hok
    | cons a pre =>
      obtain ⟨rfl, htail⟩ := List.cons.inj hl
      rw [run_cons] at hmid
      obtain ⟨s', hs, hmid⟩ := Option.bind_eq_some_iff.mp hmid
      exact hrest s' hs pre j post htail mid hmid

/-- Conditions that agree in every state reached agree along a run. -/
theorem along_congr {ok ok' : σ → ι → Prop} {s : σ} {l : List ι}
    (h : ∀ pre mid i, run step s pre = some mid → (ok mid i ↔ ok' mid i)) :
    Along step ok s l ↔ Along step ok' s l := by
  constructor
  · intro hal pre i post hl mid hmid
    exact (h pre mid i hmid).mp (hal pre i post hl mid hmid)
  · intro hal pre i post hl mid hmid
    exact (h pre mid i hmid).mpr (hal pre i post hl mid hmid)

/-- Conditions that agree in the states of an invariant agree along a run, where the steps meet what
keeps the invariant. -/
theorem along_congr_of_invariant (inv : σ → Prop) {ok ok₁ ok₂ : σ → ι → Prop}
    (hstep : ∀ s i s', inv s → ok s i → step s i = some s' → inv s')
    (h : ∀ s i, inv s → ok s i → (ok₁ s i ↔ ok₂ s i)) :
    ∀ {l : List ι} {s : σ}, inv s → Along step ok s l → (Along step ok₁ s l ↔ Along step ok₂ s l) := by
  intro l
  induction l with
  | nil => exact fun _ _ => ⟨fun _ => along_nil _, fun _ => along_nil _⟩
  | cons i l ih =>
    intro s hs hal
    obtain ⟨hok, hrest⟩ := along_cons.mp hal
    rw [along_cons, along_cons]
    refine and_congr (h s i hs hok) (forall₂_congr fun s' hs' => ?_)
    exact ih (hstep s i s' hs hok hs') (hrest s' hs')

/-- A run goes through exactly when all its steps do. -/
theorem run_isSome_iff {l : List ι} {s : σ} :
    (run step s l).isSome = true ↔ Along step (fun s i => (step s i).isSome = true) s l := by
  induction l generalizing s with
  | nil => exact ⟨fun _ => along_nil s, fun _ => rfl⟩
  | cons i l ih =>
    rw [along_cons, run_cons]
    cases step s i with
    | none => simp
    | some s' => simp [ih]

/-- What does not hold before a run and holds after it begins to hold with one of its steps. -/
theorem run_turning_step (Q : σ → Prop) {l : List ι} {s s' : σ} (h : run step s l = some s')
    (hbefore : ¬ Q s) (hafter : Q s') :
    ∃ pre i post mid mid', l = pre ++ i :: post ∧ run step s pre = some mid ∧
      step mid i = some mid' ∧ ¬ Q mid ∧ Q mid' := by
  induction l generalizing s with
  | nil =>
    obtain rfl : s = s' := Option.some.inj h
    exact absurd hafter hbefore
  | cons i l ih =>
    rw [run_cons] at h
    obtain ⟨t, hstep, hrest⟩ := Option.bind_eq_some_iff.mp h
    by_cases hQ : Q t
    · exact ⟨[], i, l, s, t, rfl, rfl, hstep, hbefore, hQ⟩
    · obtain ⟨pre, j, post, mid, mid', rfl, hpre, hmid, hno, hyes⟩ := ih hrest hQ
      refine ⟨i :: pre, j, post, mid, mid', rfl, ?_, hmid, hno, hyes⟩
      rw [run_cons, hstep]
      exact hpre

/-- **Invariants of steps are invariants of runs.** -/
theorem run_invariant (inv : σ → Prop)
    (hstep : ∀ s i s', inv s → step s i = some s' → inv s') :
    ∀ {l : List ι} {s s' : σ}, inv s → run step s l = some s' → inv s' := by
  intro l
  induction l with
  | nil =>
    intro s s' hs h
    exact Option.some.inj h ▸ hs
  | cons i l ih =>
    intro s s' hs h
    rw [run_cons] at h
    obtain ⟨m, hm, h⟩ := Option.bind_eq_some_iff.mp h
    exact ih (hstep s i m hs hm) h

/-- What steps that meet a condition keep, a run along it keeps. -/
theorem run_invariant_along (inv : σ → Prop) {ok : σ → ι → Prop}
    (hstep : ∀ s i s', inv s → ok s i → step s i = some s' → inv s') :
    ∀ {l : List ι} {s s' : σ}, inv s → Along step ok s l → run step s l = some s' → inv s' := by
  intro l
  induction l with
  | nil =>
    intro s s' hs _ h
    exact Option.some.inj h ▸ hs
  | cons i l ih =>
    intro s s' hs hal h
    obtain ⟨hok, hrest⟩ := along_cons.mp hal
    rw [run_cons] at h
    obtain ⟨m, hm, h⟩ := Option.bind_eq_some_iff.mp h
    exact ih (hstep s i m hs hok hm) (hrest m hm) h

/-- A run whose steps all meet a condition under which a step is possible and keeps the
invariant. -/
theorem run_total (inv : σ → Prop) {ok : σ → ι → Prop}
    (hstep : ∀ s i, inv s → ok s i → ∃ s', step s i = some s' ∧ inv s') :
    ∀ {l : List ι} {s : σ}, inv s → Along step ok s l → ∃ s', run step s l = some s' ∧ inv s' := by
  intro l
  induction l with
  | nil =>
    intro s hs _
    exact ⟨s, rfl, hs⟩
  | cons i l ih =>
    intro s hs hal
    obtain ⟨hok, hrest⟩ := along_cons.mp hal
    obtain ⟨m, hm, hinv⟩ := hstep s i hs hok
    obtain ⟨s', hrun, hs'⟩ := ih hinv (hrest m hm)
    exact ⟨s', by rw [run_cons, hm]; exact hrun, hs'⟩

/-- The condition also holds along every prefix. -/
theorem Along.left {ok : σ → ι → Prop} {s : σ} {l₁ l₂ : List ι}
    (h : Along step ok s (l₁ ++ l₂)) : Along step ok s l₁ := by
  intro pre i post hl mid hmid
  exact h pre i (post ++ l₂) (by rw [hl, List.append_assoc, List.cons_append]) mid hmid

/-- The condition holds along the rest of a run. -/
theorem Along.right {ok : σ → ι → Prop} {s s' : σ} {l₁ l₂ : List ι}
    (h : Along step ok s (l₁ ++ l₂)) (hrun : run step s l₁ = some s') : Along step ok s' l₂ := by
  intro pre i post hl mid hmid
  apply h (l₁ ++ pre) i post (by rw [hl, List.append_assoc]) mid
  rw [run_append, hrun]
  exact hmid

end NetMod.PartialRuns
