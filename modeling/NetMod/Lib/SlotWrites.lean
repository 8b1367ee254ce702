import Mathlib.Data.List.Basic

/-!
# Slots and the last write to each

A store is read slot by slot, and every write goes to one slot.  After a run of writes a slot reads
as its last write left it, and as before the run when there was none (`read_run`).  The writes to the
other slots do not matter, whatever their order.
-/

namespace NetMod.SlotWrites

variable {σ ω κ ν : Type*}

/-- The last of the writes with a property. -/
def lastOf (p : ω → Prop) [DecidablePred p] (ws : List ω) : Option ω :=
  (ws.filter fun w => decide (p w)).getLast?

theorem lastOf_cons (p : ω → Prop) [DecidablePred p] (w : ω) (ws : List ω) :
    lastOf p (w :: ws) = (lastOf p ws).or (if p w then some w else none) := by
  rw [lastOf, lastOf]
  by_cases hw : p w
  · rw [List.filter_cons_of_pos (by simpa using hw), List.getLast?_cons, if_pos hw]
    cases (ws.filter fun w => decide (p w)).getLast? <;> rfl
  · rw [List.filter_cons_of_neg (by simpa using hw), if_neg hw, Option.or_none]

theorem lastOf_congr {p q : ω → Prop} [DecidablePred p] [DecidablePred q] (h : ∀ w, p w ↔ q w)
    (ws : List ω) : lastOf p ws = lastOf q ws := by
  rw [lastOf, lastOf]
  congr 2
  funext w
  exact decide_eq_decide.mpr (h w)

theorem mem_of_lastOf {p : ω → Prop} [DecidablePred p] {ws : List ω} {w : ω}
    (h : lastOf p ws = some w) : w ∈ ws ∧ p w := by
  obtain ⟨hmem, hp⟩ := List.mem_filter.mp (List.mem_of_getLast? h)
  exact ⟨hmem, of_decide_eq_true hp⟩

/-- Each step writes one value to one slot: `hits w k` says that the write `w` goes to slot `k`. -/
structure WritesOne (step : σ → ω → Option σ) (inv : σ → Prop) (read : σ → κ → ν)
    (hits : ω → κ → Prop) [∀ w k, Decidable (hits w k)] (value : ω → ν) : Prop where
  keeps : ∀ s w s', inv s → step s w = some s' → inv s'
  reads : ∀ s w s' k, inv s → step s w = some s' →
    read s' k = if hits w k then value w else read s k

section

variable {step : σ → ω → Option σ} {inv : σ → Prop} {read : σ → κ → ν} {hits : ω → κ → Prop}
  [∀ w k, Decidable (hits w k)] {value : ω → ν}

theorem WritesOne.inv_run (hw : WritesOne step inv read hits value) (ws : List ω) :
    ∀ {s s' : σ}, inv s → ws.foldlM step s = some s' → inv s' := by
  induction ws with
  | nil =>
    intro s s' hs h
    cases h
    exact hs
  | cons w ws ih =>
    intro s s' hs h
    rw [List.foldlM_cons] at h
    obtain ⟨s₁, hstep, hrest⟩ := Option.bind_eq_some_iff.mp h
    exact ih (hw.keeps s w s₁ hs hstep) hrest

/-- **After a run a slot reads as its last write left it.** -/
theorem WritesOne.read_run (hw : WritesOne step inv read hits value) (ws : List ω) :
    ∀ {s s' : σ}, inv s → ws.foldlM step s = some s' → ∀ k,
      read s' k = ((lastOf (fun w => hits w k) ws).map value).getD (read s k) := by
  induction ws with
  | nil =>
    intro s s' _ h k
    cases h
    rfl
  | cons w ws ih =>
    intro s s' hs h k
    rw [List.foldlM_cons] at h
    obtain ⟨s₁, hstep, hrest⟩ := Option.bind_eq_some_iff.mp h
    rw [ih (hw.keeps s w s₁ hs hstep) hrest k, hw.reads s w s₁ k hs hstep, lastOf_cons]
    cases lastOf (fun w => hits w k) ws with
    | some w' => rfl
    | none =>
      by_cases hk : hits w k
      · simp [hk]
      · simp [hk]

end

end NetMod.SlotWrites
