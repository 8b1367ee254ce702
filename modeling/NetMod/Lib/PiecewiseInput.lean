import Mathlib.Data.List.Basic

/-!
# Machines fed in pieces

A machine that takes its input in pieces, as they arrive, often does on each piece what a simpler
machine does symbol by symbol.  `Follows` says so of two machines, seen through a `view` and as long
as an invariant holds.  Then the cuts between the pieces do not matter: after any pieces the view is
that of the simple machine after all their symbols (`Follows.foldl`).
-/

namespace NetMod.PiecewiseInput

variable {τ σ α : Type*}

/-- `write` does on a piece what `next` does on its symbols, and keeps `Inv`. -/
structure Follows (view : τ → σ) (next : σ → α → σ) (write : τ → List α → τ) (Inv : τ → Prop) :
    Prop where
  view_write : ∀ t l, Inv t → view (write t l) = l.foldl next (view t)
  inv_write : ∀ t l, Inv t → Inv (write t l)

variable {view : τ → σ} {next : σ → α → σ} {write : τ → List α → τ} {Inv : τ → Prop}

theorem Follows.inv_foldl (h : Follows view next write Inv) (pieces : List (List α)) :
    ∀ t, Inv t → Inv (pieces.foldl write t) := by
  induction pieces with
  | nil => exact fun _ ht => ht
  | cons l pieces ih => exact fun t ht => ih _ (h.inv_write t l ht)

/-- **Only the symbols count, not how they are cut.** -/
theorem Follows.foldl (h : Follows view next write Inv) (pieces : List (List α)) :
    ∀ t, Inv t → view (pieces.foldl write t) = pieces.flatten.foldl next (view t) := by
  induction pieces with
  | nil => exact fun _ _ => rfl
  | cons l pieces ih =>
    intro t ht
    rw [List.foldl_cons, ih _ (h.inv_write t l ht), h.view_write t l ht, List.flatten_cons,
      List.foldl_append]

end NetMod.PiecewiseInput
