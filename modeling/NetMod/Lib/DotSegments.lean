import Mathlib.Data.List.Basic

/-!
# Dot segments of a path

The segments of a path are a walk from the root of a tree: some stay where they are, some go back to the
parent, all others go into a child.  `arrive` gives the segments of the place that is reached, without
dot segments.  A path that ends with a dot segment names a directory, so an empty segment is put behind
the place.

Paths without dot segments are what is left as it is, and what is arrived at is one of them
(`removeDots_idem`).
-/

namespace NetMod.DotSegments

variable {α : Type*}

/-- The segments that stay, those that go to the parent, and the empty one. -/
structure Dots (α : Type*) where
  here : α → Bool
  up : α → Bool
  empty : α
  here_empty : here empty = false
  up_empty : up empty = false

namespace Dots

variable (D : Dots α)

def isDotted (s : α) : Bool := D.here s || D.up s

/-- One segment of a walk. -/
def step (place : List α) (s : α) : List α :=
  if D.here s then place else if D.up s then place.dropLast else place ++ [s]

/-- The place a walk arrives at. -/
def arrive (place segs : List α) : List α :=
  if segs.getLast?.any D.isDotted then segs.foldl D.step place ++ [D.empty]
  else segs.foldl D.step place

/-- The place a walk from the root arrives at. -/
def removeDots (segs : List α) : List α := D.arrive [] segs

/-- No segment is a dot segment. -/
def Plain (segs : List α) : Prop := ∀ s ∈ segs, D.isDotted s = false

variable {D} {place segs : List α} {s t : α}

theorem isDotted_empty : D.isDotted D.empty = false := by
  rw [isDotted, D.here_empty, D.up_empty]
  rfl

theorem step_of_plain (h : D.isDotted s = false) : D.step place s = place ++ [s] := by
  obtain ⟨hhere, hup⟩ := Bool.or_eq_false_iff.mp h
  rw [step, hhere, hup]
  rfl

/-! ### The walk segment by segment -/

theorem arrive_singleton :
    D.arrive place [s] = D.step place s ++ (if D.isDotted s then [D.empty] else []) := by
  show (if D.isDotted s then D.step place s ++ [D.empty] else D.step place s) = _
  split
  · rfl
  · exact (List.append_nil _).symm

theorem arrive_cons_cons : D.arrive place (s :: t :: segs) = D.arrive (D.step place s) (t :: segs) := by
  rw [arrive, arrive, List.getLast?_cons_cons, List.foldl_cons]

/-! ### Walks without dot segments -/

theorem foldl_step_of_plain (h : D.Plain segs) : segs.foldl D.step place = place ++ segs := by
  induction segs generalizing place with
  | nil => exact (List.append_nil place).symm
  | cons s segs ih =>
    rw [List.foldl_cons, step_of_plain (h s List.mem_cons_self),
      ih fun t ht => h t (List.mem_cons_of_mem s ht), List.append_assoc]
    rfl

theorem arrive_of_plain (h : D.Plain segs) : D.arrive place segs = place ++ segs := by
  rw [arrive, foldl_step_of_plain h]
  apply if_neg
  intro hlast
  obtain ⟨s, hs, hdotted⟩ := (Option.any_eq_true _ _).mp hlast
  rw [h s (List.mem_of_getLast? hs)] at hdotted
  cases hdotted

theorem removeDots_of_plain (h : D.Plain segs) : D.removeDots segs = segs :=
  arrive_of_plain h

/-! ### Where a walk arrives -/

theorem plain_nil : D.Plain [] := fun _ hs => absurd hs List.not_mem_nil

theorem plain_append {segs' : List α} (h : D.Plain segs) (h' : D.Plain segs') :
    D.Plain (segs ++ segs') :=
  fun s hs => (List.mem_append.mp hs).elim (h s) (h' s)

theorem plain_singleton (h : D.isDotted s = false) : D.Plain [s] :=
  fun _ ht => List.mem_singleton.mp ht ▸ h

theorem plain_step (h : D.Plain place) : D.Plain (D.step place s) := by
  rw [step]
  split
  · exact h
  · next hhere =>
    split
    · exact fun t ht => h t (List.dropLast_subset place ht)
    · next hup =>
      apply plain_append h (plain_singleton _)
      rw [isDotted, Bool.eq_false_iff.mpr hhere, Bool.eq_false_iff.mpr hup]
      rfl

theorem plain_foldl_step (h : D.Plain place) : D.Plain (segs.foldl D.step place) := by
  induction segs generalizing place with
  | nil => exact h
  | cons s segs ih => exact ih (plain_step h)

/-- **No dot segment is left.** -/
theorem plain_arrive (h : D.Plain place) : D.Plain (D.arrive place segs) := by
  rw [arrive]
  split
  · exact plain_append (plain_foldl_step h) (plain_singleton isDotted_empty)
  · exact plain_foldl_step h

/-- **The place arrived at is where its own segments lead.** -/
theorem removeDots_idem (segs : List α) : D.removeDots (D.removeDots segs) = D.removeDots segs :=
  removeDots_of_plain (plain_arrive plain_nil)

theorem mem_step (h : t ∈ D.step place s) : t ∈ place ∨ t = s := by
  rw [step] at h
  split at h
  · exact .inl h
  · split at h
    · exact .inl (List.dropLast_subset place h)
    · exact (List.mem_append.mp h).imp_right List.mem_singleton.mp

theorem mem_foldl_step (h : t ∈ segs.foldl D.step place) : t ∈ place ∨ t ∈ segs := by
  induction segs generalizing place with
  | nil => exact .inl h
  | cons s segs ih =>
    rcases ih h with h | h
    · rcases mem_step h with h | rfl
      · exact .inl h
      · exact .inr List.mem_cons_self
    · exact .inr (List.mem_cons_of_mem s h)

/-- The place arrived at is made of the segments of the walk. -/
theorem mem_arrive (h : t ∈ D.arrive place segs) : t ∈ place ∨ t ∈ segs ∨ t = D.empty := by
  rw [arrive] at h
  split at h
  · rcases List.mem_append.mp h with h | h
    · exact (mem_foldl_step h).imp_right .inl
    · exact .inr (.inr (List.mem_singleton.mp h))
  · exact (mem_foldl_step h).imp_right .inl

/-- A walk with a segment arrives somewhere. -/
theorem arrive_ne_nil (h : segs ≠ []) : D.arrive place segs ≠ [] := by
  induction segs generalizing place with
  | nil => exact absurd rfl h
  | cons s segs ih =>
    cases segs with
    | nil =>
      rw [arrive_singleton]
      split
      · exact List.append_ne_nil_of_right_ne_nil _ (List.cons_ne_nil _ _)
      · next hdotted =>
        rw [step_of_plain (Bool.eq_false_iff.mpr hdotted), List.append_nil]
        exact List.append_ne_nil_of_right_ne_nil _ (List.cons_ne_nil _ _)
    | cons t segs =>
      rw [arrive_cons_cons]
      exact ih (List.cons_ne_nil t segs)

end Dots

end NetMod.DotSegments
