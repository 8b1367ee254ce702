import Mathlib.Data.Multiset.MapFold

/-!
# Ledgers of retried tokens

Tokens are accepted once and then tried: a token waits for its attempt number `k`, the attempt is
started, and when it has ended the token waits for attempt `k + 1` or is closed.  `allowed` says
which outcome of an attempt lets the next one follow.  Containers are multisets, so a step says
what moves and nothing about where a container keeps it.

`Step.inv` is the invariant of one step: the three containers together hold the accepted tokens, each
once, and the attempts started so far are numbered in order.  `Inv.justified` is the discipline of
the retries.
-/

namespace NetMod.RetryLedger

variable {τ ω : Type*}

inductive Event (τ ω : Type*) where
  | started (token : τ) (k : Nat)
  | ended (token : τ) (k : Nat) (outcome : ω)

@[ext] structure Ledger (τ ω : Type*) where
  accepted : List τ := []
  waiting : Multiset (τ × Nat) := 0
  active : Multiset (τ × Nat) := 0
  closed : Multiset τ := 0
  trace : List (Event τ ω) := []

/-- One step; `drop` closes a token whose attempt nobody saw the end of. -/
inductive Step (allowed : τ → Nat → ω → Prop) : Ledger τ ω → Ledger τ ω → Prop
  | stay (L : Ledger τ ω) : Step allowed L L
  | accept (L : Ledger τ ω) (t : τ) : t ∉ L.accepted →
      Step allowed L
        { L with accepted := L.accepted ++ [t], waiting := (t, 1) ::ₘ L.waiting }
  | start (L : Ledger τ ω) (w : Multiset (τ × Nat)) (t : τ) (k : Nat) :
      L.waiting = (t, k) ::ₘ w →
      Step allowed L
        { L with waiting := w, active := (t, k) ::ₘ L.active,
                 trace := L.trace ++ [.started t k] }
  | refuse (L : Ledger τ ω) (w : Multiset (τ × Nat)) (t : τ) (k : Nat) :
      L.waiting = (t, k) ::ₘ w →
      Step allowed L { L with waiting := w, closed := t ::ₘ L.closed }
  | retry (L : Ledger τ ω) (a : Multiset (τ × Nat)) (t : τ) (k : Nat) (o : ω) :
      L.active = (t, k) ::ₘ a → allowed t (k + 1) o →
      Step allowed L
        { L with active := a, waiting := (t, k + 1) ::ₘ L.waiting,
                 trace := L.trace ++ [.ended t k o] }
  | finish (L : Ledger τ ω) (a : Multiset (τ × Nat)) (t : τ) (k : Nat) (o : ω) :
      L.active = (t, k) ::ₘ a →
      Step allowed L
        { L with active := a, closed := t ::ₘ L.closed, trace := L.trace ++ [.ended t k o] }
  | drop (L : Ledger τ ω) (a : Multiset (τ × Nat)) (t : τ) (k : Nat) :
      L.active = (t, k) ::ₘ a →
      Step allowed L { L with active := a, closed := t ::ₘ L.closed }

/-- The tokens in the containers. -/
def holders (L : Ledger τ ω) : Multiset τ :=
  L.waiting.map Prod.fst + L.active.map Prod.fst + L.closed

section Attempts

variable [DecidableEq τ]

/-- The numbers of the attempts of `t` that were started, in order. -/
def starts (trace : List (Event τ ω)) (t : τ) : List Nat :=
  trace.filterMap fun
    | .started t' k => if t' = t then some k else none
    | .ended .. => none

@[simp] theorem starts_nil (t : τ) : starts ([] : List (Event τ ω)) t = [] := rfl

@[simp] theorem starts_append (trace more : List (Event τ ω)) (t : τ) :
    starts (trace ++ more) t = starts trace t ++ starts more t := by
  simp [starts]

@[simp] theorem starts_started_self (t : τ) (k : Nat) :
    starts [(Event.started t k : Event τ ω)] t = [k] := by
  simp [starts]

theorem starts_started_ne {t t' : τ} (k : Nat) (h : t' ≠ t) :
    starts [(Event.started t k : Event τ ω)] t' = [] := by
  simp [starts, Ne.symm h]

/-- The end of an attempt starts none. -/
theorem starts_append_ended (trace : List (Event τ ω)) (t t' : τ) (k : Nat) (o : ω) :
    starts (trace ++ [.ended t k o]) t' = starts trace t' := by
  rw [starts_append]
  exact List.append_nil _

/-- Attempt `k` of `t` may be made: it is the first, or the one before it ended so. -/
def Justified (allowed : τ → Nat → ω → Prop) (trace : List (Event τ ω)) (t : τ) (k : Nat) : Prop :=
  2 ≤ k → ∃ o, Event.ended t (k - 1) o ∈ trace ∧ allowed t k o

omit [DecidableEq τ] in
theorem Justified.append {allowed : τ → Nat → ω → Prop} {trace : List (Event τ ω)} {t : τ} {k : Nat}
    (h : Justified allowed trace t k) (more : List (Event τ ω)) :
    Justified allowed (trace ++ more) t k := by
  intro hk
  obtain ⟨o, hmem, ho⟩ := h hk
  exact ⟨o, List.mem_append_left _ hmem, ho⟩

/-- What is true of a ledger after any number of steps. -/
structure Inv (allowed : τ → Nat → ω → Prop) (L : Ledger τ ω) : Prop where
  nodup : L.accepted.Nodup
  conserved : holders L = (L.accepted : Multiset τ)
  waiting : ∀ p ∈ L.waiting, 1 ≤ p.2 ∧ starts L.trace p.1 = List.range' 1 (p.2 - 1) ∧
    Justified allowed L.trace p.1 p.2
  active : ∀ p ∈ L.active, 1 ≤ p.2 ∧ starts L.trace p.1 = List.range' 1 p.2
  numbered : ∀ t, ∃ n, starts L.trace t = List.range' 1 n
  fresh : ∀ t, t ∉ L.accepted → starts L.trace t = []
  justified : ∀ pre t k post, L.trace = pre ++ .started t k :: post → Justified allowed pre t k

theorem inv_empty (allowed : τ → Nat → ω → Prop) : Inv allowed ({} : Ledger τ ω) where
  nodup := List.nodup_nil
  conserved := rfl
  waiting := by intro p hp; exact absurd hp (Multiset.notMem_zero p)
  active := by intro p hp; exact absurd hp (Multiset.notMem_zero p)
  numbered := fun _ => ⟨0, rfl⟩
  fresh := fun _ _ => rfl
  justified := by intro pre t k post h; simp at h

end Attempts

/-! ### Conservation -/

/-- **A step moves tokens and makes none.** -/
theorem Step.holders {allowed : τ → Nat → ω → Prop} {L L' : Ledger τ ω} (h : Step allowed L L')
    (hc : holders L = (L.accepted : Multiset τ)) : holders L' = (L'.accepted : Multiset τ) := by
  rw [RetryLedger.holders] at hc ⊢
  cases h with
  | stay => exact hc
  | accept t _ =>
    rw [← Multiset.coe_add, ← hc]
    simp only [Multiset.map_cons, Multiset.coe_singleton, Multiset.cons_add]
    rw [← Multiset.singleton_add, Multiset.add_comm]
  | start w t k hw =>
    rw [hw, Multiset.map_cons] at hc
    simp only [← hc, Multiset.map_cons, Multiset.add_cons, Multiset.cons_add]
  | refuse w t k hw =>
    rw [hw, Multiset.map_cons] at hc
    simp only [← hc, Multiset.add_cons, Multiset.cons_add]
  | retry a t k o ha _ =>
    rw [ha, Multiset.map_cons] at hc
    simp only [← hc, Multiset.map_cons, Multiset.add_cons, Multiset.cons_add]
  | finish a t k o ha =>
    rw [ha, Multiset.map_cons] at hc
    simp only [← hc, Multiset.add_cons, Multiset.cons_add]
  | drop a t k ha =>
    rw [ha, Multiset.map_cons] at hc
    simp only [← hc, Multiset.add_cons, Multiset.cons_add]

theorem Step.nodup {allowed : τ → Nat → ω → Prop} {L L' : Ledger τ ω} (h : Step allowed L L')
    (hn : L.accepted.Nodup) : L'.accepted.Nodup := by
  cases h with
  | accept t ht =>
    exact List.nodup_append.mpr
      ⟨hn, List.nodup_singleton t, by
        intro a ha b hb
        rw [List.mem_singleton.mp hb]
        exact fun hab => ht (hab ▸ ha)⟩
  | _ => exact hn

/-- Accepted tokens stay accepted, in their order. -/
theorem Step.accepted {allowed : τ → Nat → ω → Prop} {L L' : Ledger τ ω} (h : Step allowed L L') :
    L.accepted <+: L'.accepted := by
  cases h with
  | accept t _ => exact List.prefix_append _ _
  | _ => exact List.prefix_rfl

/-! ### Attempts -/

section Attempts

variable [DecidableEq τ] {allowed : τ → Nat → ω → Prop} {L : Ledger τ ω}

omit [DecidableEq τ] in
/-- A token that waits is nowhere else. -/
theorem notMem_of_waiting {w : Multiset (τ × Nat)} {t : τ} {k : Nat} (hn : L.accepted.Nodup)
    (hc : holders L = (L.accepted : Multiset τ)) (hw : L.waiting = (t, k) ::ₘ w) :
    t ∈ L.accepted ∧ (∀ p ∈ w, p.1 ≠ t) ∧ ∀ p ∈ L.active, p.1 ≠ t := by
  rw [holders] at hc
  rw [hw, Multiset.map_cons, Multiset.cons_add, Multiset.cons_add] at hc
  have hnd : (t ::ₘ (w.map Prod.fst + L.active.map Prod.fst + L.closed)).Nodup := by
    rw [hc]
    exact Multiset.coe_nodup.mpr hn
  have hnot := (Multiset.nodup_cons.mp hnd).1
  simp only [Multiset.mem_add, not_or] at hnot
  refine ⟨?_, fun p hp h => hnot.1.1 (h ▸ Multiset.mem_map_of_mem _ hp),
    fun p hp h => hnot.1.2 (h ▸ Multiset.mem_map_of_mem _ hp)⟩
  rw [← Multiset.mem_coe, ← hc]
  exact Multiset.mem_cons_self t _

omit [DecidableEq τ] in
/-- An end that is noted starts nothing. -/
theorem justified_ended {t : τ} {k : Nat} {o : ω}
    (h : ∀ pre t k post, L.trace = pre ++ .started t k :: post → Justified allowed pre t k)
    {pre post : List (Event τ ω)} {t' : τ} {k' : Nat}
    (htrace : L.trace ++ [.ended t k o] = pre ++ .started t' k' :: post) :
    Justified allowed pre t' k' := by
  rcases List.eq_nil_or_concat post with rfl | ⟨post, e, rfl⟩
  · have := (List.append_inj' htrace rfl).2
    simp at this
  · rw [List.concat_eq_append, ← List.cons_append, ← List.append_assoc] at htrace
    exact h pre t' k' post (List.append_inj' htrace rfl).1

/-- **Every step keeps the invariant.** -/
theorem Step.inv {L' : Ledger τ ω} (h : Step allowed L L') (hi : Inv allowed L) :
    Inv allowed L' := by
  have hholders := h.holders hi.conserved
  have hnodup := h.nodup hi.nodup
  cases h with
  | stay => exact hi
  | accept t ht =>
    refine { hi with nodup := hnodup, conserved := hholders, waiting := ?_, fresh := ?_ }
    · intro p hp
      rcases Multiset.mem_cons.mp hp with rfl | hp
      · exact ⟨le_rfl, hi.fresh t ht, fun h2 => absurd h2 (by omega)⟩
      · exact hi.waiting p hp
    · intro t' ht'
      exact hi.fresh t' fun hmem => ht' (List.mem_append_left _ hmem)
  | start w t k hw =>
    obtain ⟨hacc, hwne, hane⟩ := notMem_of_waiting hi.nodup hi.conserved hw
    obtain ⟨hk, hstarts, hjust⟩ := hi.waiting (t, k) (hw ▸ Multiset.mem_cons_self _ _)
    have hself : starts (L.trace ++ [.started t k]) t = List.range' 1 k := by
      rw [starts_append, hstarts, starts_started_self]
      obtain ⟨n, rfl⟩ : ∃ n, k = n + 1 := ⟨k - 1, by omega⟩
      rw [Nat.add_sub_cancel, List.range'_concat, Nat.one_mul, Nat.add_comm 1 n]
    have hother : ∀ t', t' ≠ t → starts (L.trace ++ [.started t k]) t' = starts L.trace t' := by
      intro t' hne
      rw [starts_append, starts_started_ne k hne, List.append_nil]
    refine ⟨hnodup, hholders, ?_, ?_, ?_, ?_, ?_⟩
    · intro p hp
      obtain ⟨h1, h2, h3⟩ := hi.waiting p (hw ▸ Multiset.mem_cons_of_mem hp)
      exact ⟨h1, (hother p.1 (hwne p hp)).trans h2, h3.append _⟩
    · intro p hp
      rcases Multiset.mem_cons.mp hp with rfl | hp
      · exact ⟨hk, hself⟩
      · exact ⟨(hi.active p hp).1, (hother p.1 (hane p hp)).trans (hi.active p hp).2⟩
    · intro t'
      by_cases ht : t' = t
      · exact ⟨k, ht ▸ hself⟩
      · rw [hother t' ht]
        exact hi.numbered t'
    · intro t' ht'
      rw [hother t' fun h => ht' (h ▸ hacc)]
      exact hi.fresh t' ht'
    · intro pre t' k' post htrace
      rcases List.eq_nil_or_concat post with rfl | ⟨post, e, rfl⟩
      · obtain ⟨rfl, hlast⟩ := List.append_inj' htrace rfl
        obtain ⟨rfl, rfl⟩ := Event.started.inj (List.cons.inj hlast).1
        exact hjust
      · rw [List.concat_eq_append, ← List.cons_append, ← List.append_assoc] at htrace
        exact hi.justified pre t' k' post (List.append_inj' htrace rfl).1
  | refuse w t k hw =>
    refine { hi with nodup := hnodup, conserved := hholders, waiting := ?_ }
    exact fun p hp => hi.waiting p (hw ▸ Multiset.mem_cons_of_mem hp)
  | retry a t k o ha hallowed =>
    obtain ⟨hk, hstarts⟩ := hi.active (t, k) (ha ▸ Multiset.mem_cons_self _ _)
    have hsame := fun t' => starts_append_ended L.trace t t' k o
    refine ⟨hnodup, hholders, ?_, ?_, ?_, ?_, fun pre t' k' post => justified_ended hi.justified⟩
    · intro p hp
      rcases Multiset.mem_cons.mp hp with rfl | hp
      · refine ⟨by omega, (hsame t).trans hstarts, fun _ => ⟨o, ?_, hallowed⟩⟩
        exact List.mem_append_right _ (List.mem_singleton.mpr rfl)
      · obtain ⟨h1, h2, h3⟩ := hi.waiting p hp
        exact ⟨h1, (hsame p.1).trans h2, h3.append _⟩
    · intro p hp
      obtain ⟨h1, h2⟩ := hi.active p (ha ▸ Multiset.mem_cons_of_mem hp)
      exact ⟨h1, (hsame p.1).trans h2⟩
    · exact fun t' => (hsame t').symm ▸ hi.numbered t'
    · exact fun t' ht' => (hsame t').trans (hi.fresh t' ht')
  | finish a t k o ha =>
    have hsame := fun t' => starts_append_ended L.trace t t' k o
    refine ⟨hnodup, hholders, ?_, ?_, ?_, ?_, fun pre t' k' post => justified_ended hi.justified⟩
    · intro p hp
      obtain ⟨h1, h2, h3⟩ := hi.waiting p hp
      exact ⟨h1, (hsame p.1).trans h2, h3.append _⟩
    · intro p hp
      obtain ⟨h1, h2⟩ := hi.active p (ha ▸ Multiset.mem_cons_of_mem hp)
      exact ⟨h1, (hsame p.1).trans h2⟩
    · exact fun t' => (hsame t').symm ▸ hi.numbered t'
    · exact fun t' ht' => (hsame t').trans (hi.fresh t' ht')
  | drop a t k ha =>
    refine { hi with nodup := hnodup, conserved := hholders, active := ?_ }
    exact fun p hp => hi.active p (ha ▸ Multiset.mem_cons_of_mem hp)

/-- **An attempt after the first was allowed by the outcome of the one before it.** -/
theorem Inv.ended_before {pre post : List (Event τ ω)} {t : τ} {k : Nat} (hi : Inv allowed L)
    (htrace : L.trace = pre ++ .started t k :: post) (hk : 2 ≤ k) :
    ∃ o, Event.ended t (k - 1) o ∈ pre ∧ allowed t k o := hi.justified pre t k post htrace hk

/-- If the last attempt is not the first, it was allowed. -/
theorem Inv.last_allowed {t : τ} {n : Nat} (hi : Inv allowed L)
    (hstarts : starts L.trace t = List.range' 1 n) (hn : 2 ≤ n) : ∃ o, allowed t n o := by
  have hmem : n ∈ starts L.trace t := by
    rw [hstarts, List.mem_range'_1]
    omega
  obtain ⟨e, he, hke⟩ := List.mem_filterMap.mp hmem
  cases e with
  | ended t' k' o => cases hke
  | started t' k' =>
    simp only [Option.ite_none_right_eq_some, Option.some.injEq] at hke
    obtain ⟨rfl, rfl⟩ := hke
    obtain ⟨pre, post, htrace⟩ := List.append_of_mem he
    obtain ⟨o, -, ho⟩ := hi.ended_before htrace hn
    exact ⟨o, ho⟩

end Attempts

end NetMod.RetryLedger
