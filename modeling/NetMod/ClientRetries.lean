import NetMod.ClientAccounting

/-!
# Retries are made when they are allowed

The discipline of the ledger, read for the client: which attempts a run starts for a request, and
what the attempt before each of them ended with.
-/

namespace NetMod.ClientEngine

open NetMod.HttpFields NetMod.PartialRuns NetMod.RequestPreparation NetMod.RetryLedger
open NetMod.RetryPolicy

variable {C : Type} {P : Setup C} {s : Engine C}

/-- The attempts the policy of a request grants; no policy grants none. -/
def Setup.maxAttempts (P : Setup C) (request : Nat) : Int :=
  ((P.policy request).map (·.maxAttempts)).getD 0

/-- A request that no policy lets the client repeat: its method, or a POST whose policy does not
allow replays, or a sink that writes to a stream. -/
def SentOnce (P : Setup C) (request : Nat) : Prop :=
  P.method request = .patch ∨ P.method request = .connect ∨ P.method request = .query ∨
    (P.method request = .post ∧
      ∀ policy, P.policy request = some policy → policy.allowPostReplay = false) ∨
    ∃ total, P.sink request = some (.stream total)

theorem not_allowed_of_sentOnce {submission : Submission} (h : SentOnce P submission.request)
    (k : Nat) (o : Outcome C) : ¬ RetryAllowed P submission k o := by
  intro hallowed
  obtain ⟨policy, hpolicy, -, -, hsink, hrepeat⟩ := hallowed
  rcases h with h | h | h | ⟨h, hpost⟩ | ⟨total, hstream⟩
  · exact not_repeatable _ (Or.inl h) hrepeat
  · exact not_repeatable _ (Or.inr (Or.inl h)) hrepeat
  · exact not_repeatable _ (Or.inr (Or.inr (Or.inl h))) hrepeat
  · exact not_repeatable _ (Or.inr (Or.inr (Or.inr ⟨h, hpost policy hpolicy⟩))) hrepeat
  · rw [Setup.contextSink, hstream] at hsink
    exact Bool.false_ne_true hsink

/-- The attempts of a request are numbered from 1, and there are no more than are granted. -/
theorem attempts_granted (hi : LedgerInv P s) (submission : Submission) :
    ∃ n, starts s.trace submission = List.range' 1 n ∧
      (n : Int) ≤ max 1 (P.maxAttempts submission.request) ∧
      (SentOnce P submission.request → n ≤ 1) := by
  obtain ⟨n, hn⟩ := hi.ledger.numbered submission
  refine ⟨n, hn, ?_, fun honce => ?_⟩
  · by_cases h2 : 2 ≤ n
    · obtain ⟨o, policy, hpolicy, hmax, -⟩ := hi.ledger.last_allowed hn h2
      rw [Setup.maxAttempts, hpolicy]
      exact le_max_of_le_right hmax
    · exact le_max_of_le_left (by omega)
  · by_contra h2
    obtain ⟨o, ho⟩ := hi.ledger.last_allowed hn (by omega)
    exact not_allowed_of_sentOnce honce n o ho

/-- **A retry is only made when it is allowed.**  In every run an attempt after the first comes
after the end of the one before it, whose outcome, with the policy, the sink, the method and the
content of that moment, allows it; a request has at most as many attempts as its policy grants, and
one that may not be repeated has one. -/
theorem retries_allowed (P : Setup C) (content : Nat → Option C) (actions : List (Action C))
    (s : Engine C) (h : run (step P) (started content) actions = some s) :
    (∀ pre submission k post, s.trace = pre ++ Event.started submission k :: post → 2 ≤ k →
      ∃ o, Event.ended submission (k - 1) o ∈ pre ∧ RetryAllowed P submission k o) ∧
    ∀ submission, ∃ n, starts s.trace submission = List.range' 1 n ∧
      (n : Int) ≤ max 1 (P.maxAttempts submission.request) ∧
      (SentOnce P submission.request → n ≤ 1) := by
  have hi : LedgerInv P s := run_ledgerInv h
  exact ⟨fun pre submission k post htrace hk => hi.ledger.ended_before htrace hk,
    attempts_granted hi⟩

theorem retries_allowed_retried :
    ∃ s, run (step getSetup) (started fun _ => none) retriedActions = some s ∧
      starts s.trace ⟨0, 0, some 7⟩ = [1, 2] ∧
      ∃ n, starts s.trace ⟨0, 0, some 7⟩ = List.range' 1 n ∧
        (n : Int) ≤ max 1 (getSetup.maxAttempts 0) ∧ (SentOnce getSetup 0 → n ≤ 1) := by
  have hend : (run (step getSetup) (started fun _ => none) retriedActions).any (fun s =>
      decide (starts s.trace ⟨0, 0, some 7⟩ = [1, 2])) = true := by
    decide +kernel
  obtain ⟨s, hrun, hs⟩ := (Option.any_eq_true _ _).mp hend
  exact ⟨s, hrun, of_decide_eq_true hs,
    (retries_allowed _ _ _ s hrun).2 ⟨0, 0, some 7⟩⟩

end NetMod.ClientEngine
