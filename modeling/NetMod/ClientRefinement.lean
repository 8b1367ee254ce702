import Mathlib.Algebra.Order.Group.Multiset
import Mathlib.Tactic.Abel
import NetMod.ClientEngine

/-!
# The client is a ledger of its requests

The abstract view of a client: which envelopes wait for an attempt, which are under way, which are
done with, and which attempts were made.  `step_refines` says that every step of the machine is a
step of the ledger, so what a ledger keeps, the client keeps: `run_ledgerInv`.
-/

namespace NetMod.ClientEngine

open NetMod.MinHeap NetMod.PartialRuns NetMod.RetryLedger NetMod.RetryPolicy

variable {C : Type} {P : Setup C} {s s' : Engine C}

/-- What the ledger knows of an envelope. -/
def TRequestEnvelope.entry (env : TRequestEnvelope) : Submission × Nat :=
  (env.toSubmission, env.retry.attempts)

/-- The envelope `Run` is about to prepare. -/
def Pc.waiting : Pc → Multiset TRequestEnvelope
  | .preparing env _ => {env}
  | _ => 0

/-- The envelope whose result `Run` is delivering. -/
def Pc.hand : Pc → Multiset TRequestEnvelope
  | .delivering d _ | .notifying d _ => {d.env}
  | _ => 0

@[simp] theorem Resume.waiting_pc (resume : Resume) : resume.pc.waiting = 0 := by
  cases resume <;> rfl

@[simp] theorem Resume.hand_pc (resume : Resume) : resume.pc.hand = 0 := by
  cases resume <;> rfl

def waitingEnvs (s : Engine C) : Multiset TRequestEnvelope :=
  ↑s.inQueue + ↑s.retryQueue.data + s.pc.waiting

def activeEnvs (s : Engine C) : Multiset TRequestEnvelope :=
  ↑(s.attached.map (·.env)) + ↑(s.messages.map (·.1.env))

def closedEnvs (s : Engine C) : Multiset TRequestEnvelope :=
  s.pc.hand + ↑(s.delivered.map (·.env)) + ↑(s.discarded.map (·.env))

def ledger (s : Engine C) : Ledger Submission (Outcome C) where
  accepted := s.accepted
  waiting := (waitingEnvs s).map (·.entry)
  active := (activeEnvs s).map (·.entry)
  closed := (closedEnvs s).map (·.toSubmission)
  trace := s.trace

/-- The conditions of attempt `k` of an accepted request, on the outcome of the attempt before. -/
def RetryAllowed (P : Setup C) (submission : Submission) (k : Nat) (o : Outcome C) : Prop :=
  ∃ policy, P.policy submission.request = some policy ∧ (k : Int) ≤ policy.maxAttempts ∧
    Transient policy o.curlCode o.status ∧
    (P.contextSink submission.request).isReplaySafe = true ∧
    Repeatable P.contentMethods policy (P.method submission.request) o.content

theorem retries_iff (policy : TRetryPolicy) (ctx : TEasyContext) (response : THttpResponse)
    (content : Option C) :
    retries P policy ctx response content = true ↔
      0 < policy.maxAttempts ∧ (ctx.env.retry.attempts : Int) < policy.maxAttempts ∧
        Transient policy response.curlCode response.status ∧
        (P.contextSink ctx.request).isReplaySafe = true ∧
        Repeatable P.contentMethods policy (P.method ctx.request) content := by
  have hdecisions := retry_decisions P.contentMethods P.platform policy (P.method ctx.request)
    content response
  rw [Bool.and_eq_true] at hdecisions
  rw [retries]
  simp only [Bool.and_eq_true, decide_eq_true_eq]
  tauto

/-! ### Moves of envelopes -/

theorem ledger_stay (hacc : s'.accepted = s.accepted) (hw : waitingEnvs s' = waitingEnvs s)
    (ha : activeEnvs s' = activeEnvs s) (hc : closedEnvs s' = closedEnvs s)
    (ht : s'.trace = s.trace) : Step (RetryAllowed P) (ledger s) (ledger s') := by
  have heq : ledger s' = ledger s := by
    unfold ledger
    rw [hacc, hw, ha, hc, ht]
  rw [heq]
  exact Step.stay _

theorem ledger_waiting {env : TRequestEnvelope} (hw : waitingEnvs s = env ::ₘ waitingEnvs s') :
    (ledger s).waiting = env.entry ::ₘ (ledger s').waiting := by
  simp only [ledger, hw, Multiset.map_cons]

theorem ledger_active {env : TRequestEnvelope} (ha : activeEnvs s = env ::ₘ activeEnvs s') :
    (ledger s).active = env.entry ::ₘ (ledger s').active := by
  simp only [ledger, ha, Multiset.map_cons]

theorem ledger_start (env : TRequestEnvelope) (hacc : s'.accepted = s.accepted)
    (hw : waitingEnvs s = env ::ₘ waitingEnvs s') (ha : activeEnvs s' = env ::ₘ activeEnvs s)
    (hc : closedEnvs s' = closedEnvs s)
    (ht : s'.trace = s.trace ++ [.started env.toSubmission env.retry.attempts]) :
    Step (RetryAllowed P) (ledger s) (ledger s') := by
  have heq : ledger s' = { ledger s with
      waiting := (ledger s').waiting, active := env.entry ::ₘ (ledger s).active,
      trace := (ledger s).trace ++ [.started env.toSubmission env.retry.attempts] } := by
    simp only [ledger, hacc, ha, hc, ht, Multiset.map_cons]
  rw [heq]
  exact Step.start _ _ _ _ (ledger_waiting hw)

theorem ledger_refuse (env : TRequestEnvelope) (hacc : s'.accepted = s.accepted)
    (hw : waitingEnvs s = env ::ₘ waitingEnvs s') (ha : activeEnvs s' = activeEnvs s)
    (hc : closedEnvs s' = env ::ₘ closedEnvs s) (ht : s'.trace = s.trace) :
    Step (RetryAllowed P) (ledger s) (ledger s') := by
  have heq : ledger s' = { ledger s with
      waiting := (ledger s').waiting, closed := env.toSubmission ::ₘ (ledger s).closed } := by
    simp only [ledger, hacc, ha, hc, ht, Multiset.map_cons]
  rw [heq]
  exact Step.refuse _ _ _ _ (ledger_waiting hw)

theorem ledger_retry (env : TRequestEnvelope) (retry : TRetryState) {o : Outcome C}
    (hattempts : retry.attempts = env.retry.attempts + 1)
    (hallowed : RetryAllowed P env.toSubmission (env.retry.attempts + 1) o)
    (hacc : s'.accepted = s.accepted)
    (hw : waitingEnvs s' = { env with retry } ::ₘ waitingEnvs s)
    (ha : activeEnvs s = env ::ₘ activeEnvs s') (hc : closedEnvs s' = closedEnvs s)
    (ht : s'.trace = s.trace ++ [.ended env.toSubmission env.retry.attempts o]) :
    Step (RetryAllowed P) (ledger s) (ledger s') := by
  have hentry : ({ env with retry } : TRequestEnvelope).entry =
      (env.toSubmission, env.retry.attempts + 1) := by
    rw [TRequestEnvelope.entry, hattempts]
  have heq : ledger s' = { ledger s with
      active := (ledger s').active
      waiting := (env.toSubmission, env.retry.attempts + 1) ::ₘ (ledger s).waiting
      trace := (ledger s).trace ++ [.ended env.toSubmission env.retry.attempts o] } := by
    simp only [ledger, hacc, hw, hc, ht, Multiset.map_cons, hentry]
  rw [heq]
  exact Step.retry _ _ _ _ _ (ledger_active ha) hallowed

theorem ledger_finish (env : TRequestEnvelope) {o : Outcome C} (hacc : s'.accepted = s.accepted)
    (hw : waitingEnvs s' = waitingEnvs s) (ha : activeEnvs s = env ::ₘ activeEnvs s')
    (hc : closedEnvs s' = env ::ₘ closedEnvs s)
    (ht : s'.trace = s.trace ++ [.ended env.toSubmission env.retry.attempts o]) :
    Step (RetryAllowed P) (ledger s) (ledger s') := by
  have heq : ledger s' = { ledger s with
      active := (ledger s').active, closed := env.toSubmission ::ₘ (ledger s).closed
      trace := (ledger s).trace ++ [.ended env.toSubmission env.retry.attempts o] } := by
    simp only [ledger, hacc, hw, hc, ht, Multiset.map_cons]
  rw [heq]
  exact Step.finish _ _ _ _ _ (ledger_active ha)

theorem ledger_drop (env : TRequestEnvelope) (hacc : s'.accepted = s.accepted)
    (hw : waitingEnvs s' = waitingEnvs s) (ha : activeEnvs s = env ::ₘ activeEnvs s')
    (hc : closedEnvs s' = env ::ₘ closedEnvs s) (ht : s'.trace = s.trace) :
    Step (RetryAllowed P) (ledger s) (ledger s') := by
  have heq : ledger s' = { ledger s with
      active := (ledger s').active, closed := env.toSubmission ::ₘ (ledger s).closed } := by
    simp only [ledger, hacc, hw, hc, ht, Multiset.map_cons]
  rw [heq]
  exact Step.drop _ _ _ _ (ledger_active ha)

/-! ### Each operation is a step of the ledger -/

/-- Accepted submissions are numbered in order. -/
def Numbered (s : Engine C) : Prop := s.accepted.map (·.id) = List.range s.accepted.length

theorem Numbered.fresh (h : Numbered s) (request : Nat) (waiter : Option Nat) :
    (⟨s.accepted.length, request, waiter⟩ : Submission) ∉ s.accepted := by
  intro hmem
  have hid : s.accepted.length ∈ s.accepted.map (·.id) := List.mem_map_of_mem hmem
  rw [h, List.mem_range] at hid
  exact Nat.lt_irrefl _ hid

theorem accept_refines (hn : Numbered s) (request : Nat) (waiter : Option Nat) :
    Step (RetryAllowed P) (ledger s) (ledger (accept s ⟨s.accepted.length, request, waiter⟩)) := by
  have hstep : Step (RetryAllowed P) (ledger s) _ := Step.accept (ledger s)
    ⟨s.accepted.length, request, waiter⟩ (hn.fresh request waiter)
  convert hstep using 1
  refine Ledger.ext rfl ?_ rfl rfl rfl
  simp only [accept, ledger, waitingEnvs, ← Multiset.coe_add, Multiset.map_add,
    Multiset.coe_singleton, Multiset.map_singleton, ← Multiset.singleton_add,
    TRequestEnvelope.entry]
  abel

theorem refuse_refines {env : TRequestEnvelope} {resume : Resume}
    (hpc : s.pc = .preparing env resume) :
    Step (RetryAllowed P) (ledger s) (ledger (refuse s env resume)) := by
  refine ledger_refuse env rfl ?_ rfl ?_ rfl
  · show waitingEnvs s = env ::ₘ waitingEnvs (refuse s env resume)
    simp only [refuse, waitingEnvs, hpc, Pc.waiting, ← Multiset.singleton_add]
    abel
  · show closedEnvs (refuse s env resume) = env ::ₘ closedEnvs s
    simp only [refuse, closedEnvs, hpc, Pc.hand, ← Multiset.singleton_add]
    abel

theorem attach_refines {env : TRequestEnvelope} {resume : Resume}
    (hpc : s.pc = .preparing env resume) :
    Step (RetryAllowed P) (ledger s) (ledger (attach s env resume)) := by
  refine ledger_start env rfl ?_ ?_ ?_ rfl
  · show waitingEnvs s = env ::ₘ waitingEnvs (attach s env resume)
    simp only [attach, waitingEnvs, hpc, Resume.waiting_pc]
    simp only [Pc.waiting, ← Multiset.singleton_add]
    abel
  · show activeEnvs (attach s env resume) = env ::ₘ activeEnvs s
    simp only [attach, activeEnvs, List.map_append, List.map_cons, List.map_nil,
      ← Multiset.coe_add, Multiset.coe_singleton, ← Multiset.singleton_add]
    abel
  · show closedEnvs (attach s env resume) = closedEnvs s
    simp only [attach, closedEnvs, hpc, Resume.hand_pc]
    simp only [Pc.hand]

theorem deliver_refines {d : Delivery} {resume : Resume} (hpc : s.pc = .delivering d resume) :
    Step (RetryAllowed P) (ledger s) (ledger (deliver s d resume)) := by
  refine ledger_stay rfl ?_ rfl ?_ rfl
  · show waitingEnvs (deliver s d resume) = waitingEnvs s
    simp only [deliver, waitingEnvs, hpc, Pc.waiting]
  · show closedEnvs (deliver s d resume) = closedEnvs s
    simp only [deliver, closedEnvs, hpc, Pc.hand]

theorem notify_refines {d : Delivery} {resume : Resume} (hpc : s.pc = .notifying d resume) :
    Step (RetryAllowed P) (ledger s) (ledger (notify s d resume)) := by
  refine ledger_stay rfl ?_ rfl ?_ rfl
  · show waitingEnvs (notify s d resume) = waitingEnvs s
    simp only [notify, waitingEnvs, hpc, Resume.waiting_pc]
    simp only [Pc.waiting]
  · show closedEnvs (notify s d resume) = closedEnvs s
    simp only [notify, closedEnvs, hpc, Resume.hand_pc]
    simp only [Pc.hand, List.map_append, List.map_cons, List.map_nil, ← Multiset.coe_add,
      Multiset.coe_singleton]
    abel

/-- A due envelope leaves the heap for the preparation. -/
theorem due_refines {now : UInt64} {env : TRequestEnvelope} {retryQueue : TMinHeap TRequestEnvelope}
    (hpc : s.pc = .admitting now) (hpop : s.retryQueue.pop timeCompare = some (env, retryQueue)) :
    Step (RetryAllowed P) (ledger s)
      (ledger { s with retryQueue, pc := .preparing env (.admission now) }) := by
  obtain ⟨_, hperm⟩ := pop_perm timeCompare hpop
  refine ledger_stay rfl ?_ rfl ?_ rfl
  · show waitingEnvs { s with retryQueue, pc := .preparing env (.admission now) } = waitingEnvs s
    simp only [waitingEnvs, hpc, Pc.waiting, Multiset.coe_eq_coe.mpr hperm, ← Multiset.cons_coe,
      ← Multiset.singleton_add]
    abel
  · simp only [closedEnvs, hpc, Pc.hand]

theorem activeEnvs_read {ctx : TEasyContext} {completion : Completion}
    {messages : List (TEasyContext × Completion)}
    (hmessages : s.messages = (ctx, completion) :: messages) :
    activeEnvs s = ctx.env ::ₘ activeEnvs { s with messages } := by
  simp only [activeEnvs, hmessages, List.map_cons, ← Multiset.cons_coe, ← Multiset.singleton_add]
  abel

theorem replay_refines {ctx : TEasyContext} {completion : Completion}
    {messages : List (TEasyContext × Completion)} {policy : TRetryPolicy} {response : THttpResponse}
    (now : UInt64) (sleepMs : Int32) (hpc : s.pc = .reading)
    (hmessages : s.messages = (ctx, completion) :: messages)
    (hpolicy : P.policy ctx.request = some policy)
    (hretries : retries P policy ctx response (s.content ctx.request) = true) :
    Step (RetryAllowed P) (ledger s)
      (ledger (replay P (endAttempt { s with messages } ctx response) ctx sleepMs now)) := by
  obtain ⟨-, hattempts, htransient, hsink, hrepeat⟩ := (retries_iff policy ctx _ _).mp hretries
  refine ledger_retry ctx.env (ctx.env.retry.next sleepMs now) rfl ?_ rfl ?_
    (activeEnvs_read hmessages) ?_ rfl
  · show RetryAllowed P ctx.env.toSubmission (ctx.env.retry.attempts + 1) _
    rw [ctx.request_eq] at hpolicy hsink hrepeat
    exact ⟨policy, hpolicy, by omega, htransient, hsink, ctx.request_eq ▸ hrepeat⟩
  · -- `Push` puts the next attempt into the heap
    simp only [replay, endAttempt, scheduleRetry, waitingEnvs, hpc, Pc.waiting,
      ← Multiset.singleton_add, Multiset.coe_eq_coe.mpr (push_perm timeCompare _ _),
      ← Multiset.cons_coe]
    abel
  · simp only [replay, endAttempt, scheduleRetry, closedEnvs, hpc, Pc.hand]

theorem settle_refines {ctx : TEasyContext} {completion : Completion}
    {messages : List (TEasyContext × Completion)} (response : THttpResponse)
    (hpc : s.pc = .reading) (hmessages : s.messages = (ctx, completion) :: messages) :
    Step (RetryAllowed P) (ledger s)
      (ledger (settle (endAttempt { s with messages } ctx response) ctx response)) := by
  refine ledger_finish ctx.env rfl ?_ (activeEnvs_read hmessages) ?_ rfl
  · simp only [settle, endAttempt, waitingEnvs, hpc, Pc.waiting]
  · simp only [settle, endAttempt, closedEnvs, hpc, Pc.hand, ← Multiset.singleton_add]
    abel

theorem moved_refines (h : Moved P s s') : Step (RetryAllowed P) (ledger s) (ledger s') := by
  cases h with
  | enter hpc _ | leave hpc _ | drained _ hpc _ | noneDue _ hpc _ | performed hpc | readNone hpc _
  | left hpc _ =>
    refine ledger_stay rfl ?_ rfl ?_ rfl
    · simp only [waitingEnvs, hpc, Pc.waiting]
    · simp only [closedEnvs, hpc, Pc.hand]
  | popped env inQueue hpc hqueue =>
    refine ledger_stay rfl ?_ rfl ?_ rfl
    · show waitingEnvs { s with inQueue, pc := .preparing env .drain } = waitingEnvs s
      simp only [waitingEnvs, hqueue, hpc, Pc.waiting, ← Multiset.cons_coe,
        ← Multiset.singleton_add]
      abel
    · simp only [closedEnvs, hpc, Pc.hand]
  | refused env resume hpc => exact refuse_refines hpc
  | attached env resume hpc => exact attach_refines hpc
  | delivered d resume hpc => exact deliver_refines hpc
  | notified d resume hpc => exact notify_refines hpc
  | due now env retryQueue hpc hpop _ => exact due_refines hpc hpop
  | retried ctx completion messages policy now sleepMs hpc hmessages hpolicy hretries =>
    exact replay_refines now sleepMs hpc hmessages hpolicy hretries
  | settled ctx completion messages hpc hmessages _ => exact settle_refines _ hpc hmessages
  | discarded ctx completion messages hpc hmessages =>
    refine ledger_drop ctx.env rfl rfl (activeEnvs_read hmessages) ?_ rfl
    simp only [closedEnvs, hpc, Pc.hand, List.map_append, List.map_cons, List.map_nil,
      ← Multiset.coe_add, Multiset.coe_singleton, ← Multiset.singleton_add]
    abel

/-- libcurl moves a transfer to the finished ones. -/
theorem activeEnvs_finish {i : Nat} {ctx : TEasyContext} (hctx : s.attached[i]? = some ctx)
    (completion : Completion) :
    activeEnvs { s with
      attached := s.attached.eraseIdx i, messages := s.messages ++ [(ctx, completion)] } =
      activeEnvs s := by
  obtain ⟨hi, rfl⟩ := List.getElem?_eq_some_iff.mp hctx
  have hperm : (s.attached.map (·.env)).Perm
      (s.attached[i].env :: (s.attached.eraseIdx i).map (·.env)) := by
    rw [← List.map_cons (f := fun ctx : TEasyContext => ctx.env)]
    exact (List.getElem_cons_eraseIdx_perm hi).symm.map _
  simp only [activeEnvs, Multiset.coe_eq_coe.mpr hperm, List.map_append, List.map_cons,
    List.map_nil, ← Multiset.coe_add, ← Multiset.cons_coe, ← Multiset.singleton_add]
  abel

/-- **Every step of the machine is a step of the ledger.** -/
theorem step_refines {a : Action C} (hn : Numbered s) (h : step P s a = some s') :
    Step (RetryAllowed P) (ledger s) (ledger s') := by
  cases step_taken h with
  | accepted request waiter _ => exact accept_refines hn request waiter
  | finish i ctx completion _ hctx =>
    exact ledger_stay rfl rfl (activeEnvs_finish hctx completion) rfl rfl
  | client _ _ _ _ hmoved => exact moved_refines hmoved
  | _ => exact Step.stay _

/-! ### Runs -/

theorem moved_accepted (h : Moved P s s') : s'.accepted = s.accepted := by
  cases h <;> rfl

theorem numbered_accept (hn : Numbered s) (request : Nat) (waiter : Option Nat) :
    Numbered (accept s ⟨s.accepted.length, request, waiter⟩) := by
  simp only [Numbered, accept, List.map_append, List.map_cons, List.map_nil, List.length_append,
    List.length_cons, List.length_nil, List.range_succ]
  rw [hn]

theorem step_numbered {a : Action C} (hn : Numbered s) (h : step P s a = some s') :
    Numbered s' := by
  cases step_taken h with
  | accepted request waiter _ => exact numbered_accept hn request waiter
  | client _ _ _ _ hmoved =>
    rw [Numbered, moved_accepted hmoved]
    exact hn
  | _ => exact hn

/-- What holds of the envelopes of a client in every state. -/
structure LedgerInv (P : Setup C) (s : Engine C) : Prop where
  numbered : Numbered s
  ledger : Inv (RetryAllowed P) (ledger s)

theorem ledgerInv_started (content : Nat → Option C) : LedgerInv P (started content) where
  numbered := rfl
  ledger := inv_empty _

theorem step_ledgerInv (s : Engine C) (a : Action C) (s' : Engine C) (hi : LedgerInv P s)
    (h : step P s a = some s') : LedgerInv P s' where
  numbered := step_numbered hi.numbered h
  ledger := (step_refines hi.numbered h).inv hi.ledger

/-- **The envelopes of a client that runs from its start form a ledger.** -/
theorem run_ledgerInv {content : Nat → Option C} {actions : List (Action C)}
    (h : run (step P) (started content) actions = some s) : LedgerInv P s :=
  run_invariant (LedgerInv P) step_ledgerInv (ledgerInv_started content) h

end NetMod.ClientEngine
