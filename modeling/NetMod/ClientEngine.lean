import NetMod.Lib.PartialRuns
import NetMod.Lib.RetryLedger
import NetMod.MinHeap
import NetMod.RetryPolicy

/-!
# `THttpClient.Submit`, `Run` and `Shutdown`

The threads of a client as one machine.  User threads submit requests, set listeners and contents,
and shut the client down; the client thread executes `Run`, one statement group at a time, with `pc`
saying where it is.  libcurl moves transfers from the attached handles to the finished messages while
`Run` is in `multiPerform`.  An action that is not possible in a state gives `none`.

Requests, waiters and listeners are numbers.  `accepted`, `delivered`, `discarded`, the two lists of
calls and `trace` record what happened and decide nothing.
-/

namespace NetMod.ClientEngine

open NetMod.BlitzText NetMod.HttpFields NetMod.MinHeap NetMod.RequestPreparation NetMod.RetryPolicy
open NetMod.RetryLedger (Event)

/-- What does not change while the client runs: the requests but for their contents and listeners,
and the client's default policy. -/
structure Setup (C : Type) where
  platform : Platform
  strerror : Int → Text
  contentMethods : ContentMethods C
  method : Nat → EHttpMethod
  sink : Nat → Option TSink
  retry : Nat → Option TRetryPolicy
  retryDefault : Option TRetryPolicy := some {}

namespace Setup

variable {C : Type} (P : Setup C)

/-- The policy `Run` looks at. -/
def policy (request : Nat) : Option TRetryPolicy := (P.retry request).or P.retryDefault

/-- The sink `PrepareContext` gives a context. -/
def contextSink (request : Nat) : TSink := ((P.sink request).getD .newMemory).beginAttempt

end Setup

/-! ### Envelopes, contexts and results -/

/-- An accepted `Submit`, by its place in the order of the accepted ones. -/
structure Submission where
  id : Nat
  request : Nat
  waiter : Option Nat
deriving DecidableEq

structure TRetryState where
  attempts : Nat
  nextAtMS : Int64 := 0
deriving DecidableEq

/-- The state `ScheduleRetry` leaves. -/
def TRetryState.next (retry : TRetryState) (sleepMs : Int32) (now : UInt64) : TRetryState where
  attempts := retry.attempts + 1
  nextAtMS := (now + (max 0 sleepMs).toInt64.toUInt64).toInt64

/-- `TRequestEnvelope`. -/
structure TRequestEnvelope extends Submission where
  retry : TRetryState
deriving DecidableEq

/-- `TTimeComparator.Compare`. -/
def timeCompare (a b : TRequestEnvelope) : Int32 := (a.retry.nextAtMS - b.retry.nextAtMS).toInt32

/-- `TEasyContext`, with the request and the waiter of its envelope. -/
structure TEasyContext where
  env : TRequestEnvelope
  request : Nat
  waiter : Option Nat
  response : THttpResponse := {}
  request_eq : request = env.request
  waiter_eq : waiter = env.waiter
deriving DecidableEq

structure THttpResult where
  request : Nat
  response : THttpResponse
deriving DecidableEq

/-- A result on its way to the waiter and the listener of an envelope. -/
structure Delivery where
  env : TRequestEnvelope
  waiter : Option Nat
  result : THttpResult
  waiter_eq : waiter = env.waiter
  request_eq : result.request = env.request
deriving DecidableEq

/-- A delivery made, with the listener that was set at that moment. -/
structure Completed extends Delivery where
  listener : Option Nat
deriving DecidableEq

/-- `waiter.Deliver(result)`, for an envelope. -/
structure WaiterCall where
  waiter : Nat
  submission : Submission
  result : THttpResult
deriving DecidableEq

/-- `listener.OnComplete(result)`, for an envelope. -/
structure ListenerCall where
  listener : Nat
  submission : Submission
  result : THttpResult
deriving DecidableEq

def Delivery.waiterCall (d : Delivery) : Option WaiterCall :=
  d.waiter.map fun waiter => ⟨waiter, d.env.toSubmission, d.result⟩

def Completed.listenerCall (d : Completed) : Option ListenerCall :=
  d.listener.map fun listener => ⟨listener, d.env.toSubmission, d.result⟩

/-- What libcurl reports of a finished transfer, and the header lines it passed on before. -/
structure Completion where
  result : Int
  responseCode : Int
  effectiveURL : Text := []
  headers : THttpFields := {}
deriving DecidableEq

/-- What a retry decision looks at when an attempt has ended. -/
structure Outcome (C : Type) where
  curlCode : Int
  status : Int
  content : Option C

/-! ### The state -/

/-- Where `Run` goes on when an envelope is prepared or a result delivered. -/
inductive Resume where
  | drain
  | admission (now : UInt64)
  | read
deriving DecidableEq

/-- Where `Run` is. -/
inductive Pc where
  | top
  | draining
  | preparing (env : TRequestEnvelope) (resume : Resume)
  | delivering (d : Delivery) (resume : Resume)
  | notifying (d : Delivery) (resume : Resume)
  | admitting (now : UInt64)
  | performing
  | reading
  | leaving
  | returned
deriving DecidableEq

def Resume.pc : Resume → Pc
  | .drain => .draining
  | .admission now => .admitting now
  | .read => .reading

structure Engine (C : Type) where
  running : Bool := true
  closed : Bool := false
  listener : Nat → Option Nat := fun _ => none
  content : Nat → Option C
  response : Nat → Option THttpResponse := fun _ => none
  inQueue : List TRequestEnvelope := []
  attached : List TEasyContext := []
  messages : List (TEasyContext × Completion) := []
  retryQueue : TMinHeap TRequestEnvelope := {}
  pc : Pc := .top
  waiterCalls : List WaiterCall := []
  listenerCalls : List ListenerCall := []
  accepted : List Submission := []
  delivered : List Completed := []
  discarded : List TEasyContext := []
  trace : List (Event Submission (Outcome C)) := []

/-- What a thread, or libcurl, does next.  The client's step comes with what it gets from outside:
whether `newEasy` gives a handle, the clock, and the value of `ComputeRetrySleepMs`. -/
inductive Action (C : Type) where
  | submit (request : Nat) (waiter : Option Nat)
  | setListener (request : Nat) (listener : Option Nat)
  | setContent (request : Nat) (content : Option C)
  | clearRunning
  | closeQueue
  | finish (i : Nat) (completion : Completion)
  | client (easyCreated : Bool) (now : UInt64) (sleepMs : Int32)

/-! ### The steps -/

section Steps

variable {C : Type}

/-- `_inQueue.Push env`, for a new envelope. -/
def accept (s : Engine C) (submission : Submission) : Engine C :=
  { s with
    accepted := s.accepted ++ [submission]
    inQueue := s.inQueue ++ [⟨submission, { attempts := 1 }⟩] }

/-- `Submit`: `Push` raises on a closed queue. -/
def submit (s : Engine C) (request : Nat) (waiter : Option Nat) : Engine C :=
  if s.closed then s else accept s ⟨s.accepted.length, request, waiter⟩

/-- `PrepareContext(env)` without an easy handle: the result says so. -/
def refuse (s : Engine C) (env : TRequestEnvelope) (resume : Resume) : Engine C :=
  let response : THttpResponse :=
    { curlCode := -1, curlErr := lit "Failed to create curl easy handle" }
  { s with pc := .delivering ⟨env, env.waiter, ⟨env.request, response⟩, rfl, rfl⟩ resume }

/-- `PrepareContext(env)` with an easy handle, which `newEasy` has attached. -/
def attach (s : Engine C) (env : TRequestEnvelope) (resume : Resume) : Engine C :=
  let context : TEasyContext :=
    { env, request := env.request, waiter := env.waiter, request_eq := rfl, waiter_eq := rfl }
  { s with
    attached := s.attached ++ [context]
    trace := s.trace ++ [Event.started env.toSubmission env.retry.attempts]
    pc := resume.pc }

/-- `PrepareContext(env)`. -/
def prepareContext (s : Engine C) (env : TRequestEnvelope) (resume : Resume) (easyCreated : Bool) :
    Engine C :=
  if !easyCreated then refuse s env resume else attach s env resume

/-- `waiter.Deliver(result)`, if there is a waiter. -/
def deliver (s : Engine C) (d : Delivery) (resume : Resume) : Engine C :=
  { s with
    waiterCalls := s.waiterCalls ++ d.waiterCall.toList
    pc := .notifying d resume }

/-- `listener.OnComplete(result)`, if the request has a listener. -/
def notify (s : Engine C) (d : Delivery) (resume : Resume) : Engine C :=
  let completed : Completed := { d with listener := s.listener d.result.request }
  { s with
    listenerCalls := s.listenerCalls ++ completed.listenerCall.toList
    delivered := s.delivered ++ [completed]
    pc := resume.pc }

/-- One turn of `AdmitDueRetries`. -/
def admitDueRetries (s : Engine C) (now : UInt64) : Engine C :=
  match s.retryQueue.peek, s.retryQueue.pop timeCompare with
  | some peek, some (_, retryQueue) =>
    if now < peek.retry.nextAtMS.toUInt64 then { s with pc := .performing }
    else { s with retryQueue, pc := .preparing peek (.admission now) }
  | _, _ => { s with pc := .performing }

/-- `ScheduleRetry(env, sleepMs)`. -/
def scheduleRetry (s : Engine C) (env : TRequestEnvelope) (sleepMs : Int32) (now : UInt64) :
    Engine C :=
  { s with
    retryQueue := s.retryQueue.push timeCompare { env with retry := env.retry.next sleepMs now } }

/-- The response of a context whose transfer has finished. -/
def finishedResponse (P : Setup C) (ctx : TEasyContext) (completion : Completion) : THttpResponse :=
  { ctx.response with
    headers := completion.headers
    curlCode := completion.result
    curlErr := if completion.result ≠ 0 then P.strerror completion.result else ctx.response.curlErr
    status := completion.responseCode
    effectiveUrl := completion.effectiveURL }

/-- The conditions of `Run`'s retry branch. -/
def retries (P : Setup C) (policy : TRetryPolicy) (ctx : TEasyContext) (response : THttpResponse)
    (content : Option C) : Bool :=
  0 < policy.maxAttempts &&
    (shouldRetry P.platform policy (P.method ctx.request) response &&
      (P.contextSink ctx.request).isReplaySafe &&
      (ctx.env.retry.attempts : Int) < policy.maxAttempts) &&
    isReplaySafe P.contentMethods (P.method ctx.request) content policy

/-- The attempt of a context has ended with a response. -/
def endAttempt (s : Engine C) (ctx : TEasyContext) (response : THttpResponse) : Engine C :=
  let outcome : Outcome C := ⟨response.curlCode, response.status, s.content ctx.request⟩
  { s with trace := s.trace ++ [Event.ended ctx.env.toSubmission ctx.env.retry.attempts outcome] }

/-- `PrepareForReplay(ctx.request)` and `ScheduleRetry(env, sleepMs)`. -/
def replay (P : Setup C) (s : Engine C) (ctx : TEasyContext) (sleepMs : Int32) (now : UInt64) :
    Engine C :=
  let content := prepareForReplay P.contentMethods (s.content ctx.request)
  scheduleRetry { s with content := Function.update s.content ctx.request content } ctx.env sleepMs
    now

/-- No retry: `ctx.request._response = ctx.response`, and the result is to be delivered. -/
def settle (s : Engine C) (ctx : TEasyContext) (response : THttpResponse) : Engine C :=
  { s with
    response := Function.update s.response ctx.request (some response)
    pc := .delivering ⟨ctx.env, ctx.waiter, ⟨ctx.request, response⟩, ctx.waiter_eq, ctx.request_eq⟩
      .read }

/-- The body of `Run`'s loop over the messages. -/
def readMessage (P : Setup C) (s : Engine C) (ctx : TEasyContext) (completion : Completion)
    (now : UInt64) (sleepMs : Int32) : Engine C :=
  let response := finishedResponse P ctx completion
  if (P.policy ctx.request).any fun policy =>
      retries P policy ctx response (s.content ctx.request) then
    replay P (endAttempt s ctx response) ctx sleepMs now
  else settle (endAttempt s ctx response) ctx response

/-- What the client thread does next in `Run`. -/
def runStep (P : Setup C) (s : Engine C) (easyCreated : Bool) (now : UInt64) (sleepMs : Int32) :
    Option (Engine C) :=
  match s.pc with
  | .top => some { s with pc := if s.running then .draining else .leaving }
  | .draining =>
    match s.inQueue with
    | [] => some { s with pc := .admitting now }
    | env :: inQueue => some { s with inQueue, pc := .preparing env .drain }
  | .preparing env resume => some (prepareContext s env resume easyCreated)
  | .delivering d resume => some (deliver s d resume)
  | .notifying d resume => some (notify s d resume)
  | .admitting now => some (admitDueRetries s now)
  | .performing => some { s with pc := .reading }
  | .reading =>
    match s.messages with
    | [] => some { s with pc := .top }
    | (ctx, completion) :: messages =>
      some (readMessage P { s with messages } ctx completion now sleepMs)
  | .leaving =>
    match s.messages with
    | [] => some { s with pc := .returned }
    | (ctx, _) :: messages => some { s with messages, discarded := s.discarded ++ [ctx] }
  | .returned => none

/-- One step of the machine. -/
def step (P : Setup C) (s : Engine C) : Action C → Option (Engine C)
  | .submit request waiter => some (submit s request waiter)
  | .setListener request listener =>
    some { s with listener := Function.update s.listener request listener }
  | .setContent request content =>
    some { s with content := Function.update s.content request content }
  | .clearRunning => if s.running then some { s with running := false } else none
  | .closeQueue => if s.running then none else some { s with closed := true }
  | .finish i completion =>
    if s.pc = .performing then
      s.attached[i]?.map fun ctx =>
        { s with
          attached := s.attached.eraseIdx i
          messages := s.messages ++ [(ctx, completion)] }
    else none
  | .client easyCreated now sleepMs => runStep P s easyCreated now sleepMs

/-- A started client whose queues are empty. -/
def started (content : Nat → Option C) : Engine C := { content }

/-! ### What a step can do -/

/-- The steps of `Run` from the state `s`. -/
inductive Moved (P : Setup C) (s : Engine C) : Engine C → Prop
  | enter : s.pc = .top → s.running = true → Moved P s { s with pc := .draining }
  | leave : s.pc = .top → s.running = false → Moved P s { s with pc := .leaving }
  | drained (now : UInt64) : s.pc = .draining → s.inQueue = [] →
      Moved P s { s with pc := .admitting now }
  | popped (env : TRequestEnvelope) (inQueue : List TRequestEnvelope) :
      s.pc = .draining → s.inQueue = env :: inQueue →
      Moved P s { s with inQueue, pc := .preparing env .drain }
  | refused (env : TRequestEnvelope) (resume : Resume) :
      s.pc = .preparing env resume → Moved P s (refuse s env resume)
  | attached (env : TRequestEnvelope) (resume : Resume) :
      s.pc = .preparing env resume → Moved P s (attach s env resume)
  | delivered (d : Delivery) (resume : Resume) :
      s.pc = .delivering d resume → Moved P s (deliver s d resume)
  | notified (d : Delivery) (resume : Resume) :
      s.pc = .notifying d resume → Moved P s (notify s d resume)
  | noneDue (now : UInt64) : s.pc = .admitting now →
      (∀ env, s.retryQueue.peek = some env → now < env.retry.nextAtMS.toUInt64) →
      Moved P s { s with pc := .performing }
  | due (now : UInt64) (env : TRequestEnvelope) (retryQueue : TMinHeap TRequestEnvelope) :
      s.pc = .admitting now → s.retryQueue.pop timeCompare = some (env, retryQueue) →
      ¬ now < env.retry.nextAtMS.toUInt64 →
      Moved P s { s with retryQueue, pc := .preparing env (.admission now) }
  | performed : s.pc = .performing → Moved P s { s with pc := .reading }
  | readNone : s.pc = .reading → s.messages = [] → Moved P s { s with pc := .top }
  | retried (ctx : TEasyContext) (completion : Completion)
      (messages : List (TEasyContext × Completion)) (policy : TRetryPolicy) (now : UInt64)
      (sleepMs : Int32) :
      s.pc = .reading → s.messages = (ctx, completion) :: messages →
      P.policy ctx.request = some policy →
      retries P policy ctx (finishedResponse P ctx completion) (s.content ctx.request) = true →
      Moved P s (replay P (endAttempt { s with messages } ctx (finishedResponse P ctx completion)) ctx
        sleepMs now)
  | settled (ctx : TEasyContext) (completion : Completion)
      (messages : List (TEasyContext × Completion)) :
      s.pc = .reading → s.messages = (ctx, completion) :: messages →
      (∀ policy, P.policy ctx.request = some policy →
        retries P policy ctx (finishedResponse P ctx completion) (s.content ctx.request) = false) →
      Moved P s (settle (endAttempt { s with messages } ctx (finishedResponse P ctx completion)) ctx
        (finishedResponse P ctx completion))
  | left : s.pc = .leaving → s.messages = [] → Moved P s { s with pc := .returned }
  | discarded (ctx : TEasyContext) (completion : Completion)
      (messages : List (TEasyContext × Completion)) :
      s.pc = .leaving → s.messages = (ctx, completion) :: messages →
      Moved P s { s with messages, discarded := s.discarded ++ [ctx] }

variable {P : Setup C} {s s' : Engine C}

theorem admitDueRetries_moved {now : UInt64} (hpc : s.pc = .admitting now) :
    Moved P s (admitDueRetries s now) := by
  rw [admitDueRetries]
  split
  · rename_i peek item retryQueue hpeek hpop
    obtain rfl : peek = item :=
      Option.some.inj (hpeek.symm.trans (pop_perm timeCompare hpop).1)
    split
    · rename_i hlater
      refine .noneDue now hpc fun env henv => ?_
      rw [hpeek] at henv
      exact Option.some.inj henv ▸ hlater
    · rename_i hdue
      exact .due now peek retryQueue hpc hpop hdue
  · rename_i hnone
    refine .noneDue now hpc fun env henv => ?_
    cases hpop : s.retryQueue.pop timeCompare with
    | none =>
      rw [peek_eq_none.mpr ((pop_eq_none timeCompare).mp hpop)] at henv
      cases henv
    | some popped => exact absurd hpop (hnone env popped.1 popped.2 henv)

theorem readMessage_moved {ctx : TEasyContext} {completion : Completion}
    {messages : List (TEasyContext × Completion)} (now : UInt64) (sleepMs : Int32)
    (hpc : s.pc = .reading) (hmessages : s.messages = (ctx, completion) :: messages) :
    Moved P s (readMessage P { s with messages } ctx completion now sleepMs) := by
  rw [readMessage]
  dsimp only
  split
  · rename_i hretries
    obtain ⟨policy, hpolicy, hretries⟩ := (Option.any_eq_true _ _).mp hretries
    exact .retried ctx completion messages policy now sleepMs hpc hmessages hpolicy hretries
  · rename_i hretries
    refine .settled ctx completion messages hpc hmessages fun policy hpolicy => ?_
    rw [hpolicy, Option.any_some] at hretries
    exact Bool.eq_false_iff.mpr hretries

theorem runStep_moved {easyCreated : Bool} {now : UInt64} {sleepMs : Int32}
    (h : runStep P s easyCreated now sleepMs = some s') : Moved P s s' := by
  rw [runStep.eq_def] at h
  split at h
  · rename_i hpc
    obtain rfl := Option.some.inj h
    split
    · rename_i hrun
      exact .enter hpc hrun
    · rename_i hrun
      exact .leave hpc (Bool.eq_false_iff.mpr hrun)
  · rename_i hpc
    split at h
    · rename_i hqueue
      exact Option.some.inj h ▸ .drained now hpc hqueue
    · rename_i env inQueue hqueue
      exact Option.some.inj h ▸ .popped env inQueue hpc hqueue
  · rename_i env resume hpc
    obtain rfl := Option.some.inj h
    cases easyCreated with
    | false => exact .refused env resume hpc
    | true => exact .attached env resume hpc
  · rename_i d resume hpc
    exact Option.some.inj h ▸ .delivered d resume hpc
  · rename_i d resume hpc
    exact Option.some.inj h ▸ .notified d resume hpc
  · rename_i now hpc
    exact Option.some.inj h ▸ admitDueRetries_moved hpc
  · rename_i hpc
    exact Option.some.inj h ▸ .performed hpc
  · rename_i hpc
    split at h
    · rename_i hmessages
      exact Option.some.inj h ▸ .readNone hpc hmessages
    · rename_i ctx completion messages hmessages
      exact Option.some.inj h ▸ readMessage_moved now sleepMs hpc hmessages
  · rename_i hpc
    split at h
    · rename_i hmessages
      exact Option.some.inj h ▸ .left hpc hmessages
    · rename_i ctx completion messages hmessages
      exact Option.some.inj h ▸ .discarded ctx completion messages hpc hmessages
  · cases h

/-- The steps from the state `s`. -/
inductive Taken (P : Setup C) (s : Engine C) : Action C → Engine C → Prop
  | rejected (request : Nat) (waiter : Option Nat) : s.closed = true →
      Taken P s (.submit request waiter) s
  | accepted (request : Nat) (waiter : Option Nat) : s.closed = false →
      Taken P s (.submit request waiter) (accept s ⟨s.accepted.length, request, waiter⟩)
  | setListener (request : Nat) (listener : Option Nat) :
      Taken P s (.setListener request listener)
        { s with listener := Function.update s.listener request listener }
  | setContent (request : Nat) (content : Option C) :
      Taken P s (.setContent request content)
        { s with content := Function.update s.content request content }
  | clearRunning : s.running = true → Taken P s .clearRunning { s with running := false }
  | closeQueue : s.running = false → Taken P s .closeQueue { s with closed := true }
  | finish (i : Nat) (ctx : TEasyContext) (completion : Completion) :
      s.pc = .performing → s.attached[i]? = some ctx →
      Taken P s (.finish i completion)
        { s with
          attached := s.attached.eraseIdx i
          messages := s.messages ++ [(ctx, completion)] }
  | client (s' : Engine C) (easyCreated : Bool) (now : UInt64) (sleepMs : Int32) :
      Moved P s s' → Taken P s (.client easyCreated now sleepMs) s'

/-- **What a step can do.** -/
theorem step_taken {a : Action C} (h : step P s a = some s') : Taken P s a s' := by
  cases a with
  | submit request waiter =>
    obtain rfl := Option.some.inj h
    cases hclosed : s.closed with
    | true =>
      rw [submit, if_pos hclosed]
      exact .rejected request waiter hclosed
    | false =>
      rw [submit, if_neg (Bool.eq_false_iff.mp hclosed)]
      exact .accepted request waiter hclosed
  | setListener request listener => exact Option.some.inj h ▸ .setListener request listener
  | setContent request content => exact Option.some.inj h ▸ .setContent request content
  | clearRunning =>
    simp only [step, Option.ite_none_right_eq_some, Option.some.injEq] at h
    exact h.2 ▸ .clearRunning h.1
  | closeQueue =>
    simp only [step, Option.ite_none_left_eq_some, Option.some.injEq, Bool.not_eq_true] at h
    exact h.2 ▸ .closeQueue h.1
  | finish i completion =>
    simp only [step, Option.ite_none_right_eq_some, Option.map_eq_some_iff] at h
    obtain ⟨hpc, ctx, hctx, rfl⟩ := h
    exact .finish i ctx completion hpc hctx
  | client easyCreated now sleepMs => exact .client s' easyCreated now sleepMs (runStep_moved h)

end Steps

end NetMod.ClientEngine
