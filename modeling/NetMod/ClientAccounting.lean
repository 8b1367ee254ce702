import NetMod.ClientRefinement
import NetMod.Lib.UniqueImage

/-!
# No request is lost, none is served twice

The accounts of a client: the calls of waiters and listeners are those of the deliveries made so
far, and while the client runs it has discarded nothing.  With the ledger this gives the partition
of the accepted envelopes: `accepted_served_once`.
-/

namespace NetMod.ClientEngine

open NetMod.PartialRuns NetMod.RetryLedger NetMod.UniqueImage

variable {C : Type} {P : Setup C} {s s' : Engine C}

/-- The containers an accepted envelope can be in; `multi` is the multi handle with the transfers
that run and those that have finished. -/
inductive Place where
  | inQueue | multi | retryQueue | delivered
deriving DecidableEq

def holds (s : Engine C) : Place → List Submission
  | .inQueue => s.inQueue.map (·.toSubmission)
  | .multi => s.attached.map (·.env.toSubmission) ++ s.messages.map (·.1.env.toSubmission)
  | .retryQueue => s.retryQueue.data.map (·.toSubmission)
  | .delivered => s.delivered.map (·.env.toSubmission)

/-- An envelope is in one of the containers, and there once. -/
def InOnePlace (s : Engine C) (submission : Submission) : Prop :=
  ∃ place, (holds s place).count submission = 1 ∧
    ∀ other, other ≠ place → submission ∉ holds s other

/-- `t` is the state of a run in which its next step tells the listener of a delivery. -/
def NotifiesAt (P : Setup C) (content : Nat → Option C) (actions : List (Action C)) (d : Delivery)
    (t : Engine C) : Prop :=
  ∃ before easyCreated now sleepMs after resume,
    actions = before ++ .client easyCreated now sleepMs :: after ∧
      run (step P) (started content) before = some t ∧ t.pc = .notifying d resume

/-- The envelope of a delivery has its calls: one of its waiter and one of the listener its request
had when that was asked for, when present, with a result that names its own request. -/
structure ServedOnce (P : Setup C) (content : Nat → Option C) (actions : List (Action C))
    (s : Engine C) (d : Completed) : Prop where
  delivered : (holds s .delivered).count d.env.toSubmission = 1
  nowhere_else : ∀ place, place ≠ .delivered → d.env.toSubmission ∉ holds s place
  own_request : d.result.request = d.env.request
  waiter_called : s.waiterCalls.filter (fun call => decide (call.submission = d.env.toSubmission)) =
    (d.env.waiter.map fun waiter => ⟨waiter, d.env.toSubmission, d.result⟩).toList
  notified : ∃ t, NotifiesAt P content actions d.toDelivery t
  listener_called : ∀ t, NotifiesAt P content actions d.toDelivery t →
    s.listenerCalls.filter (fun call => decide (call.submission = d.env.toSubmission)) =
      ((t.listener d.env.request).map fun listener => ⟨listener, d.env.toSubmission, d.result⟩).toList

/-- The delivery whose waiter has been called and whose listener has not. -/
def Pc.notified : Pc → List Delivery
  | .notifying d _ => [d]
  | _ => []

@[simp] theorem Resume.notified_pc (resume : Resume) : resume.pc.notified = [] := by
  cases resume <;> rfl

/-- `Run` is past its loop. -/
def Pc.past : Pc → Bool
  | .leaving | .returned => true
  | _ => false

@[simp] theorem Resume.past_pc (resume : Resume) : resume.pc.past = false := by
  cases resume <;> rfl

/-- The calls made are those of the deliveries, and nothing is discarded before the loop is left. -/
structure Accounts (s : Engine C) : Prop where
  waiters : s.waiterCalls =
    (s.delivered.map (·.toDelivery) ++ s.pc.notified).filterMap Delivery.waiterCall
  listeners : s.listenerCalls = s.delivered.filterMap Completed.listenerCall
  running : s.pc.past = true → s.running = false
  kept : s.pc.past = false → s.discarded = []

theorem accounts_started (content : Nat → Option C) : Accounts (started content) where
  waiters := rfl
  listeners := rfl
  running := fun h => absurd h Bool.false_ne_true
  kept := fun _ => rfl

/-- Steps inside the loop that touch neither calls nor deliveries. -/
theorem Accounts.inside (hi : Accounts s) (hw : s'.waiterCalls = s.waiterCalls)
    (hl : s'.listenerCalls = s.listenerCalls) (hd : s'.delivered = s.delivered)
    (hdis : s'.discarded = s.discarded) (hn : s'.pc.notified = s.pc.notified)
    (hpast : s.pc.past = false) (hpast' : s'.pc.past = false) : Accounts s' where
  waiters := by rw [hw, hd, hn, hi.waiters]
  listeners := by rw [hl, hd, hi.listeners]
  running := fun h => absurd (hpast'.symm.trans h) Bool.false_ne_true
  kept := fun _ => hdis.trans (hi.kept hpast)

theorem accounts_deliver {d : Delivery} {resume : Resume} (hi : Accounts s)
    (hpc : s.pc = .delivering d resume) : Accounts (deliver s d resume) where
  waiters := by
    have hw := hi.waiters
    simp only [hpc, Pc.notified, List.append_nil] at hw
    simp only [deliver, hw, Pc.notified, List.filterMap_append, filterMap_singleton_eq]
  listeners := hi.listeners
  running := fun h => absurd h Bool.false_ne_true
  kept := fun _ => hi.kept (by rw [hpc]; rfl)

theorem accounts_notify {d : Delivery} {resume : Resume} (hi : Accounts s)
    (hpc : s.pc = .notifying d resume) : Accounts (notify s d resume) where
  waiters := by
    have hw := hi.waiters
    rw [hpc, Pc.notified] at hw
    simp only [notify, hw, Resume.notified_pc, List.append_nil, List.map_append, List.map_cons,
      List.map_nil]
  listeners := by
    simp only [notify, hi.listeners, List.filterMap_append, filterMap_singleton_eq]
  running := fun h => absurd (resume.past_pc.symm.trans h) Bool.false_ne_true
  kept := fun _ => hi.kept (by rw [hpc]; rfl)

theorem moved_accounts (hi : Accounts s) (h : Moved P s s') : Accounts s' := by
  cases h with
  | enter hpc _ | drained _ hpc _ | popped _ _ hpc _ | refused _ _ hpc | noneDue _ hpc _
  | due _ _ _ hpc _ _ | performed hpc | readNone hpc _ | settled _ _ _ hpc _ _ =>
    exact hi.inside rfl rfl rfl rfl (by rw [hpc]; rfl) (by rw [hpc]; rfl) rfl
  | attached env resume hpc =>
    exact hi.inside rfl rfl rfl rfl (resume.notified_pc.trans (by rw [hpc]; rfl)) (by rw [hpc]; rfl)
      resume.past_pc
  | retried ctx completion messages policy now sleepMs hpc _ _ _ =>
    have hpast : s.pc.past = false := by rw [hpc]; rfl
    exact hi.inside rfl rfl rfl rfl rfl hpast hpast
  | leave hpc hrun =>
    have hw := hi.waiters
    rw [hpc] at hw
    exact ⟨hw, hi.listeners, fun _ => hrun, fun h => Bool.noConfusion h⟩
  | delivered d resume hpc => exact accounts_deliver hi hpc
  | notified d resume hpc => exact accounts_notify hi hpc
  | left hpc _ =>
    have hw := hi.waiters
    rw [hpc] at hw
    exact ⟨hw, hi.listeners, fun _ => hi.running (by rw [hpc]; rfl), fun h => Bool.noConfusion h⟩
  | discarded ctx completion messages hpc _ =>
    refine ⟨hi.waiters, hi.listeners, hi.running, fun h => ?_⟩
    have hpast : s.pc.past = true := by rw [hpc]; rfl
    exact absurd (h.symm.trans hpast) Bool.false_ne_true

/-- **Every step keeps the accounts.** -/
theorem step_accounts (s : Engine C) (a : Action C) (s' : Engine C) (hi : Accounts s)
    (h : step P s a = some s') : Accounts s' := by
  cases step_taken h with
  | clearRunning _ => exact ⟨hi.waiters, hi.listeners, fun _ => rfl, hi.kept⟩
  | client _ _ _ _ hmoved => exact moved_accounts hi hmoved
  | _ => exact ⟨hi.waiters, hi.listeners, hi.running, hi.kept⟩

theorem run_accounts {content : Nat → Option C} {actions : List (Action C)}
    (h : run (step P) (started content) actions = some s) : Accounts s :=
  run_invariant Accounts step_accounts (accounts_started content) h

/-! ### Deliveries are final -/

theorem moved_delivered (h : Moved P s s') : s.delivered <+: s'.delivered := by
  cases h with
  | notified d resume _ => exact List.prefix_append _ _
  | _ => exact List.prefix_rfl

theorem step_delivered {a : Action C} (h : step P s a = some s') :
    s.delivered <+: s'.delivered := by
  cases step_taken h with
  | client _ _ _ _ hmoved => exact moved_delivered hmoved
  | _ => exact List.prefix_rfl

theorem run_delivered {more : List (Action C)} (h : run (step P) s more = some s') :
    s.delivered <+: s'.delivered :=
  run_invariant (fun t => s.delivered <+: t.delivered)
    (fun _ _ _ hpre hstep => hpre.trans (step_delivered hstep)) List.prefix_rfl h

/-- **A delivery is made where its listener is told.** -/
theorem moved_notifies (h : Moved P s s') {d : Completed} (hnew : d ∉ s.delivered)
    (hd : d ∈ s'.delivered) : ∃ resume, s.pc = .notifying d.toDelivery resume := by
  cases h with
  | notified e resume hpc =>
    rcases List.mem_append.mp hd with hold | hlast
    · exact absurd hold hnew
    · obtain rfl := List.mem_singleton.mp hlast
      exact ⟨resume, hpc⟩
  | _ => exact absurd hd hnew

theorem step_notifies {a : Action C} (h : step P s a = some s') {d : Completed}
    (hnew : d ∉ s.delivered) (hd : d ∈ s'.delivered) :
    (∃ easyCreated now sleepMs, a = .client easyCreated now sleepMs) ∧
      ∃ resume, s.pc = .notifying d.toDelivery resume := by
  cases step_taken h with
  | client _ easyCreated now sleepMs hmoved =>
    exact ⟨⟨easyCreated, now, sleepMs, rfl⟩, moved_notifies hmoved hnew hd⟩
  | _ => exact absurd hd hnew

theorem run_notifies {content : Nat → Option C} {actions : List (Action C)}
    (h : run (step P) (started content) actions = some s) {d : Completed} (hd : d ∈ s.delivered) :
    ∃ t, NotifiesAt P content actions d.toDelivery t := by
  obtain ⟨before, a, after, t, t', rfl, hbefore, hstep, hnew, hd'⟩ :=
    run_turning_step (d ∈ ·.delivered) h List.not_mem_nil hd
  obtain ⟨⟨easyCreated, now, sleepMs, rfl⟩, ⟨resume, hpc⟩⟩ := step_notifies hstep hnew hd'
  exact ⟨t, before, easyCreated, now, sleepMs, after, resume, rfl, hbefore, hpc⟩

/-! ### The partition -/

/-- What the envelopes of the ledger are, container by container. -/
theorem holders_eq (s : Engine C) :
    holders (ledger s) = ↑(holds s .inQueue) + ↑(holds s .retryQueue) + ↑(holds s .multi) +
      ↑(holds s .delivered) +
      (s.pc.waiting + s.pc.hand + ↑(s.discarded.map (·.env))).map (·.toSubmission) := by
  simp only [holders, ledger, waitingEnvs, activeEnvs, closedEnvs, holds, Multiset.map_add,
    Multiset.map_map, Multiset.map_coe, List.map_map, Function.comp_def, TRequestEnvelope.entry,
    ← Multiset.coe_add]
  abel

/-- Occurrences of an accepted envelope, over all containers. -/
theorem count_holders (hi : LedgerInv P s) {submission : Submission}
    (hmem : submission ∈ s.accepted) :
    (holders (ledger s)).count submission = 1 := by
  rw [hi.ledger.conserved, Multiset.coe_count]
  exact List.count_eq_one_of_mem hi.ledger.nodup hmem

/-- **At the top of the loop an accepted envelope is in one container.** -/
theorem inOnePlace (hi : LedgerInv P s) (ha : Accounts s) (hpc : s.pc = .top)
    {submission : Submission} (hmem : submission ∈ s.accepted) : InOnePlace s submission := by
  have hcount := count_holders hi hmem
  rw [holders_eq, ha.kept (by rw [hpc]; rfl), hpc] at hcount
  simp only [Pc.waiting, Pc.hand, List.map_nil, Multiset.coe_nil, add_zero, Multiset.map_zero,
    Multiset.count_add, Multiset.coe_count] at hcount
  have hcases : ∃ place, (holds s place).count submission = 1 ∧
      ∀ other, other ≠ place → (holds s other).count submission = 0 := by
    have hsplit : ∀ a b c d : Nat, a + b + c + d = 1 →
        a = 1 ∧ b = 0 ∧ c = 0 ∧ d = 0 ∨ b = 1 ∧ a = 0 ∧ c = 0 ∧ d = 0 ∨
          c = 1 ∧ a = 0 ∧ b = 0 ∧ d = 0 ∨ d = 1 ∧ a = 0 ∧ b = 0 ∧ c = 0 := by omega
    rcases hsplit _ _ _ _ hcount with h | h | h | h
    · exact ⟨.inQueue, h.1, fun other hne => by cases other <;> simp_all⟩
    · exact ⟨.retryQueue, h.1, fun other hne => by cases other <;> simp_all⟩
    · exact ⟨.multi, h.1, fun other hne => by cases other <;> simp_all⟩
    · exact ⟨.delivered, h.1, fun other hne => by cases other <;> simp_all⟩
  obtain ⟨place, hone, hother⟩ := hcases
  exact ⟨place, hone, fun other hne => List.count_eq_zero.mp (hother other hne)⟩

/-- Only accepted envelopes are in the containers. -/
theorem mem_accepted_of_holds (hi : LedgerInv P s) {submission : Submission} {place : Place}
    (h : submission ∈ holds s place) : submission ∈ s.accepted := by
  have hholds : submission ∈ holders (ledger s) := by
    rw [holders_eq]
    simp only [Multiset.mem_add, Multiset.mem_coe]
    cases place <;> simp only [h, true_or, or_true]
  rw [hi.ledger.conserved] at hholds
  exact Multiset.mem_coe.mp hholds

theorem mem_accepted (hi : LedgerInv P s) {d : Completed} (hd : d ∈ s.delivered) :
    d.env.toSubmission ∈ s.accepted :=
  mem_accepted_of_holds hi (show _ ∈ holds s .delivered from List.mem_map_of_mem hd)

/-- A delivered envelope is nowhere else, and not in `Run`'s hands. -/
theorem delivered_only (hi : LedgerInv P s) {d : Completed} (hd : d ∈ s.delivered) :
    (holds s .delivered).count d.env.toSubmission = 1 ∧
      (∀ place, place ≠ .delivered → d.env.toSubmission ∉ holds s place) ∧
      ∀ env ∈ s.pc.hand, env.toSubmission ≠ d.env.toSubmission := by
  have hpos : 0 < (holds s .delivered).count d.env.toSubmission :=
    List.count_pos_iff.mpr (List.mem_map_of_mem hd)
  have hmem : d.env.toSubmission ∈ s.accepted := mem_accepted hi hd
  have hcount := count_holders hi hmem
  rw [holders_eq] at hcount
  simp only [Multiset.count_add, Multiset.map_add, Multiset.coe_count] at hcount
  refine ⟨by omega, fun place hne => ?_, fun env henv heq => ?_⟩
  · rw [← List.count_eq_zero]
    cases place with
    | delivered => exact absurd rfl hne
    | _ => omega
  · have hhand : 0 < (s.pc.hand.map (·.toSubmission)).count d.env.toSubmission :=
      Multiset.count_pos.mpr (heq ▸ Multiset.mem_map_of_mem _ henv)
    omega

theorem notified_le_hand (pc : Pc) :
    (↑(pc.notified.map (·.env)) : Multiset TRequestEnvelope) ≤ pc.hand := by
  cases pc with
  | notifying d resume => exact le_rfl
  | _ => exact Multiset.zero_le _

/-- The deliveries, with the one under way, are of different envelopes. -/
theorem nodup_deliveries (hi : LedgerInv P s) :
    ((s.delivered.map (·.toDelivery) ++ s.pc.notified).map (·.env.toSubmission)).Nodup := by
  have hnodup : (holders (ledger s)).Nodup := by
    rw [hi.ledger.conserved]
    exact Multiset.coe_nodup.mpr hi.ledger.nodup
  refine Multiset.coe_nodup.mp (Multiset.nodup_of_le ?_ hnodup)
  calc (↑((s.delivered.map (·.toDelivery) ++ s.pc.notified).map (·.env.toSubmission)) :
        Multiset Submission)
      = ↑(holds s .delivered) + 
          (↑(s.pc.notified.map (·.env)) : Multiset TRequestEnvelope).map (·.toSubmission) := by
        simp [holds, Function.comp_def]
    _ ≤ ↑(holds s .delivered) + s.pc.hand.map (·.toSubmission) :=
        add_le_add_right (Multiset.map_le_map (notified_le_hand s.pc)) _
    _ ≤ holders (ledger s) := by
        rw [holders_eq, Multiset.map_add, Multiset.map_add]
        refine Multiset.le_iff_exists_add.mpr
          ⟨(↑(holds s .inQueue) : Multiset Submission) + ↑(holds s .retryQueue) +
            ↑(holds s .multi) + s.pc.waiting.map (·.toSubmission) +
            (↑(s.discarded.map (·.env)) : Multiset TRequestEnvelope).map (·.toSubmission), ?_⟩
        abel

theorem nodup_delivered (hi : LedgerInv P s) : (s.delivered.map (·.env.toSubmission)).Nodup := by
  have hnodup := nodup_deliveries hi
  rw [List.map_append, List.map_map] at hnodup
  exact (List.nodup_append.mp hnodup).1

/-- The listener of a delivery is the one that its request has when it is told. -/
theorem listener_of_notifiesAt {content : Nat → Option C} {actions : List (Action C)}
    (h : run (step P) (started content) actions = some s) {d : Completed} (hd : d ∈ s.delivered)
    {t : Engine C} (ht : NotifiesAt P content actions d.toDelivery t) :
    d.listener = t.listener d.env.request := by
  have hnodup := nodup_delivered (run_ledgerInv h)
  obtain ⟨before, easyCreated, now, sleepMs, after, resume, rfl, hbefore, hpc⟩ := ht
  have hstep : step P t (.client easyCreated now sleepMs) = some (notify t d.toDelivery resume) := by
    rw [step, runStep, hpc]
  rw [run_append, hbefore, Option.bind_some, run_cons, hstep, Option.bind_some] at h
  -- the delivery that this step makes is the only one of its envelope
  have htold : { d with listener := t.listener d.result.request } ∈ s.delivered :=
    (run_delivered h).subset (List.mem_append_right _ List.mem_cons_self)
  have hsame := List.inj_on_of_nodup_map hnodup hd htold rfl
  rw [congrArg Completed.listener hsame, d.request_eq]

/-- **A delivered envelope has had its calls, each once.** -/
theorem servedOnce {content : Nat → Option C} {actions : List (Action C)}
    (h : run (step P) (started content) actions = some s) {d : Completed} (hd : d ∈ s.delivered) :
    ServedOnce P content actions s d := by
  have hi : LedgerInv P s := run_ledgerInv h
  have ha : Accounts s := run_accounts h
  obtain ⟨hone, hother, -⟩ := delivered_only hi hd
  have hnodup := nodup_deliveries hi
  have hwaiter := filter_filterMap_key Delivery.waiterCall WaiterCall.submission
    (fun x y hxy => by
      obtain ⟨w, -, rfl⟩ := Option.map_eq_some_iff.mp hxy
      rfl) hnodup (List.mem_append_left _ (List.mem_map_of_mem hd))
  have hlistener := filter_filterMap_key Completed.listenerCall
    ListenerCall.submission
    (fun x y hxy => by
      obtain ⟨l, -, rfl⟩ := Option.map_eq_some_iff.mp hxy
      rfl) (nodup_delivered hi) hd
  refine ⟨hone, hother, d.request_eq, ?_, run_notifies h hd, fun t ht => ?_⟩
  · rw [ha.waiters, hwaiter, Delivery.waiterCall, d.waiter_eq]
  · rw [ha.listeners, hlistener, Completed.listenerCall, listener_of_notifiesAt h hd ht]

/-- **No lost and no duplicated request.**  Whatever the threads do, each accepted envelope is in
one of the four containers whenever `Run` is at the top of its loop; and a delivered one has had
each of its calls once, stays delivered, and is never attached or queued again. -/
theorem accepted_served_once (P : Setup C) (content : Nat → Option C) (actions : List (Action C))
    (s : Engine C) (h : run (step P) (started content) actions = some s) :
    (s.pc = .top → ∀ submission ∈ s.accepted, InOnePlace s submission) ∧
    ∀ d ∈ s.delivered, d.env.toSubmission ∈ s.accepted ∧
      ∀ more s', run (step P) s more = some s' →
        d ∈ s'.delivered ∧ ServedOnce P content (actions ++ more) s' d := by
  have hi : LedgerInv P s := run_ledgerInv h
  refine ⟨fun hpc submission hmem => inOnePlace hi (run_accounts h) hpc hmem,
    fun d hd => ⟨mem_accepted hi hd, fun more s' hmore => ?_⟩⟩
  have hwhole : run (step P) (started content) (actions ++ more) = some s' := by
    rw [run_append, h]
    exact hmore
  have hd' : d ∈ s'.delivered := (run_delivered hmore).subset hd
  exact ⟨hd', servedOnce hwhole hd'⟩

/-- A client whose requests are GETs with three attempts. -/
def getSetup : Setup RequestContent.TContent where
  platform := BlitzText.asciiPlatform
  strerror := fun _ => []
  contentMethods := RetryPolicy.builtinContent
  method := fun _ => .get
  sink := fun _ => none
  retry := fun _ => some { maxAttempts := 3 }

def tick : Action RequestContent.TContent := .client true 0 0

/-- A request with a listener that is answered by 503, and by 200 when it is repeated. -/
def retriedActions : List (Action RequestContent.TContent) :=
  .setListener 0 (some 5) :: .submit 0 (some 7) :: List.replicate 5 tick ++ .finish 0 ⟨0, 503, [], {}⟩ ::
    List.replicate 8 tick ++ .finish 0 ⟨0, 200, [], {}⟩ :: List.replicate 5 tick

theorem accepted_served_once_retried :
    ∃ s, run (step getSetup) (started fun _ => none) retriedActions = some s ∧
      s.delivered.length = 1 ∧ s.listenerCalls.map (·.listener) = [5] ∧
      (∀ submission ∈ s.accepted, InOnePlace s submission) ∧
      ∀ d ∈ s.delivered, ServedOnce getSetup (fun _ => none) (retriedActions ++ []) s d := by
  have hend : (run (step getSetup) (started fun _ => none) retriedActions).any (fun s =>
      decide (s.pc = .top ∧ s.delivered.length = 1 ∧ s.listenerCalls.map (·.listener) = [5])) =
        true := by
    decide +kernel
  obtain ⟨s, hrun, hs⟩ := (Option.any_eq_true _ _).mp hend
  obtain ⟨hpc, hdelivered, hcalls⟩ := of_decide_eq_true hs
  obtain ⟨hplaces, hserved⟩ := accepted_served_once _ _ _ s hrun
  exact ⟨s, hrun, hdelivered, hcalls, hplaces hpc, fun d hd => ((hserved d hd).2 [] s rfl).2⟩

end NetMod.ClientEngine
