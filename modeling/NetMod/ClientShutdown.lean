import NetMod.ClientAccounting

/-!
# What `Shutdown` does to the requests under way

`Run` leaves its loop when it finds `_running` false, and delivers nothing after that.  So a client
that has returned has served its requests exactly if none was left in a container when the loop was
left, and none was accepted afterwards: `all_served_iff`.
-/

namespace NetMod.ClientEngine

open NetMod.PartialRuns NetMod.RetryLedger

variable {C : Type} {P : Setup C} {s s' : Engine C}

/-- Every accepted envelope has had its result delivered. -/
def AllServed (P : Setup C) (content : Nat → Option C) (actions : List (Action C)) (s : Engine C) :
    Prop :=
  ∀ submission ∈ s.accepted,
    ∃ d ∈ s.delivered, d.env.toSubmission = submission ∧ ServedOnce P content actions s d

/-- No envelope waits or is under way. -/
def Emptied (s : Engine C) : Prop :=
  s.inQueue = [] ∧ s.attached = [] ∧ s.messages = [] ∧ s.retryQueue.data = []

/-- A `Submit` finds the queue closed. -/
def Refused (s : Engine C) : Action C → Prop
  | .submit .. => s.closed = true
  | _ => True

/-- `rest` is what happens from a point on at which `Run` is about to leave its loop. -/
structure LeavesAt (P : Setup C) (content : Nat → Option C) (actions rest : List (Action C))
    (s : Engine C) : Prop where
  reached : ∃ before, actions = before ++ rest ∧ run (step P) (started content) before = some s
  top : s.pc = .top
  stopped : s.running = false

/-! ### After the loop -/

/-- `Run` is leaving: it has tested `_running` for the last time, or will find it false. -/
def Leaving (s : Engine C) : Prop := s.running = false ∧ (s.pc = .top ∨ s.pc.past = true)

/-- **Once `Run` is leaving it stays so, and delivers nothing more.** -/
theorem step_leaving {a : Action C} (hl : Leaving s) (h : step P s a = some s') :
    Leaving s' ∧ s'.delivered = s.delivered := by
  obtain ⟨hrun, hpc⟩ := hl
  cases step_taken h with
  | clearRunning _ => exact ⟨⟨rfl, hpc⟩, rfl⟩
  | client _ _ _ _ hmoved =>
    cases hmoved with
    | enter _ hrun' => exact absurd (hrun.symm.trans hrun') Bool.false_ne_true
    | leave _ _ | left _ _ => exact ⟨⟨hrun, Or.inr rfl⟩, rfl⟩
    | discarded _ _ _ hpc' _ => exact ⟨⟨hrun, Or.inr (by rw [hpc']; rfl)⟩, rfl⟩
    | drained _ hpc' _ | popped _ _ hpc' _ | refused _ _ hpc' | attached _ _ hpc'
    | delivered _ _ hpc' | notified _ _ hpc' | noneDue _ hpc' _ | due _ _ _ hpc' _ _
    | performed hpc' | readNone hpc' _ | retried _ _ _ _ _ _ hpc' _ _ _
    | settled _ _ _ hpc' _ _ =>
      rw [hpc'] at hpc
      simp [Pc.past] at hpc
  | finish _ _ _ hpc' _ =>
    rw [hpc'] at hpc
    simp [Pc.past] at hpc
  | _ => exact ⟨⟨hrun, hpc⟩, rfl⟩

theorem run_leaving {rest : List (Action C)} (hl : Leaving s) (h : run (step P) s rest = some s') :
    Leaving s' ∧ s'.delivered = s.delivered :=
  run_invariant (fun t => Leaving t ∧ t.delivered = s.delivered)
    (fun _ _ _ hi hstep =>
      ⟨(step_leaving hi.1 hstep).1, (step_leaving hi.1 hstep).2.trans hi.2⟩) ⟨hl, rfl⟩ h

/-- The only way out of the loop is its test. -/
theorem past_moved (h : Moved P s s') (hpast : s'.pc.past = true) :
    s.pc.past = true ∨ s.pc = .top ∧ s.running = false := by
  cases h with
  | leave hpc hrun => exact Or.inr ⟨hpc, hrun⟩
  | left hpc _ | discarded _ _ _ hpc _ => exact Or.inl (by rw [hpc]; rfl)
  | attached _ resume _ | notified _ resume _ =>
    exact absurd (resume.past_pc.symm.trans hpast) Bool.false_ne_true
  | retried _ _ _ _ _ _ _ _ _ _ => exact Or.inl hpast
  | _ => exact absurd hpast Bool.false_ne_true

theorem past_step {a : Action C} (h : step P s a = some s') (hpast : s'.pc.past = true) :
    s.pc.past = true ∨ s.pc = .top ∧ s.running = false := by
  cases step_taken h with
  | client _ _ _ _ hmoved => exact past_moved hmoved hpast
  | _ => exact Or.inl hpast

/-- A client that has returned left its loop at some point. -/
theorem leavesAt_of_past {content : Nat → Option C} {actions : List (Action C)}
    (h : run (step P) (started content) actions = some s) (hpast : s.pc.past = true) :
    ∃ rest t, LeavesAt P content actions rest t := by
  induction actions using List.reverseRecOn generalizing s with
  | nil =>
    obtain rfl : started content = s := Option.some.inj h
    exact absurd hpast Bool.false_ne_true
  | append_singleton actions a ih =>
    rw [run_concat] at h
    obtain ⟨t, ht, hstep⟩ := Option.bind_eq_some_iff.mp h
    rcases past_step hstep hpast with hpast' | ⟨hpc, hrun⟩
    · obtain ⟨rest, u, ⟨before, rfl, hbefore⟩, htop, hstopped⟩ := ih ht hpast'
      exact ⟨rest ++ [a], u, ⟨before, List.append_assoc _ _ _, hbefore⟩, htop, hstopped⟩
    · exact ⟨[a], t, ⟨actions, rfl, ht⟩, hpc, hrun⟩

/-! ### What is accepted -/

theorem step_refused {a : Action C} (hok : Refused s a) (h : step P s a = some s') :
    s'.accepted = s.accepted := by
  cases step_taken h with
  | accepted request waiter hopen =>
    exact absurd (hopen.symm.trans hok) Bool.false_ne_true
  | client _ _ _ _ hmoved => exact moved_accepted hmoved
  | _ => rfl

theorem run_refused {rest : List (Action C)} (hok : Along (step P) Refused s rest)
    (h : run (step P) s rest = some s') : s'.accepted = s.accepted :=
  run_invariant_along (fun t => t.accepted = s.accepted)
    (fun _ _ _ hi ha hstep => (step_refused ha hstep).trans hi) rfl hok h

/-- What is accepted stays accepted. -/
theorem run_accepted {more : List (Action C)} (hi : LedgerInv P s)
    (h : run (step P) s more = some s') : LedgerInv P s' ∧ s.accepted <+: s'.accepted := by
  refine run_invariant (fun t => LedgerInv P t ∧ s.accepted <+: t.accepted)
    (fun t a t' ht hstep => ?_) ⟨hi, List.prefix_rfl⟩ h
  exact ⟨step_ledgerInv t a t' ht.1 hstep,
    ht.2.trans (step_refines ht.1.numbered hstep).accepted⟩

/-- A `Submit` that is not refused has its envelope accepted. -/
theorem accepted_of_not_refused {a : Action C} (hn : ¬ Refused s a) (h : step P s a = some s') :
    ∃ request waiter, (⟨s.accepted.length, request, waiter⟩ : Submission) ∈ s'.accepted := by
  cases step_taken h with
  | rejected request waiter hclosed => exact absurd hclosed hn
  | accepted request waiter _ =>
    exact ⟨request, waiter, List.mem_append_right _ (List.mem_singleton.mpr rfl)⟩
  | _ => exact absurd trivial hn

/-! ### When everything is served -/

/-- At the top of the loop everything is delivered exactly when the containers are empty. -/
theorem delivered_iff_emptied (hi : LedgerInv P s) (ha : Accounts s) (hpc : s.pc = .top) :
    (∀ submission ∈ s.accepted, ∃ d ∈ s.delivered, d.env.toSubmission = submission) ↔
      Emptied s := by
  have hplaces : Emptied s ↔ ∀ place, place ≠ .delivered → holds s place = [] := by
    constructor
    · intro hempty place hne
      obtain ⟨h1, h2, h3, h4⟩ := hempty
      cases place <;> simp_all [holds]
    · intro h
      have hmulti := h .multi (by simp)
      simp only [holds, List.append_eq_nil_iff, List.map_eq_nil_iff] at hmulti
      exact ⟨List.map_eq_nil_iff.mp (h .inQueue (by simp)), hmulti.1, hmulti.2,
        List.map_eq_nil_iff.mp (h .retryQueue (by simp))⟩
  rw [hplaces]
  constructor
  · intro hall place hne
    rw [List.eq_nil_iff_forall_not_mem]
    intro submission hmem
    obtain ⟨d, hd, rfl⟩ := hall submission (mem_accepted_of_holds hi hmem)
    exact (delivered_only hi hd).2.1 place hne hmem
  · intro hempty submission hmem
    obtain ⟨place, hone, -⟩ := inOnePlace hi ha hpc hmem
    by_cases hplace : place = .delivered
    · subst hplace
      have hin : submission ∈ holds s .delivered := List.count_pos_iff.mp (by omega)
      exact List.mem_map.mp hin
    · rw [hempty place hplace] at hone
      simp at hone

/-- **When a shutdown abandons nobody.**  A client that has returned left its loop at some point,
and it has served every accepted request if and only if no container held one there and every later
`Submit` found the queue closed. -/
theorem all_served_iff (P : Setup C) (content : Nat → Option C) (actions : List (Action C))
    (s : Engine C) (h : run (step P) (started content) actions = some s)
    (hreturned : s.pc = .returned) :
    (∃ rest t, LeavesAt P content actions rest t) ∧
      ∀ rest t, LeavesAt P content actions rest t →
        (AllServed P content actions s ↔ Emptied t ∧ Along (step P) Refused t rest) := by
  refine ⟨leavesAt_of_past h (by rw [hreturned]; rfl), fun rest t hleaves => ?_⟩
  obtain ⟨⟨before, rfl, hbefore⟩, htop, hstopped⟩ := hleaves
  have hrest : run (step P) t rest = some s := by
    rw [run_append, hbefore] at h
    exact h
  have hit : LedgerInv P t := run_ledgerInv hbefore
  have hleaving : Leaving t := ⟨hstopped, Or.inl htop⟩
  have hsame : s.delivered = t.delivered := (run_leaving hleaving hrest).2
  have hkept : t.accepted <+: s.accepted := (run_accepted hit hrest).2
  have hemptied := delivered_iff_emptied hit (run_accounts hbefore) htop
  constructor
  · intro hall
    refine ⟨hemptied.mp fun submission hmem => ?_, fun pre a post hsplit mid hmid => ?_⟩
    · obtain ⟨d, hd, hsub, -⟩ := hall submission (hkept.subset hmem)
      exact ⟨d, hsame ▸ hd, hsub⟩
    · -- an envelope accepted on the way out is new, and nothing new is delivered
      by_contra hn
      rw [hsplit, run_append, hmid, Option.bind_some, run_cons] at hrest
      obtain ⟨next, hstep, hpost⟩ := Option.bind_eq_some_iff.mp hrest
      have himid : LedgerInv P mid := (run_accepted hit hmid).1
      obtain ⟨request, waiter, hnew⟩ := accepted_of_not_refused hn hstep
      have hinext : LedgerInv P next := step_ledgerInv mid a next himid hstep
      obtain ⟨d, hd, hsub, -⟩ := hall _ ((run_accepted hinext hpost).2.subset hnew)
      have hdmid : d ∈ mid.delivered := by
        rw [(run_leaving hleaving hmid).2, ← hsame]
        exact hd
      exact himid.numbered.fresh request waiter (hsub ▸ mem_accepted himid hdmid)
  · intro hcond submission hmem
    obtain ⟨hempty, hrefused⟩ := hcond
    rw [run_refused hrefused hrest] at hmem
    obtain ⟨d, hd, hsub⟩ := hemptied.mpr hempty submission hmem
    have hds : d ∈ s.delivered := hsame ▸ hd
    exact ⟨d, hds, hsub, servedOnce h hds⟩

/-- A shutdown after the one request has been served. -/
def quietActions : List (Action RequestContent.TContent) :=
  retriedActions ++ [.clearRunning, .closeQueue, tick, tick]

theorem all_served_iff_quiet :
    ∃ s, run (step getSetup) (started fun _ => none) quietActions = some s ∧
      ∃ rest t, LeavesAt getSetup (fun _ => none) quietActions rest t ∧
        (AllServed getSetup (fun _ => none) quietActions s ↔
          Emptied t ∧ Along (step getSetup) Refused t rest) := by
  have hend : (run (step getSetup) (started fun _ => none) quietActions).any (fun s =>
      decide (s.pc = .returned)) = true := by
    decide +kernel
  obtain ⟨s, hrun, hs⟩ := (Option.any_eq_true _ _).mp hend
  obtain ⟨⟨rest, t, hleaves⟩, hiff⟩ := all_served_iff _ _ _ s hrun (of_decide_eq_true hs)
  exact ⟨s, hrun, rest, t, hleaves, hiff rest t hleaves⟩

/-- A request is accepted, and the client is shut down before it looks at its queue. -/
def abandonedActions : List (Action RequestContent.TContent) :=
  [.submit 0 (some 7), .clearRunning, .closeQueue, tick, tick]

theorem not_every_shutdown_serves :
    ¬ ∀ (P : Setup RequestContent.TContent) (content : Nat → Option RequestContent.TContent)
        (actions : List (Action RequestContent.TContent)) (s : Engine RequestContent.TContent),
        run (step P) (started content) actions = some s → s.pc = .returned →
          AllServed P content actions s := by
  intro hall
  have hend : (run (step getSetup) (started fun _ => none) abandonedActions).any (fun s =>
      decide (s.pc = .returned ∧ s.accepted = [⟨0, 0, some 7⟩] ∧ s.delivered = [])) = true := by
    decide +kernel
  obtain ⟨s, hrun, hs⟩ := (Option.any_eq_true _ _).mp hend
  obtain ⟨hreturned, haccepted, hdelivered⟩ := of_decide_eq_true hs
  have hserved := hall getSetup _ abandonedActions s hrun hreturned
  obtain ⟨d, hd, -⟩ := hserved ⟨0, 0, some 7⟩ (by rw [haccepted]; exact List.mem_singleton.mpr rfl)
  rw [hdelivered] at hd
  exact absurd hd List.not_mem_nil

end NetMod.ClientEngine
