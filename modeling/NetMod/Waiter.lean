import NetMod.Lib.Wakeups

/-!
# `TWaiter`: the result that `Send` waits for

`Send` makes a waiter, submits its request with it and calls `Await`; the thread of the client calls
`Deliver`.  To its callers a waiter is a cell that `Await` reads once it is filled.  `Deliver` wakes one
thread only, which is enough for the one thread that awaits (`await_gets_result`).
-/

namespace NetMod.Waiter

open NetMod.PartialRuns NetMod.Monitors NetMod.Wakeups

structure TWaiter (V : Type) where
  done : Bool := false
  res : Option V := none

inductive Call (V : Type) where
  | deliver (result : V)
  | await

inductive At (V : Type) where
  | deliverRes (result : V)
  | deliverDone
  | deliverSignal
  | delivered
  | awaitTest
  | awaitWait
  | awaitRead
  | awaited (r : Option V)

def enter {V : Type} : Call V → At V
  | .deliver result => .deliverRes result
  | .await => .awaitTest

/-- What a method gives: nothing, or the result. -/
abbrev Result (V : Type) := Option (Option V)

def stmt {V : Type} (l : At V) (s : TWaiter V) : Stmt (TWaiter V) (Result V) (At V) :=
  match l with
  | .deliverRes result => .next { s with res := some result } .deliverDone
  | .deliverDone => .next { s with done := true } .deliverSignal
  | .deliverSignal => .signal .delivered
  | .delivered => .leave none
  | .awaitTest => .next s (if !s.done then .awaitWait else .awaitRead)
  | .awaitWait => .wait .awaitTest
  | .awaitRead => .next s (.awaited s.res)
  | .awaited r => .leave (some r)

def waiter (V : Type) : Monitor (TWaiter V) (Call V) (Result V) (At V) where
  enter := enter
  stmt := stmt

/-- A waiter and its callers. -/
abbrev Machine (T V : Type) := State T (TWaiter V) (Call V) (Result V) (At V)

/-! ### The cell -/

/-- A cell that `Await` reads once it is filled. -/
def cell {V : Type} (op : Call V) (a : Option V) : Option (Result V × Option V) :=
  match op with
  | .deliver result => some (none, some result)
  | .await => a.map fun r => (some (some r), a)

section

variable {V : Type}

/-- The cell a waiter stands for. -/
def contents (s : TWaiter V) : Option V := if s.done then s.res else none

/-- A waiter is done only with a result. -/
def Filled (s : TWaiter V) : Prop := s.done = true → s.res.isSome

/-- What holds behind a method's statements so far, where `a` is the cell at its beginning. -/
inductive Mid : Call V → At V → TWaiter V → Option V → Prop
  | deliverRes {result : V} {s : TWaiter V} (h : Filled s) :
      Mid (.deliver result) (.deliverRes result) s (contents s)
  | deliverDone {result : V} {s : TWaiter V} {a : Option V} (h : s.res = some result) :
      Mid (.deliver result) .deliverDone s a
  | deliverSignal {result : V} {s : TWaiter V} {a : Option V} (h : s.res = some result ∧ s.done = true) :
      Mid (.deliver result) .deliverSignal s a
  | delivered {result : V} {s : TWaiter V} {a : Option V} (h : s.res = some result ∧ s.done = true) :
      Mid (.deliver result) .delivered s a
  | awaitTest {s : TWaiter V} (h : Filled s) : Mid .await .awaitTest s (contents s)
  | awaitWait {s : TWaiter V} (h : Filled s) : Mid .await .awaitWait s (contents s)
  | awaitRead {s : TWaiter V} (h : Filled s ∧ s.done = true) : Mid .await .awaitRead s (contents s)
  | awaited {s : TWaiter V} (h : Filled s ∧ s.done = true) : Mid .await (.awaited s.res) s (contents s)

theorem contents_done {s : TWaiter V} (h : s.done = true) : contents s = s.res := if_pos h

/-- The waiter does what the cell does. -/
def refines (V : Type) : Refines (waiter V) (cell (V := V)) where
  rep s a := Filled s ∧ a = contents s
  mid := Mid
  sleeps op l := op = .await ∧ l = .awaitTest
  enter := by
    rintro op s _ ⟨hfilled, rfl⟩
    cases op with
    | deliver result => exact .deliverRes hfilled
    | await => exact .awaitTest hfilled
  wake := by
    rintro _ _ s _ ⟨rfl, rfl⟩ ⟨hfilled, rfl⟩
    exact .awaitTest hfilled
  next := by
    intro op l l' s s' a h hstmt
    cases h with
    | deliverRes hfilled =>
      cases hstmt
      exact .deliverDone rfl
    | deliverDone hres =>
      cases hstmt
      exact .deliverSignal ⟨hres, rfl⟩
    | awaitTest hfilled =>
      obtain ⟨rfl, rfl⟩ := Stmt.next.inj hstmt
      cases hdone : s.done with
      | true => exact .awaitRead ⟨hfilled, hdone⟩
      | false => exact .awaitWait hfilled
    | awaitRead h =>
      cases hstmt
      exact .awaited h
    | _ => cases hstmt
  signal := by
    intro op l l' s a h hstmt
    cases h with
    | deliverSignal h =>
      cases hstmt
      exact .delivered h
    | _ => cases hstmt
  broadcast := by
    intro op l l' s a h hstmt
    cases h <;> cases hstmt
  wait := by
    intro op l l' s a h hstmt
    cases h with
    | awaitWait hfilled =>
      cases hstmt
      exact ⟨⟨hfilled, rfl⟩, rfl, rfl⟩
    | _ => cases hstmt
  leave := by
    intro op l s a r h hstmt
    cases h with
    | delivered h =>
      cases hstmt
      refine ⟨_, rfl, fun _ => ?_, ?_⟩
      · rw [h.1]
        rfl
      · rw [contents_done h.2, h.1]
    | awaited h =>
      cases hstmt
      obtain ⟨r, hr⟩ := Option.isSome_iff_exists.mp (h.1 h.2)
      refine ⟨_, ?_, h.1, rfl⟩
      rw [contents_done h.2, hr]
      rfl
    | _ => cases hstmt

end

/-! ### The one that awaits -/

section

variable {V : Type}

def credit : At V → Nat
  | .awaitTest => 1
  | _ => 0

def wakesAll : At V → Bool
  | .deliverSignal => true
  | _ => false

/-- The statements that are left of a method when there is a result. -/
def left : At V → Nat
  | .deliverRes _ => 5
  | .deliverDone | .awaitTest => 4
  | .deliverSignal | .awaitRead => 3
  | .delivered | .awaited _ => 2
  | .awaitWait => 0

theorem stmt_next {l l' : At V} {s s' : TWaiter V} (h : stmt l s = .next s' l') :
    (s'.done = true → s.done = true ∧ wakesAll l = false ∨ wakesAll l' = true) ∧
    (∀ {l''}, stmt l' s' = .wait l'' → s'.done = false) ∧
    (s.done = true → s'.done = true ∧ left l' < left l) := by
  cases l with
  | deliverRes result =>
    cases h
    exact ⟨fun hd => .inl ⟨hd, rfl⟩, nofun, fun hd => ⟨hd, Nat.le_of_ble_eq_true rfl⟩⟩
  | deliverDone =>
    cases h
    exact ⟨fun _ => .inr rfl, nofun, fun _ => ⟨rfl, Nat.le_of_ble_eq_true rfl⟩⟩
  | awaitTest =>
    rw [stmt] at h
    cases hdone : s.done with
    | true =>
      rw [hdone] at h
      cases h
      exact ⟨fun _ => .inl ⟨rfl, rfl⟩, nofun, fun _ => ⟨hdone, Nat.le_of_ble_eq_true rfl⟩⟩
    | false =>
      rw [hdone] at h
      cases h
      exact ⟨fun hd => absurd (hd.symm.trans hdone) (by decide), fun _ => hdone, nofun⟩
  | awaitRead =>
    cases h
    exact ⟨fun hd => .inl ⟨hd, rfl⟩, nofun, fun hd => ⟨hd, Nat.le_of_ble_eq_true rfl⟩⟩
  | _ => cases h

/-- A result is for everyone that awaits. -/
def wakeups (V : Type) : Balance (waiter V) where
  demand _ := 0
  everyone s := s.done
  credit := credit
  wakesAll := wakesAll
  sleeps l := l = .awaitTest
  left := left
  most := 5
  left_le l := by cases l <;> exact Nat.le_of_ble_eq_true rfl
  sleeps_credit := by
    rintro _ rfl
    exact ⟨le_rfl, Nat.le_of_ble_eq_true rfl⟩
  enter := by
    intro op s l hwait
    cases op <;> cases hwait
  wake := by
    rintro _ s l rfl hwait
    cases hwait
  next hstmt := by
    obtain ⟨hclosing, htested, hleft⟩ := stmt_next hstmt
    exact ⟨.inl rfl, hclosing, fun hwait => ⟨rfl, htested hwait⟩, hleft⟩
  signal := by
    intro l s l' hstmt
    cases l with
    | deliverSignal =>
      cases hstmt
      exact ⟨Nat.zero_le _, Nat.le_of_ble_eq_true rfl, nofun⟩
    | _ => cases hstmt
  broadcast := by
    intro l s l' hstmt
    cases l <;> cases hstmt
  wait := by
    intro l s l' hstmt
    cases l with
    | awaitWait =>
      cases hstmt
      rfl
    | _ => cases hstmt
  leave := by
    intro l s r hstmt
    cases l with
    | delivered | awaited _ => exact ⟨rfl, rfl, Nat.le_of_ble_eq_true rfl⟩
    | _ => cases hstmt

end

section

variable {T V : Type} [Fintype T] [DecidableEq T]

/-- Where only `t` awaits nobody else sleeps. -/
theorem alone_run {t : T} {labels : List (Label T (Call V))} (hcalls : ∀ u, Label.call u .await ∈ labels → u = t)
    {s : Machine T V} (h : run (waiter V).step (State.initial {}) labels = some s) : (wakeups V).Alone s := by
  have hinitial : (refines V).Sim (State.initial {} : Machine T V) ⟨none, fun _ => .idle⟩ :=
    Refines.sim_initial ⟨nofun, rfl⟩
  obtain ⟨_, -, hsim⟩ := hinitial.run h
  have hops : ∀ u op, (s.pc u).op? = some op → op = .await → u = t :=
    Monitor.calls_run h nofun fun u op hmem hop => hcalls u (hop ▸ hmem)
  have hone : ∀ {u}, (s.pc u).isAsleep = true → u = t := by
    intro u hu
    obtain ⟨op, l, hpc⟩ := Pc.exists_of_isAsleep hu
    have hwaits := hsim.waiting u
    rw [hpc] at hwaits
    exact hops u op (by rw [hpc]; rfl) hwaits.1
  exact .inr fun hu hv => (hone hu).trans (hone hv).symm

theorem awake_run {t : T} {labels : List (Label T (Call V))} (hcalls : ∀ u, Label.call u .await ∈ labels → u = t)
    {s : Machine T V} (h : run (waiter V).step (State.initial {}) labels = some s) : (wakeups V).Awake s := by
  refine (Balance.awake_initial {}).run (fun before i after hsplit mid hmid => ?_) h
  refine alone_run (fun u hu => hcalls u ?_) hmid
  rw [hsplit]
  exact List.mem_append_left _ hu

/-- The results that are delivered. -/
def delivered (ops : List (Call V × Result V)) : List V :=
  ops.filterMap fun
    | (.deliver result, _) => some result
    | _ => none

omit [Fintype T] [DecidableEq T] in
/-- `Await` reads what was delivered last. -/
theorem serial_await {a b : Option V} {before after : List (Call V × Result V)} {r : Result V}
    (h : Serial cell a (before ++ (.await, r) :: after) b) (ha : a = none) :
    ∃ v, r = some (some v) ∧ (delivered before).getLast? = some v := by
  suffices hgen : ∀ {a}, Serial cell a (before ++ (.await, r) :: after) b →
      ∃ v, r = some (some v) ∧ (delivered before).getLast?.or a = some v by
    obtain ⟨v, hr, hv⟩ := hgen h
    rw [ha, Option.or_none] at hv
    exact ⟨v, hr, hv⟩
  clear h ha a
  intro a h
  induction before generalizing a with
  | nil =>
    cases h with
    | cons hop hrest =>
      obtain ⟨v, hv, heq⟩ := Option.map_eq_some_iff.mp hop
      cases heq
      exact ⟨v, rfl, hv⟩
  | cons e before ih =>
    cases h with
    | @cons _ c _ op r' _ hop hrest =>
      obtain ⟨v, hr, hv⟩ := ih hrest
      refine ⟨v, hr, ?_⟩
      cases op with
      | deliver result =>
        cases hop
        have hcons : delivered ((Call.deliver result, none) :: before) = result :: delivered before := rfl
        rw [hcons, List.getLast?_cons]
        cases hlast : (delivered before).getLast? with
        | none =>
          rw [hlast] at hv
          exact hv
        | some w =>
          rw [hlast] at hv
          exact hv
      | await =>
        obtain ⟨w, -, heq⟩ := Option.map_eq_some_iff.mp hop
        cases heq
        exact hv

/-- What one thread that awaits can rely on: each method has its effect on the cell between its call and
its return. -/
structure Heard (events : List (Event T (Call V) (Result V))) (s : Machine T V) : Prop where
  atomic : ∃ a, Atomic.Run cell ⟨none, fun _ => .idle⟩ events a ∧
    (s.holder = none → a.object = contents s.shared)
  returned : ∀ {t op r}, Event.ret t op r ∈ events → (op, r) ∈ effects events
  result : ∀ {before r after}, effects events = before ++ (.await, r) :: after →
    ∃ v, r = some (some v) ∧ (delivered before).getLast? = some v
  ends : s.shared.done = true → ∀ {labels : List (Label T (Call V))} {s' : Machine T V},
    (∀ t op, Label.call t op ∉ labels) → run (waiter V).step s labels = some s' →
    labels.length ≤ 6 * Fintype.card T ∧ ((waiter V).Stuck s' → ∀ t, s'.pc t = .outside)

/-- **`Await` gets the result**: in every run in which one thread awaits, `Await` returns what was delivered
last before it read, never `Null`; and once there is a result, everybody returns. -/
theorem await_gets_result {t : T} {labels : List (Label T (Call V))}
    (hcalls : ∀ u, Label.call u .await ∈ labels → u = t) {s : Machine T V}
    (h : run (waiter V).step (State.initial {}) labels = some s) :
    Heard ((waiter V).history (State.initial {}) labels) s := by
  have hinitial : (refines V).Sim (State.initial {} : Machine T V) ⟨none, fun _ => .idle⟩ :=
    Refines.sim_initial ⟨nofun, rfl⟩
  obtain ⟨a, hrun, hsim⟩ := hinitial.run h
  refine ⟨⟨a, hrun, fun hfree => (hsim.free hfree).2⟩, fun hret => (hrun.done_mem hret).resolve_left nofun, fun hsplit => ?_,
    fun hdone labels' s' hnone h' => ?_⟩
  · have hserial := hrun.serial
    rw [hsplit] at hserial
    exact serial_await hserial rfl
  · refine (awake_run hcalls h).returns hnone (fun before i after hsplit mid hmid => ?_) hdone h'
    have hto : run (waiter V).step (State.initial {}) (labels ++ before) = some mid := by
      rw [run_append, h]
      exact hmid
    refine alone_run (fun u hu => hcalls u ((List.mem_append.mp hu).resolve_right fun hmem => ?_)) hto
    exact hnone u .await (hsplit ▸ List.mem_append_left _ hmem)

end

/-- One thread waits, the other delivers, and the signal wakes the first. -/
def sent : List (Label Bool (Call Nat)) :=
  [.call false .await, .lock false, .exec false none, .exec false none, .call true (.deliver 7), .lock true,
    .exec true none, .exec true none, .exec true (some false), .exec true none, .lock false, .exec false none,
    .exec false none, .exec false none, .ret false]

theorem sent_runs : (run (waiter Nat).step (State.initial {}) sent).isSome = true := by decide

/-- `await_gets_result` at a waiter that a signal wakes. -/
theorem await_gets_result_sent :
    Heard ((waiter Nat).history (State.initial {}) sent)
        ((run (waiter Nat).step (State.initial {}) sent).get sent_runs) ∧
      effects ((waiter Nat).history (State.initial {}) sent) =
        [(.deliver 7, none), (.await, some (some 7))] := by
  have hcalls : ∀ u, Label.call u .await ∈ sent → u = false := by
    intro u hu
    simpa [sent] using hu
  exact ⟨await_gets_result hcalls (Option.some_get sent_runs).symm, rfl⟩

end NetMod.Waiter
