import NetMod.Lib.Wakeups

/-!
# `TConcurrentQueue`: one queue for many threads

Each method holds `_lock`; `PopWait` waits at `_cv` while the queue is empty and open.  To its callers
the queue is a first-in-first-out queue whose methods are atomic (`queue_linearizes`), whatever the
interleaving, whomever a signal wakes, and with spurious wakeups.  Nobody sleeps through an item or
through `Close` (`nobody_stuck`), and after `Close` everybody returns (`everybody_returns`).
-/

namespace NetMod.ConcurrentQueue

open NetMod.PartialRuns NetMod.Monitors NetMod.Wakeups

/-! ### The methods -/

structure TConcurrentQueue (V : Type) where
  q : List V := []
  closed : Bool := false

inductive Call (V : Type) where
  | push (item : V)
  | close
  | popWait
  | tryPop
  | isClosed

/-- What a method gives: nothing, an exception, an item or `Null`, a truth value. -/
inductive Result (V : Type) where
  | returned
  | thrown
  | value (v : Option V)
  | flag (c : Bool)

/-- The statements of the methods, those at the end of several methods once. -/
inductive At (V : Type) where
  | pushTest (item : V)
  | pushAdd (item : V)
  | pushSignal
  | closeSet
  | closeBroadcast
  | popWaitTest
  | popWaitWait
  | remove
  | closedRead
  | returns
  | throws
  | gives (v : Option V)
  | tells (c : Bool)

/-- Where a method goes on behind `LockMutex _lock`. -/
def enter {V : Type} : Call V → At V
  | .push item => .pushTest item
  | .close => .closeSet
  | .popWait => .popWaitTest
  | .tryPop => .remove
  | .isClosed => .closedRead

def stmt {V : Type} (l : At V) (s : TConcurrentQueue V) : Stmt (TConcurrentQueue V) (Result V) (At V) :=
  match l with
  | .pushTest item => .next s (if s.closed then .throws else .pushAdd item)
  | .pushAdd item => .next { s with q := s.q ++ [item] } .pushSignal
  | .pushSignal => .signal .returns
  | .closeSet => .next { s with closed := true } .closeBroadcast
  | .closeBroadcast => .broadcast .returns
  | .popWaitTest => .next s (if s.q.isEmpty && !s.closed then .popWaitWait else .remove)
  | .popWaitWait => .wait .popWaitTest
  | .remove =>
    match s.q with
    | [] => .next s (.gives none)
    | v :: q => .next { s with q } (.gives (some v))
  | .closedRead => .next s (.tells s.closed)
  | .returns => .leave .returned
  | .throws => .leave .thrown
  | .gives v => .leave (.value v)
  | .tells c => .leave (.flag c)

def queue (V : Type) : Monitor (TConcurrentQueue V) (Call V) (Result V) (At V) where
  enter := enter
  stmt := stmt

/-- The queue and its callers. -/
abbrev Machine (T V : Type) := State T (TConcurrentQueue V) (Call V) (Result V) (At V)

/-! ### The atomic queue -/

/-- What the methods do at once.  `PopWait` waits on an empty queue that is open. -/
def atomic {V : Type} (op : Call V) (a : TConcurrentQueue V) : Option (Result V × TConcurrentQueue V) :=
  match op with
  | .push item => if a.closed then some (.thrown, a) else some (.returned, { a with q := a.q ++ [item] })
  | .close => some (.returned, { a with closed := true })
  | .popWait =>
    match a.q with
    | v :: q => some (.value (some v), { a with q })
    | [] => if a.closed then some (.value none, a) else none
  | .tryPop =>
    match a.q with
    | v :: q => some (.value (some v), { a with q })
    | [] => some (.value none, a)
  | .isClosed => some (.flag a.closed, a)

section

variable {V : Type}

/-- What holds behind a method's statements so far, where `a` is the queue at its beginning. -/
inductive Mid : Call V → At V → TConcurrentQueue V → TConcurrentQueue V → Prop
  | pushTest {item : V} {a : TConcurrentQueue V} : Mid (.push item) (.pushTest item) a a
  | throws {item : V} {a : TConcurrentQueue V} (h : a.closed = true) : Mid (.push item) .throws a a
  | pushAdd {item : V} {a : TConcurrentQueue V} (h : a.closed = false) : Mid (.push item) (.pushAdd item) a a
  | pushSignal {item : V} {a : TConcurrentQueue V} (h : a.closed = false) :
      Mid (.push item) .pushSignal { a with q := a.q ++ [item] } a
  | pushed {item : V} {a : TConcurrentQueue V} (h : a.closed = false) :
      Mid (.push item) .returns { a with q := a.q ++ [item] } a
  | closeSet {a : TConcurrentQueue V} : Mid .close .closeSet a a
  | closeBroadcast {a : TConcurrentQueue V} : Mid .close .closeBroadcast { a with closed := true } a
  | closed {a : TConcurrentQueue V} : Mid .close .returns { a with closed := true } a
  | popWaitTest {a : TConcurrentQueue V} : Mid .popWait .popWaitTest a a
  | popWaitWait {a : TConcurrentQueue V} : Mid .popWait .popWaitWait a a
  | popWaitRemove {a : TConcurrentQueue V} (h : a.q = [] → a.closed = true) : Mid .popWait .remove a a
  | tryPopRemove {a : TConcurrentQueue V} : Mid .tryPop .remove a a
  | gives {op : Call V} {v : Option V} {s a : TConcurrentQueue V} (h : atomic op a = some (.value v, s)) :
      Mid op (.gives v) s a
  | closedRead {a : TConcurrentQueue V} : Mid .isClosed .closedRead a a
  | tells {a : TConcurrentQueue V} : Mid .isClosed (.tells a.closed) a a

theorem Mid.next {op : Call V} {l l' : At V} {s s' a : TConcurrentQueue V} (h : Mid op l s a)
    (hstmt : stmt l s = .next s' l') : Mid op l' s' a := by
  cases h with
  | pushTest =>
    rw [stmt] at hstmt
    cases hclosed : s.closed with
    | true =>
      rw [hclosed] at hstmt
      cases hstmt
      exact .throws hclosed
    | false =>
      rw [hclosed] at hstmt
      cases hstmt
      exact .pushAdd hclosed
  | pushAdd hopen =>
    cases hstmt
    exact .pushSignal hopen
  | closeSet =>
    cases hstmt
    exact .closeBroadcast
  | popWaitTest =>
    rw [stmt] at hstmt
    cases htest : s.q.isEmpty && !s.closed with
    | true =>
      rw [htest] at hstmt
      cases hstmt
      exact .popWaitWait
    | false =>
      rw [htest] at hstmt
      cases hstmt
      refine .popWaitRemove fun hq => ?_
      rw [hq, List.isEmpty_nil, Bool.true_and, Bool.not_eq_false'] at htest
      exact htest
  | popWaitRemove hclosed =>
    rw [stmt] at hstmt
    cases hq : s.q with
    | nil =>
      rw [hq] at hstmt
      cases hstmt
      exact .gives (by rw [atomic, hq]; dsimp only; rw [if_pos (hclosed hq)])
    | cons v q =>
      rw [hq] at hstmt
      cases hstmt
      exact .gives (by rw [atomic, hq])
  | tryPopRemove =>
    rw [stmt] at hstmt
    cases hq : s.q with
    | nil =>
      rw [hq] at hstmt
      cases hstmt
      exact .gives (by rw [atomic, hq])
    | cons v q =>
      rw [hq] at hstmt
      cases hstmt
      exact .gives (by rw [atomic, hq])
  | closedRead =>
    cases hstmt
    exact .tells
  | _ => cases hstmt

theorem Mid.leave {op : Call V} {l : At V} {s a : TConcurrentQueue V} {r : Result V} (h : Mid op l s a)
    (hstmt : stmt l s = .leave r) : atomic op a = some (r, s) := by
  cases h with
  | throws hclosed =>
    cases hstmt
    rw [atomic, if_pos hclosed]
  | pushed hopen =>
    cases hstmt
    rw [atomic, if_neg (Bool.eq_false_iff.mp hopen)]
  | closed =>
    cases hstmt
    rfl
  | gives hspec =>
    cases hstmt
    exact hspec
  | tells =>
    cases hstmt
    rfl
  | popWaitRemove _ | tryPopRemove =>
    rw [stmt] at hstmt
    cases hq : s.q <;> rw [hq] at hstmt <;> cases hstmt
  | _ => cases hstmt

theorem Mid.signal {op : Call V} {l l' : At V} {s a : TConcurrentQueue V} (h : Mid op l s a)
    (hstmt : stmt l s = .signal l') : Mid op l' s a := by
  cases h with
  | pushSignal hopen =>
    cases hstmt
    exact .pushed hopen
  | popWaitRemove _ | tryPopRemove =>
    rw [stmt] at hstmt
    cases hq : s.q <;> rw [hq] at hstmt <;> cases hstmt
  | _ => cases hstmt

theorem Mid.broadcast {op : Call V} {l l' : At V} {s a : TConcurrentQueue V} (h : Mid op l s a)
    (hstmt : stmt l s = .broadcast l') : Mid op l' s a := by
  cases h with
  | closeBroadcast =>
    cases hstmt
    exact .closed
  | popWaitRemove _ | tryPopRemove =>
    rw [stmt] at hstmt
    cases hq : s.q <;> rw [hq] at hstmt <;> cases hstmt
  | _ => cases hstmt

theorem Mid.wait {op : Call V} {l l' : At V} {s a : TConcurrentQueue V} (h : Mid op l s a)
    (hstmt : stmt l s = .wait l') : s = a ∧ op = .popWait ∧ l' = .popWaitTest := by
  cases h with
  | popWaitWait =>
    cases hstmt
    exact ⟨rfl, rfl, rfl⟩
  | popWaitRemove _ | tryPopRemove =>
    rw [stmt] at hstmt
    cases hq : s.q <;> rw [hq] at hstmt <;> cases hstmt
  | _ => cases hstmt

/-- The queue does what the atomic queue does. -/
def refines (V : Type) : Refines (queue V) (atomic (V := V)) where
  rep := Eq
  mid := Mid
  sleeps op l := op = .popWait ∧ l = .popWaitTest
  enter := by
    rintro op s _ rfl
    cases op with
    | push item => exact .pushTest
    | close => exact .closeSet
    | popWait => exact .popWaitTest
    | tryPop => exact .tryPopRemove
    | isClosed => exact .closedRead
  wake := by
    rintro _ _ s _ ⟨rfl, rfl⟩ rfl
    exact .popWaitTest
  next := Mid.next
  signal := Mid.signal
  broadcast := Mid.broadcast
  wait := Mid.wait
  leave h hstmt := ⟨_, h.leave hstmt, rfl⟩

/-! ### First in, first out -/

def pushed (ops : List (Call V × Result V)) : List V :=
  ops.filterMap fun
    | (.push item, .returned) => some item
    | _ => none

def popped (ops : List (Call V × Result V)) : List V :=
  ops.filterMap fun
    | (_, .value v) => v
    | _ => none

/-- One method moves items from the front to its caller, or from its caller to the back. -/
theorem atomic_fifo {op : Call V} {r : Result V} {a b : TConcurrentQueue V} (h : atomic op a = some (r, b)) :
    a.q ++ pushed [(op, r)] = popped [(op, r)] ++ b.q ∧ (a.closed = true → b.closed = true) := by
  cases op with
  | push item =>
    rw [atomic] at h
    split at h
    · cases h
      exact ⟨List.append_nil _, id⟩
    · cases h
      exact ⟨rfl, id⟩
  | close =>
    cases h
    exact ⟨List.append_nil _, fun _ => rfl⟩
  | popWait =>
    rw [atomic] at h
    cases hq : a.q with
    | nil =>
      rw [hq] at h
      dsimp only at h
      split at h
      · cases h
        exact ⟨hq.symm, id⟩
      · cases h
    | cons v q =>
      rw [hq] at h
      cases h
      exact ⟨List.append_nil _, id⟩
  | tryPop =>
    rw [atomic] at h
    cases hq : a.q with
    | nil =>
      rw [hq] at h
      cases h
      exact ⟨hq.symm, id⟩
    | cons v q =>
      rw [hq] at h
      cases h
      exact ⟨List.append_nil _, id⟩
  | isClosed =>
    cases h
    exact ⟨List.append_nil _, id⟩

/-- What is taken out is what was put in, in the same order. -/
theorem serial_fifo {a b : TConcurrentQueue V} {ops : List (Call V × Result V)}
    (h : Serial atomic a ops b) : a.q ++ pushed ops = popped ops ++ b.q := by
  induction h with
  | nil => exact List.append_nil _
  | @cons a b c op r rest hop hrest ih =>
    have hfirst := (atomic_fifo hop).1
    have hpushed : pushed ((op, r) :: rest) = pushed [(op, r)] ++ pushed rest :=
      List.filterMap_append (l := [(op, r)])
    have hpopped : popped ((op, r) :: rest) = popped [(op, r)] ++ popped rest :=
      List.filterMap_append (l := [(op, r)])
    calc a.q ++ pushed ((op, r) :: rest) = popped [(op, r)] ++ (b.q ++ pushed rest) := by
          rw [hpushed, ← List.append_assoc, hfirst, List.append_assoc]
      _ = popped ((op, r) :: rest) ++ c.q := by rw [ih, hpopped, List.append_assoc]

/-- A closed queue takes nothing. -/
theorem serial_closed {a b : TConcurrentQueue V} {ops : List (Call V × Result V)}
    (h : Serial atomic a ops b) (hclosed : a.closed = true) : pushed ops = [] := by
  induction h with
  | nil => rfl
  | @cons a b c op r rest hop hrest ih =>
    have hpushed : pushed ((op, r) :: rest) = pushed [(op, r)] ++ pushed rest :=
      List.filterMap_append (l := [(op, r)])
    rw [hpushed, ih ((atomic_fifo hop).2 hclosed), List.append_nil]
    cases op with
    | push item =>
      rw [atomic, if_pos hclosed] at hop
      cases hop
      rfl
    | _ => rfl

theorem serial_split {a c : TConcurrentQueue V} {ops ops' : List (Call V × Result V)}
    (h : Serial atomic a (ops ++ ops') c) : ∃ b, Serial atomic a ops b ∧ Serial atomic b ops' c := by
  induction ops generalizing a with
  | nil => exact ⟨a, .nil, h⟩
  | cons e ops ih =>
    cases h with
    | cons hop hrest =>
      obtain ⟨b, hfirst, hthen⟩ := ih hrest
      exact ⟨b, .cons hop hfirst, hthen⟩

/-- The events of a run are those of the atomic queue. -/
structure Linearized {T : Type} [DecidableEq T] (events : List (Event T (Call V) (Result V)))
    (s : Machine T V) : Prop where
  atomic : ∃ a, Atomic.Run atomic ⟨{}, fun _ => .idle⟩ events a ∧ (s.holder = none → s.shared = a.object) ∧
    pushed (effects events) = popped (effects events) ++ a.object.q
  returned : ∀ {t op r}, Event.ret t op r ∈ events → (op, r) ∈ effects events
  refused : ∀ {before after}, effects events = before ++ (.close, .returned) :: after → pushed after = []

/-- **`TConcurrentQueue` cannot be told from the atomic queue**: in every run each method that has
returned had its effect at once after its call and before its return, what was taken out is a beginning
of what was put in, and nothing is put in after `Close`. -/
theorem queue_linearizes {T : Type} [Fintype T] [DecidableEq T] {labels : List (Label T (Call V))}
    {s : Machine T V} (h : run (queue V).step (State.initial {}) labels = some s) :
    Linearized ((queue V).history (State.initial {}) labels) s := by
  have hinitial : (refines V).Sim (State.initial {} : Machine T V) ⟨{}, fun _ => .idle⟩ :=
    Refines.sim_initial rfl
  obtain ⟨a, hrun, hsim⟩ := hinitial.run h
  have hserial := hrun.serial
  refine ⟨⟨a, hrun, hsim.free, serial_fifo hserial⟩, fun hret => ?_, fun {before after} hsplit => ?_⟩
  · exact (hrun.done_mem hret).resolve_left nofun
  · rw [hsplit] at hserial
    obtain ⟨b, -, hthen⟩ := serial_split hserial
    cases hthen with
    | cons hclose hafter =>
      cases hclose
      exact serial_closed hafter rfl

end

/-! ### Nobody sleeps through an item -/

section

variable {T V : Type} [Fintype T] [DecidableEq T]

/-- A thread that will look at the queue, or wake one that does. -/
def credit : At V → Nat
  | .popWaitTest | .remove | .pushSignal => 1
  | _ => 0

def wakesAll : At V → Bool
  | .closeBroadcast => true
  | _ => false

/-- The statements that are left of a method when the queue is closed. -/
def left : At V → Nat
  | .pushTest _ => 5
  | .pushAdd _ | .closeSet | .popWaitTest => 4
  | .pushSignal | .closeBroadcast | .remove | .closedRead => 3
  | .returns | .throws | .gives _ | .tells _ => 2
  | .popWaitWait => 0

/-- What a statement that goes on does for those that wait. -/
theorem stmt_next {l l' : At V} {s s' : TConcurrentQueue V} (h : stmt l s = .next s' l') :
    (s'.q.length = 0 ∨ s'.q.length + credit l ≤ s.q.length + credit l') ∧
    (s'.closed = true → s.closed = true ∧ wakesAll l = false ∨ wakesAll l' = true) ∧
    (∀ {l''}, stmt l' s' = .wait l'' → s'.q.length = 0 ∧ s'.closed = false) ∧
    (s.closed = true → s'.closed = true ∧ left l' < left l) := by
  cases l with
  | pushTest item =>
    rw [stmt] at h
    cases hclosed : s.closed with
    | true =>
      rw [hclosed] at h
      cases h
      exact ⟨.inr le_rfl, fun _ => .inl ⟨rfl, rfl⟩, nofun, fun _ => ⟨hclosed, Nat.le_of_ble_eq_true rfl⟩⟩
    | false =>
      rw [hclosed] at h
      cases h
      exact ⟨.inr le_rfl, fun hc => absurd (hc.symm.trans hclosed) (by decide), nofun, nofun⟩
  | pushAdd item =>
    cases h
    refine ⟨.inr ?_, fun hc => .inl ⟨hc, rfl⟩, nofun, fun hc => ⟨hc, Nat.le_of_ble_eq_true rfl⟩⟩
    rw [List.length_append]
    exact le_rfl
  | closeSet =>
    cases h
    exact ⟨.inr le_rfl, fun _ => .inr rfl, nofun, fun _ => ⟨rfl, Nat.le_of_ble_eq_true rfl⟩⟩
  | popWaitTest =>
    rw [stmt] at h
    cases htest : s.q.isEmpty && !s.closed with
    | true =>
      rw [htest] at h
      cases h
      rw [Bool.and_eq_true, List.isEmpty_iff, Bool.not_eq_true'] at htest
      have hlen : s.q.length = 0 := by rw [htest.1]; rfl
      exact ⟨.inl hlen, fun hc => .inl ⟨hc, rfl⟩, fun _ => ⟨hlen, htest.2⟩,
        fun hc => absurd (hc.symm.trans htest.2) (by decide)⟩
    | false =>
      rw [htest] at h
      cases h
      refine ⟨.inr le_rfl, fun hc => .inl ⟨hc, rfl⟩, fun {l''} hwait => ?_,
        fun hc => ⟨hc, Nat.le_of_ble_eq_true rfl⟩⟩
      change stmt .remove s = _ at hwait
      rw [stmt] at hwait
      cases hq : s.q <;> rw [hq] at hwait <;> cases hwait
  | remove =>
    rw [stmt] at h
    cases hq : s.q with
    | nil =>
      rw [hq] at h
      cases h
      exact ⟨.inl (by rw [hq]; rfl), fun hc => .inl ⟨hc, rfl⟩, nofun,
        fun hc => ⟨hc, Nat.le_of_ble_eq_true rfl⟩⟩
    | cons v q =>
      rw [hq] at h
      cases h
      exact ⟨.inr le_rfl, fun hc => .inl ⟨hc, rfl⟩, nofun, fun hc => ⟨hc, Nat.le_of_ble_eq_true rfl⟩⟩
  | closedRead =>
    cases h
    exact ⟨.inr le_rfl, fun hc => .inl ⟨hc, rfl⟩, nofun, fun hc => ⟨hc, Nat.le_of_ble_eq_true rfl⟩⟩
  | _ => cases h

/-- The other statements. -/
theorem stmt_other (l : At V) (s : TConcurrentQueue V) :
    (∀ {l'}, stmt l s = .signal l' → l = .pushSignal ∧ l' = .returns) ∧
    (∀ {l'}, stmt l s = .broadcast l' → l = .closeBroadcast ∧ l' = .returns) ∧
    (∀ {l'}, stmt l s = .wait l' → l = .popWaitWait ∧ l' = .popWaitTest) ∧
    ∀ {r}, stmt l s = .leave r → credit l = 0 ∧ wakesAll l = false ∧ 1 < left l := by
  cases l with
  | remove =>
    rw [stmt]
    cases s.q <;> exact ⟨nofun, nofun, nofun, nofun⟩
  | pushSignal => exact ⟨by rintro _ ⟨⟩; exact ⟨rfl, rfl⟩, nofun, nofun, nofun⟩
  | closeBroadcast => exact ⟨nofun, by rintro _ ⟨⟩; exact ⟨rfl, rfl⟩, nofun, nofun⟩
  | popWaitWait => exact ⟨nofun, nofun, by rintro _ ⟨⟩; exact ⟨rfl, rfl⟩, nofun⟩
  | returns | throws | gives _ | tells _ =>
    exact ⟨nofun, nofun, nofun, fun _ => ⟨rfl, rfl, Nat.le_of_ble_eq_true rfl⟩⟩
  | _ => exact ⟨nofun, nofun, nofun, nofun⟩

/-- There is something for as many as there are items, and for everyone in a closed queue. -/
def wakeups (V : Type) : Balance (queue V) where
  demand s := s.q.length
  everyone s := s.closed
  credit := credit
  wakesAll := wakesAll
  sleeps l := l = .popWaitTest
  left := left
  most := 5
  left_le l := by cases l <;> exact Nat.le_of_ble_eq_true rfl
  sleeps_credit := by
    rintro _ rfl
    exact ⟨le_rfl, Nat.le_of_ble_eq_true rfl⟩
  enter := by
    intro op s l hwait
    obtain ⟨henter, -⟩ := (stmt_other (enter op) s).2.2.1 hwait
    cases op <;> cases henter
  wake := by
    rintro _ s l rfl hwait
    obtain ⟨htest, -⟩ := (stmt_other .popWaitTest s).2.2.1 hwait
    cases htest
  next := stmt_next
  signal := by
    intro l s l' hstmt
    obtain ⟨rfl, rfl⟩ := (stmt_other l s).1 hstmt
    exact ⟨le_rfl, Nat.le_of_ble_eq_true rfl, nofun⟩
  broadcast := by
    intro l s l' hstmt
    obtain ⟨rfl, rfl⟩ := (stmt_other l s).2.1 hstmt
    exact ⟨Nat.le_of_ble_eq_true rfl, nofun⟩
  wait hstmt := ((stmt_other _ _).2.2.1 hstmt).2
  leave hstmt := (stmt_other _ _).2.2.2 hstmt

omit [Fintype T] [DecidableEq T] in
theorem alone (s : Machine T V) : (wakeups V).Alone s :=
  .inl fun {l s _} hstmt => by
    obtain ⟨rfl, -⟩ := (stmt_other l s).1 hstmt
    rfl

theorem awake_run {labels : List (Label T (Call V))} {s : Machine T V}
    (h : run (queue V).step (State.initial {}) labels = some s) : (wakeups V).Awake s :=
  (Balance.awake_initial {}).run (fun _ _ _ _ s _ => alone s) h

/-- **Nobody sleeps through an item**: while somebody sleeps, as many threads as there are items will look
at the queue or wake one that does; and where no thread can go on by itself, everybody has returned or
waits in `PopWait` on an empty queue that is open. -/
theorem nobody_stuck {labels : List (Label T (Call V))} {s : Machine T V}
    (h : run (queue V).step (State.initial {}) labels = some s) :
    (NobodyAsleep s ∨ s.shared.q.length ≤ total (wakeups V).creditOf s.pc) ∧
      ((queue V).Stuck s → ∀ t, s.pc t = .outside ∨
        (s.pc t).isAsleep = true ∧ s.shared.q.length = 0 ∧ s.shared.closed = false) :=
  ⟨(awake_run h).enough, (awake_run h).stuck⟩

/-- **After `Close` everybody returns**: without new calls a run of a closed queue ends, after at most six
steps for each thread, and where it ends every method has returned. -/
theorem everybody_returns {labels labels' : List (Label T (Call V))} {s s' : Machine T V}
    (h : run (queue V).step (State.initial {}) labels = some s) (hclosed : s.shared.closed = true)
    (hcalls : ∀ t op, Label.call t op ∉ labels') (h' : run (queue V).step s labels' = some s') :
    labels'.length ≤ 6 * Fintype.card T ∧ ((queue V).Stuck s' → ∀ t, s'.pc t = .outside) :=
  (awake_run h).returns hcalls (fun _ _ _ _ s _ => alone s) hclosed h'

end

/-- Thread 0 waits, thread 1 pushes an item, and the signal wakes thread 0. -/
def handedOver : List (Label (Fin 2) (Call Nat)) :=
  [.call 0 .popWait, .lock 0, .exec 0 none, .exec 0 none, .call 1 (.push 7), .lock 1, .exec 1 none,
    .exec 1 none, .exec 1 (some 0), .exec 1 none, .ret 1, .lock 0, .exec 0 none, .exec 0 none,
    .exec 0 none, .ret 0]

theorem handedOver_runs : (run (queue Nat).step (State.initial {}) handedOver).isSome = true := by decide

/-- The state in which the item has been handed over. -/
def handedState : Machine (Fin 2) Nat := (run (queue Nat).step (State.initial {}) handedOver).get handedOver_runs

/-- `queue_linearizes` at an item that is handed over. -/
theorem queue_linearizes_handedOver :
    Linearized ((queue Nat).history (State.initial {}) handedOver) handedState ∧
      effects ((queue Nat).history (State.initial {}) handedOver) =
        [(.push 7, .returned), (.popWait, .value (some 7))] :=
  ⟨queue_linearizes (Option.some_get handedOver_runs).symm, rfl⟩

/-- Threads 0 and 2 wait, thread 1 pushes an item, and the signal wakes thread 0. -/
def signalled : List (Label (Fin 3) (Call Nat)) :=
  [.call 0 .popWait, .lock 0, .exec 0 none, .exec 0 none, .call 2 .popWait, .lock 2, .exec 2 none,
    .exec 2 none, .call 1 (.push 7), .lock 1, .exec 1 none, .exec 1 none, .exec 1 (some 0)]

theorem signalled_runs : (run (queue Nat).step (State.initial {}) signalled).isSome = true := by decide

/-- The state in which thread 2 sleeps while there is an item. -/
def signalledState : Machine (Fin 3) Nat := (run (queue Nat).step (State.initial {}) signalled).get signalled_runs

/-- `nobody_stuck` at a thread that sleeps while there is an item: there is one that will take it. -/
theorem nobody_stuck_signalled :
    (signalledState.pc 2).isAsleep = true ∧ signalledState.shared.q = [7] ∧
      1 ≤ total (wakeups Nat).creditOf signalledState.pc ∧ ¬ (queue Nat).Stuck signalledState := by
  obtain ⟨henough, hstuck⟩ := nobody_stuck (Option.some_get signalled_runs).symm
  have hasleep : (signalledState.pc 2).isAsleep = true := rfl
  refine ⟨hasleep, rfl, henough.resolve_left (fun hnobody => ?_), fun h => ?_⟩
  · exact absurd (hasleep.symm.trans (hnobody 2)) (by decide)
  · rcases hstuck h 2 with houtside | ⟨-, hempty, -⟩
    · cases houtside
    · cases hempty

/-- Thread 0 waits while thread 1 closes the queue. -/
def closedUpon : List (Label (Fin 2) (Call Nat)) :=
  [.call 0 .popWait, .lock 0, .exec 0 none, .exec 0 none, .call 1 .close, .lock 1, .exec 1 none]

theorem closedUpon_runs : (run (queue Nat).step (State.initial {}) closedUpon).isSome = true := by decide

/-- The state in which the queue is closed and thread 0 still sleeps. -/
def closedState : Machine (Fin 2) Nat := (run (queue Nat).step (State.initial {}) closedUpon).get closedUpon_runs

/-- All are woken and return. -/
def afterClose : List (Label (Fin 2) (Call Nat)) :=
  [.exec 1 none, .exec 1 none, .ret 1, .lock 0, .exec 0 none, .exec 0 none, .exec 0 none, .ret 0]

theorem afterClose_runs : (run (queue Nat).step closedState afterClose).isSome = true := by decide

/-- The state in which everybody has returned. -/
def returnedState : Machine (Fin 2) Nat := (run (queue Nat).step closedState afterClose).get afterClose_runs

/-- `everybody_returns` at a thread that waits when the queue is closed. -/
theorem everybody_returns_closedUpon :
    afterClose.length ≤ 12 ∧ ((queue Nat).Stuck returnedState → ∀ t, returnedState.pc t = .outside) :=
  everybody_returns (Option.some_get closedUpon_runs).symm rfl
    (by intro t op h; simp [afterClose] at h) (Option.some_get afterClose_runs).symm

end NetMod.ConcurrentQueue
