import Mathlib.Algebra.BigOperators.Group.Finset.Basic
import Mathlib.Algebra.Order.BigOperators.Group.Finset
import Mathlib.Data.Fintype.Basic
import NetMod.Lib.PartialRuns

/-!
# Objects behind a mutex and a condition variable

The methods of a monitor lock one mutex, execute their statements with it, and may wait at one
condition variable.  The scheduler chooses which thread goes on, who gets the mutex, whom a signal
wakes, and it may wake a sleeper for no reason.

An atomic object does each method in one step between the call and the return.  A monitor whose
methods meet the conditions of `Refines` cannot be told from it (`Refines.Sim.run`): the calls and
returns of every run are those of an atomic run.
-/

namespace NetMod.Monitors

open NetMod.PartialRuns

/-! ### Monitors and their runs -/

/-- What a statement of a method does while its thread holds the mutex. -/
inductive Stmt (σ R L : Type*) where
  | next (shared : σ) (l : L)
  | signal (l : L)
  | broadcast (l : L)
  | wait (l : L)
  | leave (r : R)

/-- The methods of an object: where they begin, and their statements. -/
structure Monitor (σ Op R L : Type*) where
  enter : Op → L
  stmt : L → σ → Stmt σ R L

/-- Where a thread is. -/
inductive Pc (Op R L : Type*) where
  | outside
  | entering (op : Op)
  | inside (op : Op) (l : L)
  | asleep (op : Op) (l : L)
  | woken (op : Op) (l : L)
  | leaving (op : Op) (r : R)

namespace Pc

variable {Op R L : Type*}

def isInside : Pc Op R L → Bool
  | inside _ _ => true
  | _ => false

def isAsleep : Pc Op R L → Bool
  | asleep _ _ => true
  | _ => false

/-- A sleeper wakes. -/
def wake : Pc Op R L → Pc Op R L
  | asleep op l => woken op l
  | pc => pc

end Pc

structure State (T σ Op R L : Type*) where
  shared : σ
  holder : Option T
  pc : T → Pc Op R L

/-- A step of a thread.  `woken` is whom a signal wakes. -/
inductive Label (T Op : Type*) where
  | call (t : T) (op : Op)
  | lock (t : T)
  | exec (t : T) (woken : Option T)
  | spurious (t : T)
  | ret (t : T)

section

variable {T σ Op R L : Type*} [DecidableEq T]

def State.at (s : State T σ Op R L) (t : T) (pc : Pc Op R L) : State T σ Op R L :=
  { s with pc := Function.update s.pc t pc }

/-- A signal wakes a sleeper, or nobody where nobody sleeps. -/
def State.signal [Fintype T] (s : State T σ Op R L) : Option T → Option (State T σ Op R L)
  | some u => if (s.pc u).isAsleep then some (s.at u (s.pc u).wake) else none
  | none => if ∀ u, (s.pc u).isAsleep = false then some s else none

/-- The thread with the mutex executes a statement. -/
def Monitor.exec [Fintype T] (M : Monitor σ Op R L) (s : State T σ Op R L) (t : T) (woken : Option T)
    (op : Op) (l : L) : Option (State T σ Op R L) :=
  match M.stmt l s.shared with
  | .next shared l => some ({ s with shared }.at t (.inside op l))
  | .signal l => (s.at t (.inside op l)).signal woken
  | .broadcast l => some ({ s with pc := fun u => (s.pc u).wake }.at t (.inside op l))
  | .wait l => some ({ s with holder := none }.at t (.asleep op l))
  | .leave r => some ({ s with holder := none }.at t (.leaving op r))

def Monitor.step [Fintype T] (M : Monitor σ Op R L) (s : State T σ Op R L) :
    Label T Op → Option (State T σ Op R L)
  | .call t op =>
    match s.pc t with
    | .outside => some (s.at t (.entering op))
    | _ => none
  | .lock t =>
    match s.holder, s.pc t with
    | none, .entering op => some ({ s with holder := some t }.at t (.inside op (M.enter op)))
    | none, .woken op l => some ({ s with holder := some t }.at t (.inside op l))
    | _, _ => none
  | .exec t woken =>
    match s.pc t with
    | .inside op l => M.exec s t woken op l
    | _ => none
  | .spurious t => if (s.pc t).isAsleep then some (s.at t (s.pc t).wake) else none
  | .ret t =>
    match s.pc t with
    | .leaving _ _ => some (s.at t .outside)
    | _ => none

/-- No thread has called a method. -/
def State.initial (shared : σ) : State T σ Op R L where
  shared
  holder := none
  pc _ := .outside

end

/-! ### What a step can do -/

section

variable {T σ Op R L : Type*} [DecidableEq T]

@[simp] theorem State.at_pc (s : State T σ Op R L) (t : T) (pc : Pc Op R L) :
    (s.at t pc).pc = Function.update s.pc t pc := rfl

@[simp] theorem State.at_shared (s : State T σ Op R L) (t : T) (pc : Pc Op R L) :
    (s.at t pc).shared = s.shared := rfl

/-- The steps, with what lets each of them be taken. -/
inductive Monitor.Taken (M : Monitor σ Op R L) (s : State T σ Op R L) :
    Label T Op → State T σ Op R L → Prop
  | call {t : T} {op : Op} (h : s.pc t = .outside) : Taken M s (.call t op) (s.at t (.entering op))
  | enter {t : T} {op : Op} (hfree : s.holder = none) (h : s.pc t = .entering op) :
      Taken M s (.lock t) ({ s with holder := some t }.at t (.inside op (M.enter op)))
  | relock {t : T} {op : Op} {l : L} (hfree : s.holder = none) (h : s.pc t = .woken op l) :
      Taken M s (.lock t) ({ s with holder := some t }.at t (.inside op l))
  | next {t : T} {woken : Option T} {op : Op} {l l' : L} {shared : σ} (h : s.pc t = .inside op l)
      (hstmt : M.stmt l s.shared = .next shared l') :
      Taken M s (.exec t woken) ({ s with shared }.at t (.inside op l'))
  | signal {t u : T} {op op' : Op} {l l' k : L} (h : s.pc t = .inside op l)
      (hstmt : M.stmt l s.shared = .signal l') (hu : s.pc u = .asleep op' k) :
      Taken M s (.exec t (some u)) ((s.at t (.inside op l')).at u (.woken op' k))
  | signalNone {t : T} {op : Op} {l l' : L} (h : s.pc t = .inside op l)
      (hstmt : M.stmt l s.shared = .signal l') (hnone : ∀ u, (s.pc u).isAsleep = false) :
      Taken M s (.exec t none) (s.at t (.inside op l'))
  | broadcast {t : T} {woken : Option T} {op : Op} {l l' : L} (h : s.pc t = .inside op l)
      (hstmt : M.stmt l s.shared = .broadcast l') :
      Taken M s (.exec t woken) ({ s with pc := fun u => (s.pc u).wake }.at t (.inside op l'))
  | wait {t : T} {woken : Option T} {op : Op} {l l' : L} (h : s.pc t = .inside op l)
      (hstmt : M.stmt l s.shared = .wait l') :
      Taken M s (.exec t woken) ({ s with holder := none }.at t (.asleep op l'))
  | leave {t : T} {woken : Option T} {op : Op} {l : L} {r : R} (h : s.pc t = .inside op l)
      (hstmt : M.stmt l s.shared = .leave r) :
      Taken M s (.exec t woken) ({ s with holder := none }.at t (.leaving op r))
  | spurious {t : T} {op : Op} {l : L} (h : s.pc t = .asleep op l) :
      Taken M s (.spurious t) (s.at t (.woken op l))
  | ret {t : T} {op : Op} {r : R} (h : s.pc t = .leaving op r) : Taken M s (.ret t) (s.at t .outside)

theorem Pc.exists_of_isAsleep {Op R L : Type*} {pc : Pc Op R L} (h : pc.isAsleep = true) :
    ∃ op l, pc = .asleep op l := by
  cases pc with
  | asleep op l => exact ⟨op, l, rfl⟩
  | _ => cases h

theorem Monitor.taken_of_step [Fintype T] {M : Monitor σ Op R L} {s s' : State T σ Op R L}
    {i : Label T Op} (h : M.step s i = some s') : M.Taken s i s' := by
  cases i with
  | call t op =>
    cases hpc : s.pc t with
    | outside =>
      rw [step, hpc] at h
      cases h
      exact .call hpc
    | _ =>
      rw [step, hpc] at h
      cases h
  | lock t =>
    cases hfree : s.holder with
    | some u =>
      rw [step, hfree] at h
      cases h
    | none =>
      cases hpc : s.pc t with
      | entering op =>
        rw [step, hfree, hpc] at h
        cases h
        exact .enter hfree hpc
      | woken op l =>
        rw [step, hfree, hpc] at h
        cases h
        exact .relock hfree hpc
      | _ =>
        rw [step, hfree, hpc] at h
        cases h
  | exec t woken =>
    cases hpc : s.pc t with
    | inside op l =>
      rw [step, hpc] at h
      dsimp only at h
      rw [exec] at h
      cases hstmt : M.stmt l s.shared with
      | next shared l' =>
        rw [hstmt] at h
        cases h
        exact .next hpc hstmt
      | signal l' =>
        rw [hstmt] at h
        dsimp only at h
        have hself : ∀ u, ((s.at t (.inside op l')).pc u).isAsleep = (s.pc u).isAsleep := by
          intro u
          by_cases hu : u = t
          · subst hu
            rw [State.at_pc, Function.update_self, hpc]
            rfl
          · rw [State.at_pc, Function.update_of_ne hu]
        cases woken with
        | none =>
          rw [State.signal] at h
          split at h
          · next hnone =>
            cases h
            exact .signalNone hpc hstmt fun u => (hself u).symm.trans (hnone u)
          · cases h
        | some u =>
          rw [State.signal] at h
          split at h
          · next hu =>
            obtain ⟨op', k, hk⟩ := Pc.exists_of_isAsleep ((hself u).symm.trans hu)
            have hne : u ≠ t := by
              rintro rfl
              rw [hpc] at hk
              cases hk
            rw [State.at_pc, Function.update_of_ne hne, hk] at h
            cases h
            exact .signal hpc hstmt hk
          · cases h
      | broadcast l' =>
        rw [hstmt] at h
        cases h
        exact .broadcast hpc hstmt
      | wait l' =>
        rw [hstmt] at h
        cases h
        exact .wait hpc hstmt
      | leave r =>
        rw [hstmt] at h
        cases h
        exact .leave hpc hstmt
    | _ =>
      rw [step, hpc] at h
      cases h
  | spurious t =>
    rw [step] at h
    split at h
    · next hasleep =>
      obtain ⟨op, l, hpc⟩ := Pc.exists_of_isAsleep hasleep
      rw [hpc] at h
      cases h
      exact .spurious hpc
    · cases h
  | ret t =>
    cases hpc : s.pc t with
    | leaving op r =>
      rw [step, hpc] at h
      cases h
      exact .ret hpc
    | _ =>
      rw [step, hpc] at h
      cases h

/-- The mutex is held by the thread that is inside. -/
def State.Exclusive (s : State T σ Op R L) : Prop :=
  ∀ t, (s.pc t).isInside = true ↔ s.holder = some t

theorem State.Exclusive.at {s : State T σ Op R L} (hs : s.Exclusive) {t : T} {pc : Pc Op R L}
    (h : pc.isInside = (s.pc t).isInside) : (s.at t pc).Exclusive := by
  intro u
  by_cases hu : u = t
  · subst hu
    rw [at_pc, Function.update_self, h]
    exact hs u
  · rw [at_pc, Function.update_of_ne hu]
    exact hs u

theorem State.Exclusive.locked {s : State T σ Op R L} (hs : s.Exclusive) (hfree : s.holder = none)
    {t : T} {pc : Pc Op R L} (h : pc.isInside = true) :
    ({ s with holder := some t }.at t pc).Exclusive := by
  intro u
  by_cases hu : u = t
  · subst hu
    rw [at_pc, Function.update_self, h]
    exact iff_of_true rfl rfl
  · rw [at_pc, Function.update_of_ne hu]
    refine iff_of_false (fun hin => ?_) fun heq => hu (Option.some.inj heq).symm
    have hheld := (hs u).mp hin
    rw [hfree] at hheld
    cases hheld

theorem State.Exclusive.unlocked {s : State T σ Op R L} (hs : s.Exclusive) {t : T} {pc : Pc Op R L}
    (hin : (s.pc t).isInside = true) (h : pc.isInside = false) :
    ({ s with holder := none }.at t pc).Exclusive := by
  intro u
  by_cases hu : u = t
  · subst hu
    rw [at_pc, Function.update_self, h]
    exact iff_of_false Bool.false_ne_true nofun
  · rw [at_pc, Function.update_of_ne hu]
    refine iff_of_false (fun hin' => hu ?_) nofun
    exact Option.some.inj (((hs u).mp hin').symm.trans ((hs t).mp hin))

theorem Pc.isInside_wake {Op R L : Type*} (pc : Pc Op R L) : pc.wake.isInside = pc.isInside := by
  cases pc <;> rfl

theorem Monitor.Taken.exclusive {M : Monitor σ Op R L} {s s' : State T σ Op R L} {i : Label T Op}
    (h : M.Taken s i s') (hs : s.Exclusive) : s'.Exclusive := by
  cases h with
  | call h => exact hs.at (by rw [h]; rfl)
  | enter hfree h => exact hs.locked hfree rfl
  | relock hfree h => exact hs.locked hfree rfl
  | @next t woken op l l' shared h hstmt =>
    have hs' : State.Exclusive { s with shared } := hs
    exact hs'.at (by rw [h]; rfl)
  | @signal t u op op' l l' k h hstmt hu =>
    have hne : u ≠ t := by
      rintro rfl
      rw [h] at hu
      cases hu
    refine (hs.at (by rw [h]; rfl)).at ?_
    rw [State.at_pc, Function.update_of_ne hne, hu]
    rfl
  | signalNone h hstmt hnone => exact hs.at (by rw [h]; rfl)
  | broadcast h hstmt =>
    have hs' : State.Exclusive { s with pc := fun u => (s.pc u).wake } := by
      intro u
      rw [Pc.isInside_wake]
      exact hs u
    exact hs'.at (by rw [Pc.isInside_wake, h]; rfl)
  | wait h hstmt => exact hs.unlocked (by rw [h]; rfl) rfl
  | leave h hstmt => exact hs.unlocked (by rw [h]; rfl) rfl
  | spurious h => exact hs.at (by rw [h]; rfl)
  | ret h => exact hs.at (by rw [h]; rfl)

omit [DecidableEq T] in
theorem exclusive_initial (shared : σ) : (State.initial shared : State T σ Op R L).Exclusive :=
  fun _ => iff_of_false Bool.false_ne_true nofun

end

/-! ### Who calls what -/

/-- The method that a thread has called. -/
def Pc.op? {Op R L : Type*} : Pc Op R L → Option Op
  | outside => none
  | entering op | inside op _ | asleep op _ | woken op _ | leaving op _ => some op

section

variable {T σ Op R L : Type*} [DecidableEq T] {M : Monitor σ Op R L}

theorem op_update {ok : T → Op → Prop} {pc : T → Pc Op R L}
    (hpc : ∀ t op, (pc t).op? = some op → ok t op) {t : T} {x : Pc Op R L}
    (hx : ∀ op, x.op? = some op → ok t op) :
    ∀ u op, (Function.update pc t x u).op? = some op → ok u op := by
  intro u op hop
  by_cases hu : u = t
  · subst hu
    rw [Function.update_self] at hop
    exact hx op hop
  · rw [Function.update_of_ne hu] at hop
    exact hpc u op hop

/-- A step leaves every thread in the method that it has called. -/
theorem Monitor.Taken.calls {s s' : State T σ Op R L} {i : Label T Op} (h : M.Taken s i s')
    {ok : T → Op → Prop} (hs : ∀ t op, (s.pc t).op? = some op → ok t op)
    (hi : ∀ t op, i = .call t op → ok t op) : ∀ t op, (s'.pc t).op? = some op → ok t op := by
  have hsame : ∀ {t : T} {x : Pc Op R L}, x.op? = (s.pc t).op? → ∀ op, x.op? = some op → ok t op :=
    fun hx op hop => hs _ op (hx ▸ hop)
  cases h with
  | call h =>
    refine op_update hs fun op hop => ?_
    cases hop
    exact hi _ _ rfl
  | enter hfree h => exact op_update hs (hsame (by rw [h]; rfl))
  | relock hfree h => exact op_update hs (hsame (by rw [h]; rfl))
  | next h hstmt => exact op_update hs (hsame (by rw [h]; rfl))
  | @signal t u op op' l l' k h hstmt hu =>
    have hsignal := op_update hs (hsame (x := .inside op l') (t := t) (by rw [h]; rfl))
    exact op_update hsignal (hsame (by rw [hu]; rfl))
  | signalNone h hstmt hnone => exact op_update hs (hsame (by rw [h]; rfl))
  | broadcast h hstmt =>
    have hwake : ∀ u op, (s.pc u).wake.op? = some op → ok u op := by
      intro u op hop
      refine hs u op ?_
      cases hpc : s.pc u <;> rw [hpc] at hop <;> exact hop
    exact op_update hwake (hsame (by rw [h]; rfl))
  | wait h hstmt => exact op_update hs (hsame (by rw [h]; rfl))
  | leave h hstmt => exact op_update hs (hsame (by rw [h]; rfl))
  | spurious h => exact op_update hs (hsame (by rw [h]; rfl))
  | ret h => exact op_update hs nofun

/-- A thread is in a method that it has called. -/
theorem Monitor.calls_run [Fintype T] {ok : T → Op → Prop} {labels : List (Label T Op)} {s s' : State T σ Op R L}
    (h : run M.step s labels = some s') (hs : ∀ t op, (s.pc t).op? = some op → ok t op)
    (hcalls : ∀ t op, Label.call t op ∈ labels → ok t op) : ∀ t op, (s'.pc t).op? = some op → ok t op := by
  induction labels generalizing s with
  | nil =>
    cases h
    exact hs
  | cons i labels ih =>
    obtain ⟨s₁, hstep, hrest⟩ := Option.bind_eq_some_iff.mp h
    refine ih hrest ((M.taken_of_step hstep).calls hs ?_) fun t op hmem => hcalls t op (List.mem_cons_of_mem _ hmem)
    rintro t op rfl
    exact hcalls t op List.mem_cons_self

end

/-! ### Who can go on -/

/-- A step that a thread takes by itself, in a method that it has called. -/
def Label.Goes {T Op : Type*} : Label T Op → Prop
  | .call _ _ | .spurious _ => False
  | _ => True

section

variable {T σ Op R L : Type*} [DecidableEq T] [Fintype T] {M : Monitor σ Op R L}

/-- No thread can go on by itself. -/
def Monitor.Stuck (M : Monitor σ Op R L) (s : State T σ Op R L) : Prop :=
  ∀ i : Label T Op, i.Goes → M.step s i = none

/-- The thread with the mutex can go on. -/
theorem Monitor.exec_possible {s : State T σ Op R L} {t : T} {op : Op} {l : L} (h : s.pc t = .inside op l) :
    ∃ woken s', M.step s (.exec t woken) = some s' := by
  have hexec : ∀ woken, M.step s (.exec t woken) = M.exec s t woken op l := by
    intro woken
    rw [step, h]
  cases hstmt : M.stmt l s.shared with
  | signal l' =>
    by_cases hnone : ∀ u, ((s.at t (.inside op l')).pc u).isAsleep = false
    · refine ⟨none, ?_⟩
      rw [hexec, exec, hstmt]
      exact ⟨_, if_pos hnone⟩
    · obtain ⟨u, hu⟩ := not_forall.mp hnone
      refine ⟨some u, ?_⟩
      rw [hexec, exec, hstmt]
      exact ⟨_, if_pos (Bool.eq_true_of_not_eq_false hu)⟩
  | _ =>
    refine ⟨none, ?_⟩
    rw [hexec, exec, hstmt]
    exact ⟨_, rfl⟩

/-- Where nobody can go on, everybody has returned or sleeps. -/
theorem Monitor.Stuck.cases {s : State T σ Op R L} (h : M.Stuck s) (hs : s.Exclusive) :
    s.holder = none ∧ ∀ t, s.pc t = .outside ∨ ∃ op l, s.pc t = .asleep op l := by
  have hinside : ∀ {t op l}, s.pc t ≠ .inside op l := by
    intro t op l hpc
    obtain ⟨woken, s', hstep⟩ := exec_possible (M := M) hpc
    rw [h (.exec t woken) trivial] at hstep
    cases hstep
  have hfree : s.holder = none := by
    cases hholder : s.holder with
    | none => rfl
    | some t =>
      have hin := (hs t).mpr hholder
      cases hpc : s.pc t with
      | inside op l => exact absurd hpc hinside
      | _ =>
        rw [hpc] at hin
        cases hin
  refine ⟨hfree, fun t => ?_⟩
  cases hpc : s.pc t with
  | outside => exact .inl rfl
  | asleep op l => exact .inr ⟨op, l, rfl⟩
  | inside op l => exact absurd hpc hinside
  | entering op =>
    have hlock := h (.lock t) trivial
    rw [step, hfree, hpc] at hlock
    cases hlock
  | woken op l =>
    have hlock := h (.lock t) trivial
    rw [step, hfree, hpc] at hlock
    cases hlock
  | leaving op r =>
    have hret := h (.ret t) trivial
    rw [step, hpc] at hret
    cases hret

end

/-! ### Atomic objects -/

/-- What happens in a run: calls, the effects of the methods, and returns. -/
inductive Event (T Op R : Type*) where
  | call (t : T) (op : Op)
  | effect (t : T) (op : Op) (r : R)
  | ret (t : T) (op : Op) (r : R)

/-- What the events of a run were. -/
def Monitor.event {T σ Op R L : Type*} (M : Monitor σ Op R L) (s : State T σ Op R L) :
    Label T Op → Option (Event T Op R)
  | .call t op => some (.call t op)
  | .exec t _ =>
    match s.pc t with
    | .inside op l =>
      match M.stmt l s.shared with
      | .leave r => some (.effect t op r)
      | _ => none
    | _ => none
  | .ret t =>
    match s.pc t with
    | .leaving op r => some (.ret t op r)
    | _ => none
  | _ => none

def Monitor.history {T σ Op R L : Type*} [DecidableEq T] [Fintype T] (M : Monitor σ Op R L) :
    State T σ Op R L → List (Label T Op) → List (Event T Op R)
  | _, [] => []
  | s, i :: labels =>
    (M.event s i).toList ++ ((M.step s i).map fun s' => M.history s' labels).getD []

/-- Where a caller of an atomic object is. -/
inductive Phase (Op R : Type*) where
  | idle
  | called (op : Op)
  | done (op : Op) (r : R)

structure Atomic (T α Op R : Type*) where
  object : α
  phase : T → Phase Op R

section

variable {T α Op R : Type*} [DecidableEq T]

/-- Every method has its effect at once, after its call and before its return.  `spec` gives no result
where the method waits. -/
inductive Atomic.Step (spec : Op → α → Option (R × α)) :
    Atomic T α Op R → Event T Op R → Atomic T α Op R → Prop
  | call {a : Atomic T α Op R} {t : T} {op : Op} (h : a.phase t = .idle) :
      Step spec a (.call t op) { a with phase := Function.update a.phase t (.called op) }
  | effect {a : Atomic T α Op R} {t : T} {op : Op} {r : R} {object : α} (h : a.phase t = .called op)
      (hspec : spec op a.object = some (r, object)) :
      Step spec a (.effect t op r) ⟨object, Function.update a.phase t (.done op r)⟩
  | ret {a : Atomic T α Op R} {t : T} {op : Op} {r : R} (h : a.phase t = .done op r) :
      Step spec a (.ret t op r) { a with phase := Function.update a.phase t .idle }

inductive Atomic.Run (spec : Op → α → Option (R × α)) :
    Atomic T α Op R → List (Event T Op R) → Atomic T α Op R → Prop
  | nil {a : Atomic T α Op R} : Run spec a [] a
  | cons {a b c : Atomic T α Op R} {e : Event T Op R} {events : List (Event T Op R)}
      (h : Step spec a e b) (hrest : Run spec b events c) : Run spec a (e :: events) c

/-- Methods one after the other. -/
inductive Serial (spec : Op → α → Option (R × α)) : α → List (Op × R) → α → Prop
  | nil {a : α} : Serial spec a [] a
  | cons {a b c : α} {op : Op} {r : R} {rest : List (Op × R)} (h : spec op a = some (r, b))
      (hrest : Serial spec b rest c) : Serial spec a ((op, r) :: rest) c

def effects (events : List (Event T Op R)) : List (Op × R) :=
  events.filterMap fun
    | .effect _ op r => some (op, r)
    | _ => none

omit [DecidableEq T] in
theorem effects_cons (e : Event T Op R) (events : List (Event T Op R)) :
    effects (e :: events) = effects [e] ++ effects events := by
  cases e <;> rfl

/-- The effects of an atomic run are one after the other. -/
theorem Atomic.Run.serial {spec : Op → α → Option (R × α)} {a b : Atomic T α Op R}
    {events : List (Event T Op R)} (h : Atomic.Run spec a events b) :
    Serial spec a.object (effects events) b.object := by
  induction h with
  | nil => exact .nil
  | cons hstep hrest ih =>
    rw [effects_cons]
    cases hstep with
    | call _ => exact ih
    | effect _ hspec => exact .cons hspec ih
    | ret _ => exact ih

theorem done_update {phase : T → Phase Op R} {t u : T} {p : Phase Op R} {op : Op} {r : R}
    (h : Function.update phase u p t = .done op r) : p = .done op r ∨ phase t = .done op r := by
  by_cases htu : t = u
  · subst htu
    rw [Function.update_self] at h
    exact .inl h
  · rw [Function.update_of_ne htu] at h
    exact .inr h

/-- A method that is done at the end was done at the beginning or had its effect. -/
theorem Atomic.Run.done_mem {spec : Op → α → Option (R × α)} {a b : Atomic T α Op R}
    {events : List (Event T Op R)} (h : Atomic.Run spec a events b) {t : T} {op : Op} {r : R}
    (hret : Event.ret t op r ∈ events) : a.phase t = .done op r ∨ (op, r) ∈ effects events := by
  induction h with
  | nil => cases hret
  | @cons a b c e events hstep hrest ih =>
    rw [effects_cons]
    rcases List.mem_cons.mp hret with rfl | hret
    · cases hstep with
      | ret hdone => exact .inl hdone
    rcases ih hret with hdone | hmem
    · cases hstep with
      | call hidle =>
        rcases done_update hdone with hcalled | hdone
        · cases hcalled
        · exact .inl hdone
      | effect hcalled hspec =>
        rcases done_update hdone with hnow | hdone
        · cases hnow
          exact .inr List.mem_cons_self
        · exact .inl hdone
      | ret hended =>
        rcases done_update hdone with hidle | hdone
        · cases hidle
        · exact .inl hdone
    · exact .inr (List.mem_append_right _ hmem)

end

/-! ### Refinement -/

/-- How a monitor does what an atomic object does: `rep` while the mutex is free, `mid` for the thread
that holds it, and `sleeps` where a method may wait. -/
structure Refines {σ α Op R L : Type*} (M : Monitor σ Op R L) (spec : Op → α → Option (R × α)) where
  rep : σ → α → Prop
  mid : Op → L → σ → α → Prop
  sleeps : Op → L → Prop
  enter : ∀ {op s a}, rep s a → mid op (M.enter op) s a
  wake : ∀ {op l s a}, sleeps op l → rep s a → mid op l s a
  next : ∀ {op l l' s s' a}, mid op l s a → M.stmt l s = .next s' l' → mid op l' s' a
  signal : ∀ {op l l' s a}, mid op l s a → M.stmt l s = .signal l' → mid op l' s a
  broadcast : ∀ {op l l' s a}, mid op l s a → M.stmt l s = .broadcast l' → mid op l' s a
  wait : ∀ {op l l' s a}, mid op l s a → M.stmt l s = .wait l' → rep s a ∧ sleeps op l'
  leave : ∀ {op l s a r}, mid op l s a → M.stmt l s = .leave r →
    ∃ a', spec op a = some (r, a') ∧ rep s a'

/-- Where a thread is, as its caller sees it. -/
def Pc.phase {Op R L : Type*} : Pc Op R L → Phase Op R
  | outside => .idle
  | entering op | inside op _ | asleep op _ | woken op _ => .called op
  | leaving op r => .done op r

/-- A thread waits only where it may. -/
def Pc.WaitsAt {Op R L : Type*} (sleeps : Op → L → Prop) : Pc Op R L → Prop
  | asleep op l | woken op l => sleeps op l
  | _ => True

namespace Pc

variable {Op R L : Type*} {pc : Pc Op R L}

theorem phase_wake (pc : Pc Op R L) : pc.wake.phase = pc.phase := by
  cases pc <;> rfl

theorem isAsleep_wake (pc : Pc Op R L) : pc.wake.isAsleep = false := by
  cases pc <;> rfl

theorem waitsAt_wake {sleeps : Op → L → Prop} : pc.wake.WaitsAt sleeps ↔ pc.WaitsAt sleeps := by
  cases pc <;> exact Iff.rfl

theorem wake_eq_inside {op : Op} {l : L} : pc.wake = .inside op l ↔ pc = .inside op l := by
  cases pc <;> simp [wake]

end Pc

section

variable {T σ α Op R L : Type*} [DecidableEq T] {M : Monitor σ Op R L}
  {spec : Op → α → Option (R × α)} (F : Refines M spec)

/-- A state of the monitor and the atomic object it stands for. -/
structure Refines.Sim (s : State T σ Op R L) (a : Atomic T α Op R) : Prop where
  phase : a.phase = fun t => (s.pc t).phase
  exclusive : s.Exclusive
  free : s.holder = none → F.rep s.shared a.object
  held : ∀ {t op l}, s.pc t = .inside op l → F.mid op l s.shared a.object
  waiting : ∀ t, (s.pc t).WaitsAt F.sleeps

variable {F}

theorem phase_update {pc : T → Pc Op R L} {t : T} {x : Pc Op R L} :
    (fun u => (Function.update pc t x u).phase) = Function.update (fun u => (pc u).phase) t x.phase := by
  funext u
  by_cases hu : u = t
  · subst hu
    rw [Function.update_self, Function.update_self]
  · rw [Function.update_of_ne hu, Function.update_of_ne hu]

theorem phase_update_same {pc : T → Pc Op R L} {t : T} {x : Pc Op R L} (h : x.phase = (pc t).phase) :
    (fun u => (Function.update pc t x u).phase) = fun u => (pc u).phase := by
  rw [phase_update, h]
  exact Function.update_eq_self t _

theorem waitsAt_update {sleeps : Op → L → Prop} {pc : T → Pc Op R L} (h : ∀ t, (pc t).WaitsAt sleeps) {t : T}
    {x : Pc Op R L} (hx : x.WaitsAt sleeps) (u : T) : (Function.update pc t x u).WaitsAt sleeps := by
  by_cases hu : u = t
  · subst hu
    rwa [Function.update_self]
  · rw [Function.update_of_ne hu]
    exact h u

theorem pc_update {pc : T → Pc Op R L} {t u : T} {x y : Pc Op R L} (h : Function.update pc t x u = y) :
    x = y ∨ pc u = y := by
  by_cases hu : u = t
  · subst hu
    rw [Function.update_self] at h
    exact .inl h
  · rw [Function.update_of_ne hu] at h
    exact .inr h

omit [DecidableEq T] in
/-- With the mutex taken nobody else is inside. -/
theorem State.Exclusive.alone {s : State T σ Op R L} (hs : s.Exclusive) {t u : T} {op op' : Op} {l l' : L}
    (ht : s.pc t = .inside op l) (hu : s.pc u = .inside op' l') : u = t := by
  have htop := (hs t).mp (by rw [ht]; rfl)
  have huop := (hs u).mp (by rw [hu]; rfl)
  exact Option.some.inj (huop.symm.trans htop)

omit [DecidableEq T] in
theorem State.Exclusive.nobody {s : State T σ Op R L} (hs : s.Exclusive) (hfree : s.holder = none) {t : T}
    {op : Op} {l : L} (ht : s.pc t = .inside op l) : False := by
  have htop := (hs t).mp (by rw [ht]; rfl)
  rw [hfree] at htop
  cases htop

/-- The holder of the mutex goes on. -/
theorem Refines.Sim.go {s : State T σ Op R L} {a : Atomic T α Op R} (hs : F.Sim s a) {t : T} {op : Op}
    {l l' : L} {shared : σ} (h : s.pc t = .inside op l) (hmid : F.mid op l' shared a.object) :
    F.Sim ({ s with shared }.at t (.inside op l')) a where
  phase := by
    rw [State.at_pc, phase_update_same (by rw [h]; rfl)]
    exact hs.phase
  exclusive := by
    have hs' : State.Exclusive { s with shared } := hs.exclusive
    exact hs'.at (by rw [h]; rfl)
  free := fun hfree => (hs.exclusive.nobody hfree h).elim
  held := by
    intro u op' k hu
    by_cases hut : u = t
    · subst hut
      rw [State.at_pc, Function.update_self] at hu
      cases hu
      exact hmid
    · rw [State.at_pc, Function.update_of_ne hut] at hu
      exact absurd (hs.exclusive.alone h hu) hut
  waiting := waitsAt_update hs.waiting trivial

/-- A thread without the mutex goes from one place without the mutex to another. -/
theorem Refines.Sim.move {s : State T σ Op R L} {a : Atomic T α Op R} (hs : F.Sim s a) {t : T}
    {pc : Pc Op R L} (hbefore : (s.pc t).isInside = false) (hafter : pc.isInside = false)
    (hwaiting : pc.WaitsAt F.sleeps) :
    F.Sim (s.at t pc) { a with phase := Function.update a.phase t pc.phase } where
  phase := by rw [State.at_pc, phase_update, hs.phase]
  exclusive := hs.exclusive.at (hafter.trans hbefore.symm)
  free := hs.free
  held := by
    intro u op l hu
    rcases pc_update hu with rfl | hu
    · cases hafter
    · exact hs.held hu
  waiting := waitsAt_update hs.waiting hwaiting

/-- A thread takes the mutex. -/
theorem Refines.Sim.take {s : State T σ Op R L} {a : Atomic T α Op R} (hs : F.Sim s a)
    (hfree : s.holder = none) {t : T} {op : Op} {l : L} (h : (s.pc t).phase = .called op)
    (hmid : F.mid op l s.shared a.object) : F.Sim ({ s with holder := some t }.at t (.inside op l)) a where
  phase := by
    have hsame : (Pc.inside op l : Pc Op R L).phase = (s.pc t).phase := h.symm
    rw [State.at_pc, phase_update_same hsame]
    exact hs.phase
  exclusive := hs.exclusive.locked hfree rfl
  free := nofun
  held := by
    intro u op' k hu
    by_cases hut : u = t
    · subst hut
      rw [State.at_pc, Function.update_self] at hu
      cases hu
      exact hmid
    · rw [State.at_pc, Function.update_of_ne hut] at hu
      exact (hs.exclusive.nobody hfree hu).elim
  waiting := waitsAt_update hs.waiting trivial

/-- The holder gives the mutex up. -/
theorem Refines.Sim.release {s : State T σ Op R L} {a : Atomic T α Op R} (hs : F.Sim s a) {t : T} {op : Op}
    {l : L} (h : s.pc t = .inside op l) {pc : Pc Op R L} (hafter : pc.isInside = false) {object : α}
    (hrep : F.rep s.shared object)
    (hwaiting : pc.WaitsAt F.sleeps) :
    F.Sim ({ s with holder := none }.at t pc) ⟨object, Function.update a.phase t pc.phase⟩ where
  phase := by
    rw [State.at_pc, phase_update]
    exact congrArg (Function.update · t pc.phase) hs.phase
  exclusive := hs.exclusive.unlocked (by rw [h]; rfl) hafter
  free := fun _ => hrep
  held := by
    intro u op' k hu
    by_cases hut : u = t
    · subst hut
      rw [State.at_pc, Function.update_self] at hu
      rw [hu] at hafter
      cases hafter
    · rw [State.at_pc, Function.update_of_ne hut] at hu
      exact absurd (hs.exclusive.alone h hu) hut
  waiting := waitsAt_update hs.waiting hwaiting

omit [DecidableEq T] in
theorem Refines.Sim.phase_eq {s : State T σ Op R L} {a : Atomic T α Op R} (hs : F.Sim s a) (t : T) :
    a.phase t = (s.pc t).phase := by
  rw [hs.phase]

theorem Atomic.phase_same (a : Atomic T α Op R) {t : T} {p : Phase Op R} (h : a.phase t = p) :
    { a with phase := Function.update a.phase t p } = a := by
  rw [← h, Function.update_eq_self]

/-- **One step of the monitor** is at most one of the atomic object. -/
theorem Refines.Sim.step {s s' : State T σ Op R L} {a : Atomic T α Op R} (hs : F.Sim s a) {i : Label T Op}
    (h : M.Taken s i s') : ∃ a', Atomic.Run spec a (M.event s i).toList a' ∧ F.Sim s' a' := by
  cases h with
  | @call t op h =>
    have hidle : a.phase t = .idle := by rw [hs.phase_eq, h]; rfl
    exact ⟨_, .cons (.call hidle) .nil, hs.move (by rw [h]; rfl) rfl trivial⟩
  | enter hfree h => exact ⟨a, .nil, hs.take hfree (by rw [h]; rfl) (F.enter (hs.free hfree))⟩
  | @relock t op l hfree h =>
    have hsleeps := hs.waiting t
    rw [h] at hsleeps
    exact ⟨a, .nil, hs.take hfree (by rw [h]; rfl) (F.wake hsleeps (hs.free hfree))⟩
  | next h hstmt =>
    refine ⟨a, ?_, hs.go h (F.next (hs.held h) hstmt)⟩
    rw [Monitor.event, h]
    dsimp only
    rw [hstmt]
    exact .nil
  | @signal t u op op' l l' k h hstmt hu =>
    have hgo : F.Sim (s.at t (.inside op l')) a := hs.go h (F.signal (hs.held h) hstmt)
    have hne : u ≠ t := by
      rintro rfl
      rw [h] at hu
      cases hu
    have hu' : (s.at t (.inside op l')).pc u = .asleep op' k := by
      rw [State.at_pc, Function.update_of_ne hne, hu]
    have hsleeps := hs.waiting u
    rw [hu] at hsleeps
    have hwoken : F.Sim ((s.at t (.inside op l')).at u (.woken op' k)) _ :=
      hgo.move (by rw [hu']; rfl) rfl hsleeps
    have hphase : a.phase u = (Pc.woken op' k : Pc Op R L).phase := by
      rw [hgo.phase_eq, hu']
      rfl
    rw [Atomic.phase_same a hphase] at hwoken
    refine ⟨a, ?_, hwoken⟩
    rw [Monitor.event, h]
    dsimp only
    rw [hstmt]
    exact .nil
  | signalNone h hstmt hnone =>
    refine ⟨a, ?_, hs.go h (F.signal (hs.held h) hstmt)⟩
    rw [Monitor.event, h]
    dsimp only
    rw [hstmt]
    exact .nil
  | @broadcast t woken op l l' h hstmt =>
    have hwake : F.Sim { s with pc := fun u => (s.pc u).wake } a := {
      phase := by
        rw [hs.phase]
        exact funext fun u => (Pc.phase_wake (s.pc u)).symm
      exclusive := by
        intro u
        rw [Pc.isInside_wake]
        exact hs.exclusive u
      free := hs.free
      held := fun hu => hs.held (Pc.wake_eq_inside.mp hu)
      waiting := fun u => Pc.waitsAt_wake.mpr (hs.waiting u) }
    have ht : (s.pc t).wake = .inside op l := by rw [h]; rfl
    refine ⟨a, ?_, hwake.go ht (F.broadcast (hs.held h) hstmt)⟩
    rw [Monitor.event, h]
    dsimp only
    rw [hstmt]
    exact .nil
  | @wait t woken op l l' h hstmt =>
    obtain ⟨hrep, hsleeps⟩ := F.wait (hs.held h) hstmt
    have hasleep : F.Sim ({ s with holder := none }.at t (.asleep op l')) _ :=
      hs.release h rfl hrep hsleeps
    have hphase : a.phase t = (Pc.asleep op l' : Pc Op R L).phase := by
      rw [hs.phase_eq, h]
      rfl
    rw [Atomic.phase_same a hphase] at hasleep
    refine ⟨a, ?_, hasleep⟩
    rw [Monitor.event, h]
    dsimp only
    rw [hstmt]
    exact .nil
  | @leave t woken op l r h hstmt =>
    obtain ⟨object, hspec, hrep⟩ := F.leave (hs.held h) hstmt
    have hcalled : a.phase t = .called op := by rw [hs.phase_eq, h]; rfl
    refine ⟨_, ?_, hs.release h rfl hrep trivial⟩
    rw [Monitor.event, h]
    dsimp only
    rw [hstmt]
    exact .cons (.effect hcalled hspec) .nil
  | @spurious t op l h =>
    have hsleeps := hs.waiting t
    rw [h] at hsleeps
    have hwoken : F.Sim (s.at t (.woken op l)) _ := hs.move (by rw [h]; rfl) rfl hsleeps
    have hphase : a.phase t = (Pc.woken op l : Pc Op R L).phase := by
      rw [hs.phase_eq, h]
      rfl
    rw [Atomic.phase_same a hphase] at hwoken
    exact ⟨a, .nil, hwoken⟩
  | @ret t op r h =>
    have hdone : a.phase t = .done op r := by rw [hs.phase_eq, h]; rfl
    refine ⟨_, ?_, hs.move (by rw [h]; rfl) rfl trivial⟩
    rw [Monitor.event, h]
    exact .cons (.ret hdone) .nil

omit M in
theorem Atomic.Run.append {a b c : Atomic T α Op R} {events events' : List (Event T Op R)}
    (h : Atomic.Run spec a events b) (h' : Atomic.Run spec b events' c) :
    Atomic.Run spec a (events ++ events') c := by
  induction h with
  | nil => exact h'
  | cons hstep hrest ih => exact .cons hstep (ih h')

/-- **A monitor that refines an atomic object**: the calls and returns of a run are those of an atomic
one, with each effect in between. -/
theorem Refines.Sim.run [Fintype T] {s s' : State T σ Op R L} {a : Atomic T α Op R} (hs : F.Sim s a)
    {labels : List (Label T Op)} (h : run M.step s labels = some s') :
    ∃ a', Atomic.Run spec a (M.history s labels) a' ∧ F.Sim s' a' := by
  induction labels generalizing s a with
  | nil =>
    cases h
    exact ⟨a, .nil, hs⟩
  | cons i labels ih =>
    obtain ⟨s₁, hstep, hrest⟩ := Option.bind_eq_some_iff.mp h
    obtain ⟨b, hfirst, hb⟩ := hs.step (M.taken_of_step hstep)
    obtain ⟨c, hthen, hc⟩ := ih hb hrest
    refine ⟨c, ?_, hc⟩
    rw [Monitor.history, hstep, Option.map_some, Option.getD_some]
    exact hfirst.append hthen

omit [DecidableEq T] in
theorem Refines.sim_initial {shared : σ} {object : α} (h : F.rep shared object) :
    F.Sim (State.initial shared : State T σ Op R L) ⟨object, fun _ => .idle⟩ where
  phase := rfl
  exclusive := exclusive_initial shared
  free := fun _ => h
  held := nofun
  waiting := fun _ => trivial

end

/-! ### Weighing the threads -/

section

variable {T Op R L : Type*} [Fintype T]

/-- The weights of all threads. -/
def total (weight : Pc Op R L → Nat) (pc : T → Pc Op R L) : Nat := ∑ t, weight (pc t)

theorem total_update [DecidableEq T] (weight : Pc Op R L → Nat) (pc : T → Pc Op R L) (t : T) (x : Pc Op R L) :
    total weight (Function.update pc t x) + weight (pc t) = total weight pc + weight x := by
  have hbefore := Finset.add_sum_erase Finset.univ (fun u => weight (pc u)) (Finset.mem_univ t)
  have hafter := Finset.add_sum_erase Finset.univ (fun u => weight (Function.update pc t x u))
    (Finset.mem_univ t)
  have hrest : ∑ u ∈ Finset.univ.erase t, weight (Function.update pc t x u) =
      ∑ u ∈ Finset.univ.erase t, weight (pc u) :=
    Finset.sum_congr rfl fun u hu => by rw [Function.update_of_ne (Finset.ne_of_mem_erase hu)]
  rw [hrest, Function.update_self] at hafter
  rw [total, total]
  omega

theorem total_eq_zero {weight : Pc Op R L → Nat} {pc : T → Pc Op R L} :
    total weight pc = 0 ↔ ∀ t, weight (pc t) = 0 := by
  rw [total, Finset.sum_eq_zero_iff]
  exact ⟨fun h t => h t (Finset.mem_univ t), fun h t _ => h t⟩

theorem total_le_total {weight : Pc Op R L → Nat} {pc pc' : T → Pc Op R L}
    (h : ∀ t, weight (pc t) ≤ weight (pc' t)) : total weight pc ≤ total weight pc' :=
  Finset.sum_le_sum fun t _ => h t

end

end NetMod.Monitors
