import Mathlib.Tactic.Linarith
import NetMod.Lib.Monitors

/-!
# Monitors that nobody sleeps in for ever

What is in a monitor may be for some of the sleepers (`demand`), or for all (`everyone`).  A thread that
will look for itself, or signal, counts for one of them (`credit`).  Where each statement keeps the
balance, a sleeper has nothing to wake for (`Awake.stuck`), and once there is something for everyone all
methods return (`Awake.returns`).
-/

namespace NetMod.Wakeups

open NetMod.PartialRuns NetMod.Monitors

/-- What the statements of a monitor do to those that wait in it. -/
structure Balance {σ Op R L : Type*} (M : Monitor σ Op R L) where
  demand : σ → Nat
  everyone : σ → Bool
  credit : L → Nat
  wakesAll : L → Bool
  sleeps : L → Prop
  /-- The statements that are left when there is something for everyone. -/
  left : L → Nat
  most : Nat
  sleeps_credit : ∀ {l}, sleeps l → 1 ≤ credit l ∧ left l < most
  enter : ∀ {op s l}, M.stmt (M.enter op) s ≠ .wait l
  left_le : ∀ l, left l ≤ most
  wake : ∀ {l s l'}, sleeps l → M.stmt l s ≠ .wait l'
  next : ∀ {l s s' l'}, M.stmt l s = .next s' l' →
    (demand s' = 0 ∨ demand s' + credit l ≤ demand s + credit l') ∧
    (everyone s' = true → everyone s = true ∧ wakesAll l = false ∨ wakesAll l' = true) ∧
    (∀ {l''}, M.stmt l' s' = .wait l'' → demand s' = 0 ∧ everyone s' = false) ∧
    (everyone s = true → everyone s' = true ∧ left l' < left l)
  signal : ∀ {l s l'}, M.stmt l s = .signal l' →
    credit l ≤ credit l' + 1 ∧ left l' < left l ∧ ∀ {s l''}, M.stmt l' s ≠ .wait l''
  broadcast : ∀ {l s l'}, M.stmt l s = .broadcast l' →
    left l' < left l ∧ ∀ {s l''}, M.stmt l' s ≠ .wait l''
  wait : ∀ {l s l'}, M.stmt l s = .wait l' → sleeps l'
  leave : ∀ {l s r}, M.stmt l s = .leave r → credit l = 0 ∧ wakesAll l = false ∧ 1 < left l

section

variable {T σ Op R L : Type*} {M : Monitor σ Op R L} (W : Balance M)

/-- Nobody sleeps. -/
def NobodyAsleep (s : State T σ Op R L) : Prop := ∀ t, (s.pc t).isAsleep = false

/-- A signal that is for everyone meets one sleeper at most. -/
def Balance.Alone (s : State T σ Op R L) : Prop :=
  (∀ {l s l'}, M.stmt l s = .signal l' → W.wakesAll l = false) ∨
    ∀ {t u : T}, (s.pc t).isAsleep = true → (s.pc u).isAsleep = true → t = u

/-- A thread that will look for itself or wake one that does. -/
def Balance.creditOf : Pc Op R L → Nat
  | .woken _ _ => 1
  | .inside _ l => W.credit l
  | _ => 0

/-- While somebody sleeps there is a thread for each demand, and nothing for everyone unless all are about
to be woken. -/
structure Balance.Awake [Fintype T] (s : State T σ Op R L) : Prop where
  exclusive : s.Exclusive
  waiting : ∀ t, (s.pc t).WaitsAt fun _ l => W.sleeps l
  tested : ∀ {t op l l'}, s.pc t = .inside op l → M.stmt l s.shared = .wait l' →
    W.demand s.shared = 0 ∧ W.everyone s.shared = false
  enough : NobodyAsleep s ∨ W.demand s.shared ≤ total W.creditOf s.pc
  closing : W.everyone s.shared = true →
    NobodyAsleep s ∨ ∃ t op l, s.pc t = .inside op l ∧ W.wakesAll l = true

theorem NobodyAsleep.at [DecidableEq T] {s : State T σ Op R L} (h : NobodyAsleep s) {t : T}
    {pc : Pc Op R L} (hpc : pc.isAsleep = false) : NobodyAsleep (s.at t pc) := by
  intro u
  by_cases hu : u = t
  · subst hu
    rw [State.at_pc, Function.update_self]
    exact hpc
  · rw [State.at_pc, Function.update_of_ne hu]
    exact h u

theorem not_nobodyAsleep {s : State T σ Op R L} {t : T} {op : Op} {l : L} (h : s.pc t = .asleep op l) :
    ¬ NobodyAsleep s := by
  intro hnobody
  have hasleep := hnobody t
  rw [h] at hasleep
  cases hasleep

variable [DecidableEq T] [Fintype T] {W}

/-- The holder of the mutex goes on, with as much credit as it needs. -/
theorem Balance.Awake.go {s : State T σ Op R L} (hs : W.Awake s) {t : T} {op : Op} {l l' : L} {shared : σ}
    (h : s.pc t = .inside op l)
    (hcredit : W.demand shared = 0 ∨ W.demand shared + W.credit l ≤ W.demand s.shared + W.credit l')
    (htested : ∀ {l''}, M.stmt l' shared = .wait l'' → W.demand shared = 0 ∧ W.everyone shared = false)
    (hclosing : W.everyone shared = true →
      W.everyone s.shared = true ∧ W.wakesAll l = false ∨ W.wakesAll l' = true) :
    W.Awake ({ s with shared }.at t (.inside op l')) where
  exclusive := by
    have hs' : State.Exclusive { s with shared } := hs.exclusive
    exact hs'.at (by rw [h]; rfl)
  waiting := waitsAt_update hs.waiting trivial
  tested := by
    intro u op' k k' hu hstmt
    by_cases hut : u = t
    · subst hut
      rw [State.at_pc, Function.update_self] at hu
      cases hu
      exact htested hstmt
    · rw [State.at_pc, Function.update_of_ne hut] at hu
      exact absurd (hs.exclusive.alone h hu) hut
  enough := by
    rcases hcredit with hnone | hcredit
    · exact .inr (by rw [State.at_shared]; dsimp only; rw [hnone]; exact Nat.zero_le _)
    · refine hs.enough.imp (fun hnobody => hnobody.at rfl) fun hlen => ?_
      have htotal := total_update W.creditOf s.pc t (.inside op l')
      rw [h, creditOf, creditOf] at htotal
      rw [State.at_shared, State.at_pc]
      dsimp only
      omega
  closing := by
    intro heveryone
    rcases hclosing heveryone with ⟨heveryone, hl⟩ | hl'
    · refine (hs.closing heveryone).imp (fun hnobody => hnobody.at rfl) ?_
      rintro ⟨u, op', k, hu, hk⟩
      obtain rfl := hs.exclusive.alone h hu
      rw [h] at hu
      cases hu
      exact absurd (hk.symm.trans hl) (by decide)
    · exact .inr ⟨t, op, l', by rw [State.at_pc, Function.update_self], hl'⟩

/-- A thread without the mutex goes on, without losing credit or falling asleep. -/
theorem Balance.Awake.move {s : State T σ Op R L} (hs : W.Awake s) {t : T} {pc : Pc Op R L}
    (hbefore : (s.pc t).isInside = false) (hafter : pc.isInside = false) (hasleep : pc.isAsleep = false)
    (hwaiting : pc.WaitsAt fun _ l => W.sleeps l) (hcredit : W.creditOf (s.pc t) ≤ W.creditOf pc) :
    W.Awake (s.at t pc) where
  exclusive := hs.exclusive.at (hafter.trans hbefore.symm)
  waiting := waitsAt_update hs.waiting hwaiting
  tested := by
    intro u op l l' hu hstmt
    rcases pc_update hu with rfl | hu
    · cases hafter
    · exact hs.tested hu hstmt
  enough := by
    refine hs.enough.imp (fun hnobody => hnobody.at hasleep) fun hlen => ?_
    have htotal := total_update W.creditOf s.pc t pc
    rw [State.at_shared, State.at_pc]
    omega
  closing := by
    intro heveryone
    refine (hs.closing heveryone).imp (fun hnobody => hnobody.at hasleep) ?_
    rintro ⟨u, op, l, hu, hl⟩
    have hne : u ≠ t := by
      rintro rfl
      rw [hu] at hbefore
      cases hbefore
    exact ⟨u, op, l, by rw [State.at_pc, Function.update_of_ne hne, hu], hl⟩

/-- A thread takes the mutex. -/
theorem Balance.Awake.take {s : State T σ Op R L} (hs : W.Awake s) (hfree : s.holder = none) {t : T} {op : Op}
    {l : L} (hl : ∀ {l'}, M.stmt l s.shared ≠ .wait l') (hcredit : W.creditOf (s.pc t) ≤ W.credit l) :
    W.Awake ({ s with holder := some t }.at t (.inside op l)) where
  exclusive := hs.exclusive.locked hfree rfl
  waiting := waitsAt_update hs.waiting trivial
  tested := by
    intro u op' k k' hu hstmt
    rcases pc_update hu with hx | hu
    · cases hx
      exact absurd hstmt hl
    · exact (hs.exclusive.nobody hfree hu).elim
  enough := by
    refine hs.enough.imp (fun hnobody => NobodyAsleep.at (s := { s with holder := some t }) hnobody rfl)
      fun hlen => ?_
    have htotal := total_update W.creditOf s.pc t (.inside op l)
    have hinside : W.creditOf (.inside op l) = W.credit l := rfl
    rw [State.at_shared, State.at_pc]
    dsimp only
    omega
  closing := by
    intro heveryone
    rcases hs.closing heveryone with hnobody | ⟨u, op', k, hu, -⟩
    · exact .inl (NobodyAsleep.at (s := { s with holder := some t }) hnobody rfl)
    · exact (hs.exclusive.nobody hfree hu).elim

/-- The holder of the mutex gives it up.  It falls asleep only if there is nothing for it. -/
theorem Balance.Awake.release {s : State T σ Op R L} (hs : W.Awake s) {t : T} {op : Op} {l : L}
    (h : s.pc t = .inside op l) {pc : Pc Op R L} (hafter : pc.isInside = false)
    (hwaiting : pc.WaitsAt fun _ l => W.sleeps l)
    (hquiet : (pc.isAsleep = false ∧ W.credit l = 0 ∧ W.wakesAll l = false) ∨
      W.demand s.shared = 0 ∧ W.everyone s.shared = false) :
    W.Awake ({ s with holder := none }.at t pc) where
  exclusive := hs.exclusive.unlocked (by rw [h]; rfl) hafter
  waiting := waitsAt_update hs.waiting hwaiting
  tested := by
    intro u op' k k' hu hstmt
    rcases pc_update hu with rfl | hu
    · cases hafter
    · exact hs.tested hu hstmt
  enough := by
    rcases hquiet with ⟨hasleep, hcredit, -⟩ | ⟨hnone, -⟩
    · refine hs.enough.imp (fun hnobody => NobodyAsleep.at (s := { s with holder := none }) hnobody hasleep)
        fun hlen => ?_
      have htotal := total_update W.creditOf s.pc t pc
      rw [h, show W.creditOf (.inside op l) = 0 from hcredit] at htotal
      rw [State.at_shared, State.at_pc]
      dsimp only
      omega
    · exact .inr (by rw [State.at_shared]; dsimp only; rw [hnone]; exact Nat.zero_le _)
  closing := by
    intro heveryone
    rcases hquiet with ⟨hasleep, -, hl⟩ | ⟨-, hnot⟩
    · rcases hs.closing heveryone with hnobody | ⟨u, op', k, hu, hk⟩
      · exact .inl (NobodyAsleep.at (s := { s with holder := none }) hnobody hasleep)
      · obtain rfl := hs.exclusive.alone h hu
        rw [h] at hu
        cases hu
        exact absurd (hk.symm.trans hl) (by decide)
    · rw [State.at_shared] at heveryone
      exact absurd (heveryone.symm.trans hnot) (by decide)

/-- The holder of the mutex goes on when nobody sleeps. -/
theorem Balance.Awake.quiet {s : State T σ Op R L} (hexclusive : s.Exclusive)
    (hwaiting : ∀ t, (s.pc t).WaitsAt fun _ l => W.sleeps l) {t : T} {op : Op} {l l' : L}
    (h : s.pc t = .inside op l) (hl' : ∀ {s l''}, M.stmt l' s ≠ .wait l'')
    (hnobody : NobodyAsleep (s.at t (.inside op l'))) : W.Awake (s.at t (.inside op l')) where
  exclusive := hexclusive.at (by rw [h]; rfl)
  waiting := waitsAt_update hwaiting trivial
  tested := by
    intro u op' k k' hu hstmt
    by_cases hut : u = t
    · subst hut
      rw [State.at_pc, Function.update_self] at hu
      cases hu
      exact absurd hstmt hl'
    · rw [State.at_pc, Function.update_of_ne hut] at hu
      exact absurd (hexclusive.alone h hu) hut
  enough := .inl hnobody
  closing := fun _ => .inl hnobody

/-- **One step** keeps the balance. -/
theorem Balance.Awake.step {s s' : State T σ Op R L} (hs : W.Awake s) (halone : W.Alone s) {i : Label T Op}
    (h : M.Taken s i s') : W.Awake s' := by
  cases h with
  | call h => exact hs.move (by rw [h]; rfl) rfl rfl trivial (by rw [h]; exact le_rfl)
  | enter hfree h => exact hs.take hfree W.enter (by rw [h]; exact Nat.zero_le _)
  | @relock t op l hfree h =>
    have hl : W.sleeps l := by
      have hwaits := hs.waiting t
      rwa [h] at hwaits
    exact hs.take hfree (W.wake hl) (by rw [h]; exact (W.sleeps_credit hl).1)
  | next h hstmt =>
    obtain ⟨hcredit, hclosing, htested, -⟩ := W.next hstmt
    exact hs.go h hcredit htested hclosing
  | @signal t u op op' l l' k h hstmt hu =>
    obtain ⟨hcredit, -, hl'⟩ := W.signal hstmt
    have hne : u ≠ t := by
      rintro rfl
      rw [h] at hu
      cases hu
    have hk : W.sleeps k := by
      have hwaits := hs.waiting u
      rwa [hu] at hwaits
    have hsome := not_nobodyAsleep hu
    have hwaiting : ∀ v, ((s.at t (.inside op l')).pc v).WaitsAt fun _ l => W.sleeps l :=
      waitsAt_update hs.waiting trivial
    have hpc : ∀ {v op'' k''}, (((s.at t (.inside op l')).at u (.woken op' k)).pc v) = .inside op'' k'' →
        k'' = l' ∨ v ≠ t ∧ s.pc v = .inside op'' k'' := by
      intro v op'' k'' hv
      rcases pc_update hv with hx | hv
      · cases hx
      by_cases hvt : v = t
      · subst hvt
        rw [State.at_pc, Function.update_self] at hv
        cases hv
        exact .inl rfl
      · rw [State.at_pc, Function.update_of_ne hvt] at hv
        exact .inr ⟨hvt, hv⟩
    exact {
      exclusive := (Monitor.Taken.signal h hstmt hu : M.Taken s _ _).exclusive hs.exclusive
      waiting := waitsAt_update hwaiting hk
      tested := by
        intro v op'' k'' k''' hv hwait
        rcases hpc hv with rfl | ⟨hvt, hv⟩
        · exact absurd hwait hl'
        · exact absurd (hs.exclusive.alone h hv) hvt
      enough := .inr (by
        -- the credit of the signal goes to the thread that wakes
        have hlen := hs.enough.resolve_left hsome
        have htotal := total_update W.creditOf s.pc t (.inside op l')
        have htotal' := total_update W.creditOf (Function.update s.pc t (.inside op l')) u (.woken op' k)
        rw [Function.update_of_ne hne, hu] at htotal'
        rw [h] at htotal
        have hbefore : W.creditOf (.inside op l) = W.credit l := rfl
        have hafter : W.creditOf (.inside op l') = W.credit l' := rfl
        have hasleep : W.creditOf (.asleep op' k) = 0 := rfl
        have hwoken : W.creditOf (.woken op' k) = 1 := rfl
        rw [State.at_shared, State.at_shared, State.at_pc, State.at_pc]
        omega)
      closing := by
        intro heveryone
        obtain ⟨v, op'', k'', hv, hwakes⟩ := (hs.closing heveryone).resolve_left hsome
        obtain rfl := hs.exclusive.alone h hv
        rw [h] at hv
        cases hv
        -- the one sleeper has been woken
        rcases halone with hnone | hone
        · exact absurd (hwakes.symm.trans (hnone hstmt)) (by decide)
        · refine .inl fun w => ?_
          by_cases hwu : w = u
          · subst hwu
            rw [State.at_pc, Function.update_self]
            rfl
          · rw [State.at_pc, Function.update_of_ne hwu]
            by_cases hwv : w = v
            · subst hwv
              rw [State.at_pc, Function.update_self]
              rfl
            · rw [State.at_pc, Function.update_of_ne hwv]
              exact Bool.eq_false_iff.mpr fun hasleep => hwu (hone hasleep (by rw [hu]; rfl)) }
  | signalNone h hstmt hnone =>
    obtain ⟨-, -, hl'⟩ := W.signal hstmt
    exact .quiet hs.exclusive hs.waiting h hl' (NobodyAsleep.at hnone rfl)
  | @broadcast t woken op l l' h hstmt =>
    obtain ⟨-, hl'⟩ := W.broadcast hstmt
    have hexclusive : State.Exclusive { s with pc := fun u => (s.pc u).wake } := by
      intro u
      rw [Pc.isInside_wake]
      exact hs.exclusive u
    have hwake : NobodyAsleep { s with pc := fun u => (s.pc u).wake } := fun u => Pc.isAsleep_wake (s.pc u)
    have ht : (s.pc t).wake = .inside op l := by rw [h]; rfl
    exact .quiet hexclusive (fun u => Pc.waitsAt_wake.mpr (hs.waiting u)) ht hl' (hwake.at rfl)
  | wait h hstmt => exact hs.release h rfl (W.wait hstmt) (.inr (hs.tested h hstmt))
  | leave h hstmt =>
    obtain ⟨hcredit, hl, -⟩ := W.leave hstmt
    exact hs.release h rfl trivial (.inl ⟨rfl, hcredit, hl⟩)
  | @spurious t op l h =>
    have hl : W.sleeps l := by
      have hwaits := hs.waiting t
      rwa [h] at hwaits
    exact hs.move (by rw [h]; rfl) rfl rfl hl (by rw [h]; exact Nat.zero_le _)
  | ret h => exact hs.move (by rw [h]; rfl) rfl rfl trivial (by rw [h]; exact le_rfl)

omit [DecidableEq T] in
theorem Balance.awake_initial (shared : σ) : W.Awake (State.initial shared : State T σ Op R L) where
  exclusive := exclusive_initial shared
  waiting := fun _ => trivial
  tested := nofun
  enough := .inl fun _ => rfl
  closing := fun _ => .inl fun _ => rfl

/-- **A sleeper has nothing to wake for**, where nobody can go on. -/
theorem Balance.Awake.stuck {s : State T σ Op R L} (hs : W.Awake s) (hstuck : M.Stuck s) (t : T) :
    s.pc t = .outside ∨ (s.pc t).isAsleep = true ∧ W.demand s.shared = 0 ∧ W.everyone s.shared = false := by
  obtain ⟨hfree, hall⟩ := hstuck.cases hs.exclusive
  refine (hall t).imp_right ?_
  rintro ⟨op, l, hpc⟩
  have hsome := not_nobodyAsleep hpc
  have hnothing : total W.creditOf s.pc = 0 := by
    refine total_eq_zero.mpr fun u => ?_
    rcases hall u with hu | ⟨op', k, hu⟩
    · rw [hu]
      rfl
    · rw [hu]
      rfl
  have hdemand := hs.enough.resolve_left hsome
  rw [hnothing] at hdemand
  refine ⟨by rw [hpc]; rfl, Nat.le_zero.mp hdemand, Bool.eq_false_iff.mpr fun heveryone => ?_⟩
  obtain ⟨u, op', k, hu, -⟩ := (hs.closing heveryone).resolve_left hsome
  exact hs.exclusive.nobody hfree hu

theorem Balance.Awake.run {labels : List (Label T Op)} {s s' : State T σ Op R L} (hs : W.Awake s)
    (halone : Along M.step (fun s _ => W.Alone s) s labels) (h : run M.step s labels = some s') :
    W.Awake s' :=
  run_invariant_along W.Awake (fun _ _ _ hs halone hstep => hs.step halone (M.taken_of_step hstep)) hs
    halone h

/-! ### Everybody returns -/

/-- The steps that are left of a method. -/
def Balance.remaining (W : Balance M) : Pc Op R L → Nat
  | .outside => 0
  | .leaving _ _ => 1
  | .inside _ l => W.left l
  | .woken _ _ => W.most
  | .entering _ | .asleep _ _ => W.most + 1

omit [DecidableEq T] [Fintype T] in
theorem Balance.remaining_wake (pc : Pc Op R L) : W.remaining pc.wake ≤ W.remaining pc := by
  cases pc with
  | asleep op l => exact Nat.le_succ _
  | _ => exact le_rfl

omit [DecidableEq T] [Fintype T] in
theorem Balance.remaining_le (pc : Pc Op R L) : W.remaining pc ≤ W.most + 1 := by
  cases pc with
  | outside => exact Nat.zero_le _
  | leaving op r => exact Nat.succ_le_succ (Nat.zero_le _)
  | inside op l => exact (W.left_le l).trans (Nat.le_succ _)
  | woken op l => exact Nat.le_succ _
  | entering op => exact le_rfl
  | asleep op l => exact le_rfl

theorem Balance.total_remaining_update {pc : T → Pc Op R L} {t : T} {x : Pc Op R L}
    (h : W.remaining x < W.remaining (pc t)) :
    total W.remaining (Function.update pc t x) < total W.remaining pc := by
  have htotal := total_update W.remaining pc t x
  omega

/-- With something for everyone a step that is not a call is one less. -/
theorem Balance.Awake.remaining_step {s s' : State T σ Op R L} (hs : W.Awake s)
    (heveryone : W.everyone s.shared = true) {i : Label T Op} (hcall : ∀ t op, i ≠ .call t op)
    (h : M.Taken s i s') :
    total W.remaining s'.pc < total W.remaining s.pc ∧ W.everyone s'.shared = true := by
  cases h with
  | call h => exact absurd rfl (hcall _ _)
  | @enter t op hfree h =>
    refine ⟨total_remaining_update ?_, heveryone⟩
    rw [h]
    exact Nat.lt_succ_of_le (W.left_le _)
  | @relock t op l hfree h =>
    have hl : W.sleeps l := by
      have hwaits := hs.waiting t
      rwa [h] at hwaits
    refine ⟨total_remaining_update ?_, heveryone⟩
    rw [h]
    exact (W.sleeps_credit hl).2
  | @next t woken op l l' shared h hstmt =>
    obtain ⟨hstill, hleft⟩ := (W.next hstmt).2.2.2 heveryone
    refine ⟨total_remaining_update ?_, hstill⟩
    rw [h]
    exact hleft
  | @signal t u op op' l l' k h hstmt hu =>
    have hne : u ≠ t := by
      rintro rfl
      rw [h] at hu
      cases hu
    refine ⟨(total_remaining_update ?_).trans (total_remaining_update ?_), heveryone⟩
    · rw [State.at_pc, Function.update_of_ne hne, hu]
      exact Nat.lt_succ_self _
    · rw [h]
      exact (W.signal hstmt).2.1
  | @signalNone t op l l' h hstmt hnone =>
    refine ⟨total_remaining_update ?_, heveryone⟩
    rw [h]
    exact (W.signal hstmt).2.1
  | @broadcast t woken op l l' h hstmt =>
    refine ⟨(total_remaining_update ?_).trans_le (total_le_total fun u => remaining_wake (s.pc u)), heveryone⟩
    dsimp only
    rw [h]
    exact (W.broadcast hstmt).1
  | wait h hstmt => exact absurd (heveryone.symm.trans (hs.tested h hstmt).2) (by decide)
  | @leave t woken op l r h hstmt =>
    refine ⟨total_remaining_update ?_, heveryone⟩
    rw [h]
    exact (W.leave hstmt).2.2
  | @spurious t op l h =>
    refine ⟨total_remaining_update ?_, heveryone⟩
    rw [h]
    exact Nat.lt_succ_self _
  | @ret t op r h =>
    refine ⟨total_remaining_update ?_, heveryone⟩
    rw [h]
    exact Nat.zero_lt_one

theorem Balance.Awake.remaining_run {labels : List (Label T Op)} (hcalls : ∀ t op, Label.call t op ∉ labels)
    {s s' : State T σ Op R L} (hs : W.Awake s) (halone : Along M.step (fun s _ => W.Alone s) s labels)
    (heveryone : W.everyone s.shared = true) (h : PartialRuns.run M.step s labels = some s') :
    labels.length + total W.remaining s'.pc ≤ total W.remaining s.pc ∧ W.everyone s'.shared = true := by
  induction labels generalizing s with
  | nil =>
    cases h
    exact ⟨(Nat.zero_add _).le, heveryone⟩
  | cons i labels ih =>
    obtain ⟨s₁, hstep, hrest⟩ := Option.bind_eq_some_iff.mp h
    obtain ⟨hfirst, hthen⟩ := along_cons.mp halone
    have htaken := M.taken_of_step hstep
    have hcall : ∀ t op, i ≠ .call t op := by
      rintro t op rfl
      exact hcalls t op List.mem_cons_self
    obtain ⟨hless, hstill⟩ := hs.remaining_step heveryone hcall htaken
    obtain ⟨hlen, hend⟩ := ih (fun t op hmem => hcalls t op (List.mem_cons_of_mem _ hmem))
      (hs.step hfirst htaken) (hthen s₁ hstep) hstill hrest
    refine ⟨?_, hend⟩
    rw [List.length_cons]
    omega

/-- **Everybody returns** once there is something for everyone: without new calls a run ends, after so many
steps for each thread, and where it ends every method has returned. -/
theorem Balance.Awake.returns {labels : List (Label T Op)} (hcalls : ∀ t op, Label.call t op ∉ labels)
    {s s' : State T σ Op R L} (hs : W.Awake s) (halone : Along M.step (fun s _ => W.Alone s) s labels)
    (heveryone : W.everyone s.shared = true) (h : PartialRuns.run M.step s labels = some s') :
    labels.length ≤ (W.most + 1) * Fintype.card T ∧ (M.Stuck s' → ∀ t, s'.pc t = .outside) := by
  obtain ⟨hlen, hend⟩ := hs.remaining_run hcalls halone heveryone h
  have hmost : total W.remaining s.pc ≤ (W.most + 1) * Fintype.card T := by
    have hle : total W.remaining s.pc ≤ ∑ _t : T, (W.most + 1) :=
      Finset.sum_le_sum fun t _ => W.remaining_le (s.pc t)
    rwa [Finset.sum_const_nat (m := W.most + 1) fun _ _ => rfl, Finset.card_univ, Nat.mul_comm] at hle
  refine ⟨by omega, fun hstuck t => ?_⟩
  refine ((hs.run halone h).stuck hstuck t).resolve_right ?_
  rintro ⟨-, -, hnot⟩
  exact absurd (hend.symm.trans hnot) (by decide)

end

end NetMod.Wakeups
