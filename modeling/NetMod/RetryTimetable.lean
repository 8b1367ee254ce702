import NetMod.ClientEngine
import NetMod.Lib.FixedWidth
import NetMod.MinHeapOrder

/-!
# The timetable of the retries

`ScheduleRetry`, `AdmitDueRetries` and `NextRetryDeltaMs` as calls on the retry queue, at
non-decreasing readings of the clock.  `TTimeComparator` narrows a difference of two `Long`s to an
`Int`: it orders two envelopes rightly while their due times are less than 2^31 ms apart.  Then the
queue is a heap and the timetable is kept to the millisecond (`timetable_exact`); two envelopes
further apart can stand in the wrong order, and the later one then hides the earlier one.
-/

namespace NetMod.ClientEngine

open NetMod.FixedWidth NetMod.MinHeap NetMod.PartialRuns

/-! ### 64-bit times and 32-bit sleeps -/

theorem max_zero_toNat (sleepMs : Int32) :
    (max 0 sleepMs).toInt64.toUInt64.toNat = sleepMs.toInt.toNat := by
  have h : (max 0 sleepMs).toInt64.toInt = max 0 sleepMs.toInt := by
    rw [Int32.toInt_toInt64, max_zero_toInt]
  rw [toUInt64_toNat (by rw [h]; exact le_max_left _ _), h]
  omega

/-! ### The calls -/

/-- `nextAtMS`, as `AdmitDueRetries` compares it with the clock. -/
def TRequestEnvelope.due (env : TRequestEnvelope) : Nat := env.retry.nextAtMS.toUInt64.toNat

/-- The envelope `ScheduleRetry(env, sleepMs)` pushes. -/
def TRequestEnvelope.scheduled (env : TRequestEnvelope) (sleepMs : Int32) (now : UInt64) :
    TRequestEnvelope :=
  { env with retry := env.retry.next sleepMs now }

/-- One turn of `AdmitDueRetries`: the envelope it prepares, and the queue without it. -/
def admitTurn (now : UInt64) (heap : TMinHeap TRequestEnvelope) :
    Option (TRequestEnvelope × TMinHeap TRequestEnvelope) :=
  match heap.peek, heap.pop timeCompare with
  | some peek, some (_, heap) =>
    if now < peek.retry.nextAtMS.toUInt64 then none else some (peek, heap)
  | _, _ => none

def admitTurns (now : UInt64) :
    Nat → TMinHeap TRequestEnvelope → List TRequestEnvelope × TMinHeap TRequestEnvelope
  | 0, heap => ([], heap)
  | fuel + 1, heap =>
    match admitTurn now heap with
    | none => ([], heap)
    | some (env, rest) =>
      let (envs, rest) := admitTurns now fuel rest
      (env :: envs, rest)

/-- `AdmitDueRetries`: the envelopes it prepares in order, and the queue it leaves. -/
def admitAll (now : UInt64) (heap : TMinHeap TRequestEnvelope) :
    List TRequestEnvelope × TMinHeap TRequestEnvelope :=
  admitTurns now heap.data.length heap

/-- `NextRetryDeltaMs`. -/
def nextRetryDeltaMs (heap : TMinHeap TRequestEnvelope) (now : UInt64) : Int32 :=
  match heap.peek with
  | none => 1000000000
  | some env => (max 0 (env.retry.nextAtMS - now.toInt64)).toInt32

/-- How long `Run` polls, from libcurl's timeout and the retries' one. -/
def pollMs (ms retryMs : Int32) : Int32 :=
  let ms := if ms < 0 ∨ 1000 < ms then 100 else ms
  let pollMs := min ms retryMs
  if pollMs < 1 then 1 else pollMs

/-- The retry queue, and the last reading of the clock. -/
structure Timetable where
  heap : TMinHeap TRequestEnvelope := {}
  clock : UInt64 := 0

inductive TimetableCall where
  | schedule (env : TRequestEnvelope) (sleepMs : Int32) (now : UInt64)
  | admitDue (now : UInt64)
  | delta (now : UInt64) (ms : Int32)

/-- A call at its reading of the clock, which does not go back. -/
def timetableStep (s : Timetable) : TimetableCall → Option Timetable
  | .schedule env sleepMs now =>
    if s.clock ≤ now then some ⟨s.heap.push timeCompare (env.scheduled sleepMs now), now⟩ else none
  | .admitDue now => if s.clock ≤ now then some ⟨(admitAll now s.heap).2, now⟩ else none
  | .delta now _ => if s.clock ≤ now then some { s with clock := now } else none

/-- What the timetable asks of a call: the due envelopes and no others are admitted, in the order of
their times, and the poll ends with the first due time, or after a millisecond. -/
def Exactly (s : Timetable) : TimetableCall → Prop
  | .schedule .. => True
  | .admitDue now =>
    (admitAll now s.heap).1.Perm (s.heap.data.filter fun e => decide (e.due ≤ now.toNat)) ∧
      (admitAll now s.heap).2.data.Perm (s.heap.data.filter fun e => decide (now.toNat < e.due)) ∧
      (admitAll now s.heap).1.Pairwise fun a b => a.due ≤ b.due
  | .delta now ms =>
    s.clock ≤ now → s.heap.data ≠ [] → ∃ e ∈ s.heap.data, (∀ e' ∈ s.heap.data, e.due ≤ e'.due) ∧
      (nextRetryDeltaMs s.heap now).toInt = max 0 ((e.due : Int) - now.toNat) ∧
      now.toNat + (pollMs ms (nextRetryDeltaMs s.heap now)).toInt ≤ max (e.due : Int) (now.toNat + 1)

/-- The times stay in the range of a `Long`, and a new due time is less than 2^31 ms from those of
the queue. -/
def InReach (s : Timetable) : TimetableCall → Prop
  | .schedule _ sleepMs now =>
    now.toNat + sleepMs.toInt.toNat < 2 ^ 63 ∧
      ∀ e ∈ s.heap.data, e.due < now.toNat + sleepMs.toInt.toNat + 2 ^ 31 ∧
        now.toNat + sleepMs.toInt.toNat < e.due + 2 ^ 31
  | .admitDue _ => True
  | .delta now _ => now.toNat < 2 ^ 63

/-- A turn of the machine in `AdmitDueRetries` is a turn of the loop. -/
theorem admitDueRetries_eq {C : Type} (s : Engine C) (now : UInt64) :
    admitDueRetries s now =
      match admitTurn now s.retryQueue with
      | none => { s with pc := .performing }
      | some (env, retryQueue) => { s with retryQueue, pc := .preparing env (.admission now) } := by
  rw [admitDueRetries, admitTurn]
  cases s.retryQueue.peek with
  | none => rfl
  | some peek =>
    cases s.retryQueue.pop timeCompare with
    | none => rfl
    | some popped =>
      dsimp only
      split <;> rfl

/-! ### The comparator on near times -/

theorem timeCompare_toInt (a b : TRequestEnvelope) :
    (timeCompare a b).toInt = ((a.due : Int) - b.due).bmod (2 ^ 32) := by
  rw [timeCompare, Int64.toInt_toInt32, toInt_sub_bmod]
  exact Int.bmod_bmod_of_dvd (by norm_num)

/-- Less than 2^31 ms apart. -/
def Near (a b : TRequestEnvelope) : Prop := a.due < b.due + 2 ^ 31 ∧ b.due < a.due + 2 ^ 31

theorem timeCompare_lt_iff {a b : TRequestEnvelope} (h : Near a b) :
    timeCompare a b < 0 ↔ a.due < b.due := by
  obtain ⟨hab, hba⟩ := h
  have hval : ((a.due : Int) - b.due).bmod (2 ^ 32) = (a.due : Int) - b.due :=
    Int.bmod_eq_of_le (by omega) (by omega)
  rw [Int32.lt_iff_toInt_lt, timeCompare_toInt, hval, Int32.toInt_zero]
  omega

/-- **On times that are near each other the comparator is an order.** -/
theorem timeCompare_ordersOn {l : List TRequestEnvelope} (hl : ∀ a ∈ l, ∀ b ∈ l, Near a b) :
    OrdersOn timeCompare (· ∈ l) where
  asymm a b ha hb h := by
    rw [timeCompare_lt_iff (hl a ha b hb)] at h
    rw [timeCompare_lt_iff (hl b hb a ha)]
    omega
  trans a b c ha hb hc hba hcb := by
    rw [timeCompare_lt_iff (hl b hb a ha)] at hba
    rw [timeCompare_lt_iff (hl c hc b hb)] at hcb
    rw [timeCompare_lt_iff (hl c hc a ha)]
    omega

theorem due_scheduled (env : TRequestEnvelope) {sleepMs : Int32} {now : UInt64}
    (h : now.toNat + sleepMs.toInt.toNat < 2 ^ 64) :
    (env.scheduled sleepMs now).due = now.toNat + sleepMs.toInt.toNat := by
  show ((now + (max 0 sleepMs).toInt64.toUInt64).toInt64.toUInt64).toNat = _
  rw [UInt64.toUInt64_toInt64, UInt64.toNat_add, max_zero_toNat, Nat.mod_eq_of_lt h]

/-! ### What one call does -/

/-- What the calls keep: the queue is a heap of near times, and none is more than the longest sleep
ahead of the clock. -/
structure TimetableInv (s : Timetable) : Prop where
  near : ∀ a ∈ s.heap.data, ∀ b ∈ s.heap.data, Near a b
  ordered : HeapOrdered timeCompare s.heap.data
  ahead : ∀ e ∈ s.heap.data, e.due < s.clock.toNat + 2 ^ 31
  small : ∀ e ∈ s.heap.data, e.due < 2 ^ 63

theorem timetableInv_empty : TimetableInv {} where
  near := by simp
  ordered := heapOrdered_nil
  ahead := by simp
  small := by simp

/-- A turn admits the first of the heap if it is due; if it is not, none is. -/
theorem admitTurn_spec {heap : TMinHeap TRequestEnvelope}
    (hnear : ∀ a ∈ heap.data, ∀ b ∈ heap.data, Near a b)
    (hordered : HeapOrdered timeCompare heap.data) (now : UInt64) :
    (admitTurn now heap = none ∧ ∀ e ∈ heap.data, now.toNat < e.due) ∨
      ∃ env rest, admitTurn now heap = some (env, rest) ∧ env.due ≤ now.toNat ∧
        heap.data.Perm (env :: rest.data) ∧ HeapOrdered timeCompare rest.data ∧
        ∀ e ∈ rest.data, env.due ≤ e.due := by
  have ho := timeCompare_ordersOn hnear
  rw [admitTurn]
  cases hpop : heap.pop timeCompare with
  | none =>
    have hdata : heap.data = [] := (pop_eq_none timeCompare).mp hpop
    rw [peek_eq_none.mpr hdata]
    exact Or.inl ⟨rfl, by rw [hdata]; simp⟩
  | some popped =>
    obtain ⟨env, rest⟩ := popped
    obtain ⟨hpeek, hperm⟩ := pop_perm timeCompare hpop
    have hleast : ∀ e ∈ heap.data, env.due ≤ e.due := by
      intro e he
      have henv : env ∈ heap.data := hperm.symm.subset List.mem_cons_self
      have hle := peek_le ho (fun x hx => hx) hordered hpeek e he
      rw [timeCompare_lt_iff (hnear e he env henv)] at hle
      omega
    rw [hpeek]
    dsimp only
    by_cases hlater : now < env.retry.nextAtMS.toUInt64
    · rw [if_pos hlater]
      have hlt : now.toNat < env.due := UInt64.lt_iff_toNat_lt.mp hlater
      refine Or.inl ⟨rfl, fun e he => ?_⟩
      have := hleast e he
      omega
    · rw [if_neg hlater]
      refine Or.inr ⟨env, rest, rfl, ?_, hperm, ?_, fun e he => ?_⟩
      · exact UInt64.le_iff_toNat_le.mp (UInt64.not_lt.mp hlater)
      · exact pop_ordered ho (fun x hx => hx) hordered hpop
      · exact hleast e (hperm.symm.subset (List.mem_cons_of_mem _ he))

/-- **The loop admits what is due and nothing else, in order.** -/
theorem admitTurns_spec (now : UInt64) (fuel : Nat) :
    ∀ {heap : TMinHeap TRequestEnvelope}, heap.data.length ≤ fuel →
      (∀ a ∈ heap.data, ∀ b ∈ heap.data, Near a b) → HeapOrdered timeCompare heap.data →
      heap.data.Perm ((admitTurns now fuel heap).1 ++ (admitTurns now fuel heap).2.data) ∧
        (∀ e ∈ (admitTurns now fuel heap).1, e.due ≤ now.toNat) ∧
        (∀ e ∈ (admitTurns now fuel heap).2.data, now.toNat < e.due) ∧
        ((admitTurns now fuel heap).1.Pairwise fun a b => a.due ≤ b.due) ∧
        HeapOrdered timeCompare (admitTurns now fuel heap).2.data := by
  induction fuel with
  | zero =>
    intro heap hlen _ hordered
    have hdata : heap.data = [] := List.length_eq_zero_iff.mp (by omega)
    simp only [admitTurns, hdata, List.append_nil, List.not_mem_nil, false_imp_iff, implies_true,
      List.Perm.refl, List.Pairwise.nil, true_and]
    exact heapOrdered_nil
  | succ fuel ih =>
    intro heap hlen hnear hordered
    rcases admitTurn_spec hnear hordered now with
      ⟨hturn, hlater⟩ | ⟨env, rest, hturn, hdue, hperm, hrest, hleast⟩
    · simp only [admitTurns, hturn, List.nil_append, List.not_mem_nil, false_imp_iff, implies_true,
        List.Perm.refl, List.Pairwise.nil, true_and]
      exact ⟨hlater, hordered⟩
    · have hsub : rest.data ⊆ heap.data :=
        fun e he => hperm.symm.subset (List.mem_cons_of_mem _ he)
      have hlen' : rest.data.length ≤ fuel := by
        have := hperm.length_eq
        rw [List.length_cons] at this
        omega
      obtain ⟨hp, hadm, hleft, hsorted, hheap⟩ :=
        ih hlen' (fun a ha b hb => hnear a (hsub ha) b (hsub hb)) hrest
      simp only [admitTurns, hturn]
      refine ⟨hperm.trans (hp.cons env), fun e he => ?_, hleft, ?_, hheap⟩
      · rcases List.mem_cons.mp he with rfl | he
        · exact hdue
        · exact hadm e he
      · refine List.pairwise_cons.mpr ⟨fun e he => ?_, hsorted⟩
        exact hleast e (hp.symm.subset (List.mem_append_left _ he))

/-- Splitting a list by a test that the two parts decide. -/
theorem perm_filter_of_split {α : Type*} {l l₁ l₂ : List α} {p : α → Bool} (h : l.Perm (l₁ ++ l₂))
    (h₁ : ∀ x ∈ l₁, p x = true) (h₂ : ∀ x ∈ l₂, p x = false) : l₁.Perm (l.filter p) := by
  have hnone : l₂.filter p = [] :=
    List.filter_eq_nil_iff.mpr fun x hx => by rw [h₂ x hx]; exact Bool.false_ne_true
  have hfilter := h.filter p
  rw [List.filter_append, List.filter_eq_self.mpr h₁, hnone, List.append_nil] at hfilter
  exact hfilter.symm

theorem exactly_admitDue {s : Timetable} (hi : TimetableInv s) (now : UInt64) :
    Exactly s (.admitDue now) := by
  obtain ⟨hp, hadm, hleft, hsorted, -⟩ := admitTurns_spec now _ le_rfl hi.near hi.ordered
  refine ⟨?_, ?_, hsorted⟩
  · refine perm_filter_of_split hp (fun e he => ?_) fun e he => ?_
    · exact decide_eq_true (hadm e he)
    · exact decide_eq_false (by have := hleft e he; omega)
  · refine perm_filter_of_split (hp.trans List.perm_append_comm) (fun e he => ?_) fun e he => ?_
    · exact decide_eq_true (hleft e he)
    · exact decide_eq_false (by have := hadm e he; omega)

/-- The next delay, with the first due time at most the longest sleep ahead. -/
theorem nextRetryDeltaMs_toInt {heap : TMinHeap TRequestEnvelope} {env : TRequestEnvelope}
    {now : UInt64} (hpeek : heap.peek = some env) (hnow : now.toNat < 2 ^ 63)
    (hahead : env.due < now.toNat + 2 ^ 31) (hsmall : env.due < 2 ^ 63) :
    (nextRetryDeltaMs heap now).toInt = max 0 ((env.due : Int) - now.toNat) := by
  have hsub : (env.retry.nextAtMS - now.toInt64).toInt = (env.due : Int) - now.toNat := by
    rw [toInt_sub_bmod, UInt64.toUInt64_toInt64]
    exact Int.bmod_eq_of_le (by show _ ≤ (env.due : Int) - _; omega)
      (by show (env.due : Int) - _ < _; omega)
  have hmax : (max 0 (env.retry.nextAtMS - now.toInt64)).toInt =
      max 0 ((env.due : Int) - now.toNat) := by
    rw [← hsub]
    show (if 0 ≤ env.retry.nextAtMS - now.toInt64 then env.retry.nextAtMS - now.toInt64
      else 0 : Int64).toInt = _
    split
    · rename_i h
      rw [Int64.le_iff_toInt_le] at h
      exact (max_eq_right h).symm
    · rename_i h
      rw [Int64.le_iff_toInt_le, not_le] at h
      exact (max_eq_left h.le).symm
  rw [nextRetryDeltaMs, hpeek]
  show (max 0 (env.retry.nextAtMS - now.toInt64)).toInt32.toInt = _
  rw [Int64.toInt_toInt32, hmax]
  exact Int.bmod_eq_of_le (by omega) (by omega)

theorem pollMs_le (ms retryMs : Int32) : (pollMs ms retryMs).toInt ≤ max 1 retryMs.toInt := by
  have hmin : ∀ a b : Int32, (min a b).toInt ≤ b.toInt := by
    intro a b
    show (if a ≤ b then a else b : Int32).toInt ≤ b.toInt
    split
    · rename_i h
      exact Int32.le_iff_toInt_le.mp h
    · exact le_rfl
  have hcut : ∀ a : Int32, a.toInt ≤ retryMs.toInt →
      (if a < 1 then 1 else a : Int32).toInt ≤ max 1 retryMs.toInt := by
    intro a ha
    split
    · exact le_max_left 1 retryMs.toInt
    · exact ha.trans (le_max_right 1 retryMs.toInt)
  exact hcut _ (hmin _ _)

theorem exactly_delta {s : Timetable} (hi : TimetableInv s) {now : UInt64} (ms : Int32)
    (hnow : now.toNat < 2 ^ 63) : Exactly s (.delta now ms) := by
  intro hclock hne
  obtain ⟨env, hpeek⟩ : ∃ env, s.heap.peek = some env := by
    rw [← Option.isSome_iff_exists, Option.isSome_iff_ne_none]
    exact fun h => hne (peek_eq_none.mp h)
  have henv : env ∈ s.heap.data := List.mem_of_mem_head? hpeek
  have hle : s.clock.toNat ≤ now.toNat := UInt64.le_iff_toNat_le.mp hclock
  have hahead := hi.ahead env henv
  have hdelta := nextRetryDeltaMs_toInt hpeek hnow (by omega) (hi.small env henv)
  refine ⟨env, henv, fun e he => ?_, hdelta, ?_⟩
  · have hfirst := peek_le (timeCompare_ordersOn hi.near) (fun x hx => hx) hi.ordered hpeek e he
    rw [timeCompare_lt_iff (hi.near e he env henv)] at hfirst
    omega
  · have hpoll := pollMs_le ms (nextRetryDeltaMs s.heap now)
    rw [hdelta] at hpoll
    omega

/-- **A call in reach keeps the heap of near times.** -/
theorem timetableInv_step (s : Timetable) (call : TimetableCall) (s' : Timetable)
    (hi : TimetableInv s) (hreach : InReach s call) (h : timetableStep s call = some s') :
    TimetableInv s' := by
  cases call with
  | schedule env sleepMs now =>
    simp only [timetableStep, Option.ite_none_right_eq_some, Option.some.injEq] at h
    obtain ⟨hclock, rfl⟩ := h
    obtain ⟨hlong, hnear⟩ := hreach
    have hle : s.clock.toNat ≤ now.toNat := UInt64.le_iff_toNat_le.mp hclock
    have hdue : (env.scheduled sleepMs now).due = now.toNat + sleepMs.toInt.toNat :=
      due_scheduled env (by omega)
    have hsleep : sleepMs.toInt < 2 ^ 31 := Int32.toInt_lt sleepMs
    have hall : ∀ e ∈ env.scheduled sleepMs now :: s.heap.data,
        e = env.scheduled sleepMs now ∨ e ∈ s.heap.data := fun e he => List.mem_cons.mp he
    have hcross : ∀ e ∈ s.heap.data, Near e (env.scheduled sleepMs now) := by
      intro e he
      rw [Near, hdue]
      exact hnear e he
    have hnew : ∀ a ∈ env.scheduled sleepMs now :: s.heap.data,
        ∀ b ∈ env.scheduled sleepMs now :: s.heap.data, Near a b := by
      intro a ha b hb
      rcases hall a ha with rfl | ha
      · rcases hall b hb with rfl | hb
        · exact ⟨by omega, by omega⟩
        · exact (hcross b hb).symm
      · rcases hall b hb with rfl | hb
        · exact hcross a ha
        · exact hi.near a ha b hb
    have hperm := push_perm timeCompare s.heap (env.scheduled sleepMs now)
    refine ⟨fun a ha b hb => hnew a (hperm.subset ha) b (hperm.subset hb), ?_, fun e he => ?_,
      fun e he => ?_⟩
    · exact push_ordered (timeCompare_ordersOn hnew) (fun x hx => List.mem_cons_of_mem _ hx)
        List.mem_cons_self hi.ordered
    · rcases hall e (hperm.subset he) with rfl | he
      · show (env.scheduled sleepMs now).due < now.toNat + 2 ^ 31
        omega
      · have := hi.ahead e he
        show e.due < now.toNat + 2 ^ 31
        omega
    · rcases hall e (hperm.subset he) with rfl | he
      · omega
      · exact hi.small e he
  | admitDue now =>
    simp only [timetableStep, Option.ite_none_right_eq_some, Option.some.injEq] at h
    obtain ⟨hclock, rfl⟩ := h
    have hle : s.clock.toNat ≤ now.toNat := UInt64.le_iff_toNat_le.mp hclock
    obtain ⟨hp, -, -, -, hheap⟩ := admitTurns_spec now _ le_rfl hi.near hi.ordered
    have hsub : (admitAll now s.heap).2.data ⊆ s.heap.data :=
      fun e he => hp.symm.subset (List.mem_append_right _ he)
    refine ⟨fun a ha b hb => hi.near a (hsub ha) b (hsub hb), hheap, fun e he => ?_,
      fun e he => hi.small e (hsub he)⟩
    have := hi.ahead e (hsub he)
    show e.due < now.toNat + 2 ^ 31
    omega
  | delta now ms =>
    simp only [timetableStep, Option.ite_none_right_eq_some, Option.some.injEq] at h
    obtain ⟨hclock, rfl⟩ := h
    have hle : s.clock.toNat ≤ now.toNat := UInt64.le_iff_toNat_le.mp hclock
    refine ⟨hi.near, hi.ordered, fun e he => ?_, hi.small⟩
    have := hi.ahead e he
    show e.due < now.toNat + 2 ^ 31
    omega

/-! ### Runs -/

/-- **The timetable is kept while the due times are in reach of each other**, by every sequence of
calls. -/
theorem timetable_exact (calls : List TimetableCall) (h : Along timetableStep InReach {} calls) :
    Along timetableStep Exactly {} calls := by
  intro pre call post hsplit mid hmid
  have hreach : InReach mid call := h pre call post hsplit mid hmid
  have hpre : Along timetableStep InReach {} pre := Along.left (hsplit ▸ h)
  have hi : TimetableInv mid :=
    run_invariant_along TimetableInv timetableInv_step timetableInv_empty hpre hmid
  cases call with
  | schedule env sleepMs now => trivial
  | admitDue now => exact exactly_admitDue hi now
  | delta now ms => exact exactly_delta hi ms hreach

/-- An envelope that has made its first attempt. -/
def triedEnvelope (id : Nat) : TRequestEnvelope := ⟨⟨id, id, none⟩, { attempts := 1 }⟩

theorem timetable_exact_one :
    Along timetableStep Exactly {} [.schedule (triedEnvelope 0) 100 1000, .admitDue 1100] := by
  refine timetable_exact _ (along_cons.mpr ⟨⟨by decide, by simp⟩, fun s' _ => ?_⟩)
  exact along_cons.mpr ⟨trivial, fun s'' _ => along_nil s''⟩

/-- A retry that is due at once stands behind one that is due in 24 days. -/
theorem not_every_timetable_exact : ¬ ∀ calls, Along timetableStep Exactly {} calls := by
  intro hall
  have hrun : (run timetableStep {}
      [.schedule (triedEnvelope 0) 0 0, .schedule (triedEnvelope 1) 2147483647 10]).any (fun s =>
        decide ((admitAll 10 s.heap).1.length = 0 ∧
          (s.heap.data.filter fun e => decide (e.due ≤ 10)).length = 1)) = true := by
    decide +kernel
  obtain ⟨s, hs, hcounts⟩ := (Option.any_eq_true _ _).mp hrun
  obtain ⟨hnone, hone⟩ := of_decide_eq_true hcounts
  have hexact := hall [.schedule (triedEnvelope 0) 0 0, .schedule (triedEnvelope 1) 2147483647 10,
    .admitDue 10] [_, _] (.admitDue 10) [] rfl s hs
  have hlen := hexact.1.length_eq
  exact absurd (hlen.symm.trans hnone) (by rw [show (10 : UInt64).toNat = 10 from rfl, hone]; decide)

end NetMod.ClientEngine
