import Mathlib.Data.Rat.Floor
import NetMod.ClientAccounting
import NetMod.RetryTimetable

/-!
# `ComputeRetrySleepMs` and the Retry-After header

The wait before a retry, with its seconds as exact numbers.  A `Retry-After` of `n` seconds is read
rightly, but goes through the same cap as the exponential backoff: `sleep_of_retryAfter`.  So the
client waits for the whole time exactly when the cap is not below it (`notBefore_iff`).

`AfterRetry` follows the envelope from there: until it is admitted, no other envelope of its
submission is as far, so a later admission of that attempt is the one the wait was computed for.
-/

namespace NetMod.ClientEngine

open NetMod.BlitzText NetMod.HttpFields NetMod.MinHeap NetMod.PartialRuns NetMod.RetryLedger
open NetMod.RetryPolicy

/-- `TRetryPolicy` with the fields of the waits, in seconds. -/
structure TimedPolicy extends TRetryPolicy where
  backoffFactor : ℚ := 1 / 4
  maxBackoffSec : ℚ := 30

/-- `Int(x)` of a `Float`: C's conversion, which leaves the least `Int` where the value has no
room. -/
def intOfFloat (x : ℚ) : Int32 :=
  let n := x.num.tdiv x.den
  if -(2 ^ 31) ≤ n ∧ n < 2 ^ 31 then Int32.ofInt n else Int32.minValue

/-- `Int(s)` of a `String`. -/
def intOfText (s : Text) : Int32 := Int32.ofInt (toLong s)

/-- The seconds a `Retry-After` value stands for, at the clock reading `now`. -/
def retryAfterSecs (P : Platform) (ra : Text) (now : UInt64) : ℚ :=
  let raVal := intOfText (trim ra)
  if 0 < raVal then (raVal.toInt : ℚ)
  else
    let t := Int64.ofInt (P.getdate ra)
    if 0 < t then max 0 ((t.toUInt64 - now / 1000).toNat : ℚ) else 0

/-- The exponential backoff with jitter, at the clock reading `now`; `sin` is the runtime's. -/
def backoffMs (sin : ℚ → ℚ) (policy : TimedPolicy) (attempt : Nat) (now : UInt64) : Int32 :=
  let base := policy.backoffFactor
  if base ≤ 0 then 0
  else
    let exp := base * (2 : ℚ) ^ ((attempt : Int) - 1)
    let cap := min exp policy.maxBackoffSec
    let jitter := (sin (((now % 1000).toNat : ℚ) / 1000 * (314159 / 100000) * 2) + 1) / 2 * cap
    intOfFloat (jitter * 1000)

/-- `ComputeRetrySleepMs(context, policy, attempt)`; the two branches read the clock on their
own. -/
def computeRetrySleepMs (P : Platform) (sin : ℚ → ℚ) (policy : TimedPolicy)
    (response : THttpResponse) (attempt : Nat) (dateNow jitterNow : UInt64) : Int32 :=
  let ra := response.headers.getFirst P (lit "Retry-After")
  if policy.respectRetryAfter && ra ≠ [] then
    let secs := retryAfterSecs P ra dateNow
    if 0 < secs then intOfFloat (min secs policy.maxBackoffSec * 1000)
    else backoffMs sin policy attempt jitterNow
  else backoffMs sin policy attempt jitterNow

/-- The decimal numerals of `n`. -/
def IsDecimal (s : Text) (n : Nat) : Prop :=
  s ≠ [] ∧ (∀ c ∈ s, 48 ≤ c ∧ c ≤ 57) ∧ s.foldl (fun v c => v * 10 + (c.toNat - 48)) 0 = n

instance (s : Text) (n : Nat) : Decidable (IsDecimal s n) :=
  @instDecidableAnd _ _ inferInstance (@instDecidableAnd _ _ (List.decidableBAll _ s) inferInstance)

/-! ### Reading the header -/

theorem digitsValue_decimal (s : Text) (h : ∀ c ∈ s, 48 ≤ c ∧ c ≤ 57) (acc : Nat) :
    digitsValue 10 decDigit acc s = s.foldl (fun v c => v * 10 + (c.toNat - 48)) acc := by
  induction s generalizing acc with
  | nil => rfl
  | cons c s ih =>
    have hdigit : decDigit c = some (c.toNat - 48) := if_pos (h c List.mem_cons_self)
    simp only [digitsValue, hdigit, List.foldl_cons]
    exact ih (fun d hd => h d (List.mem_cons_of_mem _ hd)) _

theorem toLong_decimal {s : Text} {n : Nat} (h : IsDecimal s n) : toLong s = wrapLong n := by
  obtain ⟨hne, hdigits, hvalue⟩ := h
  obtain ⟨c, cs, rfl⟩ := List.exists_cons_of_ne_nil hne
  obtain ⟨hlow, hhigh⟩ := hdigits c List.mem_cons_self
  have hlow' : 48 ≤ c.toNat := UInt16.le_iff_toNat_le.mp hlow
  have hother : ∀ k : UInt16, k.toNat < 48 → c ≠ k := by
    intro k hk heq
    rw [heq] at hlow'
    omega
  have hblank : ¬ (c = 32 ∨ (9 ≤ c ∧ c ≤ 13)) := by
    intro hb
    rcases hb with hb | ⟨-, hb⟩
    · exact hother 32 (by decide) hb
    · have hle : c.toNat ≤ 13 := UInt16.le_iff_toNat_le.mp hb
      omega
  have hdrop : (c :: cs).dropWhile (fun c => decide (c = 32 ∨ (9 ≤ c ∧ c ≤ 13))) = c :: cs := by
    rw [List.dropWhile_cons_of_neg (by simpa using hblank)]
  have hminus : ¬ (some c = some (asc '-')) := by
    simpa using hother (asc '-') (by decide)
  have hplus : ¬ (some c = some (asc '+')) := by
    simpa using hother (asc '+') (by decide)
  have hvalue' := digitsValue_decimal (c :: cs) hdigits 0
  rw [hvalue] at hvalue'
  rw [toLong, hdrop]
  simp only [List.head?_cons, hminus, hplus, or_self, if_false, hother (asc '%') (by decide),
    hother (asc '$') (by decide), hvalue']

/-- A decimal integer within an `Int` is read as its value. -/
theorem intOfText_decimal {s : Text} {n : Nat} (h : IsDecimal s n) (hn : n < 2 ^ 31) :
    (intOfText s).toInt = n := by
  have hlong : wrapLong n = n := Int.bmod_eq_of_le (by omega) (by omega)
  rw [intOfText, toLong_decimal h, hlong]
  exact Int32.toInt_ofInt_of_le (by omega) (by omega)

theorem retryAfterSecs_decimal (P : Platform) {ra : Text} {n : Nat} (now : UInt64)
    (h : IsDecimal (trim ra) n) (h1 : 1 ≤ n) (hn : n < 2 ^ 31) :
    retryAfterSecs P ra now = n := by
  have hval : (intOfText (trim ra)).toInt = n := intOfText_decimal h hn
  have hpos : 0 < intOfText (trim ra) := by
    rw [Int32.lt_iff_toInt_lt, hval, Int32.toInt_zero]
    omega
  rw [retryAfterSecs, if_pos hpos, hval]
  rfl

/-! ### The wait -/

theorem intOfFloat_natCast {n : Nat} (h : n < 2 ^ 31) : (intOfFloat n).toInt = n := by
  have hnum : ((n : ℚ).num.tdiv (n : ℚ).den) = (n : Int) := by
    rw [Rat.num_natCast, Rat.den_natCast, Nat.cast_one, Int.tdiv_one]
  rw [intOfFloat, hnum, if_pos ⟨by omega, by omega⟩]
  exact Int32.toInt_ofInt_of_le (by omega) (by omega)

/-- Truncation does not reach a bound that the number stays below. -/
theorem tdiv_lt {x : ℚ} {n : Nat} (hn : 0 < n) (h : x < n) : x.num.tdiv x.den < n := by
  have hden : (0 : Int) < x.den := by exact_mod_cast x.den_pos
  by_cases hneg : x.num < 0
  · have hnonneg : 0 ≤ (-x.num).tdiv x.den := Int.tdiv_nonneg (by omega) hden.le
    rw [Int.neg_tdiv] at hnonneg
    omega
  · rw [Int.tdiv_eq_ediv_of_nonneg (by omega)]
    apply Int.ediv_lt_of_lt_mul hden
    have hlt : (x.num : ℚ) < n * x.den := by
      rw [← div_lt_iff₀ (by exact_mod_cast x.den_pos), Rat.num_div_den]
      exact h
    exact_mod_cast hlt

theorem intOfFloat_lt {x : ℚ} {n : Nat} (hn : 0 < n) (h : x < n) : (intOfFloat x).toInt < n := by
  have hlt := tdiv_lt hn h
  rw [intOfFloat]
  split
  · rename_i hrange
    rw [Int32.toInt_ofInt_of_le hrange.1 hrange.2]
    exact hlt
  · show (Int32.minValue).toInt < n
    have hmin : (Int32.minValue).toInt = -2147483648 := by decide
    omega

/-- The wait for `n` seconds, up to the cap. -/
theorem sleep_of_retryAfter (P : Platform) (sin : ℚ → ℚ) {policy : TimedPolicy}
    {response : THttpResponse} {n : Nat} (attempt : Nat) (dateNow jitterNow : UInt64)
    (hrespect : policy.respectRetryAfter = true)
    (hheader : IsDecimal (trim (response.headers.getFirst P (lit "Retry-After"))) n) (h1 : 1 ≤ n)
    (hn : n < 2 ^ 31) :
    computeRetrySleepMs P sin policy response attempt dateNow jitterNow =
      intOfFloat (min (n : ℚ) policy.maxBackoffSec * 1000) := by
  have hne : response.headers.getFirst P (lit "Retry-After") ≠ [] := by
    intro hnil
    rw [hnil] at hheader
    exact hheader.1 rfl
  have hsecs := retryAfterSecs_decimal P dateNow hheader h1 hn
  have hpos : (0 : ℚ) < n := by exact_mod_cast h1
  rw [computeRetrySleepMs]
  simp only [hrespect, hne, ne_eq, not_false_eq_true, decide_true, Bool.and_self, if_true, hsecs,
    hpos]

/-- The wait reaches `n` seconds if the cap does. -/
theorem sleep_toNat (maxBackoffSec : ℚ) {n : Nat} (h1 : 1 ≤ n) (h2 : n ≤ 2147483) :
    ((n : ℚ) ≤ maxBackoffSec →
        (intOfFloat (min (n : ℚ) maxBackoffSec * 1000)).toInt.toNat = 1000 * n) ∧
      (maxBackoffSec < n →
        (intOfFloat (min (n : ℚ) maxBackoffSec * 1000)).toInt.toNat < 1000 * n) := by
  constructor
  · intro hle
    have hmul : min (n : ℚ) maxBackoffSec * 1000 = ((1000 * n : Nat) : ℚ) := by
      rw [min_eq_left hle, Nat.cast_mul, mul_comm]
      rfl
    rw [hmul, intOfFloat_natCast (by omega)]
    rfl
  · intro hlt
    have hmul : min (n : ℚ) maxBackoffSec * 1000 < ((1000 * n : Nat) : ℚ) := by
      rw [min_eq_right hlt.le, Nat.cast_mul, mul_comm]
      exact mul_lt_mul_of_pos_left hlt (by norm_num)
    have := intOfFloat_lt (by omega) hmul
    omega

/-- From no queue is the scheduled envelope admitted before `n` seconds have passed. -/
def NotBefore (env : TRequestEnvelope) (sleepMs : Int32) (t : UInt64) (n : Nat) : Prop :=
  ∀ heap now rest, admitTurn now heap = some (env.scheduled sleepMs t, rest) →
    t.toNat + 1000 * n ≤ now.toNat

/-- An envelope is only admitted from the queue, and when it is due. -/
theorem admitTurn_some {heap rest : TMinHeap TRequestEnvelope} {now : UInt64}
    {env : TRequestEnvelope} (h : admitTurn now heap = some (env, rest)) :
    env ∈ heap.data ∧ env.due ≤ now.toNat := by
  rw [admitTurn] at h
  split at h
  · rename_i peek item heap' hpeek _
    split at h
    · cases h
    · rename_i hdue
      obtain ⟨rfl, -⟩ := Prod.mk.inj (Option.some.inj h)
      exact ⟨List.mem_of_mem_head? hpeek, UInt64.le_iff_toNat_le.mp (UInt64.not_lt.mp hdue)⟩
  · cases h

/-- Alone in the queue, an envelope is admitted as soon as it is due. -/
theorem admitTurn_alone {now : UInt64} {env : TRequestEnvelope} (h : env.due ≤ now.toNat) :
    ∃ rest, admitTurn now ⟨[env]⟩ = some (env, rest) := by
  have hdue : ¬ now < env.retry.nextAtMS.toUInt64 := by
    rw [UInt64.not_lt]
    exact UInt64.le_iff_toNat_le.mpr h
  cases hpop : (⟨[env]⟩ : TMinHeap TRequestEnvelope).pop timeCompare with
  | none => exact absurd ((pop_eq_none timeCompare).mp hpop) (List.cons_ne_nil _ _)
  | some popped =>
    refine ⟨popped.2, ?_⟩
    rw [admitTurn, hpop]
    show (if now < env.retry.nextAtMS.toUInt64 then none else some (env, popped.2)) = _
    rw [if_neg hdue]

/-- **The client waits for `n` seconds exactly when its cap does not end the wait before.** -/
theorem notBefore_iff (P : Platform) (sin : ℚ → ℚ) {policy : TimedPolicy}
    (response : THttpResponse) {n : Nat} (env : TRequestEnvelope) (attempt : Nat)
    (t dateNow jitterNow : UInt64) (hrespect : policy.respectRetryAfter = true)
    (hheader : IsDecimal (trim (response.headers.getFirst P (lit "Retry-After"))) n) (h1 : 1 ≤ n)
    (h2 : n ≤ 2147483) :
    NotBefore env (computeRetrySleepMs P sin policy response attempt dateNow jitterNow) t n ↔
      (n : ℚ) ≤ policy.maxBackoffSec ∧ t.toNat + 1000 * n < 2 ^ 64 := by
  rw [sleep_of_retryAfter P sin attempt dateNow jitterNow hrespect hheader h1 (by omega)]
  obtain ⟨hreach, hshort⟩ := sleep_toNat policy.maxBackoffSec h1 h2
  generalize intOfFloat (min (n : ℚ) policy.maxBackoffSec * 1000) = sleepMs at hreach hshort ⊢
  have ht : t.toNat < 2 ^ 64 := t.toNat_lt
  constructor
  · intro hnot
    have hlate : t.toNat + 1000 * n < 2 ^ 64 := by
      have hmax : (UInt64.ofNat (2 ^ 64 - 1)).toNat = 2 ^ 64 - 1 := by decide
      have hdue : (env.scheduled sleepMs t).due < 2 ^ 64 := UInt64.toNat_lt _
      obtain ⟨rest, hadmit⟩ := @admitTurn_alone (UInt64.ofNat (2 ^ 64 - 1))
        (env.scheduled sleepMs t) (by rw [hmax]; omega)
      have hlast := hnot _ _ rest hadmit
      rw [hmax] at hlast
      omega
    refine ⟨?_, hlate⟩
    by_contra hcap
    have hsleep := hshort (not_le.mp hcap)
    have hdue := @due_scheduled env sleepMs t (by omega)
    obtain ⟨rest, hadmit⟩ := @admitTurn_alone
      (env.scheduled sleepMs t).retry.nextAtMS.toUInt64 (env.scheduled sleepMs t) le_rfl
    have hearly := hnot _ _ rest hadmit
    change t.toNat + 1000 * n ≤ (env.scheduled sleepMs t).due at hearly
    omega
  · intro hcond heap now rest hadmit
    obtain ⟨hcap, hlate⟩ := hcond
    have hdue := (admitTurn_some hadmit).2
    rw [due_scheduled env (by rw [hreach hcap]; exact hlate), hreach hcap] at hdue
    exact hdue

/-! ### The envelope in the queue -/

variable {C : Type} {P : Setup C} {s s' : Engine C}

/-- The envelope `e` is not of an earlier attempt of the submission of `env`. -/
def NotEarlier (env e : TRequestEnvelope) : Prop :=
  e.toSubmission = env.toSubmission → env.retry.attempts ≤ e.retry.attempts

/-- The envelope `env` waits in the retry queue, or its attempt is over: the other envelopes of its
submission are of later attempts. -/
structure AfterRetry (env : TRequestEnvelope) (s : Engine C) : Prop where
  known : env.id < s.accepted.length
  inQueue : ∀ e ∈ s.inQueue, e.toSubmission ≠ env.toSubmission
  preparing : ∀ e resume, s.pc = .preparing e resume → NotEarlier env e
  attached : ∀ ctx ∈ s.attached, NotEarlier env ctx.env
  messages : ∀ m ∈ s.messages, NotEarlier env m.1.env
  retryQueue : ∀ e ∈ s.retryQueue.data, e.toSubmission = env.toSubmission →
    e = env ∨ env.retry.attempts < e.retry.attempts

theorem AfterRetry.notEarlier {env e : TRequestEnvelope} (h : AfterRetry env s)
    (he : e ∈ s.retryQueue.data) : NotEarlier env e := by
  intro hsub
  rcases h.retryQueue e he hsub with rfl | hlater
  · exact le_rfl
  · exact hlater.le

/-- Steps that only leave the preparing of an envelope, or go on without one. -/
theorem AfterRetry.withPc {env : TRequestEnvelope} (h : AfterRetry env s) (pc : Pc)
    (hpc : ∀ e resume, pc = .preparing e resume → NotEarlier env e) :
    AfterRetry env { s with pc } :=
  ⟨h.known, h.inQueue, hpc, h.attached, h.messages, h.retryQueue⟩

theorem Resume.pc_ne_preparing (resume : Resume) (e : TRequestEnvelope) (resume' : Resume) :
    resume.pc ≠ .preparing e resume' := by
  cases resume <;> exact Pc.noConfusion

theorem afterRetry_accept {env : TRequestEnvelope} (h : AfterRetry env s) (request : Nat)
    (waiter : Option Nat) : AfterRetry env (accept s ⟨s.accepted.length, request, waiter⟩) where
  known := by
    have := h.known
    simp only [accept, List.length_append, List.length_cons, List.length_nil]
    omega
  inQueue := by
    intro e he hsub
    rcases List.mem_append.mp he with he | he
    · exact h.inQueue e he hsub
    · obtain rfl := List.mem_singleton.mp he
      have hid : s.accepted.length = env.id := congrArg Submission.id hsub
      have := h.known
      omega
  preparing := h.preparing
  attached := h.attached
  messages := h.messages
  retryQueue := h.retryQueue

/-- A later retry of the same submission has a higher number. -/
theorem afterRetry_replay {env : TRequestEnvelope} {ctx : TEasyContext} {completion : Completion}
    {messages : List (TEasyContext × Completion)} {response : THttpResponse} (sleepMs : Int32)
    (now : UInt64) (h : AfterRetry env s) (hmessages : s.messages = (ctx, completion) :: messages) :
    AfterRetry env (replay P (endAttempt { s with messages } ctx response) ctx sleepMs now) where
  known := h.known
  inQueue := h.inQueue
  preparing := h.preparing
  attached := h.attached
  messages := fun m hm => h.messages m (hmessages ▸ List.mem_cons_of_mem _ hm)
  retryQueue := by
    intro e he hsub
    rcases List.mem_cons.mp ((push_perm timeCompare s.retryQueue _).subset he) with rfl | he
    · have hctx := h.messages (ctx, completion) (hmessages ▸ List.mem_cons_self) hsub
      exact Or.inr (Nat.lt_succ_of_le hctx)
    · exact h.retryQueue e he hsub

theorem moved_afterRetry {env : TRequestEnvelope} (h : AfterRetry env s) (hm : Moved P s s') :
    AfterRetry env s' := by
  cases hm with
  | popped e inQueue hpc hin =>
    refine ⟨h.known, fun e' he => h.inQueue e' (hin ▸ List.mem_cons_of_mem _ he), ?_, h.attached,
      h.messages, h.retryQueue⟩
    intro e' resume he hsub
    obtain ⟨rfl, -⟩ := Pc.preparing.inj he
    exact absurd hsub (h.inQueue e (hin ▸ List.mem_cons_self))
  | attached e resume hpc =>
    refine ⟨h.known, h.inQueue, fun e' resume' he => ?_, fun ctx hctx => ?_, h.messages,
      h.retryQueue⟩
    · exact absurd he (resume.pc_ne_preparing e' resume')
    · rcases List.mem_append.mp hctx with hctx | hctx
      · exact h.attached ctx hctx
      · obtain rfl := List.mem_singleton.mp hctx
        exact h.preparing e resume hpc
  | due now e retryQueue hpc hpop _ =>
    have hperm := (pop_perm timeCompare hpop).2
    refine ⟨h.known, h.inQueue, fun e' resume he => ?_, h.attached, h.messages, fun e' he =>
      h.retryQueue e' (hperm.symm.subset (List.mem_cons_of_mem _ he))⟩
    obtain ⟨rfl, -⟩ := Pc.preparing.inj he
    exact h.notEarlier (hperm.symm.subset List.mem_cons_self)
  | retried ctx completion messages policy now sleepMs hpc hmessages _ _ =>
    exact afterRetry_replay sleepMs now h hmessages
  | settled ctx completion messages hpc hmessages _
  | discarded ctx completion messages hpc hmessages =>
    refine ⟨h.known, h.inQueue, fun e resume he => ?_, h.attached, fun m hm => ?_, h.retryQueue⟩
    · first | exact Pc.noConfusion he | exact h.preparing e resume he
    · exact h.messages m (hmessages ▸ List.mem_cons_of_mem _ hm)
  | notified d resume hpc =>
    exact ⟨h.known, h.inQueue, fun e resume' he => absurd he (resume.pc_ne_preparing e resume'),
      h.attached, h.messages, h.retryQueue⟩
  | delivered d resume hpc =>
    exact ⟨h.known, h.inQueue, fun e resume' he => Pc.noConfusion he, h.attached, h.messages,
      h.retryQueue⟩
  | _ => exact h.withPc _ fun e resume' he => Pc.noConfusion he

/-- **Every step keeps the queued envelope the only one of its attempt.** -/
theorem step_afterRetry (env : TRequestEnvelope) (s : Engine C) (a : Action C) (s' : Engine C)
    (h : AfterRetry env s) (hstep : step P s a = some s') : AfterRetry env s' := by
  cases step_taken hstep with
  | accepted request waiter _ => exact afterRetry_accept h request waiter
  | finish i ctx completion hpc hctx =>
    refine ⟨h.known, h.inQueue, h.preparing, fun c hc => ?_, fun m hm => ?_, h.retryQueue⟩
    · exact h.attached c (List.mem_of_mem_eraseIdx hc)
    · rcases List.mem_append.mp hm with hm | hm
      · exact h.messages m hm
      · obtain rfl := List.mem_singleton.mp hm
        exact h.attached ctx (List.mem_of_getElem? hctx)
  | client _ _ _ _ hmoved => exact moved_afterRetry h hmoved
  | _ => exact ⟨h.known, h.inQueue, h.preparing, h.attached, h.messages, h.retryQueue⟩

/-- An envelope whose transfer has finished is nowhere else. -/
theorem finished_only (hi : LedgerInv P s) {ctx : TEasyContext} {completion : Completion}
    {messages : List (TEasyContext × Completion)}
    (hmessages : s.messages = (ctx, completion) :: messages) :
    ctx.env.id < s.accepted.length ∧
      (∀ e ∈ s.inQueue, e.toSubmission ≠ ctx.env.toSubmission) ∧
      (∀ c ∈ s.attached, c.env.toSubmission ≠ ctx.env.toSubmission) ∧
      (∀ m ∈ messages, m.1.env.toSubmission ≠ ctx.env.toSubmission) ∧
      ∀ e ∈ s.retryQueue.data, e.toSubmission ≠ ctx.env.toSubmission := by
  have hmulti : ctx.env.toSubmission ∈ holds s .multi := by
    simp [holds, hmessages]
  have hmem := mem_accepted_of_holds hi hmulti
  have hcount := count_holders hi hmem
  rw [holders_eq] at hcount
  simp only [holds, hmessages, List.map_cons, Multiset.count_add, Multiset.coe_count,
    List.count_append, List.count_cons_self] at hcount
  have hnone : ∀ {β : Type} (l : List β) (f : β → Submission),
      (l.map f).count ctx.env.toSubmission = 0 → ∀ x ∈ l, f x ≠ ctx.env.toSubmission := by
    intro β l f h x hx heq
    exact List.count_eq_zero.mp h (heq ▸ List.mem_map_of_mem hx)
  refine ⟨?_, hnone s.inQueue (fun e => e.toSubmission) (by omega),
    hnone s.attached (fun c => c.env.toSubmission) (by omega),
    hnone messages (fun m => m.1.env.toSubmission) (by omega),
    hnone s.retryQueue.data (fun e => e.toSubmission) (by omega)⟩
  have hid : ctx.env.id ∈ s.accepted.map (·.id) := List.mem_map_of_mem hmem
  rw [hi.numbered, List.mem_range] at hid
  exact hid

/-- What a retry leaves. -/
theorem afterRetry_scheduled (hi : LedgerInv P s) {ctx : TEasyContext} {completion : Completion}
    {messages : List (TEasyContext × Completion)} {response : THttpResponse} (sleepMs : Int32)
    (now : UInt64) (hpc : s.pc = .reading) (hmessages : s.messages = (ctx, completion) :: messages) :
    AfterRetry (ctx.env.scheduled sleepMs now)
      (replay P (endAttempt { s with messages } ctx response) ctx sleepMs now) := by
  obtain ⟨hid, hin, hattached, hmsg, hqueue⟩ := finished_only hi hmessages
  refine ⟨hid, hin, fun e resume he => ?_, fun c hc hsub => absurd hsub (hattached c hc),
    fun m hm hsub => absurd hsub (hmsg m hm), fun e he hsub => ?_⟩
  · exact absurd (hpc.symm.trans he) Pc.noConfusion
  · rcases List.mem_cons.mp ((push_perm timeCompare s.retryQueue _).subset he) with rfl | he
    · exact Or.inl rfl
    · exact absurd hsub (hqueue e he)

/-- `Run` reads a finished transfer and schedules its retry, at the clock reading `t`. -/
structure SchedulesRetry (P : Setup C) (sin : ℚ → ℚ) (policy : TimedPolicy) (ctx : TEasyContext)
    (completion : Completion) (t dateNow jitterNow : UInt64) (s s' : Engine C) : Prop where
  reading : s.pc = .reading
  message : ∃ messages, s.messages = (ctx, completion) :: messages
  policy_eq : P.policy ctx.request = some policy.toTRetryPolicy
  retried : retries P policy.toTRetryPolicy ctx (finishedResponse P ctx completion)
    (s.content ctx.request) = true
  stepped : ∃ easyCreated, step P s (.client easyCreated t
    (computeRetrySleepMs P.platform sin policy (finishedResponse P ctx completion)
      ctx.env.retry.attempts dateNow jitterNow)) = some s'

/-- The retry of an attempt is admitted at the clock reading `now`. -/
def AdmitsRetry (s : Engine C) (env : TRequestEnvelope) (now : UInt64) : Prop :=
  s.pc = .admitting now ∧ ∃ e rest, admitTurn now s.retryQueue = some (e, rest) ∧
    e.toSubmission = env.toSubmission ∧ e.retry.attempts = env.retry.attempts + 1

theorem runStep_reading {ctx : TEasyContext} {completion : Completion}
    {messages : List (TEasyContext × Completion)} {easyCreated : Bool} {now : UInt64}
    {sleepMs : Int32} (hpc : s.pc = .reading)
    (hmessages : s.messages = (ctx, completion) :: messages) :
    runStep P s easyCreated now sleepMs =
      some (readMessage P { s with messages } ctx completion now sleepMs) := by
  cases s
  cases hpc
  cases hmessages
  rfl

theorem schedulesRetry_afterRetry {sin : ℚ → ℚ} {policy : TimedPolicy} {ctx : TEasyContext}
    {completion : Completion} {t dateNow jitterNow : UInt64} (hi : LedgerInv P s)
    (h : SchedulesRetry P sin policy ctx completion t dateNow jitterNow s s') :
    AfterRetry (ctx.env.scheduled (computeRetrySleepMs P.platform sin policy
      (finishedResponse P ctx completion) ctx.env.retry.attempts dateNow jitterNow) t) s' := by
  obtain ⟨messages, hmessages⟩ := h.message
  obtain ⟨easyCreated, hstep⟩ := h.stepped
  rw [step, runStep_reading h.reading hmessages, readMessage] at hstep
  dsimp only at hstep
  rw [h.policy_eq, Option.any_some, h.retried, if_pos rfl] at hstep
  rw [← Option.some.inj hstep]
  exact afterRetry_scheduled hi _ t h.reading hmessages

/-- A submission's retry is admitted as it was scheduled. -/
theorem admitsRetry_scheduled {env : TRequestEnvelope} {sleepMs : Int32} {t now : UInt64}
    (h : AfterRetry (env.scheduled sleepMs t) s) (ha : AdmitsRetry s env now) :
    ∃ rest, admitTurn now s.retryQueue = some (env.scheduled sleepMs t, rest) := by
  obtain ⟨-, e, rest, hadmit, hsub, hattempts⟩ := ha
  have hmem : e ∈ s.retryQueue.data := (admitTurn_some hadmit).1
  have hnumber : (env.scheduled sleepMs t).retry.attempts = env.retry.attempts + 1 := rfl
  rcases h.retryQueue e hmem hsub with rfl | hlater
  · exact ⟨rest, hadmit⟩
  · omega

/-! ### The header is respected -/

/-- **A `Retry-After` of `n` seconds is waited for exactly when the cap on the backoff is not below
it**: no queue then admits the envelope early, and in no run of the client is the attempt that the
retry was scheduled for admitted early. -/
theorem retry_after_respected (P : Setup C) (sin : ℚ → ℚ) (policy : TimedPolicy)
    (ctx : TEasyContext) (completion : Completion) (n : Nat) (t dateNow jitterNow : UInt64)
    (hrespect : policy.respectRetryAfter = true)
    (hheader : IsDecimal (trim (completion.headers.getFirst P.platform (lit "Retry-After"))) n)
    (h1 : 1 ≤ n) (h2 : n ≤ 2147483) :
    (NotBefore ctx.env (computeRetrySleepMs P.platform sin policy (finishedResponse P ctx completion)
        ctx.env.retry.attempts dateNow jitterNow) t n ↔
      (n : ℚ) ≤ policy.maxBackoffSec ∧ t.toNat + 1000 * n < 2 ^ 64) ∧
    ((n : ℚ) ≤ policy.maxBackoffSec ∧ t.toNat + 1000 * n < 2 ^ 64 →
      ∀ content actions s s' more s'' now, run (step P) (started content) actions = some s →
        SchedulesRetry P sin policy ctx completion t dateNow jitterNow s s' →
        run (step P) s' more = some s'' → AdmitsRetry s'' ctx.env now →
        t.toNat + 1000 * n ≤ now.toNat) := by
  have hiff := notBefore_iff P.platform sin (finishedResponse P ctx completion) ctx.env
    ctx.env.retry.attempts t dateNow jitterNow hrespect hheader h1 h2
  refine ⟨hiff, fun hcond content actions s s' more s'' now hrun hsched hmore hadmits => ?_⟩
  have hafter := schedulesRetry_afterRetry (run_ledgerInv hrun) hsched
  have hlater := run_invariant _ (step_afterRetry _) hafter hmore
  obtain ⟨rest, hadmit⟩ := admitsRetry_scheduled hlater hadmits
  exact hiff.mpr hcond _ _ rest hadmit

/-- A context of the first attempt, and the answer 503 with a `Retry-After`. -/
def firstContext : TEasyContext := ⟨triedEnvelope 0, 0, none, {}, rfl, rfl⟩

def busyFor (secs : String) : Completion :=
  ⟨0, 503, [], ⟨[.ofHeader .retryAfter (lit secs)]⟩⟩

theorem retry_after_respected_two : (2 : ℚ) ≤ ({ maxAttempts := 3 } : TimedPolicy).maxBackoffSec ∧
    NotBefore (triedEnvelope 0) (computeRetrySleepMs asciiPlatform (fun _ => 0)
      { maxAttempts := 3 } (finishedResponse getSetup firstContext (busyFor "2")) 1 0 0) 1000 2 := by
  have hcap : (2 : ℚ) ≤ ({ maxAttempts := 3 } : TimedPolicy).maxBackoffSec := by norm_num
  refine ⟨hcap, ?_⟩
  exact (retry_after_respected getSetup (fun _ => 0) { maxAttempts := 3 } firstContext (busyFor "2")
    2 1000 0 0 rfl (by decide +kernel) (by decide) (by decide)).1.mpr ⟨hcap, by decide⟩

/-- Half a minute of a minute. -/
theorem not_every_retry_after_respected : ¬ ∀ (policy : TimedPolicy) (response : THttpResponse)
    (env : TRequestEnvelope) (n : Nat) (t dateNow jitterNow : UInt64),
    policy.respectRetryAfter = true →
    shouldRetry asciiPlatform policy.toTRetryPolicy .get response = true →
    IsDecimal (trim (response.headers.getFirst asciiPlatform (lit "Retry-After"))) n → 1 ≤ n →
    n ≤ 2147483 → t.toNat + 1000 * n < 2 ^ 64 →
    NotBefore env (computeRetrySleepMs asciiPlatform (fun _ => 0) policy response
      env.retry.attempts dateNow jitterNow) t n := by
  intro hall
  have hheader : IsDecimal (trim ((finishedResponse getSetup firstContext
      (busyFor "60")).headers.getFirst asciiPlatform (lit "Retry-After"))) 60 := by
    decide +kernel
  have hnot := hall { maxAttempts := 3 } (finishedResponse getSetup firstContext (busyFor "60"))
    (triedEnvelope 0) 60 0 0 0 rfl (by decide +kernel) hheader (by decide) (by decide) (by decide)
  have hcap := ((notBefore_iff asciiPlatform (fun _ => 0) _ _ _ _ _ _ rfl hheader (by decide)
    (by decide)).mp hnot).1
  norm_num at hcap

end NetMod.ClientEngine
