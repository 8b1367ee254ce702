import NetMod.ResponseHeaders
import NetMod.SetCookieText

/-!
# What `Parse` does on every string

The loop of `Parse` keeps its offset and index inside the string, has a builder wherever it uses
one, and ends after two turns for each unit at the latest: `safe_of_reached`.  The only way out
other than `Null` and a cookie is the exception of `AsBoolean`, so `parse_total_iff` is about the
flags: `HttpOnly`, `Secure` and `Partitioned` take no value, `true` or `false`.
-/

namespace NetMod.SetCookieTotality

open NetMod.BlitzText NetMod.HttpCookie NetMod.HttpFields NetMod.RedirectCookies
open NetMod.ResponseHeaders NetMod.SetCookieParser NetMod.SetCookieScan NetMod.SetCookieText

/-! ### The turns of the loop -/

/-- The states in which an attribute is set or `Build` is called. -/
def HasBuilder (state : ECookieParseState) : Prop :=
  state = .attribute ∨ state = .attributeName ∨ state = .attributeValueStart ∨
    state = .attributeValue

/-- `n` turns of the loop lead to the state. -/
inductive Reached (P : Platform) (value : Text) : Nat → ParseState → Prop
  | start : Reached P value 0 {}
  | turn {n : Nat} {st st' : ParseState} : Reached P value n st → st.i < value.length →
      parseStep P value st = .ok st' → Reached P value (n + 1) st'

/-- The slices up to the index are inside the string, so is the unit a turn looks at, and the table
of the control characters has it; the builder is there where it is used. -/
structure Safe (value : Text) (st : ParseState) : Prop where
  offset : st.offset ≤ st.i
  index : st.i ≤ value.length
  table : ∀ c ∈ value, ¬ 127 < c → c.toNat < controlChars.length
  builder : HasBuilder st.state → st.cookieBuilder.isSome

theorem parseStep_builder {P : Platform} {value : Text} {st st' : ParseState}
    (h : parseStep P value st = .ok st') (hb : HasBuilder st.state → st.cookieBuilder.isSome) :
    HasBuilder st'.state → st'.cookieBuilder.isSome := by
  rw [parseStep.eq_def] at h
  cases hst : st.state <;> simp only [hst] at h
  all_goals
    repeat' split at h
    all_goals first | (cases h; done) | cases h
    all_goals simp_all [HasBuilder]

/-- **A turn keeps the parser safe.** -/
theorem safe_parseStep {P : Platform} {value : Text} {st st' : ParseState}
    (hi : st.i < value.length) (h : parseStep P value st = .ok st') (hs : Safe value st) :
    Safe value st' where
  offset := parseStep_offset h hs.offset
  index := by
    rcases parseStep_advances h with hnext | ⟨hsame, -, -⟩ <;> omega
  table := hs.table
  builder := parseStep_builder h hs.builder

theorem safe_start (value : Text) : Safe value {} where
  offset := le_rfl
  index := Nat.zero_le _
  table c _ hc := by
    have hle : c.toNat ≤ 127 := UInt16.le_iff_toNat_le.mp (UInt16.not_lt.mp hc)
    have hlength : controlChars.length = 128 := rfl
    omega
  builder h := by
    rcases h with h | h | h | h <;> cases h

/-- **Every state the loop reaches is safe, after few turns.** -/
theorem safe_of_reached {P : Platform} {value : Text} {n : Nat} {st : ParseState}
    (h : Reached P value n st) : n + remainingTurns value st ≤ 2 * value.length ∧ Safe value st := by
  induction h with
  | start =>
    refine ⟨?_, safe_start value⟩
    simp [remainingTurns, ECookieParseState.IsStart]
  | turn _ hi hstep ih =>
    obtain ⟨hturns, hsafe⟩ := ih
    have hless := remainingTurns_parseStep hi hstep
    exact ⟨by omega, safe_parseStep hi hstep hsafe⟩

/-! ### Attributes -/

/-- The names whose value must be a Boolean. -/
def flags : List Text := [lit "httponly", lit "secure", lit "partitioned"]

/-- The attribute is not a flag, or its value is one `AsBoolean` knows. -/
def Accepted (P : Platform) (a : Text × Text) : Prop :=
  P.toLower a.1 ∈ flags → P.toLower a.2 ∈ [lit "", lit "true", lit "false"]

instance (P : Platform) (a : Text × Text) : Decidable (Accepted P a) :=
  inferInstanceAs (Decidable (_ → _))

theorem asBoolean_isSome_iff (P : Platform) (value : Text) :
    (THttpCookieBuilder.asBoolean P value).isSome ↔
      P.toLower value ∈ [lit "", lit "true", lit "false"] := by
  have hempty : lit "" = [] := rfl
  rw [THttpCookieBuilder.asBoolean, hempty]
  generalize P.toLower value = lower
  by_cases htrue : lower = [] ∨ lower = lit "true"
  · rw [if_pos htrue]
    rcases htrue with rfl | rfl <;> simp
  · obtain ⟨h, h'⟩ := not_or.mp htrue
    rw [if_neg htrue]
    by_cases hfalse : lower = lit "false" <;> simp [hfalse, h, h']

/-- **Which attributes raise.** -/
theorem attribute_isSome_iff (P : Platform) (b : THttpCookieBuilder) (name value : Text) :
    (b.attribute P name value).isSome ↔ Accepted P (name, value) := by
  have hflag : ∀ f : Bool → THttpCookieBuilder, ∀ lower ∈ flags,
      (((THttpCookieBuilder.asBoolean P value).map f).isSome ↔
        (lower ∈ flags → P.toLower value ∈ [lit "", lit "true", lit "false"])) := by
    intro f lower hlower
    rw [Option.isSome_map, asBoolean_isSome_iff]
    exact ⟨fun h _ => h, fun h => h hlower⟩
  rw [THttpCookieBuilder.attribute, Accepted]
  by_cases hname : name = []
  · rw [if_pos hname, hname]
    exact iff_of_true rfl fun h => absurd h (by rw [toLower_nil]; decide)
  · rw [if_neg hname]
    generalize P.toLower name = lower
    dsimp only
    by_cases hexpires : lower = lit "expires"
    · rw [if_pos hexpires, hexpires]
      exact iff_of_true rfl fun h => absurd h (by decide)
    rw [if_neg hexpires]
    by_cases hhttpOnly : lower = lit "httponly"
    · rw [if_pos hhttpOnly, hhttpOnly]
      exact hflag _ _ (by decide)
    rw [if_neg hhttpOnly]
    by_cases hmaxAge : lower = lit "max-age"
    · rw [if_pos hmaxAge, hmaxAge]
      exact iff_of_true rfl fun h => absurd h (by decide)
    rw [if_neg hmaxAge]
    by_cases hsameSite : lower = lit "samesite"
    · rw [if_pos hsameSite, hsameSite]
      exact iff_of_true rfl fun h => absurd h (by decide)
    rw [if_neg hsameSite]
    by_cases hsecure : lower = lit "secure"
    · rw [if_pos hsecure, hsecure]
      exact hflag _ _ (by decide)
    rw [if_neg hsecure]
    by_cases hpartitioned : lower = lit "partitioned"
    · rw [if_pos hpartitioned, hpartitioned]
      exact hflag _ _ (by decide)
    rw [if_neg hpartitioned]
    apply iff_of_true rfl
    intro h
    simp [flags, hhttpOnly, hsecure, hpartitioned] at h

theorem setAttributes_isSome_iff (P : Platform) (attributes : List (Text × Text)) :
    ∀ b : THttpCookieBuilder,
      (setAttributes P b attributes).isSome ↔ ∀ a ∈ attributes, Accepted P a := by
  induction attributes with
  | nil =>
    intro b
    exact ⟨fun _ a ha => absurd ha List.not_mem_nil, fun _ => rfl⟩
  | cons a attributes ih =>
    intro b
    have hstep : setAttributes P b (a :: attributes) =
        (b.attribute P a.1 a.2).bind fun b => setAttributes P b attributes := rfl
    rw [hstep, List.forall_mem_cons, ← attribute_isSome_iff P b]
    cases b.attribute P a.1 a.2 with
    | none => simp
    | some b' => simpa using ih b'

/-! ### Totality -/

/-- The attributes the parser comes to have values it accepts. -/
def FlagsAccepted (P : Platform) (value : Text) : Prop :=
  ∀ t ∈ cookieText value, ∀ a ∈ t.attributes, Accepted P a

/-- **What `Parse` returns.** -/
theorem parse_cases (P : Platform) (value : Text) :
    (¬ FlagsAccepted P value ∧ parse P value = .raised) ∨
      (FlagsAccepted P value ∧
        (parse P value = .null ∨ ∃ c, parse P value = .cookie c ∧ c.name ≠ [])) := by
  rw [parse_eq_parseText, parseText, FlagsAccepted]
  cases ht : cookieText value with
  | none => exact Or.inr ⟨fun t h => absurd h (Option.not_mem_none t), Or.inl rfl⟩
  | some t =>
    simp only [Option.mem_some_iff, forall_eq', outcomeWith]
    rw [← setAttributes_isSome_iff P t.attributes { name := t.name, value := t.value }]
    cases hset : setAttributes P { name := t.name, value := t.value } t.attributes with
    | none => exact Or.inl ⟨Bool.false_ne_true, rfl⟩
    | some b =>
      refine Or.inr ⟨rfl, ?_⟩
      cases t.wellFormed with
      | false => exact Or.inl rfl
      | true =>
        have hname : b.name ≠ [] := by
          rw [(keeps_setAttributes _ hset).1]
          exact (cookieText_name ht).2.1
        exact Or.inr ⟨b.build P, rfl, hname⟩

/-- What is expected of `Parse` on a string, and of the header callback on its lines. -/
structure Total (P : Platform) (value : Text) : Prop where
  /-- No run of the loop is longer, and no turn leaves the string or misses the builder. -/
  turns : ∀ n st, Reached P value n st → n ≤ 2 * value.length ∧ Safe value st
  /-- The outcome is the one of the whole run. -/
  ends : ∀ fuel, 2 * value.length ≤ fuel → parseLoop P value fuel {} = parse P value
  outcome : parse P value = .null ∨ ∃ c, parse P value = .cookie c ∧ c.name ≠ []
  /-- `_HeaderRead` returns for the Set-Cookie lines with this value. -/
  returns : ∀ (line : Text) (header : THttpField), THttpFields.lineField P line = some header →
    header.is P (lit "set-cookie") = true → header.value = value →
      ∀ url now s hop, (headerRead P url s ⟨hop, now, line⟩).isSome

/-- **When the parser is total on a string**: exactly when no flag has another value than a
Boolean. -/
theorem parse_total_iff (P : Platform) (value : Text) :
    Total P value ↔ FlagsAccepted P value := by
  rcases parse_cases P value with ⟨hrefused, hraised⟩ | ⟨haccepted, houtcome⟩
  · constructor
    · intro htotal
      rcases htotal.outcome with h | ⟨c, h, -⟩ <;> rw [hraised] at h <;> cases h
    · exact fun h => absurd h hrefused
  · refine iff_of_true ?_ haccepted
    refine ⟨fun n st h => ?_, fun fuel h => (parse_eq_parseLoop P h).symm, houtcome, ?_⟩
    · obtain ⟨hturns, hsafe⟩ := safe_of_reached h
      exact ⟨by omega, hsafe⟩
    · intro line header hline _ hvalue url now s hop
      rcases headerRead_spec P url s ⟨hop, now, line⟩ with ⟨hraise, -⟩ | ⟨-, s', hread, -⟩
      · have hparse : parse P value = .raised := by
          rw [lineRaises, hline, Bool.and_eq_true, decide_eq_true_eq] at hraise
          rw [← hvalue]
          exact hraise.2
        rcases houtcome with h | ⟨c, h, -⟩ <;> rw [hparse] at h <;> cases h
      · rw [hread]
        rfl

/-- A flag with a value that is no Boolean. -/
theorem not_always_total : ¬ ∀ value : Text, Total asciiPlatform value := by
  intro hall
  have hraised : parse asciiPlatform (lit "a=b; Secure=x") = .raised := by decide +kernel
  rcases (hall (lit "a=b; Secure=x")).outcome with h | ⟨c, h, -⟩ <;> rw [hraised] at h <;> cases h

end NetMod.SetCookieTotality
