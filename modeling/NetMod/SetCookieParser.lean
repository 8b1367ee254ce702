import NetMod.HttpCookie
import NetMod.HttpFields

/-!
# The cookie builder and `TSetCookieParser`

`THttpCookieBuilder.Attribute` may raise (`IllegalArgumentError`), so it returns `none` there, and
the parser has three outcomes: `Null`, a cookie, or the exception of its builder.

The parser is the loop of the source: one turn looks at the unit at `i`, and `i :- 1` makes the next
turn look at it again in the new state.  That happens only on leaving a start state, so a turn
lowers `remainingTurns`, and twice the length is enough fuel (`parse_eq_parseLoop`).
-/

namespace NetMod.SetCookieParser

open NetMod.BlitzText NetMod.HttpCookie NetMod.HttpFields

/-! ### The builder -/

structure THttpCookieBuilder where
  name : Text
  value : Text
  version : Int := 0
  attributes : Attributes := []
deriving DecidableEq, Repr

/-- `TCookieHelper._months`. -/
def months : List Text :=
  [lit "Jan", lit "Feb", lit "Mar", lit "Apr", lit "May", lit "Jun", lit "Jul", lit "Aug",
    lit "Sep", lit "Oct", lit "Nov", lit "Dec"]

/-- `%0wd` of a natural number. -/
def padded (w n : Nat) : Text := List.replicate (w - (ofNat n).length) 48 ++ ofNat n

def formatExpires (P : Platform) (expires : Int) : Text :=
  let dateTime := P.fromEpoch expires
  dateTime.shortWeekday ++ lit ", " ++ padded 2 dateTime.day ++ lit " " ++
    months.getD (dateTime.month - 1) [] ++ lit " " ++ padded 4 dateTime.year ++ lit " " ++
    padded 2 dateTime.hour ++ lit ":" ++ padded 2 dateTime.minute ++ lit ":" ++
    padded 2 dateTime.second ++ lit " GMT"

def validateSameSite (P : Platform) (sameSite : Text) : Text :=
  let lower := P.toLower sameSite
  if lower = lit "none" then lit "None"
  else if lower = lit "lax" then lit "Lax"
  else if lower = lit "strict" then lit "Strict"
  else []

namespace THttpCookieBuilder

variable (P : Platform) (b : THttpCookieBuilder)

def put (name value : Text) : THttpCookieBuilder :=
  { b with attributes := b.attributes.put P name value }

def remove (name : Text) : THttpCookieBuilder :=
  { b with attributes := b.attributes.remove P name }

/-- The body `HttpOnly`, `Partitioned` and `Secure` share. -/
def setFlag (attr : ECookieAttribute) (on : Bool) : THttpCookieBuilder :=
  if on then b.put P attr.toText (lit "true") else b.remove P attr.toText

def httpOnly (on : Bool) : THttpCookieBuilder := b.setFlag P .httpOnly on

def partitioned (on : Bool) : THttpCookieBuilder := b.setFlag P .partitioned on

def secure (on : Bool) : THttpCookieBuilder := b.setFlag P .secure on

def expires (expires : Int) : THttpCookieBuilder :=
  if 0 < expires then b.put P ECookieAttribute.expires.toText (formatExpires P expires)
  else b.remove P ECookieAttribute.expires.toText

def maxAge (maxAge : Int) : THttpCookieBuilder :=
  if 0 ≤ maxAge then b.put P ECookieAttribute.maxAge.toText (ofInt maxAge)
  else b.remove P ECookieAttribute.maxAge.toText

def sameSite (sameSite : Text) : THttpCookieBuilder :=
  if sameSite ≠ [] then b.put P ECookieAttribute.sameSite.toText sameSite
  else b.remove P ECookieAttribute.sameSite.toText

/-- `AsBoolean`; `none` is the `IllegalArgumentError`. -/
def asBoolean (value : Text) : Option Bool :=
  let lower := P.toLower value
  if lower = [] ∨ lower = lit "true" then some true
  else if lower = lit "false" then some false
  else none

/-- `Attribute(name, value)`. -/
def «attribute» (name value : Text) : Option THttpCookieBuilder :=
  if name = [] then some b
  else
    let lower := P.toLower name
    if lower = lit "expires" then
      some (if value ≠ [] then b.expires P (parseExpires P value) else b.expires P 0)
    else if lower = lit "httponly" then (asBoolean P value).map (b.httpOnly P)
    else if lower = lit "max-age" then
      some (if value ≠ [] then b.maxAge P (toLong value) else b.maxAge P (-1))
    else if lower = lit "samesite" then some (b.sameSite P (validateSameSite P value))
    else if lower = lit "secure" then (asBoolean P value).map (b.secure P)
    else if lower = lit "partitioned" then (asBoolean P value).map (b.partitioned P)
    else some (if value = [] then b.remove P name else b.put P name value)

def build : THttpCookie where
  name := b.name
  value := b.value
  version := b.version
  attributes := b.attributes.foldl (fun m p => m.put P p.1 p.2) []

end THttpCookieBuilder

/-! ### The parser -/

inductive ECookieParseState where
  | name | valueStart | value | attribute | attributeName | attributeValueStart | attributeValue
deriving DecidableEq, Repr

/-- The locals of `Parse`, with the loop variable. -/
structure ParseState where
  i : Nat := 0
  state : ECookieParseState := .name
  offset : Nat := 0
  name : Text := []
  quoted : Bool := false
  cookieBuilder : Option THttpCookieBuilder := none
deriving DecidableEq, Repr

inductive ParseOutcome where
  | null
  | cookie (c : THttpCookie)
  | raised
deriving DecidableEq, Repr

def controlChars : List Nat :=
  [1, 1, 1, 1, 1, 1, 1, 1, 1, 0, 0, 1, 1, 0, 1, 1,
   1, 1, 1, 1, 1, 1, 1, 1, 1, 1, 1, 1, 1, 1, 1, 1,
   0, 0, 0, 0, 0, 0, 0, 0, 0, 0, 0, 0, 0, 0, 0, 0,
   0, 0, 0, 0, 0, 0, 0, 0, 0, 0, 0, 0, 0, 0, 0, 0,
   0, 0, 0, 0, 0, 0, 0, 0, 0, 0, 0, 0, 0, 0, 0, 0,
   0, 0, 0, 0, 0, 0, 0, 0, 0, 0, 0, 0, 0, 0, 0, 0,
   0, 0, 0, 0, 0, 0, 0, 0, 0, 0, 0, 0, 0, 0, 0, 0,
   0, 0, 0, 0, 0, 0, 0, 0, 0, 0, 0, 0, 0, 0, 0, 1]

def isControlChar (char : UInt16) : Bool :=
  if 127 < char then false else controlChars.getD char.toNat 0 ≠ 0

/-- `SetAttribute`, which always returns true; a `Null` builder raises too. -/
def setAttribute (P : Platform) (builder : Option THttpCookieBuilder) (name value : Text) :
    Option THttpCookieBuilder :=
  builder.bind fun b => b.attribute P name value

/-- One turn of the loop on the unit at `i`; an outcome is a `Return` or an exception.  The index of
the result is that of the next turn. -/
def parseStep (P : Platform) (value : Text) (st : ParseState) : Except ParseOutcome ParseState :=
  let char := value.getD st.i 0
  let next := { st with i := st.i + 1 }
  let text := trim (slice value st.offset st.i)
  match st.state with
  | .name =>
    if 255 < char then .error .null
    else if char = asc '=' then
      if text = [] then .error .null
      else .ok { next with name := text, offset := st.i + 1, state := .valueStart }
    else .ok next
  | .valueStart =>
    if char = asc ' ' ∨ char = 9 then .ok next
    else if char = 34 then .ok { next with quoted := true, offset := st.i + 1, state := .value }
    else .ok { st with offset := st.i, state := .value }
  | .value =>
    if st.quoted ∧ char = 34 then
      .ok { next with quoted := false, cookieBuilder := some { name := st.name, value := text },
                      offset := st.i + 1, state := .attribute }
    else if char = asc ';' then
      .ok { next with cookieBuilder := some { name := st.name, value := text },
                      offset := st.i + 1, state := .attributeName }
    else .ok next
  | .attribute =>
    if char = asc ' ' ∨ char = 9 then .ok next
    else if char ≠ asc ';' then .error .null
    else .ok { next with offset := st.i + 1, state := .attributeName }
  | .attributeName =>
    if isControlChar char then .error .null
    else if char = asc '=' then
      .ok { next with name := text, offset := st.i + 1, state := .attributeValueStart }
    else if char = asc ';' then
      match setAttribute P st.cookieBuilder text [] with
      | none => .error .raised
      | some b => .ok { next with name := text, cookieBuilder := some b, offset := st.i + 1 }
    else .ok next
  | .attributeValueStart =>
    if char = asc ' ' ∨ char = 9 then .ok next
    else if char = 34 then
      .ok { next with quoted := true, offset := st.i + 1, state := .attributeValue }
    else .ok { st with offset := st.i, state := .attributeValue }
  | .attributeValue =>
    if st.quoted ∧ char = 34 then
      match setAttribute P st.cookieBuilder st.name text with
      | none => .error .raised
      | some b => .ok { next with quoted := false, cookieBuilder := some b, offset := st.i + 1,
                                  state := .attribute }
    else if char = asc ';' then
      match setAttribute P st.cookieBuilder st.name text with
      | none => .error .raised
      | some b => .ok { next with cookieBuilder := some b, offset := st.i + 1,
                                  state := .attributeName }
    else .ok next

/-- `cookieBuilder.Build()`, after a last attribute. -/
def buildWith (P : Platform) (builder : Option THttpCookieBuilder) (name value : Text) :
    ParseOutcome :=
  match setAttribute P builder name value with
  | none => .raised
  | some b => .cookie (b.build P)

/-- The final state processing. -/
def parseFinal (P : Platform) (value : Text) (st : ParseState) : ParseOutcome :=
  let text := trim (slice value st.offset value.length)
  match st.state with
  | .name => .null
  | .valueStart => .cookie { name := st.name, value := [] }
  | .value => .cookie { name := st.name, value := text }
  | .attribute =>
    match st.cookieBuilder with
    | none => .raised
    | some b => .cookie (b.build P)
  | .attributeName => buildWith P st.cookieBuilder text []
  | .attributeValueStart => buildWith P st.cookieBuilder st.name []
  | .attributeValue => buildWith P st.cookieBuilder st.name text

def parseLoop (P : Platform) (value : Text) : Nat → ParseState → ParseOutcome
  | 0, st => parseFinal P value st
  | fuel + 1, st =>
    if st.i < value.length then
      match parseStep P value st with
      | .error r => r
      | .ok st => parseLoop P value fuel st
    else parseFinal P value st

/-- `TSetCookieParser.Parse`. -/
def parse (P : Platform) (value : Text) : ParseOutcome := parseLoop P value (2 * value.length) {}

/-- `TCookieHelper.ParseFromSetCookieHeader`. -/
def parseFromSetCookieHeader (P : Platform) (header : THttpField) : ParseOutcome :=
  parse P header.value

/-! ### The loop ends -/

/-- The states that hand their unit on to the next one. -/
def ECookieParseState.IsStart (state : ECookieParseState) : Prop :=
  state = .valueStart ∨ state = .attributeValueStart

instance : DecidablePred ECookieParseState.IsStart := fun _ => inferInstanceAs (Decidable (_ ∨ _))

/-- An upper bound on the turns the loop still takes. -/
def remainingTurns (value : Text) (st : ParseState) : Nat :=
  2 * (value.length - st.i) + if st.state.IsStart then 1 else 0

/-- A turn goes to the next unit, or leaves a start state with `i :- 1`. -/
theorem parseStep_advances {P : Platform} {value : Text} {st st' : ParseState}
    (h : parseStep P value st = .ok st') :
    st'.i = st.i + 1 ∨ st'.i = st.i ∧ st.state.IsStart ∧ ¬ st'.state.IsStart := by
  rw [parseStep.eq_def] at h
  cases hst : st.state <;> simp only [hst] at h
  all_goals
    repeat' split at h
    all_goals first | (cases h; done) | cases h
    all_goals simp [ECookieParseState.IsStart]

/-- **A turn lowers the bound.** -/
theorem remainingTurns_parseStep {P : Platform} {value : Text} {st st' : ParseState}
    (hi : st.i < value.length) (h : parseStep P value st = .ok st') :
    remainingTurns value st' < remainingTurns value st := by
  rw [remainingTurns, remainingTurns]
  rcases parseStep_advances h with hnext | ⟨hsame, hstart, hleft⟩
  · rw [hnext]
    split <;> split <;> omega
  · rw [hsame, if_pos hstart, if_neg hleft]
    omega

theorem parseLoop_done (P : Platform) {value : Text} (fuel : Nat) {st : ParseState}
    (hi : ¬ st.i < value.length) : parseLoop P value fuel st = parseFinal P value st := by
  cases fuel with
  | zero => rfl
  | succ fuel => rw [parseLoop, if_neg hi]

theorem lt_of_remainingTurns_zero {value : Text} {st : ParseState}
    (h : remainingTurns value st ≤ 0) : ¬ st.i < value.length := by
  rw [remainingTurns] at h
  omega

/-- Fuel beyond the bound does not change the outcome. -/
theorem parseLoop_of_le (P : Platform) (value : Text) (n : Nat) :
    ∀ (m : Nat) (st : ParseState), remainingTurns value st ≤ n → remainingTurns value st ≤ m →
      parseLoop P value n st = parseLoop P value m st := by
  induction n with
  | zero =>
    intro m st hn _
    have hi : ¬ st.i < value.length := lt_of_remainingTurns_zero hn
    rw [parseLoop_done P 0 hi, parseLoop_done P m hi]
  | succ n ih =>
    intro m st hn hm
    by_cases hi : st.i < value.length
    · cases m with
      | zero => exact absurd hi (lt_of_remainingTurns_zero hm)
      | succ m =>
        rw [parseLoop, parseLoop, if_pos hi, if_pos hi]
        cases hstep : parseStep P value st with
        | error r => rfl
        | ok st' =>
          have hlt := remainingTurns_parseStep hi hstep
          exact ih m st' (by omega) (by omega)
    · rw [parseLoop_done P (n + 1) hi, parseLoop_done P m hi]

/-- **The parser ends**: two turns for each unit of the value are enough. -/
theorem parse_eq_parseLoop (P : Platform) {value : Text} {fuel : Nat}
    (hfuel : 2 * value.length ≤ fuel) : parse P value = parseLoop P value fuel {} := by
  have hstart : remainingTurns value {} = 2 * value.length := by
    simp [remainingTurns, ECookieParseState.IsStart]
  exact parseLoop_of_le P value _ fuel {} (le_of_eq hstart) (hstart ▸ hfuel)

example : parse asciiPlatform (lit "sid = \"a b\" ; Path=/x; secure") =
    .cookie { name := lit "sid", value := lit "a b",
              attributes := [(lit "Path", lit "/x"), (lit "Secure", lit "true")] } := by
  decide +kernel

end NetMod.SetCookieParser
