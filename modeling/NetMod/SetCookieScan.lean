import NetMod.SetCookieParser

/-!
# `TSetCookieParser` from left to right

`Parse` walks over its string with an index, an offset behind it and a state.  `scan` has no
indices: it reads the units one after another and keeps what lies between the offset and the index.
A start state and the state it hands its unit to are one turn of it, so every turn reads a unit
(`parse_eq_scan`).
-/

namespace NetMod.SetCookieScan

open NetMod.BlitzText NetMod.HttpCookie NetMod.SetCookieParser

/-- The space and the tab. -/
def isBlank (c : UInt16) : Bool := c = asc ' ' ∨ c = 9

/-- The locals of `Parse` without the indices; `seen` is what they delimit. -/
structure ScanState where
  state : ECookieParseState := .name
  seen : Text := []
  name : Text := []
  quoted : Bool := false
  cookieBuilder : Option THttpCookieBuilder := none

namespace ScanState

variable (P : Platform) (st : ScanState)

/-- The builder behind the text of a value: a new one for the cookie's, the same one for an
attribute's. -/
def emit (text : Text) : Option THttpCookieBuilder :=
  match st.state with
  | .valueStart | .value => some { name := st.name, value := text }
  | _ => setAttribute P st.cookieBuilder st.name text

/-- The state a start state goes on to. -/
def body : ECookieParseState :=
  match st.state with
  | .valueStart | .value => .value
  | _ => .attributeValue

/-- The builder that ends a piece goes on to `state`, unless an attribute was refused. -/
def close (builder : Option THttpCookieBuilder) (state : ECookieParseState) (quoted : Bool) :
    Except ParseOutcome ScanState :=
  match builder with
  | none => .error .raised
  | some b => .ok { st with state, seen := [], quoted, cookieBuilder := some b }

/-- A turn inside a value. -/
def bodyTurn (c : UInt16) : Except ParseOutcome ScanState :=
  if st.quoted ∧ c = 34 then st.close (st.emit P (trim st.seen)) .attribute false
  else if c = asc ';' then st.close (st.emit P (trim st.seen)) .attributeName st.quoted
  else .ok { st with seen := st.seen ++ [c] }

/-- A turn before a value. -/
def startTurn (c : UInt16) : Except ParseOutcome ScanState :=
  if isBlank c then .ok { st with seen := st.seen ++ [c] }
  else if c = 34 then .ok { st with state := st.body, seen := [], quoted := true }
  else bodyTurn P { st with state := st.body, seen := [] } c

def turn (c : UInt16) : Except ParseOutcome ScanState :=
  match st.state with
  | .name =>
    if 255 < c then .error .null
    else if c = asc '=' then
      if trim st.seen = [] then .error .null
      else .ok { st with state := .valueStart, seen := [], name := trim st.seen }
    else .ok { st with seen := st.seen ++ [c] }
  | .valueStart | .attributeValueStart => startTurn P st c
  | .value | .attributeValue => bodyTurn P st c
  | .attribute =>
    if isBlank c then .ok { st with seen := st.seen ++ [c] }
    else if c ≠ asc ';' then .error .null
    else .ok { st with state := .attributeName, seen := [] }
  | .attributeName =>
    if isControlChar c then .error .null
    else if c = asc '=' then
      .ok { st with state := .attributeValueStart, seen := [], name := trim st.seen }
    else if c = asc ';' then
      { st with name := trim st.seen }.close (setAttribute P st.cookieBuilder (trim st.seen) [])
        .attributeName st.quoted
    else .ok { st with seen := st.seen ++ [c] }

/-- The end of the string. -/
def final : ParseOutcome :=
  match st.state with
  | .name => .null
  | .valueStart => .cookie { name := st.name, value := [] }
  | .value => .cookie { name := st.name, value := trim st.seen }
  | .attribute =>
    match st.cookieBuilder with
    | none => .raised
    | some b => .cookie (b.build P)
  | .attributeName => buildWith P st.cookieBuilder (trim st.seen) []
  | .attributeValueStart => buildWith P st.cookieBuilder st.name []
  | .attributeValue => buildWith P st.cookieBuilder st.name (trim st.seen)

def scan (cs : Text) : ParseOutcome :=
  match cs.foldlM (turn P) st with
  | .error r => r
  | .ok st => final P st

end ScanState

/-- What `scan` sees of the parser's locals. -/
def view (value : Text) (st : ParseState) : ScanState where
  state := st.state
  seen := slice value st.offset st.i
  name := st.name
  quoted := st.quoted
  cookieBuilder := st.cookieBuilder

theorem scan_nil (P : Platform) (st : ScanState) : st.scan P [] = st.final P := rfl

theorem scan_cons (P : Platform) (st : ScanState) (c : UInt16) (cs : Text) :
    st.scan P (c :: cs) =
      match st.turn P c with
      | .error r => r
      | .ok st => st.scan P cs := by
  rw [ScanState.scan, List.foldlM_cons]
  cases st.turn P c with
  | error r => rfl
  | ok st' => rfl

theorem slice_self (value : Text) (i : Nat) : slice value i i = [] := by
  rw [slice, Nat.sub_self, List.take_zero]

theorem slice_succ {value : Text} {a i : Nat} (ha : a ≤ i) (hi : i < value.length) :
    slice value a (i + 1) = slice value a i ++ [value.getD i 0] := by
  have hlen : i - a < (value.drop a).length := by
    rw [List.length_drop]
    omega
  rw [slice, slice, Nat.sub_add_comm ha, List.take_succ_eq_append_getElem hlen]
  simp [List.getD_eq_getElem?_getD, hi, ha]

/-- The offset stays behind the index. -/
theorem parseStep_offset {P : Platform} {value : Text} {st st' : ParseState}
    (h : parseStep P value st = .ok st') (ho : st.offset ≤ st.i) : st'.offset ≤ st'.i := by
  rw [parseStep.eq_def] at h
  cases hst : st.state <;> simp only [hst] at h
  all_goals
    repeat' split at h
    all_goals first | (cases h; done) | cases h
    all_goals first | exact le_rfl | exact Nat.le_succ_of_le ho

/-- **One turn of the parser** is one turn of the scanner, or hands the unit on and the scanner does
not notice. -/
theorem turn_view {P : Platform} {value : Text} {st : ParseState} (hi : st.i < value.length)
    (ho : st.offset ≤ st.i) :
    match parseStep P value st with
    | .error r => (view value st).turn P (value.getD st.i 0) = .error r
    | .ok st' =>
      (st'.i = st.i + 1 ∧ (view value st).turn P (value.getD st.i 0) = .ok (view value st')) ∨
        (st'.i = st.i ∧ (view value st).turn P (value.getD st.i 0) =
          (view value st').turn P (value.getD st.i 0)) := by
  have hnext := slice_succ ho hi
  have hempty := slice_self value (st.i + 1)
  have hsame := slice_self value st.i
  rw [parseStep.eq_def]
  generalize value.getD st.i 0 = c at hnext ⊢
  cases hst : st.state with
  | name =>
    by_cases hlatin : 255 < c
    · simp [ScanState.turn, view, hst, hlatin]
    · by_cases hequals : c = asc '='
      · subst hequals
        by_cases hname : trim (slice value st.offset st.i) = []
        · simp [ScanState.turn, view, hst, hlatin, hname]
        · simp [ScanState.turn, view, hst, hlatin, hname, hempty]
      · simp [ScanState.turn, view, hst, hlatin, hequals, hnext]
  | valueStart | attributeValueStart =>
    by_cases hblank : c = asc ' ' ∨ c = 9
    · simp [ScanState.turn, ScanState.startTurn, isBlank, view, hst, hblank, hnext]
    · by_cases hquote : c = 34
      · have hspace : (34 : UInt16) ≠ asc ' ' := by decide
        simp [ScanState.turn, ScanState.startTurn, isBlank, ScanState.body, view, hst, hquote,
          hspace, hempty]
      · simp [ScanState.turn, ScanState.startTurn, isBlank, ScanState.body, view, hst, hblank,
          hquote, hsame]
  | value =>
    by_cases hquote : st.quoted = true ∧ c = 34
    · simp [ScanState.turn, ScanState.bodyTurn, ScanState.emit, ScanState.close, view, hst, hquote,
        hempty]
    · by_cases hend : c = asc ';'
      · subst hend
        simp [ScanState.turn, ScanState.bodyTurn, ScanState.emit, ScanState.close, view, hst, hquote,
          hempty]
      · simp [ScanState.turn, ScanState.bodyTurn, view, hst, hquote, hend, hnext]
  | «attribute» =>
    by_cases hblank : c = asc ' ' ∨ c = 9
    · simp [ScanState.turn, isBlank, view, hst, hblank, hnext]
    · by_cases hend : c = asc ';'
      · subst hend
        simp [ScanState.turn, isBlank, view, hst, hblank, hempty]
      · simp [ScanState.turn, isBlank, view, hst, hblank, hend]
  | attributeName =>
    by_cases hcontrol : isControlChar c = true
    · simp [ScanState.turn, view, hst, hcontrol]
    · by_cases hequals : c = asc '='
      · subst hequals
        simp [ScanState.turn, view, hst, hcontrol, hempty]
      · by_cases hend : c = asc ';'
        · subst hend
          cases hset : setAttribute P st.cookieBuilder (trim (slice value st.offset st.i)) [] <;>
            simp [ScanState.turn, ScanState.close, view, hst, hcontrol, hequals, hset, hempty]
        · simp [ScanState.turn, view, hst, hcontrol, hequals, hend, hnext]
  | attributeValue =>
    by_cases hquote : st.quoted = true ∧ c = 34
    · cases hset : setAttribute P st.cookieBuilder st.name (trim (slice value st.offset st.i)) <;>
        simp [ScanState.turn, ScanState.bodyTurn, ScanState.emit, ScanState.close, view, hst,
          hquote, hset, hempty]
    · by_cases hend : c = asc ';'
      · subst hend
        cases hset : setAttribute P st.cookieBuilder st.name (trim (slice value st.offset st.i)) <;>
          simp [ScanState.turn, ScanState.bodyTurn, ScanState.emit, ScanState.close, view, hst,
            hquote, hset, hempty]
      · simp [ScanState.turn, ScanState.bodyTurn, view, hst, hquote, hend, hnext]

theorem final_view (P : Platform) {value : Text} {st : ParseState} (hi : st.i = value.length) :
    (view value st).final P = parseFinal P value st := by
  cases st with
  | mk i state offset name quoted builder =>
    obtain rfl : i = value.length := hi
    rfl

/-- **The parser's loop is the scanner** on the rest of the string. -/
theorem parseLoop_eq_scan (P : Platform) (value : Text) (fuel : Nat) :
    ∀ st : ParseState, st.offset ≤ st.i → st.i ≤ value.length → remainingTurns value st ≤ fuel →
      parseLoop P value fuel st = (view value st).scan P (value.drop st.i) := by
  induction fuel with
  | zero =>
    intro st ho hi hfuel
    have hend : st.i = value.length := le_antisymm hi (not_lt.mp (lt_of_remainingTurns_zero hfuel))
    rw [parseLoop, hend, List.drop_length, scan_nil, final_view P hend]
  | succ fuel ih =>
    intro st ho hi hfuel
    rw [parseLoop]
    by_cases hlt : st.i < value.length
    · have hturn := turn_view (P := P) hlt ho
      have hget : value.getD st.i 0 = value[st.i] := by simp [List.getD_eq_getElem?_getD, hlt]
      rw [if_pos hlt, List.drop_eq_getElem_cons hlt, scan_cons, ← hget]
      cases hstep : parseStep P value st with
      | error r =>
        simp only [hstep] at hturn
        rw [hturn]
      | ok st' =>
        have hless := remainingTurns_parseStep hlt hstep
        have ho' := parseStep_offset hstep ho
        simp only [hstep] at hturn
        rcases hturn with ⟨hnext, hturn⟩ | ⟨hsame, hturn⟩
        · show parseLoop P value fuel st' = _
          rw [hturn, ih st' ho' (by omega) (by omega), hnext]
        · show parseLoop P value fuel st' = _
          rw [hturn, ih st' ho' (by omega) (by omega), hsame, List.drop_eq_getElem_cons hlt,
            scan_cons, ← hget]
    · have hend : st.i = value.length := le_antisymm hi (not_lt.mp hlt)
      rw [if_neg hlt, hend, List.drop_length, scan_nil, final_view P hend]

theorem parse_eq_scan (P : Platform) (value : Text) :
    parse P value = ScanState.scan P {} value := by
  have hstart : remainingTurns value {} ≤ 2 * value.length := by
    simp [remainingTurns, ECookieParseState.IsStart]
  have hview : view value {} = {} := by simp [view, slice_self]
  rw [parse, parseLoop_eq_scan P value _ {} le_rfl (Nat.zero_le _) hstart, hview]
  rfl

end NetMod.SetCookieScan
