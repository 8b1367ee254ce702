import NetMod.SetCookieText

/-!
# The Set-Cookie machine as a grammar that splits

A Set-Cookie value without quotation marks is a name, a `=`, and segments between semicolons: the
first segment is the value, each further one is an attribute with an optional `=` of its own.
`parse_eq_grammar` says that `Parse` builds what the segments say and calls `SetAttribute` once for
each of them, in order.

The calls are read off the turns of the loop (`turnCall`): one turn makes at most one, and the end
of the string makes at most one more.
-/

namespace NetMod.SetCookieGrammar

open NetMod.BlitzText NetMod.HttpCookie NetMod.SetCookieParser NetMod.SetCookieScan
open NetMod.SetCookieText NetMod.SeparatedText

/-! ### The calls of `SetAttribute` -/

/-- The name and the value given to `SetAttribute` in the turn on the unit at `i`. -/
def turnCall (value : Text) (st : ParseState) : Option (Text × Text) :=
  let char := value.getD st.i 0
  let text := trim (slice value st.offset st.i)
  match st.state with
  | .attributeName =>
    if isControlChar char then none
    else if char = asc '=' then none
    else if char = asc ';' then some (text, [])
    else none
  | .attributeValue =>
    if st.quoted ∧ char = 34 then some (st.name, text)
    else if char = asc ';' then some (st.name, text)
    else none
  | _ => none

/-- The call of the final state processing. -/
def finalCall (value : Text) (st : ParseState) : Option (Text × Text) :=
  let text := trim (slice value st.offset value.length)
  match st.state with
  | .attributeName => some (text, [])
  | .attributeValueStart => some (st.name, [])
  | .attributeValue => some (st.name, text)
  | _ => none

/-- The calls of the loop, in order. -/
def callsLoop (P : Platform) (value : Text) : Nat → ParseState → List (Text × Text)
  | 0, st => (finalCall value st).toList
  | fuel + 1, st =>
    if st.i < value.length then
      (turnCall value st).toList ++
        match parseStep P value st with
        | .error _ => []
        | .ok st => callsLoop P value fuel st
    else (finalCall value st).toList

/-- The calls `Parse` makes. -/
def setAttributeCalls (P : Platform) (value : Text) : List (Text × Text) :=
  callsLoop P value (2 * value.length) {}

/-- **A turn with a call** hands the builder to `SetAttribute`, once. -/
theorem parseStep_of_call {P : Platform} {value : Text} {st : ParseState} {a : Text × Text}
    (h : turnCall value st = some a) :
    match setAttribute P st.cookieBuilder a.1 a.2 with
    | none => parseStep P value st = .error .raised
    | some b => ∃ st', parseStep P value st = .ok st' ∧ st'.cookieBuilder = some b := by
  rw [turnCall.eq_def] at h
  rw [parseStep.eq_def]
  cases hst : st.state <;> simp only [hst] at h ⊢
  case name | valueStart | value | «attribute» | attributeValueStart => cases h
  case attributeName =>
    split_ifs at h with hcontrol hequals hend
    cases h
    rw [if_neg hcontrol, if_neg hequals, if_pos hend]
    cases setAttribute P st.cookieBuilder (trim (slice value st.offset st.i)) [] with
    | none => simp
    | some b => simp
  case attributeValue =>
    split_ifs at h with hquote hend
    all_goals cases h
    · rw [if_pos hquote]
      cases setAttribute P st.cookieBuilder st.name (trim (slice value st.offset st.i)) with
      | none => simp
      | some b => simp
    · rw [if_neg hquote, if_pos hend]
      cases setAttribute P st.cookieBuilder st.name (trim (slice value st.offset st.i)) with
      | none => simp
      | some b => simp

/-- **A turn without a call** leaves the builder alone or makes the first one. -/
theorem parseStep_of_no_call {P : Platform} {value : Text} {st st' : ParseState}
    (h : turnCall value st = none) (hstep : parseStep P value st = .ok st') :
    st'.cookieBuilder = st.cookieBuilder ∨ st.state = .value := by
  rw [turnCall.eq_def] at h
  rw [parseStep.eq_def] at hstep
  cases hst : st.state <;> simp only [hst] at h hstep
  case value => exact Or.inr rfl
  case attributeName | attributeValue => split_ifs at h hstep <;> cases hstep <;> exact Or.inl rfl
  all_goals split_ifs at hstep <;> cases hstep <;> exact Or.inl rfl

/-! ### The calls of the scanner -/

/-- The call in a turn of the scanner; a start state and the state behind it are one turn. -/
def scanCall (st : ScanState) (c : UInt16) : Option (Text × Text) :=
  match st.state with
  | .attributeName =>
    if isControlChar c then none
    else if c = asc '=' then none
    else if c = asc ';' then some (trim st.seen, [])
    else none
  | .attributeValueStart =>
    if isBlank c then none
    else if c = 34 then none
    else if c = asc ';' then some (st.name, [])
    else none
  | .attributeValue =>
    if st.quoted ∧ c = 34 then some (st.name, trim st.seen)
    else if c = asc ';' then some (st.name, trim st.seen)
    else none
  | _ => none

/-- The calls of a scan. -/
def callsIn (P : Platform) : ScanState → Text → List (Text × Text)
  | _, [] => []
  | st, c :: cs =>
    (scanCall st c).toList ++
      match st.turn P c with
      | .error _ => []
      | .ok st => callsIn P st cs

theorem callsIn_append (P : Platform) (a b : Text) :
    ∀ st : ScanState, callsIn P st (a ++ b) =
      callsIn P st a ++
        match a.foldlM (ScanState.turn P) st with
        | .error _ => []
        | .ok st => callsIn P st b := by
  induction a with
  | nil => intro st; rfl
  | cons c a ih =>
    intro st
    rw [List.cons_append, callsIn, callsIn, List.foldlM_cons, List.append_assoc]
    cases st.turn P c with
    | error r => rfl
    | ok st' =>
      show _ ++ callsIn P st' (a ++ b) = _
      rw [ih st']
      rfl

/-- Outside the start states both look at the same unit in the same state. -/
theorem turnCall_eq_scanCall {value : Text} {st : ParseState}
    (hst : st.state ≠ .attributeValueStart) :
    turnCall value st = scanCall (view value st) (value.getD st.i 0) := by
  rw [turnCall.eq_def, scanCall.eq_def]
  cases hstate : st.state <;> simp only [view, hstate]
  case attributeValueStart => exact absurd hstate hst

/-- A start state makes no call itself, and the state it hands its unit to makes the scanner's. -/
theorem turnCall_start {P : Platform} {value : Text} {st st' : ParseState}
    (hst : st.state = .attributeValueStart) (hstep : parseStep P value st = .ok st') :
    turnCall value st = none ∧
      (st'.i = st.i + 1 → scanCall (view value st) (value.getD st.i 0) = none) ∧
      (st'.i = st.i → scanCall (view value st) (value.getD st.i 0) =
        scanCall (view value st') (value.getD st.i 0)) := by
  have hsame := slice_self value st.i
  rw [parseStep, hst] at hstep
  dsimp only at hstep
  rw [turnCall, hst]
  generalize value.getD st.i 0 = c at hstep ⊢
  by_cases hblank : c = asc ' ' ∨ c = 9
  · rw [if_pos hblank] at hstep
    cases hstep
    simp [scanCall, view, hst, isBlank, hblank]
  · rw [if_neg hblank] at hstep
    by_cases hquote : c = 34
    · rw [if_pos hquote] at hstep
      cases hstep
      simp [scanCall, view, hst, isBlank, hquote]
    · rw [if_neg hquote] at hstep
      cases hstep
      simp [scanCall, view, hst, isBlank, hblank, hquote, hsame]

/-- **One turn of the parser makes the call of the scanner's turn.** -/
theorem turnCall_view (P : Platform) (value : Text) (st : ParseState) :
    match parseStep P value st with
    | .error _ => turnCall value st = scanCall (view value st) (value.getD st.i 0)
    | .ok st' =>
      (st'.i = st.i + 1 → turnCall value st = scanCall (view value st) (value.getD st.i 0)) ∧
        (st'.i = st.i → turnCall value st = none ∧
          scanCall (view value st) (value.getD st.i 0) =
            scanCall (view value st') (value.getD st.i 0)) := by
  cases hstep : parseStep P value st with
  | error r =>
    apply turnCall_eq_scanCall
    intro hst
    rw [parseStep, hst] at hstep
    dsimp only at hstep
    split_ifs at hstep
  | ok st' =>
    by_cases hst : st.state = .attributeValueStart
    · obtain ⟨hnone, hnext, hsame⟩ := turnCall_start hst hstep
      exact ⟨fun h => hnone.trans (hnext h).symm, fun h => ⟨hnone, hsame h⟩⟩
    · refine ⟨fun _ => turnCall_eq_scanCall hst, fun hi => ?_⟩
      rcases parseStep_advances hstep with hnext | ⟨-, hstart | hstart, -⟩
      · omega
      · rw [parseStep, hstart] at hstep
        dsimp only at hstep
        rw [turnCall, hstart]
        refine ⟨rfl, ?_⟩
        split_ifs at hstep <;> cases hstep <;> simp [scanCall, view, hstart]
      · exact absurd hstart hst

/-- The end of the string is one more `;`. -/
theorem finalCall_view {value : Text} {st : ParseState} (hi : st.i = value.length) :
    finalCall value st = scanCall (view value st) (asc ';') := by
  have hcontrol : isControlChar (asc ';') = false := by decide
  have hblank : isBlank (asc ';') = false := by decide
  have hequals : asc ';' ≠ asc '=' := by decide
  have hquote : asc ';' ≠ 34 := by decide
  rw [finalCall.eq_def]
  cases hst : st.state <;> simp [scanCall, view, hst, hi, hcontrol, hblank, hequals, hquote]

theorem callsIn_last (P : Platform) (st : ScanState) (c : UInt16) :
    callsIn P st [c] = (scanCall st c).toList := by
  rw [callsIn]
  cases st.turn P c with
  | error r => exact List.append_nil _
  | ok st' => exact List.append_nil _

/-- **The calls of the loop are those of the scanner** on the rest of the string. -/
theorem callsLoop_eq_callsIn (P : Platform) (value : Text) (fuel : Nat) :
    ∀ st : ParseState, st.offset ≤ st.i → st.i ≤ value.length → remainingTurns value st ≤ fuel →
      callsLoop P value fuel st = callsIn P (view value st) (value.drop st.i ++ [asc ';']) := by
  induction fuel with
  | zero =>
    intro st ho hi hfuel
    have hend : st.i = value.length := le_antisymm hi (not_lt.mp (lt_of_remainingTurns_zero hfuel))
    rw [callsLoop, hend, List.drop_length, List.nil_append, callsIn_last, finalCall_view hend]
  | succ fuel ih =>
    intro st ho hi hfuel
    rw [callsLoop]
    by_cases hlt : st.i < value.length
    · have hturn := turn_view (P := P) hlt ho
      have hcall := turnCall_view P value st
      have hget : value.getD st.i 0 = value[st.i] := by simp [List.getD_eq_getElem?_getD, hlt]
      rw [if_pos hlt, List.drop_eq_getElem_cons hlt, List.cons_append, callsIn, ← hget]
      cases hstep : parseStep P value st with
      | error r =>
        simp only [hstep] at hturn hcall
        rw [hturn, hcall]
      | ok st' =>
        have hless := remainingTurns_parseStep hlt hstep
        have ho' := parseStep_offset hstep ho
        simp only [hstep] at hturn hcall
        rcases hturn with ⟨hnext, hturn⟩ | ⟨hsame, hturn⟩
        · rw [hturn, hcall.1 hnext]
          show _ ++ callsLoop P value fuel st' = _
          rw [ih st' ho' (by omega) (by omega), hnext]
        · obtain ⟨hnone, hscan⟩ := hcall.2 hsame
          rw [hturn, hnone, hscan]
          show callsLoop P value fuel st' = _
          rw [ih st' ho' (by omega) (by omega), hsame, List.drop_eq_getElem_cons hlt,
            List.cons_append, callsIn, ← hget]
    · have hend : st.i = value.length := le_antisymm hi (not_lt.mp hlt)
      rw [if_neg hlt, hend, List.drop_length, List.nil_append, callsIn_last, finalCall_view hend]

theorem setAttributeCalls_eq (P : Platform) (value : Text) :
    setAttributeCalls P value = callsIn P {} (value ++ [asc ';']) := by
  have hstart : remainingTurns value {} ≤ 2 * value.length := by
    simp [remainingTurns, ECookieParseState.IsStart]
  have hview : view value {} = {} := by simp [view, slice_self]
  rw [setAttributeCalls, callsLoop_eq_callsIn P value _ {} le_rfl (Nat.zero_le _) hstart, hview]
  rfl

/-! ### The calls of one piece -/

/-- The states in which a piece makes no call. -/
def IsQuiet (state : ECookieParseState) : Prop :=
  state = .valueStart ∨ state = .value ∨ state = .attribute

theorem scanCall_quiet {st : ScanState} (hst : IsQuiet st.state) (c : UInt16) :
    scanCall st c = none := by
  rcases hst with hst | hst | hst <;> rw [scanCall, hst]

theorem turn_quiet {P : Platform} {st st' : ScanState} {c : UInt16} (hst : IsQuiet st.state)
    (hc : c ≠ asc ';') (h : st.turn P c = .ok st') : IsQuiet st'.state := by
  rw [ScanState.turn.eq_def] at h
  rcases hst with hst | hst | hst <;>
    simp only [hst, ScanState.startTurn, ScanState.bodyTurn, ScanState.body, ScanState.emit] at h
  all_goals
    repeat' split at h
    all_goals first | (cases h; done) | skip
    all_goals first | contradiction | cases h
    all_goals simp [IsQuiet]

/-- **The value makes no call.** -/
theorem callsIn_quiet (P : Platform) {p : Text} (hp : asc ';' ∉ p) :
    ∀ st : ScanState, IsQuiet st.state → callsIn P st (p ++ [asc ';']) = [] := by
  induction p with
  | nil =>
    intro st hst
    rw [List.nil_append, callsIn_last, scanCall_quiet hst]
    rfl
  | cons c p ih =>
    intro st hst
    obtain ⟨hc, hrest⟩ := not_or.mp (mt List.mem_cons.mpr hp)
    rw [List.cons_append, callsIn, scanCall_quiet hst]
    cases hturn : st.turn P c with
    | error r => rfl
    | ok st' => exact ih hrest st' (turn_quiet hst (Ne.symm hc) hturn)

theorem scanCall_body {st : ScanState} (hst : st.state = .attributeValue) (c : UInt16) :
    scanCall st c =
      if st.quoted ∧ c = 34 then some (st.name, trim st.seen)
      else if c = asc ';' then some (st.name, trim st.seen)
      else none := by
  rw [scanCall, hst]

/-- An attribute's value makes one call, where it ends. -/
theorem callsIn_body (P : Platform) {p : Text} (hp : asc ';' ∉ p) :
    ∀ st : ScanState, st.state = .attributeValue → (st.quoted = true → 34 ∉ st.seen) →
      callsIn P st (p ++ [asc ';']) =
        [(st.name, (readBody st.quoted (st.seen ++ p)).text)] := by
  induction p with
  | nil =>
    intro st hst hseen
    have hquote : asc ';' ≠ 34 := by decide
    rw [List.nil_append, callsIn_last, List.append_nil, readBody_open hseen, scanCall_body hst,
      if_neg (fun h => hquote h.2), if_pos rfl]
    rfl
  | cons c p ih =>
    intro st hst hseen
    obtain ⟨hc, hrest⟩ := not_or.mp (mt List.mem_cons.mpr hp)
    rw [List.cons_append, callsIn, turn_body (Or.inr hst), ScanState.bodyTurn, scanCall_body hst]
    by_cases hquote : st.quoted = true ∧ c = 34
    · obtain ⟨hquoted, rfl⟩ := hquote
      rw [if_pos ⟨hquoted, rfl⟩, if_pos ⟨hquoted, rfl⟩, hquoted, readBody_closed (hseen hquoted)]
      cases st.emit P (trim st.seen) with
      | none => rfl
      | some b =>
        show _ :: callsIn P { st with state := .attribute, seen := [], quoted := false,
                                      cookieBuilder := some b } (p ++ [asc ';']) = _
        rw [callsIn_quiet P hrest _ (Or.inr (Or.inr rfl))]
    · rw [if_neg hquote, if_neg hquote, if_neg (Ne.symm hc), if_neg (Ne.symm hc)]
      have hkept : st.quoted = true → 34 ∉ st.seen ++ [c] := by
        intro hquoted
        exact not_mem_concat (hseen hquoted) fun hc => hquote ⟨hquoted, hc⟩
      have hrec := ih hrest { st with seen := st.seen ++ [c] } hst hkept
      rw [List.append_cons st.seen c p]
      exact hrec

/-- A value behind its `=` makes that call too. -/
theorem callsIn_start (P : Platform) {p : Text} (hp : asc ';' ∉ p) :
    ∀ st : ScanState, st.state = .attributeValueStart →
      callsIn P st (p ++ [asc ';']) = [(st.name, (readValue st.quoted p).text)] := by
  induction p with
  | nil =>
    intro st hst
    rw [List.nil_append, callsIn_last, scanCall, hst]
    dsimp only
    rw [if_neg (by decide), if_neg (by decide), if_pos rfl, readValue, readBody_open (by simp)]
    rfl
  | cons c p ih =>
    intro st hst
    obtain ⟨hc, hrest⟩ := not_or.mp (mt List.mem_cons.mpr hp)
    have hbody : st.body = .attributeValue := by rw [ScanState.body, hst]
    have hnone : scanCall st c = none := by
      rw [scanCall, hst]
      dsimp only
      rw [if_neg (Ne.symm hc)]
      split_ifs <;> rfl
    rw [List.cons_append, callsIn, hnone, turn_start (Or.inr hst), ScanState.startTurn, readValue]
    by_cases hblank : isBlank c = true
    · rw [if_pos hblank, if_pos hblank]
      exact ih hrest { st with seen := st.seen ++ [c] } hst
    · rw [if_neg hblank, if_neg hblank]
      by_cases hquote : c = 34
      · rw [if_pos hquote, if_pos hquote]
        exact callsIn_body P hrest { st with state := st.body, seen := [], quoted := true } hbody
          (fun _ => List.not_mem_nil)
      · rw [if_neg hquote, if_neg hquote]
        have hread := callsIn_body P hp { st with state := st.body, seen := [] } hbody
          (fun _ => List.not_mem_nil)
        rw [List.cons_append, callsIn, turn_body (Or.inr hbody), scanCall_body hbody,
          if_neg (fun h => hquote h.2), if_neg (Ne.symm hc)] at hread
        exact hread

/-- The calls an attribute's piece makes. -/
def pieceCalls : Option (Text × ReadValue) → List (Text × Text)
  | none => []
  | some (name, v) => [(name, v.text)]

/-- **A piece that is an attribute makes one call**, none behind a control character. -/
theorem callsIn_attributeName (P : Platform) {p : Text} (hp : asc ';' ∉ p) :
    ∀ st : ScanState, st.state = .attributeName → asc '=' ∉ st.seen →
      st.seen.any isControlChar = false →
      callsIn P st (p ++ [asc ';']) = pieceCalls (readAttribute st.quoted (st.seen ++ p)) := by
  induction p with
  | nil =>
    intro st hst hseen hcontrol
    rw [List.nil_append, callsIn_last, List.append_nil, readAttribute_alone hseen hcontrol, scanCall,
      hst]
    dsimp only
    rw [if_neg (by decide), if_neg (by decide), if_pos rfl]
    rfl
  | cons c p ih =>
    intro st hst hseen hcontrol
    obtain ⟨hc, hrest⟩ := not_or.mp (mt List.mem_cons.mpr hp)
    rw [List.cons_append, callsIn, ScanState.turn, scanCall, hst]
    dsimp only
    by_cases hctl : isControlChar c = true
    · rw [readAttribute_control hseen hctl, if_pos hctl, if_pos hctl]
      rfl
    · rw [if_neg hctl, if_neg hctl]
      by_cases hequals : c = asc '='
      · rw [hequals, readAttribute_value hseen hcontrol, if_pos rfl, if_pos rfl]
        exact callsIn_start P hrest
          { st with state := .attributeValueStart, seen := [], name := trim st.seen } rfl
      · rw [if_neg hequals, if_neg hequals, if_neg (Ne.symm hc), if_neg (Ne.symm hc),
          List.append_cons st.seen c p]
        refine ih hrest { st with state := .attributeName, seen := st.seen ++ [c] } rfl ?_ ?_
        · exact not_mem_concat hseen hequals
        · simp [hcontrol, hctl]

/-! ### The calls of the whole value -/

theorem setAttributes_cons {P : Platform} {b b' : THttpCookieBuilder} {name value : Text}
    {attributes : List (Text × Text)}
    (h : setAttributes P b ((name, value) :: attributes) = some b') :
    ∃ b₁, b.attribute P name value = some b₁ ∧ setAttributes P b₁ attributes = some b' :=
  Option.bind_eq_some_iff.mp
    (show (b.attribute P name value).bind (fun b => setAttributes P b attributes) = some b' from h)

/-- **The attributes' calls, piece by piece**, where none raises. -/
theorem callsIn_pieces (P : Platform) (ps : List Text) (hps : ∀ p ∈ ps, asc ';' ∉ p) :
    ∀ (st : ScanState) (b b' : THttpCookieBuilder), st.state = .attributeName → st.seen = [] →
      st.cookieBuilder = some b → setAttributes P b (readAttributes st.quoted ps).1 = some b' →
      callsIn P st (ps.flatMap fun p => p ++ [asc ';']) = (readAttributes st.quoted ps).1 := by
  induction ps with
  | nil => intro st b b' _ _ _ _; rfl
  | cons p ps ih =>
    intro st b b' hst hseen hb hset
    have hp := hps p List.mem_cons_self
    have hread := readPiece_attributeName P hp st hst hb
      (by rw [hseen]; exact List.not_mem_nil) (by rw [hseen]; rfl)
    have hcalls := callsIn_attributeName P hp st hst
      (by rw [hseen]; exact List.not_mem_nil) (by rw [hseen]; rfl)
    rw [hseen, List.nil_append] at hread hcalls
    rw [readPiece] at hread
    rw [List.flatMap_cons, callsIn_append, hcalls, hread]
    rw [readAttributes] at hset ⊢
    cases hattr : readAttribute st.quoted p with
    | none => rfl
    | some r =>
      obtain ⟨name, v⟩ := r
      rw [hattr] at hset
      dsimp only at hset ⊢
      have hemit : ScanState.emit P
          { state := .attributeValueStart, name := name, cookieBuilder := some b } v.text =
          b.attribute P name v.text := rfl
      cases hclean : v.clean with
      | false =>
        rw [closeAttribute, closeWith, hemit]
        cases b.attribute P name v.text <;> simp [hclean, pieceCalls]
      | true =>
        rw [hclean, if_pos rfl] at hset
        obtain ⟨b₁, hfirst, hrest⟩ := setAttributes_cons hset
        rw [closeAttribute, closeWith, hemit, hfirst, if_pos rfl]
        simp only [hclean, if_true]
        exact congrArg _ (ih (fun q hq => hps q (List.mem_cons_of_mem p hq))
          { state := .attributeName, seen := [], name := name, quoted := v.quoted,
            cookieBuilder := some b₁ } b₁ b' rfl rfl rfl hrest)

/-- No call before the `=` of the name. -/
theorem callsIn_name (P : Platform) {n : Text} (hn : asc '=' ∉ n)
    (hlatin : n.any (255 < ·) = false) (rest : Text) :
    ∀ st : ScanState, st.state = .name → trim (st.seen ++ n) ≠ [] →
      callsIn P st (n ++ asc '=' :: rest) =
        callsIn P { st with state := .valueStart, seen := [], name := trim (st.seen ++ n) }
          rest := by
  induction n with
  | nil =>
    intro st hst hname
    rw [List.append_nil] at hname
    rw [List.nil_append, List.append_nil, callsIn, scanCall, ScanState.turn, hst]
    dsimp only
    rw [if_neg (by decide), if_pos rfl, if_neg hname]
    rfl
  | cons c n ih =>
    intro st hst hname
    obtain ⟨hc, hrest⟩ := not_or.mp (mt List.mem_cons.mpr hn)
    rw [List.any_cons, Bool.or_eq_false_iff, decide_eq_false_iff_not] at hlatin
    rw [List.append_cons st.seen c n] at hname ⊢
    rw [List.cons_append, callsIn, scanCall, ScanState.turn, hst]
    dsimp only
    rw [if_neg hlatin.1, if_neg (Ne.symm hc)]
    exact ih hrest hlatin.2 { st with state := .name, seen := st.seen ++ [c] } rfl hname

/-- What stands behind the `=` of the name, for its pieces. -/
def attributesBehind (p : Text) (ps : List Text) : List (Text × Text) × Bool :=
  if (readValue false p).clean then readAttributes (readValue false p).quoted ps else ([], false)

/-- The value makes no call and the attributes make theirs. -/
theorem callsIn_behind {P : Platform} {p : Text} {ps : List Text}
    (hps : ∀ q ∈ p :: ps, asc ';' ∉ q) {name : Text} {b : THttpCookieBuilder}
    (hb : setAttributes P { name, value := (readValue false p).text } (attributesBehind p ps).1 =
      some b) :
    callsIn P { state := .valueStart, name } ((p :: ps).flatMap fun q => q ++ [asc ';']) =
      (attributesBehind p ps).1 := by
  have hp := hps p List.mem_cons_self
  have hread := readPiece_start P hp { state := .valueStart, name } (Or.inl rfl)
  rw [readPiece] at hread
  rw [List.flatMap_cons, callsIn_append, callsIn_quiet P hp _ (Or.inl rfl), List.nil_append, hread,
    closeWith]
  rw [attributesBehind] at hb ⊢
  have hquoted : (ScanState.quoted { state := .valueStart, name }) = false := rfl
  have hemit : ScanState.emit P { state := .valueStart, name } (readValue false p).text =
      some { name, value := (readValue false p).text } := rfl
  rw [hquoted, hemit]
  cases hclean : (readValue false p).clean with
  | false => simp
  | true =>
    rw [hclean, if_pos rfl] at hb
    simp only [if_true]
    exact callsIn_pieces P ps (fun q hq => hps q (List.mem_cons_of_mem p hq))
      { state := .attributeName, seen := [], name, quoted := (readValue false p).quoted,
        cookieBuilder := some { name, value := (readValue false p).text } } _ b rfl rfl rfl hb

/-- The parts of a value with a name in front of its first `=`. -/
theorem cookieText_named {n : Text} (hn : asc '=' ∉ n) (hlatin : n.any (255 < ·) = false)
    (hname : trim n ≠ []) {rest p : Text} {ps : List Text}
    (hpieces : rest.splitOn (asc ';') = p :: ps) :
    cookieText (n ++ asc '=' :: rest) =
      some { name := trim n, value := (readValue false p).text,
             attributes := (attributesBehind p ps).1, wellFormed := (attributesBehind p ps).2 } := by
  rw [cookieText, takeWhile_until hn, dropWhile_until hn]
  dsimp only
  rw [if_neg (by simp [hlatin, hname]), hpieces]
  rfl

/-- **Where no call raises, the calls are the attributes of the value.** -/
theorem setAttributeCalls_named {P : Platform} {n : Text} (hn : asc '=' ∉ n)
    (hlatin : n.any (255 < ·) = false) (hname : trim n ≠ []) {rest p : Text} {ps : List Text}
    (hpieces : rest.splitOn (asc ';') = p :: ps) {b : THttpCookieBuilder}
    (hb : setAttributes P { name := trim n, value := (readValue false p).text }
      (attributesBehind p ps).1 = some b) :
    setAttributeCalls P (n ++ asc '=' :: rest) = (attributesBehind p ps).1 := by
  have hps : ∀ q ∈ p :: ps, asc ';' ∉ q := fun q hq => not_mem_of_mem_splitOn (hpieces ▸ hq)
  rw [setAttributeCalls_eq, List.append_assoc, List.cons_append,
    callsIn_name P hn hlatin _ {} rfl hname, ← flatMap_splitOn, hpieces]
  exact callsIn_behind hps hb

/-! ### Segments -/

/-- A segment up to its first `=`, or all of it. -/
def segmentName (p : Text) : Text := p.takeWhile (· ≠ asc '=')

/-- A segment behind its first `=`; empty without one. -/
def segmentValue (p : Text) : Text := (p.dropWhile (· ≠ asc '=')).tail

/-- What `SetAttribute` is given for a segment. -/
def segmentCall (p : Text) : Text × Text := (trim (segmentName p), trim (segmentValue p))

/-- The segment's name has a control character. -/
def segmentControl (p : Text) : Bool := (segmentName p).any isControlChar

theorem readValue_plain {p : Text} (hp : 34 ∉ p) :
    readValue false p = { text := trim p, quoted := false, clean := true } := by
  induction p with
  | nil => exact readBody_open (by simp)
  | cons c p ih =>
    obtain ⟨hc, hrest⟩ := not_or.mp (mt List.mem_cons.mpr hp)
    rw [readValue]
    by_cases hblank : isBlank c = true
    · have hle : c ≤ 32 := by
        rw [isBlank, decide_eq_true_eq] at hblank
        rcases hblank with rfl | rfl <;> decide
      rw [if_pos hblank, ih hrest, trim_cons_of_le hle]
    · rw [if_neg hblank, if_neg (Ne.symm hc), readBody_open (by simp)]

theorem readAttribute_plain {p : Text} (hp : 34 ∉ p) :
    readAttribute false p =
      if segmentControl p then none
      else some (trim (segmentName p),
        { text := trim (segmentValue p), quoted := false, clean := true }) := by
  rw [readAttribute, segmentControl, segmentName, segmentValue]
  cases hdrop : p.dropWhile (· ≠ asc '=') with
  | nil => rfl
  | cons c rest =>
    have hrest : 34 ∉ rest := fun h =>
      hp (List.dropWhile_subset _ (hdrop ▸ List.mem_cons_of_mem c h))
    dsimp only
    rw [readValue_plain hrest]
    rfl

/-- **Without quotation marks the attributes are the segments**, up to a control character. -/
theorem readAttributes_plain {ps : List Text} (hps : ∀ p ∈ ps, 34 ∉ p) :
    readAttributes false ps =
      ((ps.takeWhile fun p => !segmentControl p).map segmentCall, !ps.any segmentControl) := by
  induction ps with
  | nil => rfl
  | cons p ps ih =>
    rw [readAttributes, readAttribute_plain (hps p List.mem_cons_self), List.any_cons,
      List.takeWhile_cons]
    cases hcontrol : segmentControl p with
    | true => rfl
    | false =>
      simp only [Bool.false_eq_true, if_false, if_true, Bool.not_false, Bool.false_or,
        ih fun q hq => hps q (List.mem_cons_of_mem p hq)]
      rfl

/-- **`Parse` is the grammar that splits.**  For a value without quotation marks, with a name of
Latin-1 characters in front of its first `=`: the name and the text of the first segment are trimmed;
`SetAttribute` is called once for each further segment, in order, up to one with a control character
in its name.  Where no call raises, such a segment gives `Null`, and without one the built cookie is
returned. -/
theorem parse_eq_grammar (P : Platform) (n rest value : Text) (segments : List Text)
    (hequals : asc '=' ∉ n) (hlatin : ∀ c ∈ n, c ≤ 255) (hname : trim n ≠ [])
    (hquote : 34 ∉ n ++ asc '=' :: rest) (hsplit : rest.splitOn (asc ';') = value :: segments)
    (b : THttpCookieBuilder)
    (hset : setAttributes P { name := trim n, value := trim value }
      ((segments.takeWhile fun p => !segmentControl p).map segmentCall) = some b) :
    setAttributeCalls P (n ++ asc '=' :: rest) =
        (segments.takeWhile fun p => !segmentControl p).map segmentCall ∧
      parse P (n ++ asc '=' :: rest) =
        if segments.any segmentControl then .null else .cookie (b.build P) := by
  have hany : n.any (255 < ·) = false := by
    rw [List.any_eq_false]
    intro c hc
    simpa using hlatin c hc
  have hplain : ∀ p ∈ value :: segments, 34 ∉ p := by
    intro p hp hmem
    refine hquote (List.mem_append_right n (List.mem_cons_of_mem _ ?_))
    exact mem_of_mem_splitOn (hsplit ▸ hp) hmem
  have hvalue : readValue false value = { text := trim value, quoted := false, clean := true } :=
    readValue_plain (hplain value List.mem_cons_self)
  have hbehind : attributesBehind value segments =
      ((segments.takeWhile fun p => !segmentControl p).map segmentCall,
        !segments.any segmentControl) := by
    rw [attributesBehind, hvalue, if_pos rfl]
    exact readAttributes_plain fun p hp => hplain p (List.mem_cons_of_mem value hp)
  have hcalls := setAttributeCalls_named (P := P) (b := b) hequals hany hname hsplit
    (by rw [hbehind, hvalue]; exact hset)
  rw [hbehind] at hcalls
  refine ⟨hcalls, ?_⟩
  rw [parse_eq_parseText, parseText, cookieText_named hequals hany hname hsplit, hbehind, hvalue]
  dsimp only
  rw [outcomeWith, hset]
  cases segments.any segmentControl <;> rfl

/-- The whitespace test of the parser: five blank-padded pieces. -/
theorem parse_eq_grammar_token :
    setAttributeCalls asciiPlatform (lit "  token   =   val  ;   Path =  /p ;  HttpOnly  ") =
        [(lit "Path", lit "/p"), (lit "HttpOnly", [])] ∧
      parse asciiPlatform (lit "  token   =   val  ;   Path =  /p ;  HttpOnly  ") =
        .cookie { name := lit "token", value := lit "val",
                  attributes := [(lit "Path", lit "/p"), (lit "HttpOnly", lit "true")] } :=
  have hlatin : ((lit "  token   ").all fun c => decide (c ≤ 255)) = true := by decide
  parse_eq_grammar asciiPlatform (lit "  token   ") (lit "   val  ;   Path =  /p ;  HttpOnly  ")
    (lit "   val  ") [lit "   Path =  /p ", lit "  HttpOnly  "] (by decide)
    (fun c hc => of_decide_eq_true (List.all_eq_true.mp hlatin c hc))
    (by decide) (by decide) (by decide)
    { name := lit "token", value := lit "val",
      attributes := [(lit "Path", lit "/p"), (lit "HttpOnly", lit "true")] } (by decide +kernel)

end NetMod.SetCookieGrammar
