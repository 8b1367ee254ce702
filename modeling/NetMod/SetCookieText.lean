import NetMod.Lib.SeparatedText
import NetMod.SetCookieScan

/-!
# What a Set-Cookie value says

`parseText` never looks at a state of the parser: the part before the first `=` is the name, every
`;` behind it ends a piece, the first piece is the value and the others are attributes.
`parse_eq_parseText` says that this is `Parse`.

What is left of the state machine is one flag.  A quotation mark that opens a value and that no other
one closes in its piece stays open: the values of the later pieces end at a quotation mark too.
-/

namespace NetMod.SetCookieText

open NetMod.BlitzText NetMod.HttpCookie NetMod.SetCookieParser NetMod.SetCookieScan
open NetMod.SeparatedText

/-! ### Pieces -/

/-- The text of a value, whether a quotation mark is open behind its piece, and whether there are
only blanks behind the closing one. -/
structure ReadValue where
  text : Text
  quoted : Bool
  clean : Bool

/-- A value up to its closing quotation mark, or all of it. -/
def readBody (quoted : Bool) (p : Text) : ReadValue :=
  if quoted ∧ 34 ∈ p then
    { text := trim (p.takeWhile (· ≠ 34))
      quoted := false
      clean := (p.dropWhile (· ≠ 34)).tail.all isBlank }
  else { text := trim p, quoted := quoted, clean := true }

/-- A piece behind its `=`: blanks, and a quotation mark or not. -/
def readValue (quoted : Bool) : Text → ReadValue
  | [] => readBody quoted []
  | c :: p =>
    if isBlank c then readValue quoted p
    else if c = 34 then readBody true p
    else readBody quoted (c :: p)

/-- A piece that is an attribute; `none` for a control character in its name. -/
def readAttribute (quoted : Bool) (p : Text) : Option (Text × ReadValue) :=
  let name := p.takeWhile (· ≠ asc '=')
  if name.any isControlChar then none
  else
    match p.dropWhile (· ≠ asc '=') with
    | [] => some (trim name, { text := [], quoted := quoted, clean := true })
    | _ :: p => some (trim name, readValue quoted p)

/-- The attributes of the pieces, up to the first piece that is malformed, and whether there is
none. -/
def readAttributes : Bool → List Text → List (Text × Text) × Bool
  | _, [] => ([], true)
  | quoted, p :: ps =>
    match readAttribute quoted p with
    | none => ([], false)
    | some (name, v) =>
      if v.clean then
        let rest := readAttributes v.quoted ps
        ((name, v.text) :: rest.1, rest.2)
      else ([(name, v.text)], false)

/-- A Set-Cookie value with a name. -/
structure CookieText where
  name : Text
  value : Text
  attributes : List (Text × Text)
  wellFormed : Bool

/-- `none` for a value that has no `=`, or no name before it, or a unit beyond Latin-1 there. -/
def cookieText (s : Text) : Option CookieText :=
  let name := s.takeWhile (· ≠ asc '=')
  match s.dropWhile (· ≠ asc '=') with
  | [] => none
  | _ :: s =>
    if name.any (255 < ·) ∨ trim name = [] then none
    else
      let pieces := s.splitOn (asc ';')
      let v := readValue false (pieces.headD [])
      let rest := if v.clean then readAttributes v.quoted pieces.tail else ([], false)
      some { name := trim name, value := v.text, attributes := rest.1, wellFormed := rest.2 }

/-- The attributes given to a builder. -/
def setAttributes (P : Platform) (b : THttpCookieBuilder) (attributes : List (Text × Text)) :
    Option THttpCookieBuilder :=
  attributes.foldlM (fun b a => b.attribute P a.1 a.2) b

/-- What becomes of a builder that gets the attributes. -/
def outcomeWith (P : Platform) (b : THttpCookieBuilder) (attributes : List (Text × Text))
    (wellFormed : Bool) : ParseOutcome :=
  match setAttributes P b attributes with
  | none => .raised
  | some b => if wellFormed then .cookie (b.build P) else .null

def parseText (P : Platform) (s : Text) : ParseOutcome :=
  match cookieText s with
  | none => .null
  | some t => outcomeWith P { name := t.name, value := t.value } t.attributes t.wellFormed

/-! ### The scanner on one piece -/

/-- A piece and the `;` behind it. -/
def readPiece (P : Platform) (st : ScanState) (p : Text) : Except ParseOutcome ScanState :=
  (p ++ [asc ';']).foldlM (ScanState.turn P) st

theorem readPiece_nil (P : Platform) (st : ScanState) :
    readPiece P st [] = st.turn P (asc ';') := by
  rw [readPiece, List.nil_append, List.foldlM_cons]
  cases st.turn P (asc ';') with
  | error r => rfl
  | ok st' => rfl

theorem readPiece_cons (P : Platform) (st : ScanState) (c : UInt16) (p : Text) :
    readPiece P st (c :: p) = (st.turn P c).bind fun st => readPiece P st p := by
  rw [readPiece, List.cons_append, List.foldlM_cons]
  rfl

/-- Behind a closing quotation mark there may be blanks only. -/
theorem readPiece_attribute (P : Platform) {p : Text} (hp : asc ';' ∉ p) (st : ScanState)
    (hst : st.state = .attribute) :
    readPiece P st p =
      if p.all isBlank then .ok { st with state := .attributeName, seen := [] }
      else .error .null := by
  induction p generalizing st with
  | nil =>
    rw [readPiece_nil, ScanState.turn, hst]
    rfl
  | cons c p ih =>
    obtain ⟨hc, hrest⟩ := not_or.mp (mt List.mem_cons.mpr hp)
    rw [readPiece_cons, List.all_cons]
    by_cases hblank : isBlank c = true
    · have hturn : st.turn P c = .ok { st with seen := st.seen ++ [c] } := by
        simp [ScanState.turn, hst, hblank]
      rw [hturn, hblank, Bool.true_and]
      exact ih hrest _ hst
    · have hturn : st.turn P c = .error .null := by
        simp [ScanState.turn, hst, hblank, Ne.symm hc]
      rw [hturn, if_neg (by simp [hblank])]
      rfl

/-- The state behind a value: the piece is over, or something stands behind its quotation mark. -/
def closeWith (P : Platform) (st : ScanState) (v : ReadValue) : Except ParseOutcome ScanState :=
  match st.emit P v.text with
  | none => .error .raised
  | some b =>
    if v.clean then
      .ok { st with state := .attributeName, seen := [], quoted := v.quoted,
                    cookieBuilder := some b }
    else .error .null

/-- The states inside a value. -/
def IsBody (state : ECookieParseState) : Prop := state = .value ∨ state = .attributeValue

theorem turn_body {P : Platform} {st : ScanState} (hst : IsBody st.state) (c : UInt16) :
    st.turn P c = st.bodyTurn P c := by
  rcases hst with hst | hst <;> rw [ScanState.turn, hst]

theorem readBody_closed {a : Text} (ha : 34 ∉ a) (p : Text) :
    readBody true (a ++ 34 :: p) = { text := trim a, quoted := false, clean := p.all isBlank } := by
  rw [readBody, if_pos (by simp), takeWhile_until ha, dropWhile_until ha]
  rfl

theorem readBody_open {quoted : Bool} {p : Text} (hp : quoted = true → 34 ∉ p) :
    readBody quoted p = { text := trim p, quoted := quoted, clean := true } := by
  rw [readBody, if_neg]
  intro h
  exact hp h.1 h.2

theorem not_mem_concat {s : Text} {a c : UInt16} (hs : a ∉ s) (hc : c ≠ a) : a ∉ s ++ [c] := by
  apply List.not_mem_append hs
  intro hmem
  exact hc (List.mem_singleton.mp hmem).symm

/-- **A piece inside a value** ends at its closing quotation mark or with the piece. -/
theorem readPiece_body (P : Platform) {p : Text} (hp : asc ';' ∉ p) (st : ScanState)
    (hst : IsBody st.state) (hseen : st.quoted = true → 34 ∉ st.seen) :
    readPiece P st p = closeWith P st (readBody st.quoted (st.seen ++ p)) := by
  induction p generalizing st with
  | nil =>
    have hquote : asc ';' ≠ 34 := by decide
    rw [readPiece_nil, turn_body hst, ScanState.bodyTurn, if_neg (fun h => hquote h.2), if_pos rfl,
      List.append_nil, readBody_open hseen]
    rfl
  | cons c p ih =>
    obtain ⟨hc, hrest⟩ := not_or.mp (mt List.mem_cons.mpr hp)
    rw [readPiece_cons, turn_body hst, ScanState.bodyTurn]
    by_cases hquote : st.quoted = true ∧ c = 34
    · obtain ⟨hquoted, rfl⟩ := hquote
      rw [if_pos ⟨hquoted, rfl⟩, hquoted, readBody_closed (hseen hquoted), closeWith]
      cases st.emit P (trim st.seen) with
      | none => rfl
      | some b =>
        show readPiece P { st with state := .attribute, seen := [], quoted := false,
                                   cookieBuilder := some b } p = _
        rw [readPiece_attribute P hrest _ rfl]
    · rw [if_neg hquote, if_neg (Ne.symm hc)]
      have hkept : st.quoted = true → 34 ∉ st.seen ++ [c] := by
        intro hquoted
        exact not_mem_concat (hseen hquoted) fun hc => hquote ⟨hquoted, hc⟩
      have hrec := ih hrest { st with seen := st.seen ++ [c] } hst hkept
      rw [List.append_cons st.seen c p]
      exact hrec

theorem isBody_body (st : ScanState) : IsBody st.body := by
  rw [IsBody, ScanState.body]
  cases st.state <;> simp

theorem turn_start {P : Platform} {st : ScanState} (hst : st.state.IsStart) (c : UInt16) :
    st.turn P c = st.startTurn P c := by
  rcases hst with hst | hst <;> rw [ScanState.turn, hst]

/-- A piece from its first unit that is no blank: a start state gives the value to the same builder
as the state behind it. -/
theorem readPiece_entered (P : Platform) {p : Text} (hp : asc ';' ∉ p) {st : ScanState}
    (hst : st.state.IsStart) (quoted : Bool) :
    readPiece P { st with state := st.body, seen := [], quoted } p =
      closeWith P st (readBody quoted p) := by
  have hread := readPiece_body P hp { st with state := st.body, seen := [], quoted }
    (isBody_body st) (fun _ => List.not_mem_nil)
  have hclose : ∀ v, closeWith P { st with state := st.body, seen := [], quoted } v =
      closeWith P st v := by
    intro v
    rcases hst with hst | hst <;> simp [closeWith, ScanState.emit, ScanState.body, hst]
  rw [hclose] at hread
  exact hread

/-- **A piece before a value**: its leading blanks are skipped. -/
theorem readPiece_start (P : Platform) {p : Text} (hp : asc ';' ∉ p) (st : ScanState)
    (hst : st.state.IsStart) :
    readPiece P st p = closeWith P st (readValue st.quoted p) := by
  induction p generalizing st with
  | nil =>
    have hread := readPiece_entered P hp hst st.quoted
    rw [readPiece_nil, turn_body (isBody_body st)] at hread
    rw [readPiece_nil, turn_start hst, ScanState.startTurn, if_neg (by decide), if_neg (by decide)]
    exact hread
  | cons c p ih =>
    obtain ⟨hc, hrest⟩ := not_or.mp (mt List.mem_cons.mpr hp)
    rw [readPiece_cons, turn_start hst, ScanState.startTurn, readValue]
    by_cases hblank : isBlank c = true
    · rw [if_pos hblank, if_pos hblank]
      exact ih hrest { st with seen := st.seen ++ [c] } hst
    · rw [if_neg hblank, if_neg hblank]
      by_cases hquote : c = 34
      · rw [if_pos hquote, if_pos hquote]
        exact readPiece_entered P hrest hst true
      · rw [if_neg hquote, if_neg hquote]
        have hread := readPiece_entered P hp hst st.quoted
        rw [readPiece_cons, turn_body (isBody_body st)] at hread
        exact hread

/-- What an attribute does to the builder. -/
def closeAttribute (P : Platform) (b : THttpCookieBuilder) :
    Option (Text × ReadValue) → Except ParseOutcome ScanState
  | none => .error .null
  | some (name, v) =>
    closeWith P { state := .attributeValueStart, name := name, cookieBuilder := some b } v

theorem readAttribute_control {quoted : Bool} {a : Text} (ha : asc '=' ∉ a) {c : UInt16}
    (hc : isControlChar c = true) (p : Text) : readAttribute quoted (a ++ c :: p) = none := by
  have hne : c ≠ asc '=' := by
    intro h
    rw [h] at hc
    exact absurd hc (by decide)
  rw [readAttribute, List.takeWhile_append_of_pos (all_ne ha), List.takeWhile_cons,
    if_pos (decide_eq_true hne), if_pos (by simp [hc])]

theorem readAttribute_value {quoted : Bool} {a : Text} (ha : asc '=' ∉ a)
    (hcontrol : a.any isControlChar = false) (p : Text) :
    readAttribute quoted (a ++ asc '=' :: p) = some (trim a, readValue quoted p) := by
  rw [readAttribute, takeWhile_until ha, dropWhile_until ha, if_neg (by simp [hcontrol])]

theorem readAttribute_alone {quoted : Bool} {a : Text} (ha : asc '=' ∉ a)
    (hcontrol : a.any isControlChar = false) :
    readAttribute quoted a = some (trim a, { text := [], quoted := quoted, clean := true }) := by
  rw [readAttribute, List.takeWhile_eq_self_iff.mpr (all_ne ha),
    List.dropWhile_eq_nil_iff.mpr (all_ne ha), if_neg (by simp [hcontrol])]

/-- **A piece that is an attribute.** -/
theorem readPiece_attributeName (P : Platform) {p : Text} (hp : asc ';' ∉ p) (st : ScanState)
    (hst : st.state = .attributeName) {b : THttpCookieBuilder} (hb : st.cookieBuilder = some b)
    (hseen : asc '=' ∉ st.seen) (hcontrol : st.seen.any isControlChar = false) :
    readPiece P st p = closeAttribute P b (readAttribute st.quoted (st.seen ++ p)) := by
  induction p generalizing st with
  | nil =>
    rw [readPiece_nil, ScanState.turn, hst, List.append_nil, readAttribute_alone hseen hcontrol]
    show ScanState.close _ _ _ _ = closeWith P _ _
    rw [hb]
    rfl
  | cons c p ih =>
    obtain ⟨hc, hrest⟩ := not_or.mp (mt List.mem_cons.mpr hp)
    rw [readPiece_cons, ScanState.turn, hst]
    by_cases hctl : isControlChar c = true
    · rw [readAttribute_control hseen hctl]
      simp only [hctl, if_true]
      rfl
    · simp only [hctl, Bool.false_eq_true, if_false]
      by_cases hequals : c = asc '='
      · rw [hequals, readAttribute_value hseen hcontrol, if_pos rfl]
        exact (readPiece_start P hrest
          { st with state := .attributeValueStart, seen := [], name := trim st.seen }
          (Or.inr rfl)).trans (by rw [hb]; rfl)
      · rw [if_neg hequals, if_neg (Ne.symm hc), List.append_cons st.seen c p]
        refine ih hrest { st with state := .attributeName, seen := st.seen ++ [c] } rfl hb ?_ ?_
        · exact not_mem_concat hseen hequals
        · simp [hcontrol, hctl]

/-! ### The whole value -/

/-- The end of the string is one more `;`, once there is a builder. -/
def closing (P : Platform) : Except ParseOutcome ScanState → ParseOutcome
  | .error r => r
  | .ok st =>
    match st.cookieBuilder with
    | none => .raised
    | some b => .cookie (b.build P)

theorem outcomeWith_refused {P : Platform} {b : THttpCookieBuilder} {name value : Text}
    (h : b.attribute P name value = none) (attributes : List (Text × Text)) (wellFormed : Bool) :
    outcomeWith P b ((name, value) :: attributes) wellFormed = .raised := by
  rw [outcomeWith, setAttributes, List.foldlM_cons, h]
  rfl

theorem outcomeWith_accepted {P : Platform} {b b' : THttpCookieBuilder} {name value : Text}
    (h : b.attribute P name value = some b') (attributes : List (Text × Text)) (wellFormed : Bool) :
    outcomeWith P b ((name, value) :: attributes) wellFormed =
      outcomeWith P b' attributes wellFormed := by
  rw [outcomeWith, setAttributes, List.foldlM_cons, h]
  rfl

/-- **The attributes, piece by piece.** -/
theorem closing_pieces (P : Platform) (ps : List Text) (hps : ∀ p ∈ ps, asc ';' ∉ p) :
    ∀ (st : ScanState) (b : THttpCookieBuilder), st.state = .attributeName → st.seen = [] →
      st.cookieBuilder = some b →
      closing P (ps.foldlM (readPiece P) st) =
        outcomeWith P b (readAttributes st.quoted ps).1 (readAttributes st.quoted ps).2 := by
  induction ps with
  | nil =>
    intro st b _ _ hb
    show closing P (.ok st) = _
    rw [closing, hb]
    rfl
  | cons p ps ih =>
    intro st b hst hseen hb
    have hread := readPiece_attributeName P (hps p List.mem_cons_self) st hst hb
      (by rw [hseen]; exact List.not_mem_nil) (by rw [hseen]; rfl)
    rw [hseen, List.nil_append] at hread
    rw [List.foldlM_cons, hread, readAttributes]
    cases readAttribute st.quoted p with
    | none => rfl
    | some r =>
      obtain ⟨name, v⟩ := r
      have hset : ScanState.emit P
          { state := .attributeValueStart, name := name, cookieBuilder := some b } v.text =
          b.attribute P name v.text := rfl
      rw [closeAttribute, closeWith, hset]
      cases hb' : b.attribute P name v.text with
      | none =>
        cases hclean : v.clean with
        | false =>
          simp only [hclean, Bool.false_eq_true, if_false, outcomeWith_refused hb']
          rfl
        | true =>
          simp only [hclean, if_true, outcomeWith_refused hb']
          rfl
      | some b' =>
        cases hclean : v.clean with
        | false =>
          simp only [hclean, Bool.false_eq_true, if_false, outcomeWith_accepted hb']
          rfl
        | true =>
          simp only [hclean, if_true, outcomeWith_accepted hb']
          exact ih (fun p hp => hps p (List.mem_cons_of_mem _ hp))
            { state := .attributeName, seen := [], name := name, quoted := v.quoted,
              cookieBuilder := some b' } b' rfl rfl rfl

/-- A turn does not go back to the name. -/
theorem turn_state {P : Platform} {st st' : ScanState} {c : UInt16} (h : st.turn P c = .ok st')
    (hst : st.state ≠ .name) : st'.state ≠ .name := by
  rw [ScanState.turn.eq_def] at h
  cases hstate : st.state <;>
    simp only [hstate, ScanState.startTurn, ScanState.bodyTurn, ScanState.body, ScanState.emit] at h
  case name => exact absurd hstate hst
  all_goals
    repeat' split at h
    all_goals first | (cases h; done) | skip
    all_goals first | cases h | (rw [ScanState.close.eq_def] at h; split at h <;> cases h)
    all_goals simp

/-- Behind the name the end of the string is one more `;`. -/
theorem final_eq_closing (P : Platform) {st : ScanState} (hst : st.state ≠ .name) :
    st.final P = closing P (readPiece P st []) := by
  have hblank : isBlank (asc ';') = false := by decide
  have hquote : asc ';' ≠ 34 := by decide
  have hcontrol : isControlChar (asc ';') = false := by decide
  have hequals : asc ';' ≠ asc '=' := by decide
  rw [readPiece_nil, ScanState.final.eq_def, ScanState.turn.eq_def]
  cases hstate : st.state with
  | name => exact absurd hstate hst
  | valueStart | value =>
    simp [ScanState.startTurn, ScanState.bodyTurn, ScanState.body, ScanState.emit, ScanState.close,
      hstate, hblank, hquote, closing, THttpCookieBuilder.build]
  | «attribute» =>
    simp only [hblank, Bool.false_eq_true, if_false, ne_eq, not_true_eq_false]
    rfl
  | attributeName =>
    cases hset : setAttribute P st.cookieBuilder (trim st.seen) [] <;>
      simp [hcontrol, hequals, hset, buildWith, ScanState.close, closing]
  | attributeValueStart =>
    cases hset : setAttribute P st.cookieBuilder st.name [] <;>
      simp [ScanState.startTurn, ScanState.bodyTurn, ScanState.body, ScanState.emit, ScanState.close,
        hstate, hblank, hquote, hset, buildWith, closing]
  | attributeValue =>
    cases hset : setAttribute P st.cookieBuilder st.name (trim st.seen) <;>
      simp [ScanState.bodyTurn, ScanState.emit, ScanState.close, hstate, hquote, hset, buildWith,
        closing]

theorem scan_eq_closing (P : Platform) (cs : Text) :
    ∀ st : ScanState, st.state ≠ .name →
      st.scan P cs = closing P ((cs.splitOn (asc ';')).foldlM (readPiece P) st) := by
  intro st hst
  show _ = closing P ((cs.splitOn (asc ';')).foldlM
    (fun st p => (p ++ [asc ';']).foldlM (ScanState.turn P) st) st)
  rw [← foldlM_splitOn]
  induction cs generalizing st with
  | nil => exact final_eq_closing P hst
  | cons c cs ih =>
    rw [scan_cons, List.cons_append, List.foldlM_cons]
    cases hturn : st.turn P c with
    | error r => rfl
    | ok st' => exact ih st' (turn_state hturn hst)

/-- A string without `=` is no cookie. -/
theorem scan_name_end (P : Platform) {n : Text} (hn : asc '=' ∉ n) :
    ∀ st : ScanState, st.state = .name → st.scan P n = .null := by
  induction n with
  | nil =>
    intro st hst
    rw [scan_nil, ScanState.final, hst]
  | cons c n ih =>
    intro st hst
    obtain ⟨hc, hrest⟩ := not_or.mp (mt List.mem_cons.mpr hn)
    rw [scan_cons, ScanState.turn, hst]
    by_cases hlatin : 255 < c
    · simp only [hlatin, if_true]
    · simp only [hlatin, Ne.symm hc, if_false]
      exact ih hrest _ rfl

/-- **The name goes up to the first `=`.** -/
theorem scan_name (P : Platform) {n : Text} (hn : asc '=' ∉ n) (rest : Text) :
    ∀ st : ScanState, st.state = .name →
      st.scan P (n ++ asc '=' :: rest) =
        if n.any (255 < ·) ∨ trim (st.seen ++ n) = [] then .null
        else ScanState.scan P
          { st with state := .valueStart, seen := [], name := trim (st.seen ++ n) } rest := by
  induction n with
  | nil =>
    intro st hst
    have hlatin : ¬ 255 < asc '=' := by decide
    rw [List.nil_append, List.append_nil, scan_cons, ScanState.turn, hst]
    simp only [hlatin, if_false, if_true]
    by_cases hempty : trim st.seen = []
    · simp [hempty]
    · simp [hempty]
  | cons c n ih =>
    intro st hst
    obtain ⟨hc, hrest⟩ := not_or.mp (mt List.mem_cons.mpr hn)
    rw [List.cons_append, scan_cons, ScanState.turn, hst]
    by_cases hlatin : 255 < c
    · simp [hlatin]
    · simp only [hlatin, Ne.symm hc, if_false]
      rw [ih hrest _ rfl, List.append_cons st.seen c n]
      simp [hlatin]

/-- **`Parse` reads pieces.** -/
theorem parse_eq_parseText (P : Platform) (s : Text) : parse P s = parseText P s := by
  have hsplit := List.takeWhile_append_dropWhile (p := fun c => decide (c ≠ asc '=')) (l := s)
  have hname : asc '=' ∉ s.takeWhile (· ≠ asc '=') := fun h => by
    simpa using List.mem_takeWhile_imp h
  rw [parse_eq_scan, parseText, cookieText]
  cases hdrop : s.dropWhile (· ≠ asc '=') with
  | nil =>
    rw [hdrop, List.append_nil] at hsplit
    rw [← hsplit]
    exact scan_name_end P hname {} rfl
  | cons c rest =>
    have hc : c = asc '=' := by
      have hhead := List.head?_dropWhile_not (fun c => decide (c ≠ asc '=')) s
      rw [hdrop] at hhead
      simpa using hhead
    subst hc
    have hscan := scan_name P hname rest {} rfl
    rw [← hdrop, hsplit, List.nil_append] at hscan
    rw [hscan]
    generalize s.takeWhile (· ≠ asc '=') = name
    show (if name.any (255 < ·) ∨ trim name = [] then _ else _) = _
    by_cases hbad : name.any (255 < ·) ∨ trim name = []
    · simp only [hbad, if_true]
    · simp only [hbad, if_false]
      obtain ⟨p, ps, hpieces⟩ := List.exists_cons_of_ne_nil (List.splitOn_ne_nil (asc ';') rest)
      have hend : ∀ q ∈ p :: ps, asc ';' ∉ q := fun q hq => not_mem_of_mem_splitOn (hpieces ▸ hq)
      rw [scan_eq_closing P rest _ (by simp), hpieces, List.foldlM_cons,
        readPiece_start P (hend p List.mem_cons_self) _ (Or.inl rfl)]
      cases hclean : (readValue false p).clean with
      | false =>
        simp only [closeWith, ScanState.emit, List.headD_cons, hclean, Bool.false_eq_true, if_false]
        rfl
      | true =>
        simp only [closeWith, ScanState.emit, List.headD_cons, List.tail_cons, hclean, if_true]
        exact closing_pieces P ps (fun q hq => hend q (List.mem_cons_of_mem p hq)) _ _ rfl rfl rfl

/-! ### Names and values -/

/-- The builder still has the name and the value. -/
def Keeps (b b' : THttpCookieBuilder) : Prop := b'.name = b.name ∧ b'.value = b.value

theorem keeps_setFlag (P : Platform) (b : THttpCookieBuilder) (attr : ECookieAttribute) (on : Bool) :
    Keeps b (b.setFlag P attr on) := by
  cases on <;> exact ⟨rfl, rfl⟩

theorem keeps_expires (P : Platform) (b : THttpCookieBuilder) (n : Int) :
    Keeps b (b.expires P n) := by
  rw [THttpCookieBuilder.expires]
  split <;> exact ⟨rfl, rfl⟩

theorem keeps_maxAge (P : Platform) (b : THttpCookieBuilder) (n : Int) :
    Keeps b (b.maxAge P n) := by
  rw [THttpCookieBuilder.maxAge]
  split <;> exact ⟨rfl, rfl⟩

theorem keeps_sameSite (P : Platform) (b : THttpCookieBuilder) (s : Text) :
    Keeps b (b.sameSite P s) := by
  rw [THttpCookieBuilder.sameSite]
  split <;> exact ⟨rfl, rfl⟩

/-- **Attributes leave the cookie's name and value alone.** -/
theorem keeps_attribute {P : Platform} {b b' : THttpCookieBuilder} {name value : Text}
    (h : b.attribute P name value = some b') : Keeps b b' := by
  have hflag : ∀ {attr : ECookieAttribute} {on : Option Bool},
      on.map (b.setFlag P attr) = some b' → Keeps b b' := by
    intro attr on hon
    obtain ⟨flag, -, rfl⟩ := Option.map_eq_some_iff.mp hon
    exact keeps_setFlag P b attr flag
  rw [THttpCookieBuilder.attribute] at h
  dsimp only at h
  split_ifs at h
  all_goals first | exact hflag h | cases h
  · exact ⟨rfl, rfl⟩
  · exact keeps_expires P b _
  · exact keeps_expires P b 0
  · exact keeps_maxAge P b _
  · exact keeps_maxAge P b (-1)
  · exact keeps_sameSite P b _
  · exact ⟨rfl, rfl⟩
  · exact ⟨rfl, rfl⟩

theorem keeps_setAttributes {P : Platform} (attributes : List (Text × Text)) :
    ∀ {b b' : THttpCookieBuilder}, setAttributes P b attributes = some b' → Keeps b b' := by
  induction attributes with
  | nil =>
    intro b b' h
    cases h
    exact ⟨rfl, rfl⟩
  | cons a attributes ih =>
    intro b b' h
    obtain ⟨b₁, hfirst, hrest⟩ := Option.bind_eq_some_iff.mp
      (show (b.attribute P a.1 a.2).bind (fun b => setAttributes P b attributes) = some b' from h)
    obtain ⟨hname, hvalue⟩ := keeps_attribute hfirst
    obtain ⟨hname', hvalue'⟩ := ih hrest
    exact ⟨hname'.trans hname, hvalue'.trans hvalue⟩

/-- The name in front of the first `=`. -/
theorem cookieText_name {s : Text} {t : CookieText} (h : cookieText s = some t) :
    t.name = trim (s.takeWhile (· ≠ asc '=')) ∧ t.name ≠ [] ∧ asc '=' ∈ s := by
  rw [cookieText] at h
  cases hdrop : s.dropWhile (· ≠ asc '=') with
  | nil =>
    rw [hdrop] at h
    cases h
  | cons c rest =>
    rw [hdrop] at h
    dsimp only at h
    split at h
    · cases h
    · rename_i hgood
      cases h
      refine ⟨rfl, fun hempty => hgood (Or.inr hempty), ?_⟩
      by_contra hnone
      have hnil : s.dropWhile (· ≠ asc '=') = [] := List.dropWhile_eq_nil_iff.mpr (all_ne hnone)
      rw [hnil] at hdrop
      cases hdrop

/-- The text of a value is a part of its piece, trimmed. -/
theorem readBody_text (quoted : Bool) (p : Text) :
    ∃ q, (readBody quoted p).text = trim q ∧ q ⊆ p := by
  rw [readBody]
  split
  · exact ⟨_, rfl, List.takeWhile_subset _⟩
  · exact ⟨p, rfl, fun _ h => h⟩

theorem readValue_text (quoted : Bool) (p : Text) :
    ∃ q, (readValue quoted p).text = trim q ∧ q ⊆ p := by
  induction p with
  | nil => exact readBody_text quoted []
  | cons c p ih =>
    rw [readValue]
    split
    · obtain ⟨q, htext, hq⟩ := ih
      exact ⟨q, htext, List.subset_cons_of_subset c hq⟩
    · split
      · obtain ⟨q, htext, hq⟩ := readBody_text true p
        exact ⟨q, htext, List.subset_cons_of_subset c hq⟩
      · exact readBody_text quoted (c :: p)

/-- **A value has no `;`.** -/
theorem cookieText_value {s : Text} {t : CookieText} (h : cookieText s = some t) :
    ∃ q, t.value = trim q ∧ asc ';' ∉ q := by
  rw [cookieText] at h
  cases hdrop : s.dropWhile (· ≠ asc '=') with
  | nil =>
    rw [hdrop] at h
    cases h
  | cons c rest =>
    rw [hdrop] at h
    dsimp only at h
    split at h
    · cases h
    · cases h
      obtain ⟨q, htext, hq⟩ := readValue_text false ((rest.splitOn (asc ';')).headD [])
      refine ⟨q, htext, fun hmem => ?_⟩
      obtain ⟨p, ps, hpieces⟩ := List.exists_cons_of_ne_nil (List.splitOn_ne_nil (asc ';') rest)
      rw [hpieces, List.headD_cons] at hq
      exact not_mem_of_mem_splitOn (hpieces ▸ List.mem_cons_self) (hq hmem)

theorem parse_cookie {P : Platform} {s : Text} {c : THttpCookie} (h : parse P s = .cookie c) :
    ∃ t, cookieText s = some t ∧ c.name = t.name ∧ c.value = t.value := by
  rw [parse_eq_parseText, parseText] at h
  cases ht : cookieText s with
  | none =>
    rw [ht] at h
    cases h
  | some t =>
    rw [ht] at h
    simp only [outcomeWith] at h
    split at h
    · cases h
    · rename_i b hb
      split at h
      · cases h
        obtain ⟨hname, hvalue⟩ := keeps_setAttributes _ hb
        exact ⟨t, rfl, hname, hvalue⟩
      · cases h

end NetMod.SetCookieText
