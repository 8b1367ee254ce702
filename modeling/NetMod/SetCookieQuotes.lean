import NetMod.SetCookieGrammar
import NetMod.SetCookieTotality

/-!
# Whose quotation mark it is

The flag `quoted` of `Parse` belongs to the value whose opening quotation mark set it.  The parser
clears it at the closing mark, and forgets to at a `;`: behind a value that was opened and left at a
`;`, the flag is still set in `AttributeName`.  `quote_owned_iff` says exactly for which strings that
happens, over all states the loop reaches.

The scanner carries the argument: what a piece does to the flag is known from
`readPiece_attributeName`, and inside a piece the flag cannot leave the value.
-/

namespace NetMod.SetCookieQuotes

open NetMod.BlitzText NetMod.HttpCookie NetMod.SetCookieParser NetMod.SetCookieScan
open NetMod.SetCookieText NetMod.SetCookieTotality NetMod.SetCookieGrammar NetMod.SeparatedText

/-! ### The invariant -/

/-- The current value started with a quotation mark, and no other one has come since. -/
def Opened (value : Text) (st : ParseState) : Prop :=
  IsBody st.state ∧ 0 < st.offset ∧ value.getD (st.offset - 1) 0 = 34 ∧
    34 ∉ slice value st.offset st.i

/-- A quotation mark belongs to one value. -/
structure QuoteOwned (P : Platform) (value : Text) (st : ParseState) : Prop where
  /-- The flag is set only behind the opening mark of the current value. -/
  opened : st.quoted = true → Opened value st
  /-- A quotation mark in a value that did not start with one is an ordinary character. -/
  ordinary : IsBody st.state → value.getD (st.offset - 1) 0 ≠ 34 → value.getD st.i 0 = 34 →
    parseStep P value st = .ok { st with i := st.i + 1 }

/-- The flag is set outside a value. -/
def Stale (state : ECookieParseState) (quoted : Bool) : Prop := quoted = true ∧ ¬ IsBody state

theorem opened_ordinary {P : Platform} {value : Text} {st : ParseState}
    (hown : st.quoted = true → Opened value st) : QuoteOwned P value st where
  opened := hown
  ordinary hbody hplain hquote := by
    have hunquoted : ¬ st.quoted = true := fun h => hplain (hown h).2.2.1
    have hend : (34 : UInt16) ≠ asc ';' := by decide
    rcases hbody with hst | hst
    · rw [parseStep, hst]
      dsimp only
      rw [if_neg (fun h => hunquoted h.1), hquote, if_neg hend]
    · rw [parseStep, hst]
      dsimp only
      rw [if_neg (fun h => hunquoted h.1), hquote, if_neg hend]

/-- A turn outside the values sets the flag at an opening mark only. -/
theorem opened_outside {P : Platform} {value : Text} {st st' : ParseState}
    (hst : ¬ IsBody st.state) (hclear : st.quoted = false) (h : parseStep P value st = .ok st')
    (hq : st'.quoted = true) : Opened value st' := by
  rw [parseStep.eq_def] at h
  have hempty := slice_self value (st.i + 1)
  cases hstate : st.state <;> simp only [hstate] at h
  case value => exact absurd (Or.inl hstate) hst
  case attributeValue => exact absurd (Or.inr hstate) hst
  case valueStart =>
    split_ifs at h with hblank hquote
    all_goals cases h
    · simp [hclear] at hq
    · exact ⟨Or.inl rfl, Nat.succ_pos _, hquote, by rw [hempty]; exact List.not_mem_nil⟩
    · simp [hclear] at hq
  case attributeValueStart =>
    split_ifs at h with hblank hquote
    all_goals cases h
    · simp [hclear] at hq
    · exact ⟨Or.inr rfl, Nat.succ_pos _, hquote, by rw [hempty]; exact List.not_mem_nil⟩
    · simp [hclear] at hq
  all_goals
    repeat' split at h
    all_goals first | (cases h; done) | cases h
    all_goals simp [hclear] at hq

/-- A turn inside a value goes on in it or leaves it. -/
theorem parseStep_inside {P : Platform} {value : Text} {st st' : ParseState}
    (hst : IsBody st.state) (h : parseStep P value st = .ok st') :
    (st' = { st with i := st.i + 1 } ∧ ¬ (st.quoted = true ∧ value.getD st.i 0 = 34)) ∨
      ¬ IsBody st'.state := by
  rw [parseStep.eq_def] at h
  rcases hst with hst | hst <;> simp only [hst] at h
  all_goals
    split at h
    · repeat' split at h
      all_goals first | (cases h; done) | cases h
      exact Or.inr (by simp [IsBody])
    · rename_i hquote
      split at h
      · repeat' split at h
        all_goals first | (cases h; done) | cases h
        exact Or.inr (by simp [IsBody])
      · cases h
        exact Or.inl ⟨by rw [hst], hquote⟩

/-- **A turn keeps the flag with its value, or leaves it set outside one.** -/
theorem opened_parseStep {P : Platform} {value : Text} {st st' : ParseState}
    (hi : st.i < value.length) (ho : st.offset ≤ st.i) (h : parseStep P value st = .ok st')
    (hown : st.quoted = true → Opened value st) :
    (st'.quoted = true → Opened value st') ∨ Stale st'.state st'.quoted := by
  by_cases hbody : IsBody st.state
  · rcases parseStep_inside hbody h with ⟨rfl, hopen⟩ | hleft
    · apply Or.inl
      intro hq
      obtain ⟨hvalue, hpos, hmark, hclean⟩ := hown hq
      refine ⟨hvalue, hpos, hmark, ?_⟩
      rw [slice_succ ho hi, List.mem_append, List.mem_singleton]
      rintro (hmem | hlast)
      · exact hclean hmem
      · exact hopen ⟨hq, hlast.symm⟩
    · by_cases hq : st'.quoted = true
      · exact Or.inr ⟨hq, hleft⟩
      · exact Or.inl fun h => absurd h hq
  · have hclear : st.quoted = false := by
      by_contra hq
      exact hbody (hown (Bool.not_eq_false _ ▸ hq)).1
    exact Or.inl (opened_outside hbody hclear h)

/-! ### The flag in a scan -/

/-- The scan comes to a state with the flag set outside a value. -/
def GoesStale (P : Platform) (st : ScanState) (cs : Text) : Prop :=
  ∃ a st', a <+: cs ∧ a.foldlM (ScanState.turn P) st = .ok st' ∧ Stale st'.state st'.quoted

theorem goesStale_append (P : Platform) (st : ScanState) (a b : Text) :
    GoesStale P st (a ++ b) ↔
      GoesStale P st a ∨ ∃ st', a.foldlM (ScanState.turn P) st = .ok st' ∧ GoesStale P st' b := by
  constructor
  · rintro ⟨p, sp, ⟨t, ht⟩, hrun, hstale⟩
    rcases List.append_eq_append_iff.mp ht with ⟨q, rfl, -⟩ | ⟨q, rfl, rfl⟩
    · exact Or.inl ⟨p, sp, List.prefix_append p q, hrun, hstale⟩
    · rw [List.foldlM_append] at hrun
      cases hfirst : a.foldlM (ScanState.turn P) st with
      | error r =>
        rw [hfirst] at hrun
        cases hrun
      | ok st' =>
        rw [hfirst] at hrun
        exact Or.inr ⟨st', rfl, q, sp, List.prefix_append q t, hrun, hstale⟩
  · rintro (⟨p, sp, hp, hrun, hstale⟩ | ⟨st', hfirst, q, sq, hq, hrun, hstale⟩)
    · exact ⟨p, sp, hp.trans (List.prefix_append a b), hrun, hstale⟩
    · refine ⟨a ++ q, sq, List.prefix_append_right_inj a |>.mpr hq, ?_, hstale⟩
      rw [List.foldlM_append, hfirst]
      exact hrun

/-- Inside a piece the flag does not leave its value. -/
theorem turn_not_stale {P : Platform} {st st' : ScanState} {c : UInt16} (hc : c ≠ asc ';')
    (hst : ¬ Stale st.state st.quoted) (h : st.turn P c = .ok st') :
    ¬ Stale st'.state st'.quoted := by
  rw [ScanState.turn.eq_def] at h
  cases hstate : st.state <;>
    simp only [hstate, ScanState.startTurn, ScanState.bodyTurn, ScanState.body, ScanState.emit] at h
  all_goals
    repeat' split at h
    all_goals first | (cases h; done) | skip
    all_goals first | cases h | (rw [ScanState.close.eq_def] at h; split at h <;> cases h)
    all_goals simp_all [Stale, IsBody]

theorem run_not_stale {P : Platform} {a : Text} (ha : asc ';' ∉ a) :
    ∀ {st st' : ScanState}, ¬ Stale st.state st.quoted →
      a.foldlM (ScanState.turn P) st = .ok st' → ¬ Stale st'.state st'.quoted := by
  induction a with
  | nil =>
    intro st st' hst h
    cases h
    exact hst
  | cons c a ih =>
    intro st st' hst h
    obtain ⟨hc, hrest⟩ := not_or.mp (mt List.mem_cons.mpr ha)
    rw [List.foldlM_cons] at h
    cases hturn : st.turn P c with
    | error r =>
      rw [hturn] at h
      cases h
    | ok s₁ =>
      rw [hturn] at h
      exact ih hrest (turn_not_stale (Ne.symm hc) hst hturn) h

theorem not_goesStale {P : Platform} {p : Text} (hp : asc ';' ∉ p) {st : ScanState}
    (hst : ¬ Stale st.state st.quoted) : ¬ GoesStale P st p := by
  rintro ⟨a, st', ha, hrun, hstale⟩
  exact run_not_stale (fun h => hp (ha.subset h)) hst hrun hstale

/-- **A piece and its `;`**: what matters is the state behind them. -/
theorem goesStale_closed {P : Platform} {p : Text} (hp : asc ';' ∉ p) {st : ScanState}
    (hst : ¬ Stale st.state st.quoted) (rest : Text) :
    GoesStale P st (p ++ asc ';' :: rest) ↔
      ∃ st', readPiece P st p = .ok st' ∧ GoesStale P st' rest := by
  rw [List.append_cons, goesStale_append]
  apply or_iff_right_of_imp
  rintro ⟨a, st', ha, hrun, hstale⟩
  rcases List.prefix_concat_iff.mp ha with rfl | ha
  · exact ⟨st', hrun, [], st', List.nil_prefix, rfl, hstale⟩
  · exact absurd hstale (run_not_stale (fun h => hp (ha.subset h)) hst hrun)

/-! ### Which strings -/

/-- In some piece in front of a `;`, a value is opened and not closed; the pieces before it are
attributes that are accepted and well formed. -/
def leavesOpen (P : Platform) : List Text → Bool
  | p :: q :: ps =>
    match readAttribute false p with
    | none => false
    | some (name, v) =>
      decide (Accepted P (name, v.text)) && (v.quoted || v.clean && leavesOpen P (q :: ps))
  | _ => false

/-- The same for the value and the attributes behind it. -/
def valueLeavesOpen (P : Platform) : List Text → Bool
  | p :: q :: ps =>
    (readValue false p).quoted || (readValue false p).clean && leavesOpen P (q :: ps)
  | _ => false

/-- The string has a name and then, before some `;` it is read to, a value that starts with a
quotation mark and has no other one. -/
def leavesOpenQuote (P : Platform) (s : Text) : Bool :=
  let name := s.takeWhile (· ≠ asc '=')
  match s.dropWhile (· ≠ asc '=') with
  | [] => false
  | _ :: rest =>
    !(name.any (255 < ·)) && trim name ≠ [] && valueLeavesOpen P (rest.splitOn (asc ';'))

theorem readBody_unclean {quoted : Bool} {p : Text} (h : (readBody quoted p).clean = false) :
    (readBody quoted p).quoted = false := by
  rw [readBody] at h ⊢
  split at h
  · rename_i hquote
    rw [if_pos hquote]
  · cases h

theorem readValue_unclean {quoted : Bool} {p : Text} (h : (readValue quoted p).clean = false) :
    (readValue quoted p).quoted = false := by
  induction p with
  | nil => exact readBody_unclean h
  | cons c p ih =>
    rw [readValue] at h ⊢
    split at h
    · rename_i hblank
      rw [if_pos hblank]
      exact ih h
    · rename_i hblank
      rw [if_neg hblank]
      split at h
      · rename_i hquote
        rw [if_pos hquote]
        exact readBody_unclean h
      · rename_i hquote
        rw [if_neg hquote]
        exact readBody_unclean h

theorem readAttribute_unclean {quoted : Bool} {p name : Text} {v : ReadValue}
    (hv : readAttribute quoted p = some (name, v)) (h : v.clean = false) : v.quoted = false := by
  rw [readAttribute] at hv
  split at hv
  · cases hv
  · split at hv
    · cases hv
      cases h
    · cases hv
      exact readValue_unclean h

/-- **The value of a piece is left open** when it starts with a quotation mark and has no other. -/
theorem readValue_quoted (p : Text) :
    (readValue false p).quoted = true ↔ ∃ rest, p.dropWhile isBlank = 34 :: rest ∧ 34 ∉ rest := by
  induction p with
  | nil => simp [readValue, readBody]
  | cons c p ih =>
    rw [readValue]
    by_cases hblank : isBlank c = true
    · rw [if_pos hblank, ih, List.dropWhile_cons_of_pos hblank]
    · rw [if_neg hblank, List.dropWhile_cons_of_neg hblank]
      by_cases hquote : c = 34
      · rw [if_pos hquote, hquote, readBody]
        by_cases hmem : 34 ∈ p <;> simp [hmem]
      · rw [if_neg hquote]
        simp [readBody, hquote]

/-- Where the flag is set in front of an attribute, it is stale. -/
theorem goesStale_of_quoted {P : Platform} {st : ScanState} (hst : st.state = .attributeName)
    (hq : st.quoted = true) (cs : Text) : GoesStale P st cs :=
  ⟨[], st, List.nil_prefix, rfl, hq, by rw [hst]; simp [IsBody]⟩

/-- **The attributes, piece by piece.** -/
theorem goesStale_pieces (P : Platform) (ps : List Text) :
    ∀ (p : Text) (st : ScanState) (b : THttpCookieBuilder), (∀ q ∈ p :: ps, asc ';' ∉ q) →
      st.state = .attributeName → st.seen = [] → st.quoted = false → st.cookieBuilder = some b →
      (GoesStale P st (p ++ ps.flatMap fun q => asc ';' :: q) ↔ leavesOpen P (p :: ps) = true) := by
  induction ps with
  | nil =>
    intro p st b hps hst _ hquoted _
    rw [List.flatMap_nil, List.append_nil]
    refine iff_of_false (not_goesStale (hps p List.mem_cons_self) ?_) (by simp [leavesOpen])
    simp [Stale, hquoted]
  | cons q ps ih =>
    intro p st b hps hst hseen hquoted hb
    have hp := hps p List.mem_cons_self
    have hread := readPiece_attributeName P hp st hst hb
      (by rw [hseen]; exact List.not_mem_nil) (by rw [hseen]; rfl)
    rw [hseen, List.nil_append, hquoted] at hread
    rw [List.flatMap_cons, List.cons_append, goesStale_closed hp (by simp [Stale, hquoted]), hread,
      leavesOpen]
    cases hattr : readAttribute false p with
    | none => simp [closeAttribute]
    | some r =>
      obtain ⟨name, v⟩ := r
      have hemit : ScanState.emit P
          { state := .attributeValueStart, name := name, cookieBuilder := some b } v.text =
          b.attribute P name v.text := rfl
      have haccepted := attribute_isSome_iff P b name v.text
      rw [closeAttribute, closeWith, hemit]
      cases hb' : b.attribute P name v.text with
      | none =>
        rw [hb'] at haccepted
        simp [← haccepted]
      | some b' =>
        rw [hb'] at haccepted
        have hok : Accepted P (name, v.text) := haccepted.mp rfl
        simp only [hok, decide_true, Bool.true_and]
        cases hclean : v.clean with
        | false =>
          have hclosed : v.quoted = false := readAttribute_unclean hattr hclean
          simp [hclosed]
        | true =>
          simp only [if_true, Except.ok.injEq, exists_eq_left', Bool.true_and, Bool.or_eq_true]
          cases hopen : v.quoted with
          | true => exact iff_of_true (goesStale_of_quoted rfl rfl _) (Or.inl rfl)
          | false =>
            simp only [Bool.false_eq_true, false_or]
            exact ih q _ b' (fun r hr => hps r (List.mem_cons_of_mem p hr)) rfl rfl rfl rfl

/-- The value and the attributes behind it. -/
theorem goesStale_value (P : Platform) (name p : Text) (ps : List Text)
    (hps : ∀ q ∈ p :: ps, asc ';' ∉ q) :
    GoesStale P { state := .valueStart, name } (p ++ ps.flatMap fun q => asc ';' :: q) ↔
      valueLeavesOpen P (p :: ps) = true := by
  have hp := hps p List.mem_cons_self
  have hclear : ¬ Stale (ScanState.state { state := .valueStart, name }) false := by simp [Stale]
  cases ps with
  | nil =>
    rw [List.flatMap_nil, List.append_nil]
    exact iff_of_false (not_goesStale hp hclear) Bool.false_ne_true
  | cons q ps =>
    have hread := readPiece_start P hp { state := .valueStart, name } (Or.inl rfl)
    have hemit : ScanState.emit P { state := .valueStart, name } (readValue false p).text =
        some { name, value := (readValue false p).text } := rfl
    rw [List.flatMap_cons, List.cons_append, goesStale_closed hp hclear, hread, closeWith, hemit,
      valueLeavesOpen]
    cases hclean : (readValue false p).clean with
    | false => simp [readValue_unclean hclean]
    | true =>
      simp only [if_true, Except.ok.injEq, exists_eq_left', Bool.true_and, Bool.or_eq_true]
      cases hopen : (readValue false p).quoted with
      | true => exact iff_of_true (goesStale_of_quoted rfl rfl _) (Or.inl rfl)
      | false =>
        simp only [Bool.false_eq_true, false_or]
        exact goesStale_pieces P ps q _ _ (fun r hr => hps r (List.mem_cons_of_mem p hr)) rfl rfl
          rfl rfl

theorem goesStale_cons {P : Platform} {st : ScanState} (hst : ¬ Stale st.state st.quoted)
    (c : UInt16) (cs : Text) :
    GoesStale P st (c :: cs) ↔ ∃ st', st.turn P c = .ok st' ∧ GoesStale P st' cs := by
  constructor
  · rintro ⟨a, s', ha, hrun, hstale⟩
    cases a with
    | nil =>
      cases hrun
      exact absurd hstale hst
    | cons d a =>
      obtain ⟨rfl, hrest⟩ := List.cons_prefix_cons.mp ha
      rw [List.foldlM_cons] at hrun
      cases hturn : st.turn P d with
      | error r =>
        rw [hturn] at hrun
        cases hrun
      | ok st' =>
        rw [hturn] at hrun
        exact ⟨st', rfl, a, s', hrest, hrun, hstale⟩
  · rintro ⟨st', hturn, a, s', ha, hrun, hstale⟩
    refine ⟨c :: a, s', List.cons_prefix_cons.mpr ⟨rfl, ha⟩, ?_, hstale⟩
    rw [List.foldlM_cons, hturn]
    exact hrun

/-- Up to the `=` of the name nothing is stale. -/
theorem goesStale_name (P : Platform) {n : Text} (hn : asc '=' ∉ n) (rest : Text) :
    ∀ st : ScanState, st.state = .name → st.quoted = false →
      (GoesStale P st (n ++ asc '=' :: rest) ↔
        n.any (255 < ·) = false ∧ trim (st.seen ++ n) ≠ [] ∧
          GoesStale P { st with state := .valueStart, seen := [], name := trim (st.seen ++ n) }
            rest) := by
  induction n with
  | nil =>
    intro st hst hquoted
    rw [List.nil_append, List.append_nil, goesStale_cons (by simp [Stale, hquoted]),
      ScanState.turn, hst]
    dsimp only
    rw [if_neg (by decide), if_pos rfl]
    by_cases hempty : trim st.seen = []
    · simp [hempty]
    · simp [hempty]
  | cons c n ih =>
    intro st hst hquoted
    obtain ⟨hc, hrest⟩ := not_or.mp (mt List.mem_cons.mpr hn)
    rw [List.cons_append, goesStale_cons (by simp [Stale, hquoted]), ScanState.turn, hst,
      List.any_cons]
    dsimp only
    by_cases hlatin : 255 < c
    · simp [hlatin]
    · rw [if_neg hlatin, if_neg (Ne.symm hc)]
      have hrec := ih hrest { st with state := .name, seen := st.seen ++ [c] } rfl hquoted
      simp only [Except.ok.injEq, exists_eq_left', hlatin, decide_false, Bool.false_or, hrec,
        List.append_assoc, List.singleton_append]

/-- A string without `=` is all name. -/
theorem goesStale_no_name (P : Platform) {n : Text} (hn : asc '=' ∉ n) :
    ∀ st : ScanState, st.state = .name → st.quoted = false → ¬ GoesStale P st n := by
  induction n with
  | nil =>
    rintro st hst hquoted ⟨a, s', ha, hrun, hstale⟩
    obtain rfl := List.prefix_nil.mp ha
    cases hrun
    simp [Stale, hquoted] at hstale
  | cons c n ih =>
    intro st hst hquoted
    obtain ⟨hc, hrest⟩ := not_or.mp (mt List.mem_cons.mpr hn)
    rw [goesStale_cons (by simp [Stale, hquoted]), ScanState.turn, hst]
    dsimp only
    rw [if_neg (Ne.symm hc)]
    rintro ⟨st', hturn, hgoes⟩
    split at hturn
    · cases hturn
    · cases hturn
      exact ih hrest { st with state := .name, seen := st.seen ++ [c] } rfl hquoted hgoes

/-- **Which scans go stale.** -/
theorem goesStale_iff (P : Platform) (s : Text) :
    GoesStale P {} s ↔ leavesOpenQuote P s = true := by
  rw [leavesOpenQuote]
  by_cases hmem : asc '=' ∈ s
  · obtain ⟨n, rest, rfl, hn⟩ := List.eq_append_cons_of_mem hmem
    obtain ⟨p, ps, hpieces⟩ := List.exists_cons_of_ne_nil (List.splitOn_ne_nil (asc ';') rest)
    have hps : ∀ q ∈ p :: ps, asc ';' ∉ q := fun q hq => not_mem_of_mem_splitOn (hpieces ▸ hq)
    have hvalue := goesStale_value P (trim n) p ps hps
    rw [← joined_of_splitOn hpieces] at hvalue
    rw [goesStale_name P hn rest {} rfl rfl, takeWhile_until hn, dropWhile_until hn]
    dsimp only
    rw [hpieces, List.nil_append, hvalue, Bool.and_eq_true, Bool.and_eq_true, and_assoc]
    simp
  · rw [List.dropWhile_eq_nil_iff.mpr (all_ne hmem)]
    exact iff_of_false (goesStale_no_name P hmem {} rfl rfl) Bool.false_ne_true

/-! ### The states of the loop -/

/-- A turn that hands its unit on goes into a value. -/
theorem parseStep_handsOn {P : Platform} {value : Text} {st st' : ParseState}
    (h : parseStep P value st = .ok st') (hi : st'.i = st.i) : IsBody st'.state := by
  rcases parseStep_advances h with hnext | ⟨-, hst | hst, -⟩
  · omega
  · rw [parseStep, hst] at h
    dsimp only at h
    split_ifs at h <;> cases h <;> simp_all [IsBody]
  · rw [parseStep, hst] at h
    dsimp only at h
    split_ifs at h <;> cases h <;> simp_all [IsBody]

/-- Every state of the loop is one of the scan of the units before its index, or the scan stands
before the value the loop has just entered. -/
theorem scan_of_reached {P : Platform} {value : Text} {n : Nat} {st : ParseState}
    (h : Reached P value n st) :
    ∃ sc, (value.take st.i).foldlM (ScanState.turn P) {} = .ok sc ∧
      (sc = view value st ∨ IsBody st.state) ∧
      sc.turn P (value.getD st.i 0) = (view value st).turn P (value.getD st.i 0) := by
  induction h with
  | start =>
    have hview : view value {} = {} := by simp [view, slice_self]
    exact ⟨{}, rfl, Or.inl hview.symm, by rw [hview]⟩
  | @turn n st st' hreached hi hstep ih =>
    obtain ⟨sc, hrun, -, hturn⟩ := ih
    have hsafe := (safe_of_reached hreached).2
    have hview := turn_view (P := P) hi hsafe.offset
    simp only [hstep] at hview
    rcases hview with ⟨hnext, hview⟩ | ⟨hsame, hview⟩
    · refine ⟨view value st', ?_, Or.inl rfl, rfl⟩
      have hget : value[st.i] = value.getD st.i 0 := by simp [List.getD_eq_getElem?_getD, hi]
      rw [hnext, List.take_succ_eq_append_getElem hi, List.foldlM_append, hrun, hget]
      show ((sc.turn P (value.getD st.i 0)).bind fun s => .ok s) = _
      rw [hturn, hview]
      rfl
    · exact ⟨sc, by rw [hsame]; exact hrun, Or.inr (parseStep_handsOn hstep hsame),
        by rw [hsame, hturn, hview]⟩

/-- A turn of the scanner is one turn of the loop, or two. -/
theorem reached_turn {P : Platform} {value : Text} {n : Nat} {st : ParseState} {sc : ScanState}
    (hreached : Reached P value n st) (hi : st.i < value.length)
    (hturn : (view value st).turn P (value.getD st.i 0) = .ok sc) :
    ∃ n' st', Reached P value n' st' ∧ st'.i = st.i + 1 ∧ view value st' = sc := by
  have hview := turn_view (P := P) hi (safe_of_reached hreached).2.offset
  cases hstep : parseStep P value st with
  | error r =>
    simp only [hstep, hturn] at hview
    cases hview
  | ok s₁ =>
    have hreached₁ := Reached.turn hreached hi hstep
    simp only [hstep, hturn] at hview
    rcases hview with ⟨hnext, hview⟩ | ⟨hsame, hview⟩
    · exact ⟨n + 1, s₁, hreached₁, hnext, (Except.ok.inj hview).symm⟩
    · have hbody := parseStep_handsOn hstep hsame
      have hi₁ : s₁.i < value.length := hsame ▸ hi
      have hview₁ := turn_view (P := P) hi₁ (safe_of_reached hreached₁).2.offset
      rw [hsame] at hview₁
      cases hstep₁ : parseStep P value s₁ with
      | error r =>
        simp only [hstep₁, ← hview] at hview₁
        cases hview₁
      | ok s₂ =>
        simp only [hstep₁, ← hview] at hview₁
        rcases hview₁ with ⟨hnext, hview₁⟩ | ⟨hsame₁, -⟩
        · exact ⟨n + 2, s₂, .turn hreached₁ hi₁ hstep₁, hnext, (Except.ok.inj hview₁).symm⟩
        · rcases parseStep_advances hstep₁ with hnext | ⟨-, hstart, -⟩
          · omega
          · rcases hbody with hst | hst <;> rcases hstart with h | h <;> simp [hst] at h

/-- Every state of a scan is one of the loop. -/
theorem reached_of_scan {P : Platform} {value : Text} (k : Nat) (hk : k ≤ value.length) :
    ∀ {sc : ScanState}, (value.take k).foldlM (ScanState.turn P) {} = .ok sc →
      ∃ n st, Reached P value n st ∧ st.i = k ∧ view value st = sc := by
  induction k with
  | zero =>
    intro sc hrun
    cases hrun
    exact ⟨0, {}, .start, rfl, by simp [view, slice_self]⟩
  | succ k ih =>
    intro sc hrun
    have hlt : k < value.length := hk
    have hget : value[k] = value.getD k 0 := by simp [List.getD_eq_getElem?_getD, hlt]
    rw [List.take_succ_eq_append_getElem hlt, List.foldlM_append, hget] at hrun
    cases hfirst : (value.take k).foldlM (ScanState.turn P) {} with
    | error r =>
      rw [hfirst] at hrun
      cases hrun
    | ok sc₀ =>
      obtain ⟨n, st, hreached, rfl, rfl⟩ := ih (by omega) hfirst
      rw [hfirst] at hrun
      cases hturn : (view value st).turn P (value.getD st.i 0) with
      | error r =>
        have hnone : (view value st).turn P (value.getD st.i 0) >>= pure = .ok sc := hrun
        rw [hturn] at hnone
        cases hnone
      | ok sc' =>
        have hone : (view value st).turn P (value.getD st.i 0) >>= pure = .ok sc := hrun
        rw [hturn] at hone
        cases hone
        exact reached_turn hreached hlt hturn

/-- **The loop comes to a stale flag** on the same strings as the scan. -/
theorem stale_iff (P : Platform) (value : Text) :
    (∃ n st, Reached P value n st ∧ Stale st.state st.quoted) ↔
      leavesOpenQuote P value = true := by
  rw [← goesStale_iff]
  constructor
  · rintro ⟨n, st, hreached, hstale⟩
    obtain ⟨sc, hrun, hview, -⟩ := scan_of_reached hreached
    rcases hview with rfl | hbody
    · exact ⟨_, _, List.take_prefix _ _, hrun, hstale⟩
    · exact absurd hbody hstale.2
  · rintro ⟨a, sc, ha, hrun, hstale⟩
    rw [List.prefix_iff_eq_take.mp ha] at hrun
    obtain ⟨n, st, hreached, -, rfl⟩ := reached_of_scan a.length ha.length_le hrun
    exact ⟨n, st, hreached, hstale⟩

/-- **When a quotation mark belongs to one value only**, in all states of the loop: exactly when no
value that is opened is left at a `;`. -/
theorem quote_owned_iff (P : Platform) (value : Text) :
    (∀ n st, Reached P value n st → QuoteOwned P value st) ↔ leavesOpenQuote P value = false := by
  rw [← Bool.not_eq_true, ← stale_iff]
  constructor
  · rintro hall ⟨n, st, hreached, hquoted, hbody⟩
    exact hbody ((hall n st hreached).opened hquoted).1
  · intro hnone n st hreached
    apply opened_ordinary
    induction hreached with
    | start => exact fun h => absurd h Bool.false_ne_true
    | @turn n st st' hreached hi hstep ih =>
      rcases opened_parseStep hi (safe_of_reached hreached).2.offset hstep ih with h | h
      · exact h
      · exact absurd ⟨n + 1, st', .turn hreached hi hstep, h⟩ hnone

/-- `a="b; Path=x"y` leaves the quotation mark of its value open; the one inside `Path` then ends
that value. -/
theorem not_every_quote_owned :
    ¬ ∀ (value : Text) (n : Nat) (st : ParseState), Reached asciiPlatform value n st →
      QuoteOwned asciiPlatform value st := by
  intro hall
  obtain ⟨n, st, hreached, hquoted, hbody⟩ :=
    (stale_iff asciiPlatform (lit "a=\"b; Path=x\"y")).mpr (by decide +kernel)
  exact hbody ((hall _ n st hreached).opened hquoted).1

end NetMod.SetCookieQuotes
