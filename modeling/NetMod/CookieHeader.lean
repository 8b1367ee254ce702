import NetMod.RequestPreparation
import NetMod.SetCookieTotality

/-!
# The Cookie header and the strings its cookies come from

`ConvertCookies` puts names and values together and escapes nothing.  The values of parsed cookies
have no `;`, and their names no `=`; but a name may have a `;`, since `Parse` looks for the first `=`
of the whole string.  `cookie_header_iff`: reading the header back gives the cookies exactly when no
string has a `;` before its first `=`; and a string without a pair before its first `;` is `Null` to
`Parse` only where the whole of it is no cookie.
-/

namespace NetMod.CookieHeader

open NetMod.BlitzText NetMod.HttpCookie NetMod.RequestPreparation NetMod.SeparatedText
open NetMod.SetCookieParser NetMod.SetCookieText NetMod.SetCookieTotality

/-! ### The text of the header -/

/-- A cookie in the header. -/
def pairText (cookie : THttpCookie) : Text := cookie.name ++ asc '=' :: cookie.value

theorem convertCookies_some (cookies : List THttpCookie) (text : Text) :
    convertCookies cookies (some text) =
      some (text ++ cookies.flatMap fun c => asc ';' :: asc ' ' :: pairText c) := by
  induction cookies generalizing text with
  | nil => rw [List.flatMap_nil, List.append_nil]; rfl
  | cons c cookies ih =>
    have hstep : convertCookies (c :: cookies) (some text) =
        convertCookies cookies (some (text ++ lit "; " ++ c.name ++ lit "=" ++ c.value)) := rfl
    rw [hstep, ih, List.flatMap_cons, pairText]
    simp [lit, asc]

theorem convertCookies_none (cookie : THttpCookie) (cookies : List THttpCookie) :
    convertCookies (cookie :: cookies) none =
      some (pairText cookie ++ cookies.flatMap fun c => asc ';' :: asc ' ' :: pairText c) := by
  have hstep : convertCookies (cookie :: cookies) none =
      convertCookies cookies (some ([] ++ cookie.name ++ lit "=" ++ cookie.value)) := rfl
  rw [hstep, convertCookies_some, pairText]
  simp [lit, asc]

/-! ### Reading it back -/

/-- A piece at its first `=`, both parts trimmed. -/
def readPair (p : Text) : Text × Text :=
  (trim (p.takeWhile (· ≠ asc '=')), trim (p.dropWhile (· ≠ asc '=')).tail)

/-- The pairs of a header value; without a header there are none. -/
def headerPairs : Option Text → List (Text × Text)
  | none => []
  | some text => (text.splitOn (asc ';')).map readPair

/-- The header gives the cookies back. -/
def RoundTrip (cookies : List THttpCookie) : Prop :=
  headerPairs (convertCookies cookies none) = cookies.map fun c => (c.name, c.value)

/-- What every parsed cookie has. -/
structure Plain (cookie : THttpCookie) : Prop where
  name_trimmed : trim cookie.name = cookie.name
  name_equals : asc '=' ∉ cookie.name
  value_trimmed : trim cookie.value = cookie.value
  value_separator : asc ';' ∉ cookie.value

theorem readPair_pairText {cookie : THttpCookie} (h : Plain cookie) :
    readPair (pairText cookie) = (cookie.name, cookie.value) := by
  rw [readPair, pairText, takeWhile_until h.name_equals, dropWhile_until h.name_equals,
    List.tail_cons, h.name_trimmed, h.value_trimmed]

theorem readPair_blank {cookie : THttpCookie} (h : Plain cookie) :
    readPair (asc ' ' :: pairText cookie) = (cookie.name, cookie.value) := by
  have hname : asc '=' ∉ asc ' ' :: cookie.name := by
    intro hmem
    rcases List.mem_cons.mp hmem with hmem | hmem
    · exact absurd hmem (by decide)
    · exact h.name_equals hmem
  rw [readPair, pairText, ← List.cons_append, takeWhile_until hname, dropWhile_until hname,
    List.tail_cons, trim_cons_of_le (by decide), h.name_trimmed, h.value_trimmed]

/-- Cookies whose names have no `;` come back. -/
theorem roundTrip_of_names {cookies : List THttpCookie} (hplain : ∀ c ∈ cookies, Plain c)
    (hnames : ∀ c ∈ cookies, asc ';' ∉ c.name) : RoundTrip cookies := by
  cases cookies with
  | nil => rfl
  | cons cookie cookies =>
    have hpair : ∀ c ∈ cookie :: cookies, asc ';' ∉ pairText c := by
      intro c hc hmem
      rcases List.mem_append.mp hmem with hmem | hmem
      · exact hnames c hc hmem
      · rcases List.mem_cons.mp hmem with hmem | hmem
        · exact absurd hmem (by decide)
        · exact (hplain c hc).value_separator hmem
    have hpieces : ∀ q ∈ pairText cookie :: cookies.map (fun c => asc ' ' :: pairText c),
        asc ';' ∉ q := by
      intro q hq
      rcases List.mem_cons.mp hq with rfl | hq
      · exact hpair cookie List.mem_cons_self
      · obtain ⟨c, hc, rfl⟩ := List.mem_map.mp hq
        intro hmem
        rcases List.mem_cons.mp hmem with hmem | hmem
        · exact absurd hmem (by decide)
        · exact hpair c (List.mem_cons_of_mem _ hc) hmem
    have hsplit := splitOn_joined hpieces
    rw [List.flatMap_map] at hsplit
    rw [RoundTrip, convertCookies_none, headerPairs, hsplit, List.map_cons, List.map_cons,
      List.map_map, readPair_pairText (hplain cookie List.mem_cons_self)]
    refine congrArg _ (List.map_congr_left fun c hc => ?_)
    exact readPair_blank (hplain c (List.mem_cons_of_mem _ hc))

/-- The separators of a header: one before each cookie but the first, and those of the cookies. -/
theorem count_separators (cookies : List THttpCookie) :
    (cookies.flatMap fun c => asc ';' :: asc ' ' :: pairText c).count (asc ';') =
      cookies.length + (cookies.map fun c => (pairText c).count (asc ';')).sum := by
  induction cookies with
  | nil => rfl
  | cons c cookies ih =>
    have hblank : asc ' ' ≠ asc ';' := by decide
    rw [List.flatMap_cons, List.cons_append, List.cons_append, List.count_cons_self,
      List.count_cons_of_ne hblank, List.count_append, ih, List.length_cons, List.map_cons,
      List.sum_cons]
    omega

/-- **A name with a `;` makes one piece more.** -/
theorem names_of_roundTrip {cookies : List THttpCookie} (h : RoundTrip cookies) :
    ∀ c ∈ cookies, asc ';' ∉ c.name := by
  cases cookies with
  | nil => exact fun c hc => absurd hc List.not_mem_nil
  | cons cookie cookies =>
    rw [RoundTrip, convertCookies_none, headerPairs] at h
    have hlength := congrArg List.length h
    rw [List.length_map, List.length_map, length_splitOn, List.count_append, count_separators,
      List.length_cons] at hlength
    have hnone : ∀ c ∈ cookie :: cookies, (pairText c).count (asc ';') = 0 := by
      intro c hc
      rcases List.mem_cons.mp hc with rfl | hc
      · omega
      · have hsum : (cookies.map fun c => (pairText c).count (asc ';')).sum = 0 := by omega
        exact List.sum_eq_zero_iff_forall_eq_nat.mp hsum _ (List.mem_map_of_mem hc)
    intro c hc hmem
    exact List.count_eq_zero.mp (hnone c hc) (List.mem_append_left _ hmem)

/-! ### Parsed cookies -/

/-- **What the parser lets into a name and a value.** -/
theorem plain_of_parse {P : Platform} {s : Text} {c : THttpCookie} (h : parse P s = .cookie c) :
    Plain c ∧ (asc ';' ∈ c.name ↔ asc ';' ∈ s.takeWhile (· ≠ asc '=')) ∧ asc '=' ∈ s := by
  obtain ⟨t, ht, hname, hvalue⟩ := parse_cookie h
  obtain ⟨htname, -, hequals⟩ := cookieText_name ht
  obtain ⟨q, htvalue, hq⟩ := cookieText_value ht
  rw [htname] at hname
  rw [htvalue] at hvalue
  refine ⟨⟨?_, ?_, ?_, ?_⟩, ?_, hequals⟩
  · rw [hname, trim_trim]
  · rw [hname, mem_trim (by decide)]
    intro hmem
    simpa using List.mem_takeWhile_imp hmem
  · rw [hvalue, trim_trim]
  · rw [hvalue, mem_trim (by decide)]
    exact hq
  · rw [hname, mem_trim (by decide)]

/-- The part before the first `;` has a `=`. -/
def HasPair (s : Text) : Prop := asc '=' ∈ s.takeWhile (· ≠ asc ';')

/-- Of the two separators one comes first. -/
theorem hasPair_iff {s : Text} (h : asc '=' ∈ s) :
    HasPair s ↔ asc ';' ∉ s.takeWhile (· ≠ asc '=') := by
  rw [HasPair]
  induction s with
  | nil => exact absurd h List.not_mem_nil
  | cons c s ih =>
    by_cases hequals : c = asc '='
    · have hne : asc '=' ≠ asc ';' := by decide
      rw [hequals]
      simp [hne]
    · by_cases hend : c = asc ';'
      · have hne : asc ';' ≠ asc '=' := by decide
        rw [hend]
        simp [hne]
      · have hs : asc '=' ∈ s := (List.mem_cons.mp h).resolve_left (Ne.symm hequals)
        have hrec := ih hs
        simp only [ne_eq, decide_not] at hrec
        simp [hequals, hend, Ne.symm hequals, Ne.symm hend, hrec]

/-- A string that is no cookie and has no attribute that raises. -/
def Refused (P : Platform) (s : Text) : Prop :=
  (∀ t ∈ cookieText s, t.wellFormed = false) ∧ FlagsAccepted P s

/-- **When `Parse` returns `Null`.** -/
theorem parse_null_iff (P : Platform) (s : Text) : parse P s = .null ↔ Refused P s := by
  rw [parse_eq_parseText, parseText, Refused, FlagsAccepted]
  cases ht : cookieText s with
  | none => simp
  | some t =>
    simp only [Option.mem_some_iff, forall_eq', outcomeWith]
    rw [← setAttributes_isSome_iff P t.attributes { name := t.name, value := t.value }]
    cases setAttributes P { name := t.name, value := t.value } t.attributes with
    | none => simp
    | some b => cases t.wellFormed <;> simp

theorem refused_of_no_equals (P : Platform) {s : Text} (h : asc '=' ∉ s) : Refused P s := by
  have hnone : ∀ t, t ∉ cookieText s := fun t ht => h (cookieText_name (Option.mem_def.mp ht)).2.2
  exact ⟨fun t ht => absurd ht (hnone t), fun t ht => absurd ht (hnone t)⟩

/-- The list comes back from its header, and the strings in it have their pairs. -/
theorem roundTrip_iff {P : Platform} {parsed : List (Text × THttpCookie)}
    (hparse : ∀ p ∈ parsed, parse P p.1 = .cookie p.2) :
    (RoundTrip (parsed.map (·.2)) ∧ ∀ p ∈ parsed, ¬ HasPair p.1 → parse P p.1 = .null) ↔
      ∀ p ∈ parsed, asc ';' ∉ p.1.takeWhile (· ≠ asc '=') := by
  constructor
  · intro h p hp
    obtain ⟨-, hname, -⟩ := plain_of_parse (hparse p hp)
    rw [← hname]
    exact names_of_roundTrip h.1 p.2 (List.mem_map_of_mem hp)
  · intro h
    constructor
    · refine roundTrip_of_names ?_ ?_ <;> intro c hc <;> obtain ⟨p, hp, rfl⟩ := List.mem_map.mp hc
      · exact (plain_of_parse (hparse p hp)).1
      · rw [(plain_of_parse (hparse p hp)).2.1]
        exact h p hp
    · intro p hp hpair
      exact absurd ((hasPair_iff (plain_of_parse (hparse p hp)).2.2).mpr (h p hp)) hpair

/-- **When the Cookie header can be read back, and when a string without a pair is `Null`.**  For
every list of strings that parse to cookies: exactly when no string has a `;` before its first `=`.
For every string without a `=` before its first `;`: exactly when the whole of it is no cookie and no
attribute raises, as it is where there is no `=` at all. -/
theorem cookie_header_iff (P : Platform) (parsed : List (Text × THttpCookie))
    (hparse : ∀ p ∈ parsed, parse P p.1 = .cookie p.2) :
    ((RoundTrip (parsed.map (·.2)) ∧ ∀ p ∈ parsed, ¬ HasPair p.1 → parse P p.1 = .null) ↔
      ∀ p ∈ parsed, asc ';' ∉ p.1.takeWhile (· ≠ asc '=')) ∧
    (∀ s, (¬ HasPair s → parse P s = .null) ↔ HasPair s ∨ Refused P s) ∧
    ∀ s, asc '=' ∉ s → ¬ HasPair s ∧ parse P s = .null := by
  refine ⟨roundTrip_iff hparse, fun s => ?_, fun s hs => ⟨fun hpair => ?_, ?_⟩⟩
  · rw [parse_null_iff, or_iff_not_imp_left]
  · exact hs (List.takeWhile_subset _ hpair)
  · exact (parse_null_iff P s).mpr (refused_of_no_equals P hs)

/-- Two cookies, one with a `=` in its value. -/
def twoParsed : List (Text × THttpCookie) :=
  [(lit "a=b; Path=/", { name := lit "a", value := lit "b", attributes := [(lit "Path", lit "/")] }),
    (lit "c = d=e ", { name := lit "c", value := lit "d=e" })]

theorem cookie_header_two :
    ((RoundTrip (twoParsed.map (·.2)) ∧
        ∀ p ∈ twoParsed, ¬ HasPair p.1 → parse asciiPlatform p.1 = .null) ↔
      ∀ p ∈ twoParsed, asc ';' ∉ p.1.takeWhile (· ≠ asc '=')) ∧
    parse asciiPlatform (lit "Secure; HttpOnly") = .null := by
  obtain ⟨hlist, -, hnone⟩ := cookie_header_iff asciiPlatform twoParsed (by decide +kernel)
  exact ⟨hlist, (hnone (lit "Secure; HttpOnly") (by decide)).2⟩

/-- A string without a pair before its first `;` is a cookie, which a server reads as two. -/
theorem not_every_header_read_back : ¬ ∀ parsed : List (Text × THttpCookie),
    (∀ p ∈ parsed, parse asciiPlatform p.1 = .cookie p.2) →
      RoundTrip (parsed.map (·.2)) ∧
        ∀ p ∈ parsed, ¬ HasPair p.1 → parse asciiPlatform p.1 = .null := by
  intro hall
  have hparse : ∀ p ∈ [(lit "Secure; a=b", THttpCookie.mk (lit "Secure; a") (lit "b") 0 [])],
      parse asciiPlatform p.1 = .cookie p.2 := by decide +kernel
  have hround := (hall _ hparse).1
  revert hround
  rw [RoundTrip]
  decide +kernel

end NetMod.CookieHeader
