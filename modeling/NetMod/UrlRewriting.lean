import NetMod.RequestUrl
import NetMod.UrlAuthority
import NetMod.UrlPath

/-!
# URLs that are written and read again

What `parseurl` leaves in a handle is `WellFormed`: no part has a byte that would end it when it is
written, and the path has no dot segment.  `urlget_url` writes such a handle so that `parseurl` finds
each part where it was (`parseurl_written`), up to what a text does not show: a path that is only a
slash, an empty query, and a host that is a number in disguise.
-/

namespace NetMod.UrlRewriting

open NetMod.PercentEncoding NetMod.UrlQuery NetMod.QueryFields NetMod.CurlText NetMod.UrlApi
open NetMod.SeparatedText NetMod.UrlPath NetMod.UrlHost NetMod.UrlAuthority

/-- The bytes that pass `Curl_junkscan`. -/
def isPlainByte (c : UInt8) : Bool := 32 < c && c != 127

/-- A scheme that `parseurl` goes on with. -/
structure KnownScheme (B : Build) (scheme : Bytes) : Prop where
  handled : (getSchemeHandler B scheme).isSome = true
  lower : ∀ c ∈ scheme, rawToLower c = c
  alpha : ∀ c ∈ scheme.head?, isAlpha c = true

/-- A handle as `parseurl` leaves it. -/
structure WellFormed (B : Build) (u : CURLU) (scheme host : Bytes) : Prop where
  scheme_eq : u.scheme = some scheme
  host_eq : u.host = some host
  known : KnownScheme B scheme
  options : u.options = none
  authority : Authority B u host
  path : ∀ p, u.path = some p → isSlash p = true ∧ dedotdotify p = p ∧
    ∀ c ∈ p, isPlainByte c = true ∧ c ≠ byte '?' ∧ c ≠ byte '#'
  query : ∀ q, u.query = some q → ∀ c ∈ q, isPlainByte c = true ∧ c ≠ byte '#'
  fragment : ∀ f, u.fragment = some f → f ≠ [] ∧ ∀ c ∈ f, isPlainByte c = true
  guessed : u.guessedScheme = false

/-- The handle that is read when a handle is written. -/
def normal (u : CURLU) : CURLU :=
  { u with
    host := u.host.map settled
    path := u.path.filter (· ≠ bytes "/")
    query := u.query.filter (· ≠ [])
    queryPresent := (u.query.filter (· ≠ [])).isSome
    fragmentPresent := u.fragment.isSome }

/-- What ends an authority. -/
def endsAuthority (c : UInt8) : Bool := c == byte '/' || c == byte '?' || c == byte '#'

theorem not_endsAuthority (c : UInt8) :
    (c != byte '/' && c != byte '?' && c != byte '#') = !endsAuthority c := by
  rw [endsAuthority, Bool.not_or, Bool.not_or]
  rfl

theorem isAuthorityByte_eq (c : UInt8) : isAuthorityByte c = (isPlainByte c && !endsAuthority c) := by
  rw [← not_endsAuthority, isAuthorityByte, isPlainByte]
  simp only [Bool.and_assoc]

theorem isAlnum_bounds {c : UInt8} (h : isAlnum c = true) : 48 ≤ c.toNat ∧ c.toNat ≤ 122 := by
  have hbounds : (48 ≤ c.toNat ∧ c.toNat ≤ 57 ∨ 97 ≤ c.toNat ∧ c.toNat ≤ 122) ∨
      65 ≤ c.toNat ∧ c.toNat ≤ 90 := by
    simp only [isAlnum, isDigit, isLower, isUpper, Bool.or_eq_true, Bool.and_eq_true, decide_eq_true_eq,
      UInt8.le_iff_toNat_le] at h
    exact h
  omega

theorem isPlainByte_of_isAlnum {c : UInt8} (h : isAlnum c = true) : isPlainByte c = true := by
  obtain ⟨hlow, hhigh⟩ := isAlnum_bounds h
  have hspace : 32 < c := UInt8.lt_iff_toNat_lt.mpr (by show 32 < c.toNat; omega)
  have hdel : c ≠ 127 := by
    rintro rfl
    exact absurd hhigh (by decide)
  rw [isPlainByte, decide_eq_true hspace, Bool.true_and]
  exact bne_iff_ne.mpr hdel

/-- The case of a letter, taken twice. -/
theorem rawToLower_twice (c : UInt8) :
    rawToLower (rawToUpper c) = rawToLower c ∧ rawToLower (rawToLower c) = rawToLower c :=
  forall_byte (p := fun c =>
    rawToLower (rawToUpper c) = rawToLower c ∧ rawToLower (rawToLower c) = rawToLower c)
    (by decide +kernel) c

/-! ### Schemes -/

theorem length_scheme {B : Build} {scheme : Bytes} (h : (getSchemeHandler B scheme).isSome = true) :
    scheme ≠ [] ∧ scheme.length ≤ 7 := by
  rw [getSchemeHandler] at h
  split at h
  · next hlen => exact ⟨fun hnil => hlen.1 (by rw [hnil]; rfl), hlen.2⟩
  · cases h

theorem map_rawToLower {s : Bytes} (h : ∀ c ∈ s, rawToLower c = c) : s.map rawToLower = s :=
  (List.map_congr_left h).trans (List.map_id s)

/-- **A scheme that is written** is read again. -/
theorem isAbsoluteUrl_scheme {B : Build} {scheme : Bytes} (h : KnownScheme B scheme) (rest : Bytes) :
    isAbsoluteUrl (scheme ++ byte ':' :: rest) = some scheme := by
  obtain ⟨g, hg⟩ := Option.isSome_iff_exists.mp h.handled
  have halnum := isAlnum_of_handler hg
  obtain ⟨hne, hlen⟩ := length_scheme h.handled
  obtain ⟨c, s, rfl⟩ := List.exists_cons_of_ne_nil hne
  rw [List.length_cons] at hlen
  have hmore : (((s ++ byte ':' :: rest).take (maxSchemeLen - 1)).takeWhile fun c =>
      isAlnum c || c == byte '+' || c == byte '-' || c == byte '.') = s := by
    obtain ⟨k, hk⟩ : ∃ k, maxSchemeLen - 1 = s.length + (k + 1) :=
      ⟨38 - s.length, by rw [maxSchemeLen]; omega⟩
    rw [hk, List.take_length_add_append, List.take_succ_cons, List.takeWhile_append_of_pos,
      List.takeWhile_cons_of_neg (by decide), List.append_nil]
    intro d hd
    rw [halnum d (List.mem_cons_of_mem c hd)]
    rfl
  rw [List.cons_append, isAbsoluteUrl, if_pos (h.alpha c rfl)]
  dsimp only
  rw [hmore, List.drop_left, List.head?_cons, if_pos rfl, map_rawToLower h.lower]

theorem strequal_file {scheme : Bytes} (hlower : ∀ c ∈ scheme, rawToLower c = c)
    (hfile : scheme ≠ bytes "file") : ¬ strequal (bytes "file") scheme = true := by
  intro h
  rw [strequal, beq_iff_eq] at h
  apply hfile
  calc scheme = (scheme.map rawToUpper).map rawToLower := by
        rw [List.map_map]
        exact (map_rawToLower hlower).symm.trans (List.map_congr_left fun c _ => (rawToLower_twice c).1.symm)
    _ = ((bytes "file").map rawToUpper).map rawToLower := by rw [h]
    _ = bytes "file" := by decide

theorem rawToLower_of_isAbsoluteUrl {url scheme : Bytes} (h : isAbsoluteUrl url = some scheme) :
    ∀ c ∈ scheme, rawToLower c = c := by
  cases url with
  | nil => cases h
  | cons c s =>
    rw [isAbsoluteUrl] at h
    split at h
    · dsimp only at h
      split at h
      · cases h
        intro d hd
        obtain ⟨e, -, rfl⟩ := List.mem_map.mp hd
        exact (rawToLower_twice e).2
      · cases h
    · cases h

/-! ### Path, query and fragment -/

section

variable {label : String} {a : UInt8} (hlabel : bytes label = [a])
include hlabel

theorem labelled_some (t : Bytes) : labelled label (some t) = a :: t := by
  rw [labelled, hlabel]
  rfl

theorem idxOf?_labelled {s : Bytes} (h : a ∉ s) (part : Option Bytes) :
    (s ++ labelled label part).idxOf? a = part.map fun _ => s.length := by
  cases part with
  | none => exact List.idxOf?_eq_none_iff.mpr (by rwa [labelled, List.append_nil])
  | some t =>
    rw [labelled_some hlabel]
    exact idxOf?_append h t

theorem takeWhile_labelled {s : Bytes} (h : a ∉ s) (part : Option Bytes) :
    (s ++ labelled label part).takeWhile (· ≠ a) = s := by
  have hs : ∀ c ∈ s, decide (c ≠ a) = true := fun c hc => decide_eq_true fun heq => h (heq ▸ hc)
  rw [List.takeWhile_append_of_pos hs]
  cases part with
  | none => exact List.append_nil s
  | some t => rw [labelled_some hlabel, List.takeWhile_cons_of_neg (by simp), List.append_nil]

theorem drop_labelled (s t : Bytes) : (s ++ labelled label (some t)).drop (s.length + 1) = t := by
  rw [labelled_some hlabel, List.append_cons]
  exact List.drop_left' (by simp)

end

/-- **A path, a query and a fragment** are found where they are written. -/
theorem parsePath_text (v : CURLU) {path : Bytes} {query fragment : Option Bytes}
    (hv : v.query = none ∧ v.fragment = none ∧ v.queryPresent = false ∧ v.fragmentPresent = false)
    (hpath : byte '?' ∉ path ∧ byte '#' ∉ path) (hquery : ∀ q, query = some q → byte '#' ∉ q) :
    parsePath v (path ++ labelled "?" query ++ labelled "#" fragment) =
      { v with
        path := if path.length ≤ 1 then none else some (dedotdotify path)
        query := query
        queryPresent := query.isSome
        fragment := fragment.filter (· ≠ [])
        fragmentPresent := fragment.isSome } := by
  cases v
  dsimp only at hv
  obtain ⟨rfl, rfl, rfl, rfl⟩ := hv
  have hhash : byte '#' ∉ path ++ labelled "?" query := by
    intro h
    rcases List.mem_append.mp h with h | h
    · exact hpath.2 h
    · cases query with
      | none => cases h
      | some q => exact hquery q rfl ((List.mem_cons.mp h).resolve_left (by decide))
  have hfilter : ∀ f : Bytes, (if f = [] then none else some f) = (some f).filter (· ≠ []) := by
    intro f
    cases f <;> rfl
  rw [parsePath, idxOf?_labelled rfl hhash, takeWhile_labelled rfl hhash, idxOf?_labelled rfl hpath.1,
    takeWhile_labelled rfl hpath.1]
  cases fragment with
  | none =>
    cases query with
    | none => rfl
    | some q =>
      dsimp only [Option.map_none, Option.map_some]
      rw [drop_labelled rfl]
      rfl
  | some f =>
    cases query with
    | none =>
      dsimp only [Option.map_none, Option.map_some]
      rw [drop_labelled rfl, hfilter]
      rfl
    | some q =>
      dsimp only [Option.map_some]
      rw [drop_labelled rfl, drop_labelled rfl, hfilter]
      rfl

/-- Every text is a path, a query and a fragment. -/
theorem exists_parts (rest : Bytes) : ∃ path query fragment,
    rest = path ++ labelled "?" query ++ labelled "#" fragment ∧
      (byte '?' ∉ path ∧ byte '#' ∉ path) ∧ ∀ q, query = some q → byte '#' ∉ q := by
  obtain ⟨s, fragment, rfl, hs⟩ : ∃ s fragment, rest = s ++ labelled "#" fragment ∧ byte '#' ∉ s := by
    cases h : rest.idxOf? (byte '#') with
    | none => exact ⟨rest, none, (List.append_nil rest).symm, List.idxOf?_eq_none_iff.mp h⟩
    | some i =>
      obtain ⟨a, b, rfl, ha, -⟩ := exists_of_idxOf? h
      exact ⟨a, some b, rfl, ha⟩
  cases h : s.idxOf? (byte '?') with
  | none =>
    exact ⟨s, none, fragment, by rw [labelled, List.append_nil],
      ⟨List.idxOf?_eq_none_iff.mp h, hs⟩, nofun⟩
  | some i =>
    obtain ⟨a, b, rfl, ha, -⟩ := exists_of_idxOf? h
    refine ⟨a, some b, fragment, rfl, ⟨ha, fun hmem => hs (List.mem_append_left _ hmem)⟩, ?_⟩
    rintro _ ⟨⟩ hmem
    exact hs (List.mem_append_right _ (List.mem_cons_of_mem _ hmem))

/-! ### What is parsed is well formed -/

/-- A path that `dedotdotify` made is one that it leaves. -/
theorem dedotdotify_wellFormed {path : Bytes} (hslash : isSlash path = true)
    (hbytes : ∀ c ∈ path, isPlainByte c = true ∧ c ≠ byte '?' ∧ c ≠ byte '#') :
    isSlash (dedotdotify path) = true ∧ dedotdotify (dedotdotify path) = dedotdotify path ∧
      ∀ c ∈ dedotdotify path, isPlainByte c = true ∧ c ≠ byte '?' ∧ c ≠ byte '#' :=
  ⟨isSlash_dedotdotify hslash, dedotdotify_dedotdotify hslash,
    fun c hc => hbytes c (dedotdotify_subset hslash hc)⟩

theorem wellFormed_parsePath {B : Build} {v : CURLU} {scheme host rest : Bytes}
    (hknown : KnownScheme B scheme) (hv : Authority B v host)
    (hauth : v = { scheme := some scheme, user := v.user, password := v.password, zoneid := v.zoneid
                   port := v.port, portnum := v.portnum })
    (hstart : ∀ c ∈ rest.head?, c = byte '/' ∨ c = byte '?' ∨ c = byte '#')
    (hplain : ∀ c ∈ rest, isPlainByte c = true) :
    WellFormed B { parsePath v rest with host := some host } scheme host := by
  obtain ⟨path, query, fragment, rfl, hpath, hquery⟩ := exists_parts rest
  have hempty : v.query = none ∧ v.fragment = none ∧ v.queryPresent = false ∧ v.fragmentPresent = false := by
    rw [hauth]
    exact ⟨rfl, rfl, rfl, rfl⟩
  have hpathPlain : ∀ c ∈ path, isPlainByte c = true ∧ c ≠ byte '?' ∧ c ≠ byte '#' := by
    intro c hc
    refine ⟨hplain c (List.mem_append_left _ (List.mem_append_left _ hc)), ?_, ?_⟩
    · rintro rfl
      exact hpath.1 hc
    · rintro rfl
      exact hpath.2 hc
  rw [parsePath_text v hempty hpath hquery]
  refine {
    scheme_eq := by rw [hauth]
    host_eq := rfl
    known := hknown
    options := by rw [hauth]
    authority := ⟨hv.login, hv.login_bytes, hv.host, hv.port⟩
    path := ?_
    query := ?_
    fragment := ?_
    guessed := by rw [hauth] }
  · intro p hp
    dsimp only at hp
    split at hp
    · cases hp
    · next hlen =>
      cases hp
      refine dedotdotify_wellFormed ?_ hpathPlain
      cases path with
      | nil => exact absurd (Nat.zero_le 1) hlen
      | cons c path =>
        obtain rfl | rfl | rfl := hstart c rfl
        · rfl
        · exact absurd List.mem_cons_self hpath.1
        · exact absurd List.mem_cons_self hpath.2
  · rintro q rfl c hc
    refine ⟨hplain c (List.mem_append_left _ (List.mem_append_right _ (List.mem_cons_of_mem _ hc))), ?_⟩
    rintro rfl
    exact hquery q rfl hc
  · intro f hf
    obtain ⟨rfl, hne⟩ := Option.filter_eq_some_iff.mp hf
    refine ⟨of_decide_eq_true hne, fun c hc => ?_⟩
    exact hplain c (List.mem_append_right _ (List.mem_cons_of_mem _ hc))

/-- The turns of `parseurl` on the way to a handle. -/
theorem parseurl_turns {B : Build} {url : Bytes} {u : CURLU} (h : parseurl B url = .ok u)
    (hfile : u.scheme ≠ some (bytes "file")) :
    ∃ scheme auth rest v host, KnownScheme B scheme ∧
      auth ⊆ url ∧ (∀ c ∈ auth, isPlainByte c = true ∧ endsAuthority c = false) ∧
      (∀ c ∈ rest, isPlainByte c = true) ∧ (∀ c ∈ rest.head?, endsAuthority c = true) ∧
      parseAuthority B { scheme := some scheme } auth true = .ok (v, host) ∧
      u = { parsePath v rest with host := some host } := by
  rw [parseurl] at h
  split at h
  · cases h
  next hjunk =>
  have hplain : ∀ c ∈ url, isPlainByte c = true := by
    rw [Bool.not_eq_false, junkscan, Bool.and_eq_true] at hjunk
    exact List.all_eq_true.mp hjunk.2
  split at h
  · cases h
  next scheme habs =>
  split at h
  · next hs =>
    split at h
    · cases h
    · cases h
      exact absurd ((parsePath_scheme _ _).trans (congrArg some hs)) hfile
  dsimp only at h
  generalize hhostp : (url.drop (scheme.length + 1)).drop _ = hostp at h
  have hsub : hostp ⊆ url := fun c hc => List.mem_of_mem_drop (List.mem_of_mem_drop (hhostp ▸ hc))
  split at h
  · cases h
  next hhandler =>
  split at h
  · cases h
  split at h
  · cases h
  split at h
  · cases h
  next v host hauth =>
  cases h
  have hrest := List.takeWhile_append_dropWhile (p := fun c => c != byte '/' && c != byte '?' && c != byte '#')
    (l := hostp)
  refine ⟨scheme, _, _, v, host, ⟨?_, rawToLower_of_isAbsoluteUrl habs, ?_⟩,
    fun c hc => hsub (List.takeWhile_subset _ hc), ?_, ?_, ?_, hauth, rfl⟩
  · rw [← Option.not_isNone, Bool.eq_false_iff.mpr hhandler]
    rfl
  · obtain ⟨c, s, rfl, hc⟩ := isAbsoluteUrl_head habs
    rintro _ ⟨⟩
    rw [isAlpha, hc]
    rfl
  · intro c hc
    have hnot := List.mem_takeWhile_imp hc
    rw [not_endsAuthority, Bool.not_eq_true'] at hnot
    exact ⟨hplain c (hsub (List.takeWhile_subset _ hc)), hnot⟩
  · exact fun c hc => hplain c (hsub (List.mem_of_mem_drop hc))
  · have hdrop : hostp.drop (hostp.takeWhile fun c => c != byte '/' && c != byte '?' && c != byte '#').length =
        hostp.dropWhile fun c => c != byte '/' && c != byte '?' && c != byte '#' := by
      conv_lhs => rw [← hrest]
      exact List.drop_left' (by rw [hrest])
    rw [hdrop]
    intro c hc
    have hnot := List.head?_dropWhile_not (fun c => c != byte '/' && c != byte '?' && c != byte '#') hostp
    rw [Option.mem_def.mp hc] at hnot
    dsimp only at hnot
    rwa [not_endsAuthority, Bool.not_eq_false'] at hnot

/-- **What `parseurl` leaves in a handle.** -/
theorem wellFormed_of_parseurl {B : Build} (hB : Inet6 B) {url : Bytes} {u : CURLU}
    (h : parseurl B url = .ok u) (hfile : u.scheme ≠ some (bytes "file"))
    (hlogin : ∀ scheme, u.scheme = some scheme → NoLoginOptions B scheme) :
    ∃ scheme host, WellFormed B u scheme host ∧ (percent ∉ url → settled host = host) := by
  obtain ⟨scheme, auth, rest, v, host, hknown, hsub, hauth, hplain, hstart, hparse, rfl⟩ :=
    parseurl_turns h hfile
  have hscheme : (parsePath v rest).scheme = some scheme :=
    (parsePath_scheme v rest).trans (parseAuthority_scheme hparse)
  have hbytes : ∀ c ∈ auth, isAuthorityByte c = true := by
    intro c hc
    rw [isAuthorityByte_eq, (hauth c hc).1, (hauth c hc).2]
    rfl
  have hends : ∀ c, endsAuthority c = true → c = byte '/' ∨ c = byte '?' ∨ c = byte '#' := by
    intro c hc
    simpa only [endsAuthority, Bool.or_eq_true, beq_iff_eq, or_assoc] using hc
  obtain ⟨hv, hsettled, hveq⟩ := parseAuthority_spec hB (hlogin scheme hscheme) hbytes hparse
  exact ⟨scheme, host, wellFormed_parsePath hknown hv hveq (fun c hc => hends c (hstart c hc)) hplain,
    fun hp => hsettled fun hc => hp (hsub hc)⟩

/-! ### What is written is read again -/

/-- A URL with an authority, from its texts. -/
def assembled (scheme auth rest : Bytes) : Bytes :=
  scheme ++ byte ':' :: byte '/' :: byte '/' :: (auth ++ rest)

/-- **The turns of `parseurl`** on a URL that is put together from its texts. -/
theorem parseurl_assembled {B : Build} {scheme auth rest : Bytes} (hknown : KnownScheme B scheme)
    (hfile : scheme ≠ bytes "file") (hne : auth ≠ [])
    (hauth : ∀ c ∈ auth, isPlainByte c = true ∧ endsAuthority c = false)
    (hrest : ∀ c ∈ rest, isPlainByte c = true) (hstart : ∀ c ∈ rest.head?, endsAuthority c = true)
    (hlen : (assembled scheme auth rest).length ≤ curlMaxInputLength) :
    parseurl B (assembled scheme auth rest) =
      match parseAuthority B { scheme := some scheme } auth true with
      | .error code => .error code
      | .ok (u, host) => .ok { parsePath u rest with host := some host } := by
  obtain ⟨g, hg⟩ := Option.isSome_iff_exists.mp hknown.handled
  have hplain : ∀ c ∈ assembled scheme auth rest, isPlainByte c = true := by
    intro c hc
    simp only [assembled, List.mem_append, List.mem_cons] at hc
    rcases hc with hc | rfl | rfl | rfl | hc | hc
    · exact isPlainByte_of_isAlnum (isAlnum_of_handler hg c hc)
    · decide
    · decide
    · decide
    · exact (hauth c hc).1
    · exact hrest c hc
  have hjunk : ¬ junkscan (assembled scheme auth rest) = false := by
    rw [Bool.not_eq_false, junkscan, decide_eq_true hlen, Bool.true_and]
    exact List.all_eq_true.mpr hplain
  have hdrop : (assembled scheme auth rest).drop (scheme.length + 1) =
      byte '/' :: byte '/' :: (auth ++ rest) := by
    rw [assembled, List.append_cons]
    exact List.drop_left' (by simp)
  have hslashes : ((byte '/' :: byte '/' :: (auth ++ rest)).take 4).takeWhile (· == byte '/') =
      [byte '/', byte '/'] := by
    obtain ⟨c, s, rfl⟩ := List.exists_cons_of_ne_nil hne
    have hc : ¬ (c == byte '/') = true := by
      intro hslash
      have hend := (hauth c List.mem_cons_self).2
      rw [endsAuthority, hslash] at hend
      cases hend
    exact congrArg (fun s => byte '/' :: byte '/' :: s) (List.takeWhile_cons_of_neg hc)
  have htake : (auth ++ rest).takeWhile (fun c => c != byte '/' && c != byte '?' && c != byte '#') =
      auth := by
    rw [List.takeWhile_append_of_pos]
    · cases rest with
      | nil => exact List.append_nil auth
      | cons c rest =>
        rw [List.takeWhile_cons_of_neg, List.append_nil]
        rw [not_endsAuthority, hstart c rfl]
        exact Bool.false_ne_true
    · intro c hc
      rw [not_endsAuthority, (hauth c hc).2]
      rfl
  rw [parseurl, if_neg hjunk, assembled, isAbsoluteUrl_scheme hknown, ← assembled]
  dsimp only
  rw [if_neg hfile, hdrop, hslashes, if_neg, if_neg (by decide)]
  · have hhostp : (byte '/' :: byte '/' :: (auth ++ rest)).drop [byte '/', byte '/'].length =
        auth ++ rest := rfl
    have hbehind : (auth ++ rest).drop auth.length = rest := List.drop_left
    rw [hhostp, htake, if_neg hne]
    cases parseAuthority B { scheme := some scheme } auth true with
    | error code => rfl
    | ok result =>
      obtain ⟨v, host⟩ := result
      exact congrArg (fun rest => Except.ok { parsePath v rest with host := some host }) hbehind
  · rw [← Option.not_isSome, hknown.handled]
    exact Bool.false_ne_true

theorem written_eq {B : Build} {u : CURLU} {scheme host : Bytes} (h : WellFormed B u scheme host)
    (hfile : scheme ≠ bytes "file") :
    written B u = assembled scheme (authorityText u)
      (u.path.getD (bytes "/") ++ labelled "?" (u.query.filter (· ≠ [])) ++ labelled "#" u.fragment) := by
  have hlower := strequal_file h.known.lower hfile
  rw [written, h.scheme_eq, h.host_eq, Option.any_some, if_neg hlower, h.options, ite_self, urlText,
    assembled, authorityText, loginText, urlTail, h.host_eq]
  simp only [List.append_assoc, labelled, Option.isSome_none, Bool.or_false,
    Option.getD_some, List.nil_append]
  rfl

section

variable {B : Build} {u : CURLU} {scheme host : Bytes} (h : WellFormed B u scheme host)
include h

/-- The path that is written begins with a slash and ends where it should. -/
theorem path_bytes : isSlash (u.path.getD (bytes "/")) = true ∧
    ∀ c ∈ u.path.getD (bytes "/"), isPlainByte c = true ∧ c ≠ byte '?' ∧ c ≠ byte '#' := by
  cases hp : u.path with
  | none =>
    refine ⟨rfl, fun c hc => ?_⟩
    rw [List.mem_singleton.mp hc]
    decide
  | some p => exact ⟨(h.path p hp).1, (h.path p hp).2.2⟩

theorem path_read : (if (u.path.getD (bytes "/")).length ≤ 1 then none
    else some (dedotdotify (u.path.getD (bytes "/")))) = u.path.filter (· ≠ bytes "/") := by
  cases hp : u.path with
  | none => rfl
  | some p =>
    obtain ⟨hslash, hstable, -⟩ := h.path p hp
    rw [Option.getD_some, hstable]
    match p, hslash with
    | [c], hslash =>
      obtain rfl : c = byte '/' := Option.some.inj (eq_of_beq hslash)
      rfl
    | c :: d :: p, _ =>
      have hne : c :: d :: p ≠ bytes "/" := fun heq => absurd (congrArg List.length heq) (by simp [bytes])
      rw [if_neg (by simp), Option.filter_some, if_pos (decide_eq_true hne)]

theorem query_bytes : ∀ q, u.query.filter (· ≠ []) = some q →
    ∀ c ∈ q, isPlainByte c = true ∧ c ≠ byte '#' :=
  fun q hq => h.query q (Option.filter_eq_some_iff.mp hq).1

theorem fragment_read : u.fragment.filter (· ≠ []) = u.fragment := by
  cases hf : u.fragment with
  | none => rfl
  | some f => rw [Option.filter_some, if_pos (decide_eq_true (h.fragment f hf).1)]

/-- **A URL that is written** is read again as the normal one. -/
theorem parseurl_written (hB : Inet6 B) (hfile : scheme ≠ bytes "file")
    (hlogin : NoLoginOptions B scheme) (hzone : PlainZone u.zoneid)
    (hlen : (written B u).length ≤ curlMaxInputLength) :
    parseurl B (written B u) = .ok (normal u) := by
  have hauth : ∀ c ∈ authorityText u, isPlainByte c = true ∧ endsAuthority c = false := by
    intro c hc
    have hbyte := authorityText_bytes h.authority h.host_eq hzone c hc
    rwa [isAuthorityByte_eq, Bool.and_eq_true, Bool.not_eq_true'] at hbyte
  obtain ⟨hslash, hpath⟩ := path_bytes h
  have hplain : ∀ c ∈ u.path.getD (bytes "/") ++ labelled "?" (u.query.filter (· ≠ [])) ++
      labelled "#" u.fragment, isPlainByte c = true := by
    intro c hc
    rcases List.mem_append.mp hc with hc | hc
    · rcases List.mem_append.mp hc with hc | hc
      · exact (hpath c hc).1
      · cases hq : u.query.filter (· ≠ []) with
        | none =>
          rw [hq] at hc
          cases hc
        | some q =>
          rw [hq] at hc
          rcases List.mem_cons.mp hc with rfl | hc
          · decide
          · exact (query_bytes h q hq c hc).1
    · cases hf : u.fragment with
      | none =>
        rw [hf] at hc
        cases hc
      | some f =>
        rw [hf] at hc
        rcases List.mem_cons.mp hc with rfl | hc
        · decide
        · exact (h.fragment f hf).2 c hc
  have hstart : ∀ c ∈ (u.path.getD (bytes "/") ++ labelled "?" (u.query.filter (· ≠ [])) ++
      labelled "#" u.fragment).head?, endsAuthority c = true := by
    intro c hc
    cases hp : u.path.getD (bytes "/") with
    | nil =>
      rw [hp] at hslash
      cases hslash
    | cons d p =>
      rw [hp] at hc hslash
      obtain rfl : d = c := Option.some.inj hc
      obtain rfl : d = byte '/' := Option.some.inj (eq_of_beq hslash)
      decide
  rw [written_eq h hfile] at hlen ⊢
  rw [parseurl_assembled h.known hfile (authorityText_ne_nil h.authority h.host_eq hzone)
    hauth hplain hstart hlen,
    parseAuthority_authorityText h.authority h.host_eq hzone hB hlogin]
  dsimp only
  rw [parsePath_text _ ⟨rfl, rfl, rfl, rfl⟩
    ⟨fun hc => (hpath _ hc).2.1 rfl, fun hc => (hpath _ hc).2.2 rfl⟩
    (fun q hq hc => (query_bytes h q hq _ hc).2 rfl), path_read h, fragment_read h, normal, h.host_eq,
    h.scheme_eq, h.options, h.guessed]
  rfl

omit h in
theorem normal_normal (u : CURLU) : normal (normal u) = normal u := by
  have hhost : (u.host.map settled).map settled = u.host.map settled := by
    cases u.host with
    | none => rfl
    | some host => exact congrArg some (settled_settled host)
  have hpath : (u.path.filter (· ≠ bytes "/")).filter (· ≠ bytes "/") = u.path.filter (· ≠ bytes "/") := by
    rw [Option.filter_filter]
    simp
  have hquery : (u.query.filter (· ≠ [])).filter (· ≠ []) = u.query.filter (· ≠ []) := by
    rw [Option.filter_filter]
    simp
  unfold normal
  dsimp only
  rw [hhost, hpath, hquery]

/-- No part of the URL but the host tells it from the normal one. -/
theorem curlUrlGet_normal (hfile : scheme ≠ bytes "file") (hsettled : settled host = host)
    (what : CURLUPart) (flags : GetFlags) :
    curlUrlGet B (normal u) what flags = curlUrlGet B u what flags := by
  have hpath : (u.path.filter (· ≠ bytes "/")).getD (bytes "/") = u.path.getD (bytes "/") := by
    cases u.path with
    | none => rfl
    | some p =>
      rw [Option.filter_some]
      split
      · rfl
      · next hp => exact (not_not.mp (mt decide_eq_true hp)).symm
  have hquery : (u.query.filter (· ≠ [])).filter (· ≠ []) = u.query.filter (· ≠ []) := by
    rw [Option.filter_filter]
    simp
  have hhost : u.host.map settled = u.host := by
    rw [h.host_eq, Option.map_some, hsettled]
  have hlower : ¬ strequal (bytes "file") scheme = true := strequal_file h.known.lower hfile
  have htext : ∀ scheme host options port,
      urlText (normal u) scheme host options port = urlText u scheme host options port := by
    intro scheme host options port
    have htail : urlTail (normal u) = urlTail u :=
      congrArg (labelled "?" · ++ labelled "#" u.fragment) hquery
    have hnormal : (normal u).path.getD (bytes "/") = u.path.getD (bytes "/") := hpath
    rw [urlText, urlText, htail, hnormal]
    rfl
  have hstored : ∀ what, storedPart B (normal u) what flags = storedPart B u what flags := by
    intro what
    cases what with
    | host => exact congrArg (·, CURLUcode.noHost) hhost
    | path => exact congrArg (fun p => (some p, CURLUcode.unknownPart)) hpath
    | query => exact congrArg (·, CURLUcode.noQuery) hquery
    | _ => rfl
  cases what with
  | url =>
    have hscheme : (normal u).scheme = some scheme := h.scheme_eq
    have hnormal : (normal u).host = some host := hhost.trans h.host_eq
    show urlgetUrl B (normal u) flags = urlgetUrl B u flags
    rw [urlgetUrl, urlgetUrl, hscheme, hnormal, h.scheme_eq, h.host_eq, Option.any_some, if_neg hlower,
      if_neg hlower]
    simp only [htext]
    rfl
  | _ => simp only [curlUrlGet, hstored]

end

/-- What writing and reading does to a URL that was parsed from a text. -/
structure Rewritten (B : Build) (url : Bytes) (u : CURLU) : Prop where
  reread : parseurl B (written B u) = .ok (normal u)
  again : (written B (normal u)).length < curlMaxInputLength →
    parseurl B (written B (normal u)) = .ok (normal u)
  same_iff : (∀ what flags, curlUrlGet B (normal u) what flags = curlUrlGet B u what flags) ↔
    u.host.map settled = u.host
  settled_of_plain : percent ∉ url → u.host.map settled = u.host

/-- **A URL that is parsed, written and parsed again** is the same in all its parts exactly if its host
is no number in disguise, and is the same from then on. -/
theorem parseurl_rewritten {B : Build} (hB : Inet6 B) {url : Bytes} {u : CURLU}
    (h : parseurl B url = .ok u) (hfile : u.scheme ≠ some (bytes "file"))
    (hlogin : ∀ scheme, u.scheme = some scheme → NoLoginOptions B scheme) (hzone : PlainZone u.zoneid)
    (hlen : (written B u).length < curlMaxInputLength) : Rewritten B url u := by
  obtain ⟨scheme, host, hu, hplain⟩ := wellFormed_of_parseurl hB h hfile hlogin
  have hscheme : scheme ≠ bytes "file" := fun hs => hfile (hs ▸ hu.scheme_eq)
  have hreread := parseurl_written hu hB hscheme (hlogin scheme hu.scheme_eq) hzone hlen.le
  refine ⟨hreread, fun hlen' => ?_, ⟨fun hsame => ?_, fun hsettled => ?_⟩, fun hp => ?_⟩
  · -- the normal URL is itself one that is parsed
    obtain ⟨scheme', host', hn, -⟩ := wellFormed_of_parseurl hB hreread hfile hlogin
    obtain rfl : scheme = scheme' := Option.some.inj (hu.scheme_eq.symm.trans hn.scheme_eq)
    have hagain := parseurl_written hn hB hscheme (hlogin scheme hu.scheme_eq) hzone hlen'.le
    rwa [normal_normal] at hagain
  · have hget : ∀ {v : CURLU} {x}, v.host = some x → curlUrlGet B v .host {} = .ok x := by
      intro v x hv
      rw [curlUrlGet_plain B v (by decide), storedPart, hv]
    have hnormal : (normal u).host = some (settled host) := congrArg (Option.map settled) hu.host_eq
    have hhost := hsame .host {}
    rw [hget hu.host_eq, hget hnormal, Except.ok.injEq] at hhost
    rw [hu.host_eq, Option.map_some, hhost]
  · rw [hu.host_eq, Option.map_some, Option.some.injEq] at hsettled
    exact curlUrlGet_normal hu hscheme hsettled
  · rw [hu.host_eq, Option.map_some, hplain hp]

/-- A URL with every part, whose host is partly encoded. -/
def fullUrl : Bytes := bytes "HTTP://me:p%20w@%65xample.com:0080/a/./b/../%2e%2E/c?x=1#top"

def fullHandle : CURLU where
  scheme := some (bytes "http")
  user := some (bytes "me")
  password := some (bytes "p%20w")
  host := some (bytes "example.com")
  port := some (bytes "80")
  path := some (bytes "/c")
  query := some (bytes "x=1")
  fragment := some (bytes "top")
  portnum := 80
  queryPresent := true
  fragmentPresent := true

/-- `parseurl_rewritten` at a URL with every part. -/
theorem parseurl_rewritten_full : Rewritten RequestUrl.httpBuild fullUrl fullHandle := by
  have hinet : Inet6 RequestUrl.httpBuild := by
    refine ⟨?_, ?_, ?_, ?_⟩
    · rintro a d ⟨⟩
    · rintro d n a ⟨⟩
    · rintro d n a ⟨⟩
    · rintro d n m a b ⟨⟩
  have hlogin : ∀ scheme, fullHandle.scheme = some scheme → NoLoginOptions RequestUrl.httpBuild scheme := by
    rintro _ ⟨⟩
    show (getSchemeHandler RequestUrl.httpBuild (bytes "http")).any (·.urlOptions) = false
    decide +kernel
  exact parseurl_rewritten hinet (by decide +kernel) (by decide) hlogin nofun (by decide +kernel)

/-- A host that is a number once it is decoded. -/
example : settled (bytes "0x7f.1") = bytes "127.0.0.1" := by decide +kernel

end NetMod.UrlRewriting
