import NetMod.CookieStoreEffects
import NetMod.Lib.PartialRuns
import NetMod.SetCookieParser

/-!
# `_HeaderRead` and `PutCookie` over a chain of redirects

libcurl calls `_HeaderRead` with the header lines of every hop of a transfer.  The callback is told
the line only; the URL it files cookies under is the request's.  A `HeaderLine` records the hop it
came from so that the two can be compared: `attributed_iff` says for which chains no cookie is filed
under a URL that did not set it.
-/

namespace NetMod.RedirectCookies

open NetMod.BlitzText NetMod.CookieStore NetMod.HttpCookie NetMod.HttpFields NetMod.PartialRuns
open NetMod.SetCookieParser

/-- What the callback changes: the response's headers and the client's cookie store. -/
structure HeaderState where
  headers : THttpFields := {}
  cookieStore : THttpCookieStore := {}

/-- A call of the callback: the hop's URL, the clock reading, and the decoded line. -/
structure HeaderLine where
  hop : TUrl
  now : UInt64
  text : Text
deriving DecidableEq

/-- `THttpClient.PutCookie`; `none` is an exception of the parser. -/
def putCookie (P : Platform) (now : UInt64) (store : THttpCookieStore) (url : TUrl)
    (header : THttpField) : Option THttpCookieStore :=
  match parseFromSetCookieHeader P header with
  | .null => some store
  | .cookie cookie => some (add P now store url cookie).1
  | .raised => none

/-- `THttpClient._HeaderRead`, for a request with the URL `url`. -/
def headerRead (P : Platform) (url : TUrl) (s : HeaderState) (l : HeaderLine) : Option HeaderState :=
  match s.headers.addLine P l.text with
  | (headers, some header) =>
    if header.is P (lit "set-cookie") then
      (putCookie P l.now s.cookieStore url header).map fun store => ⟨headers, store⟩
    else some ⟨headers, s.cookieStore⟩
  | (headers, none) => some ⟨headers, s.cookieStore⟩

/-- The cookie a header line sets, if it is a Set-Cookie line that parses. -/
def lineCookie (P : Platform) (text : Text) : Option THttpCookie :=
  match THttpFields.lineField P text with
  | some header =>
    if header.is P (lit "set-cookie") then
      match parseFromSetCookieHeader P header with
      | .cookie cookie => some cookie
      | _ => none
    else none
  | none => none

/-- **What a header line does to the store.** -/
theorem headerRead_store {P : Platform} {url : TUrl} {s s' : HeaderState} {l : HeaderLine}
    (h : headerRead P url s l = some s') :
    s'.cookieStore =
      match lineCookie P l.text with
      | some cookie => (add P l.now s.cookieStore url cookie).1
      | none => s.cookieStore := by
  rw [headerRead, THttpFields.addLine] at h
  rw [lineCookie]
  cases hline : THttpFields.lineField P l.text with
  | none =>
    simp only [hline] at h
    obtain rfl := Option.some.inj h
    rfl
  | some header =>
    simp only [hline] at h ⊢
    split at h
    · rename_i hset
      rw [if_pos hset]
      rw [putCookie] at h
      cases hparse : parseFromSetCookieHeader P header with
      | null =>
        simp only [hparse, Option.map_some, Option.some.injEq] at h
        subst h
        rfl
      | cookie cookie =>
        simp only [hparse, Option.map_some, Option.some.injEq] at h
        subst h
        rfl
      | raised =>
        simp only [hparse, Option.map_none] at h
        cases h
    · rename_i hset
      rw [if_neg hset]
      obtain rfl := Option.some.inj h
      rfl

/-- The line files the entry `e`: it sets a cookie that `Add` accepts for the request's URL. -/
def Filed (P : Platform) (url : TUrl) (s : HeaderState) (l : HeaderLine) (e : TCachedCookie) : Prop :=
  ∃ cookie, lineCookie P l.text = some cookie ∧ (add P l.now s.cookieStore url cookie).2 = true ∧
    e = entryOf P l.now url cookie

/-- The entries the line brings into the store are those it files. -/
def BringsFiled (P : Platform) (url : TUrl) (s : HeaderState) (l : HeaderLine) : Prop :=
  ∀ s', headerRead P url s l = some s' → ∀ e, (∀ k, e ∉ listAt s.cookieStore.cookies k) →
    ((∃ k, e ∈ listAt s'.cookieStore.cookies k) ↔ Filed P url s l e)

/-- A filed entry is in the store after the line, and the line brings no other. -/
theorem mem_headerRead {P : Platform} {url : TUrl} {s s' : HeaderState} {l : HeaderLine}
    (hs : StoreInv P s.cookieStore.cookies) (h : headerRead P url s l = some s')
    (e : TCachedCookie) (hnew : ∀ k, e ∉ listAt s.cookieStore.cookies k) :
    (∃ k, e ∈ listAt s'.cookieStore.cookies k) ↔ Filed P url s l e := by
  rw [headerRead_store h]
  rw [Filed]
  cases lineCookie P l.text with
  | none => simp [hnew]
  | some cookie =>
    simp only [Option.some.injEq, exists_eq_left', add_accepts_iff]
    by_cases hd : resolveCookieDomain P url cookie = []
    · simp [add_rejected P l.now s.cookieStore url cookie hd, hd, hnew]
    · simp only [mem_listAt_add hs l.now url cookie _ e hd, hnew, false_and, false_or,
        exists_eq_left, hd, not_false_iff, ne_eq, true_and]
      exact and_comm

theorem storeInv_headerRead {P : Platform} {url : TUrl} {s s' : HeaderState} {l : HeaderLine}
    (hs : StoreInv P s.cookieStore.cookies) (h : headerRead P url s l = some s') :
    StoreInv P s'.cookieStore.cookies := by
  rw [headerRead_store h]
  cases lineCookie P l.text with
  | none => exact hs
  | some cookie => exact storeInv_add hs l.now url cookie

/-- **Over a run the store gets what the lines file.** -/
theorem bringsFiled_along {P : Platform} {url : TUrl} {s : HeaderState}
    (hs : StoreInv P s.cookieStore.cookies) (calls : List HeaderLine) :
    Along (headerRead P url) (BringsFiled P url) s calls := by
  intro pre l post _ mid hmid s' hline e hnew
  have hinv : StoreInv P mid.cookieStore.cookies :=
    run_invariant (fun s : HeaderState => StoreInv P s.cookieStore.cookies)
      (fun _ _ _ hs hstep => storeInv_headerRead hs hstep) hs hmid
  exact mem_headerRead hinv hline e hnew

/-! ### Chains of hops -/

/-- A hop with the header lines of its response, each with its clock reading. -/
structure Hop where
  url : TUrl
  lines : List (UInt64 × Text)

/-- The callback's calls over a chain. -/
def chainLines (hops : List Hop) : List HeaderLine :=
  hops.flatMap fun hop => hop.lines.map fun l => ⟨hop.url, l.1, l.2⟩

/-- Every entry the line files has the domain and path it would have if filed under the hop's URL,
where it would be stored too. -/
def Attributed (P : Platform) (url : TUrl) (s : HeaderState) (l : HeaderLine) : Prop :=
  ∀ e, Filed P url s l e →
    e.domain = resolveCookieDomain P l.hop e.cookie ∧ e.path = resolveCookiePath P l.hop e.cookie ∧
      (add P l.now s.cookieStore l.hop e.cookie).2 = true

/-- The path of a cookie without a Path of its own. -/
def pathOfUrl (url : TUrl) : Text :=
  if url.rawPath = [] ∨ !startsWith url.rawPath (lit "/") then lit "/"
  else
    match findLast url.rawPath (asc '/') with
    | some lastSlash => slice url.rawPath 0 lastSlash
    | none => lit "/"

theorem resolveCookiePath_eq (P : Platform) (url : TUrl) (cookie : THttpCookie) :
    resolveCookiePath P url cookie =
      if startsWith (cookie.getPath P) (lit "/") = true then cookie.getPath P else pathOfUrl url := by
  unfold resolveCookiePath pathOfUrl
  cases hs : startsWith (cookie.getPath P) (lit "/") with
  | true =>
    have hne : cookie.getPath P ≠ [] := by
      intro hnil
      rw [hnil] at hs
      exact absurd hs (by decide)
    simp [hne, hs]
  | false =>
    rw [if_neg Bool.false_ne_true]
    exact if_pos (Or.inr (by rw [hs]; rfl))

/-- If the store takes the line's cookie for the request's URL, then the hop has the request's host,
and the cookie has a Path or both URLs have one default path. -/
def SameOrigin (P : Platform) (url : TUrl) (_ : HeaderState) (l : HeaderLine) : Prop :=
  ∀ cookie, lineCookie P l.text = some cookie → url.host ≠ [] → cookie.getDomain P = [] →
    (entryOf P l.now url cookie).isExpired P l.now = false →
    l.hop.host = url.host ∧
      (startsWith (cookie.getPath P) (lit "/") = true ∨ pathOfUrl l.hop = pathOfUrl url)

theorem add_accepts_host (P : Platform) (now : UInt64) (s : THttpCookieStore) (url : TUrl)
    (cookie : THttpCookie) :
    (add P now s url cookie).2 = true ↔
      url.host ≠ [] ∧ cookie.getDomain P = [] ∧
        (entryOf P now url cookie).isExpired P now = false := by
  rw [add_accepts_iff, resolveCookieDomain_eq]
  by_cases hd : cookie.getDomain P = [] <;> simp [hd]

theorem attributed_line_iff (P : Platform) (url : TUrl) (s : HeaderState) (l : HeaderLine) :
    Attributed P url s l ↔ SameOrigin P url s l := by
  constructor
  · intro h cookie hline hhost hdom hfresh
    have hadd := (add_accepts_host P l.now s.cookieStore url cookie).mpr ⟨hhost, hdom, hfresh⟩
    obtain ⟨hd, hp, -⟩ := h _ ⟨cookie, hline, hadd, rfl⟩
    change resolveCookieDomain P url cookie = resolveCookieDomain P l.hop cookie at hd
    change resolveCookiePath P url cookie = resolveCookiePath P l.hop cookie at hp
    rw [resolveCookieDomain_eq, resolveCookieDomain_eq, if_pos hdom, if_pos hdom] at hd
    refine ⟨hd.symm, ?_⟩
    rw [resolveCookiePath_eq, resolveCookiePath_eq] at hp
    by_cases hs : startsWith (cookie.getPath P) (lit "/") = true
    · exact Or.inl hs
    · rw [if_neg hs, if_neg hs] at hp
      exact Or.inr hp.symm
  · intro h e hfiled
    obtain ⟨cookie, hline, hadd, rfl⟩ := hfiled
    obtain ⟨hhost, hdom, hfresh⟩ := (add_accepts_host P l.now s.cookieStore url cookie).mp hadd
    obtain ⟨heq, hpath⟩ := h cookie hline hhost hdom hfresh
    refine ⟨?_, ?_, ?_⟩
    · show resolveCookieDomain P url cookie = resolveCookieDomain P l.hop cookie
      rw [resolveCookieDomain_eq, resolveCookieDomain_eq, heq]
    · show resolveCookiePath P url cookie = resolveCookiePath P l.hop cookie
      rw [resolveCookiePath_eq, resolveCookiePath_eq]
      rcases hpath with hs | hdef
      · rw [if_pos hs, if_pos hs]
      · rw [hdef]
    · exact (add_accepts_host P l.now s.cookieStore l.hop cookie).mpr ⟨heq ▸ hhost, hdom, hfresh⟩

/-- **Which chains attribute their cookies.**  Over any chain of hops from the request's URL, every
cookie is filed under the hop that set it iff every line whose cookie is stored comes from the
request's host, with a Path of its own or from the same default path.  What the lines file is what they
bring into the store, if the store is as its methods leave it. -/
theorem attributed_iff (P : Platform) (url : TUrl) (lines : List (UInt64 × Text)) (hops : List Hop)
    (s : HeaderState) :
    (Along (headerRead P url) (Attributed P url) s (chainLines (⟨url, lines⟩ :: hops)) ↔
      Along (headerRead P url) (SameOrigin P url) s (chainLines (⟨url, lines⟩ :: hops))) ∧
    (StoreInv P s.cookieStore.cookies →
      Along (headerRead P url) (BringsFiled P url) s (chainLines (⟨url, lines⟩ :: hops))) :=
  ⟨along_congr fun _ mid l _ => attributed_line_iff P url mid l, fun hs => bringsFiled_along hs _⟩

/-- The request's own response never misattributes a cookie. -/
theorem attributed_first_hop (P : Platform) (url : TUrl) (lines : List (UInt64 × Text))
    (s : HeaderState) :
    Along (headerRead P url) (Attributed P url) s (chainLines [⟨url, lines⟩]) := by
  intro pre l post hl mid _
  have hmem : l ∈ chainLines [⟨url, lines⟩] := by
    rw [hl]
    exact List.mem_append_right pre List.mem_cons_self
  obtain ⟨t, -, rfl⟩ : ∃ t ∈ lines, (⟨url, t.1, t.2⟩ : HeaderLine) = l := by
    simpa [chainLines] using hmem
  exact (attributed_line_iff P url mid _).mpr fun _ _ _ _ _ => ⟨rfl, Or.inr rfl⟩

def shopUrl : TUrl := ⟨lit "https", lit "shop.example", lit "/", lit "https://shop.example/"⟩

def adsUrl : TUrl := ⟨lit "https", lit "ads.test", lit "/", lit "https://ads.test/"⟩

/-- `attributed_iff` at a redirect that stays on the host. -/
theorem attributed_iff_stays :
    let calls := chainLines [⟨shopUrl, []⟩, ⟨shopUrl, [(1000, lit "Set-Cookie: sid=1")]⟩]
    Along (headerRead asciiPlatform shopUrl) (Attributed asciiPlatform shopUrl) {} calls ∧
      Along (headerRead asciiPlatform shopUrl) (BringsFiled asciiPlatform shopUrl) {} calls := by
  obtain ⟨hattributed, hbrings⟩ := attributed_iff asciiPlatform shopUrl []
    [⟨shopUrl, [(1000, lit "Set-Cookie: sid=1")]⟩] {}
  refine ⟨hattributed.mpr fun pre l post hl mid _ => ?_, hbrings (storeInv_empty _)⟩
  have hmem : l ∈ chainLines [⟨shopUrl, []⟩, ⟨shopUrl, [(1000, lit "Set-Cookie: sid=1")]⟩] := by
    rw [hl]
    exact List.mem_append_right pre List.mem_cons_self
  obtain rfl := List.mem_singleton.mp hmem
  exact fun _ _ _ _ _ => ⟨rfl, Or.inr rfl⟩

/-- A redirect to another host lets that host set a cookie for the first one. -/
theorem not_every_chain_attributed :
    ¬ ∀ (P : Platform) (url : TUrl) (lines : List (UInt64 × Text)) (hops : List Hop)
      (s : HeaderState),
      Along (headerRead P url) (Attributed P url) s (chainLines (⟨url, lines⟩ :: hops)) := by
  intro hall
  have h := (along_congr fun _ mid l _ => attributed_line_iff asciiPlatform shopUrl mid l).mp
    (hall asciiPlatform shopUrl [] [⟨adsUrl, [(1000, lit "Set-Cookie: sid=1")]⟩] {})
  have hline : lineCookie asciiPlatform (lit "Set-Cookie: sid=1") =
      some { name := lit "sid", value := lit "1" } := by decide +kernel
  have hsame := (along_cons.mp h).1 _ hline (by decide) (by decide) (by decide +kernel)
  exact absurd hsame.1 (by decide)

end NetMod.RedirectCookies
