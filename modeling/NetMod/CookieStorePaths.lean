import NetMod.CookieStoreRuns

/-!
# Default paths, and which stored paths mean the same

`ResolveCookiePath` cuts the raw path of the URL at its last `/`.  For a path with a second `/` that
is the directory of the request.  A path whose only `/` is its first unit is cut down to nothing,
where the default is `/`: `pathResolved_iff` says that this is the only deviation.

The empty path matters because it is a path of its own for the store and none for `PathMatches`,
which takes it for `/`.  Two paths that start with `/` and match the same request paths are equal
(`eq_of_sameRequests`), so in a store whose cookies were all given a path two entries never stand
for the same requests (`default_paths_exact`).
-/

namespace NetMod.CookieStore

open NetMod.BlitzText NetMod.HttpCookie NetMod.UniqueImage

/-! ### The last slash -/

section

variable {c : UInt16} {d rest : Text}

/-- The text up to its last `c`. -/
theorem slice_append : slice (d ++ c :: rest) 0 d.length = d := by
  rw [slice, List.drop_zero, Nat.sub_zero, List.take_left']
  rfl

theorem exists_last {s : Text} (hc : c ∈ s) : ∃ d rest, s = d ++ c :: rest ∧ c ∉ rest := by
  obtain ⟨as, bs, hsplit, hnot⟩ := List.eq_append_cons_of_mem (List.mem_reverse.mpr hc)
  refine ⟨bs.reverse, as.reverse, ?_, fun h => hnot (List.mem_reverse.mp h)⟩
  rw [← List.reverse_reverse s, hsplit]
  simp

end

/-! ### The default path -/

/-- The default path of a URL: `/` if the raw path is empty or has no `/` after its first unit, and
else the raw path up to its last `/`. -/
def defaultPath (p : Text) : Text :=
  if asc '/' ∈ p.tail then (p.rdropWhile (· ≠ asc '/')).dropLast else lit "/"

/-- The cookie names its path itself. -/
def HasPath (P : Platform) (cookie : THttpCookie) : Prop :=
  startsWith (cookie.getPath P) (lit "/") = true

instance (P : Platform) (cookie : THttpCookie) : Decidable (HasPath P cookie) :=
  inferInstanceAs (Decidable (_ = true))

/-- The raw path of a URL is empty or starts with `/`. -/
def RawPathOk (url : TUrl) : Prop :=
  url.rawPath = [] ∨ startsWith url.rawPath (lit "/") = true

/-- The code does not cut the path down to nothing. -/
def KeepsSlash (P : Platform) (url : TUrl) (cookie : THttpCookie) : Prop :=
  HasPath P cookie ∨ url.rawPath = [] ∨ asc '/' ∈ url.rawPath.tail

theorem startsWith_slash_iff {p : Text} :
    startsWith p (lit "/") = true ↔ ∃ q, p = asc '/' :: q := by
  rw [startsWith_iff]
  constructor
  · intro h
    obtain ⟨q, hq⟩ := h
    exact ⟨q, hq.symm⟩
  · intro h
    obtain ⟨q, rfl⟩ := h
    exact ⟨q, rfl⟩

section

variable {P : Platform} {url : TUrl} {cookie : THttpCookie}

theorem resolveCookiePath_of_hasPath (h : HasPath P cookie) :
    resolveCookiePath P url cookie = cookie.getPath P := by
  have hne : cookie.getPath P ≠ [] := by
    obtain ⟨q, hq⟩ := startsWith_slash_iff.mp h
    rw [hq]
    exact List.cons_ne_nil _ _
  have hstart : startsWith (cookie.getPath P) (lit "/") = true := h
  simp [resolveCookiePath, hne, hstart]

/-- Without a path of its own the cookie gets what stands before the last `/` of the URL's. -/
theorem resolveCookiePath_of_split (h : ¬ HasPath P cookie) {d rest : Text}
    (hp : url.rawPath = d ++ asc '/' :: rest) (hstart : startsWith url.rawPath (lit "/") = true)
    (hrest : asc '/' ∉ rest) : resolveCookiePath P url cookie = d := by
  have hnone : cookie.getPath P = [] ∨ (!startsWith (cookie.getPath P) (lit "/")) = true := by
    rw [Bool.not_eq_true', Bool.eq_false_iff]
    exact Or.inr h
  have hne : ¬ (url.rawPath = [] ∨ (!startsWith url.rawPath (lit "/")) = true) := by
    rw [hstart, hp]
    simp
  simp only [resolveCookiePath]
  rw [if_pos hnone, if_neg hne, hp, findLast_append d hrest]
  exact slice_append

theorem resolveCookiePath_of_empty (h : ¬ HasPath P cookie) (hp : url.rawPath = []) :
    resolveCookiePath P url cookie = lit "/" := by
  have hnone : cookie.getPath P = [] ∨ (!startsWith (cookie.getPath P) (lit "/")) = true := by
    rw [Bool.not_eq_true', Bool.eq_false_iff]
    exact Or.inr h
  simp only [resolveCookiePath]
  rw [if_pos hnone, if_pos (Or.inl hp)]

end

theorem defaultPath_of_split {d rest : Text} (hd : d ≠ []) (hrest : asc '/' ∉ rest) :
    defaultPath (d ++ asc '/' :: rest) = d := by
  have hmem : asc '/' ∈ (d ++ asc '/' :: rest).tail := by
    rw [List.tail_append_of_ne_nil hd]
    simp
  have hdrop : (d ++ asc '/' :: rest).rdropWhile (· ≠ asc '/') = d ++ [asc '/'] := by
    have hrev : (d ++ asc '/' :: rest).reverse = rest.reverse ++ asc '/' :: d.reverse := by simp
    have hskip : ∀ x ∈ rest.reverse, (decide (x ≠ asc '/')) = true := by
      intro x hx
      rw [decide_eq_true_eq]
      exact fun heq => hrest (heq ▸ List.mem_reverse.mp hx)
    rw [List.rdropWhile, hrev, List.dropWhile_append_of_pos hskip, List.dropWhile_cons_of_neg (by simp)]
    simp
  rw [defaultPath, if_pos hmem, hdrop, List.dropLast_concat]

/-- `ResolveCookiePath` does as it should: the cookie's own path or the default one, which starts
with `/` and covers the URL that set the cookie. -/
structure PathResolved (P : Platform) (url : TUrl) (cookie : THttpCookie) : Prop where
  resolved : resolveCookiePath P url cookie =
    if HasPath P cookie then cookie.getPath P else defaultPath url.rawPath
  nonempty : resolveCookiePath P url cookie ≠ []
  rooted : startsWith (resolveCookiePath P url cookie) (lit "/") = true
  covers : ¬ HasPath P cookie →
    pathMatches (requestPath url) (resolveCookiePath P url cookie) = true

/-- **The default path, exactly.** -/
theorem pathResolved_iff {P : Platform} {url : TUrl} {cookie : THttpCookie} (hp : RawPathOk url) :
    PathResolved P url cookie ↔ KeepsSlash P url cookie := by
  constructor
  · intro hresolved
    by_contra hcut
    obtain ⟨hpath, hcut⟩ := not_or.mp hcut
    obtain ⟨hne, hlast⟩ := not_or.mp hcut
    have hstart := hp.resolve_left hne
    obtain ⟨q, hq⟩ := startsWith_slash_iff.mp hstart
    -- the only slash is the first unit, and nothing stands before it
    rw [hq, List.tail_cons] at hlast
    exact hresolved.nonempty (resolveCookiePath_of_split (d := []) hpath hq hstart hlast)
  · intro hkeeps
    by_cases hpath : HasPath P cookie
    · have hres : resolveCookiePath P url cookie = cookie.getPath P :=
        resolveCookiePath_of_hasPath hpath
      refine ⟨by rw [hres, if_pos hpath], ?_, by rw [hres]; exact hpath, fun h => absurd hpath h⟩
      rw [hres]
      obtain ⟨q, hq⟩ := startsWith_slash_iff.mp hpath
      rw [hq]
      exact List.cons_ne_nil _ _
    · rcases hkeeps.resolve_left hpath with hnil | hmem
      · have hres := resolveCookiePath_of_empty hpath hnil
        refine ⟨?_, ?_, ?_, fun _ => ?_⟩
        · rw [hres, if_neg hpath, hnil]
          rfl
        · rw [hres]
          decide
        · rw [hres]
          decide
        · rw [hres, requestPath, if_pos hnil]
          decide
      · have hne : url.rawPath ≠ [] := by
          intro hnil
          rw [hnil] at hmem
          exact absurd hmem List.not_mem_nil
        have hstart := hp.resolve_left hne
        obtain ⟨q, hq⟩ := startsWith_slash_iff.mp hstart
        rw [hq, List.tail_cons] at hmem
        obtain ⟨d, rest, hsplit, hrest⟩ := exists_last hmem
        have hraw : url.rawPath = (asc '/' :: d) ++ asc '/' :: rest := by
          rw [hq, hsplit, List.cons_append]
        have hres := resolveCookiePath_of_split hpath hraw hstart hrest
        refine ⟨?_, ?_, ?_, fun _ => ?_⟩
        · rw [hres, if_neg hpath, hraw, defaultPath_of_split (List.cons_ne_nil _ _) hrest]
        · rw [hres]
          exact List.cons_ne_nil _ _
        · rw [hres]
          exact startsWith_slash_iff.mpr ⟨d, rfl⟩
        · rw [hres, requestPath, if_neg hne, pathMatches_iff]
          exact Or.inr (Or.inr ⟨asc '/' :: rest, hraw, Or.inr ⟨rest, rfl⟩⟩)

/-! ### Paths that match the same requests -/

/-- The two paths match the same request paths. -/
def SameRequests (a b : Text) : Prop :=
  ∀ p, startsWith p (lit "/") = true → (pathMatches p a = true ↔ pathMatches p b = true)

/-- A path that covers another is a prefix of it. -/
theorem prefix_of_pathMatches {a b : Text} (h : pathMatches b a = true) : a <+: b := by
  rcases pathMatches_iff.mp h with rfl | rfl | ⟨rest, rfl, -⟩
  · exact List.nil_prefix
  · exact List.prefix_rfl
  · exact List.prefix_append _ _

/-- **Rooted paths that match the same requests are equal.** -/
theorem eq_of_sameRequests {a b : Text} (ha : startsWith a (lit "/") = true)
    (hb : startsWith b (lit "/") = true) (h : SameRequests a b) : a = b := by
  have hself : ∀ p, pathMatches p p = true := fun p => pathMatches_iff.mpr (Or.inr (Or.inl rfl))
  have hab : a <+: b := prefix_of_pathMatches ((h b hb).mpr (hself b))
  have hba : b <+: a := prefix_of_pathMatches ((h a ha).mp (hself a))
  exact hab.eq_of_length_le hba.length_le

/-- Two entries of one name and domain whose paths match the same requests have one path, and are
one entry. -/
def PathsIdentify (P : Platform) (s : THttpCookieStore) : Prop :=
  ∀ e e', Holds P s e → Holds P s e' → e.cookie.name = e'.cookie.name →
    P.toLower e.domain = P.toLower e'.domain → SameRequests e.path e'.path →
      e.path = e'.path ∧ e = e'

/-- The resolved path is rooted wherever the code does not cut it down to nothing. -/
theorem resolved_rooted {P : Platform} {url : TUrl} {cookie : THttpCookie} (hp : RawPathOk url)
    (h : KeepsSlash P url cookie) : startsWith (resolveCookiePath P url cookie) (lit "/") = true :=
  ((pathResolved_iff hp).mpr h).rooted

theorem pathsIdentify_runStore {P : Platform} {h : History}
    (hadds : ∀ t url cookie, (t, StoreOp.add url cookie) ∈ h →
      RawPathOk url ∧ KeepsSlash P url cookie) : PathsIdentify P (runStore P h) := by
  intro e e' he he' hname hdomain hsame
  have hrooted : ∀ x, Holds P (runStore P h) x → startsWith x.path (lit "/") = true := by
    intro x hx
    obtain ⟨t, url, hmem, horigin, -⟩ := stored_origin hx
    obtain ⟨hp, hkeeps⟩ := hadds t url x.cookie hmem
    rw [horigin]
    exact resolved_rooted hp hkeeps
  have hpath := eq_of_sameRequests (hrooted e he) (hrooted e' he') hsame
  refine ⟨hpath, ?_⟩
  have hid : e.identity P = e'.identity P := by
    rw [TCachedCookie.identity, TCachedCookie.identity, hname, hdomain, hpath]
  rw [Holds, ← hdomain] at he'
  exact eq_of_mem_of_key ((storeInv_runStore P h).unique _) he he' hid

/-- **Default paths, exactly.**  A cookie gets the path it should iff it has one, or the URL's is
empty or has a second `/`; and after every history whose cookies all do, entries of one name and
domain that match the same requests are one entry. -/
theorem default_paths_exact (P : Platform) :
    (∀ url cookie, RawPathOk url → (PathResolved P url cookie ↔ KeepsSlash P url cookie)) ∧
    ∀ h : History, (∀ t url cookie, (t, StoreOp.add url cookie) ∈ h →
      RawPathOk url ∧ KeepsSlash P url cookie) → PathsIdentify P (runStore P h) :=
  ⟨fun _ _ hp => pathResolved_iff hp, fun _ hadds => pathsIdentify_runStore hadds⟩

/-- A page of the site's root. -/
def rootPageUrl : TUrl :=
  ⟨lit "https", lit "www.example.com", lit "/login", lit "https://www.example.com/login"⟩

/-- The same cookie with the path that `/login` should have given it. -/
def rootedSidCookie : THttpCookie := { sidCookie with attributes := [(lit "Path", lit "/")] }

theorem sameRequests_nil_slash : SameRequests [] (lit "/") := by
  intro p hp
  obtain ⟨q, rfl⟩ := startsWith_slash_iff.mp hp
  refine iff_of_true rfl (pathMatches_iff.mpr (Or.inr (Or.inr ⟨q, rfl, Or.inl ?_⟩)))
  exact List.suffix_rfl

/-- A cookie set by `/login` gets the empty path, and stays beside the one with `Path=/`. -/
theorem not_every_path_resolved :
    (¬ ∀ (P : Platform) (url : TUrl) (cookie : THttpCookie), RawPathOk url →
      PathResolved P url cookie) ∧
    ¬ ∀ (P : Platform) (h : History),
      (∀ t url cookie, (t, StoreOp.add url cookie) ∈ h → RawPathOk url) →
        PathsIdentify P (runStore P h) := by
  have hok : RawPathOk rootPageUrl := Or.inr (by decide)
  constructor
  · intro hall
    exact (hall asciiPlatform rootPageUrl sidCookie hok).nonempty (by decide +kernel)
  · intro hall
    have hurl : ∀ t url cookie, (t, StoreOp.add url cookie) ∈
        [((1000 : UInt64), StoreOp.add rootPageUrl sidCookie),
          (2000, .add rootPageUrl rootedSidCookie)] → RawPathOk url := by
      intro t url cookie hmem
      simp only [List.mem_cons, Prod.mk.injEq, StoreOp.add.injEq, List.not_mem_nil, or_false] at hmem
      rcases hmem with ⟨-, rfl, -⟩ | ⟨-, rfl, -⟩ <;> exact hok
    have hsame := hall asciiPlatform _ hurl
      (entryOf asciiPlatform 1000 rootPageUrl sidCookie)
      (entryOf asciiPlatform 2000 rootPageUrl rootedSidCookie)
      (by rw [Holds]; decide +kernel) (by rw [Holds]; decide +kernel) rfl (by decide +kernel)
      sameRequests_nil_slash
    exact absurd hsame.1 (by decide +kernel)

end NetMod.CookieStore
