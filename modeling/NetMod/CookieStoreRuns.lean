import NetMod.CookieStoreEffects
import NetMod.Lib.LiveHistory

/-!
# Runs of the cookie store: no cookie leaks, and which cookies are delivered

A run is a list of stamped operations applied to the empty store.  One step changes the entries
exactly as `Kills` and `Creates` say (`exactStep`), so the entries of a run are those a history
keeps alive.  Soundness of `Match` reads that equivalence from left to right: what is returned was
accepted by an `Add` that nothing superseded, is not expired, and the path, scheme and host tests
allow it.

The other direction delivers every accepted cookie.  It reaches exactly the cookies without a
`Domain` attribute: with one, `Add` compares a character code's numeral with `"."` and refuses the
cookie in every state.
-/

namespace NetMod.CookieStore

open NetMod.BlitzText NetMod.HttpCookie NetMod.LiveHistory

inductive StoreOp where
  | add (url : TUrl) (cookie : THttpCookie)
  | remove (url : TUrl) (cookie : THttpCookie)
  | matchUrl (url : TUrl)
  | clear

/-- An operation and the clock reading at which it runs. -/
abbrev StampedOp := UInt64 × StoreOp

abbrev History := List StampedOp

def applyOp (P : Platform) (s : THttpCookieStore) : StampedOp → THttpCookieStore
  | (now, .add url cookie) => (add P now s url cookie).1
  | (_, .remove url cookie) => (remove P s url cookie).1
  | (now, .matchUrl url) => (matchUrl P now s url).1
  | (_, .clear) => (clear s).1

/-- The store after a history. -/
def runStore (P : Platform) (h : History) : THttpCookieStore := h.foldl (applyOp P) {}

/-- The operation supersedes the entry `e`: it adds the same name, lower-cased domain and path,
asks for the removal of `e`, or clears the store. -/
def Supersedes (P : Platform) : StampedOp → TCachedCookie → Prop
  | (now, .add url cookie), e =>
    resolveCookieDomain P url cookie ≠ [] ∧ e.identity P = (entryOf P now url cookie).identity P
  | (_, .remove url cookie), e => Covers P url cookie e
  | (_, .matchUrl _), _ => False
  | (_, .clear), _ => True

/-- The operation sweeps the expired entry `e` out. -/
def Sweeps (P : Platform) : StampedOp → TCachedCookie → Prop
  | (now, .matchUrl url), e =>
    url.host ≠ [] ∧ P.toLower e.domain ∈ domainWalk (P.toLower url.host) ∧
      e.isExpired P now = true
  | _, _ => False

def Kills (P : Platform) (op : StampedOp) (e : TCachedCookie) : Prop :=
  Supersedes P op e ∨ Sweeps P op e

/-- The operation is an `Add` that is accepted and stores `e`. -/
def Creates (P : Platform) : StampedOp → TCachedCookie → Prop
  | (now, .add url cookie), e =>
    resolveCookieDomain P url cookie ≠ [] ∧ e = entryOf P now url cookie ∧
      e.isExpired P now = false
  | _, _ => False

/-- `e` is in the store, under its own lower-cased domain. -/
def Holds (P : Platform) (s : THttpCookieStore) (e : TCachedCookie) : Prop :=
  e ∈ listAt s.cookies (P.toLower e.domain)

theorem storeInv_applyOp {P : Platform} {s : THttpCookieStore} (hs : StoreInv P s.cookies)
    (op : StampedOp) : StoreInv P (applyOp P s op).cookies := by
  obtain ⟨now, op⟩ := op
  cases op with
  | add url cookie => exact storeInv_add hs now url cookie
  | remove url cookie => exact hs.of_sublist (listAt_remove_sublist hs url cookie)
  | matchUrl url => exact hs.of_sublist (listAt_matchUrl_sublist P now s url)
  | clear =>
    apply hs.of_sublist
    intro k
    show (listAt (clear s).1.cookies k).Sublist _
    rw [listAt_clear]
    exact List.nil_sublist _

/-- **One operation, exactly.** -/
theorem exactStep (P : Platform) :
    ExactStep (applyOp P) (fun s => StoreInv P s.cookies) (Holds P) (Kills P) (Creates P) where
  keeps s op hs := storeInv_applyOp hs op
  mem s op e hs := by
    obtain ⟨now, op⟩ := op
    cases op with
    | add url cookie =>
      by_cases hd : resolveCookieDomain P url cookie = []
      · simp [applyOp, add_rejected P now s url cookie hd, Kills, Supersedes, Sweeps, Creates, hd]
      · have hmem := mem_listAt_add hs now url cookie (P.toLower e.domain) e hd
        simp only [applyOp, Holds, Kills, Supersedes, Sweeps, Creates, ne_eq, hd, not_false_eq_true,
          true_and, or_false]
        rw [hmem]
        constructor
        · intro hor
          rcases hor with h | ⟨-, rfl, hx⟩
          · exact Or.inl h
          · exact Or.inr ⟨rfl, hx⟩
        · intro hor
          rcases hor with h | ⟨rfl, hx⟩
          · exact Or.inl h
          · exact Or.inr ⟨rfl, rfl, hx⟩
    | remove url cookie =>
      simpa [applyOp, Holds, Kills, Supersedes, Sweeps, Creates] using
        mem_listAt_remove hs url cookie (P.toLower e.domain) e
    | matchUrl url =>
      simpa only [applyOp, Holds, Kills, Supersedes, Sweeps, Creates, false_or, or_false] using
        mem_listAt_matchUrl hs now url (P.toLower e.domain) e
    | clear => simp [applyOp, Holds, Kills, Supersedes, Sweeps, Creates, listAt_clear]

theorem storeInv_runStore (P : Platform) (h : History) : StoreInv P (runStore P h).cookies :=
  (exactStep P).inv_run h {} (storeInv_empty P)

/-- The entries of a run are those its history keeps alive. -/
theorem holds_runStore_iff (P : Platform) (h : History) (e : TCachedCookie) :
    Holds P (runStore P h) e ↔ Live (Kills P) (Creates P) h e :=
  (exactStep P).holds_run_iff (storeInv_empty P) (fun e => by simp [Holds]) h e

/-- Every stored entry was made by an `Add` of the history for its cookie, and was not expired
then. -/
theorem stored_origin {P : Platform} {h : History} {k : Text} {e : TCachedCookie}
    (he : e ∈ listAt (runStore P h).cookies k) :
    ∃ t url, (t, StoreOp.add url e.cookie) ∈ h ∧ e = entryOf P t url e.cookie ∧
      e.isExpired P t = false := by
  have hholds : Holds P (runStore P h) e := by
    rw [Holds, (storeInv_runStore P h).keyed k e he]
    exact he
  obtain ⟨h₁, ⟨t, op⟩, h₂, hsplit, hcreate, -⟩ := (holds_runStore_iff P h e).mp hholds
  have hmem : (t, op) ∈ h := by
    rw [hsplit]
    exact List.mem_append_right _ List.mem_cons_self
  cases op with
  | add url cookie =>
    obtain ⟨-, rfl, hfresh⟩ := hcreate
    exact ⟨t, url, hmem, rfl, hfresh⟩
  | remove url cookie => exact hcreate.elim
  | matchUrl url => exact hcreate.elim
  | clear => exact hcreate.elim

/-! ### What a request path and a host must satisfy -/

/-- `p` is `cookiePath`, or extends it at a `/`; the empty path covers everything. -/
def PathCovers (cookiePath p : Text) : Prop :=
  cookiePath = [] ∨ p = cookiePath ∨
    ∃ rest, p = cookiePath ++ rest ∧ (lit "/" <:+ cookiePath ∨ lit "/" <+: rest)

theorem pathMatches_iff {p cookiePath : Text} :
    pathMatches p cookiePath = true ↔ PathCovers cookiePath p := by
  rw [pathMatches, PathCovers]
  by_cases hnil : cookiePath = []
  · simp [hnil]
  · by_cases heq : p = cookiePath
    · simp [hnil, heq]
    · simp only [hnil, if_false, heq, false_or]
      by_cases hpre : cookiePath <+: p
      · obtain ⟨rest, rfl⟩ := hpre
        have hrest : rest ≠ [] := fun h => heq (by rw [h, List.append_nil])
        obtain ⟨a, as, rfl⟩ := List.exists_cons_of_ne_nil hrest
        have hget : (cookiePath ++ a :: as).getD cookiePath.length 0 = a := by simp
        have hslash : lit "/" <+: a :: as ↔ a = asc '/' := by
          rw [show lit "/" = [asc '/'] from rfl, List.cons_prefix_cons]
          simp [eq_comm]
        rw [if_pos (startsWith_iff.mpr (List.prefix_append _ _)), Bool.or_eq_true, endsWith_iff,
          hget, beq_iff_eq, ← hslash]
        constructor
        · intro h
          exact ⟨_, rfl, h⟩
        · intro hcovers
          obtain ⟨rest, hr, h⟩ := hcovers
          rw [List.append_cancel_left hr]
          exact h
      · have hstart : startsWith p cookiePath = false := by
          rw [Bool.eq_false_iff, ne_eq, startsWith_iff]
          exact hpre
        rw [hstart, if_neg (by simp)]
        simp only [Bool.false_eq_true, false_iff, not_exists, not_and]
        intro rest heq
        subst heq
        exact absurd (List.prefix_append _ _) hpre

/-- The Domain attribute less one leading dot. -/
def stripDot (d : Text) : Text := if startsWith d (lit ".") then d.drop 1 else d

/-- `host` is `d` or a subdomain of it, ignoring case. -/
def HostWithin (P : Platform) (host d : Text) : Prop :=
  P.toLower host = P.toLower d ∨ lit "." ++ P.toLower d <:+ P.toLower host

/-- The host that set the cookie and the host it is sent to are related as the cookie asks. -/
def DomainAllows (P : Platform) (c : THttpCookie) (setBy sentTo : TUrl) : Prop :=
  if c.getDomain P = [] ∨ endsWith (c.getDomain P) (lit ".") = true then
    P.toLower sentTo.host = P.toLower setBy.host
  else
    HostWithin P setBy.host (stripDot (c.getDomain P)) ∧
      HostWithin P sentTo.host (stripDot (c.getDomain P))

theorem isSecureScheme_iff {P : Platform} {u : TUrl} :
    u.isSecureScheme P = true ↔
      P.toLower u.scheme = lit "https" ∨ P.toLower u.scheme = lit "wss" := by
  simp [TUrl.isSecureScheme]

/-- **Soundness of `Match` over runs.**  A returned cookie was accepted by an earlier `Add` that no
later operation superseded; it is not expired, a secure one goes to a secure scheme, the request
path extends its stored path at a `/`, and the two hosts are related as its Domain attribute asks. -/
theorem match_sound (P : Platform) (h : History) (now : UInt64) (u : TUrl) (c : THttpCookie)
    (hc : c ∈ (matchUrl P now (runStore P h) u).2) :
    ∃ h₁ t u₀ h₂, h = h₁ ++ (t, .add u₀ c) :: h₂ ∧
      (add P t (runStore P h₁) u₀ c).2 = true ∧
      (∀ op ∈ h₂, ¬ Supersedes P op (entryOf P t u₀ c)) ∧
      (entryOf P t u₀ c).isExpired P now = false ∧
      (c.isSecure P = true → P.toLower u.scheme = lit "https" ∨ P.toLower u.scheme = lit "wss") ∧
      PathCovers (resolveCookiePath P u₀ c) (requestPath u) ∧
      DomainAllows P c u₀ u := by
  obtain ⟨-, k, -, e, he, ⟨hexp, hsec, hdom, hpath⟩, hcookie⟩ := mem_matchUrl_result.mp hc
  have hholds : Holds P (runStore P h) e := by
    rw [Holds, (storeInv_runStore P h).keyed k e he]
    exact he
  obtain ⟨h₁, ⟨t, op⟩, h₂, hsplit, hcreate, hlive⟩ := (holds_runStore_iff P h e).mp hholds
  cases op with
  | add u₀ c₀ =>
    obtain ⟨hres, rfl, hfresh⟩ := hcreate
    obtain rfl : c₀ = c := hcookie
    have hattr : c₀.getDomain P = [] := by
      by_contra hne
      exact hres (by rw [resolveCookieDomain_eq, if_neg hne])
    have hdomain : (entryOf P t u₀ c₀).domain = u₀.host := by
      show resolveCookieDomain P u₀ c₀ = u₀.host
      rw [resolveCookieDomain_eq, if_pos hattr]
    refine ⟨h₁, t, u₀, h₂, hsplit, ?_, ?_, hexp, ?_, pathMatches_iff.mp hpath, ?_⟩
    · exact (add_accepts_iff P t _ u₀ c₀).mpr ⟨hres, hfresh⟩
    · exact fun op hop hsup => hlive op hop (Or.inl hsup)
    · exact fun hs => isSecureScheme_iff.mp (hsec hs)
    · change domainMatches P u.host (entryOf P t u₀ c₀).domain (c₀.getDomain P) = true at hdom
      rw [domainMatches, hattr, if_pos (Or.inl rfl), beq_iff_eq, hdomain] at hdom
      rw [DomainAllows, if_pos (Or.inl hattr)]
      exact hdom
  | remove u₀ c₀ => exact hcreate.elim
  | matchUrl u₀ => exact hcreate.elim
  | clear => exact hcreate.elim

/-- A session cookie set by `https://www.example.com/a/login` without a Domain attribute. -/
def wwwUrl : TUrl :=
  ⟨lit "https", lit "www.example.com", lit "/a/login", lit "https://www.example.com/a/login"⟩

def sidCookie : THttpCookie := { name := lit "sid", value := lit "1" }

theorem match_sound_sid :
    ∃ h₁ t u₀ h₂,
      [((1000 : UInt64), StoreOp.add wwwUrl sidCookie)] = h₁ ++ (t, .add u₀ sidCookie) :: h₂ ∧
      (add asciiPlatform t (runStore asciiPlatform h₁) u₀ sidCookie).2 = true ∧
      (∀ op ∈ h₂, ¬ Supersedes asciiPlatform op (entryOf asciiPlatform t u₀ sidCookie)) ∧
      (entryOf asciiPlatform t u₀ sidCookie).isExpired asciiPlatform 5000 = false ∧
      (sidCookie.isSecure asciiPlatform = true →
        asciiPlatform.toLower wwwUrl.scheme = lit "https" ∨
          asciiPlatform.toLower wwwUrl.scheme = lit "wss") ∧
      PathCovers (resolveCookiePath asciiPlatform u₀ sidCookie) (requestPath wwwUrl) ∧
      DomainAllows asciiPlatform sidCookie u₀ wwwUrl :=
  match_sound asciiPlatform [(1000, .add wwwUrl sidCookie)] 5000 wwwUrl sidCookie (by decide +kernel)

/-! ### Completeness -/

/-- The host a cookie may be sent to: the setting host without a Domain attribute, else the
attribute's domain or a subdomain of it. -/
def HostAllows (P : Platform) (c : THttpCookie) (setBy sentTo : TUrl) : Prop :=
  if c.getDomain P = [] then P.toLower sentTo.host = P.toLower setBy.host
  else HostWithin P sentTo.host (stripDot (c.getDomain P))

/-- The setting host may set the cookie: it has no Domain attribute, or one with an inner dot that
names the host or a parent of it. -/
def MaySet (P : Platform) (c : THttpCookie) (setBy : TUrl) : Prop :=
  c.getDomain P = [] ∨
    (contains (stripDot (c.getDomain P)) (lit ".") = true ∧
      endsWith (stripDot (c.getDomain P)) (lit ".") = false ∧
      HostWithin P setBy.host (stripDot (c.getDomain P)))

/-- The cookie is accepted after the history `h`, and every later `Match` whose URL it applies to
returns it until it expires or is superseded. -/
def Delivered (P : Platform) (h : History) (t : UInt64) (u₀ : TUrl) (c : THttpCookie) : Prop :=
  (add P t (runStore P h) u₀ c).2 = true ∧
    ∀ h₂ now u, (h ++ (t, .add u₀ c) :: h₂).Pairwise (fun a b => a.1 ≤ b.1) →
      (∀ op ∈ h ++ (t, .add u₀ c) :: h₂, op.1 ≤ now) →
      (∀ op ∈ h₂, ¬ Supersedes P op (entryOf P t u₀ c)) →
      (entryOf P t u₀ c).isExpired P now = false →
      HostAllows P c u₀ u →
      (c.isSecure P = true →
        P.toLower u.scheme = lit "https" ∨ P.toLower u.scheme = lit "wss") →
      PathCovers (resolveCookiePath P u₀ c) (requestPath u) →
      c ∈ (matchUrl P now (runStore P (h ++ (t, .add u₀ c) :: h₂)) u).2

/-- An entry that is neither superseded nor expired is still in the store. -/
theorem holds_of_not_superseded {P : Platform} {h h₂ : History} {t now : UInt64} {u₀ : TUrl}
    {c : THttpCookie} (hres : resolveCookieDomain P u₀ c ≠ [])
    (hfresh : (entryOf P t u₀ c).isExpired P t = false) (hnow : ∀ op ∈ h₂, op.1 ≤ now)
    (hsup : ∀ op ∈ h₂, ¬ Supersedes P op (entryOf P t u₀ c))
    (hexp : (entryOf P t u₀ c).isExpired P now = false) :
    Holds P (runStore P (h ++ (t, .add u₀ c) :: h₂)) (entryOf P t u₀ c) := by
  refine (holds_runStore_iff P _ _).mpr ⟨h, (t, .add u₀ c), h₂, rfl, ⟨hres, rfl, hfresh⟩, ?_⟩
  intro timed hop hends
  obtain ⟨t', op⟩ := timed
  rcases hends with hs | hs
  · exact hsup _ hop hs
  · cases op with
    | matchUrl u =>
      have hx := TCachedCookie.isExpired_mono P (hnow _ hop) hs.2.2
      rw [hexp] at hx
      exact Bool.false_ne_true hx
    | add u c' => exact hs
    | remove u c' => exact hs
    | clear => exact hs

/-- **Completeness, exactly.**  An unexpired cookie is accepted and delivered as long as it should
be iff its URL has a host and it has no Domain attribute. -/
theorem delivered_iff (P : Platform) (h : History) (t : UInt64) (u₀ : TUrl) (c : THttpCookie)
    (hfresh : (entryOf P t u₀ c).isExpired P t = false) :
    Delivered P h t u₀ c ↔ u₀.host ≠ [] ∧ c.getDomain P = [] := by
  have hres := resolveCookieDomain_eq P u₀ c
  constructor
  · intro hdelivered
    obtain ⟨hadd, -⟩ := hdelivered
    have hne := ((add_accepts_iff P t _ u₀ c).mp hadd).1
    by_cases hattr : c.getDomain P = []
    · rw [hres, if_pos hattr] at hne
      exact ⟨hne, hattr⟩
    · rw [hres, if_neg hattr] at hne
      exact absurd rfl hne
  · intro hurl
    obtain ⟨hhost, hattr⟩ := hurl
    rw [if_pos hattr] at hres
    have hne : resolveCookieDomain P u₀ c ≠ [] := by rw [hres]; exact hhost
    refine ⟨(add_accepts_iff P t _ u₀ c).mpr ⟨hne, hfresh⟩, ?_⟩
    intro h₂ now u _ hnow hsup hexp hallow hsec hpath
    have hholds := holds_of_not_superseded (h := h) hne hfresh
      (fun op hop => hnow op (by simp [hop])) hsup hexp
    rw [HostAllows, if_pos hattr] at hallow
    have hu : u.host ≠ [] := by
      intro h0
      rw [h0] at hallow
      exact hhost (by simpa using hallow.symm)
    have hkey : P.toLower (entryOf P t u₀ c).domain = P.toLower u.host := by
      show P.toLower (resolveCookieDomain P u₀ c) = _
      rw [hres, hallow]
    refine mem_matchUrl_result.mpr ⟨hu, P.toLower u.host, mem_domainWalk_self (by simpa using hu),
      entryOf P t u₀ c, hkey ▸ hholds, ⟨hexp, ?_, ?_, pathMatches_iff.mpr hpath⟩, rfl⟩
    · exact fun hs => isSecureScheme_iff.mpr (hsec hs)
    · show domainMatches P u.host (entryOf P t u₀ c).domain (c.getDomain P) = true
      rw [domainMatches, hattr, if_pos (Or.inl rfl), beq_iff_eq, hkey]

theorem delivered_sid : Delivered asciiPlatform [] 1000 wwwUrl sidCookie :=
  (delivered_iff asciiPlatform [] 1000 wwwUrl sidCookie (by decide +kernel)).mpr (by decide +kernel)

/-- `Domain=example.com` set by `www.example.com` is refused. -/
theorem not_every_settable_delivered :
    ¬ ∀ (P : Platform) (h : History) (t : UInt64) (u₀ : TUrl) (c : THttpCookie),
      MaySet P c u₀ → (entryOf P t u₀ c).isExpired P t = false → Delivered P h t u₀ c := by
  intro hall
  have hset : MaySet asciiPlatform
      { name := lit "sid", value := lit "1", attributes := [(lit "Domain", lit "example.com")] }
      wwwUrl := Or.inr ⟨by decide +kernel, by decide +kernel, Or.inr (by decide +kernel)⟩
  have hdel := hall asciiPlatform [] 1000 wwwUrl _ hset (by decide +kernel)
  exact absurd hdel.1 (by decide +kernel)

end NetMod.CookieStore
