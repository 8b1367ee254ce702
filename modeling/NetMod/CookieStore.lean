import Mathlib.Data.List.AList
import NetMod.HttpCookie
import NetMod.Lib.UniqueImage

/-!
# `THttpCookieStore`: domain and path resolution, `Add`, `Match`, `Remove`, `Clear`

The map from lower-cased domains to lists of entries is an `AList`; `TArrayList.Remove(x)` removes
the first element whose `Compare` with `x` is zero.  Every operation reads the clock once.

`Match` walks the parent domains of the URL's host.  The walk is `domainWalk`, given as the list of
the keys it visits; a step strips at least one unit, so the length of the host is enough fuel
(`domainWalk_cons`).
-/

namespace NetMod.CookieStore

open NetMod.BlitzText NetMod.HttpCookie

/-! ### Domain and path helpers -/

def allowDomain (domain : Text) : Bool :=
  let domain := if endsWith domain (lit ".") then domain.take (domain.length - 1) else domain
  contains domain (lit ".")

/-- `subDomain[beforeMatch] = "."` compares the numeral of a character code with a dot. -/
def isSameOrSubDomain (P : Platform) (subDomain domain : Text) : Bool :=
  if !contains (P.toLower subDomain) (P.toLower domain) then false
  else
    let beforeMatch : Int := subDomain.length - domain.length - 1
    if beforeMatch < 0 then false
    else ofNat (subDomain.getD beforeMatch.toNat 0).toNat == lit "."

/-- **The subdomain test accepts nothing**: no numeral is a dot. -/
theorem isSameOrSubDomain_eq_false (P : Platform) (subDomain domain : Text) :
    isSameOrSubDomain P subDomain domain = false := by
  simp only [isSameOrSubDomain]
  split
  · rfl
  · split
    · rfl
    · exact beq_eq_false_iff_ne.mpr (ofNat_ne_dot _)

/-- `Null` is `[]`. -/
def resolveCookieDomain (P : Platform) (url : TUrl) (cookie : THttpCookie) : Text :=
  let urlDomain := url.host
  if urlDomain = [] then []
  else
    let cookieDomain := cookie.getDomain P
    if cookieDomain = [] then urlDomain
    else
      -- a leading dot only says that subdomains are allowed
      let resolvedDomain :=
        if startsWith cookieDomain (lit ".") then cookieDomain.drop 1 else cookieDomain
      let resolvedDomain :=
        if endsWith resolvedDomain (lit ".") then urlDomain else resolvedDomain
      if !allowDomain resolvedDomain then []
      else if !isSameOrSubDomain P urlDomain resolvedDomain then []
      else resolvedDomain

def resolveCookiePath (P : Platform) (url : TUrl) (cookie : THttpCookie) : Text :=
  let resolvedPath := cookie.getPath P
  if resolvedPath = [] ∨ !startsWith resolvedPath (lit "/") then
    -- the directory of the request URL
    let urlPath := url.rawPath
    if urlPath = [] ∨ !startsWith urlPath (lit "/") then lit "/"
    else
      match findLast urlPath (asc '/') with
      | some lastSlash => slice urlPath 0 lastSlash
      | none => lit "/"
  else resolvedPath

def domainMatches (P : Platform) (urlDomain domain cookieDomain : Text) : Bool :=
  if cookieDomain = [] ∨ endsWith cookieDomain (lit ".") then
    P.toLower urlDomain == P.toLower domain
  else isSameOrSubDomain P urlDomain cookieDomain

def pathMatches (urlPath cookiePath : Text) : Bool :=
  if cookiePath = [] then true
  else if urlPath = cookiePath then true
  else if startsWith urlPath cookiePath then
    endsWith cookiePath (lit "/") || urlPath.getD cookiePath.length 0 == asc '/'
  else false

/-- `Null` is `[]`. -/
def parentDomain (domain : Text) : Text :=
  match find domain (asc '.') with
  | none => []
  | some sub =>
    let domain := domain.drop (sub + 1)
    if find domain (asc '.') = none then [] else domain

/-- The keys visited by `While domain … domain = ParentDomain(domain)`. -/
def domainWalkFuel : Nat → Text → List Text
  | 0, _ => []
  | _, [] => []
  | fuel + 1, domain => domain :: domainWalkFuel fuel (parentDomain domain)

def domainWalk (domain : Text) : List Text := domainWalkFuel domain.length domain

theorem parentDomain_length_lt {d : Text} (hd : d ≠ []) : (parentDomain d).length < d.length := by
  have hpos : 0 < d.length := List.length_pos_iff.mpr hd
  rw [parentDomain]
  split
  · exact hpos
  · dsimp only
    split
    · exact hpos
    · rw [List.length_drop]
      omega

theorem domainWalkFuel_of_le :
    ∀ (n m : Nat) (d : Text), d.length ≤ n → d.length ≤ m →
      domainWalkFuel n d = domainWalkFuel m d := by
  intro n
  induction n with
  | zero =>
    intro m d hn _
    have hd : d = [] := List.length_eq_zero_iff.mp (by omega)
    subst hd
    cases m <;> rfl
  | succ n ih =>
    intro m d hn hm
    cases d with
    | nil => cases m <;> rfl
    | cons a d =>
      cases m with
      | zero => simp at hm
      | succ m =>
        have hlt := parentDomain_length_lt (d := a :: d) (by simp)
        simp only [domainWalkFuel]
        rw [ih m (parentDomain (a :: d)) (by omega) (by omega)]

/-- The walk unfolds as the loop does. -/
theorem domainWalk_cons {d : Text} (hd : d ≠ []) :
    domainWalk d = d :: domainWalk (parentDomain d) := by
  cases d with
  | nil => exact absurd rfl hd
  | cons a d =>
    have hlt := parentDomain_length_lt (d := a :: d) (by simp)
    simp only [List.length_cons] at hlt
    simp only [domainWalk, List.length_cons, domainWalkFuel]
    rw [domainWalkFuel_of_le d.length (parentDomain (a :: d)).length _ (by omega) (by omega)]

theorem mem_domainWalk_self {d : Text} (hd : d ≠ []) : d ∈ domainWalk d := by
  rw [domainWalk_cons hd]
  exact List.mem_cons_self

/-! ### The store -/

/-- `THashMap<String, TArrayList<TCachedCookie>>`. -/
abbrev CookieMap := AList fun _ : Text => List TCachedCookie

structure THttpCookieStore where
  cookies : CookieMap := ∅

/-- `TArrayList.Remove(x)`: the first element whose `Compare` with `x` is zero. -/
def removeCookie (P : Platform) (list : List TCachedCookie) (x : TCachedCookie) :
    List TCachedCookie :=
  list.eraseP fun e => decide (e.compare P x = 0)

def add (P : Platform) (now : UInt64) (s : THttpCookieStore) (url : TUrl) (cookie : THttpCookie) :
    THttpCookieStore × Bool :=
  let domain := resolveCookieDomain P url cookie
  if domain = [] then (s, false)
  else
    let path := resolveCookiePath P url cookie
    let cookieCache := TCachedCookie.new now cookie url domain path
    let key := P.toLower domain
    match s.cookies.lookup key with
    | some list =>
      let list := removeCookie P list cookieCache
      if cookieCache.isExpired P now then (⟨s.cookies.insert key list⟩, false)
      else (⟨s.cookies.insert key (list ++ [cookieCache])⟩, true)
    | none =>
      if cookieCache.isExpired P now then (s, false)
      else (⟨s.cookies.insert key [cookieCache]⟩, true)

/-- `All`: the unexpired cookies of every list. -/
def all (P : Platform) (now : UInt64) (s : THttpCookieStore) : List THttpCookie :=
  s.cookies.entries.flatMap fun entry =>
    (entry.2.filter fun e => !e.isExpired P now).map (·.cookie)

/-- The locals `result` and `expired` of `Match`. -/
structure MatchAcc where
  result : List THttpCookie := []
  expired : CookieMap := ∅

/-- The body of the inner loop of `Match`. -/
def matchStep (P : Platform) (now : UInt64) (urlDomain path : Text) (isSecure : Bool)
    (domain : Text) (acc : MatchAcc) (cookie : TCachedCookie) : MatchAcc :=
  if cookie.isExpired P now then
    let expiredList := (acc.expired.lookup domain).getD []
    { acc with expired := acc.expired.insert domain (expiredList ++ [cookie]) }
  else if cookie.cookie.isSecure P && !isSecure then acc
  else if !domainMatches P urlDomain cookie.domain (cookie.cookie.getDomain P) then acc
  else if !pathMatches path cookie.path then acc
  else { acc with result := acc.result ++ [cookie.cookie] }

/-- The body of the domain loop of `Match`. -/
def matchDomain (P : Platform) (now : UInt64) (urlDomain path : Text) (isSecure : Bool)
    (cookies : CookieMap) (acc : MatchAcc) (domain : Text) : MatchAcc :=
  match cookies.lookup domain with
  | some cached => cached.foldl (matchStep P now urlDomain path isSecure domain) acc
  | none => acc

/-- The first phase of `Match`: collect the result and the expired entries. -/
def matchTraverse (P : Platform) (now : UInt64) (s : THttpCookieStore) (url : TUrl) : MatchAcc :=
  let path := if url.rawPath = [] then lit "/" else url.rawPath
  (domainWalk (P.toLower url.host)).foldl
    (matchDomain P now url.host path (url.isSecureScheme P) s.cookies) {}

/-- The body of the second phase of `Match`, for one entry of `expired`. -/
def sweepEntry (P : Platform) (cookies : CookieMap) (entry : (_ : Text) × List TCachedCookie) :
    CookieMap :=
  match cookies.lookup entry.1 with
  | some cached =>
    let cached := entry.2.foldl (removeCookie P) cached
    if cached = [] then cookies.erase entry.1 else cookies.insert entry.1 cached
  | none => cookies

/-- The second phase of `Match`: drop what was collected as expired. -/
def sweep (P : Platform) (expired : CookieMap) (s : THttpCookieStore) : THttpCookieStore :=
  ⟨expired.entries.foldl (sweepEntry P) s.cookies⟩

/-- `Match`. -/
def matchUrl (P : Platform) (now : UInt64) (s : THttpCookieStore) (url : TUrl) :
    THttpCookieStore × List THttpCookie :=
  if url.host = [] then (s, [])
  else
    let acc := matchTraverse P now s url
    (sweep P acc.expired s, acc.result)

/-- How a loop of `Remove` ended: with the list it left, and whether it deleted something. -/
structure RemoveScan where
  list : List TCachedCookie
  found : Bool
  raised : Bool
deriving DecidableEq

/-- The `For` loop of `Remove`.  `kept` is `list[..i]` and the argument is `list[i..]`; the limit of
the loop is the count of the list on entry, so after a deletion the last rounds index past the end
and raise. -/
def removeScan (hit : TCachedCookie → Bool) (limit : Nat) (kept : List TCachedCookie)
    (found : Bool) : List TCachedCookie → RemoveScan
  | [] => ⟨kept, found, decide (kept.length < limit)⟩
  | x :: rest =>
    if kept.length < limit then
      if hit x then removeScan hit limit kept true rest
      else removeScan hit limit (kept ++ [x]) found rest
    else ⟨kept ++ x :: rest, found, false⟩

/-- `While True … If Not found Exit`: a pass that deletes nothing ends it. -/
def removePasses (hit : TCachedCookie → Bool) :
    Nat → Bool → List TCachedCookie → RemoveScan
  | 0, removed, list => ⟨list, removed, false⟩
  | fuel + 1, removed, list =>
    let scan := removeScan hit list.length [] false list
    if scan.raised then ⟨scan.list, true, true⟩
    else if scan.found then removePasses hit fuel true scan.list
    else ⟨scan.list, removed, false⟩

/-- `cachedCookie` is the one `Remove(url, cookie)` is asked for. -/
def removeHit (P : Platform) (url : TUrl) (cookie : THttpCookie) (e : TCachedCookie) : Bool :=
  P.toLower url.host = P.toLower e.url.host ∧
    e.path = resolveCookiePath P url cookie ∧ e.cookie.name = cookie.name

/-- The domain loop of `Remove`; `none` is the exception of an index past the end. -/
def removeWalk (P : Platform) (hit : TCachedCookie → Bool) :
    List Text → CookieMap → Bool → CookieMap × Option Bool
  | [], cookies, removed => (cookies, some removed)
  | domain :: rest, cookies, removed =>
    match cookies.lookup (P.toLower domain) with
    | none => removeWalk P hit rest cookies removed
    | some list =>
      let scan := removePasses hit (list.length + 1) removed list
      let cookies := cookies.insert (P.toLower domain) scan.list
      if scan.raised then (cookies, none) else removeWalk P hit rest cookies scan.found

/-- `Remove`. -/
def remove (P : Platform) (s : THttpCookieStore) (url : TUrl) (cookie : THttpCookie) :
    THttpCookieStore × Option Bool :=
  if url.host = [] then (s, some false)
  else
    let r := removeWalk P (removeHit P url cookie) (domainWalk (P.toLower url.host)) s.cookies false
    (⟨r.1⟩, r.2)

def isEmpty (s : THttpCookieStore) : Bool := s.cookies.entries.isEmpty

def clear (s : THttpCookieStore) : THttpCookieStore × Bool :=
  if s.cookies.entries.length = 0 then (s, false) else (⟨∅⟩, true)

end NetMod.CookieStore
