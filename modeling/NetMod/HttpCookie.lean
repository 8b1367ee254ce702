import NetMod.BlitzText

/-!
# Cookies, their attribute map and their builder

`THttpCookie` is read through its getters, which look their attribute up under the name of the
`ECookieAttribute` constructor.  The attribute map compares keys with
`TCaseInsensitiveStringComparator`; `THttpCookieBuilder.attribute` may raise, so it returns `none`
where `IllegalArgumentError` is called.

`TCachedCookie` is the store's entry.  Its age is counted from the clock reading at which the entry
was made; the clock is `CurrentUnixTime`, a 64-bit number of milliseconds.
-/

namespace NetMod.HttpCookie

open NetMod.BlitzText

/-- A URL as the cookie and request code sees it: the values of `GetScheme`, `GetHost`,
`GetRawPath` and `ToString`. -/
structure TUrl where
  scheme : Text
  host : Text
  rawPath : Text
  text : Text
deriving DecidableEq, Repr

def TUrl.isSecureScheme (P : Platform) (u : TUrl) : Bool :=
  P.toLower u.scheme = lit "https" ∨ P.toLower u.scheme = lit "wss"

/-! ### The attribute map -/

/-- `THashMap<String,String>` under `TCaseInsensitiveStringComparator`. -/
abbrev Attributes := List (Text × Text)

def Attributes.tryGetValue (P : Platform) (m : Attributes) (key : Text) : Option Text :=
  (m.find? fun p => P.equalsFold p.1 key).map (·.2)

def Attributes.remove (P : Platform) (m : Attributes) (key : Text) : Attributes :=
  m.filter fun p => !P.equalsFold p.1 key

/-- `Put` overwrites the value of an existing key and keeps that key's spelling. -/
def Attributes.put (P : Platform) (m : Attributes) (key value : Text) : Attributes :=
  if m.any fun p => P.equalsFold p.1 key then
    m.map fun p => if P.equalsFold p.1 key then (p.1, value) else p
  else m ++ [(key, value)]

inductive ECookieAttribute where
  | comment | domain | expires | httpOnly | maxAge | path | sameSite | secure | partitioned
deriving DecidableEq, Repr

def ECookieAttribute.toText : ECookieAttribute → Text
  | .comment => lit "Comment"
  | .domain => lit "Domain"
  | .expires => lit "Expires"
  | .httpOnly => lit "HttpOnly"
  | .maxAge => lit "MaxAge"
  | .path => lit "Path"
  | .sameSite => lit "SameSite"
  | .secure => lit "Secure"
  | .partitioned => lit "Partitioned"

/-! ### Cookies -/

structure THttpCookie where
  name : Text
  value : Text
  version : Int := 0
  attributes : Attributes := []
deriving DecidableEq, Repr

def parseExpires (P : Platform) (expires : Text) : Int :=
  let time := P.getdate expires
  if time = -1 then 0 else time

namespace THttpCookie

variable (P : Platform)

/-- `GetAttribute` by name; an absent attribute is `Null`. -/
def getAttributeNamed (c : THttpCookie) (attr : Text) : Text :=
  (c.attributes.tryGetValue P attr).getD []

def getAttribute (c : THttpCookie) (attr : ECookieAttribute) : Text :=
  c.getAttributeNamed P attr.toText

def isAttributeSetToNotFalse (c : THttpCookie) (attr : ECookieAttribute) : Bool :=
  let val := c.getAttribute P attr
  val ≠ [] ∧ P.toLower val ≠ lit "false"

def getComment (c : THttpCookie) : Text := c.getAttribute P .comment

def getDomain (c : THttpCookie) : Text := c.getAttribute P .domain

def getPath (c : THttpCookie) : Text := c.getAttribute P .path

def getMaxAge (c : THttpCookie) : Int :=
  let val := c.getAttribute P .maxAge
  if val ≠ [] then toLong val else -1

def getSameSite (c : THttpCookie) : Text := c.getAttribute P .sameSite

def getExpires (c : THttpCookie) : Int :=
  let expires := c.getAttribute P .expires
  if expires = [] then 0 else parseExpires P expires

def isPartitioned (c : THttpCookie) : Bool := c.isAttributeSetToNotFalse P .partitioned

def isHttpOnly (c : THttpCookie) : Bool := c.isAttributeSetToNotFalse P .httpOnly

def isSecure (c : THttpCookie) : Bool := c.isAttributeSetToNotFalse P .secure

end THttpCookie

/-! ### Clock readings -/

/-- `CurrentUnixTime() / 1000` at a reading of the millisecond clock. -/
def clockSecs (now : UInt64) : Nat := now.toNat / 1000

theorem clockSecs_mono {a b : UInt64} (h : a ≤ b) : clockSecs a ≤ clockSecs b :=
  Nat.div_le_div_right (UInt64.le_iff_toNat_le.mp h)

/-- `THttpCookie.IsExpired`. -/
def THttpCookie.isExpired (P : Platform) (now : UInt64) (c : THttpCookie) : Bool :=
  if c.getMaxAge P = 0 then true
  else
    let expires := c.getExpires P
    if expires = 0 then true
    else decide ((expires % 2 ^ 64).toNat < clockSecs now)

/-! ### Store entries -/

structure TCachedCookie where
  cookie : THttpCookie
  creationTime : Nat
  url : TUrl
  domain : Text
  path : Text
deriving DecidableEq, Repr

namespace TCachedCookie

variable (P : Platform)

/-- `New TCachedCookie(cookie, url, domain, path)` at a clock reading. -/
def new (now : UInt64) (cookie : THttpCookie) (url : TUrl) (domain path : Text) : TCachedCookie :=
  ⟨cookie, clockSecs now, url, domain, path⟩

/-- The sum of the creation second and `ULong(maxAge)` is a 64-bit one. -/
def isExpired (now : UInt64) (e : TCachedCookie) : Bool :=
  let maxAge := e.cookie.getMaxAge P
  if 0 ≤ maxAge ∧ (e.creationTime + maxAge.toNat) % 2 ^ 64 ≤ clockSecs now then true
  else
    let expires := e.cookie.getExpires P
    decide (0 < expires ∧ expires ≤ clockSecs now)

def hashCode (e : TCachedCookie) : UInt32 :=
  P.hashCode e.cookie.name ^^^ P.hashCode (P.toLower e.domain) ^^^ P.hashCode e.path

/-- `String.Compare`: the sign of the first differing unit, then of the lengths. -/
def compareText : Text → Text → Int
  | [], [] => 0
  | [], _ :: _ => -1
  | _ :: _, [] => 1
  | a :: as, b :: bs => if a < b then -1 else if b < a then 1 else compareText as bs

/-- `Compare`: hash codes first, then name, lower-cased domain and path. -/
def compare (e c : TCachedCookie) : Int :=
  let hc := e.hashCode P
  let ohc := c.hashCode P
  if hc < ohc then -1
  else if ohc < hc then 1
  else
    let res := compareText e.cookie.name c.cookie.name
    if res ≠ 0 then res
    else
      let res := compareText (P.toLower e.domain) (P.toLower c.domain)
      if res ≠ 0 then res else compareText e.path c.path

/-- What `compare` distinguishes. -/
def identity (e : TCachedCookie) : Text × Text × Text :=
  (e.cookie.name, P.toLower e.domain, e.path)

theorem compareText_eq_zero : ∀ {s t : Text}, compareText s t = 0 ↔ s = t
  | [], [] => by simp [compareText]
  | [], _ :: _ => by simp [compareText]
  | _ :: _, [] => by simp [compareText]
  | a :: as, b :: bs => by
    rw [compareText, List.cons.injEq]
    by_cases hab : a < b
    · simp [hab, (UInt16.ne_of_lt hab)]
    · by_cases hba : b < a
      · simp [hab, hba, (UInt16.ne_of_lt hba).symm]
      · have heq : a = b := UInt16.le_antisymm (UInt16.not_lt.mp hba) (UInt16.not_lt.mp hab)
        simp [heq, UInt16.lt_irrefl, compareText_eq_zero]

/-- **`Compare` is zero exactly on equal identities**, whatever the string hash is. -/
theorem compare_eq_zero {e c : TCachedCookie} :
    e.compare P c = 0 ↔ e.identity P = c.identity P := by
  have hhash : e.identity P = c.identity P → e.hashCode P = c.hashCode P := by
    intro h
    simp only [identity, Prod.mk.injEq] at h
    simp only [hashCode, h.1, h.2.1, h.2.2]
  by_cases hlt : e.hashCode P < c.hashCode P
  · have hne : e.identity P ≠ c.identity P := fun h => UInt32.ne_of_lt hlt (hhash h)
    simp [compare, hlt, hne]
  · by_cases hgt : c.hashCode P < e.hashCode P
    · have hne : e.identity P ≠ c.identity P := fun h => UInt32.ne_of_lt hgt (hhash h).symm
      simp [compare, hlt, hgt, hne]
    · simp only [compare, hlt, hgt, if_false, identity, Prod.mk.injEq]
      by_cases hn : compareText e.cookie.name c.cookie.name = 0
      · by_cases hd : compareText (P.toLower e.domain) (P.toLower c.domain) = 0
        · simp [compareText_eq_zero.mp hn, compareText_eq_zero.mp hd, compareText_eq_zero]
        · simp [hn, hd, mt compareText_eq_zero.mpr hd]
      · simp [hn, mt compareText_eq_zero.mpr hn]

/-- Expiry is monotone in the clock. -/
theorem isExpired_mono {e : TCachedCookie} {a b : UInt64} (hab : a ≤ b)
    (h : e.isExpired P a = true) : e.isExpired P b = true := by
  have hm := clockSecs_mono hab
  simp only [isExpired] at h ⊢
  split at h
  · rename_i hc
    rw [if_pos ⟨hc.1, hc.2.trans hm⟩]
  · split
    · rfl
    · simp only [decide_eq_true_eq] at h ⊢
      omega

end TCachedCookie

end NetMod.HttpCookie
