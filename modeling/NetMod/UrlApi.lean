import NetMod.CurlText
import NetMod.QueryFields

/-!
# libcurl's URL API: `curl_url_set` and `curl_url_get`

A `CURLU` handle keeps the parts of a URL as zero-terminated strings, `NULL` for a part that is not
there.  `parseurl` fills a handle from a text, `curlUrlSet` one part of it, and `curlUrlGet` gives a
part back or writes the whole URL.  What the build decides (which protocols there are, and whether it
is a Windows one) and what the C library does (IPv6 addresses) is a `Build`.

Memory never runs out here; the limits of the buffers are kept where a text can reach them.
-/

namespace NetMod.UrlApi

open NetMod.BlitzText NetMod.PercentEncoding NetMod.UrlQuery NetMod.QueryFields NetMod.CurlText

/-! ### Schemes -/

/-- What is read of a `struct Curl_handler`. -/
structure Handler where
  scheme : Bytes
  defport : Nat
  /-- `PROTOPT_URLOPTIONS`. -/
  urlOptions : Bool
  plain : ∀ b ∈ scheme, isAlnum b = true

/-- What the build and its C library provide. -/
structure Build where
  /-- The table of `Curl_getn_scheme_handler`. -/
  protocols : Nat → Option Handler
  /-- `_WIN32`. -/
  win32 : Bool
  /-- `curlx_inet_pton(AF_INET6, …)`. -/
  inetPton : Bytes → Option Bytes
  /-- `curlx_inet_ntop(AF_INET6, …)` into a buffer of a size. -/
  inetNtop : Bytes → Nat → Option Bytes

/-- `Curl_get_scheme_handler`. -/
def getSchemeHandler (B : Build) (scheme : Bytes) : Option Handler :=
  if scheme.length ≠ 0 ∧ scheme.length ≤ 7 then
    let c : UInt32 := scheme.foldl (fun c s => (c <<< 5) + (rawToLower s).toUInt32) 978
    match B.protocols (c % 67).toNat with
    | some h => if strequal scheme h.scheme then some h else none
    | none => none
  else none

/-- A scheme with a handler is one of its letters and digits. -/
theorem isAlnum_of_handler {B : Build} {scheme : Bytes} {h : Handler}
    (hh : getSchemeHandler B scheme = some h) : ∀ c ∈ scheme, isAlnum c = true := by
  intro c hc
  rw [getSchemeHandler] at hh
  split at hh
  · dsimp only at hh
    split at hh
    · next g _ =>
      split at hh
      · next heq =>
        rw [strequal, beq_iff_eq] at heq
        have hmem : rawToUpper c ∈ g.scheme.map rawToUpper := heq ▸ List.mem_map_of_mem hc
        obtain ⟨b, hb, hbc⟩ := List.mem_map.mp hmem
        rw [← isAlnum_rawToUpper, ← hbc, isAlnum_rawToUpper]
        exact g.plain b hb
      · cases hh
    · cases hh
  · cases hh

/-- `MAX_SCHEME_LEN`. -/
def maxSchemeLen : Nat := 40

/-- `Curl_is_absolute_url` without guessing: the scheme, in lower case. -/
def isAbsoluteUrl : Bytes → Option Bytes
  | [] => none
  | c :: s =>
    if isAlpha c then
      let more := (s.take (maxSchemeLen - 1)).takeWhile fun c =>
        isAlnum c || c == byte '+' || c == byte '-' || c == byte '.'
      if (s.drop more.length).head? = some (byte ':') then some ((c :: more).map rawToLower) else none
    else none

/-- A scheme in front of a colon begins with a small letter. -/
theorem isAbsoluteUrl_head {url scheme : Bytes} (h : isAbsoluteUrl url = some scheme) :
    ∃ c s, scheme = c :: s ∧ isLower c = true := by
  have hall : ∀ n : Fin 256, isAlpha (UInt8.ofNat n) = true →
      isLower (rawToLower (UInt8.ofNat n)) = true := by decide +kernel
  cases url with
  | nil => cases h
  | cons c s =>
    rw [isAbsoluteUrl] at h
    split at h
    · next hc =>
      dsimp only at h
      split at h
      · cases h
        have hlow := hall ⟨c.toNat, c.toNat_lt⟩
        rw [UInt8.ofNat_toNat] at hlow
        exact ⟨_, _, rfl, hlow hc⟩
      · cases h
    · cases h

/-! ### Handles -/

/-- The codes but `CURLUE_OK`, which is `none` where a code is all that is returned. -/
inductive CURLUcode where
  | malformedInput | badPortNumber | unsupportedScheme | urldecode | outOfMemory
  | noScheme | noUser | noPassword | noOptions | noHost | noPort | noQuery | noFragment | noZoneid
  | badFileUrl | badHostname | badIpv6 | badScheme | badSlashes | tooLarge | unknownPart
  deriving DecidableEq

inductive CURLUPart where
  | url | scheme | user | password | options | host | port | path | query | fragment | zoneid
  deriving DecidableEq

/-- `struct Curl_URL`. -/
structure CURLU where
  scheme : Option Bytes := none
  user : Option Bytes := none
  password : Option Bytes := none
  options : Option Bytes := none
  host : Option Bytes := none
  zoneid : Option Bytes := none
  port : Option Bytes := none
  path : Option Bytes := none
  query : Option Bytes := none
  fragment : Option Bytes := none
  portnum : Nat := 0
  queryPresent : Bool := false
  fragmentPresent : Bool := false
  guessedScheme : Bool := false
  deriving DecidableEq

/-! ### Host names -/

/-- The end of `ipv6_parse`: the address is written the shortest way, if that fits its place. -/
def normalizeIpv6 (B : Build) (addr : Bytes) : Except CURLUcode Bytes :=
  match B.inetPton addr with
  | none => .error .badIpv6
  | some dest => .ok (byte '[' :: (B.inetNtop dest addr.length).getD addr ++ [byte ']'])

/-- `ipv6_parse` of a name that begins with `[`: the zone id it stores in the handle, if any, and the
name it leaves. -/
def ipv6Parse (B : Build) (hostname : Bytes) : Option Bytes × Except CURLUcode Bytes :=
  if hostname.length < 4 then (none, .error .badIpv6)
  else
    let name := hostname.drop 1
    let hlen := hostname.length - 2
    let len := (name.takeWhile fun c => isXDigit c || c == byte ':' || c == byte '.').length
    if hlen = len then (none, normalizeIpv6 B (name.take hlen))
    else
      match name.drop len with
      | [] => (none, .error .badIpv6)
      | c :: h =>
        if c = percent then
          -- a percent sign that is URL encoded is passed
          let h :=
            if h.take 2 = bytes "25" ∧ (h.drop 2).head? ≠ none ∧ (h.drop 2).head? ≠ some (byte ']')
            then h.drop 2 else h
          let zoneid := (h.takeWhile (· ≠ byte ']')).take 15
          if zoneid = [] ∨ (h.drop zoneid.length).head? ≠ some (byte ']') then (none, .error .badIpv6)
          else (some zoneid, normalizeIpv6 B (name.take len))
        else (none, .error .badIpv6)

/-- The bytes `hostname_check` stops at: blanks and punctuation. -/
def badInHostname : Bytes :=
  [32, 13, 10, 9, 47, 58, 35, 63, 33, 64, 123, 125, 91, 93, 92, 36, 39, 34, 94, 96, 42, 60, 62, 61, 59,
    44, 43, 38, 40, 41, 37]

/-- `hostname_check`, with the results of `ipv6_parse`. -/
def hostnameCheck (B : Build) (hostname : Bytes) : Option Bytes × Except CURLUcode Bytes :=
  if hostname = [] then (none, .error .noHost)
  else if hostname.head? = some (byte '[') then ipv6Parse B hostname
  else if hostname.any (badInHostname.contains ·) then (none, .error .badHostname)
  else (none, .ok hostname)

/-- What `ipv4_normalize` takes a host for. -/
inductive HostType where
  | name | ipv4 (quad : Bytes) | ipv6

/-- `UINT_MAX`. -/
def uintMax : Nat := 4294967295

/-- The loop of `ipv4_normalize`, for at most so many parts. -/
def ipv4Parts : Nat → Bytes → Option (List Nat)
  | 0, _ => none
  | k + 1, c =>
    let number :=
      if c.head? = some (byte '0') then
        if (c.drop 1).head? = some (byte 'x') then strNumBase 16 uintMax (c.drop 2)
        else strNumBase 8 uintMax c
      else strNumBase 10 uintMax c
    match number with
    | none => none
    | some (l, []) => some [l]
    | some (l, d :: c) => if d = byte '.' then (ipv4Parts k c).map (l :: ·) else none

/-- `%u.%u.%u.%u`. -/
def quad (a b c d : Nat) : Bytes :=
  decimal a ++ bytes "." ++ decimal b ++ bytes "." ++ decimal c ++ bytes "." ++ decimal d

/-- `ipv4_normalize`. -/
def ipv4Normalize (host : Bytes) : HostType :=
  if host.head? = some (byte '[') then .ipv6
  else
    match ipv4Parts 4 host with
    | some [a] => .ipv4 (quad (a / 2 ^ 24) (a / 2 ^ 16 % 256) (a / 2 ^ 8 % 256) (a % 256))
    | some [a, b] =>
      if 0xff < a ∨ 0xffffff < b then .name
      else .ipv4 (quad a (b / 2 ^ 16 % 256) (b / 2 ^ 8 % 256) (b % 256))
    | some [a, b, c] =>
      if 0xff < a ∨ 0xff < b ∨ 0xffff < c then .name
      else .ipv4 (quad a b (c / 2 ^ 8 % 256) (c % 256))
    | some [a, b, c, d] =>
      if 0xff < a ∨ 0xff < b ∨ 0xff < c ∨ 0xff < d then .name else .ipv4 (quad a b c d)
    | _ => .name

/-- `urldecode_host`. -/
def urldecodeHost (host : Bytes) : Except CURLUcode Bytes :=
  if host.contains percent then
    match urldecode host with
    | none => .error .badHostname
    | some decoded => .ok decoded
  else .ok host

/-! ### The authority -/

/-- `Curl_parse_login_details`: the user, the password and, if they are asked for, the options. -/
def parseLoginDetails (login : Bytes) (wantOptions : Bool) :
    Bytes × Option Bytes × Option Bytes :=
  let psep := login.idxOf? (byte ':')
  let osep := if wantOptions then login.idxOf? (byte ';') else none
  let ulen :=
    match psep, osep with
    | some p, some o => if o < p then o else p
    | some p, none => p
    | none, some o => o
    | none, none => login.length
  let plen :=
    match psep, osep with
    | some p, some o => (if p < o then o - p else login.length - p) - 1
    | some p, none => login.length - p - 1
    | none, _ => 0
  let olen :=
    match osep, psep with
    | some o, some p => (if o < p then p - o else login.length - o) - 1
    | some o, none => login.length - o - 1
    | none, _ => 0
  (login.take ulen, psep.map fun p => (login.drop (p + 1)).take plen,
    if olen ≠ 0 then osep.map fun o => (login.drop (o + 1)).take olen else none)

/-- `parse_hostname_login`: the handle, and what is left for the host. -/
def parseHostnameLogin (B : Build) (u : CURLU) (login : Bytes) : CURLU × Bytes :=
  match login.idxOf? (byte '@') with
  | none => ({ u with user := none, password := none, options := none }, login)
  | some i =>
    let h := u.scheme.bind (getSchemeHandler B)
    let (user, passwd, options) := parseLoginDetails (login.take i) (h.any (·.urlOptions))
    ({ u with user := some user, password := passwd <|> u.password, options := options <|> u.options },
      login.drop (i + 1))

/-- Where `Curl_parse_port` finds the colon in front of a port. -/
def portPtr (hostname : Bytes) : Except CURLUcode (Option Nat) :=
  if hostname.head? = some (byte '[') then
    match hostname.idxOf? (byte ']') with
    | none => .error .badIpv6
    | some i =>
      match hostname[i + 1]? with
      | none => .ok none
      | some c => if c = byte ':' then .ok (some (i + 1)) else .error .badPortNumber
  else .ok (hostname.idxOf? (byte ':'))

/-- `Curl_parse_port`: the handle, and the host without its port. -/
def parsePort (u : CURLU) (host : Bytes) (hasScheme : Bool) : Except CURLUcode (CURLU × Bytes) :=
  match portPtr host with
  | .error code => .error code
  | .ok none => .ok (u, host)
  | .ok (some keep) =>
    -- a colon with no digits after it is cut off
    if host.drop (keep + 1) = [] then
      if hasScheme then .ok (u, host.take keep) else .error .badPortNumber
    else
      match strNumBase 10 0xffff (host.drop (keep + 1)) with
      | some (port, []) =>
        .ok ({ u with portnum := port, port := some (decimal port) }, host.take keep)
      | _ => .error .badPortNumber

/-- What `parse_authority` returns, from what a check of the host gave. -/
def checkedHost (u : CURLU) : Option Bytes × Except CURLUcode Bytes → Except CURLUcode (CURLU × Bytes)
  | (zoneid, .ok host) => .ok ({ u with zoneid := zoneid <|> u.zoneid }, host)
  | (_, .error code) => .error code

/-- `parse_authority`: the handle and the host. -/
def parseAuthority (B : Build) (u : CURLU) (auth : Bytes) (hasScheme : Bool) :
    Except CURLUcode (CURLU × Bytes) :=
  let (u, host) := parseHostnameLogin B u auth
  match parsePort u host hasScheme with
  | .error code => .error code
  | .ok (u, host) =>
    if host = [] then .error .noHost
    else
      match ipv4Normalize host with
      | .ipv4 quad => .ok (u, quad)
      | .ipv6 => checkedHost u (ipv6Parse B host)
      | .name =>
        match urldecodeHost host with
        | .error code => .error code
        | .ok host => checkedHost u (hostnameCheck B host)

theorem parseHostnameLogin_scheme (B : Build) (u : CURLU) (login : Bytes) :
    (parseHostnameLogin B u login).1.scheme = u.scheme := by
  rw [parseHostnameLogin]
  split <;> rfl

theorem parsePort_scheme {u u' : CURLU} {host host' : Bytes} {hasScheme : Bool}
    (h : parsePort u host hasScheme = .ok (u', host')) : u'.scheme = u.scheme := by
  rw [parsePort] at h
  split at h
  · cases h
  · cases h
    rfl
  · split at h
    · split at h
      · cases h
        rfl
      · cases h
    · split at h
      · cases h
        rfl
      · cases h

theorem checkedHost_scheme {u u' : CURLU} {r : Option Bytes × Except CURLUcode Bytes} {host : Bytes}
    (h : checkedHost u r = .ok (u', host)) : u'.scheme = u.scheme := by
  obtain ⟨zoneid, checked⟩ := r
  cases checked with
  | error code => cases h
  | ok name =>
    cases h
    rfl

theorem parseAuthority_scheme {B : Build} {u u' : CURLU} {auth host : Bytes} {hasScheme : Bool}
    (h : parseAuthority B u auth hasScheme = .ok (u', host)) : u'.scheme = u.scheme := by
  rw [parseAuthority] at h
  dsimp only at h
  split at h
  · cases h
  · next v rest hport =>
    have hv : v.scheme = u.scheme := (parsePort_scheme hport).trans (parseHostnameLogin_scheme B u auth)
    split at h
    · cases h
    · split at h
      · cases h
        exact hv
      · exact (checkedHost_scheme h).trans hv
      · split at h
        · cases h
        · exact (checkedHost_scheme h).trans hv

/-! ### Paths -/

/-- `is_dot`: what is behind a dot, plain or encoded. -/
def isDot : Bytes → Option Bytes
  | [] => none
  | c :: s =>
    if c = byte '.' then some s
    else
      match s with
      | d :: e :: s => if c = percent ∧ d = byte '2' ∧ e ||| 0x20 = byte 'e' then some s else none
      | _ => none

def isSlash (s : Bytes) : Bool := s.head? == some (byte '/')

/-- `curlx_dyn_setlen` at the last slash, if there is one. -/
def trimLastSegment (out : Bytes) : Bytes :=
  if out.contains (byte '/') then (out.reverse.dropWhile (· ≠ byte '/')).tail.reverse else out

/-- The loop of `dedotdotify`: the output so far and the input that is left. -/
def dedotLoop : Nat → Bytes → Bytes → Bytes
  | _, out, [] => out
  | 0, out, _ => out
  | n + 1, out, c :: input =>
    match if c = byte '/' then isDot input else none with
    | none => dedotLoop n (out ++ [c]) input
    | some p =>
      if p = [] then out ++ [byte '/']
      else if isSlash p then dedotLoop n out p
      else
        match isDot p with
        | none => dedotLoop n (out ++ [c]) input
        | some q =>
          if q = [] then trimLastSegment out ++ [byte '/']
          else if isSlash q then dedotLoop n (trimLastSegment out) q
          else dedotLoop n (out ++ [c]) input

theorem length_isDot {s p : Bytes} (h : isDot s = some p) : p.length < s.length := by
  cases s with
  | nil => cases h
  | cons c s =>
    unfold isDot at h
    dsimp only at h
    split at h
    · cases h
      exact Nat.lt_succ_self _
    · split at h
      · next d e r =>
        split at h
        · cases h
          simp only [List.length_cons]
          omega
        · cases h
      · cases h

/-- The loop consumes its input, so its length is rounds enough. -/
theorem dedotLoop_enough : ∀ {n m : Nat} (out : Bytes) {input : Bytes}, input.length ≤ n →
    input.length ≤ m → dedotLoop n out input = dedotLoop m out input := by
  intro n
  induction n with
  | zero =>
    intro m out input hn _
    rw [List.eq_nil_of_length_eq_zero (Nat.le_zero.mp hn)]
    cases m <;> rfl
  | succ n ih =>
    intro m out input hn hm
    cases input with
    | nil => cases m <;> rfl
    | cons c input =>
      cases m with
      | zero => exact absurd hm (by simp)
      | succ m =>
        rw [List.length_cons] at hn hm
        have hn' : input.length ≤ n := by omega
        have hm' : input.length ≤ m := by omega
        rw [dedotLoop, dedotLoop]
        split
        · exact ih _ hn' hm'
        · next p hp =>
          have hp' : p.length < input.length := by
            split at hp
            · exact length_isDot hp
            · cases hp
          split
          · rfl
          · split
            · exact ih _ (by omega) (by omega)
            · split
              · exact ih _ hn' hm'
              · next q hq =>
                have hq' := length_isDot hq
                split
                · rfl
                · split
                  · exact ih _ (by omega) (by omega)
                  · exact ih _ hn' hm'

/-- What `dedotdotify` strips in front of its loop; `none` is the jump to its end. -/
def dedotStart (input : Bytes) : Option Bytes :=
  match isDot input with
  | none => some input
  | some p =>
    if p = [] then none
    else if isSlash p then some (p.drop 1)
    else
      match isDot p with
      | none => some p
      | some q => if q = [] then none else if isSlash q then some (q.drop 1) else some p

/-- `dedotdotify` of a path of at least two bytes. -/
def dedotdotify (input : Bytes) : Bytes :=
  match dedotStart input with
  | none => []
  | some input => dedotLoop input.length [] input

/-! ### Parsing a URL -/

/-- `Curl_junkscan` without spaces. -/
def junkscan (url : Bytes) : Bool :=
  decide (url.length ≤ curlMaxInputLength) && url.all fun c => 0x20 < c && c != 127

/-- `STARTS_WITH_URL_DRIVE_PREFIX`. -/
def startsWithUrlDrivePrefix : Bytes → Bool
  | a :: b :: s =>
    isAlpha a && (b == byte ':' || b == byte '|') &&
      (s.head? == some (byte '/') || s.head? == some 92 || s.head? == none)
  | _ => false

/-- What behind `file://` names no local file: on Windows the host of a UNC path. -/
def uncHost (B : Build) (ptr : Bytes) : Option Bytes :=
  if B.win32 then
    -- up to the first of `/\:*?"<>|`
    match ptr.findIdx? ([47, 92, 58, 42, 63, 34, 60, 62, 124].contains ·) with
    | none => none
    | some len => if ptr[len]? = some (byte '/') then some (ptr.take len) else none
  else none

/-- The authority of a `file:` URL, from what is behind `file:`: the host and the path. -/
def fileAuthority (B : Build) (path : Bytes) : Except CURLUcode (Option Bytes × Bytes) :=
  if path.take 2 = bytes "//" then
    let ptr := path.drop 2
    if !isSlash ptr && !startsWithUrlDrivePrefix ptr then
      if checkprefix (bytes "localhost/") ptr || checkprefix (bytes "127.0.0.1/") ptr then
        .ok (none, ptr.drop 9)
      else
        match uncHost B ptr with
        | none => .error .badFileUrl
        | some host => .ok (some host, path)
    else .ok (none, ptr)
  else .ok (none, path)

/-- The branch of `parseurl` for the scheme `file`: the host and the path. -/
def parseFile (B : Build) (url : Bytes) : Except CURLUcode (Option Bytes × Bytes) :=
  if url.length ≤ 6 then .error .badFileUrl
  else
    match fileAuthority B (url.drop 5) with
    | .error code => .error code
    | .ok (host, path) =>
      let drive := isSlash path && startsWithUrlDrivePrefix (path.drop 1)
      if B.win32 then .ok (host, if drive then path.drop 1 else path)
      else if drive || startsWithUrlDrivePrefix path then .error .badFileUrl
      else .ok (host, path)

/-- The end of `parseurl`: the path with its query and fragment. -/
def parsePath (u : CURLU) (path : Bytes) : CURLU :=
  let u :=
    match path.idxOf? (byte '#') with
    | none => u
    | some i =>
      let fragment := path.drop (i + 1)
      { u with fragmentPresent := true, fragment := if fragment = [] then none else some fragment }
  let path := path.takeWhile (· ≠ byte '#')
  let u :=
    match path.idxOf? (byte '?') with
    | none => u
    | some i => { u with queryPresent := true, query := some (path.drop (i + 1)) }
  let path := path.takeWhile (· ≠ byte '?')
  { u with path := if path.length ≤ 1 then none else some (dedotdotify path) }

theorem parsePath_scheme (u : CURLU) (path : Bytes) : (parsePath u path).scheme = u.scheme := by
  rw [parsePath]
  dsimp only
  split <;> split <;> rfl

/-- `parseurl` into an empty handle, without flags. -/
def parseurl (B : Build) (url : Bytes) : Except CURLUcode CURLU :=
  if junkscan url = false then .error .malformedInput
  else
    match isAbsoluteUrl url with
    | none => .error .badScheme
    | some scheme =>
      if scheme = bytes "file" then
        match parseFile B url with
        | .error code => .error code
        | .ok (host, path) => .ok { parsePath { scheme := some scheme } path with host := host }
      else
        let p := url.drop (scheme.length + 1)
        let slashes := (p.take 4).takeWhile (· == byte '/')
        if (getSchemeHandler B scheme).isNone then .error .unsupportedScheme
        else if slashes.length < 1 ∨ 3 < slashes.length then .error .badSlashes
        else
          let hostp := p.drop slashes.length
          let auth := hostp.takeWhile fun c => c != byte '/' && c != byte '?' && c != byte '#'
          if auth = [] then .error .noHost
          else
            match parseAuthority B { scheme := some scheme } auth true with
            | .error code => .error code
            | .ok (u, host) => .ok { parsePath u (hostp.drop auth.length) with host := some host }

/-- **What is parsed** has a scheme that begins with a small letter, and a host unless it is `file:`. -/
theorem parseurl_spec {B : Build} {url : Bytes} {u : CURLU} (h : parseurl B url = .ok u) :
    ∃ c s, u.scheme = some (c :: s) ∧ isLower c = true ∧ (c :: s = bytes "file" ∨ u.host.isSome) := by
  rw [parseurl] at h
  split at h
  · cases h
  split at h
  · cases h
  next scheme habs =>
  obtain ⟨c, s, rfl, hc⟩ := isAbsoluteUrl_head habs
  refine ⟨c, s, ?_⟩
  split at h
  · next hfile =>
    split at h
    · cases h
    · cases h
      exact ⟨parsePath_scheme _ _, hc, .inl hfile⟩
  · dsimp only at h
    split at h
    · cases h
    split at h
    · cases h
    split at h
    · cases h
    split at h
    · cases h
    · next v host hauth =>
      cases h
      refine ⟨?_, hc, .inr rfl⟩
      dsimp only
      rw [parsePath_scheme, parseAuthority_scheme hauth]

/-! ### `curl_url_get` -/

/-- The flags that `TUrl` gives `curl_url_get`.  The others are never set: `CURLU_GET_EMPTY`,
`CURLU_NO_DEFAULT_PORT`, `CURLU_NO_GUESS_SCHEME` and those for punycode. -/
structure GetFlags where
  urldecode : Bool := false
  urlencode : Bool := false
  defaultPort : Bool := false
  defaultScheme : Bool := false

/-- A buffer with the limit `CURL_MAX_INPUT_LENGTH`, or that of `aprintf`, which is the same. -/
def limited (code : CURLUcode) (s : Bytes) : Except CURLUcode Bytes :=
  if s.length < curlMaxInputLength then .ok s else .error code

theorem limited_of_le {s : Bytes} (code : CURLUcode) (h : curlMaxInputLength ≤ s.length) :
    limited code s = .error code := by
  rw [limited, if_neg (by omega)]

/-- The loop of `urlencode_str`. -/
def urlencodeLoop : Bool → Bytes → Bytes
  | _, [] => []
  | left, c :: s =>
    if c = byte ' ' then (if left then bytes "%20" else bytes "+") ++ urlencodeLoop left s
    else if c < 0x20 ∨ 0x7f ≤ c then
      percent :: PercentEncoding.hexDigit (c / 16) :: PercentEncoding.hexDigit (c % 16) ::
        urlencodeLoop left s
    else c :: urlencodeLoop (if c = byte '?' then false else left) s

/-- `find_host_sep`: the length of what it stands behind. -/
def findHostSep (url : Bytes) : Nat :=
  let skip :=
    match (List.range url.length).find? fun i => (url.drop i).take 2 == bytes "//" with
    | none => 0
    | some i => i + 2
  skip + ((url.drop skip).takeWhile fun c => c != byte '/' && c != byte '?').length

/-- `urlencode_str`. -/
def urlencodeStr (url : Bytes) (relative query : Bool) : Bytes :=
  let n := if relative then 0 else findHostSep url
  url.take n ++ urlencodeLoop (!query) (url.drop n)

/-- `urlget_format`. -/
def urlgetFormat (what : CURLUPart) (ptr : Bytes) (plusdecode : Bool) (flags : GetFlags) :
    Except CURLUcode Bytes :=
  let part := if plusdecode then ptr.map fun c => if c = byte '+' then byte ' ' else c else ptr
  match if flags.urldecode then urldecode part else some part with
  | none => .error .urldecode
  | some part =>
    if flags.urlencode then limited .tooLarge (urlencodeStr part true (what == .query)) else .ok part

/-- The host as `urlget_url` writes it. -/
def urlHost (u : CURLU) (host : Bytes) (flags : GetFlags) : Except CURLUcode Bytes :=
  if host.head? = some (byte '[') then
    match u.zoneid with
    | none => .ok host
    | some zoneid =>
      limited .outOfMemory (host.take (host.length - 1) ++ bytes "%25" ++ zoneid ++ bytes "]")
  else if flags.urlencode then
    match curlEasyEscape host 0 with
    | none => .error .outOfMemory
    | some host => .ok host
  else .ok host

/-- A text in front of a part that is there, and the part. -/
def labelled (label : String) (part : Option Bytes) : Bytes :=
  match part with
  | none => []
  | some s => bytes label ++ s

/-- The query and the fragment as `urlget_url` writes them. -/
def urlTail (u : CURLU) : Bytes :=
  labelled "?" (u.query.filter (· ≠ [])) ++ labelled "#" u.fragment

/-- What `urlget_url` writes for a URL that is not a `file:` one. -/
def urlText (u : CURLU) (scheme host : Bytes) (options port : Option Bytes) : Bytes :=
  scheme ++ bytes "://" ++ u.user.getD [] ++ labelled ":" u.password ++ labelled ";" options ++
    (if u.user.isSome || u.password.isSome || options.isSome then bytes "@" else []) ++ host ++
    labelled ":" port ++ u.path.getD (bytes "/") ++ urlTail u

/-- `urlget_url`. -/
def urlgetUrl (B : Build) (u : CURLU) (flags : GetFlags) : Except CURLUcode Bytes :=
  if u.scheme.any (strequal (bytes "file")) then
    -- a path that is `NULL` is printed as such
    limited .outOfMemory (bytes "file://" ++ u.path.getD (bytes "(nil)") ++ urlTail u)
  else
    match u.host with
    | none => .error .noHost
    | some host =>
      match u.scheme <|> if flags.defaultScheme then some (bytes "https") else none with
      | none => .error .noScheme
      | some scheme =>
        let h := getSchemeHandler B scheme
        let port := u.port <|> if flags.defaultPort then h.map fun h => decimal h.defport else none
        let options := if h.any (!·.urlOptions) then none else u.options
        match urlHost u host flags with
        | .error code => .error code
        | .ok host => limited .outOfMemory (urlText u scheme host options port)

/-- The part that is stored, and the code if there is none. -/
def storedPart (B : Build) (u : CURLU) (what : CURLUPart) (flags : GetFlags) :
    Option Bytes × CURLUcode :=
  match what with
  | .url => (none, .unknownPart)
  | .scheme => (u.scheme, .noScheme)
  | .user => (u.user, .noUser)
  | .password => (u.password, .noPassword)
  | .options => (u.options, .noOptions)
  | .host => (u.host, .noHost)
  | .zoneid => (u.zoneid, .noZoneid)
  | .port =>
    let defport :=
      if flags.defaultPort then
        (u.scheme.bind (getSchemeHandler B)).map fun h => decimal h.defport
      else none
    (u.port <|> defport, .noPort)
  | .path => (some (u.path.getD (bytes "/")), .unknownPart)
  | .query => (u.query.filter (· ≠ []), .noQuery)
  | .fragment => (u.fragment, .noFragment)

/-- `curl_url_get`. -/
def curlUrlGet (B : Build) (u : CURLU) (what : CURLUPart) (flags : GetFlags) :
    Except CURLUcode Bytes :=
  match what with
  | .url => urlgetUrl B u flags
  | what =>
    -- schemes and ports are never decoded
    let decode := flags.urldecode && what != .scheme && what != .port
    match storedPart B u what flags with
    | (none, ifmissing) => .error ifmissing
    | (some ptr, _) =>
      urlgetFormat what ptr (flags.urldecode && what == .query) { flags with urldecode := decode }

/-- Without flags the stored part is given as it is. -/
theorem curlUrlGet_plain (B : Build) (u : CURLU) {what : CURLUPart} (h : what ≠ .url) :
    curlUrlGet B u what {} =
      match storedPart B u what {} with
      | (none, ifmissing) => .error ifmissing
      | (some ptr, _) => .ok ptr := by
  cases what with
  | url => exact absurd rfl h
  | _ => rfl

/-! ### The URL that is written -/

/-- The host as it is written with `CURLU_URLENCODE`. -/
def writtenHost (zoneid : Option Bytes) (host : Bytes) : Bytes :=
  if host.head? = some (byte '[') then
    match zoneid with
    | none => host
    | some zoneid => host.take (host.length - 1) ++ bytes "%25" ++ zoneid ++ bytes "]"
  else (curlEasyEscape host 0).getD []

/-- The URL that is written with `CURLU_URLENCODE`, whatever its length. -/
def written (B : Build) (u : CURLU) : Bytes :=
  if u.scheme.any (strequal (bytes "file")) then
    bytes "file://" ++ u.path.getD (bytes "(nil)") ++ urlTail u
  else
    urlText u (u.scheme.getD []) (writtenHost u.zoneid (u.host.getD []))
      (if (getSchemeHandler B (u.scheme.getD [])).any (!·.urlOptions) then none else u.options) u.port

/-- A URL can be written: it has a scheme, and a host unless it is a `file:` URL. -/
def Writable (u : CURLU) : Prop :=
  ∃ s, u.scheme = some s ∧ (strequal (bytes "file") s = true ∨ u.host.isSome)

theorem length_le_urlText (u : CURLU) (scheme host : Bytes) (options port : Option Bytes) :
    host.length ≤ (urlText u scheme host options port).length := by
  simp only [urlText, List.length_append]
  omega

theorem urlHost_eq (u : CURLU) (host : Bytes) :
    urlHost u host { urlencode := true } = .ok (writtenHost u.zoneid host) ∨
      urlHost u host { urlencode := true } = .error .outOfMemory ∧
        curlMaxInputLength ≤ (writtenHost u.zoneid host).length := by
  unfold urlHost writtenHost
  split
  · cases u.zoneid with
    | none => exact .inl rfl
    | some zoneid =>
      dsimp only
      rw [limited]
      split
      · exact .inl rfl
      · exact .inr ⟨rfl, by omega⟩
  · exact .inl rfl

/-- **`urlget_url`** writes what can be written, up to the limit. -/
theorem urlgetUrl_written (B : Build) {u : CURLU} (h : Writable u) :
    urlgetUrl B u { urlencode := true } = limited .outOfMemory (written B u) := by
  obtain ⟨s, hs, hhost⟩ := h
  rw [urlgetUrl, written]
  split
  · rfl
  · next hfile =>
    have hsome : u.host.isSome := hhost.resolve_left fun hf => hfile (by rw [hs]; exact hf)
    obtain ⟨host, hu⟩ := Option.isSome_iff_exists.mp hsome
    rw [hu, hs]
    dsimp only [Option.getD_some]
    have hlen := length_le_urlText u s (writtenHost u.zoneid host)
      (if (getSchemeHandler B s).any (!·.urlOptions) then none else u.options) u.port
    dsimp only [HOrElse.hOrElse, OrElse.orElse, Option.orElse]
    obtain hok | ⟨herr, hbig⟩ := urlHost_eq u host
    · rw [hok]
      cases u.port <;> rfl
    · rw [herr]
      exact (limited_of_le _ (hbig.trans hlen)).symm

theorem urlgetUrl_missing (B : Build) {u : CURLU} (h : ¬ Writable u) :
    ∃ code, urlgetUrl B u { urlencode := true } = .error code := by
  cases hs : u.scheme with
  | none =>
    rw [urlgetUrl, hs]
    cases hhost : u.host with
    | none => exact ⟨_, rfl⟩
    | some host => exact ⟨_, rfl⟩
  | some s =>
    have hfile : ¬ strequal (bytes "file") s = true := fun hf => h ⟨s, hs, .inl hf⟩
    cases hhost : u.host with
    | none =>
      refine ⟨.noHost, ?_⟩
      rw [urlgetUrl, hs, hhost, Option.any_some, if_neg hfile]
    | some host => exact absurd ⟨s, hs, .inr (by rw [hhost]; rfl)⟩ h

/-! ### `curl_url_set` -/

/-- Percent triples with a digit in upper case are put in lower case. -/
def lowerTriples : Bytes → Bytes
  | c :: a :: b :: s =>
    if c = percent ∧ isXDigit a ∧ isXDigit b ∧ (isUpper a ∨ isUpper b) then
      c :: rawToLower a :: rawToLower b :: lowerTriples s
    else c :: lowerTriples (a :: b :: s)
  | s => s

theorem lowerTriples_of_not_mem : ∀ {s : Bytes}, percent ∉ s → lowerTriples s = s
  | [], _ => rfl
  | [_], _ => rfl
  | [_, _], _ => rfl
  | c :: a :: b :: s, h => by
    have hc : c ≠ percent := fun hc => h (hc ▸ List.mem_cons_self)
    rw [lowerTriples, if_neg (fun hp => hc hp.1),
      lowerTriples_of_not_mem fun hp => h (List.mem_cons_of_mem c hp)]

/-- `allowed_in_path`: `!$&'(){}[]*+,;=:@/`. -/
def allowedInPath (c : UInt8) : Bool :=
  [33, 36, 38, 39, 40, 41, 123, 125, 91, 93, 42, 43, 44, 59, 61, 58, 64, 47].contains c

/-- `set_url_scheme`. -/
def setUrlScheme (B : Build) (scheme : Bytes) : Option CURLUcode :=
  if maxSchemeLen < scheme.length ∨ scheme.length < 1 then some .badScheme
  else if (getSchemeHandler B scheme).isNone then some .unsupportedScheme
  else none

/-- `set_url_port`. -/
def setUrlPort (u : CURLU) (providedPort : Bytes) : Option CURLUcode × CURLU :=
  if providedPort.head?.any isDigit then
    match strNumBase 10 0xffff providedPort with
    | some (port, []) => (none, { u with port := some (decimal port), portnum := port })
    | _ => (some .badPortNumber, u)
  else (some .badPortNumber, u)

/-- The text of a part before it is stored: URL encoded, or with its triples in lower case. -/
def newPart (part : Bytes) (urlencode plusencode pathmode : Bool) : Bytes :=
  (if pathmode ∧ isSlash part = false then bytes "/" else []) ++
    if urlencode then
      part.flatMap fun c =>
        if c = byte ' ' ∧ plusencode then bytes "+"
        else encodeByte (fun c => isUnreserved c || (pathmode && allowedInPath c)) c
    else lowerTriples part

/-- `curlx_dyn_ptr` of the buffer with the new part: `NULL` if nothing was ever added to it, as when an
empty part is encoded. -/
def dynPtr (newp : Bytes) (urlencode : Bool) : Option Bytes :=
  if urlencode = true ∧ newp = [] then none else some newp

/-- The check of a new host: the zone id it may store, and whether the host is fine. -/
def hostFine (B : Build) (newp : Bytes) (urlencode : Bool) : Option Bytes × Bool :=
  if newp = [] then (none, false)
  else
    match if urlencode then some newp else urldecode newp with
    | none => (none, false)
    | some decoded =>
      let (zoneid, checked) := hostnameCheck B decoded
      (zoneid, checked.isOk)

/-- Where `redirect_url` cuts the base, whose host begins at `protsep`. -/
def redirectCutoff (u : CURLU) (base relurl : Bytes) (protsep : Nat) : Option Nat :=
  let find (c : Char) := ((base.drop protsep).idxOf? (byte c)).map (protsep + ·)
  if isSlash relurl then
    if isSlash (relurl.drop 1) then some protsep else find '/'
  else if relurl.head? = some (byte '#') then
    if u.fragment.isSome then find '#' else none
  else
    let cutoff :=
      if u.query.any (· ≠ []) then find '?'
      else if u.fragment.any (· ≠ []) then find '#'
      else none
    if relurl.head? ≠ some (byte '?') then
      -- behind the last slash
      let kept := (base.take (cutoff.getD base.length)).drop protsep
      (kept.reverse.idxOf? (byte '/')).map fun i => protsep + (kept.length - i)
    else cutoff

/-- `parseurl_and_replace`. -/
def parseurlAndReplace (B : Build) (url : Bytes) (u : CURLU) : Option CURLUcode × CURLU :=
  match parseurl B url with
  | .error code => (some code, u)
  | .ok tmpurl => (none, tmpurl)

/-- `redirect_url`. -/
def redirectUrl (B : Build) (base relurl : Bytes) (u : CURLU) : Option CURLUcode × CURLU :=
  let protsep := (u.scheme.getD []).length + 3
  let hostChanged := isSlash relurl && isSlash (relurl.drop 1)
  let useurl := if hostChanged then relurl.drop 2 else relurl
  let prelen := (redirectCutoff u base relurl protsep).getD base.length
  match limited .outOfMemory (base.take prelen ++ urlencodeStr useurl (!hostChanged) false) with
  | .error code => (some code, u)
  | .ok url => parseurlAndReplace B url u

/-- `set_url`. -/
def setUrl (B : Build) (u : CURLU) (url : Bytes) : Option CURLUcode × CURLU :=
  let oldurl := curlUrlGet B u .url {}
  if url = [] then
    match oldurl with
    | .ok _ => (none, u)
    | .error _ => (some .malformedInput, u)
  else if (isAbsoluteUrl url).isSome then parseurlAndReplace B url u
  else
    match oldurl with
    | .error _ => parseurlAndReplace B url u
    | .ok oldurl => redirectUrl B oldurl url u

/-- `curl_url_set` of a part that is not `NULL`, with `CURLU_URLENCODE` or, as for a whole URL always,
without flags. -/
def curlUrlSet (B : Build) (u : CURLU) (what : CURLUPart) (part : Bytes) (urlencode : Bool) :
    Option CURLUcode × CURLU :=
  if curlMaxInputLength < part.length then (some .malformedInput, u)
  else
    let newp := newPart part urlencode (what == .query && urlencode) (what == .path)
    let ptr := dynPtr newp urlencode
    match what with
    | .scheme =>
      match setUrlScheme B part with
      | none => (none, { u with scheme := some (newPart part false false false), guessedScheme := false })
      | some code => (some code, u)
    | .user => (none, { u with user := ptr })
    | .password => (none, { u with password := ptr })
    | .options => (none, { u with options := ptr })
    | .host =>
      let (zoneid, fine) := hostFine B newp urlencode
      if fine then (none, { u with zoneid := zoneid, host := some newp })
      else (some .badHostname, { u with zoneid := zoneid })
    | .zoneid => (none, { u with zoneid := ptr })
    | .port => setUrlPort u part
    | .path => (none, { u with path := ptr })
    | .query => (none, { u with query := ptr, queryPresent := true })
    | .fragment => (none, { u with fragment := ptr, fragmentPresent := true })
    | .url => setUrl B u part

end NetMod.UrlApi
