import NetMod.Lib.SeparatedText
import NetMod.UrlHost

/-!
# The authority of a URL: user, password, host and port

`parse_authority` takes apart what `urlget_url` puts together: a login up to its `@`
(`parseHostnameLogin_loginText`), a port behind its colon (`parsePort_labelled`), and between them a host.
In the other direction, each of the steps says what it leaves in a handle.
-/

namespace NetMod.UrlAuthority

open NetMod.PercentEncoding NetMod.UrlQuery NetMod.CurlText NetMod.UrlApi NetMod.SeparatedText
open NetMod.UrlHost

/-! ### User and password -/

/-- A user and a password, in front of a host. -/
def loginText (user password : Option Bytes) : Bytes :=
  user.getD [] ++ labelled ":" password ++ if user.isSome || password.isSome then bytes "@" else []

/-- A user has no colon, and neither it nor the password an `@`. -/
structure Login (user password : Option Bytes) : Prop where
  of_user : ∀ s, user = some s → byte '@' ∉ s ∧ byte ':' ∉ s
  of_password : ∀ s, password = some s → user.isSome ∧ byte '@' ∉ s

theorem parseLoginDetails_user {login : Bytes} (h : byte ':' ∉ login) :
    parseLoginDetails login false = (login, none, none) := by
  rw [parseLoginDetails, List.idxOf?_eq_none_iff.mpr h]
  dsimp only
  rw [if_neg Bool.false_ne_true, List.take_length]
  rfl

theorem parseLoginDetails_password {user : Bytes} (h : byte ':' ∉ user) (password : Bytes) :
    parseLoginDetails (user ++ byte ':' :: password) false = (user, some password, none) := by
  rw [parseLoginDetails, idxOf?_append h, if_neg Bool.false_ne_true]
  have hlen : (user ++ byte ':' :: password).length - user.length - 1 = password.length := by
    rw [List.length_append, List.length_cons]
    omega
  have hdrop : (user ++ byte ':' :: password).drop (user.length + 1) = password := by
    rw [List.append_cons]
    exact List.drop_left' (by simp)
  dsimp only
  rw [List.take_left, hlen, Option.map_some, hdrop, List.take_length]
  rfl

section

variable {B : Build} {scheme : Bytes}

/-- The scheme has no options in its user info. -/
def NoLoginOptions (B : Build) (scheme : Bytes) : Prop :=
  (getSchemeHandler B scheme).any (·.urlOptions) = false

theorem parseHostnameLogin_at (hB : NoLoginOptions B scheme) {login user : Bytes}
    {password : Option Bytes} (hlogin : byte '@' ∉ login)
    (hparts : parseLoginDetails login false = (user, password, none)) (host : Bytes) :
    parseHostnameLogin B { scheme := some scheme } (login ++ byte '@' :: host) =
      ({ scheme := some scheme, user := some user, password := password }, host) := by
  have hdrop : (login ++ byte '@' :: host).drop (login.length + 1) = host := by
    rw [List.append_cons]
    exact List.drop_left' (by simp)
  have hoptions : ((some scheme).bind (getSchemeHandler B)).any (·.urlOptions) = false := hB
  rw [parseHostnameLogin, idxOf?_append hlogin]
  dsimp only
  rw [hoptions, List.take_left, hdrop, hparts]
  cases password <;> rfl

/-- A text of user and password is the two and an `@`. -/
theorem loginText_cases {user password : Option Bytes} (h : Login user password) :
    user = none ∧ password = none ∧ loginText user password = [] ∨
      ∃ s login, user = some s ∧ byte '@' ∉ login ∧ parseLoginDetails login false = (s, password, none) ∧
        loginText user password = login ++ [byte '@'] := by
  cases user with
  | none =>
    cases password with
    | none => exact .inl ⟨rfl, rfl, rfl⟩
    | some p => exact absurd (h.of_password p rfl).1 Bool.false_ne_true
  | some s =>
    obtain ⟨hat, hcolon⟩ := h.of_user s rfl
    cases password with
    | none => exact .inr ⟨s, s ++ [], rfl, by rwa [List.append_nil], by
        rw [List.append_nil, parseLoginDetails_user hcolon], rfl⟩
    | some p =>
      refine .inr ⟨s, s ++ byte ':' :: p, rfl, ?_, parseLoginDetails_password hcolon p, rfl⟩
      intro hmem
      rcases List.mem_append.mp hmem with hmem | hmem
      · exact hat hmem
      · exact (h.of_password p rfl).2 ((List.mem_cons.mp hmem).resolve_left (by decide))

/-- **A login is taken apart** as it is put together. -/
theorem parseHostnameLogin_loginText (hB : NoLoginOptions B scheme) {user password : Option Bytes}
    (h : Login user password) {host : Bytes} (hhost : byte '@' ∉ host) :
    parseHostnameLogin B { scheme := some scheme } (loginText user password ++ host) =
      ({ scheme := some scheme, user := user, password := password }, host) := by
  obtain ⟨rfl, rfl, htext⟩ | ⟨s, login, rfl, hat, hparts, htext⟩ := loginText_cases h
  · rw [htext, List.nil_append, parseHostnameLogin, List.idxOf?_eq_none_iff.mpr hhost]
  · rw [htext, List.append_assoc]
    exact parseHostnameLogin_at hB hat hparts host

/-- What a login leaves. -/
theorem parseHostnameLogin_spec (hB : NoLoginOptions B scheme) (auth : Bytes) :
    ∃ user password host, Login user password ∧
      parseHostnameLogin B { scheme := some scheme } auth =
        ({ scheme := some scheme, user := user, password := password }, host) ∧
      auth = loginText user password ++ host := by
  cases hat : auth.idxOf? (byte '@') with
  | none =>
    refine ⟨none, none, auth, ⟨nofun, nofun⟩, ?_, rfl⟩
    rw [parseHostnameLogin, hat]
  | some i =>
    obtain ⟨login, host, rfl, hat, -⟩ := exists_of_idxOf? hat
    cases hcolon : login.idxOf? (byte ':') with
    | none =>
      have hcolon := List.idxOf?_eq_none_iff.mp hcolon
      refine ⟨some login, none, host, ⟨?_, nofun⟩, ?_, ?_⟩
      · rintro s ⟨⟩
        exact ⟨hat, hcolon⟩
      · exact parseHostnameLogin_at hB hat (parseLoginDetails_user hcolon) host
      · show _ = login ++ [] ++ [byte '@'] ++ host
        simp
    | some j =>
      obtain ⟨user, password, rfl, hcolon, -⟩ := exists_of_idxOf? hcolon
      refine ⟨some user, some password, host, ⟨?_, ?_⟩, ?_, ?_⟩
      · rintro s ⟨⟩
        exact ⟨fun hs => hat (List.mem_append_left _ hs), hcolon⟩
      · rintro s ⟨⟩
        exact ⟨rfl, fun hs => hat (List.mem_append_right _ (List.mem_cons_of_mem _ hs))⟩
      · exact parseHostnameLogin_at hB hat (parseLoginDetails_password hcolon password) host
      · show _ = user ++ ([byte ':'] ++ password) ++ [byte '@'] ++ host
        simp

end

/-! ### The port -/

/-- A host that ends where `Curl_parse_port` looks for a colon: in brackets, or without a colon. -/
def Portless (host : Bytes) : Prop :=
  if host.head? = some (byte '[') then ∃ s, host = s ++ [byte ']'] ∧ byte ']' ∉ s
  else byte ':' ∉ host

/-- No port, or a number of 16 bits. -/
def PortOf (port : Option Bytes) (portnum : Nat) : Prop :=
  port = none ∧ portnum = 0 ∨ port = some (decimal portnum) ∧ portnum ≤ 0xffff

theorem portPtr_portless {host : Bytes} (h : Portless host) : portPtr host = .ok none := by
  rw [portPtr]
  rw [Portless] at h
  split at h
  · next hhead =>
    obtain ⟨s, rfl, hs⟩ := h
    have hend : (s ++ [byte ']'])[s.length + 1]? = none := by simp
    rw [if_pos hhead, idxOf?_append hs []]
    dsimp only
    rw [hend]
  · next hhead => rw [if_neg hhead, List.idxOf?_eq_none_iff.mpr h]

theorem portPtr_append {host : Bytes} (h : Portless host) (hne : host ≠ []) (rest : Bytes) :
    portPtr (host ++ byte ':' :: rest) = .ok (some host.length) := by
  have hhead : (host ++ byte ':' :: rest).head? = host.head? := List.head?_append_of_ne_nil host hne
  rw [portPtr, hhead]
  rw [Portless] at h
  split at h
  · next hbracket =>
    obtain ⟨s, rfl, hs⟩ := h
    have hcolon : (s ++ byte ']' :: byte ':' :: rest)[s.length + 1]? = some (byte ':') := by
      simp
    have htext : s ++ [byte ']'] ++ byte ':' :: rest = s ++ byte ']' :: byte ':' :: rest := by simp
    rw [if_pos hbracket, htext, idxOf?_append hs]
    dsimp only
    rw [hcolon, List.length_append]
    rfl
  · next hbracket => rw [if_neg hbracket, idxOf?_append h]

/-- What ends a host. -/
theorem portPtr_spec {host : Bytes} :
    (portPtr host = .ok none → Portless host) ∧
      ∀ {keep}, portPtr host = .ok (some keep) → Portless (host.take keep) := by
  rw [portPtr]
  by_cases hhead : host.head? = some (byte '[')
  · rw [if_pos hhead]
    cases hi : host.idxOf? (byte ']') with
    | none =>
      dsimp only
      exact ⟨nofun, nofun⟩
    | some i =>
      obtain ⟨s, rest, rfl, hs, rfl⟩ := exists_of_idxOf? hi
      have hportless : Portless (s ++ [byte ']']) := by
        cases s with
        | nil => cases hhead
        | cons c s => exact (if_pos hhead).mpr ⟨c :: s, rfl, hs⟩
      cases rest with
      | nil =>
        have hend : (s ++ [byte ']'])[s.length + 1]? = none := by simp
        dsimp only
        rw [hend]
        exact ⟨fun _ => hportless, nofun⟩
      | cons c rest =>
        have hnext : (s ++ byte ']' :: c :: rest)[s.length + 1]? = some c := by simp
        dsimp only
        rw [hnext]
        dsimp only
        split
        · refine ⟨nofun, ?_⟩
          rintro keep ⟨⟩
          rwa [List.append_cons, List.take_left' (by simp)]
        · exact ⟨nofun, nofun⟩
  · rw [if_neg hhead]
    cases hi : host.idxOf? (byte ':') with
    | none => exact ⟨fun _ => (if_neg hhead).mpr (List.idxOf?_eq_none_iff.mp hi), nofun⟩
    | some i =>
      obtain ⟨s, rest, rfl, hs, rfl⟩ := exists_of_idxOf? hi
      refine ⟨nofun, ?_⟩
      rintro keep ⟨⟩
      rw [List.take_left]
      refine (if_neg fun hhead' => hhead ?_).mpr hs
      cases s with
      | nil => cases hhead'
      | cons c s => exact hhead'

/-- **A port is read** behind its host. -/
theorem parsePort_labelled {u : CURLU} (hu : u.port = none ∧ u.portnum = 0) {host : Bytes}
    (h : Portless host) (hne : host ≠ []) {port : Option Bytes} {portnum : Nat}
    (hport : PortOf port portnum) :
    parsePort u (host ++ labelled ":" port) true =
      .ok ({ u with port := port, portnum := portnum }, host) := by
  obtain ⟨rfl, rfl⟩ | ⟨rfl, hle⟩ := hport
  · obtain ⟨hport, hnum⟩ := hu
    rw [labelled, List.append_nil, parsePort, portPtr_portless h]
    dsimp only
    rw [← hport, ← hnum]
  · obtain ⟨c, s, hdec, -⟩ := isDigit_decimal portnum
    have hdrop : (host ++ byte ':' :: decimal portnum).drop (host.length + 1) = decimal portnum := by
      rw [List.append_cons]
      exact List.drop_left' (by simp)
    have hnil : decimal portnum ≠ [] := by
      rw [hdec]
      exact List.cons_ne_nil _ _
    show parsePort u (host ++ byte ':' :: decimal portnum) true = _
    rw [parsePort, portPtr_append h hne]
    dsimp only
    rw [hdrop, if_neg hnil, strNumBase_decimal (by omega), if_pos hle, List.take_left]

/-- What a port leaves. -/
theorem parsePort_spec {u v : CURLU} {host host' : Bytes}
    (h : parsePort u host true = .ok (v, host')) :
    Portless host' ∧ host' <+: host ∧
      (v = u ∨ ∃ portnum ≤ 0xffff, v = { u with port := some (decimal portnum), portnum := portnum }) := by
  obtain ⟨hnone, hsome⟩ := @portPtr_spec host
  rw [parsePort] at h
  split at h
  · cases h
  · next hptr =>
    cases h
    exact ⟨hnone hptr, List.prefix_rfl, .inl rfl⟩
  · next keep hptr =>
    split at h
    · cases h
      exact ⟨hsome hptr, List.take_prefix _ _, .inl rfl⟩
    · split at h
      · next port hnum =>
        cases h
        exact ⟨hsome hptr, List.take_prefix _ _, .inr ⟨port, strNumBase_le (by decide) hnum, rfl⟩⟩
      · cases h

/-! ### The authority -/

/-- The bytes that may stand in an authority. -/
def isAuthorityByte (c : UInt8) : Bool :=
  32 < c && c != 127 && c != byte '/' && c != byte '?' && c != byte '#'

theorem isAuthorityByte_bounds {c : UInt8} (h : isAuthorityByte c = true) : 32 < c.toNat := by
  simp only [isAuthorityByte, Bool.and_eq_true, decide_eq_true_eq] at h
  exact UInt8.lt_iff_toNat_lt.mp h.1.1.1.1

/-- The bytes of addresses, of numbers and of encoded text. -/
theorem authority_classes (c : UInt8) :
    (isAddressByte c = true → (isAuthorityByte c = true ∧ c ≠ byte '@') ∧ c ≠ byte ']') ∧
      (isDigit c = true → isAuthorityByte c = true) ∧
      (isUnreserved c = true ∨ c = percent ∨ (hexValue c).isSome = true →
        (isAuthorityByte c = true ∧ c ≠ byte '@') ∧ c ≠ byte ':' ∧ c ≠ byte '[') :=
  forall_byte (p := fun c =>
    (isAddressByte c = true → (isAuthorityByte c = true ∧ c ≠ byte '@') ∧ c ≠ byte ']') ∧
      (isDigit c = true → isAuthorityByte c = true) ∧
      (isUnreserved c = true ∨ c = percent ∨ (hexValue c).isSome = true →
        (isAuthorityByte c = true ∧ c ≠ byte '@') ∧ c ≠ byte ':' ∧ c ≠ byte '['))
    (by decide +kernel) c

/-- The authority as `urlget_url` writes it. -/
def authorityText (u : CURLU) : Bytes :=
  loginText u.user u.password ++ (writtenHost u.zoneid (u.host.getD []) ++ labelled ":" u.port)

/-- The parts of an authority, as a handle keeps them. -/
structure Authority (B : Build) (u : CURLU) (host : Bytes) : Prop where
  login : Login u.user u.password
  login_bytes : ∀ s, u.user = some s ∨ u.password = some s → ∀ c ∈ s, isAuthorityByte c = true
  host : HostForm B u.zoneid host
  port : PortOf u.port u.portnum

theorem parseAuthority_eq (B : Build) (u : CURLU) (auth : Bytes) (hasScheme : Bool) :
    parseAuthority B u auth hasScheme =
      match parsePort (parseHostnameLogin B u auth).1 (parseHostnameLogin B u auth).2 hasScheme with
      | .error code => .error code
      | .ok (u, host) => if host = [] then .error .noHost else checkedHost u (hostOf B host) := by
  rw [parseAuthority]
  dsimp only
  cases parsePort (parseHostnameLogin B u auth).1 (parseHostnameLogin B u auth).2 hasScheme with
  | error code => rfl
  | ok result =>
    obtain ⟨v, host⟩ := result
    dsimp only
    split
    · rfl
    · rw [hostOf]
      cases ipv4Normalize host with
      | ipv4 quad => rfl
      | ipv6 => rfl
      | name =>
        dsimp only
        cases urldecodeHost host <;> rfl

/-- A zone id that can stand in an authority. -/
def PlainZone (zone : Option Bytes) : Prop :=
  ∀ z, zone = some z → ∀ c ∈ z, isAuthorityByte c = true ∧ c ≠ byte '@'

theorem subset_loginText {user password : Option Bytes} {s : Bytes}
    (h : user = some s ∨ password = some s) : s ⊆ loginText user password := by
  intro c hc
  rcases h with rfl | rfl
  · exact List.mem_append_left _ (List.mem_append_left _ hc)
  · exact List.mem_append_left _ (List.mem_append_right _ (List.mem_append_right _ hc))

theorem mem_loginText {user password : Option Bytes} {c : UInt8} (h : c ∈ loginText user password) :
    (∃ s, (user = some s ∨ password = some s) ∧ c ∈ s) ∨ c = byte ':' ∨ c = byte '@' := by
  rw [loginText, List.mem_append, List.mem_append] at h
  rcases h with (h | h) | h
  · cases user with
    | none => cases h
    | some s => exact .inl ⟨s, .inl rfl, h⟩
  · cases password with
    | none => cases h
    | some s =>
      rcases List.mem_append.mp h with h | h
      · exact .inr (.inl (List.mem_singleton.mp h))
      · exact .inl ⟨s, .inr rfl, h⟩
  · split at h
    · exact .inr (.inr (List.mem_singleton.mp h))
    · cases h

theorem mem_port {port : Option Bytes} {portnum : Nat} (h : PortOf port portnum) {c : UInt8}
    (hc : c ∈ labelled ":" port) : c = byte ':' ∨ isDigit c = true := by
  obtain ⟨rfl, -⟩ | ⟨rfl, -⟩ := h
  · cases hc
  · rcases List.mem_append.mp hc with hc | hc
    · exact .inl (List.mem_singleton.mp hc)
    · exact .inr (isDigit_of_mem_decimal hc)

section

variable {B : Build} {zone : Option Bytes} {host : Bytes}

/-- A host is written in brackets or without what ends it. -/
theorem writtenHost_spec (h : HostForm B zone host) (hzone : PlainZone zone) :
    writtenHost zone host ≠ [] ∧ Portless (writtenHost zone host) ∧
      ∀ c ∈ writtenHost zone host, isAuthorityByte c = true ∧ c ≠ byte '@' := by
  cases h with
  | @address zone addr dest hdest hshort hbytes hz =>
    have haddress := fun c => (authority_classes c).1
    obtain ⟨s, htext, hs, hsbytes⟩ : ∃ s, writtenHost zone (byte '[' :: addr ++ [byte ']']) =
        byte '[' :: s ++ [byte ']'] ∧ byte ']' ∉ s ∧
          ∀ c ∈ s, isAuthorityByte c = true ∧ c ≠ byte '@' := by
      cases zone with
      | none =>
        refine ⟨addr, rfl, fun h => (haddress _ (hbytes _ h)).2 rfl, fun c hc => ?_⟩
        exact (haddress c (hbytes c hc)).1
      | some z =>
        have htext : writtenHost (some z) (byte '[' :: addr ++ [byte ']']) =
            byte '[' :: (addr ++ bytes "%25" ++ z) ++ [byte ']'] := by
          show (byte '[' :: addr ++ [byte ']']).take ((byte '[' :: addr ++ [byte ']']).length - 1) ++
            bytes "%25" ++ z ++ [byte ']'] = _
          rw [List.length_append, List.length_singleton, Nat.add_sub_cancel, List.take_left]
          rfl
        have hlabel : ∀ c ∈ bytes "%25", (isAuthorityByte c = true ∧ c ≠ byte '@') ∧ c ≠ byte ']' := by
          rw [show bytes "%25" = [37, 50, 53] from rfl]
          simp only [List.forall_mem_cons]
          exact ⟨by decide, by decide, by decide, nofun⟩
        refine ⟨_, htext, ?_, ?_⟩
        · intro h
          rcases List.mem_append.mp h with h | h
          · rcases List.mem_append.mp h with h | h
            · exact (haddress _ (hbytes _ h)).2 rfl
            · exact (hlabel _ h).2 rfl
          · exact (hz z rfl).2.2 h
        · intro c hc
          rcases List.mem_append.mp hc with hc | hc
          · rcases List.mem_append.mp hc with hc | hc
            · exact (haddress c (hbytes c hc)).1
            · exact (hlabel c hc).1
          · exact hzone z rfl c hc
    rw [htext]
    refine ⟨List.cons_ne_nil _ _, (if_pos rfl).mpr ⟨byte '[' :: s, rfl, ?_⟩, ?_⟩
    · intro h
      exact hs ((List.mem_cons.mp h).resolve_left (by decide))
    · intro c hc
      rcases List.mem_append.mp hc with hc | hc
      · rcases List.mem_cons.mp hc with rfl | hc
        · decide
        · exact hsbytes c hc
      · rw [List.mem_singleton.mp hc]
        decide
  | name hne hgood hplain =>
    have hbytes : ∀ c ∈ encode isUnreserved host, (isAuthorityByte c = true ∧ c ≠ byte '@') ∧
        c ≠ byte ':' ∧ c ≠ byte '[' := fun c hc => (authority_classes c).2.2 ((encoded_encode host).of_mem hc)
    rw [writtenHost_name hgood hplain]
    refine ⟨?_, ?_, fun c hc => (hbytes c hc).1⟩
    · intro hnil
      apply hne
      rw [← decode_encode isUnreserved_percent host, hnil]
      rfl
    · refine (if_neg fun hhead => ?_).mpr fun hc => (hbytes _ hc).2.1 rfl
      exact (hbytes _ (List.mem_of_head? hhead)).2.2 rfl

end

/-! ### Written and read -/

section

variable {B : Build} {scheme : Bytes} {u : CURLU} {host : Bytes} (h : Authority B u host)
  (hhost : u.host = some host) (hzone : PlainZone u.zoneid)
include h hhost hzone

theorem authorityText_ne_nil : authorityText u ≠ [] := by
  rw [authorityText, hhost]
  apply List.append_ne_nil_of_right_ne_nil
  exact List.append_ne_nil_of_left_ne_nil (writtenHost_spec h.host hzone).1 _

theorem authorityText_bytes : ∀ c ∈ authorityText u, isAuthorityByte c = true := by
  intro c hc
  rw [authorityText, hhost] at hc
  rcases List.mem_append.mp hc with hc | hc
  · rcases mem_loginText hc with ⟨s, hs, hc⟩ | rfl | rfl
    · exact h.login_bytes s hs c hc
    · decide
    · decide
  · rcases List.mem_append.mp hc with hc | hc
    · exact ((writtenHost_spec h.host hzone).2.2 c hc).1
    · rcases mem_port h.port hc with rfl | hc
      · decide
      · exact (authority_classes c).2.1 hc

/-- **An authority that is written** is read again, with its host settled. -/
theorem parseAuthority_authorityText (hB : Inet6 B) (hscheme : NoLoginOptions B scheme) :
    parseAuthority B { scheme := some scheme } (authorityText u) true =
      .ok ({ scheme := some scheme, user := u.user, password := u.password, zoneid := u.zoneid
             port := u.port, portnum := u.portnum }, settled host) := by
  obtain ⟨hne, hportless, hbytes⟩ := writtenHost_spec h.host hzone
  have hat : byte '@' ∉ writtenHost u.zoneid host ++ labelled ":" u.port := by
    intro hmem
    rcases List.mem_append.mp hmem with hmem | hmem
    · exact (hbytes _ hmem).2 rfl
    · exact absurd (mem_port h.port hmem) (by decide)
  rw [parseAuthority_eq, authorityText, hhost]
  dsimp only [Option.getD_some]
  rw [parseHostnameLogin_loginText hscheme h.login hat]
  dsimp only
  rw [parsePort_labelled ⟨rfl, rfl⟩ hportless hne h.port]
  dsimp only
  rw [if_neg hne, hostOf_written hB h.host]
  cases u.zoneid <;> rfl

end

/-- **What an authority leaves in a handle.** -/
theorem parseAuthority_spec {B : Build} (hB : Inet6 B) {scheme : Bytes} (hscheme : NoLoginOptions B scheme)
    {auth : Bytes} (hauth : ∀ c ∈ auth, isAuthorityByte c = true) {v : CURLU} {host : Bytes}
    (h : parseAuthority B { scheme := some scheme } auth true = .ok (v, host)) :
    Authority B v host ∧ (percent ∉ auth → settled host = host) ∧
      v = { scheme := some scheme, user := v.user, password := v.password, zoneid := v.zoneid
            port := v.port, portnum := v.portnum } := by
  obtain ⟨user, password, rest, hlogin, hparse, rfl⟩ := parseHostnameLogin_spec hscheme auth
  have hlogin_bytes : ∀ s, user = some s ∨ password = some s → ∀ c ∈ s, isAuthorityByte c = true :=
    fun s hs c hc => hauth c (List.mem_append_left _ (subset_loginText hs hc))
  rw [parseAuthority_eq, hparse] at h
  dsimp only at h
  cases hport : parsePort { scheme := some scheme, user := user, password := password } rest true with
  | error code =>
    rw [hport] at h
    cases h
  | ok result =>
    obtain ⟨w, name⟩ := result
    rw [hport] at h
    dsimp only at h
    obtain ⟨-, hprefix, hw⟩ := parsePort_spec hport
    split at h
    · cases h
    have hplain : ∀ c ∈ name, 32 ≤ c := by
      intro c hc
      have hbyte := hauth c (List.mem_append_right _ ( hprefix.subset hc))
      exact UInt8.le_iff_toNat_le.mpr (isAuthorityByte_bounds hbyte).le
    cases hchecked : hostOf B name with
    | mk zone checked =>
      cases checked with
      | error code =>
        rw [hchecked] at h
        cases h
      | ok name' =>
        rw [hchecked] at h
        have hform := hostForm_of_hostOf hB hplain hchecked
        have hsettled : percent ∉ loginText user password ++ rest → settled name' = name' := fun hp =>
          settled_of_hostOf hB (fun hc => hp (List.mem_append_right _ ( hprefix.subset hc))) hchecked
        rcases hw with rfl | ⟨portnum, hle, rfl⟩
        · cases h
          exact ⟨⟨hlogin, hlogin_bytes, by cases zone <;> exact hform, .inl ⟨rfl, rfl⟩⟩, hsettled, rfl⟩
        · cases h
          exact ⟨⟨hlogin, hlogin_bytes, by cases zone <;> exact hform, .inr ⟨rfl, hle⟩⟩, hsettled, rfl⟩

end NetMod.UrlAuthority
