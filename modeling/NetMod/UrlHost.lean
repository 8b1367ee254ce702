import Mathlib.Data.Nat.Digits.Lemmas
import NetMod.UrlApi

/-!
# The host of a URL

`parse_authority` takes a host for a number, an IPv6 address in brackets or a name (`hostOf`), and
`urlget_url` writes it with its zone id, or escaped.  What is written is read again (`hostOf_written`),
but for a name that is a number: it was percent-encoded, is written as it is, and is then an IPv4 address
(`settled`).
-/

namespace NetMod.UrlHost

open NetMod.Utf8Text NetMod.PercentEncoding NetMod.UrlQuery NetMod.QueryFields NetMod.CurlText
open NetMod.UrlApi

/-- The bytes of an IPv6 address. -/
def isAddressByte (c : UInt8) : Bool := isXDigit c || c == byte ':' || c == byte '.'

/-- What the C library's functions for IPv6 addresses are documented to do. -/
structure Inet6 (B : Build) : Prop where
  pton_length : ∀ {a d}, B.inetPton a = some d → 2 ≤ a.length
  ntop_bytes : ∀ {d n a}, B.inetNtop d n = some a → ∀ c ∈ a, isAddressByte c = true
  pton_ntop : ∀ {d n a}, B.inetNtop d n = some a → B.inetPton a = some d
  ntop_size : ∀ {d n m a b}, B.inetNtop d n = some a → B.inetNtop d m = some b → a = b

/-! ### The host -/

/-- What `parse_authority` makes of a host: a zone id, and the host that is stored. -/
def hostOf (B : Build) (host : Bytes) : Option Bytes × Except CURLUcode Bytes :=
  match ipv4Normalize host with
  | .ipv4 quad => (none, .ok quad)
  | .ipv6 => ipv6Parse B host
  | .name =>
    match urldecodeHost host with
    | .error code => (none, .error code)
    | .ok host => hostnameCheck B host

/-- The hosts of parsed URLs, with their zone ids. -/
inductive HostForm (B : Build) : Option Bytes → Bytes → Prop
  | address {zone : Option Bytes} {addr dest : Bytes} (hdest : B.inetPton addr = some dest)
      (hshort : (B.inetNtop dest addr.length).getD addr = addr)
      (hbytes : ∀ c ∈ addr, isAddressByte c = true)
      (hzone : ∀ z, zone = some z → z ≠ [] ∧ z.length ≤ 15 ∧ byte ']' ∉ z) :
      HostForm B zone (byte '[' :: addr ++ [byte ']'])
  | name {host : Bytes} (hne : host ≠ []) (hgood : ∀ c ∈ host, c ∉ badInHostname)
      (hplain : ∀ c ∈ host, 32 ≤ c) : HostForm B none host

/-- The host that is read when a host is written: a number is an IPv4 address. -/
def settled (host : Bytes) : Bytes :=
  match ipv4Normalize host with
  | .ipv4 quad => quad
  | _ => host

/-! ### Numbers under a limit -/

theorem validDigit_lt {base d : Nat} {c : UInt8} (h : validDigit base c = some d) : d < base := by
  rw [validDigit] at h
  split at h
  · split at h
    · next hlt =>
      cases h
      exact hlt
    · cases h
  · cases h

theorem strNumLoop_le {base max : Nat} (hmax : base ≤ max) {s : Bytes} :
    ∀ {num n : Nat} {rest : Bytes}, num ≤ max → strNumLoop base max num s = some (n, rest) → n ≤ max := by
  induction s with
  | nil =>
    rintro num n rest hnum ⟨⟩
    exact hnum
  | cons c s ih =>
    intro num n rest hnum h
    rw [strNumLoop] at h
    split at h
    · cases h
      exact hnum
    · next d hd =>
      split at h
      · cases h
      · next hfits =>
        have hd' : d < base := validDigit_lt hd
        have hle : num * base ≤ max - d := (Nat.le_div_iff_mul_le (by omega)).mp (by omega)
        exact ih (by omega) h

/-- A number that is read is not over the limit. -/
theorem strNumBase_le {base max : Nat} (hmax : base ≤ max) {s rest : Bytes} {n : Nat}
    (h : strNumBase base max s = some (n, rest)) : n ≤ max := by
  cases s with
  | nil => cases h
  | cons c s =>
    rw [strNumBase] at h
    split at h
    · exact strNumLoop_le hmax (Nat.zero_le _) h
    · cases h

/-! ### Numbers and names -/

theorem isUnreserved_of_isXDigit {c : UInt8} (h : isXDigit c = true) : isUnreserved c = true := by
  have hall := forall_byte (p := fun c => isXDigit c = true → isUnreserved c = true) (by decide +kernel)
  exact hall c h

theorem isXDigit_of_validDigit {base d : Nat} {c : UInt8} (h : validDigit base c = some d) :
    isXDigit c = true := by
  rw [validDigit] at h
  rw [isXDigit]
  split at h
  · next x hx =>
    rw [hx]
    rfl
  · cases h

theorem strNumLoop_bytes {base max : Nat} {s : Bytes} :
    ∀ {num n : Nat} {rest : Bytes}, strNumLoop base max num s = some (n, rest) →
      ∃ ds, s = ds ++ rest ∧ ∀ c ∈ ds, isXDigit c = true := by
  induction s with
  | nil =>
    rintro num n rest ⟨⟩
    exact ⟨[], rfl, nofun⟩
  | cons c s ih =>
    intro num n rest h
    rw [strNumLoop] at h
    split at h
    · cases h
      exact ⟨[], rfl, nofun⟩
    · next d hd =>
      split at h
      · cases h
      · obtain ⟨ds, rfl, hds⟩ := ih h
        refine ⟨c :: ds, rfl, ?_⟩
        intro b hb
        obtain rfl | hb := List.mem_cons.mp hb
        · exact isXDigit_of_validDigit hd
        · exact hds b hb

/-- A number is digits. -/
theorem strNumBase_bytes {base max : Nat} {s rest : Bytes} {n : Nat}
    (h : strNumBase base max s = some (n, rest)) : ∃ ds, s = ds ++ rest ∧ ∀ c ∈ ds, isXDigit c = true := by
  cases s with
  | nil => cases h
  | cons c s =>
    rw [strNumBase] at h
    split at h
    · exact strNumLoop_bytes h
    · cases h

theorem isUnreserved_append {ds rest : Bytes} (hds : ∀ c ∈ ds, isXDigit c = true)
    (hrest : ∀ c ∈ rest, isUnreserved c = true) : ∀ c ∈ ds ++ rest, isUnreserved c = true := by
  intro c hc
  rcases List.mem_append.mp hc with hc | hc
  · exact isUnreserved_of_isXDigit (hds c hc)
  · exact hrest c hc

/-- Numbers and dots are never escaped. -/
theorem ipv4Parts_bytes {k : Nat} {s : Bytes} {parts : List Nat} (h : ipv4Parts k s = some parts) :
    ∀ c ∈ s, isUnreserved c = true := by
  induction k generalizing s parts with
  | zero => cases h
  | succ k ih =>
    rw [ipv4Parts] at h
    -- the number of a part may have `0x` in front
    have hnumber : ∀ {l rest}, (if s.head? = some (byte '0') then
          if (s.drop 1).head? = some (byte 'x') then strNumBase 16 uintMax (s.drop 2)
          else strNumBase 8 uintMax s
        else strNumBase 10 uintMax s) = some (l, rest) →
        (∀ c ∈ rest, isUnreserved c = true) → ∀ c ∈ s, isUnreserved c = true := by
      intro l rest hnum hrest
      split at hnum
      · next hzero =>
        split at hnum
        · next hx =>
          obtain ⟨ds, hs, hds⟩ := strNumBase_bytes hnum
          match s, hzero, hx with
          | a :: b :: s, hzero, hx =>
            cases hzero
            cases hx
            rw [show s = ds ++ rest from hs]
            intro c hc
            obtain rfl | hc := List.mem_cons.mp hc
            · decide
            · obtain rfl | hc := List.mem_cons.mp hc
              · decide
              · exact isUnreserved_append hds hrest c hc
        · obtain ⟨ds, rfl, hds⟩ := strNumBase_bytes hnum
          exact isUnreserved_append hds hrest
      · obtain ⟨ds, rfl, hds⟩ := strNumBase_bytes hnum
        exact isUnreserved_append hds hrest
    split at h
    · cases h
    · next hnum => exact hnumber hnum nofun
    · next l d rest hnum =>
      split at h
      · next hdot =>
        obtain ⟨parts, hparts, -⟩ := Option.map_eq_some_iff.mp h
        refine hnumber hnum fun c hc => ?_
        obtain rfl | hc := List.mem_cons.mp hc
        · rw [hdot]
          decide
        · exact ih hparts c hc
      · cases h

theorem ipv4Parts_le {k : Nat} {s : Bytes} {parts : List Nat} (h : ipv4Parts k s = some parts) :
    ∀ n ∈ parts, n ≤ uintMax := by
  induction k generalizing s parts with
  | zero => cases h
  | succ k ih =>
    rw [ipv4Parts] at h
    have hnumber : ∀ {l rest}, (if s.head? = some (byte '0') then
          if (s.drop 1).head? = some (byte 'x') then strNumBase 16 uintMax (s.drop 2)
          else strNumBase 8 uintMax s
        else strNumBase 10 uintMax s) = some (l, rest) → l ≤ uintMax := by
      intro l rest hnum
      split at hnum
      · split at hnum
        · exact strNumBase_le (by decide) hnum
        · exact strNumBase_le (by decide) hnum
      · exact strNumBase_le (by decide) hnum
    split at h
    · cases h
    · next hnum =>
      cases h
      exact fun n hn => List.mem_singleton.mp hn ▸ hnumber hnum
    · next l d rest hnum =>
      split at h
      · obtain ⟨parts, hparts, rfl⟩ := Option.map_eq_some_iff.mp h
        intro n hn
        obtain rfl | hn := List.mem_cons.mp hn
        · exact hnumber hnum
        · exact ih hparts n hn
      · cases h

theorem ipv4Normalize_bracket {host : Bytes} (h : host.head? = some (byte '[')) :
    ipv4Normalize host = .ipv6 := by
  rw [ipv4Normalize, if_pos h]

/-- What is taken for a number is written as it is. -/
theorem isUnreserved_of_ipv4 {host q : Bytes} (h : ipv4Normalize host = .ipv4 q) :
    ∀ c ∈ host, isUnreserved c = true := by
  rw [ipv4Normalize] at h
  split at h
  · cases h
  · split at h
    all_goals first | cases h; done | exact ipv4Parts_bytes ‹_›

theorem isDigit_of_mem_decimal {n : Nat} {x : UInt8} (hx : x ∈ decimal n) : isDigit x = true := by
  have hall : ∀ d < 10, isDigit (UInt8.ofNat (d + 48)) = true := by decide
  obtain ⟨ds, -, hds, -, hdec⟩ := decimal_eq n
  rw [hdec] at hx
  obtain ⟨e, he, rfl⟩ := List.mem_map.mp hx
  exact hall e (hds e he)

/-- Four numbers and three dots. -/
theorem mem_quad {a b c d : Nat} {x : UInt8} (h : x ∈ quad a b c d) :
    x = byte '.' ∨ isDigit x = true := by
  have hdot : x ∈ bytes "." → x = byte '.' := List.mem_singleton.mp
  rw [quad] at h
  simp only [List.mem_append] at h
  rcases h with (((((h | h) | h) | h) | h) | h) | h
  · exact .inr (isDigit_of_mem_decimal h)
  · exact .inl (hdot h)
  · exact .inr (isDigit_of_mem_decimal h)
  · exact .inl (hdot h)
  · exact .inr (isDigit_of_mem_decimal h)
  · exact .inl (hdot h)
  · exact .inr (isDigit_of_mem_decimal h)

theorem quad_of_ipv4 {host q : Bytes} (h : ipv4Normalize host = .ipv4 q) :
    ∃ a b c d, q = quad a b c d ∧ a < 256 ∧ b < 256 ∧ c < 256 ∧ d < 256 := by
  rw [ipv4Normalize] at h
  split at h
  · cases h
  · split at h
    · next a hparts =>
      have ha : a ≤ 4294967295 := ipv4Parts_le hparts a List.mem_cons_self
      cases h
      exact ⟨_, _, _, _, rfl, by omega, by omega, by omega, by omega⟩
    · split at h
      · cases h
      · cases h
        exact ⟨_, _, _, _, rfl, by omega, by omega, by omega, by omega⟩
    · split at h
      · cases h
      · cases h
        exact ⟨_, _, _, _, rfl, by omega, by omega, by omega, by omega⟩
    · split at h
      · cases h
      · cases h
        exact ⟨_, _, _, _, rfl, by omega, by omega, by omega, by omega⟩
    · cases h

theorem decimal_head {n : Nat} (hn : n ≠ 0) : (decimal n).head? ≠ some (byte '0') := by
  have hdigits : Nat.digits 10 n ≠ [] := Nat.digits_ne_nil_iff_ne_zero.mpr hn
  have hlast := Nat.getLast_digit_ne_zero 10 hn
  have hlt := Nat.digits_lt_base (by decide : 1 < 10) (List.getLast_mem hdigits)
  have hall : ∀ d < 10, d ≠ 0 → UInt8.ofNat (d + 48) ≠ byte '0' := by decide
  rw [decimal, if_neg hn, List.head?_map, List.head?_reverse, List.getLast?_eq_some_getLast hdigits]
  exact fun h => hall _ hlt hlast (Option.some.inj h)

/-- A part of an address is read, up to a dot or the end. -/
theorem ipv4Part_decimal {n : Nat} (hn : n ≤ uintMax) {rest : Bytes}
    (hrest : rest = [] ∨ rest.head? = some (byte '.')) :
    (if (decimal n ++ rest).head? = some (byte '0') then
        if ((decimal n ++ rest).drop 1).head? = some (byte 'x') then
          strNumBase 16 uintMax ((decimal n ++ rest).drop 2)
        else strNumBase 8 uintMax (decimal n ++ rest)
      else strNumBase 10 uintMax (decimal n ++ rest)) = some (n, rest) := by
  by_cases hzero : n = 0
  · rw [hzero]
    rcases hrest with rfl | hdot
    · decide
    · cases rest with
      | nil => cases hdot
      | cons c rest =>
        cases hdot
        rfl
  · obtain ⟨ds, hne, hds, hsum, hdec⟩ := decimal_eq n
    have hhead : (decimal n ++ rest).head? ≠ some (byte '0') := by
      rw [List.head?_append_of_ne_nil]
      · exact decimal_head hzero
      · rw [hdec]
        exact fun h => hne (List.map_eq_nil_iff.mp h)
    have hends : NumberEnds rest := by
      intro c hc
      rcases hrest with rfl | hdot
      · cases hc
      · rw [Option.mem_def, hdot] at hc
        cases hc
        rfl
    rw [if_neg hhead, hdec, strNumBase_digits (by decide) hds hends hne, hsum, if_pos hn]

theorem ipv4Parts_decimal {k n : Nat} (hn : n ≤ uintMax) : ipv4Parts (k + 1) (decimal n) = some [n] := by
  have hpart := ipv4Part_decimal hn (.inl rfl)
  rw [List.append_nil] at hpart
  rw [ipv4Parts, hpart]

theorem ipv4Parts_dot {k n : Nat} (hn : n ≤ uintMax) (rest : Bytes) :
    ipv4Parts (k + 1) (decimal n ++ byte '.' :: rest) = (ipv4Parts k rest).map (n :: ·) := by
  rw [ipv4Parts, ipv4Part_decimal hn (.inr rfl)]
  exact if_pos rfl

/-- **An IPv4 address** is normal. -/
theorem ipv4Normalize_quad {a b c d : Nat} (ha : a < 256) (hb : b < 256) (hc : c < 256) (hd : d < 256) :
    ipv4Normalize (quad a b c d) = .ipv4 (quad a b c d) := by
  have hparts : ipv4Parts 4 (quad a b c d) = some [a, b, c, d] := by
    have hmax : 256 ≤ uintMax := by decide
    have htext : quad a b c d = decimal a ++ byte '.' :: (decimal b ++ byte '.' ::
        (decimal c ++ byte '.' :: decimal d)) := by
      simp only [quad, List.append_assoc]
      rfl
    rw [htext, ipv4Parts_dot (by omega), ipv4Parts_dot (by omega), ipv4Parts_dot (by omega),
      ipv4Parts_decimal (by omega)]
    rfl
  have hhead : (quad a b c d).head? ≠ some (byte '[') := by
    intro h
    rcases mem_quad (List.mem_of_head? h) with h | h
    · cases h
    · cases h
  rw [ipv4Normalize, if_neg hhead, hparts]
  dsimp only
  rw [if_neg (by omega)]

/-- What is settled stays so. -/
theorem settled_settled (host : Bytes) : settled (settled host) = settled host := by
  cases h : ipv4Normalize host with
  | ipv4 q =>
    obtain ⟨a, b, c, d, rfl, ha, hb, hc, hd⟩ := quad_of_ipv4 h
    have hsettled : settled host = quad a b c d := by rw [settled, h]
    rw [hsettled, settled, ipv4Normalize_quad ha hb hc hd]
  | ipv6 =>
    have hsettled : settled host = host := by rw [settled, h]
    rw [hsettled, hsettled]
  | name =>
    have hsettled : settled host = host := by rw [settled, h]
    rw [hsettled, hsettled]

/-! ### A host that is written -/

/-- A name is escaped when it is written. -/
theorem writtenHost_name {host : Bytes} (hgood : ∀ c ∈ host, c ∉ badInHostname)
    (hplain : ∀ c ∈ host, 32 ≤ c) : writtenHost none host = encode isUnreserved host := by
  have hhead : host.head? ≠ some (byte '[') := fun h =>
    absurd (hgood _ (List.mem_of_head? h)) (by decide)
  have hzero : host.takeWhile (· ≠ 0) = host := by
    apply takeWhile_nonzero
    intro c hc
    have hle := UInt8.le_iff_toNat_le.mp (hplain c hc)
    exact lt_of_lt_of_le (by decide) hle
  rw [writtenHost, if_neg hhead, curlEasyEscape, if_neg (by decide)]
  dsimp only
  rw [if_neg (by decide), hzero, List.take_length]
  rfl

theorem encode_of_unreserved {s : Bytes} (h : ∀ c ∈ s, isUnreserved c = true) :
    encode isUnreserved s = s := by
  induction s with
  | nil => rfl
  | cons c s ih =>
    show encodeByte isUnreserved c ++ encode isUnreserved s = c :: s
    rw [encodeByte, if_pos (h c List.mem_cons_self), ih fun d hd => h d (List.mem_cons_of_mem c hd)]
    rfl

theorem percent_mem_encode {s : Bytes} (h : ¬ ∀ c ∈ s, isUnreserved c = true) :
    percent ∈ encode isUnreserved s := by
  obtain ⟨c, hc, hreserved⟩ : ∃ c ∈ s, ¬ isUnreserved c = true := by
    simpa using h
  refine List.mem_flatMap.mpr ⟨c, hc, ?_⟩
  rw [encodeByte, if_neg hreserved]
  exact List.mem_cons_self

theorem ipv4Normalize_ne_ipv6 {host : Bytes} (hhead : host.head? ≠ some (byte '[')) :
    ipv4Normalize host ≠ .ipv6 := by
  intro h
  rw [ipv4Normalize, if_neg hhead] at h
  split at h
  · cases h
  · split at h <;> cases h
  · split at h <;> cases h
  · split at h <;> cases h
  · cases h

/-- A name with a byte that is escaped is no number. -/
theorem ipv4Normalize_of_reserved {host : Bytes} (hhead : host.head? ≠ some (byte '['))
    (hreserved : ¬ ∀ c ∈ host, isUnreserved c = true) : ipv4Normalize host = .name := by
  cases h : ipv4Normalize host with
  | ipv4 q => exact absurd (isUnreserved_of_ipv4 h) hreserved
  | ipv6 => exact absurd h (ipv4Normalize_ne_ipv6 hhead)
  | name => rfl

theorem hostnameCheck_name {B : Build} {host : Bytes} (hne : host ≠ [])
    (hgood : ∀ c ∈ host, c ∉ badInHostname) : hostnameCheck B host = (none, .ok host) := by
  have hhead : host.head? ≠ some (byte '[') := fun h =>
    absurd (hgood _ (List.mem_of_head? h)) (by decide)
  have hany : ¬ host.any (badInHostname.contains ·) = true := by
    intro h
    obtain ⟨c, hc, hbad⟩ := List.any_eq_true.mp h
    exact hgood c hc (List.contains_iff_mem.mp hbad)
  rw [hostnameCheck, if_neg hne, if_neg hhead, if_neg hany]

/-- **A name that is written** is read again, or is a number. -/
theorem hostOf_name {B : Build} {host : Bytes} (hne : host ≠ [])
    (hgood : ∀ c ∈ host, c ∉ badInHostname) (hplain : ∀ c ∈ host, 32 ≤ c) :
    hostOf B (writtenHost none host) = (none, .ok (settled host)) := by
  have hhead : host.head? ≠ some (byte '[') := fun h =>
    absurd (hgood _ (List.mem_of_head? h)) (by decide)
  rw [writtenHost_name hgood hplain]
  by_cases hall : ∀ c ∈ host, isUnreserved c = true
  · rw [encode_of_unreserved hall, hostOf, settled]
    cases h : ipv4Normalize host with
    | ipv4 q => rfl
    | ipv6 => exact absurd h (ipv4Normalize_ne_ipv6 hhead)
    | name =>
      have hpercent : ¬ host.contains percent = true := fun h =>
        absurd (hall _ (List.contains_iff_mem.mp h)) (by decide)
      dsimp only
      rw [urldecodeHost, if_neg hpercent]
      exact hostnameCheck_name hne hgood
  · -- the escaped name has a percent sign
    have hpercent := percent_mem_encode hall
    have hhead' : (encode isUnreserved host).head? ≠ some (byte '[') := fun h =>
      absurd ((encoded_encode host).of_mem (List.mem_of_head? h)) (by decide)
    have hreserved : ¬ ∀ c ∈ encode isUnreserved host, isUnreserved c = true := fun h =>
      absurd (h percent hpercent) (by decide)
    have hctrl : ¬ host.any (· < 32) = true := by
      intro h
      obtain ⟨c, hc, hlt⟩ := List.any_eq_true.mp h
      exact absurd (of_decide_eq_true hlt) (UInt8.not_lt.mpr (hplain c hc))
    rw [hostOf, ipv4Normalize_of_reserved hhead' hreserved, settled,
      ipv4Normalize_of_reserved hhead hall]
    dsimp only
    rw [urldecodeHost, if_pos (List.contains_iff_mem.mpr hpercent), urldecode,
      decode_encode isUnreserved_percent, if_neg hctrl]
    exact hostnameCheck_name hne hgood

/-- What is behind a percent sign, which may be encoded. -/
def behindPercent (h : Bytes) : Bytes :=
  if h.take 2 = bytes "25" ∧ (h.drop 2).head? ≠ none ∧ (h.drop 2).head? ≠ some (byte ']')
  then h.drop 2 else h

/-- The zone id behind a percent sign. -/
def zoneOf (h : Bytes) : Option Bytes :=
  let zoneid := ((behindPercent h).takeWhile (· ≠ byte ']')).take 15
  if zoneid = [] ∨ ((behindPercent h).drop zoneid.length).head? ≠ some (byte ']') then none
  else some zoneid

/-- **`ipv6_parse`** of a bracket, an address and what ends it. -/
theorem ipv6Parse_split (B : Build) {addr rest : Bytes} (hbytes : ∀ c ∈ addr, isAddressByte c = true)
    (hrest : ∀ c ∈ rest.head?, isAddressByte c = false) :
    ipv6Parse B (byte '[' :: (addr ++ rest)) =
      if addr.length + rest.length < 3 then (none, .error .badIpv6)
      else if rest.length = 1 then (none, normalizeIpv6 B addr)
      else
        match rest with
        | [] => (none, .error .badIpv6)
        | c :: h =>
          match if c = percent then zoneOf h else none with
          | none => (none, .error .badIpv6)
          | some zoneid => (some zoneid, normalizeIpv6 B addr) := by
  have htake : (addr ++ rest).takeWhile isAddressByte = addr := by
    rw [List.takeWhile_append_of_pos hbytes]
    cases rest with
    | nil => simp
    | cons c rest =>
      rw [List.takeWhile_cons_of_neg (Bool.eq_false_iff.mp (hrest c rfl)), List.append_nil]
  have hlength : (byte '[' :: (addr ++ rest)).length = addr.length + rest.length + 1 := by simp
  have hunfold : ∀ name : Bytes,
      (name.takeWhile fun c => isXDigit c || c == byte ':' || c == byte '.') =
        name.takeWhile isAddressByte := fun _ => rfl
  have hdrop : (byte '[' :: (addr ++ rest)).drop 1 = addr ++ rest := rfl
  rw [ipv6Parse]
  dsimp only
  rw [hdrop, hunfold, htake, hlength, List.take_left, List.drop_left]
  by_cases hshort : addr.length + rest.length < 3
  · rw [if_pos (by omega), if_pos hshort]
  · rw [if_neg (by omega), if_neg hshort]
    by_cases hone : rest.length = 1
    · have hlen : addr.length + rest.length + 1 - 2 = addr.length := by omega
      rw [hlen, if_pos rfl, if_pos hone, List.take_left]
    · rw [if_neg (by omega), if_neg hone]
      cases rest with
      | nil => rfl
      | cons c h =>
        dsimp only
        by_cases hc : c = percent
        · rw [if_pos hc, if_pos hc, zoneOf]
          by_cases hz : ((behindPercent h).takeWhile (· ≠ byte ']')).take 15 = [] ∨
              ((behindPercent h).drop (((behindPercent h).takeWhile (· ≠ byte ']')).take 15).length).head? ≠
                some (byte ']')
          · rw [if_pos hz]
            exact if_pos hz
          · rw [if_neg hz]
            exact if_neg hz
        · rw [if_neg hc, if_neg hc]

theorem zoneOf_written {zone : Bytes} (hne : zone ≠ []) (hshort : zone.length ≤ 15)
    (hzone : byte ']' ∉ zone) : zoneOf (bytes "25" ++ (zone ++ [byte ']'])) = some zone := by
  obtain ⟨c, s, rfl⟩ := List.exists_cons_of_ne_nil hne
  have hc : c ≠ byte ']' := fun hc => hzone (hc ▸ List.mem_cons_self)
  have hskip : (bytes "25" ++ (c :: s ++ [byte ']'])).take 2 = bytes "25" ∧
      ((bytes "25" ++ (c :: s ++ [byte ']'])).drop 2).head? ≠ none ∧
      ((bytes "25" ++ (c :: s ++ [byte ']'])).drop 2).head? ≠ some (byte ']') :=
    ⟨rfl, nofun, fun h => hc (Option.some.inj h)⟩
  have hdrop : (bytes "25" ++ (c :: s ++ [byte ']'])).drop 2 = c :: s ++ [byte ']'] := rfl
  have htake : ((c :: s ++ [byte ']']).takeWhile (· ≠ byte ']')).take 15 = c :: s := by
    rw [List.takeWhile_append_of_pos, List.takeWhile_cons_of_neg (by decide), List.append_nil,
      List.take_of_length_le hshort]
    intro d hd
    apply decide_eq_true
    rintro rfl
    exact hzone hd
  have hends : ((c :: s ++ [byte ']']).drop (c :: s).length).head? = some (byte ']') := by
    rw [List.drop_left]
    rfl
  rw [zoneOf, behindPercent, if_pos hskip, hdrop, htake, hends, if_neg]
  rintro (h | h)
  · cases h
  · exact h rfl

theorem zoneOf_spec {h zone : Bytes} (hz : zoneOf h = some zone) :
    zone ≠ [] ∧ zone.length ≤ 15 ∧ byte ']' ∉ zone ∧ zone ⊆ h := by
  rw [zoneOf] at hz
  split at hz
  · cases hz
  · next hgood =>
    cases hz
    refine ⟨fun hnil => hgood (.inl hnil), List.length_take_le _ _, ?_, ?_⟩
    · intro hmem
      have hne := List.mem_takeWhile_imp (List.mem_of_mem_take hmem)
      exact absurd rfl (of_decide_eq_true hne)
    · intro c hc
      have hmem := List.takeWhile_subset _ (List.mem_of_mem_take hc)
      rw [behindPercent] at hmem
      split at hmem
      · exact List.mem_of_mem_drop hmem
      · exact hmem

theorem normalizeIpv6_short {B : Build} {addr dest : Bytes} (hdest : B.inetPton addr = some dest)
    (hshort : (B.inetNtop dest addr.length).getD addr = addr) :
    normalizeIpv6 B addr = .ok (byte '[' :: addr ++ [byte ']']) := by
  rw [normalizeIpv6, hdest]
  dsimp only
  rw [hshort]

section

variable {B : Build} (hB : Inet6 B)
include hB

/-- What an address is written as is written so. -/
theorem normalizeIpv6_spec {addr host : Bytes} (hbytes : ∀ c ∈ addr, isAddressByte c = true)
    (h : normalizeIpv6 B addr = .ok host) :
    ∃ addr' dest, host = byte '[' :: addr' ++ [byte ']'] ∧ B.inetPton addr' = some dest ∧
      (B.inetNtop dest addr'.length).getD addr' = addr' ∧ ∀ c ∈ addr', isAddressByte c = true := by
  rw [normalizeIpv6] at h
  split at h
  · cases h
  · next dest hdest =>
    cases hntop : B.inetNtop dest addr.length with
    | none =>
      rw [hntop] at h
      cases h
      exact ⟨addr, dest, rfl, hdest, by rw [hntop]; rfl, hbytes⟩
    | some addr' =>
      rw [hntop] at h
      cases h
      refine ⟨addr', dest, rfl, hB.pton_ntop hntop, ?_, hB.ntop_bytes hntop⟩
      cases hagain : B.inetNtop dest addr'.length with
      | none => rfl
      | some a => exact hB.ntop_size hagain hntop

/-- **An address that is written** is read again, with its zone id. -/
theorem hostOf_address {zone : Option Bytes} {addr dest : Bytes} (hdest : B.inetPton addr = some dest)
    (hshort : (B.inetNtop dest addr.length).getD addr = addr)
    (hbytes : ∀ c ∈ addr, isAddressByte c = true)
    (hzone : ∀ z, zone = some z → z ≠ [] ∧ z.length ≤ 15 ∧ byte ']' ∉ z) :
    hostOf B (writtenHost zone (byte '[' :: addr ++ [byte ']'])) =
      (zone, .ok (byte '[' :: addr ++ [byte ']'])) := by
  have hlen := hB.pton_length hdest
  have hnormal := normalizeIpv6_short hdest hshort
  cases zone with
  | none =>
    show hostOf B (byte '[' :: (addr ++ [byte ']'])) = _
    rw [hostOf, ipv4Normalize_bracket rfl]
    dsimp only
    have hrest : ∀ c ∈ [byte ']'].head?, isAddressByte c = false := by
      rintro c ⟨⟩
      decide
    rw [ipv6Parse_split B hbytes hrest, List.length_singleton, if_neg (by omega), if_pos rfl, hnormal]
  | some z =>
    obtain ⟨hne, hz, hbracket⟩ := hzone z rfl
    have htext : writtenHost (some z) (byte '[' :: addr ++ [byte ']']) =
        byte '[' :: (addr ++ percent :: (bytes "25" ++ (z ++ [byte ']']))) := by
      show (byte '[' :: addr ++ [byte ']']).take ((byte '[' :: addr ++ [byte ']']).length - 1) ++
        bytes "%25" ++ z ++ [byte ']'] = _
      rw [List.length_append, List.length_singleton, Nat.add_sub_cancel, List.take_left]
      simp only [List.append_assoc, List.cons_append]
      rfl
    rw [htext, hostOf, ipv4Normalize_bracket rfl]
    dsimp only
    rw [ipv6Parse_split B hbytes (by rintro c ⟨⟩; decide), if_neg, if_neg]
    · dsimp only
      rw [if_pos rfl, zoneOf_written hne hz hbracket, hnormal]
    · rw [List.length_cons, List.length_append, List.length_append, List.length_singleton]
      omega
    · rw [List.length_cons, List.length_append, List.length_append, List.length_singleton]
      omega

omit hB in
theorem settled_address (addr : Bytes) :
    settled (byte '[' :: addr ++ [byte ']']) = byte '[' :: addr ++ [byte ']'] := by
  rw [settled, ipv4Normalize_bracket rfl]

theorem hostOf_written {zone : Option Bytes} {host : Bytes} (h : HostForm B zone host) :
    hostOf B (writtenHost zone host) = (zone, .ok (settled host)) := by
  cases h with
  | address hdest hshort hbytes hzone =>
    rw [hostOf_address hB hdest hshort hbytes hzone, settled_address]
  | name hne hgood hplain => exact hostOf_name hne hgood hplain

/-! ### A host that is read -/

theorem hostForm_of_ipv6Parse {host name : Bytes} {zone : Option Bytes}
    (hhead : host.head? = some (byte '[')) (h : ipv6Parse B host = (zone, .ok name)) :
    HostForm B zone name ∧ settled name = name := by
  cases host with
  | nil => cases hhead
  | cons c host =>
    cases hhead
    have hbytes : ∀ c ∈ host.takeWhile isAddressByte, isAddressByte c = true := fun c hc =>
      List.mem_takeWhile_imp hc
    have hrest : ∀ c ∈ (host.dropWhile isAddressByte).head?, isAddressByte c = false := by
      intro c hc
      have hnot := List.head?_dropWhile_not isAddressByte host
      rw [Option.mem_def.mp hc] at hnot
      exact hnot
    rw [← List.takeWhile_append_dropWhile (p := isAddressByte) (l := host),
      ipv6Parse_split B hbytes hrest] at h
    split at h
    · cases h
    split at h
    · obtain ⟨hzone, hname⟩ := Prod.mk.inj h
      obtain ⟨addr, dest, rfl, hdest, hshort, haddr⟩ := normalizeIpv6_spec hB hbytes hname
      refine ⟨.address hdest hshort haddr ?_, settled_address addr⟩
      rw [← hzone]
      exact nofun
    split at h
    · cases h
    · split at h
      · cases h
      · next z hz =>
        obtain ⟨hzone, hname⟩ := Prod.mk.inj h
        obtain ⟨addr, dest, rfl, hdest, hshort, haddr⟩ := normalizeIpv6_spec hB hbytes hname
        split at hz
        · obtain ⟨hne, hlen, hbracket, -⟩ := zoneOf_spec hz
          refine ⟨.address hdest hshort haddr ?_, settled_address addr⟩
          rw [← hzone]
          rintro _ ⟨⟩
          exact ⟨hne, hlen, hbracket⟩
        · cases hz

theorem hostForm_of_hostnameCheck {host name : Bytes} {zone : Option Bytes}
    (hplain : ∀ c ∈ host, 32 ≤ c) (h : hostnameCheck B host = (zone, .ok name)) :
    HostForm B zone name := by
  rw [hostnameCheck] at h
  split at h
  · cases h
  next hne =>
  split at h
  · next hhead => exact (hostForm_of_ipv6Parse hB hhead h).1
  split at h
  · cases h
  · next hany =>
    cases h
    refine .name hne (fun c hc hbad => hany ?_) hplain
    exact List.any_eq_true.mpr ⟨c, hc, List.contains_iff_mem.mpr hbad⟩

/-- **The hosts that `parse_authority` stores.** -/
theorem hostForm_of_hostOf {host name : Bytes} {zone : Option Bytes}
    (hplain : ∀ c ∈ host, 32 ≤ c) (h : hostOf B host = (zone, .ok name)) : HostForm B zone name := by
  rw [hostOf] at h
  cases htype : ipv4Normalize host with
  | ipv4 q =>
    rw [htype] at h
    cases h
    obtain ⟨a, b, c, d, rfl, -⟩ := quad_of_ipv4 htype
    have hdigits := forall_byte (p := fun x => x = byte '.' ∨ isDigit x = true →
      x ∉ badInHostname ∧ 32 ≤ x) (by decide +kernel)
    have hquad : ∀ x ∈ quad a b c d, x ∉ badInHostname ∧ 32 ≤ x := fun x hx => hdigits x (mem_quad hx)
    refine .name ?_ (fun x hx => (hquad x hx).1) fun x hx => (hquad x hx).2
    obtain ⟨x, s, hdec, -⟩ := isDigit_decimal a
    simp [quad, hdec]
  | ipv6 =>
    rw [htype] at h
    refine (hostForm_of_ipv6Parse hB ?_ h).1
    by_contra hhead
    exact ipv4Normalize_ne_ipv6 hhead htype
  | name =>
    rw [htype] at h
    dsimp only at h
    cases hdecoded : urldecodeHost host with
    | error code =>
      rw [hdecoded] at h
      cases h
    | ok decoded =>
      rw [hdecoded] at h
      refine hostForm_of_hostnameCheck hB ?_ h
      rw [urldecodeHost] at hdecoded
      split at hdecoded
      · rw [urldecode] at hdecoded
        split at hdecoded
        · cases hdecoded
        · next bytes hbytes =>
          split at hbytes
          · cases hbytes
          · next hctrl =>
            cases hbytes
            cases hdecoded
            intro c hc
            rw [← UInt8.not_lt]
            exact fun hlt => hctrl (List.any_eq_true.mpr ⟨c, hc, decide_eq_true hlt⟩)
      · cases hdecoded
        exact hplain

/-- **A host that is not encoded** is settled. -/
theorem settled_of_hostOf {host name : Bytes} {zone : Option Bytes} (hpercent : percent ∉ host)
    (h : hostOf B host = (zone, .ok name)) : settled name = name := by
  rw [hostOf] at h
  cases htype : ipv4Normalize host with
  | ipv4 q =>
    rw [htype] at h
    cases h
    have hsettled : settled host = name := by rw [settled, htype]
    rw [← hsettled, settled_settled]
  | ipv6 =>
    rw [htype] at h
    refine (hostForm_of_ipv6Parse hB ?_ h).2
    by_contra hhead
    exact ipv4Normalize_ne_ipv6 hhead htype
  | name =>
    have hhead : host.head? ≠ some (byte '[') := by
      intro hhead
      rw [ipv4Normalize_bracket hhead] at htype
      cases htype
    have hdecode : ¬ host.contains percent = true := fun hc => hpercent (List.contains_iff_mem.mp hc)
    rw [htype] at h
    dsimp only at h
    rw [urldecodeHost, if_neg hdecode] at h
    dsimp only at h
    rw [hostnameCheck] at h
    split at h
    · cases h
    split at h
    · cases h
    · cases h
      rw [settled, htype]

end

end NetMod.UrlHost
