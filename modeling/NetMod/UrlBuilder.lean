import NetMod.Lib.SlotWrites
import NetMod.UrlRewriting

/-!
# `TUrlBuilder`: the URL that is built, written and parsed again

The setters of a builder write one part each and look at no result; the getters of `TUrl` decode what is
stored.  A part of the URL that is built is what the last call for it said (`read_run`).  Password, path,
query and fragment are stored encoded, so that they come back whatever characters they have, also from
the URL that `ToString` writes and `New` parses (`built_comes_back`).
-/

namespace NetMod.UrlBuilder

open NetMod.BlitzText NetMod.Utf8Text NetMod.PercentEncoding NetMod.UrlQuery NetMod.QueryFields
open NetMod.CurlText NetMod.UrlApi NetMod.RequestUrl NetMod.SlotWrites NetMod.SeparatedText
open NetMod.UrlPath NetMod.UrlHost NetMod.UrlAuthority NetMod.UrlRewriting

/-! ### The getters of `TUrl` -/

def getUser (B : Build) (u : TUrl) : Text := u.getPart B .user { urldecode := true }

def getPassword (B : Build) (u : TUrl) : Text := u.getPart B .password { urldecode := true }

def getHost (B : Build) (u : TUrl) : Text := u.getPart B .host { urldecode := true }

def getPort (B : Build) (u : TUrl) : Text := u.getPart B .port { defaultPort := true }

def getPath (B : Build) (u : TUrl) : Text := u.getPart B .path { urldecode := true }

def getQuery (B : Build) (u : TUrl) : Text := u.getPart B .query { urldecode := true }

def getFragment (B : Build) (u : TUrl) : Text := u.getPart B .fragment { urldecode := true }

/-! ### The setters of `TUrlBuilder` -/

/-- A call of a setter; `Port(port:Int)` is `Port(String(port))`. -/
inductive Call where
  | scheme (scheme : Text)
  | user (user : Text)
  | password (password : Text)
  | options (options : Text)
  | host (host : Text)
  | port (port : Text)
  | path (path : Text)
  | query (query : Text)
  | fragment (fragment : Text)

def call (B : Build) (u : TUrl) : Call → TUrl
  | .scheme scheme => TUrlBuilder.scheme B scheme u
  | .user user => .set B .user false user u
  | .password password => .set B .password true password u
  | .options options => .set B .options false options u
  | .host host => TUrlBuilder.host B host u
  | .port port => .set B .port false port u
  | .path path => TUrlBuilder.path B path u
  | .query query => .set B .query false (encodeQueryPreservingSeparators query) u
  | .fragment fragment => .set B .fragment true fragment u

/-- `TUrl.Builder()`, the calls in their order, and `Build()`. -/
def run (B : Build) (calls : List Call) : TUrl := calls.foldl (call B) .empty

namespace Call

/-- The part a call is for. -/
def part : Call → CURLUPart
  | .scheme _ => .scheme
  | .user _ => .user
  | .password _ => .password
  | .options _ => .options
  | .host _ => .host
  | .port _ => .port
  | .path _ => .path
  | .query _ => .query
  | .fragment _ => .fragment

def value : Call → Text
  | .scheme t | .user t | .password t | .options t | .host t | .port t | .path t | .query t
  | .fragment t => t

/-- The call for a part with a setter. -/
def mk : CURLUPart → Text → Call
  | .scheme => .scheme
  | .user => .user
  | .password => .password
  | .host => .host
  | .port => .port
  | .path => .path
  | .query => .query
  | .fragment => .fragment
  | .options | .url | .zoneid => .options

theorem mk_part (c : Call) : mk c.part c.value = c := by
  cases c <;> rfl

end Call

/-- The last value given for a part. -/
def lastValue (calls : List Call) (part : CURLUPart) : Option Text :=
  (lastOf (fun c : Call => c.part = part) calls).map Call.value

/-- A path has a slash in front. -/
def slashed (path : Text) : Text := if path.head? = some (asc '/') then path else asc '/' :: path

/-- The bytes of a path, with a slash in front. -/
def pathBytes (s : Bytes) : Bytes :=
  (if isSlash s = false then bytes "/" else []) ++ encode (fun c => isUnreserved c || allowedInPath c) s

/-- Not longer than `curl_url_set` takes. -/
def Short (s : Bytes) : Prop := s.length ≤ curlMaxInputLength

/-- A call whose value is taken, and is read as it is: what is stored as given has no byte that ends its
part, what is stored encoded has no control characters, and a path no dot segments. -/
def Clean (B : Build) : Call → Prop
  | .scheme s => 0 ∉ s ∧ KnownScheme B (cString s) ∧ cString s ≠ bytes "file" ∧
    NoLoginOptions B (cString s)
  | .user s => 0 ∉ s ∧ Short (cString s) ∧
    ∀ c ∈ cString s, isAuthorityByte c = true ∧ c ≠ byte ':' ∧ c ≠ byte '@' ∧ c ≠ percent
  | .password s => Short (cString s) ∧ NoControl s
  | .options _ => False
  | .host s => 0 ∉ s ∧ s ≠ [] ∧ Short (cString s) ∧ (∀ c ∈ cString s, c ∉ badInHostname ∧ 32 ≤ c) ∧
    settled (cString s) = cString s
  | .port s => Short (cString s) ∧ ∃ n : Nat, n ≤ 0xffff ∧ s = ofInt n
  | .path s => Short (cString s) ∧ NoControl s ∧ dedotdotify (pathBytes (cString s)) = pathBytes (cString s)
  | .query s => QueryEscapes s ∧ Short (queryBytes s) ∧ NoControl s
  | .fragment s => Short (cString s) ∧ NoControl s

/-- Each getter gives the last value set. -/
structure Gives (B : Build) (calls : List Call) (s : Text) (u : TUrl) : Prop where
  scheme : u.getScheme B = s
  user : getUser B u = (lastValue calls .user).getD []
  password : getPassword B u = (lastValue calls .password).getD []
  host : getHost B u = (lastValue calls .host).getD []
  port : getPort B u = (lastValue calls .port).getD
    (((getSchemeHandler B (cString s)).map fun h => ofInt h.defport).getD [])
  path : getPath B u = slashed ((lastValue calls .path).getD [])
  query : getQuery B u = (lastValue calls .query).getD []
  fragment : getFragment B u = (lastValue calls .fragment).getD []

/-! ### What is stored -/

/-- The bytes of a text of one-byte characters. -/
def IsAscii (s : Bytes) : Prop := ∀ c ∈ s, 0 < c.toNat ∧ c.toNat < 128

/-- The bytes of an encoded part, an encoded path, and a query whose digits may be put in lower case. -/
theorem encoded_classes (c : UInt8) :
    (isUnreserved c = true ∨ c = percent ∨ (hexValue c).isSome = true → c ≠ byte '@' ∧ c.toNat < 128) ∧
      ((isUnreserved c || allowedInPath c) = true ∨ c = percent ∨ (hexValue c).isSome = true →
        isPlainByte c = true ∧ c ≠ byte '?' ∧ c ≠ byte '#' ∧ c.toNat < 128) ∧
      (isQueryByte c = true ∨ c = percent ∨ (hexValue c).isSome = true →
        ∀ d, d = c ∨ d = rawToLower c →
          isPlainByte d = true ∧ d ≠ byte '#' ∧ d ≠ byte '+' ∧ d.toNat < 128) ∧
      hexValue (rawToLower c) = hexValue c := by
  have hall := forall_byte (p := fun c =>
    (isUnreserved c = true ∨ c = percent ∨ (hexValue c).isSome = true → c ≠ byte '@' ∧ c.toNat < 128) ∧
      ((isUnreserved c || allowedInPath c) = true ∨ c = percent ∨ (hexValue c).isSome = true →
        isPlainByte c = true ∧ c ≠ byte '?' ∧ c ≠ byte '#' ∧ c.toNat < 128) ∧
      (isQueryByte c = true ∨ c = percent ∨ (hexValue c).isSome = true →
        (isPlainByte c = true ∧ c ≠ byte '#' ∧ c ≠ byte '+' ∧ c.toNat < 128) ∧
        (isPlainByte (rawToLower c) = true ∧ rawToLower c ≠ byte '#' ∧ rawToLower c ≠ byte '+' ∧
          (rawToLower c).toNat < 128)) ∧
      hexValue (rawToLower c) = hexValue c) (by decide +kernel)
  obtain ⟨hpart, hpath, hquery, hdigit⟩ := hall c
  refine ⟨hpart, hpath, fun hc d hd => ?_, hdigit⟩
  rcases hd with rfl | rfl
  · exact (hquery hc).1
  · exact (hquery hc).2

theorem isDigit_bounds {c : UInt8} (h : isDigit c = true) : 48 ≤ c.toNat ∧ c.toNat ≤ 122 :=
  isAlnum_bounds (by rw [isAlnum, h]; rfl)

theorem isPlainByte_bounds {c : UInt8} (h : isPlainByte c = true) : 32 < c.toNat := by
  rw [isPlainByte, Bool.and_eq_true, decide_eq_true_eq] at h
  exact UInt8.lt_iff_toNat_lt.mp h.1

/-- The bytes that are stored for a value. -/
def stored : Call → Option Bytes
  | .scheme s | .user s | .options s | .host s | .port s => some (cString s)
  | .password s | .fragment s => some (encode isUnreserved (cString s)) |>.filter (· ≠ [])
  | .path s => some (pathBytes (cString s))
  | .query s => some (lowerTriples (queryBytes s))

/-- What a call with a clean value does to the handle. -/
def store (u : CURLU) (c : Call) : CURLU :=
  match c with
  | .scheme _ => { u with scheme := stored c, guessedScheme := false }
  | .user _ => { u with user := stored c }
  | .password _ => { u with password := stored c }
  | .options _ => { u with options := stored c }
  | .host _ => { u with zoneid := none, host := stored c }
  | .port s => { u with port := stored c, portnum := ((strNumBase 10 0xffff (cString s)).map (·.1)).getD 0 }
  | .path _ => { u with path := stored c }
  | .query _ => { u with query := stored c, queryPresent := true }
  | .fragment _ => { u with fragment := stored c, fragmentPresent := true }

/-- A part that is set as it is. -/
theorem newPart_plain {s : Bytes} (h : percent ∉ s) : newPart s false false false = s := by
  show [] ++ lowerTriples s = s
  rw [List.nil_append, lowerTriples_of_not_mem h]

/-- A part that is set encoded. -/
theorem newPart_encoded (s : Bytes) : newPart s true false false = encode isUnreserved s := by
  have hbyte : ∀ c, (if c = byte ' ' ∧ false = true then bytes "+"
      else encodeByte (fun c => isUnreserved c || (false && allowedInPath c)) c) =
      encodeByte isUnreserved c := by
    intro c
    rw [if_neg (fun h => Bool.false_ne_true h.2)]
    simp only [Bool.false_and, Bool.or_false]
  show [] ++ s.flatMap _ = s.flatMap _
  rw [List.nil_append]
  exact congrArg (s.flatMap ·) (funext hbyte)

theorem newPart_path (s : Bytes) : newPart s true false true = pathBytes s := by
  have hbyte : ∀ c, (if c = byte ' ' ∧ false = true then bytes "+"
      else encodeByte (fun c => isUnreserved c || (true && allowedInPath c)) c) =
      encodeByte (fun c => isUnreserved c || allowedInPath c) c := by
    intro c
    rw [if_neg (fun h => Bool.false_ne_true h.2)]
    simp only [Bool.true_and]
  show (if true = true ∧ isSlash s = false then bytes "/" else []) ++ s.flatMap _ = _
  rw [pathBytes]
  simp only [true_and]
  exact congrArg (_ ++ s.flatMap ·) (funext hbyte)

theorem isSlash_pathBytes (s : Bytes) : isSlash (pathBytes s) = true := by
  rw [pathBytes]
  cases hs : isSlash s with
  | false => rfl
  | true =>
    cases s with
    | nil => cases hs
    | cons c s =>
      obtain rfl : c = byte '/' := Option.some.inj (eq_of_beq hs)
      rfl

theorem stored_encoded {s : Bytes} (h : s ≠ []) :
    (some (encode isUnreserved s)).filter (· ≠ []) = some (encode isUnreserved s) := by
  rw [Option.filter_some, if_pos]
  apply decide_eq_true
  intro hnil
  apply h
  rw [← decode_encode isUnreserved_percent s, hnil]
  rfl

theorem dynPtr_encoded (s : Bytes) : dynPtr s true = (some s).filter (· ≠ []) := by
  rw [dynPtr, Option.filter_some]
  by_cases h : s = [] <;> simp [h]

theorem cString_ne_nil {s : Text} (h0 : 0 ∉ s) (h : s ≠ []) : cString s ≠ [] := by
  have hback := fromUTF8String_toUTF8String h0
  intro hnil
  apply h
  rw [← hback, fromUTF8String]
  show fromUTF8Bytes (cString s) = []
  rw [hnil]
  rfl

/-- What `curl_url_set` is given of an encoded query. -/
theorem cString_query {q : Text} (h : QueryEscapes q) :
    cString (encodeQueryPreservingSeparators q) = queryBytes q := by
  rw [encodeQuery_eq_ascii h]
  refine cString_ascii fun b hb => ?_
  obtain ⟨hplain, -, -, hlow⟩ := (encoded_classes b).2.2.1 ((queryBytes_encoded q).of_mem hb) b (.inl rfl)
  exact ⟨(Nat.zero_le 32).trans_lt (isPlainByte_bounds hplain), hlow⟩

section

variable {B : Build} {u : CURLU}

theorem call_scheme {s : Text} (h : Clean B (.scheme s)) :
    call B ⟨u⟩ (.scheme s) = ⟨store u (.scheme s)⟩ := by
  obtain ⟨-, hknown, -⟩ := h
  obtain ⟨g, hg⟩ := Option.isSome_iff_exists.mp hknown.handled
  obtain ⟨hne, hlen⟩ := length_scheme hknown.handled
  have halnum := isAlnum_of_handler hg
  have hpercent : percent ∉ cString s := fun hp => absurd (halnum _ hp) (by decide)
  have hset : setUrlScheme B (cString s) = none := by
    have hpos := List.length_pos_of_ne_nil hne
    rw [setUrlScheme, if_neg, if_neg]
    · rw [hg]
      exact Bool.false_ne_true
    · rw [maxSchemeLen]
      omega
  show TUrl.mk (curlUrlSet B u .scheme (cString s) false).2 = _
  rw [curlUrlSet, if_neg (by rw [curlMaxInputLength]; omega)]
  dsimp only
  rw [hset, newPart_plain hpercent]
  rfl

theorem call_user {s : Text} (h : Clean B (.user s)) : call B ⟨u⟩ (.user s) = ⟨store u (.user s)⟩ := by
  obtain ⟨-, hshort, hbytes⟩ := h
  have hpercent : percent ∉ cString s := fun hp => (hbytes _ hp).2.2.2 rfl
  show TUrl.mk (curlUrlSet B u .user (cString s) false).2 = _
  rw [curlUrlSet, if_neg (Nat.not_lt.mpr hshort)]
  exact congrArg (fun s => TUrl.mk { u with user := some s }) (newPart_plain hpercent)

theorem call_password {s : Text} (h : Clean B (.password s)) :
    call B ⟨u⟩ (.password s) = ⟨store u (.password s)⟩ := by
  show TUrl.mk (curlUrlSet B u .password (cString s) true).2 = _
  rw [store, stored, ← dynPtr_encoded, ← newPart_encoded, curlUrlSet, if_neg (Nat.not_lt.mpr h.1)]
  rfl

theorem call_host {s : Text} (h : Clean B (.host s)) : call B ⟨u⟩ (.host s) = ⟨store u (.host s)⟩ := by
  obtain ⟨h0, hne, hshort, hbytes, -⟩ := h
  have hpercent : percent ∉ cString s := fun hp => absurd (hbytes _ hp).1 (by decide)
  have hctrl : ¬ (cString s).any (· < 32) = true := by
    intro hany
    obtain ⟨c, hc, hlt⟩ := List.any_eq_true.mp hany
    exact absurd (of_decide_eq_true hlt) (UInt8.not_lt.mpr (hbytes c hc).2)
  have hfine : hostFine B (cString s) false = (none, true) := by
    have hdecode : urldecode (cString s) = some (cString s) := by
      rw [urldecode, decode_of_not_mem hpercent, if_neg hctrl]
    rw [hostFine, if_neg (cString_ne_nil h0 hne), if_neg Bool.false_ne_true, hdecode]
    dsimp only
    rw [hostnameCheck_name (cString_ne_nil h0 hne) fun c hc => (hbytes c hc).1]
    rfl
  show TUrl.mk (curlUrlSet B u .host (cString s) false).2 = _
  rw [set_host_eq B u (Nat.not_lt.mpr hshort), lowerTriples_of_not_mem hpercent, hfine]
  rfl

theorem call_port {s : Text} (h : Clean B (.port s)) : call B ⟨u⟩ (.port s) = ⟨store u (.port s)⟩ := by
  obtain ⟨hshort, n, hn, rfl⟩ := h
  have hcString : cString (ofInt n) = decimal n := cString_ofInt (Int.natCast_nonneg n)
  have hnum : strNumBase 10 0xffff (decimal n) = some (n, []) := by
    rw [strNumBase_decimal (by omega), if_pos hn]
  have hdigit : ((decimal n).head?.any isDigit) = true := by
    obtain ⟨c, s, hdec, hc⟩ := isDigit_decimal n
    rw [hdec]
    exact hc
  rw [hcString] at hshort
  show TUrl.mk (curlUrlSet B u .port (cString (ofInt n)) false).2 = _
  rw [store, stored, hcString, curlUrlSet, if_neg (Nat.not_lt.mpr hshort)]
  dsimp only
  rw [setUrlPort, if_pos hdigit, hnum]
  rfl

theorem call_path {s : Text} (h : Clean B (.path s)) : call B ⟨u⟩ (.path s) = ⟨store u (.path s)⟩ := by
  have hne : pathBytes (cString s) ≠ [] := fun hnil =>
    absurd (isSlash_pathBytes (cString s)) (by rw [hnil]; exact Bool.false_ne_true)
  have hptr : dynPtr (pathBytes (cString s)) true = some (pathBytes (cString s)) :=
    if_neg fun hnil => hne hnil.2
  show TUrl.mk (curlUrlSet B u .path (cString s) true).2 = _
  rw [store, stored, ← hptr, ← newPart_path, curlUrlSet, if_neg (Nat.not_lt.mpr h.1)]
  rfl

theorem call_query {s : Text} (h : Clean B (.query s)) : call B ⟨u⟩ (.query s) = ⟨store u (.query s)⟩ := by
  obtain ⟨hescapes, hshort, -⟩ := h
  show TUrl.mk (curlUrlSet B u .query (cString (encodeQueryPreservingSeparators s)) false).2 = _
  rw [cString_query hescapes, curlUrlSet, if_neg (Nat.not_lt.mpr hshort)]
  rfl

theorem call_fragment {s : Text} (h : Clean B (.fragment s)) :
    call B ⟨u⟩ (.fragment s) = ⟨store u (.fragment s)⟩ := by
  show TUrl.mk (curlUrlSet B u .fragment (cString s) true).2 = _
  rw [store, stored, ← dynPtr_encoded, ← newPart_encoded, curlUrlSet, if_neg (Nat.not_lt.mpr h.1)]
  rfl

/-- **A call with a clean value** stores it, and nothing else. -/
theorem call_clean {c : Call} (h : Clean B c) : call B ⟨u⟩ c = ⟨store u c⟩ := by
  cases c with
  | scheme s => exact call_scheme h
  | user s => exact call_user h
  | password s => exact call_password h
  | options s => exact h.elim
  | host s => exact call_host h
  | port s => exact call_port h
  | path s => exact call_path h
  | query s => exact call_query h
  | fragment s => exact call_fragment h

end

/-! ### The handle after a run -/

theorem run_clean {B : Build} {calls : List Call} (h : ∀ c ∈ calls, Clean B c) :
    run B calls = ⟨calls.foldl store {}⟩ := by
  induction calls using List.reverseRecOn with
  | nil => rfl
  | append_singleton calls c ih =>
    have hcalls := ih fun d hd => h d (List.mem_append_left _ hd)
    have hc := h c (List.mem_append_right _ List.mem_cons_self)
    rw [run] at hcalls ⊢
    rw [List.foldl_append, List.foldl_append, hcalls]
    exact call_clean hc

/-- The part of a handle that a call is for. -/
def slot (u : CURLU) : CURLUPart → Option Bytes
  | .url | .zoneid => none
  | .scheme => u.scheme
  | .user => u.user
  | .password => u.password
  | .options => u.options
  | .host => u.host
  | .port => u.port
  | .path => u.path
  | .query => u.query
  | .fragment => u.fragment

/-- What no call changes, and that the port is one number. -/
structure Steady (u : CURLU) : Prop where
  zoneid : u.zoneid = none
  guessed : u.guessedScheme = false
  portnum : u.portnum = ((u.port.bind (strNumBase 10 0xffff)).map (·.1)).getD 0

theorem store_writesOne : WritesOne (fun u c => some (store u c)) Steady slot (fun c k => c.part = k)
    stored := by
  constructor
  · rintro u c _ hu ⟨⟩
    cases c with
    | port s => exact ⟨hu.zoneid, hu.guessed, rfl⟩
    | scheme s => exact ⟨hu.zoneid, rfl, hu.portnum⟩
    | host s => exact ⟨rfl, hu.guessed, hu.portnum⟩
    | _ => exact ⟨hu.zoneid, hu.guessed, hu.portnum⟩
  · rintro u c _ k - ⟨⟩
    cases c <;> cases k <;> rfl

theorem foldlM_store (calls : List Call) : ∀ u : CURLU,
    calls.foldlM (fun u c => some (store u c)) u = some (calls.foldl store u) := by
  induction calls with
  | nil => exact fun _ => rfl
  | cons c calls ih => exact fun u => ih (store u c)

/-- **A part of the URL that is built** is what the last call for it stored. -/
theorem slot_foldl (calls : List Call) (k : CURLUPart) :
    slot (calls.foldl store {}) k =
      ((lastOf (fun c : Call => c.part = k) calls).map stored).getD (slot {} k) :=
  store_writesOne.read_run calls ⟨rfl, rfl, rfl⟩ (foldlM_store calls {}) k

theorem steady_foldl (calls : List Call) : Steady (calls.foldl store {}) :=
  store_writesOne.inv_run calls ⟨rfl, rfl, rfl⟩ (foldlM_store calls {})

/-- A password is written behind a user, even if that is empty. -/
def withUser (u : CURLU) : CURLU :=
  if u.password.isSome then { u with user := some (u.user.getD []) } else u

theorem withUser_user {u : CURLU} {s : Bytes} (h : (withUser u).user = some s) :
    u.user = some s ∨ s = [] := by
  rw [withUser] at h
  split at h
  · cases hu : u.user with
    | none =>
      rw [hu] at h
      exact .inr (Option.some.inj h).symm
    | some t =>
      rw [hu] at h
      exact .inl h
  · exact .inl h

theorem withUser_getD (u : CURLU) : (withUser u).user.getD [] = u.user.getD [] := by
  rw [withUser]
  split <;> rfl

/-- But for the user it is the handle. -/
theorem withUser_eq (u : CURLU) : withUser u = { u with user := (withUser u).user } := by
  rw [withUser]
  split <;> rfl

theorem written_withUser (B : Build) (u : CURLU) : written B (withUser u) = written B u := by
  rw [withUser]
  split
  · next hpassword =>
    have htail : urlTail { u with user := some (u.user.getD []) } = urlTail u := rfl
    rw [written, written, urlText, urlText, htail]
    dsimp only
    rw [hpassword]
    simp only [Bool.or_true, Bool.true_or, Option.getD_some]
  · rfl

section

variable {B : Build} {calls : List Call} (hclean : ∀ c ∈ calls, Clean B c)
include hclean

/-- A part is not set, or as a clean call set it. -/
theorem part_built (k : CURLUPart) :
    slot (calls.foldl store {}) k = none ∧ lastValue calls k = none ∨
      ∃ s, Clean B (.mk k s) ∧ slot (calls.foldl store {}) k = stored (.mk k s) ∧
        lastValue calls k = some s := by
  rw [slot_foldl, lastValue]
  cases hlast : lastOf (fun c : Call => c.part = k) calls with
  | none => exact .inl ⟨by cases k <;> rfl, rfl⟩
  | some c =>
    obtain ⟨hmem, rfl⟩ := mem_of_lastOf hlast
    refine .inr ⟨c.value, ?_, ?_, rfl⟩
    · rw [Call.mk_part]
      exact hclean c hmem
    · rw [Call.mk_part]
      rfl

end

/-! ### The URL that is built is well formed -/

theorem encode_unreserved_bytes {s : Bytes} {c : UInt8} (hc : c ∈ encode isUnreserved s) :
    isAuthorityByte c = true ∧ c ≠ byte '@' ∧ c.toNat < 128 := by
  have hmem := (encoded_encode s).of_mem hc
  exact ⟨((authority_classes c).2.2 hmem).1.1, (encoded_classes c).1 hmem⟩

theorem pathBytes_bytes {s : Bytes} {c : UInt8} (hc : c ∈ pathBytes s) :
    isPlainByte c = true ∧ c ≠ byte '?' ∧ c ≠ byte '#' ∧ c.toNat < 128 := by
  rcases List.mem_append.mp hc with hc | hc
  · split at hc
    · rw [List.mem_singleton.mp hc]
      decide
    · cases hc
  · exact (encoded_classes c).2.1 ((encoded_encode s).of_mem hc)

theorem mem_lowerTriples : ∀ {s : Bytes} {c : UInt8}, c ∈ lowerTriples s →
    ∃ d ∈ s, c = d ∨ c = rawToLower d
  | [], _, h => nomatch h
  | [_], c, h => ⟨c, h, .inl rfl⟩
  | [_, _], c, h => ⟨c, h, .inl rfl⟩
  | a :: b :: d :: s, c, h => by
    rw [lowerTriples] at h
    split at h
    · simp only [List.mem_cons] at h
      rcases h with rfl | rfl | rfl | h
      · exact ⟨c, List.mem_cons_self, .inl rfl⟩
      · exact ⟨b, by simp, .inr rfl⟩
      · exact ⟨d, by simp, .inr rfl⟩
      · obtain ⟨e, he, hce⟩ := mem_lowerTriples h
        exact ⟨e, by simp [he], hce⟩
    · rcases List.mem_cons.mp h with rfl | h
      · exact ⟨c, List.mem_cons_self, .inl rfl⟩
      · obtain ⟨e, he, hce⟩ := mem_lowerTriples h
        exact ⟨e, List.mem_cons_of_mem _ he, hce⟩

theorem storedQuery_bytes {q : Text} {c : UInt8} (hc : c ∈ lowerTriples (queryBytes q)) :
    isPlainByte c = true ∧ c ≠ byte '#' ∧ c ≠ byte '+' ∧ c.toNat < 128 := by
  obtain ⟨d, hd, hcd⟩ := mem_lowerTriples hc
  exact (encoded_classes d).2.2.1 ((queryBytes_encoded q).of_mem hd) c hcd

section

variable {B : Build} {calls : List Call} (hclean : ∀ c ∈ calls, Clean B c)
include hclean

theorem scheme_built {s : Text} (hs : lastValue calls .scheme = some s) :
    (calls.foldl store {}).scheme = some (cString s) ∧ Clean B (.scheme s) := by
  obtain ⟨-, hnone⟩ | ⟨t, hclean, hslot, hvalue⟩ := part_built hclean .scheme
  · rw [hnone] at hs
    cases hs
  · obtain rfl : t = s := Option.some.inj (hvalue.symm.trans hs)
    exact ⟨hslot, hclean⟩

theorem host_built {s : Text} (hs : lastValue calls .host = some s) :
    (calls.foldl store {}).host = some (cString s) ∧ Clean B (.host s) := by
  obtain ⟨-, hnone⟩ | ⟨t, hclean, hslot, hvalue⟩ := part_built hclean .host
  · rw [hnone] at hs
    cases hs
  · obtain rfl : t = s := Option.some.inj (hvalue.symm.trans hs)
    exact ⟨hslot, hclean⟩

theorem port_built : PortOf (calls.foldl store {}).port (calls.foldl store {}).portnum := by
  have hnum := (steady_foldl calls).portnum
  obtain ⟨hnone, -⟩ | ⟨s, ⟨-, n, hn, rfl⟩, hslot, -⟩ := part_built hclean .port
  · change (calls.foldl store {}).port = none at hnone
    rw [hnone] at hnum ⊢
    exact .inl ⟨rfl, hnum⟩
  · have hport : (calls.foldl store {}).port = some (decimal n) :=
      hslot.trans (congrArg some (cString_ofInt (Int.natCast_nonneg n)))
    have hread : strNumBase 10 0xffff (decimal n) = some (n, []) := by
      rw [strNumBase_decimal (by omega), if_pos hn]
    rw [hport, Option.bind_some, hread] at hnum
    rw [hport, hnum]
    exact .inr ⟨rfl, hn⟩

theorem login_built : Login (withUser (calls.foldl store {})).user (calls.foldl store {}).password ∧
    ∀ s, (withUser (calls.foldl store {})).user = some s ∨ (calls.foldl store {}).password = some s →
      ∀ c ∈ s, isAuthorityByte c = true := by
  have huser : ∀ s, (withUser (calls.foldl store {})).user = some s →
      ∀ c ∈ s, isAuthorityByte c = true ∧ c ≠ byte ':' ∧ c ≠ byte '@' := by
    intro s hs c hc
    rcases withUser_user hs with hs | rfl
    · obtain ⟨hnone, -⟩ | ⟨t, ⟨-, -, hbytes⟩, hslot, -⟩ := part_built hclean .user
      · cases hnone.symm.trans hs
      · obtain rfl : cString t = s := Option.some.inj (hslot.symm.trans hs)
        obtain ⟨hauth, hcolon, hat, -⟩ := hbytes c hc
        exact ⟨hauth, hcolon, hat⟩
    · cases hc
  have hpassword : ∀ s, (calls.foldl store {}).password = some s →
      ∀ c ∈ s, isAuthorityByte c = true ∧ c ≠ byte '@' := by
    intro s hs c hc
    obtain ⟨hnone, -⟩ | ⟨t, -, hslot, -⟩ := part_built hclean .password
    · cases hnone.symm.trans hs
    · have hstored : (some (encode isUnreserved (cString t))).filter (· ≠ []) = some s :=
        hslot.symm.trans hs
      obtain ⟨heq, -⟩ := Option.filter_eq_some_iff.mp hstored
      rw [← Option.some.inj heq] at hc
      obtain ⟨hauth, hat, -⟩ := encode_unreserved_bytes hc
      exact ⟨hauth, hat⟩
  refine ⟨⟨fun s hs => ⟨fun h => (huser s hs _ h).2.2 rfl, fun h => (huser s hs _ h).2.1 rfl⟩,
    fun s hs => ⟨?_, fun h => (hpassword s hs _ h).2 rfl⟩⟩, ?_⟩
  · rw [withUser, if_pos (by rw [hs]; rfl)]
    rfl
  · rintro s (hs | hs) c hc
    · exact (huser s hs c hc).1
    · exact (hpassword s hs c hc).1

/-- The URL that is built, with the user that its password needs. -/
theorem wellFormed_built {s h : Text} (hs : lastValue calls .scheme = some s)
    (hh : lastValue calls .host = some h) :
    WellFormed B (withUser (calls.foldl store {})) (cString s) (cString h) := by
  obtain ⟨hscheme, -, hknown, -⟩ := scheme_built hclean hs
  obtain ⟨hhost, h0, hne, -, hbytes, -⟩ := host_built hclean hh
  obtain ⟨hlogin, hlogin_bytes⟩ := login_built hclean
  have hsteady := steady_foldl calls
  rw [withUser_eq]
  refine {
    scheme_eq := hscheme
    host_eq := hhost
    known := hknown
    options := ?_
    authority := {
      login := hlogin
      login_bytes := hlogin_bytes
      host := ?_
      port := port_built hclean }
    path := ?_
    query := ?_
    fragment := ?_
    guessed := hsteady.guessed }
  · obtain ⟨hnone, -⟩ | ⟨t, hfalse, -⟩ := part_built hclean .options
    · exact hnone
    · exact hfalse.elim
  · show HostForm B (calls.foldl store {}).zoneid (cString h)
    rw [hsteady.zoneid]
    exact .name (cString_ne_nil h0 hne) (fun c hc => (hbytes c hc).1) fun c hc => (hbytes c hc).2
  · intro p hp
    obtain ⟨hnone, -⟩ | ⟨t, ⟨-, -, hstable⟩, hslot, -⟩ := part_built hclean .path
    · cases hnone.symm.trans hp
    · obtain rfl : pathBytes (cString t) = p := Option.some.inj (hslot.symm.trans hp)
      refine ⟨isSlash_pathBytes _, hstable, fun c hc => ?_⟩
      obtain ⟨hplain, hquestion, hhash, -⟩ := pathBytes_bytes hc
      exact ⟨hplain, hquestion, hhash⟩
  · intro q hq c hc
    obtain ⟨hnone, -⟩ | ⟨t, -, hslot, -⟩ := part_built hclean .query
    · cases hnone.symm.trans hq
    · obtain rfl : lowerTriples (queryBytes t) = q := Option.some.inj (hslot.symm.trans hq)
      obtain ⟨hplain, hhash, -⟩ := storedQuery_bytes hc
      exact ⟨hplain, hhash⟩
  · intro f hf
    obtain ⟨hnone, -⟩ | ⟨t, -, hslot, -⟩ := part_built hclean .fragment
    · cases hnone.symm.trans hf
    · have hstored : (some (encode isUnreserved (cString t))).filter (· ≠ []) = some f :=
        hslot.symm.trans hf
      obtain ⟨heq, hne⟩ := Option.filter_eq_some_iff.mp hstored
      refine ⟨of_decide_eq_true hne, fun c hc => ?_⟩
      rw [← Option.some.inj heq] at hc
      have hauth := (encode_unreserved_bytes hc).1
      rw [isAuthorityByte_eq, Bool.and_eq_true] at hauth
      exact hauth.1

end

/-! ### What the getters read -/

theorem fromUTF8String_cString {t : Text} (h0 : 0 ∉ t) : fromUTF8String (cString t) = t := by
  have htwice : (cString t).takeWhile (· ≠ 0) = cString t := by
    rw [List.takeWhile_eq_self_iff]
    exact fun b hb => List.mem_takeWhile_imp (p := fun b => decide (b ≠ 0)) hb
  rw [fromUTF8String, htwice]
  exact fromUTF8String_toUTF8String h0

theorem zero_not_mem {t : Text} (h : NoControl t) : 0 ∉ t := fun h0 => absurd (h 0 h0) (by decide)

theorem cString_eq {t : Text} (h0 : 0 ∉ t) : cString t = toUTF8String t := by
  have hunits : ∀ c ∈ t, 1 ≤ c.toNat := by
    intro c hc
    refine Nat.one_le_iff_ne_zero.mpr fun hzero => h0 ?_
    rwa [← UInt16.toNat_inj.mp (show c.toNat = (0 : UInt16).toNat from hzero)]
  exact takeWhile_nonzero (le_of_mem_toUTF8String (by decide) hunits)

/-- The bytes of a text without control characters are none. -/
theorem cString_noControl {t : Text} (h : NoControl t) : ∀ b ∈ cString t, 32 ≤ b := by
  have hbytes := le_of_mem_toUTF8String (k := 32) (by decide) fun c hc => UInt16.le_iff_toNat_le.mp (h c hc)
  exact fun b hb => UInt8.le_iff_toNat_le.mpr (hbytes b (List.takeWhile_subset _ hb))

section

variable {B : Build} {v : CURLU} {what : CURLUPart}

theorem curlUrlGet_eq (hwhat : what ≠ .url) (flags : GetFlags) :
    curlUrlGet B v what flags =
      match storedPart B v what flags with
      | (none, ifmissing) => .error ifmissing
      | (some ptr, _) =>
        urlgetFormat what ptr (flags.urldecode && what == .query)
          { flags with urldecode := flags.urldecode && what != .scheme && what != .port } := by
  cases what with
  | url => exact absurd rfl hwhat
  | _ => rfl

theorem getPart_missing (hwhat : what ≠ .url) {flags : GetFlags}
    (h : (storedPart B v what flags).1 = none) : TUrl.getPart B ⟨v⟩ what flags = [] := by
  have hpair : storedPart B v what flags = (none, (storedPart B v what flags).2) := by rw [← h]
  rw [TUrl.getPart, curlUrlGet_eq hwhat]
  dsimp only
  rw [hpair]

/-- **A part whose bytes decode to a text** is read as the text. -/
theorem getPart_decoded (hwhat : what ≠ .url ∧ what ≠ .scheme ∧ what ≠ .port) {s : Bytes} {t : Text}
    (h : (storedPart B v what { urldecode := true }).1 = some s) (hplus : what = .query → byte '+' ∉ s)
    (hdecode : decode s = cString t) (h0 : 0 ∉ t) (ht : ∀ b ∈ cString t, 32 ≤ b) :
    TUrl.getPart B ⟨v⟩ what { urldecode := true } = t := by
  have hcontrol : ¬ (cString t).any (· < 32) = true := by
    intro hany
    obtain ⟨b, hb, hlt⟩ := List.any_eq_true.mp hany
    exact absurd (of_decide_eq_true hlt) (UInt8.not_lt.mpr (ht b hb))
  have hpair : storedPart B v what { urldecode := true } =
      (some s, (storedPart B v what { urldecode := true }).2) := by rw [← h]
  have hflag : (true && what != .scheme && what != .port) = true := by
    rw [Bool.true_and, Bool.and_eq_true, bne_iff_ne, bne_iff_ne]
    exact hwhat.2
  have hpart : (if (true && what == .query) = true then
      s.map fun c => if c = byte '+' then byte ' ' else c else s) = s := by
    split
    · next hq =>
      have hno := hplus (eq_of_beq hq)
      refine (List.map_congr_left fun c hc => if_neg ?_).trans (List.map_id s)
      rintro rfl
      exact hno hc
    · rfl
  have hformat : urlgetFormat what s (true && what == .query)
      { urldecode := true && what != .scheme && what != .port } = .ok (cString t) := by
    rw [hflag, urlgetFormat]
    dsimp only
    rw [hpart, if_pos rfl, urldecode, hdecode, if_neg hcontrol]
    rfl
  rw [TUrl.getPart, curlUrlGet_eq hwhat.1]
  dsimp only
  rw [hpair]
  dsimp only
  rw [hformat]
  exact fromUTF8String_cString h0

end

/-! ### What is built is given -/

theorem lowerTriples_head (c : UInt8) (s : Bytes) : ∃ t, lowerTriples (c :: s) = c :: t := by
  match s with
  | [] => exact ⟨[], rfl⟩
  | [a] => exact ⟨[a], rfl⟩
  | a :: b :: s =>
    rw [lowerTriples]
    split
    · exact ⟨_, rfl⟩
    · exact ⟨_, rfl⟩

theorem lowerTriples_cons_of_ne {c : UInt8} (hc : c ≠ percent) (s : Bytes) :
    lowerTriples (c :: s) = c :: lowerTriples s := by
  match s with
  | [] => rfl
  | [a] => rfl
  | a :: b :: s => rw [lowerTriples, if_neg fun h => hc h.1]

/-- The case of the digits does not matter. -/
theorem decode_lowerTriples : ∀ s : Bytes, decode (lowerTriples s) = decode s
  | [] => rfl
  | [_] => rfl
  | [_, _] => rfl
  | c :: a :: b :: s => by
    have hlower := fun c => (encoded_classes c).2.2.2
    have hne : ∀ {d : UInt8}, isXDigit d = true → d ≠ percent := by
      rintro d hd rfl
      cases hd
    by_cases hc : c = percent
    · rw [hc]
      by_cases hdigits : isXDigit a = true ∧ isXDigit b = true
      · obtain ⟨x, hx⟩ := Option.isSome_iff_exists.mp hdigits.1
        obtain ⟨y, hy⟩ := Option.isSome_iff_exists.mp hdigits.2
        rw [decode_triple hx hy, lowerTriples]
        split
        · rw [decode_triple ((hlower a).trans hx) ((hlower b).trans hy), decode_lowerTriples s]
        · rw [lowerTriples_cons_of_ne (hne hdigits.1), lowerTriples_cons_of_ne (hne hdigits.2),
            decode_triple hx hy, decode_lowerTriples s]
      · -- no two digits follow, neither before nor after
        have hbefore : ¬ DigitsAhead (a :: b :: s) := by
          rintro ⟨a', b', t, heq, ha, hb⟩
          cases heq
          exact hdigits ⟨ha, hb⟩
        have hafter : ¬ DigitsAhead (lowerTriples (a :: b :: s)) := by
          rintro ⟨a', b', t, heq, ha, hb⟩
          obtain ⟨r, hr⟩ := lowerTriples_head a (b :: s)
          obtain rfl : a' = a := by
            rw [hr] at heq
            exact (List.cons.inj heq).1.symm
          rw [lowerTriples_cons_of_ne (hne ha)] at heq
          obtain ⟨r, hr⟩ := lowerTriples_head b s
          rw [hr] at heq
          obtain rfl : b = b' := (List.cons.inj (List.cons.inj heq).2).1
          exact hdigits ⟨ha, hb⟩
        rw [lowerTriples, if_neg fun h => hdigits ⟨h.2.1, h.2.2.1⟩, decode_percent_of_not_digits hafter,
          decode_percent_of_not_digits hbefore, decode_lowerTriples (a :: b :: s)]
    · rw [lowerTriples_cons_of_ne hc, decode_cons_of_ne hc, decode_cons_of_ne hc,
        decode_lowerTriples (a :: b :: s)]
  termination_by s => s.length

theorem cString_cons {c : UInt8} (h : 0 < c.toNat ∧ c.toNat < 128) (t : Text) :
    cString (c.toUInt16 :: t) = c :: cString t := by
  have hc : c.toUInt16 < 0x80 := by
    rw [UInt16.lt_iff_toNat_lt, UInt8.toNat_toUInt16]
    exact h.2
  have hne : c ≠ 0 := by
    rintro rfl
    exact absurd h.1 (by decide)
  rw [cString, toUTF8String_cons_ascii hc, List.takeWhile_cons_of_pos (by simpa using hne)]
  simp [cString]

theorem isSlash_cString {t : Text} (h0 : 0 ∉ t) :
    isSlash (cString t) = true ↔ t.head? = some (asc '/') := by
  constructor
  · intro h
    cases hs : cString t with
    | nil =>
      rw [hs] at h
      cases h
    | cons c s =>
      rw [hs] at h
      obtain rfl : c = byte '/' := Option.some.inj (eq_of_beq h)
      have hback := fromUTF8String_cString h0
      rw [hs, fromUTF8String, List.takeWhile_cons_of_pos (by decide), fromUTF8Bytes_one (by decide)] at hback
      rw [← hback]
      rfl
  · intro h
    cases t with
    | nil => cases h
    | cons c t =>
      obtain rfl : c = asc '/' := Option.some.inj h
      have hcons : cString (asc '/' :: t) = byte '/' :: cString t :=
        cString_cons (c := byte '/') (by decide) t
      rw [hcons]
      rfl

/-- A path is read with its slash. -/
theorem decode_pathBytes {t : Text} (h0 : 0 ∉ t) : decode (pathBytes (cString t)) = cString (slashed t) := by
  have hdecode : decode (encode (fun c => isUnreserved c || allowedInPath c) (cString t)) = cString t :=
    decode_encode (by decide) _
  have hslash := isSlash_cString h0
  rw [pathBytes, slashed]
  by_cases h : isSlash (cString t) = true
  · rw [if_neg (by rw [h]; exact Bool.noConfusion), if_pos (hslash.mp h), List.nil_append, hdecode]
  · have hcons : cString (asc '/' :: t) = byte '/' :: cString t :=
      cString_cons (c := byte '/') (by decide) t
    rw [if_pos (Bool.eq_false_iff.mpr h), if_neg fun hh => h (hslash.mpr hh), hcons]
    show decode (byte '/' :: encode _ (cString t)) = _
    rw [decode_cons_of_ne (by decide), hdecode]

theorem fromUTF8String_decimal (n : Nat) : fromUTF8String (decimal n) = ofInt n := by
  have hint : cString (ofInt n) = decimal n := cString_ofInt (Int.natCast_nonneg n)
  have hdigit : ∀ b ∈ decimal n, 33 ≤ b.toNat ∧ b.toNat < 128 := by
    intro b hb
    have hb := isDigit_of_mem_decimal hb
    exact ⟨isAuthorityByte_bounds ((authority_classes b).2.1 hb), (isDigit_bounds hb).2.trans_lt (by decide)⟩
  rw [fromUTF8String_printable hdigit, ofInt,
    if_neg (by omega), ofNat_eq_ascii]
  rfl

theorem getPart_plain {B : Build} {v : CURLU} {what : CURLUPart} {flags : GetFlags}
    (hwhat : what = .scheme ∨ what = .port) (hflags : flags.urlencode = false) {s : Bytes}
    (h : (storedPart B v what flags).1 = some s) : TUrl.getPart B ⟨v⟩ what flags = fromUTF8String s := by
  have hpair : storedPart B v what flags = (some s, (storedPart B v what flags).2) := by rw [← h]
  have hformat : ∀ plus, plus = false →
      urlgetFormat what s plus { flags with urldecode := false } = .ok s := by
    rintro _ rfl
    rw [urlgetFormat]
    dsimp only
    rw [if_neg Bool.false_ne_true, if_neg Bool.false_ne_true, hflags]
    rfl
  rw [TUrl.getPart, curlUrlGet_eq (by rintro rfl; rcases hwhat with h | h <;> cases h)]
  dsimp only
  rw [hpair]
  dsimp only
  rcases hwhat with rfl | rfl
  · rw [show (flags.urldecode && CURLUPart.scheme != .scheme && CURLUPart.scheme != .port) = false by
      cases flags.urldecode <;> rfl, hformat _ (by cases flags.urldecode <;> rfl)]
  · rw [show (flags.urldecode && CURLUPart.port != .scheme && CURLUPart.port != .port) = false by
      cases flags.urldecode <;> rfl, hformat _ (by cases flags.urldecode <;> rfl)]

section

variable {B : Build} {calls : List Call} (hclean : ∀ c ∈ calls, Clean B c) {s h : Text}
  (hs : lastValue calls .scheme = some s) (hh : lastValue calls .host = some h)
include hclean

/-- A part that is stored encoded, or not at all. -/
theorem getPart_encoded {v : CURLU} {what : CURLUPart} (hwhat : what = .password ∨ what = .fragment)
    (hstored : (storedPart B v what { urldecode := true }).1 = slot (calls.foldl store {}) what) :
    TUrl.getPart B ⟨v⟩ what { urldecode := true } = (lastValue calls what).getD [] := by
  have hne : what ≠ .url ∧ what ≠ .scheme ∧ what ≠ .port ∧ what ≠ .query := by
    rcases hwhat with rfl | rfl <;> decide
  have hclean' : ∀ t, Clean B (.mk what t) → NoControl t := by
    rcases hwhat with rfl | rfl <;> exact fun t ht => ht.2
  have hvalue : ∀ t, stored (.mk what t) = (some (encode isUnreserved (cString t))).filter (· ≠ []) := by
    rcases hwhat with rfl | rfl <;> exact fun t => rfl
  obtain ⟨hnone, hlast⟩ | ⟨t, ht, hslot, hlast⟩ := part_built hclean what
  · rw [hlast]
    exact getPart_missing hne.1 (hstored.trans hnone)
  · have hcontrol := hclean' t ht
    rw [hlast, Option.getD_some]
    by_cases hnil : t = []
    · subst hnil
      exact getPart_missing hne.1 (hstored.trans (hslot.trans (hvalue [])))
    · have hstored' := hstored.trans (hslot.trans (hvalue t))
      rw [stored_encoded (cString_ne_nil (zero_not_mem hcontrol) hnil)] at hstored'
      exact getPart_decoded ⟨hne.1, hne.2.1, hne.2.2.1⟩ hstored' (fun hq => absurd hq hne.2.2.2)
        (decode_encode isUnreserved_percent _) (zero_not_mem hcontrol) (cString_noControl hcontrol)

theorem getUser_built {v : CURLU} (huser : v.user.getD [] = (calls.foldl store {}).user.getD []) :
    getUser B ⟨v⟩ = (lastValue calls .user).getD [] := by
  have hempty : v.user.getD [] = [] → getUser B ⟨v⟩ = [] := by
    intro hnil
    cases hu : v.user with
    | none => exact getPart_missing (by decide) (show v.user = none from hu)
    | some t =>
      rw [hu, Option.getD_some] at hnil
      subst hnil
      exact getPart_decoded (by decide) (show v.user = some [] from hu) (fun _ => List.not_mem_nil)
        (rfl : decode [] = cString []) List.not_mem_nil fun c hc => absurd hc List.not_mem_nil
  obtain ⟨hnone, hlast⟩ | ⟨t, ⟨h0, -, hbytes⟩, hslot, hlast⟩ := part_built hclean .user
  · change (calls.foldl store {}).user = none at hnone
    rw [hnone] at huser
    rw [hlast]
    exact hempty huser
  · change (calls.foldl store {}).user = some (cString t) at hslot
    rw [hslot, Option.getD_some] at huser
    rw [hlast, Option.getD_some]
    have hplain : ∀ b ∈ cString t, 32 ≤ b := fun b hb =>
      UInt8.le_iff_toNat_le.mpr (isAuthorityByte_bounds (hbytes b hb).1).le
    cases hu : v.user with
    | none =>
      rw [hu] at huser
      have hnil : t = [] := by
        by_contra hne
        exact cString_ne_nil h0 hne huser.symm
      rw [hnil]
      exact hempty (by rw [hu]; rfl)
    | some r =>
      rw [hu, Option.getD_some] at huser
      subst huser
      exact getPart_decoded (by decide) (show v.user = some (cString t) from hu)
        (fun hq => absurd hq (by decide))
        (decode_of_not_mem fun hp => (hbytes _ hp).2.2.2 rfl) h0 hplain

include hs hh

/-- The values of a handle are those that were set. -/
theorem gives_of_slots {v : CURLU} (hv : v = { calls.foldl store {} with user := v.user })
    (huser : v.user.getD [] = (calls.foldl store {}).user.getD []) : Gives B calls s ⟨v⟩ := by
  obtain ⟨hscheme, hs0, -⟩ := scheme_built hclean hs
  obtain ⟨hhost, hh0, -, -, hhbytes, -⟩ := host_built hclean hh
  have hvscheme : v.scheme = some (cString s) := by rw [hv]; exact hscheme
  have hvhost : v.host = some (cString h) := by rw [hv]; exact hhost
  refine {
    scheme := ?_
    user := getUser_built hclean huser
    password := getPart_encoded hclean (.inl rfl) (by rw [hv]; rfl)
    host := ?_
    port := ?_
    path := ?_
    query := ?_
    fragment := getPart_encoded hclean (.inr rfl) (by rw [hv]; rfl) }
  · exact (getPart_plain (.inl rfl) rfl hvscheme).trans (fromUTF8String_cString hs0)
  · rw [hh, Option.getD_some]
    exact getPart_decoded (by decide) hvhost (fun hq => absurd hq (by decide))
      (decode_of_not_mem fun hp => absurd (hhbytes _ hp).1 (by decide)) hh0 fun b hb => (hhbytes b hb).2
  · have hvport : v.port = (calls.foldl store {}).port := by rw [hv]
    have hstored : (storedPart B v .port { defaultPort := true }).1 =
        (v.port <|> (getSchemeHandler B (cString s)).map fun h => decimal h.defport) := by
      show (v.port <|> (v.scheme.bind (getSchemeHandler B)).map fun h => decimal h.defport) = _
      rw [hvscheme, Option.bind_some]
    obtain ⟨hnone, hlast⟩ | ⟨t, ⟨-, n, -, rfl⟩, hslot, hlast⟩ := part_built hclean .port
    · rw [hvport, show (calls.foldl store {}).port = none from hnone] at hstored
      rw [hlast, Option.getD_none]
      cases hg : getSchemeHandler B (cString s) with
      | none =>
        rw [hg] at hstored
        exact getPart_missing (by decide) hstored
      | some g =>
        rw [hg] at hstored
        exact (getPart_plain (.inr rfl) rfl hstored).trans (fromUTF8String_decimal _)
    · have hdecimal : (calls.foldl store {}).port = some (decimal n) :=
        hslot.trans (congrArg some (cString_ofInt (Int.natCast_nonneg n)))
      rw [hvport, hdecimal] at hstored
      rw [hlast]
      exact (getPart_plain (.inr rfl) rfl hstored).trans (fromUTF8String_decimal n)
  · have hvpath : v.path = (calls.foldl store {}).path := by rw [hv]
    have hstored : (storedPart B v .path { urldecode := true }).1 = some (v.path.getD (bytes "/")) := rfl
    obtain ⟨hnone, hlast⟩ | ⟨t, ⟨-, hcontrol, -⟩, hslot, hlast⟩ := part_built hclean .path
    · rw [hvpath, show (calls.foldl store {}).path = none from hnone] at hstored
      rw [hlast]
      exact getPart_decoded (t := slashed []) (by decide) hstored (fun hq => absurd hq (by decide))
        (by decide) (by decide) (cString_noControl (by decide))
    · rw [hvpath, show (calls.foldl store {}).path = some (pathBytes (cString t)) from hslot] at hstored
      rw [hlast, Option.getD_some]
      have hslashed : NoControl (slashed t) := by
        intro c hc
        rw [slashed] at hc
        split at hc
        · exact hcontrol c hc
        · rcases List.mem_cons.mp hc with rfl | hc
          · decide
          · exact hcontrol c hc
      exact getPart_decoded (by decide) hstored (fun hq => absurd hq (by decide))
        (decode_pathBytes (zero_not_mem hcontrol)) (zero_not_mem hslashed) (cString_noControl hslashed)
  · have hvquery : v.query = (calls.foldl store {}).query := by rw [hv]
    have hstored : (storedPart B v .query { urldecode := true }).1 = v.query.filter (· ≠ []) := rfl
    obtain ⟨hnone, hlast⟩ | ⟨t, ⟨-, -, hcontrol⟩, hslot, hlast⟩ := part_built hclean .query
    · rw [hvquery, show (calls.foldl store {}).query = none from hnone] at hstored
      rw [hlast]
      exact getPart_missing (by decide) hstored
    · rw [hvquery, show (calls.foldl store {}).query = some (lowerTriples (queryBytes t)) from hslot]
        at hstored
      rw [hlast, Option.getD_some]
      have hdecode : decode (lowerTriples (queryBytes t)) = cString t := by
        rw [decode_lowerTriples, decode_queryBytes, cString_eq (zero_not_mem hcontrol)]
      by_cases hnil : lowerTriples (queryBytes t) = []
      · rw [hnil] at hstored hdecode
        have ht : t = [] := by
          by_contra hne
          exact cString_ne_nil (zero_not_mem hcontrol) hne hdecode.symm
        rw [ht]
        exact getPart_missing (by decide) hstored
      · rw [Option.filter_some, if_pos (decide_eq_true hnil)] at hstored
        exact getPart_decoded (by decide) hstored (fun _ hp => (storedQuery_bytes hp).2.2.1 rfl) hdecode
          (zero_not_mem hcontrol) (cString_noControl hcontrol)

end

/-! ### Written and parsed again -/

/-- `ParseUrl` of a new URL keeps what is parsed. -/
theorem parseUrl_of_parseurl {B : Build} {text : Text} {u : CURLU}
    (h : parseurl B (cString text) = .ok u) : TUrl.empty.parseUrl B text = (true, ⟨u⟩) := by
  have hlen : ¬ curlMaxInputLength < (cString text).length := by
    intro hlen
    rw [parseurl, if_pos] at h
    · cases h
    · rw [junkscan, decide_eq_false (Nat.not_le.mpr hlen), Bool.false_and]
  have hne : cString text ≠ [] := by
    intro hnil
    rw [hnil] at h
    cases h
  have hreplace : parseurlAndReplace B (cString text) {} = (none, u) := by
    rw [parseurlAndReplace, h]
  have hset : setUrl B {} (cString text) = (none, u) := by
    rw [setUrl, if_neg hne]
    split
    · exact hreplace
    · exact hreplace
  have hcurl : curlUrlSet B {} .url (cString text) false = (none, u) := by
    rw [curlUrlSet, if_neg hlen]
    exact hset
  show ((curlUrlSet B {} .url (cString text) false).1.isNone,
    TUrl.mk (curlUrlSet B {} .url (cString text) false).2) = _
  rw [hcurl]
  rfl

theorem IsAscii.append {s t : Bytes} (hs : IsAscii s) (ht : IsAscii t) : IsAscii (s ++ t) :=
  fun c hc => (List.mem_append.mp hc).elim (hs c) (ht c)

theorem isAscii_labelled {label : String} (hlabel : IsAscii (bytes label)) {part : Option Bytes}
    (h : ∀ s, part = some s → IsAscii s) : IsAscii (labelled label part) := by
  cases part with
  | none => exact fun c hc => absurd hc List.not_mem_nil
  | some s => exact hlabel.append (h s rfl)

theorem isAscii_encode (s : Bytes) : IsAscii (encode isUnreserved s) := by
  intro c hc
  obtain ⟨hbyte, -, hlow⟩ := encode_unreserved_bytes hc
  exact ⟨(Nat.zero_le 32).trans_lt (isAuthorityByte_bounds hbyte), hlow⟩

/-- Bytes of ASCII around a text are a text. -/
theorem exists_text {a b : Bytes} (ha : IsAscii a) (hb : IsAscii b) {t : Text} (h0 : 0 ∉ t) :
    ∃ text, 0 ∉ text ∧ toUTF8String text = a ++ (toUTF8String t ++ b) := by
  have hascii : ∀ {s : Bytes}, IsAscii s → 0 ∉ ascii s := by
    intro s hs hmem
    obtain ⟨c, hc, hzero⟩ := List.mem_map.mp hmem
    have hnat := congrArg UInt16.toNat hzero
    rw [UInt8.toNat_toUInt16] at hnat
    exact absurd hnat (Nat.pos_iff_ne_zero.mp (hs c hc).1)
  have hlow : ∀ c : UInt8, c.toNat < 128 → c.toUInt16 < 0x80 := by
    intro c hc
    rw [UInt16.lt_iff_toNat_lt, UInt8.toNat_toUInt16]
    exact hc
  have hbehind : toUTF8String (t ++ ascii b) = toUTF8String t ++ b := by
    cases b with
    | nil =>
      show toUTF8String (t ++ []) = _
      rw [List.append_nil, List.append_nil]
    | cons c b =>
      have hc := hlow c (hb c List.mem_cons_self).2
      have hunit : c.toUInt16 < 0xDC00 := by
        rw [UInt16.lt_iff_toNat_lt] at hc ⊢
        exact Nat.lt_trans hc (by decide)
      show toUTF8String (t ++ c.toUInt16 :: ascii b) = _
      rw [toUTF8String_append t hunit]
      exact congrArg (toUTF8String t ++ ·) (toUTF8String_ascii fun d hd => (hb d hd).2)
  refine ⟨ascii a ++ (t ++ ascii b), ?_, ?_⟩
  · intro hmem
    rcases List.mem_append.mp hmem with hmem | hmem
    · exact hascii ha hmem
    · rcases List.mem_append.mp hmem with hmem | hmem
      · exact h0 hmem
      · exact hascii hb hmem
  · rw [← hbehind]
    induction a with
    | nil => rfl
    | cons c a ih =>
      have hc := hlow c (ha c List.mem_cons_self).2
      show toUTF8String (c.toUInt16 :: (ascii a ++ (t ++ ascii b))) = _
      rw [toUTF8String_cons_ascii hc, ih fun d hd => ha d (List.mem_cons_of_mem c hd)]
      simp

section

variable {B : Build} {calls : List Call} (hclean : ∀ c ∈ calls, Clean B c)
include hclean

/-- But for the user and the host, what is stored is ASCII. -/
theorem isAscii_built {k : CURLUPart} (hk : k ≠ .user ∧ k ≠ .host) :
    ∀ s, slot (calls.foldl store {}) k = some s → IsAscii s := by
  intro s hs
  obtain ⟨hnone, -⟩ | ⟨t, ht, hslot, -⟩ := part_built hclean k
  · cases hnone.symm.trans hs
  · have hstored : stored (.mk k t) = some s := hslot.symm.trans hs
    cases k with
    | user => exact absurd rfl hk.1
    | host => exact absurd rfl hk.2
    | options => exact ht.elim
    | url => exact ht.elim
    | zoneid => exact ht.elim
    | scheme =>
      obtain ⟨g, hg⟩ := Option.isSome_iff_exists.mp ht.2.1.handled
      obtain rfl : cString t = s := Option.some.inj hstored
      intro c hc
      have hbounds := isAlnum_bounds (isAlnum_of_handler hg c hc)
      omega
    | password =>
      obtain ⟨heq, -⟩ := Option.filter_eq_some_iff.mp
        (show (some (encode isUnreserved (cString t))).filter (· ≠ []) = some s from hstored)
      rw [← Option.some.inj heq]
      exact isAscii_encode _
    | port =>
      obtain ⟨-, n, -, rfl⟩ := ht
      obtain rfl : cString (ofInt n) = s := Option.some.inj hstored
      rw [cString_ofInt (Int.natCast_nonneg n)]
      intro c hc
      have hbounds := isDigit_bounds (isDigit_of_mem_decimal hc)
      omega
    | path =>
      obtain rfl : pathBytes (cString t) = s := Option.some.inj hstored
      intro c hc
      obtain ⟨hbyte, -, -, hlow⟩ := pathBytes_bytes hc
      exact ⟨(Nat.zero_le 32).trans_lt (isPlainByte_bounds hbyte), hlow⟩
    | query =>
      obtain rfl : lowerTriples (queryBytes t) = s := Option.some.inj hstored
      intro c hc
      obtain ⟨hbyte, -, -, hlow⟩ := storedQuery_bytes hc
      exact ⟨(Nat.zero_le 32).trans_lt (isPlainByte_bounds hbyte), hlow⟩
    | fragment =>
      obtain ⟨heq, -⟩ := Option.filter_eq_some_iff.mp
        (show (some (encode isUnreserved (cString t))).filter (· ≠ []) = some s from hstored)
      rw [← Option.some.inj heq]
      exact isAscii_encode _

/-- The user that is written is the bytes of a text. -/
theorem user_built : ∃ t, 0 ∉ t ∧ (withUser (calls.foldl store {})).user.getD [] = toUTF8String t := by
  rw [withUser_getD]
  obtain ⟨hnone, -⟩ | ⟨t, ⟨h0, -⟩, hslot, -⟩ := part_built hclean .user
  · change (calls.foldl store {}).user = none at hnone
    exact ⟨[], List.not_mem_nil, by rw [hnone]; rfl⟩
  · change (calls.foldl store {}).user = some (cString t) at hslot
    exact ⟨t, h0, by rw [hslot, Option.getD_some, cString_eq h0]⟩

/-- What is written is the bytes of a text. -/
theorem exists_written {s h : Text} (hs : lastValue calls .scheme = some s)
    (hh : lastValue calls .host = some h) :
    ∃ text, 0 ∉ text ∧ toUTF8String text = written B (withUser (calls.foldl store {})) := by
  obtain ⟨hscheme, -, -, hfile, -⟩ := scheme_built hclean hs
  obtain ⟨hhost, -, -, -, hbytes, -⟩ := host_built hclean hh
  have hwell := wellFormed_built hclean hs hh
  have hpart : ∀ {k : CURLUPart}, k ≠ .user ∧ k ≠ .host → ∀ s, slot (calls.foldl store {}) k = some s →
      IsAscii s := fun hk => isAscii_built hclean hk
  have hwritten : writtenHost (withUser (calls.foldl store {})).zoneid
      ((withUser (calls.foldl store {})).host.getD []) = encode isUnreserved (cString h) := by
    rw [withUser_eq]
    dsimp only
    rw [(steady_foldl calls).zoneid, hhost, Option.getD_some]
    exact writtenHost_name (fun c hc => (hbytes c hc).1) fun c hc => (hbytes c hc).2
  obtain ⟨t, h0, huser⟩ := user_built hclean
  rw [written_eq hwell hfile, assembled, authorityText, loginText, huser, hwritten, withUser_eq]
  dsimp only
  have ha : IsAscii (cString s ++ bytes "://") :=
    (hpart (k := .scheme) (by decide) _ hscheme).append (by unfold IsAscii; decide +kernel)
  have hb : IsAscii (labelled ":" (calls.foldl store {}).password ++
      ((if ((withUser (calls.foldl store {})).user.isSome || (calls.foldl store {}).password.isSome) then
        bytes "@" else []) ++ (encode isUnreserved (cString h) ++ (labelled ":" (calls.foldl store {}).port ++
      ((calls.foldl store {}).path.getD (bytes "/") ++
        (labelled "?" ((calls.foldl store {}).query.filter (· ≠ [])) ++
          labelled "#" (calls.foldl store {}).fragment)))))) := by
    refine .append (isAscii_labelled (by unfold IsAscii; decide +kernel) (hpart (k := .password) (by decide)))
      (.append ?_ (.append (isAscii_encode _)
      (.append (isAscii_labelled (by unfold IsAscii; decide +kernel) (hpart (k := .port) (by decide)))
      (.append ?_ (.append (isAscii_labelled (by unfold IsAscii; decide +kernel) fun q hq => ?_)
      (isAscii_labelled (by unfold IsAscii; decide +kernel) (hpart (k := .fragment) (by decide))))))))
    · split
      · unfold IsAscii
        decide +kernel
      · exact fun c hc => absurd hc List.not_mem_nil
    · cases hp : (calls.foldl store {}).path with
      | none =>
        unfold IsAscii
        decide +kernel
      | some p => exact hpart (k := .path) (by decide) p hp
    · exact hpart (k := .query) (by decide) q (Option.filter_eq_some_iff.mp hq).1
  obtain ⟨text, htext, heq⟩ := exists_text ha hb h0
  refine ⟨text, htext, heq.trans ?_⟩
  simp [bytes, List.append_assoc]

end

/-- Handles that read alike give alike. -/
theorem Gives.congr {B : Build} {calls : List Call} {s : Text} {v w : CURLU}
    (hsame : ∀ what flags, curlUrlGet B w what flags = curlUrlGet B v what flags)
    (h : Gives B calls s ⟨v⟩) : Gives B calls s ⟨w⟩ := by
  have hpart : ∀ what flags, TUrl.getPart B ⟨w⟩ what flags = TUrl.getPart B ⟨v⟩ what flags := by
    intro what flags
    rw [TUrl.getPart, TUrl.getPart]
    dsimp only
    rw [hsame]
  exact {
    scheme := (hpart _ _).trans h.scheme
    user := (hpart _ _).trans h.user
    password := (hpart _ _).trans h.password
    host := (hpart _ _).trans h.host
    port := (hpart _ _).trans h.port
    path := (hpart _ _).trans h.path
    query := (hpart _ _).trans h.query
    fragment := (hpart _ _).trans h.fragment }

/-- Calls for every part; the host is set twice, and the path, the query and the password have characters
that end their parts. -/
def siteCalls : List Call :=
  [.scheme (lit "http"), .host (lit "example.net"), .user (lit "me"), .password (lit "p:@/ w"),
    .host (lit "example.com"), .port (ofInt 8080), .path (lit "a?b/50% c"), .query (lit "x=1&y=a+b#c"),
    .fragment (lit "top?")]

end NetMod.UrlBuilder
