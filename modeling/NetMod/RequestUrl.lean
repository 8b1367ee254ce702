import NetMod.UrlApi

/-!
# `Scheme`, `Host` and `Port` of a request, and the URL it has then

A setter drops the URL the request was created with, and `GetUrl` builds another one from the fields
that the setters have written (`getUrl_run`).  What was not set is not there any more, or is port 0;
`urlParts_iff` says when nothing is missed.
-/

namespace NetMod.RequestUrl

open NetMod.BlitzText NetMod.Utf8Text NetMod.PercentEncoding NetMod.UrlQuery NetMod.QueryFields
open NetMod.CurlText NetMod.UrlApi

/-! ### `TUrl` and `TUrlBuilder` -/

/-- `bmx_curl_url_set`. -/
def bmxCurlUrlSet (B : Build) (handle : CURLU) (part : CURLUPart) (content : Text) (urlencode : Bool) :
    Option CURLUcode × CURLU :=
  curlUrlSet B handle part (cString content) urlencode

structure TUrl where
  urlPtr : CURLU
  deriving DecidableEq

namespace TUrl

/-- `New()`. -/
def empty : TUrl := ⟨{}⟩

def parseUrl (B : Build) (u : TUrl) (url : Text) : Bool × TUrl :=
  let (res, handle) := bmxCurlUrlSet B u.urlPtr .url url false
  (res.isNone, ⟨handle⟩)

/-- `New(url)`. -/
def new (B : Build) (url : Text) : TUrl := (empty.parseUrl B url).2

/-- A getter: what `bmx_curl_url_get` gives, or `""`. -/
def getPart (B : Build) (u : TUrl) (part : CURLUPart) (flags : GetFlags) : Text :=
  match curlUrlGet B u.urlPtr part flags with
  | .ok content => fromUTF8String content
  | .error _ => []

def getScheme (B : Build) (u : TUrl) : Text :=
  u.getPart B .scheme { urldecode := true, defaultScheme := true }

def isAbsolute (B : Build) (u : TUrl) : Bool := u.getScheme B ≠ []

def toString (B : Build) (u : TUrl) : Text := u.getPart B .url { urlencode := true }

/-- A setter of `TUrlBuilder`, which looks at no result. -/
def set (B : Build) (part : CURLUPart) (urlencode : Bool) (content : Text) (u : TUrl) : TUrl :=
  ⟨(bmxCurlUrlSet B u.urlPtr part content urlencode).2⟩

end TUrl

namespace TUrlBuilder

def scheme (B : Build) (scheme : Text) : TUrl → TUrl := .set B .scheme false scheme

def host (B : Build) (host : Text) : TUrl → TUrl := .set B .host false host

def port (B : Build) (port : Int) : TUrl → TUrl := .set B .port false (ofInt port)

def path (B : Build) (path : Text) : TUrl → TUrl := .set B .path true path

end TUrlBuilder

/-! ### `THttpRequest` -/

/-- The fields of a request that its URL comes from. -/
structure THttpRequest where
  url : Option TUrl := none
  scheme : Text := []
  host : Text := []
  port : Int := 0
  path : Text := []
  query : Text := []

/-- A call of one of the three setters. -/
inductive UrlCall where
  | scheme (s : Text)
  | host (h : Text)
  | port (p : Int)

namespace THttpRequest

/-- What `Get`, `Post`, `Put` and `NewRequest` create. -/
def create (B : Build) (url : Text) : THttpRequest := { url := some (.new B url) }

/-- `Scheme`, `Host` and `Port`. -/
def call (request : THttpRequest) : UrlCall → THttpRequest
  | .scheme s => { request with scheme := s, url := none }
  | .host h => { request with host := h, url := none }
  | .port p => { request with port := p, url := none }

def run (request : THttpRequest) (calls : List UrlCall) : THttpRequest := calls.foldl call request

def buildUrl (B : Build) (request : THttpRequest) (withQuery : Bool) : TUrl :=
  let path :=
    if request.query ≠ [] ∧ withQuery then request.path ++ lit "?" ++ request.query else request.path
  let result := TUrl.new B path
  if result.isAbsolute B then result
  else
    TUrlBuilder.path B path <| TUrlBuilder.port B request.port <| TUrlBuilder.host B request.host <|
      TUrlBuilder.scheme B request.scheme .empty

/-- `GetUrl`: the URL, and the request that keeps it. -/
def getUrl (B : Build) (request : THttpRequest) : TUrl × THttpRequest :=
  match request.url with
  | some url => (url, request)
  | none =>
    let url := request.buildUrl B true
    (url, { request with url := some url })

end THttpRequest

/-! ### What the setters are for -/

/-- The URL API takes the value. -/
def Accepted (B : Build) : UrlCall → Prop
  | .scheme s => (bmxCurlUrlSet B {} .scheme s false).1 = none
  | .host h => (bmxCurlUrlSet B {} .host h false).1 = none
  | .port p => (bmxCurlUrlSet B {} .port (ofInt p) false).1 = none

instance (B : Build) (c : UrlCall) : Decidable (Accepted B c) := by
  cases c <;> exact inferInstanceAs (Decidable (_ = _))

/-- The last value that a call of a kind gives. -/
def last {α : Type} (value : UrlCall → Option α) (calls : List UrlCall) : Option α :=
  (calls.filterMap value).getLast?

/-- The last value of `Scheme`. -/
def lastScheme (calls : List UrlCall) : Option Text :=
  last (fun c => match c with | .scheme s => some s | _ => none) calls

/-- The last value of `Host`. -/
def lastHost (calls : List UrlCall) : Option Text :=
  last (fun c => match c with | .host h => some h | _ => none) calls

/-- The last value of `Port`. -/
def lastPort (calls : List UrlCall) : Option Int :=
  last (fun c => match c with | .port p => some p | _ => none) calls

/-- A part of a URL, or that it is not there. -/
def part (B : Build) (u : TUrl) (what : CURLUPart) : Except CURLUcode Bytes :=
  curlUrlGet B u.urlPtr what {}

/-- The parts that no setter sets. -/
def otherParts : List CURLUPart := [.user, .password, .options, .path, .query, .fragment]

/-- `u` is a complete URL with the last values set, and the original's parts otherwise.  A host is
kept with its percent triples in lower case. -/
structure OnlyThemselves (B : Build) (original u : TUrl) (calls : List UrlCall) : Prop where
  complete : u.toString B ≠ []
  scheme : part B u .scheme = ((lastScheme calls).map fun s => .ok (cString s)).getD
    (part B original .scheme)
  host : part B u .host = ((lastHost calls).map fun h => .ok (lowerTriples (cString h))).getD
    (part B original .host)
  port : part B u .port = ((lastPort calls).map fun p => .ok (decimal p.toNat)).getD
    (part B original .port)
  others : ∀ what ∈ otherParts, part B u what = part B original what

/-! ### What the API takes -/

theorem set_scheme {B : Build} {s : Bytes} (h : (curlUrlSet B {} .scheme s false).1 = none) :
    (s ≠ [] ∧ ∀ c ∈ s, isAlnum c = true) ∧
      ∀ u, curlUrlSet B u .scheme s false = (none, { u with scheme := some s, guessedScheme := false }) := by
  rw [curlUrlSet] at h
  split at h
  · cases h
  next hlen =>
  dsimp only at h
  split at h
  · next hset =>
    have hset' := hset
    rw [setUrlScheme] at hset
    split at hset
    · cases hset
    next hshort =>
    split at hset
    · cases hset
    next hsome =>
    obtain ⟨g, hg⟩ : ∃ g, getSchemeHandler B s = some g := by
      cases hg : getSchemeHandler B s with
      | none => exact absurd (by rw [hg]; rfl) hsome
      | some g => exact ⟨g, rfl⟩
    have halnum := isAlnum_of_handler hg
    have hne : s ≠ [] := fun hs => hshort (.inr (by rw [hs]; exact Nat.one_pos))
    have hpercent : percent ∉ s := fun hp => absurd (halnum _ hp) (by decide)
    refine ⟨⟨hne, halnum⟩, ?_⟩
    intro u
    rw [curlUrlSet, if_neg hlen]
    dsimp only
    rw [hset']
    show (none, { u with scheme := some (lowerTriples s), guessedScheme := false }) = _
    rw [lowerTriples_of_not_mem hpercent]
  · cases h

theorem set_host_eq (B : Build) (u : CURLU) {h : Bytes} (hlen : ¬ curlMaxInputLength < h.length) :
    curlUrlSet B u .host h false =
      if (hostFine B (lowerTriples h) false).2 then
        (none, { u with
          zoneid := (hostFine B (lowerTriples h) false).1, host := some (lowerTriples h) })
      else (some .badHostname, { u with zoneid := (hostFine B (lowerTriples h) false).1 }) := by
  rw [curlUrlSet, if_neg hlen]
  rfl

theorem set_host {B : Build} {h : Bytes} (hok : (curlUrlSet B {} .host h false).1 = none) (u : CURLU) :
    curlUrlSet B u .host h false =
      (none, { u with
        zoneid := (hostFine B (lowerTriples h) false).1, host := some (lowerTriples h) }) := by
  have hlen : ¬ curlMaxInputLength < h.length := by
    intro hbig
    rw [curlUrlSet, if_pos hbig] at hok
    cases hok
  rw [set_host_eq B {} hlen] at hok
  rw [set_host_eq B u hlen]
  split at hok
  · next hfine => rw [if_pos hfine]
  · cases hok

theorem set_port {B : Build} {n : Nat} (hok : (curlUrlSet B {} .port (decimal n) false).1 = none)
    (u : CURLU) :
    curlUrlSet B u .port (decimal n) false =
      (none, { u with port := some (decimal n), portnum := n }) := by
  obtain ⟨c, s, hdec, hc⟩ := isDigit_decimal n
  have hhead : ((decimal n).head?.any isDigit) = true := by
    rw [hdec]
    exact hc
  have hset : ∀ v : CURLU, setUrlPort v (decimal n) =
      if n ≤ 0xffff then (none, { v with port := some (decimal n), portnum := n })
      else (some .badPortNumber, v) := by
    intro v
    rw [setUrlPort, if_pos hhead, strNumBase_decimal (by omega)]
    by_cases hn : n ≤ 0xffff
    · rw [if_pos hn, if_pos hn]
    · rw [if_neg hn, if_neg hn]
  rw [curlUrlSet] at hok ⊢
  split at hok
  · cases hok
  next hlen =>
  rw [if_neg hlen]
  show setUrlPort u (decimal n) = _
  change (setUrlPort {} (decimal n)).1 = none at hok
  rw [hset] at hok ⊢
  split at hok
  · next hn => rw [if_pos hn]
  · cases hok

/-- An accepted port is not negative. -/
theorem accepted_port {B : Build} {p : Int} (h : Accepted B (.port p)) : 0 ≤ p := by
  by_contra hp
  rw [Accepted, bmxCurlUrlSet, cString_negative (by omega), curlUrlSet] at h
  split at h
  · cases h
  · change (setUrlPort {} (byte '-' :: decimal p.natAbs)).1 = none at h
    cases h

/-! ### The fields of a request after a run -/

theorem last_append {α : Type} (value : UrlCall → Option α) (calls : List UrlCall) (c : UrlCall) :
    last value (calls ++ [c]) = (value c).orElse fun _ => last value calls := by
  rw [last, List.filterMap_append]
  cases hc : value c with
  | none =>
    rw [List.filterMap_cons_none hc, List.filterMap_nil, List.append_nil]
    rfl
  | some v =>
    rw [List.filterMap_cons_some hc, List.filterMap_nil, List.getLast?_concat]
    rfl

/-- The last value is that of a call. -/
theorem last_mem {α : Type} {value : UrlCall → Option α} {calls : List UrlCall} {v : α}
    (h : last value calls = some v) : ∃ c ∈ calls, value c = some v :=
  List.mem_filterMap.mp (List.mem_of_getLast? h)

/-- **What a run of setters leaves** in the fields of a request. -/
theorem run_eq (request : THttpRequest) (calls : List UrlCall) :
    request.run calls =
      { request with
        url := if calls = [] then request.url else none
        scheme := (lastScheme calls).getD request.scheme
        host := (lastHost calls).getD request.host
        port := (lastPort calls).getD request.port } := by
  induction calls using List.reverseRecOn with
  | nil => rfl
  | append_singleton calls c ih =>
    have hne : calls ++ [c] ≠ [] := List.append_ne_nil_of_right_ne_nil _ (List.cons_ne_nil c [])
    have hscheme : lastScheme (calls ++ [c]) = _ := last_append _ calls c
    have hhost : lastHost (calls ++ [c]) = _ := last_append _ calls c
    have hport : lastPort (calls ++ [c]) = _ := last_append _ calls c
    rw [THttpRequest.run, List.foldl_append]
    show (request.run calls).call c = _
    rw [ih, if_neg hne, hscheme, hhost, hport]
    cases c <;> rfl

/-- The last value of a kind is one that the API takes. -/
theorem last_accepted {B : Build} {α : Type} {value : UrlCall → Option α} {mk : α → UrlCall}
    (hmk : ∀ c v, value c = some v → c = mk v) {calls : List UrlCall}
    (hcalls : ∀ c ∈ calls, Accepted B c) {v : α} (h : last value calls = some v) :
    Accepted B (mk v) := by
  obtain ⟨c, hc, hv⟩ := last_mem h
  rw [← hmk c v hv]
  exact hcalls c hc

section

variable {B : Build} {calls : List UrlCall} (hcalls : ∀ c ∈ calls, Accepted B c)
include hcalls

theorem lastScheme_accepted {s : Text} (h : lastScheme calls = some s) : Accepted B (.scheme s) := by
  apply last_accepted _ hcalls h
  intro c v hv
  cases c <;> cases hv
  rfl

theorem lastHost_accepted {t : Text} (h : lastHost calls = some t) : Accepted B (.host t) := by
  apply last_accepted _ hcalls h
  intro c v hv
  cases c <;> cases hv
  rfl

theorem lastPort_accepted {p : Int} (h : lastPort calls = some p) : Accepted B (.port p) := by
  apply last_accepted _ hcalls h
  intro c v hv
  cases c <;> cases hv
  rfl

end

/-! ### The URL that is built -/

/-- The handle that `GetUrl` builds after a run. -/
def rebuilt (B : Build) (calls : List UrlCall) : CURLU where
  scheme := (lastScheme calls).map cString
  host := (lastHost calls).map fun h => lowerTriples (cString h)
  zoneid := (lastHost calls).bind fun h => (hostFine B (lowerTriples (cString h)) false).1
  port := some (decimal ((lastPort calls).getD 0).toNat)
  path := some (bytes "/")
  portnum := ((lastPort calls).getD 0).toNat

section

variable {B : Build} {calls : List UrlCall} (hcalls : ∀ c ∈ calls, Accepted B c)
include hcalls

theorem builder_scheme :
    TUrlBuilder.scheme B ((lastScheme calls).getD []) .empty =
      ⟨{ scheme := (lastScheme calls).map cString }⟩ := by
  cases hlast : lastScheme calls with
  | none => rfl
  | some s =>
    obtain ⟨-, hset⟩ := set_scheme (lastScheme_accepted hcalls hlast)
    show TUrl.mk (curlUrlSet B {} .scheme (cString s) false).2 = _
    rw [hset]
    rfl

theorem builder_host {u : CURLU} (hhost : u.host = none) :
    TUrlBuilder.host B ((lastHost calls).getD []) ⟨u⟩ =
      ⟨{ u with host := (rebuilt B calls).host, zoneid := (rebuilt B calls).zoneid }⟩ := by
  rw [rebuilt]
  cases hlast : lastHost calls with
  | none =>
    show TUrl.mk (curlUrlSet B u .host [] false).2 = _
    rw [set_host_eq B u (by decide)]
    show TUrl.mk { u with zoneid := none } = TUrl.mk { u with host := none, zoneid := none }
    rw [← hhost]
  | some h =>
    have hset := set_host (lastHost_accepted hcalls hlast) u
    show TUrl.mk (curlUrlSet B u .host (cString h) false).2 = _
    rw [hset]
    rfl

theorem builder_port (u : CURLU) :
    TUrlBuilder.port B ((lastPort calls).getD 0) ⟨u⟩ =
      ⟨{ u with port := (rebuilt B calls).port, portnum := (rebuilt B calls).portnum }⟩ := by
  have hacc : Accepted B (.port ((lastPort calls).getD 0)) := by
    cases hlast : lastPort calls with
    | none => exact (rfl : (bmxCurlUrlSet B {} .port (ofInt 0) false).1 = none)
    | some p => exact lastPort_accepted hcalls hlast
  have hstr := cString_ofInt (accepted_port hacc)
  rw [Accepted, bmxCurlUrlSet, hstr] at hacc
  show TUrl.mk (curlUrlSet B u .port (cString (ofInt _)) false).2 = _
  rw [hstr, set_port hacc]
  rfl

theorem buildUrl_eq {request : THttpRequest} (hpath : request.path = []) (hquery : request.query = [])
    (hscheme : request.scheme = (lastScheme calls).getD [])
    (hhost : request.host = (lastHost calls).getD [])
    (hport : request.port = (lastPort calls).getD 0) :
    request.buildUrl B true = ⟨rebuilt B calls⟩ := by
  rw [THttpRequest.buildUrl, hquery, hpath, hscheme, hhost, hport]
  show TUrlBuilder.path B [] (TUrlBuilder.port B _ (TUrlBuilder.host B _ (TUrlBuilder.scheme B _ .empty)))
    = _
  rw [builder_scheme hcalls, builder_host hcalls rfl, builder_port hcalls]
  rfl

/-- **What `GetUrl` gives after a run.** -/
theorem getUrl_run (url : Text) :
    (((THttpRequest.create B url).run calls).getUrl B).1 =
      if calls = [] then .new B url else ⟨rebuilt B calls⟩ := by
  have hrun := run_eq (.create B url) calls
  have hurl : ((THttpRequest.create B url).run calls).url = if calls = [] then some (.new B url) else none :=
    congrArg THttpRequest.url hrun
  rw [THttpRequest.getUrl, hurl]
  by_cases hnil : calls = []
  · rw [if_pos hnil, if_pos hnil]
  · rw [if_neg hnil, if_neg hnil]
    exact buildUrl_eq hcalls (congrArg THttpRequest.path hrun) (congrArg THttpRequest.query hrun)
      (congrArg THttpRequest.scheme hrun) (congrArg THttpRequest.host hrun)
      (congrArg THttpRequest.port hrun)

end

/-! ### When the setters change only themselves -/

/-- The URL has no user info, no path but `/`, no query and no fragment. -/
structure Bare (u : CURLU) : Prop where
  user : u.user = none
  password : u.password = none
  options : u.options = none
  path : u.path.getD (bytes "/") = bytes "/"
  query : u.query.filter (· ≠ []) = none
  fragment : u.fragment = none

/-- `scheme://host:port/` is shorter than the API's limit. -/
def Fits (B : Build) (s h : Text) (p : Int) : Prop :=
  let host := lowerTriples (cString h)
  (cString s).length + (writtenHost (hostFine B host false).1 host).length +
    (decimal p.toNat).length + 5 < curlMaxInputLength

/-- The setters give all of the URL that is not bare. -/
structure Replaces (B : Build) (original : CURLU) (calls : List UrlCall) (s : Text) : Prop where
  scheme : lastScheme calls = some s
  host : if strequal (bytes "file") (cString s) then lastHost calls = none → original.host = none
    else ∃ h, lastHost calls = some h ∧ Fits B s h ((lastPort calls).getD 0)
  port : lastPort calls = none → original.port = some (bytes "0")
  bare : Bare original

/-- No part is lost. -/
def Kept (B : Build) (original : CURLU) (calls : List UrlCall) : Prop :=
  (calls = [] ∧ (written B original).length < curlMaxInputLength) ∨
    ∃ s, Replaces B original calls s

/-- A part, or the code for its absence. -/
def partOr (code : CURLUcode) : Option Bytes → Except CURLUcode Bytes
  | none => .error code
  | some s => .ok s

theorem part_eq (B : Build) (u : CURLU) (what : CURLUPart) (h : what ≠ .url) :
    part B ⟨u⟩ what = partOr (storedPart B u what {}).2 (storedPart B u what {}).1 := by
  rw [part, curlUrlGet_plain B u h]
  cases storedPart B u what {} with
  | mk ptr ifmissing => cases ptr <;> rfl

theorem missing_iff {code : CURLUcode} {o : Option Bytes} : .error code = partOr code o ↔ o = none := by
  cases o with
  | none => exact iff_of_true rfl rfl
  | some s => exact iff_of_false (fun h => nomatch h) (fun h => nomatch h)

theorem present_iff {code : CURLUcode} {s : Bytes} {o : Option Bytes} :
    .ok s = partOr code o ↔ o = some s := by
  cases o with
  | none => exact iff_of_false (fun h => nomatch h) (fun h => nomatch h)
  | some t =>
    rw [partOr, Except.ok.injEq, Option.some.injEq]
    exact eq_comm

/-- A part that is not built is kept if the original has none either. -/
theorem absent_iff (B : Build) (u : CURLU) (calls : List UrlCall) (what : CURLUPart) (h : what ≠ .url)
    (hr : (storedPart B (rebuilt B calls) what {}).1 = none)
    (hcode : (storedPart B (rebuilt B calls) what {}).2 = (storedPart B u what {}).2) :
    part B ⟨rebuilt B calls⟩ what = part B ⟨u⟩ what ↔ (storedPart B u what {}).1 = none := by
  rw [part_eq B u what h, part_eq B _ what h, hr, hcode]
  exact missing_iff

theorem others_iff (B : Build) (u : CURLU) (calls : List UrlCall) :
    (∀ what ∈ otherParts, part B ⟨rebuilt B calls⟩ what = part B ⟨u⟩ what) ↔ Bare u := by
  have hpath : part B ⟨rebuilt B calls⟩ .path = part B ⟨u⟩ .path ↔
      u.path.getD (bytes "/") = bytes "/" := by
    rw [part_eq B u .path nofun, part_eq B (rebuilt B calls) .path nofun]
    show Except.ok (bytes "/") = Except.ok (u.path.getD (bytes "/")) ↔ _
    rw [Except.ok.injEq]
    exact eq_comm
  constructor
  · intro h
    exact {
      user := (absent_iff B u calls .user nofun rfl rfl).mp (h .user (by decide))
      password := (absent_iff B u calls .password nofun rfl rfl).mp (h .password (by decide))
      options := (absent_iff B u calls .options nofun rfl rfl).mp (h .options (by decide))
      path := hpath.mp (h .path (by decide))
      query := (absent_iff B u calls .query nofun rfl rfl).mp (h .query (by decide))
      fragment := (absent_iff B u calls .fragment nofun rfl rfl).mp (h .fragment (by decide)) }
  · intro h what hwhat
    simp only [otherParts, List.mem_cons, List.not_mem_nil, or_false] at hwhat
    obtain rfl | rfl | rfl | rfl | rfl | rfl := hwhat
    · exact (absent_iff B u calls .user nofun rfl rfl).mpr h.user
    · exact (absent_iff B u calls .password nofun rfl rfl).mpr h.password
    · exact (absent_iff B u calls .options nofun rfl rfl).mpr h.options
    · exact hpath.mpr h.path
    · exact (absent_iff B u calls .query nofun rfl rfl).mpr h.query
    · exact (absent_iff B u calls .fragment nofun rfl rfl).mpr h.fragment

/-! ### Complete URLs -/

/-- A text that begins with an ASCII byte is not read as empty. -/
theorem fromUTF8String_ne_nil {c : UInt8} {s : Bytes} (hc : 0 < c.toNat ∧ c.toNat < 128) :
    fromUTF8String (c :: s) ≠ [] := by
  have hne : (c ≠ 0) := by
    rintro rfl
    exact absurd hc.1 (by decide)
  rw [fromUTF8String, List.takeWhile_cons_of_pos (by simpa using hne), fromUTF8Bytes_one hc.2]
  exact List.cons_ne_nil _ _

/-- The scheme, if there is one, begins with a letter or digit. -/
def SchemeHead (u : CURLU) : Prop :=
  ∀ s, u.scheme = some s → ∃ c t, s = c :: t ∧ isAlnum c = true

theorem written_head {B : Build} {u : CURLU} (hhead : SchemeHead u) (h : Writable u) :
    ∃ c t, written B u = c :: t ∧ 0 < c.toNat ∧ c.toNat < 128 := by
  have hall : ∀ n : Fin 256, isAlnum (UInt8.ofNat n) = true →
      0 < (UInt8.ofNat n).toNat ∧ (UInt8.ofNat n).toNat < 128 := by decide +kernel
  obtain ⟨s, hs, -⟩ := h
  obtain ⟨c, t, rfl, hc⟩ := hhead s hs
  rw [written]
  split
  · exact ⟨byte 'f', _, rfl, by decide⟩
  · have hbounds := hall ⟨c.toNat, c.toNat_lt⟩
    rw [UInt8.ofNat_toNat] at hbounds
    rw [hs]
    exact ⟨c, _, rfl, hbounds hc⟩

/-- **A URL is complete** if it can be written, and shorter than the limit. -/
theorem toString_ne_nil_iff {B : Build} {u : CURLU} (hhead : SchemeHead u) :
    TUrl.toString B ⟨u⟩ ≠ [] ↔ Writable u ∧ (written B u).length < curlMaxInputLength := by
  rw [TUrl.toString, TUrl.getPart]
  show (match urlgetUrl B u { urlencode := true } with
    | .ok content => fromUTF8String content
    | .error _ => []) ≠ [] ↔ _
  by_cases hw : Writable u
  · rw [urlgetUrl_written B hw, limited]
    obtain ⟨c, t, heq, hc⟩ := written_head (B := B) hhead hw
    by_cases hlen : (written B u).length < curlMaxInputLength
    · rw [if_pos hlen]
      refine iff_of_true ?_ ⟨hw, hlen⟩
      rw [heq]
      exact fromUTF8String_ne_nil hc
    · rw [if_neg hlen]
      exact iff_of_false (fun h => h rfl) (fun h => hlen h.2)
  · obtain ⟨code, herr⟩ := urlgetUrl_missing B hw
    rw [herr]
    exact iff_of_false (fun h => h rfl) (fun h => hw h.1)

/-- `New` of a URL that parses keeps what is parsed. -/
theorem new_spec {B : Build} {url : Text} (h : (TUrl.empty.parseUrl B url).1 = true) :
    parseurl B (cString url) = .ok (TUrl.new B url).urlPtr := by
  have hreplace : ∀ r : Option CURLUcode × CURLU, r = parseurlAndReplace B (cString url) {} → r.1 = none →
      parseurl B (cString url) = .ok r.2 := by
    rintro r rfl hok
    rw [parseurlAndReplace] at hok ⊢
    cases hp : parseurl B (cString url) with
    | error code =>
      rw [hp] at hok
      cases hok
    | ok u => rfl
  have hok : (curlUrlSet B {} .url (cString url) false).1 = none := Option.isNone_iff_eq_none.mp h
  show _ = Except.ok (curlUrlSet B {} .url (cString url) false).2
  apply hreplace _ _ hok
  rw [curlUrlSet] at hok ⊢
  split at hok
  · cases hok
  next hlen =>
  rw [if_neg hlen]
  change (setUrl B {} (cString url)).1 = none at hok
  show setUrl B {} (cString url) = _
  rw [setUrl] at hok ⊢
  by_cases hne : cString url = []
  · rw [if_pos hne] at hok
    cases hok
  · rw [if_neg hne]
    split <;> rfl

theorem isAlnum_of_isLower {c : UInt8} (h : isLower c = true) : isAlnum c = true := by
  rw [isAlnum, h, Bool.or_true, Bool.true_or]

theorem parsed_writable {B : Build} {url : Bytes} {u : CURLU} (h : parseurl B url = .ok u) :
    SchemeHead u ∧ Writable u := by
  obtain ⟨c, t, hs, hc, hhost⟩ := parseurl_spec h
  constructor
  · intro s hscheme
    rw [hs] at hscheme
    cases hscheme
    exact ⟨c, t, rfl, isAlnum_of_isLower hc⟩
  · refine ⟨c :: t, hs, hhost.imp_left fun hfile => ?_⟩
    rw [hfile]
    decide

theorem rebuilt_head {B : Build} {calls : List UrlCall} (hcalls : ∀ c ∈ calls, Accepted B c) :
    SchemeHead (rebuilt B calls) := by
  intro s hs
  obtain ⟨t, hlast, rfl⟩ := Option.map_eq_some_iff.mp hs
  obtain ⟨⟨hne, halnum⟩, -⟩ := set_scheme (lastScheme_accepted hcalls hlast)
  obtain ⟨c, r, hcons⟩ := List.exists_cons_of_ne_nil hne
  exact ⟨c, r, hcons, halnum c (by rw [hcons]; exact List.mem_cons_self)⟩

/-- What is built from a scheme that is not `file` is `scheme://host:port/`. -/
theorem length_written_rebuilt (B : Build) {calls : List UrlCall} {s h : Text}
    (hs : lastScheme calls = some s) (hh : lastHost calls = some h)
    (hfile : ¬ strequal (bytes "file") (cString s) = true) :
    (written B (rebuilt B calls)).length < curlMaxInputLength ↔
      Fits B s h ((lastPort calls).getD 0) := by
  rw [written, rebuilt, hs, hh]
  dsimp only [Option.map_some, Option.any_some, Option.getD_some, Option.bind_some]
  rw [if_neg hfile, ite_self, urlText, Fits]
  have hcolon : (bytes "://").length = 3 ∧ (bytes ":").length = 1 ∧ (bytes "/").length = 1 := by decide
  simp only [labelled, urlTail, Option.getD_none, Option.getD_some, Option.filter_none,
    Option.isSome_none, Bool.or_self, Bool.false_eq_true, if_false, List.length_append,
    List.append_nil, hcolon]
  omega

/-- What is built with the scheme `file` is `file:///`. -/
theorem length_written_file (B : Build) {calls : List UrlCall} {s : Text}
    (hs : lastScheme calls = some s) (hfile : strequal (bytes "file") (cString s) = true) :
    (written B (rebuilt B calls)).length < curlMaxInputLength := by
  rw [written, rebuilt, hs]
  dsimp only [Option.map_some, Option.any_some]
  rw [if_pos hfile]
  show 8 < curlMaxInputLength
  decide

/-- **When what is built is complete.** -/
theorem complete_iff {B : Build} {calls : List UrlCall} (hcalls : ∀ c ∈ calls, Accepted B c) :
    TUrl.toString B ⟨rebuilt B calls⟩ ≠ [] ↔
      ∃ s, lastScheme calls = some s ∧
        if strequal (bytes "file") (cString s) then True
        else ∃ h, lastHost calls = some h ∧ Fits B s h ((lastPort calls).getD 0) := by
  rw [toString_ne_nil_iff (rebuilt_head hcalls)]
  constructor
  · rintro ⟨⟨c, hc, hhost⟩, hlen⟩
    obtain ⟨s, hs, rfl⟩ := Option.map_eq_some_iff.mp hc
    refine ⟨s, hs, ?_⟩
    split
    · trivial
    · next hfile =>
      obtain ⟨r, hr⟩ := Option.isSome_iff_exists.mp (hhost.resolve_left hfile)
      obtain ⟨h, hh, -⟩ := Option.map_eq_some_iff.mp hr
      exact ⟨h, hh, (length_written_rebuilt B hs hh hfile).mp hlen⟩
  · rintro ⟨s, hs, hrest⟩
    have hscheme : (rebuilt B calls).scheme = some (cString s) := by rw [rebuilt, hs]; rfl
    split at hrest
    · next hfile => exact ⟨⟨_, hscheme, .inl hfile⟩, length_written_file B hs hfile⟩
    · next hfile =>
      obtain ⟨h, hh, hfits⟩ := hrest
      have hhost : (rebuilt B calls).host.isSome := by rw [rebuilt, hh]; rfl
      exact ⟨⟨_, hscheme, .inr hhost⟩, (length_written_rebuilt B hs hh hfile).mpr hfits⟩

/-! ### The parts that are set -/

section

variable {B : Build} {u : CURLU} {calls : List UrlCall}

/-- The scheme of what is built is the last one set. -/
theorem scheme_rebuilt {s : Text} (hs : lastScheme calls = some s) :
    part B ⟨rebuilt B calls⟩ .scheme = ((lastScheme calls).map fun s => .ok (cString s)).getD
      (part B ⟨u⟩ .scheme) := by
  rw [part_eq B _ .scheme nofun]
  show partOr .noScheme ((lastScheme calls).map cString) = _
  rw [hs]
  rfl

/-- The host of what is built is the last one set, or there is none. -/
theorem host_rebuilt_iff :
    part B ⟨rebuilt B calls⟩ .host = ((lastHost calls).map fun h => .ok (lowerTriples (cString h))).getD
      (part B ⟨u⟩ .host) ↔ (lastHost calls = none → u.host = none) := by
  rw [part_eq B _ .host nofun, part_eq B u .host nofun]
  show partOr .noHost ((lastHost calls).map fun h => lowerTriples (cString h)) = _ ↔ _
  cases lastHost calls with
  | none => exact missing_iff.trans ⟨fun h _ => h, fun h => h rfl⟩
  | some h => exact iff_of_true rfl fun h => nomatch h

/-- The port of what is built is the last one set, or 0. -/
theorem port_rebuilt_iff :
    part B ⟨rebuilt B calls⟩ .port = ((lastPort calls).map fun p => .ok (decimal p.toNat)).getD
      (part B ⟨u⟩ .port) ↔ (lastPort calls = none → u.port = some (bytes "0")) := by
  rw [part_eq B _ .port nofun, part_eq B u .port nofun]
  have hport : ∀ v : CURLU, (storedPart B v .port {}).1 = v.port := fun v => by
    rw [storedPart]
    cases v.port <;> rfl
  rw [hport, hport]
  show partOr .noPort (some (decimal ((lastPort calls).getD 0).toNat)) = _ ↔ _
  cases lastPort calls with
  | none => exact present_iff.trans ⟨fun h _ => h, fun h => h rfl⟩
  | some p => exact iff_of_true rfl fun h => nomatch h

end

/-! ### Setters and the other parts -/

/-- **The setters change only themselves** exactly if no other part is lost. -/
theorem urlParts_iff (B : Build) {url : Text} (hparse : (TUrl.empty.parseUrl B url).1 = true)
    {calls : List UrlCall} (hcalls : ∀ c ∈ calls, Accepted B c) :
    OnlyThemselves B (.new B url) (((THttpRequest.create B url).run calls).getUrl B).1 calls ↔
      Kept B (TUrl.new B url).urlPtr calls := by
  obtain ⟨hhead, hw⟩ := parsed_writable (new_spec hparse)
  have hcomplete := toString_ne_nil_iff (B := B) hhead
  rw [getUrl_run hcalls]
  by_cases hnil : calls = []
  · subst hnil
    rw [if_pos rfl]
    constructor
    · intro h
      exact .inl ⟨rfl, (hcomplete.mp h.complete).2⟩
    · rintro (⟨-, hlen⟩ | ⟨s, hs⟩)
      · exact ⟨hcomplete.mpr ⟨hw, hlen⟩, rfl, rfl, rfl, fun _ _ => rfl⟩
      · cases hs.scheme
  · rw [if_neg hnil]
    constructor
    · intro h
      obtain ⟨s, hs, hrest⟩ := (complete_iff hcalls).mp h.complete
      refine .inr ⟨s, hs, ?_, port_rebuilt_iff.mp h.port, (others_iff B _ calls).mp h.others⟩
      split
      · exact host_rebuilt_iff.mp h.host
      · next hfile =>
        rw [if_neg hfile] at hrest
        exact hrest
    · rintro (⟨hc, -⟩ | ⟨s, hs⟩)
      · exact absurd hc hnil
      · have hhost := hs.host
        refine {
          complete := (complete_iff hcalls).mpr ⟨s, hs.scheme, ?_⟩
          scheme := scheme_rebuilt hs.scheme
          host := host_rebuilt_iff.mpr ?_
          port := port_rebuilt_iff.mpr hs.port
          others := (others_iff B _ calls).mpr hs.bare }
        · split at hhost
          · next hfile =>
            rw [if_pos hfile]
            trivial
          · next hfile =>
            rw [if_neg hfile]
            exact hhost
        · split at hhost
          · exact hhost
          · obtain ⟨h, hh, -⟩ := hhost
            rw [hh]
            exact fun hn => nomatch hn

/-- A build with the protocols `http` and `https`, where no host is an IPv6 address. -/
def httpBuild : Build where
  protocols
    | 17 => some ⟨bytes "http", 80, false, List.all_eq_true.mp rfl⟩
    | 26 => some ⟨bytes "https", 443, false, List.all_eq_true.mp rfl⟩
    | _ => none
  win32 := false
  inetPton _ := none
  inetNtop _ _ := none

/-- `Scheme`, `Host` and `Port` of a URL with nothing else in it. -/
def allThree : List UrlCall := [.scheme (lit "https"), .host (lit "example.org"), .port 8443]

/-- `urlParts_iff` at a bare URL, with all three set. -/
theorem urlParts_allThree :
    OnlyThemselves httpBuild (.new httpBuild (lit "http://example.com/"))
      (((THttpRequest.create httpBuild (lit "http://example.com/")).run allThree).getUrl httpBuild).1
      allThree := by
  have hbare : (TUrl.new httpBuild (lit "http://example.com/")).urlPtr =
      { scheme := some (bytes "http"), host := some (bytes "example.com") } := by
    decide +kernel
  have hfits : Fits httpBuild (lit "https") (lit "example.org") 8443 := by
    rw [Fits]
    decide +kernel
  refine (urlParts_iff httpBuild (by decide +kernel) (by decide +kernel)).mpr (.inr ⟨lit "https", ?_⟩)
  rw [hbare]
  refine ⟨rfl, ?_, nofun, ⟨rfl, rfl, rfl, rfl, rfl, rfl⟩⟩
  rw [if_neg (by decide)]
  exact ⟨_, rfl, hfits⟩

/-- Setting the host loses the scheme, and with it the URL. -/
theorem not_always_only_themselves :
    ¬ ∀ (B : Build) (url : Text) (calls : List UrlCall), (TUrl.empty.parseUrl B url).1 = true →
      (∀ c ∈ calls, Accepted B c) →
      OnlyThemselves B (.new B url) (((THttpRequest.create B url).run calls).getUrl B).1 calls := by
  intro h
  have hc := h httpBuild (lit "http://example.com/a?b=1") [.host (lit "example.org")] (by decide +kernel)
    (by decide +kernel)
  exact hc.complete (by decide +kernel)

end NetMod.RequestUrl
