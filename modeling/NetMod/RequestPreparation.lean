import NetMod.CaStore
import NetMod.CookieStore
import NetMod.HttpFields
import NetMod.RequestContent

/-!
# `THttpRequest`, `NormalizeReqest` and `PrepareContext`

`PrepareContext` turns a request into options of a fresh easy handle; here it is the list of the
`setopt` calls in order.  The request's URL is the value of `GetUrl`.  The certificates configured
with `SetCACerts` reach libcurl through `ConfigureSSL`, which `PrepareContext` runs for requests
whose own URL is https, and which ignores what libcurl refuses: `trust_iff` says when they get there.
-/

namespace NetMod.RequestPreparation

open NetMod.BlitzText NetMod.CaStore NetMod.CookieStore NetMod.HttpCookie NetMod.HttpFields
open NetMod.RequestContent

/-- The sinks of the sources, and others by whether they are replay-safe. -/
inductive TSink where
  | memory (data : List UInt8) (size : Nat)
  | stream (total : Int)
  | custom (replaySafe : Bool)
deriving DecidableEq

namespace TSink

/-- `New TMemorySink`. -/
def newMemory : TSink := .memory (List.replicate 1024 0) 0

def beginAttempt : TSink → TSink
  | .memory data _ => .memory data 0
  | .stream _ => .stream 0
  | .custom replaySafe => .custom replaySafe

def isReplaySafe : TSink → Bool
  | .memory .. => true
  | .stream _ => false
  | .custom replaySafe => replaySafe

end TSink

/-- The fields of `THttpRequest` that preparing it reads. -/
structure THttpRequest where
  headers : THttpFields := {}
  acceptCompressed : Bool := true
  connectTimeoutMs : Int := 10000
  totalTimeoutMs : Int := 0
  idleTimeoutMs : Int := 60000
  method : EHttpMethod := .get
  url : TUrl
  userAgent : Text := []
  followRedirects : Bool := true
  user : Text := []
  password : Text := []
  bearerToken : Text := []
  authMethod : UInt32 := 0
  content : Option TContent := none
  verbose : Bool := false
  sink : Option TSink := none
  cookies : List THttpCookie := []

/-- The fields of `THttpClient` that preparing a request reads, and the stores' provider. -/
structure THttpClient where
  caStore : Option TCAStore := none
  provider : TCAStoreProvider := {}
  cookieStore : THttpCookieStore := {}
  followRedirects : Bool := true
  connectTimeoutMs : Int := 10000
  totalTimeoutMs : Int := 0
  idleTimeoutMs : Int := 60000
  userAgent : Text := []

/-- `InitRequest`. -/
def initRequest (client : THttpClient) (request : THttpRequest) : THttpRequest :=
  { request with
    followRedirects := client.followRedirects
    idleTimeoutMs := client.idleTimeoutMs
    connectTimeoutMs := client.connectTimeoutMs
    totalTimeoutMs := client.totalTimeoutMs
    userAgent := client.userAgent }

/-! ### Cookies of a request -/

/-- `ConvertCookies`; a string builder that does not exist yet is `none`. -/
def convertCookies (cookies : List THttpCookie) (sb : Option Text) : Option Text :=
  cookies.foldl (fun sb cookie =>
    some ((match sb with | none => [] | some text => text ++ lit "; ") ++
      cookie.name ++ lit "=" ++ cookie.value)) sb

/-- `NormalizeReqest`, which `Submit` runs: the request's own cookies, then those of the store. -/
def normalizeRequest (P : Platform) (now : UInt64) (client : THttpClient) (request : THttpRequest) :
    THttpClient × THttpRequest :=
  let sb := convertCookies request.cookies none
  let (client, sb) :=
    if !isEmpty client.cookieStore then
      let (cookieStore, matchedCookies) := matchUrl P now client.cookieStore request.url
      ({ client with cookieStore }, convertCookies matchedCookies sb)
    else (client, sb)
  match sb with
  | some text =>
    (client, { request with headers := request.headers.add (.ofHeader .cookie text) })
  | none => (client, request)

/-! ### Options of the easy handle -/

/-- A `setopt` call of `PrepareContext` or `ConfigureSSL`. -/
inductive CurlOption where
  | caInfo (path : Text)
  | caInfoBlob (blob : List UInt8)
  | url (url : Text)
  | followLocation (follow : Bool)
  | connectTimeoutMs (ms : Int)
  | timeoutMs (ms : Int)
  | lowSpeedLimit (bytes : Int)
  | lowSpeedTime (secs : Int)
  | verbose
  | acceptEncoding (encoding : Text)
  | username (user : Text)
  | password (password : Text)
  | xoauth2Bearer (token : Text)
  | userAgent (userAgent : Text)
  | httpAuth (auth : UInt32)
  | noBody
  | httpGet
  | customRequest (method : Text)
  | upload
  | post
  | readCallback
  | postFieldSizeLarge (length : Int)
  | postFieldSize (length : Int)
  | inFileSizeLarge (length : Int)
  | httpHeader (lines : List Text)
  | writeCallback
  | headerCallback
  | privateData
deriving DecidableEq

/-- `ConfigureSSL`: the client's store, or the provider's if it has none. -/
def configureSSL (m : CaMachine) (client : THttpClient) : THttpClient × List CurlOption :=
  let client :=
    match client.caStore with
    | some _ => client
    | none =>
      let (provider, store) := client.provider.getStore m
      { client with provider, caStore := store }
  match client.caStore with
  | none => (client, [])
  | some store =>
    if store.isAFile then
      let path := store.certsAsPath
      (client, if path ≠ [] then [.caInfo path] else [])
    else
      let blob := store.certsAsBlob
      (client, if blob ≠ [] then [.caInfoBlob blob] else [])

/-- An option set only where its string is not empty. -/
def optionUnlessEmpty (option : Text → CurlOption) (value : Text) : List CurlOption :=
  if value ≠ [] then [option value] else []

/-- The two options of the idle timeout, whose seconds are rounded up and at least one. -/
def idleOptions (idleTimeoutMs : Int) : List CurlOption :=
  if 0 < idleTimeoutMs then
    let secs : Int := ((idleTimeoutMs + 999).bmod (2 ^ 32)).tdiv 1000
    [.lowSpeedLimit 1, .lowSpeedTime (if secs < 1 then 1 else secs)]
  else []

/-- The options for timeouts, credentials and the like. -/
def generalOptions (request : THttpRequest) : List CurlOption :=
  List.flatten
    [[.url request.url.text, .followLocation request.followRedirects,
        .connectTimeoutMs request.connectTimeoutMs, .timeoutMs request.totalTimeoutMs],
      idleOptions request.idleTimeoutMs,
      if request.verbose then [.verbose] else [],
      if request.acceptCompressed then [.acceptEncoding []] else [],
      optionUnlessEmpty .username request.user,
      optionUnlessEmpty .password request.password,
      optionUnlessEmpty .xoauth2Bearer request.bearerToken,
      optionUnlessEmpty .userAgent request.userAgent,
      [.httpAuth request.authMethod]]

/-- The options for the method and the body. -/
def methodOptions (request : THttpRequest) : List CurlOption :=
  match request.method with
  | .get | .head | .delete =>
    (if request.method = .head then [.noBody] else [.httpGet]) ++
    (if request.content.isSome then
      [.customRequest (httpMethodToString request.method), .upload]
    else [])
  | .post =>
    .post ::
      match request.content with
      | some content =>
        let length := content.getLength
        .readCallback :: (if 0 ≤ length then [.postFieldSizeLarge length] else [])
      | none => [.postFieldSize 0]
  | _ =>
    .customRequest (httpMethodToString request.method) ::
      match request.content with
      | some content =>
        let length := content.getLength
        [.upload, .readCallback] ++ (if 0 ≤ length then [.inFileSizeLarge length] else [])
      | none => []

/-- The body's content type joins the headers unless they have one. -/
def addContentType (request : THttpRequest) : THttpRequest :=
  match request.content with
  | some content =>
    if request.headers.hasHeader .contentType then request
    else
      { request with
        headers := request.headers.add (.ofHeader .contentType content.getContentType) }
  | none => request

/-- What `PrepareContext` leaves: the client, the request, the context's sink, and the easy handle's
options. -/
structure Prepared where
  client : THttpClient
  request : THttpRequest
  sink : TSink
  options : List CurlOption

/-- `PrepareContext` after `newEasy`; `none` where that gave no handle. -/
def prepareContext (m : CaMachine) (client : THttpClient) (request : THttpRequest)
    (easyCreated : Bool) : Option Prepared :=
  if !easyCreated then none
  else
    let (client, ssl) :=
      if request.url.scheme = lit "https" then configureSSL m client else (client, [])
    let options := ssl ++ generalOptions request ++ methodOptions request
    let request := addContentType request
    let headerOptions : List CurlOption :=
      if !request.headers.isEmpty then [.httpHeader request.headers.toSList] else []
    let options := options ++ headerOptions
    let sink := (request.sink.getD .newMemory).beginAttempt
    some
      { client := client
        request := { request with sink := request.sink.map fun _ => sink }
        sink := sink
        options := options ++ [.writeCallback, .headerCallback, .privateData] }

/-! ### Configured trust -/

/-- The arguments of the `SetCACerts` overloads; a stream is the bytes it holds. -/
inductive CACerts where
  | path (path : Text)
  | certs (certs : List UInt8)
  | store (store : TCAStore)
  | stream (bytes : List UInt8)

/-- The store an overload makes. -/
def CACerts.toStore : CACerts → TCAStore
  | .path p => .file { path := p }
  | .certs b => .blob b
  | .store s => s
  | .stream b => .blob b

/-- `SetCACerts`. -/
def setCACerts (client : THttpClient) (arg : CACerts) : THttpClient :=
  { client with caStore := some arg.toStore }

/-- The configured certificates: the path of an existing file, a blob that is not empty, or what
the store has. -/
def CACerts.configured (m : CaMachine) : CACerts → Option CaSource
  | .path p => if p ≠ [] ∧ m.fileExists p then some (.path p) else none
  | .certs b => if b ≠ [] then some (.blob b) else none
  | .store s => s.certificates m
  | .stream b => if b ≠ [] then some (.blob b) else none

/-- The CA sources among the options. -/
def caSources (options : List CurlOption) : List CaSource :=
  options.filterMap fun
    | .caInfo path => some (.path path)
    | .caInfoBlob blob => some (.blob blob)
    | _ => none

/-- `curl_easy_setopt`, as far as it sets the CA sources of the handle. -/
def setopt (h : EasyTrust) : CurlOption → EasyTrust
  | .caInfo path => h.tell (.path path)
  | .caInfoBlob blob => h.tell (.blob blob)
  | _ => h

/-- The CA sources of a handle that was new. -/
def easyTrust (options : List CurlOption) : EasyTrust := options.foldl setopt {}

theorem easyTrust_eq (options : List CurlOption) :
    easyTrust options = (caSources options).foldl EasyTrust.tell {} := by
  have hall : ∀ (options : List CurlOption) (h : EasyTrust),
      options.foldl setopt h = (caSources options).foldl EasyTrust.tell h := by
    intro options
    induction options with
    | nil => exact fun _ => rfl
    | cons option options ih =>
      intro h
      rw [List.foldl_cons, ih, caSources, caSources, List.filterMap_cons]
      cases option <;> rfl
  exact hall options {}

theorem configured_eq (m : CaMachine) (arg : CACerts) :
    arg.configured m = arg.toStore.certificates m := by
  cases arg with
  | path p =>
    by_cases hp : p = []
    · simp [CACerts.configured, CACerts.toStore, TCAStore.certificates, TCAStore.verifyBundle,
        TFileCAStore.verifyBundle, TCAStore.source?, TCAStore.isAFile, TCAStore.certsAsPath,
        TFileCAStore.certsAsPath, hp]
    · cases hf : m.fileExists p <;>
        simp [CACerts.configured, CACerts.toStore, TCAStore.certificates, TCAStore.verifyBundle,
          TFileCAStore.verifyBundle, TCAStore.source?, TCAStore.isAFile, TCAStore.certsAsPath,
          TFileCAStore.certsAsPath, hp, hf]
  | certs certs => rfl
  | store store => rfl
  | stream bytes => rfl

@[simp] theorem caSources_append (a b : List CurlOption) :
    caSources (a ++ b) = caSources a ++ caSources b :=
  List.filterMap_append

/-- The options that are neither a CA source nor the header list. -/
def CurlOption.isPlain : CurlOption → Bool
  | .caInfo _ | .caInfoBlob _ | .httpHeader _ => false
  | _ => true

theorem optionUnlessEmpty_plain (option : Text → CurlOption) (value : Text)
    (h : (option value).isPlain = true) :
    (optionUnlessEmpty option value).all CurlOption.isPlain = true := by
  rw [optionUnlessEmpty]
  split
  · rw [List.all_cons, h]
    rfl
  · rfl

theorem generalOptions_plain (request : THttpRequest) :
    (generalOptions request).all CurlOption.isPlain = true := by
  have hidle : (idleOptions request.idleTimeoutMs).all CurlOption.isPlain = true := by
    rw [idleOptions]
    split <;> rfl
  have hverbose : (if request.verbose then [CurlOption.verbose] else []).all CurlOption.isPlain =
      true := by
    split <;> rfl
  have haccept : (if request.acceptCompressed then [CurlOption.acceptEncoding []] else []).all
      CurlOption.isPlain = true := by
    split <;> rfl
  simp only [generalOptions, List.flatten_cons, List.flatten_nil, List.append_nil, List.all_append,
    hidle, hverbose, haccept, optionUnlessEmpty_plain .username _ rfl,
    optionUnlessEmpty_plain .password _ rfl, optionUnlessEmpty_plain .xoauth2Bearer _ rfl,
    optionUnlessEmpty_plain .userAgent _ rfl]
  rfl

theorem methodOptions_plain (request : THttpRequest) :
    (methodOptions request).all CurlOption.isPlain = true := by
  rw [methodOptions]
  cases request.content with
  | none =>
    cases hm : request.method <;> rfl
  | some content =>
    cases hm : request.method <;> (try rfl) <;> by_cases hl : 0 ≤ content.getLength <;>
      simp [hl, CurlOption.isPlain]

theorem caSources_of_plain {options : List CurlOption}
    (h : options.all CurlOption.isPlain = true) : caSources options = [] := by
  apply List.filterMap_eq_nil_iff.mpr
  intro option hoption
  have hplain := List.all_eq_true.mp h option hoption
  cases option <;> first | rfl | cases hplain

/-- A client that has a store asks that one. -/
theorem configureSSL_of_store (m : CaMachine) {client : THttpClient} {store : TCAStore}
    (h : client.caStore = some store) :
    (configureSSL m client).1 = client ∧
      caSources (configureSSL m client).2 = store.source?.toList := by
  rw [configureSSL, TCAStore.source?]
  simp only [h]
  cases store.isAFile with
  | true => by_cases hp : store.certsAsPath = [] <;> simp [hp, caSources]
  | false => by_cases hb : store.certsAsBlob = [] <;> simp [hb, caSources]

/-- **The CA sources of a prepared handle** are those of the client's store, for an https URL. -/
theorem caSources_prepareContext {m : CaMachine} {client : THttpClient} {store : TCAStore}
    (h : client.caStore = some store) {request : THttpRequest} {p : Prepared}
    (hp : prepareContext m client request true = some p) :
    p.client.caStore = some store ∧
      caSources p.options =
        if request.url.scheme = lit "https" then store.source?.toList else [] := by
  obtain ⟨hclient, hssl⟩ := configureSSL_of_store m h
  simp only [prepareContext, Bool.not_true, Bool.false_eq_true, if_false] at hp
  have hp := Option.some.inj hp
  by_cases hs : request.url.scheme = lit "https"
  · simp only [hs, if_true] at hp ⊢
    subst hp
    refine ⟨by rw [hclient, h], ?_⟩
    simp only [caSources_append, hssl, caSources_of_plain (generalOptions_plain request),
      caSources_of_plain (methodOptions_plain request), List.append_nil]
    split <;> simp [caSources]
  · simp only [hs, if_false] at hp ⊢
    subst hp
    refine ⟨h, ?_⟩
    simp only [caSources_append, caSources_of_plain (generalOptions_plain request),
      caSources_of_plain (methodOptions_plain request), List.append_nil]
    split <;> rfl

/-- The client after preparing requests one after another. -/
def afterRequests (m : CaMachine) (client : THttpClient) (requests : List THttpRequest) :
    THttpClient :=
  requests.foldl (fun client request =>
    match prepareContext m client request true with
    | some p => p.client
    | none => client) client

theorem afterRequests_caStore (m : CaMachine) {store : TCAStore} :
    ∀ (requests : List THttpRequest) {client : THttpClient}, client.caStore = some store →
      (afterRequests m client requests).caStore = some store := by
  intro requests
  induction requests with
  | nil => exact fun h => h
  | cons request requests ih =>
    intro client h
    apply ih
    dsimp only
    split
    · rename_i p hp
      exact (caSources_prepareContext h hp).1
    · exact h

/-- **Which handles carry the configured trust.**  After any `SetCACerts` calls and any earlier
requests, the handle prepared for a request has the configured certificates as its one CA source iff
the request's own URL is https, the last call made a store that needs no verification any more, and
libcurl takes the certificates. -/
theorem trust_iff (m : CaMachine) (client : THttpClient) (args : List CACerts) (arg : CACerts)
    (src : CaSource) (earlier : List THttpRequest) (request : THttpRequest) (p : Prepared)
    (hconf : arg.configured m = some src)
    (hp : prepareContext m (afterRequests m ((args ++ [arg]).foldl setCACerts client) earlier)
      request true = some p) :
    easyTrust p.options = src.trust ↔
      request.url.scheme = lit "https" ∧ arg.toStore.Ready m ∧ src.Fits := by
  have hstore : ((args ++ [arg]).foldl setCACerts client).caStore = some arg.toStore := by
    rw [List.foldl_append]
    rfl
  obtain ⟨-, hca⟩ := caSources_prepareContext (afterRequests_caStore m earlier hstore) hp
  rw [configured_eq] at hconf
  rw [easyTrust_eq, hca, ← TCAStore.handed_eq_iff hconf]
  have hdefault : ({} : EasyTrust) ≠ src.trust := by cases src <;> exact fun h => by cases h
  by_cases hs : request.url.scheme = lit "https"
  · rw [if_pos hs]
    cases htold : arg.toStore.source? with
    | none => simp [hdefault]
    | some told =>
      have hone : [told].foldl EasyTrust.tell {} = told.handed := rfl
      rw [Option.toList_some, hone, Option.map_some, Option.some.injEq]
      constructor
      · intro h
        have hfits := CaSource.fits_of_handed h
        exact ⟨hs, h.trans (CaSource.handed_of_fits hfits).symm, hfits⟩
      · intro hready
        obtain ⟨-, hsame, hfits⟩ := hready
        exact hsame.trans (CaSource.handed_of_fits hfits)
  · simp [hs, hdefault]

/-- A machine with one certificate file and no platform certificates. -/
def caMachine : CaMachine := ⟨fun path => path = lit "/etc/my-ca.pem", none⟩

def apiRequest : THttpRequest :=
  { url := ⟨lit "https", lit "api.example", lit "/", lit "https://api.example/"⟩ }

theorem trust_blob :
    ∃ p, prepareContext caMachine (afterRequests caMachine
        (([] ++ [CACerts.certs [1, 2, 3]]).foldl setCACerts {}) []) apiRequest true = some p ∧
      easyTrust p.options = { caInfoBlob := some [1, 2, 3] } := by
  refine ⟨_, rfl, ?_⟩
  have hfits : (CaSource.blob [1, 2, 3]).Fits := by simp [CaSource.Fits, curlMaxInputLength]
  exact (trust_iff caMachine {} [] (.certs [1, 2, 3]) (.blob [1, 2, 3]) [] apiRequest _ rfl rfl).mpr
    ⟨rfl, trivial, hfits⟩

/-- A certificate file given by its path is never used. -/
theorem not_every_trust_used :
    ¬ ∀ (m : CaMachine) (client : THttpClient) (arg : CACerts) (src : CaSource)
      (request : THttpRequest) (p : Prepared), arg.configured m = some src →
      request.url.scheme = lit "https" →
      prepareContext m (setCACerts client arg) request true = some p →
      easyTrust p.options = src.trust := by
  intro hall
  have hconf : (CACerts.path (lit "/etc/my-ca.pem")).configured caMachine =
      some (.path (lit "/etc/my-ca.pem")) := by decide
  obtain ⟨p, hp⟩ : ∃ p, prepareContext caMachine
      (setCACerts {} (.path (lit "/etc/my-ca.pem"))) apiRequest true = some p := ⟨_, rfl⟩
  have htrust := hall caMachine {} _ _ apiRequest p hconf rfl hp
  obtain ⟨-, hca⟩ := caSources_prepareContext (m := caMachine) rfl hp
  have hnone : easyTrust p.options = {} := by
    rw [easyTrust_eq, hca]
    rfl
  rw [hnone] at htrust
  cases htrust

end NetMod.RequestPreparation
