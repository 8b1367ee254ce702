import Mathlib.Data.List.Perm.Basic
import NetMod.CookieHeader
import NetMod.Lib.PartialRuns

/-!
# The headers of a request that is sent more than once

`NormalizeReqest` and `PrepareContext` add the headers they derive to the request's own list, and
nothing takes them out again.  A request is followed here through any sequence of `Header`, `Body`,
`Cookie` and `Submit` calls, attempts of its submissions and changes of its client.

`fields_perm` says what the list holds: the headers of the user, one Cookie header for each `Submit`
that had cookies, rejected or not, and the first Content-Type ever derived.  `headers_iff` compares
that with what an attempt should hand to libcurl.
-/

namespace NetMod.RequestHeaders

open NetMod.BlitzText NetMod.CaStore NetMod.CookieHeader NetMod.CookieStore NetMod.HttpCookie
open NetMod.HttpFields NetMod.PartialRuns NetMod.RequestContent NetMod.RequestPreparation

/-! ### A request and what happens to it -/

/-- A `Submit`: the cookies of the request and of the store at that moment, and whether the queue
took it. -/
structure Submitted where
  cookies : List THttpCookie
  accepted : Bool

/-- `userHeaders`, `submits` and `firstType` record what happened and decide nothing; the last is
the type of the first content that an attempt found without a Content-Type of the user. -/
structure RequestState where
  client : THttpClient
  request : THttpRequest
  userHeaders : List THttpField
  submits : List Submitted := []
  firstType : Option Text := none

/-- A request as its user hands it over: all its headers are the user's. -/
def fresh (client : THttpClient) (request : THttpRequest) : RequestState where
  client := client
  request := request
  userHeaders := request.headers.fields

inductive RequestEvent where
  | header (key value : Text)
  | headerOf (key : EHttpHeader) (value : Text)
  /-- `Body`, and what reading and rewinding leaves of a content. -/
  | body (content : Option TContent)
  | cookie (cookie : THttpCookie)
  | url (url : TUrl)
  /-- Other requests, responses and setters change the client and its cookie store. -/
  | client (client : THttpClient)
  /-- `Send` or `SendAsync`, on a queue that may be closed. -/
  | submit (now : UInt64) (closed : Bool)
  /-- `PrepareContext` for a submission: its first attempt or a retry. -/
  | attempt (k : Nat) (easyCreated : Bool)

/-- The cookies of a request at a `Submit`. -/
def sendCookies (P : Platform) (now : UInt64) (client : THttpClient) (request : THttpRequest) :
    List THttpCookie :=
  request.cookies ++
    if isEmpty client.cookieStore then [] else (matchUrl P now client.cookieStore request.url).2

/-- The user has given the request a Content-Type. -/
def RequestState.userType (s : RequestState) : Bool :=
  s.userHeaders.any fun f => f.header == some .contentType

/-- The type of the content, where the user has not given one. -/
def RequestState.derivedType (s : RequestState) : Option Text :=
  if s.userType then none else s.request.content.map (·.getContentType)

/-- `Header`. -/
def RequestState.addHeader (s : RequestState) (field : THttpField) : RequestState :=
  { s with
    request := { s.request with headers := s.request.headers.add field }
    userHeaders := s.userHeaders ++ [field] }

/-- `Send` and `SendAsync` with their `Submit`; the exception of a closed queue comes after
`NormalizeReqest`. -/
def RequestState.submit (P : Platform) (now : UInt64) (closed : Bool) (s : RequestState) :
    RequestState :=
  let request := { s.request with sink := some (s.request.sink.getD .newMemory) }
  let (client, request) := normalizeRequest P now s.client request
  { s with
    client := client
    request := request
    submits := s.submits ++ [⟨sendCookies P now s.client s.request, !closed⟩] }

/-- `PrepareContext` of an accepted submission. -/
def RequestState.attempt (m : CaMachine) (k : Nat) (easyCreated : Bool) (s : RequestState) :
    Option RequestState :=
  match s.submits[k]? with
  | some ⟨_, true⟩ =>
    match prepareContext m s.client s.request easyCreated with
    | some p =>
      some
        { s with
          client := p.client
          request := p.request
          firstType := s.firstType.or s.derivedType }
    | none => some s
  | _ => none

def requestStep (P : Platform) (m : CaMachine) (s : RequestState) :
    RequestEvent → Option RequestState
  | .header key value => some (s.addHeader (.ofName P key value))
  | .headerOf key value => some (s.addHeader (.ofHeader key value))
  | .body content => some { s with request := { s.request with content } }
  | .cookie cookie =>
    some { s with request := { s.request with cookies := s.request.cookies ++ [cookie] } }
  | .url url => some { s with request := { s.request with url } }
  | .client client => some { s with client }
  | .submit now closed => some (s.submit P now closed)
  | .attempt k easyCreated => s.attempt m k easyCreated

/-! ### What an attempt should hand over -/

/-- A line of `ToSList`. -/
def line (f : THttpField) : Text := f.name ++ lit ": " ++ f.value

/-- The lines an easy handle got. -/
def handedLines (options : List CurlOption) : List Text :=
  options.flatMap fun
    | .httpHeader lines => lines
    | _ => []

/-- The fields a header has with some values. -/
def headerFields (header : EHttpHeader) (values : List Text) : List THttpField :=
  values.map (.ofHeader header)

/-- The Cookie header of cookies, if there are any. -/
def cookieFields (cookies : List THttpCookie) : List THttpField :=
  headerFields .cookie (convertCookies cookies none).toList

/-- The Content-Type header of a type. -/
def typeFields (contentType : Option Text) : List THttpField :=
  headerFields .contentType contentType.toList

/-- The headers of the user, the cookies of the submission and the type of the content. -/
def expectedLines (s : RequestState) (cookies : List THttpCookie) : List Text :=
  (s.userHeaders ++ (cookieFields cookies ++ typeFields s.derivedType)).map line

/-- An attempt hands over what it should, and a rejected `Submit` leaves the headers alone. -/
def Unchanged (P : Platform) (m : CaMachine) (s : RequestState) : RequestEvent → Prop
  | .attempt k easyCreated =>
    ∀ cookies p, s.submits[k]? = some ⟨cookies, true⟩ →
      prepareContext m s.client s.request easyCreated = some p →
        (handedLines p.options).Perm (expectedLines s cookies)
  | .submit now true => (s.submit P now true).request.headers = s.request.headers
  | _ => True

/-- No other `Submit` had cookies, the content still has the type that was derived first, and a
rejected `Submit` has no cookies. -/
def NothingLeft (P : Platform) (s : RequestState) : RequestEvent → Prop
  | .attempt k true =>
    ∀ cookies, s.submits[k]? = some ⟨cookies, true⟩ →
      (∀ x ∈ s.submits.eraseIdx k, x.cookies = []) ∧ ∀ t ∈ s.firstType, s.derivedType = some t
  | .submit now true => sendCookies P now s.client s.request = []
  | _ => True

/-! ### What the functions add -/

theorem cookieValues_eq_nil_iff (cookies : List THttpCookie) :
    (convertCookies cookies none).toList = [] ↔ cookies = [] := by
  cases cookies with
  | nil => exact iff_of_true rfl rfl
  | cons cookie cookies =>
    rw [convertCookies_none]
    simp

/-- **`NormalizeReqest` adds the Cookie header of the moment.** -/
theorem normalizeRequest_fields (P : Platform) (now : UInt64) (client : THttpClient)
    (request : THttpRequest) :
    (normalizeRequest P now client request).2.headers.fields =
      request.headers.fields ++ cookieFields (sendCookies P now client request) := by
  have hjoin : ∀ a b : List THttpCookie,
      convertCookies (a ++ b) none = convertCookies b (convertCookies a none) :=
    fun a b => List.foldl_append
  rw [normalizeRequest, cookieFields, headerFields, sendCookies]
  cases hempty : isEmpty client.cookieStore with
  | true =>
    simp only [Bool.not_true, Bool.false_eq_true, if_false, if_true, List.append_nil]
    cases convertCookies request.cookies none with
    | none => exact (List.append_nil _).symm
    | some text => rfl
  | false =>
    simp only [Bool.not_false, Bool.false_eq_true, if_false, if_true, hjoin]
    cases convertCookies _ (convertCookies request.cookies none) with
    | none => exact (List.append_nil _).symm
    | some text => rfl

/-- `PrepareContext` adds the content's type unless the list has one. -/
theorem addContentType_fields (request : THttpRequest) :
    (addContentType request).headers.fields =
      request.headers.fields ++
        typeFields (if request.headers.hasHeader .contentType then none
          else request.content.map (·.getContentType)) := by
  rw [addContentType]
  cases request.content with
  | none =>
    cases request.headers.hasHeader .contentType <;> exact (List.append_nil _).symm
  | some content =>
    cases hheader : request.headers.hasHeader .contentType with
    | true => simp [typeFields, headerFields]
    | false => simp [THttpFields.add, typeFields, headerFields]

theorem handedLines_append (a b : List CurlOption) :
    handedLines (a ++ b) = handedLines a ++ handedLines b :=
  List.flatMap_append

theorem handedLines_of_plain {options : List CurlOption}
    (h : options.all CurlOption.isPlain = true) : handedLines options = [] := by
  apply List.flatMap_eq_nil_iff.mpr
  intro option hoption
  have hplain := List.all_eq_true.mp h option hoption
  cases option <;> first | rfl | cases hplain

theorem handedLines_configureSSL (m : CaMachine) (client : THttpClient) :
    handedLines (configureSSL m client).2 = [] := by
  rw [configureSSL]
  dsimp only
  repeat' split
  all_goals rfl

/-- **What `PrepareContext` hands over** is the list it leaves. -/
theorem prepareContext_headers {m : CaMachine} {client : THttpClient} {request : THttpRequest}
    {p : Prepared} (h : prepareContext m client request true = some p) :
    p.request.headers = (addContentType request).headers ∧
      handedLines p.options = (addContentType request).headers.fields.map line := by
  have hssl : handedLines
      (if request.url.scheme = lit "https" then configureSSL m client else (client, [])).2 = [] := by
    split
    · exact handedLines_configureSSL m client
    · rfl
  simp only [prepareContext, Bool.not_true, Bool.false_eq_true, if_false] at h
  have h := Option.some.inj h
  subst h
  refine ⟨rfl, ?_⟩
  simp only [handedLines_append, hssl, handedLines_of_plain (generalOptions_plain request),
    handedLines_of_plain (methodOptions_plain request), List.nil_append]
  generalize (addContentType request).headers = headers
  cases hempty : headers.isEmpty with
  | true =>
    rw [List.isEmpty_iff.mp hempty]
    rfl
  | false =>
    show (headers.toSList ++ []) ++ [] = headers.fields.map line
    rw [List.append_nil, List.append_nil]
    rfl

/-! ### What the list holds -/

/-- The fields the request has by now. -/
def RequestState.derivedFields (s : RequestState) : List THttpField :=
  s.submits.flatMap (fun x => cookieFields x.cookies) ++ typeFields s.firstType

/-- The list holds the headers of the user and those. -/
def Holds (s : RequestState) : Prop :=
  s.request.headers.fields.Perm (s.userHeaders ++ s.derivedFields)

theorem hasHeader_contentType {s : RequestState} (hs : Holds s) :
    s.request.headers.hasHeader .contentType = (s.userType || s.firstType.isSome) := by
  have hcookies : (s.submits.flatMap fun x => cookieFields x.cookies).any
      (fun f => f.header == some .contentType) = false := by
    rw [List.any_flatMap]
    apply List.any_eq_false.mpr
    intro x _
    rw [cookieFields]
    cases convertCookies x.cookies none with
    | none => exact Bool.false_ne_true
    | some text => exact Bool.false_ne_true
  have htype : (typeFields s.firstType).any (fun f => f.header == some .contentType) =
      s.firstType.isSome := by
    cases s.firstType <;> rfl
  rw [THttpFields.hasHeader, List.Perm.any_eq hs, List.any_append, RequestState.derivedFields,
    List.any_append, hcookies, htype, Bool.false_or]
  rfl

/-- What an attempt leaves. -/
theorem attempt_fields {s : RequestState} (hs : Holds s) :
    (addContentType s.request).headers.fields.Perm
      (s.userHeaders ++ (s.submits.flatMap (fun x => cookieFields x.cookies) ++
        typeFields (s.firstType.or s.derivedType))) := by
  have htypes : typeFields s.firstType ++
      typeFields (if (s.userType || s.firstType.isSome) = true then none
        else s.request.content.map (·.getContentType)) =
      typeFields (s.firstType.or s.derivedType) := by
    rw [RequestState.derivedType]
    cases s.firstType with
    | none =>
      rw [Option.isSome_none, Bool.or_false]
      rfl
    | some t =>
      rw [Option.isSome_some, Bool.or_true, if_pos rfl]
      rfl
  rw [addContentType_fields, hasHeader_contentType hs, ← htypes, ← List.append_assoc,
    ← List.append_assoc]
  refine List.Perm.append_right _ (hs.trans ?_)
  rw [RequestState.derivedFields, List.append_assoc]

theorem holds_addHeader {s : RequestState} (hs : Holds s) (field : THttpField) :
    Holds (s.addHeader field) := by
  show (s.request.headers.fields ++ [field]).Perm (s.userHeaders ++ [field] ++ s.derivedFields)
  have hlast : (s.userHeaders ++ s.derivedFields ++ [field]).Perm
      (s.userHeaders ++ [field] ++ s.derivedFields) := by
    rw [List.append_assoc, List.append_assoc]
    exact List.Perm.append_left _ List.perm_append_comm
  exact (List.Perm.append_right _ hs).trans hlast

theorem submit_fields (P : Platform) (now : UInt64) (closed : Bool) (s : RequestState) :
    (s.submit P now closed).request.headers.fields =
      s.request.headers.fields ++ cookieFields (sendCookies P now s.client s.request) :=
  normalizeRequest_fields P now s.client
    { s.request with sink := some (s.request.sink.getD .newMemory) }

theorem holds_submit (P : Platform) (now : UInt64) (closed : Bool) {s : RequestState}
    (hs : Holds s) : Holds (s.submit P now closed) := by
  have hderived : (s.submit P now closed).derivedFields =
      s.submits.flatMap (fun x => cookieFields x.cookies) ++
        cookieFields (sendCookies P now s.client s.request) ++ typeFields s.firstType := by
    show (s.submits ++ [_]).flatMap _ ++ _ = _
    rw [List.flatMap_append, List.flatMap_singleton]
    rfl
  rw [Holds, submit_fields, hderived]
  apply (List.Perm.append_right _ hs).trans
  rw [RequestState.derivedFields, List.append_assoc, List.append_assoc, List.append_assoc]
  exact List.Perm.append_left _ (List.Perm.append_left _ List.perm_append_comm)

theorem holds_attempt {m : CaMachine} {k : Nat} {easyCreated : Bool} {s s' : RequestState}
    (hs : Holds s) (h : s.attempt m k easyCreated = some s') : Holds s' := by
  rw [RequestState.attempt] at h
  split at h
  · cases hprepare : prepareContext m s.client s.request easyCreated with
    | none =>
      rw [hprepare] at h
      cases h
      exact hs
    | some p =>
      rw [hprepare] at h
      cases h
      cases easyCreated with
      | false => cases hprepare
      | true =>
        show p.request.headers.fields.Perm _
        rw [(prepareContext_headers hprepare).1]
        exact attempt_fields hs
  · cases h

/-- **Every step keeps the account of the headers.** -/
theorem holds_requestStep (P : Platform) (m : CaMachine) (s : RequestState) (e : RequestEvent)
    (s' : RequestState) (hs : Holds s) (h : requestStep P m s e = some s') : Holds s' := by
  cases e with
  | header key value =>
    cases h
    exact holds_addHeader hs _
  | headerOf key value =>
    cases h
    exact holds_addHeader hs _
  | body content =>
    cases h
    exact hs
  | cookie cookie =>
    cases h
    exact hs
  | url url =>
    cases h
    exact hs
  | client client =>
    cases h
    exact hs
  | submit now closed =>
    cases h
    exact holds_submit P now closed hs
  | attempt k easyCreated =>
    exact holds_attempt hs h

theorem holds_fresh (client : THttpClient) (request : THttpRequest) :
    Holds (fresh client request) := by
  show request.headers.fields.Perm (request.headers.fields ++ [])
  rw [List.append_nil]

/-- **What the list holds in every run**: the headers of the user, a Cookie header for each `Submit`
with cookies, and the first Content-Type. -/
theorem fields_perm (P : Platform) (m : CaMachine) (client : THttpClient) (request : THttpRequest)
    (events : List RequestEvent) (s : RequestState)
    (hrun : run (requestStep P m) (fresh client request) events = some s) :
    s.request.headers.fields.Perm (s.userHeaders ++ s.derivedFields) :=
  run_invariant Holds (holds_requestStep P m) (holds_fresh client request) hrun

/-! ### What an attempt hands over -/

/-- The lines of Cookie headers. -/
def isCookieLine (l : Text) : Bool := startsWith l (lit "Cookie")

theorem filter_cookieLine (values types : List Text) :
    ((headerFields .cookie values ++ headerFields .contentType types).map line).filter
        isCookieLine = values.map fun v => line (.ofHeader .cookie v) := by
  have hcookie : ∀ v : Text, isCookieLine (line (.ofHeader .cookie v)) = true := by
    intro v
    rw [isCookieLine, startsWith_iff, line, List.append_assoc]
    exact List.prefix_append _ _
  have htype : ∀ t : Text, isCookieLine (line (.ofHeader .contentType t)) = false := fun t => rfl
  rw [headerFields, headerFields, List.map_append, List.filter_append, List.map_map, List.map_map,
    List.filter_eq_self.mpr, List.filter_eq_nil_iff.mpr, List.append_nil]
  · rfl
  · intro l hl
    obtain ⟨t, -, rfl⟩ := List.mem_map.mp hl
    exact Bool.eq_false_iff.mp (htype t)
  · intro l hl
    obtain ⟨v, -, rfl⟩ := List.mem_map.mp hl
    exact hcookie v

/-- Cookie headers and Content-Type headers do not take each other's places. -/
theorem derived_perm_iff (values values' types types' : List Text) :
    ((headerFields .cookie values ++ headerFields .contentType types).map line).Perm
        ((headerFields .cookie values' ++ headerFields .contentType types').map line) ↔
      values.Perm values' ∧ types.Perm types' := by
  have hinj : ∀ h : EHttpHeader, Function.Injective fun v => line (.ofHeader h v) :=
    fun h a b hab => List.append_cancel_left hab
  constructor
  · intro h
    have hvalues : values.Perm values' := by
      have hfilter := h.filter isCookieLine
      rw [filter_cookieLine, filter_cookieLine] at hfilter
      exact (List.map_perm_map_iff (hinj .cookie)).mp hfilter
    refine ⟨hvalues, ?_⟩
    rw [List.map_append, List.map_append] at h
    have htypes := (List.perm_append_left_iff _).mp
      ((((hvalues.map (THttpField.ofHeader .cookie)).map line).append_right _).symm.trans h)
    rw [headerFields, headerFields, List.map_map, List.map_map] at htypes
    exact (List.map_perm_map_iff (hinj .contentType)).mp htypes
  · intro h
    exact ((h.1.map _).append (h.2.map _)).map line

/-- The cookies of the other submissions. -/
theorem values_perm_iff {submits : List Submitted} {k : Nat} {x : Submitted}
    (hx : submits[k]? = some x) :
    (submits.flatMap fun x => (convertCookies x.cookies none).toList).Perm
        (convertCookies x.cookies none).toList ↔
      ∀ y ∈ submits.eraseIdx k, y.cookies = [] := by
  obtain ⟨hk, rfl⟩ := List.getElem?_eq_some_iff.mp hx
  have hsplit := (List.getElem_cons_eraseIdx_perm hk).flatMap_right
    fun x => (convertCookies x.cookies none).toList
  have hrest : ∀ a b : List Text, (a ++ b).Perm a ↔ b = [] := by
    intro a b
    have h : (a ++ b).Perm (a ++ []) ↔ b.Perm [] := List.perm_append_left_iff a
    rwa [List.append_nil, List.perm_nil] at h
  rw [List.flatMap_cons] at hsplit
  rw [← List.Perm.congr_left hsplit, hrest, List.flatMap_eq_nil_iff]
  exact forall₂_congr fun y _ => cookieValues_eq_nil_iff y.cookies

theorem types_perm_iff (first derived : Option Text) :
    (first.or derived).toList.Perm derived.toList ↔ ∀ t ∈ first, derived = some t := by
  cases first with
  | none => simp
  | some t => cases derived <;> simp [eq_comm]

/-- **An attempt hands over what it should** exactly when nothing is left of earlier ones. -/
theorem attempt_unchanged_iff (P : Platform) (m : CaMachine) {s : RequestState} (hs : Holds s)
    (k : Nat) (easyCreated : Bool) :
    Unchanged P m s (.attempt k easyCreated) ↔ NothingLeft P s (.attempt k easyCreated) := by
  cases easyCreated with
  | false => exact iff_of_true (fun _ _ _ h => nomatch h) trivial
  | true =>
    obtain ⟨p, hp⟩ : ∃ p, prepareContext m s.client s.request true = some p := ⟨_, rfl⟩
    have hfields := (attempt_fields hs).map line
    rw [← (prepareContext_headers hp).2] at hfields
    have hderived : s.submits.flatMap (fun x => cookieFields x.cookies) =
        headerFields .cookie (s.submits.flatMap fun x => (convertCookies x.cookies none).toList) :=
      List.map_flatMap.symm
    apply forall_congr'
    intro cookies
    rw [forall_comm]
    apply forall_congr'
    intro hk
    have hiff : (handedLines p.options).Perm (expectedLines s cookies) ↔
        (∀ x ∈ s.submits.eraseIdx k, x.cookies = []) ∧ ∀ t ∈ s.firstType, s.derivedType = some t := by
      have hsplit : ∀ fs : List THttpField,
          (s.userHeaders ++ fs).map line = s.userHeaders.map line ++ fs.map line :=
        fun fs => List.map_append
      rw [List.Perm.congr_left hfields, expectedLines, hsplit, hsplit, List.perm_append_left_iff,
        hderived, cookieFields, typeFields, typeFields, derived_perm_iff, values_perm_iff hk,
        types_perm_iff]
    constructor
    · exact fun h => hiff.mp (h p hp)
    · intro h p' hp'
      rw [← Option.some.inj (hp.symm.trans hp')]
      exact hiff.mpr h

theorem unchanged_iff (P : Platform) (m : CaMachine) {s : RequestState} (hs : Holds s)
    (e : RequestEvent) : Unchanged P m s e ↔ NothingLeft P s e := by
  cases e with
  | attempt k easyCreated => exact attempt_unchanged_iff P m hs k easyCreated
  | submit now closed =>
    cases closed with
    | false => exact Iff.rfl
    | true =>
      show (s.submit P now true).request.headers = s.request.headers ↔ _
      have hext : ∀ a b : THttpFields, a = b ↔ a.fields = b.fields :=
        fun a b => ⟨congrArg _, fun h => by cases a; cases b; exact congrArg _ h⟩
      rw [hext, submit_fields, List.append_right_eq_self, cookieFields, headerFields,
        List.map_eq_nil_iff, cookieValues_eq_nil_iff]
      rfl
  | header | headerOf | body | cookie | url | client => exact Iff.rfl

/-- **The first `Send` of a fresh request** hands over what it should. -/
theorem first_send (P : Platform) (m : CaMachine) (client : THttpClient) (request : THttpRequest)
    (now : UInt64) :
    Along (requestStep P m) (Unchanged P m) (fresh client request)
      [.submit now false, .attempt 0 true] := by
  refine along_cons.mpr ⟨trivial, fun s h => ?_⟩
  cases h
  refine along_cons.mpr ⟨?_, fun s' _ => along_nil s'⟩
  rw [attempt_unchanged_iff P m (holds_submit P now false (holds_fresh client request))]
  exact fun cookies _ => ⟨fun x hx => (nomatch hx), fun t ht => (nomatch ht)⟩

/-- **When preparing a request does not change it.**  In every run: exactly when at each attempt no
other `Submit` so far had cookies and the content still has the type that was derived first, and no
rejected `Submit` had cookies. -/
theorem headers_iff (P : Platform) (m : CaMachine) (client : THttpClient) (request : THttpRequest)
    (events : List RequestEvent) :
    Along (requestStep P m) (Unchanged P m) (fresh client request) events ↔
      Along (requestStep P m) (NothingLeft P) (fresh client request) events := by
  refine along_congr fun pre s e hrun => unchanged_iff P m ?_ e
  exact fields_perm P m client request pre s hrun

/-- A request with a cookie, sent a second time. -/
def sentAgain : List RequestEvent :=
  [.cookie { name := lit "a", value := lit "b" }, .submit 0 false, .attempt 0 true, .submit 0 false]

/-- The second attempt hands over more lines than it should. -/
def handsMore (m : CaMachine) (s : RequestState) : Bool :=
  match s.submits[1]?, prepareContext m s.client s.request true with
  | some (Submitted.mk cookies true), some p =>
    decide ((expectedLines s cookies).length < (handedLines p.options).length)
  | _, _ => false

theorem not_always_unchanged : ¬ ∀ (m : CaMachine) (request : THttpRequest)
    (events : List RequestEvent),
    Along (requestStep asciiPlatform m) (Unchanged asciiPlatform m) (fresh {} request) events := by
  intro hall
  have hmore : (run (requestStep asciiPlatform caMachine) (fresh {} apiRequest) sentAgain).any
      (handsMore caMachine) = true := by decide +kernel
  obtain ⟨s, hrun, hmore⟩ := (Option.any_eq_true _ _).mp hmore
  have hunchanged := hall caMachine apiRequest (sentAgain ++ [.attempt 1 true]) sentAgain
    (.attempt 1 true) [] rfl s hrun
  rw [handsMore] at hmore
  split at hmore
  · rename_i cookies p hk hp
    have hlength := (hunchanged cookies p hk hp).length_eq
    have hless := of_decide_eq_true hmore
    omega
  · cases hmore

end NetMod.RequestHeaders
