import NetMod.HttpFields
import NetMod.RequestContent
import NetMod.RequestPreparation

/-!
# `TRetryPolicy`, `ShouldRetry` and `IsReplaySafe`

The two decisions a retry takes, over the fields of the request and the response that they read.  A
content is an object of some type `C` with the three methods of `TContent` that a replay calls; the
built-in contents are the instance `builtinContent`.  `Retryable` is what the two decisions and the
sink's come to together.
-/

namespace NetMod.RetryPolicy

open NetMod.BlitzText NetMod.HttpFields NetMod.RequestContent NetMod.RequestPreparation

def CURLE_COULDNT_CONNECT : Int := 7
def CURLE_PARTIAL_FILE : Int := 18
def CURLE_OPERATION_TIMEDOUT : Int := 28
def CURLE_GOT_NOTHING : Int := 52
def CURLE_SEND_ERROR : Int := 55
def CURLE_RECV_ERROR : Int := 56

/-- The fields of `TRetryPolicy` that decide whether there is a retry; a hash set is a list. -/
structure TRetryPolicy where
  maxAttempts : Int := 0
  respectRetryAfter : Bool := true
  allowPostReplay : Bool := false
  allowMethods : List EHttpMethod := [.get, .head, .put, .delete, .options, .trace]
  retryStatuses : List Int := [429, 502, 503, 504]
  retryCurlCodes : List Int :=
    [CURLE_OPERATION_TIMEDOUT, CURLE_COULDNT_CONNECT, CURLE_RECV_ERROR, CURLE_SEND_ERROR,
     CURLE_GOT_NOTHING, CURLE_PARTIAL_FILE]
deriving DecidableEq

/-- The fields of `THttpResponse` that the client fills without the sink. -/
structure THttpResponse where
  status : Int := 0
  headers : THttpFields := {}
  curlCode : Int := 0
  curlErr : Text := []
  effectiveUrl : Text := []
deriving DecidableEq

/-- The methods of a content that a replay calls; `rewind` comes with its result. -/
structure ContentMethods (C : Type) where
  canReplay : C → Bool
  rewind : C → C × Bool
  clone : C → Option C

def builtinContent : ContentMethods TContent where
  canReplay := TContent.canReplay
  rewind := TContent.rewind
  clone := TContent.clone

section Decisions

variable {C : Type} (M : ContentMethods C)

/-- `IsReplaySafe(request, policy)`. -/
def isReplaySafe (method : EHttpMethod) (content : Option C) (policy : TRetryPolicy) : Bool :=
  if method = .get || method = .head then true
  else if method = .post && policy.allowPostReplay && content.any M.canReplay then true
  else if method = .put || method = .delete || method = .options || method = .trace then
    match content with
    | none => true
    | some content => M.canReplay content
  else false

/-- `PrepareForReplay(request)`, on its content. -/
def prepareForReplay (content : Option C) : Option C :=
  content.map fun content =>
    let (content, ok) := M.rewind content
    if !ok then (M.clone content).getD content else content

theorem prepareForReplay_builtin (content : Option TContent) :
    prepareForReplay builtinContent content = RequestContent.prepareForReplay content := rfl

/-- `ShouldRetry(ctx, policy)`. -/
def shouldRetry (P : Platform) (policy : TRetryPolicy) (method : EHttpMethod)
    (response : THttpResponse) : Bool :=
  if !policy.allowMethods.contains method && !(method = .post && policy.allowPostReplay) then false
  else if response.curlCode ≠ 0 then policy.retryCurlCodes.contains response.curlCode
  else if 400 ≤ response.status && policy.retryStatuses.contains response.status then
    if policy.respectRetryAfter && response.headers.getFirst P (lit "Retry-After") ≠ [] then true
    else true
  else false

/-! ### What the decisions come to -/

/-- The outcomes that a policy takes for transient. -/
def Transient (policy : TRetryPolicy) (curlCode status : Int) : Prop :=
  curlCode ≠ 0 ∧ curlCode ∈ policy.retryCurlCodes ∨
    curlCode = 0 ∧ 400 ≤ status ∧ status ∈ policy.retryStatuses

/-- The methods that a policy lets the client repeat, with the content they need for it. -/
def Repeatable (policy : TRetryPolicy) (method : EHttpMethod) (content : Option C) : Prop :=
  (method = .get ∨ method = .head) ∧ method ∈ policy.allowMethods ∨
    (method = .put ∨ method = .delete ∨ method = .options ∨ method = .trace) ∧
      method ∈ policy.allowMethods ∧ (∀ c, content = some c → M.canReplay c = true) ∨
    method = .post ∧ policy.allowPostReplay = true ∧ ∃ c, content = some c ∧ M.canReplay c = true

theorem shouldRetry_iff (P : Platform) (policy : TRetryPolicy) (method : EHttpMethod)
    (response : THttpResponse) :
    shouldRetry P policy method response = true ↔
      (method ∈ policy.allowMethods ∨ method = .post ∧ policy.allowPostReplay = true) ∧
        Transient policy response.curlCode response.status := by
  rw [shouldRetry, Transient]
  by_cases hmethod : method ∈ policy.allowMethods ∨ method = .post ∧ policy.allowPostReplay = true
  · have hguard : (!policy.allowMethods.contains method &&
        !(decide (method = .post) && policy.allowPostReplay)) = false := by
      rcases hmethod with h | ⟨h1, h2⟩
      · simp [h]
      · simp [h1, h2]
    rw [hguard, if_neg Bool.false_ne_true, ite_self]
    by_cases hcode : response.curlCode = 0 <;> simp [hcode, hmethod]
  · have hguard : (!policy.allowMethods.contains method &&
        !(decide (method = .post) && policy.allowPostReplay)) = true := by
      rw [not_or, not_and_or] at hmethod
      simpa using hmethod
    rw [if_pos hguard]
    simp [hmethod]

theorem isReplaySafe_iff (method : EHttpMethod) (content : Option C) (policy : TRetryPolicy) :
    isReplaySafe M method content policy = true ↔
      (method = .get ∨ method = .head) ∨
        (method = .put ∨ method = .delete ∨ method = .options ∨ method = .trace) ∧
          (∀ c, content = some c → M.canReplay c = true) ∨
        method = .post ∧ policy.allowPostReplay = true ∧
          ∃ c, content = some c ∧ M.canReplay c = true := by
  unfold isReplaySafe
  cases method <;> cases content <;> simp

/-- **The two decisions together**: a transient outcome, of a request that may be repeated. -/
theorem retry_decisions (P : Platform) (policy : TRetryPolicy) (method : EHttpMethod)
    (content : Option C) (response : THttpResponse) :
    (shouldRetry P policy method response && isReplaySafe M method content policy) = true ↔
      Transient policy response.curlCode response.status ∧ Repeatable M policy method content := by
  rw [Bool.and_eq_true, shouldRetry_iff, isReplaySafe_iff]
  rw [Repeatable]
  cases method <;> simp <;> tauto

/-- The methods that no policy repeats. -/
theorem not_repeatable {policy : TRetryPolicy} {method : EHttpMethod} {content : Option C}
    (h : method = .patch ∨ method = .connect ∨ method = .query ∨
      method = .post ∧ policy.allowPostReplay = false) :
    ¬ Repeatable M policy method content := by
  rw [Repeatable]
  rcases h with rfl | rfl | rfl | ⟨rfl, hpost⟩
  · simp
  · simp
  · simp
  · simp [hpost]

end Decisions

end NetMod.RetryPolicy
