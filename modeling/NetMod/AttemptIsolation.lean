import NetMod.MemorySink
import NetMod.ResponseHeaders

/-!
# Attempts on one sink

A request keeps its sink over all its attempts and Sends; the context and the response are new each
time.  An attempt is what libcurl does with it: header lines and chunks of the body, in any order,
and what it reports at the end.  `isolated_iff` compares the response of the last attempt with the
one a fresh sink would give: `BeginAttempt` resets the counters, so a stream sink never shows the
difference, and a memory sink only through the length its array has grown to.

`AbortAttempt` and `CommitAttempt` do nothing for these sinks, so attempts that are retried and
attempts that are delivered leave the same sink.
-/

namespace NetMod.AttemptIsolation

open NetMod.BlitzText NetMod.ClientEngine NetMod.CookieStore NetMod.HttpCookie NetMod.HttpFields
open NetMod.MemorySink NetMod.PartialRuns NetMod.RedirectCookies NetMod.ResponseHeaders
open NetMod.RetryPolicy

/-! ### Sinks -/

/-- A `TMemorySink`, or a `TStreamSink` on a stream in some state. -/
inductive BodySink (σ : Type) where
  | memory (sink : TMemorySink)
  | stream (target : σ) (total : Int64)

/-- A chunk of the body; its count is a `Size_T`. -/
structure Chunk where
  bytes : List UInt8
  length_lt : bytes.length < 2 ^ 64

/-- `stream.Write(buffer, count)`: what is left of the stream, and the bytes it took. -/
abbrev StreamWrite (σ : Type) := σ → List UInt8 → Int32 → σ × Int32

namespace BodySink

variable {σ : Type}

/-- `Write(buffer, count)`; the result goes to libcurl and to nobody else. -/
def write (streamWrite : StreamWrite σ) : BodySink σ → Chunk → Option (BodySink σ)
  | .memory sink, chunk => (sink.write chunk.bytes).map fun p => .memory p.1
  | .stream target total, chunk =>
    if chunk.bytes.length = 0 then some (.stream target total)
    else
      let (target, wrote) :=
        streamWrite target chunk.bytes (UInt64.ofNat chunk.bytes.length).toUInt32.toInt32
      some (.stream target (total + wrote.toInt64))

/-- `BeginAttempt`. -/
def beginAttempt : BodySink σ → BodySink σ
  | .memory sink => .memory sink.beginAttempt
  | .stream target _ => .stream target 0

/-- A new sink of the same type; a stream sink writes to the same stream. -/
def fresh : BodySink σ → BodySink σ
  | .memory _ => .memory .new
  | .stream target _ => .stream target 0

end BodySink

/-! ### Attempts -/

/-- A call of libcurl during a transfer.  A header line comes with the cookie store it finds, which
other requests change too. -/
inductive Callback where
  | header (store : THttpCookieStore) (now : UInt64) (text : Text)
  | body (chunk : Chunk)

/-- The callbacks of an attempt, and what libcurl reports when it is done. -/
structure Attempt where
  callbacks : List Callback
  result : Int
  responseCode : Int
  effectiveURL : Text

/-- `THttpResponse` with the fields the sink fills. -/
structure Received extends THttpResponse where
  body : List UInt8 := []
  bytesReceived : Int64 := 0

/-- The context during a transfer: its sink and the headers of its response. -/
structure Progress (σ : Type) where
  sink : BodySink σ
  headers : THttpFields := {}

section Attempts

variable {σ : Type} (P : Platform) (url : TUrl) (streamWrite : StreamWrite σ)

/-- `_HeaderRead` and `_ResponseWrite`; `none` where the one raises or the other leaves the sink's
array. -/
def callbackStep (s : Progress σ) : Callback → Option (Progress σ)
  | .header store now text =>
    (headerRead P url ⟨s.headers, store⟩ ⟨url, now, text⟩).map fun h =>
      { s with headers := h.headers }
  | .body chunk => (s.sink.write streamWrite chunk).map fun sink => { s with sink }

/-- `PrepareContext` on the sink, and the transfer's callbacks. -/
def transfer (sink : BodySink σ) (a : Attempt) : Option (Progress σ) :=
  run (callbackStep P url streamWrite) { sink := sink.beginAttempt } a.callbacks

/-- What an attempt leaves of the sink. -/
def attemptStep (sink : BodySink σ) (a : Attempt) : Option (BodySink σ) :=
  (transfer P url streamWrite sink a).map (·.sink)

/-- `Run` with a finished transfer that is not retried: the response it delivers. -/
def finish (strerror : Int → Text) (a : Attempt) (s : Progress σ) : Received :=
  let response : THttpResponse :=
    { headers := s.headers
      curlCode := a.result
      curlErr := if a.result ≠ 0 then strerror a.result else []
      status := a.responseCode
      effectiveUrl := a.effectiveURL }
  match s.sink with
  | .memory sink =>
    let body := sink.getData
    { response with body, bytesReceived := (Int32.ofNat body.length).toInt64 }
  | .stream _ total => { response with bytesReceived := total }

/-- The response delivered for an attempt. -/
def respond (strerror : Int → Text) (sink : BodySink σ) (a : Attempt) : Option Received :=
  (transfer P url streamWrite sink a).map (finish strerror a)

end Attempts

/-- The client's machine delivers that response, without the sink's fields. -/
theorem finish_eq_finishedResponse {σ C : Type} (P : Setup C) (ctx : TEasyContext)
    (h : ctx.response = {}) (a : Attempt) (s : Progress σ) :
    (finish P.strerror a s).toTHttpResponse =
      finishedResponse P ctx ⟨a.result, a.responseCode, a.effectiveURL, s.headers⟩ := by
  rw [finish, finishedResponse, h]
  cases s.sink <;> rfl

/-! ### What an attempt asks of its parts -/

def Callback.text? : Callback → Option Text
  | .header _ _ text => some text
  | .body _ => none

def Callback.call? : Callback → Option SinkCall
  | .header .. => none
  | .body chunk => some (.write chunk.bytes)

/-- The header lines of an attempt. -/
def Attempt.texts (a : Attempt) : List Text := a.callbacks.filterMap Callback.text?

/-- The calls an attempt makes of a memory sink. -/
def Attempt.sinkCalls (a : Attempt) : List SinkCall :=
  .beginAttempt :: a.callbacks.filterMap Callback.call?

/-- No header line of the attempt makes the cookie parser raise. -/
def Attempt.Quiet (P : Platform) (a : Attempt) : Prop :=
  ∀ text ∈ a.texts, lineRaises P text = false

/-- Every write of the attempts fits into the sink as it finds it. -/
def SinkFits {σ : Type} : BodySink σ → List Attempt → Prop
  | .memory sink, attempts => Along sinkStep Fits ⟨sink, []⟩ (attempts.flatMap Attempt.sinkCalls)
  | .stream .., _ => True

/-- The headers with the fields of more lines. -/
def addLines (P : Platform) (headers : THttpFields) (texts : List Text) : THttpFields :=
  ⟨headers.fields ++ texts.filterMap (THttpFields.lineField P)⟩

theorem addLines_nil (P : Platform) (headers : THttpFields) : addLines P headers [] = headers := by
  rw [addLines, List.filterMap_nil, List.append_nil]

theorem addLines_cons (P : Platform) (headers : THttpFields) (text : Text) (texts : List Text) :
    addLines P (addLines P headers [text]) texts = addLines P headers (text :: texts) := by
  simp only [addLines, List.append_assoc, ← List.filterMap_append, List.singleton_append]

section Parts

variable {σ : Type} {P : Platform} {url : TUrl} {streamWrite : StreamWrite σ}

theorem callbackStep_header (s : Progress σ) (store : THttpCookieStore) (now : UInt64) (text : Text) :
    callbackStep P url streamWrite s (.header store now text) =
      if lineRaises P text = true then none
      else some { s with headers := addLines P s.headers [text] } := by
  rw [callbackStep]
  rcases headerRead_spec P url ⟨s.headers, store⟩ ⟨url, now, text⟩ with
    ⟨hraise, hnone⟩ | ⟨hok, s', hsome, hfields⟩
  · rw [if_pos hraise, hnone]
    rfl
  · have hheaders : s'.headers = addLines P s.headers [text] := by
      have hlist : [text].filterMap (THttpFields.lineField P) =
          (THttpFields.lineField P text).toList := by
        cases hline : THttpFields.lineField P text <;> simp [hline]
      rw [addLines, hlist]
      exact congrArg THttpFields.mk hfields
    rw [if_neg (Bool.eq_false_iff.mp hok), hsome, Option.map_some, hheaders]

/-- A transfer that goes through had no line that raises. -/
theorem quiet_of_run {callbacks : List Callback} :
    ∀ {s s' : Progress σ}, run (callbackStep P url streamWrite) s callbacks = some s' →
      ∀ text ∈ callbacks.filterMap Callback.text?, lineRaises P text = false := by
  induction callbacks with
  | nil => exact fun _ text htext => absurd htext List.not_mem_nil
  | cons c callbacks ih =>
    intro s s' h
    rw [run_cons] at h
    obtain ⟨m, hm, hrest⟩ := Option.bind_eq_some_iff.mp h
    cases c with
    | body chunk => exact ih hrest
    | header store now text =>
      intro text' htext'
      rcases List.mem_cons.mp htext' with rfl | htext'
      · rw [callbackStep_header, Option.ite_none_left_eq_some] at hm
        exact Bool.eq_false_iff.mpr hm.1
      · exact ih hrest text' htext'

variable (url streamWrite)

/-- **A transfer into a memory sink is the sink's run**, beside the headers. -/
theorem run_memory {callbacks : List Callback} (rec : Recording) :
    ∀ headers : THttpFields,
      (∀ text ∈ callbacks.filterMap Callback.text?, lineRaises P text = false) →
      run (callbackStep P url streamWrite) ⟨.memory rec.sink, headers⟩ callbacks =
        (run sinkStep rec (callbacks.filterMap Callback.call?)).map fun rec' =>
          ⟨.memory rec'.sink, addLines P headers (callbacks.filterMap Callback.text?)⟩ := by
  induction callbacks generalizing rec with
  | nil =>
    intro headers _
    rw [List.filterMap_nil, addLines_nil]
    rfl
  | cons c callbacks ih =>
    intro headers hquiet
    cases c with
    | header store now text =>
      have htext : lineRaises P text = false := hquiet text List.mem_cons_self
      rw [run_cons, callbackStep_header, if_neg (Bool.eq_false_iff.mp htext), Option.bind_some]
      have hrest := ih rec (addLines P headers [text])
        fun t ht => hquiet t (List.mem_cons_of_mem _ ht)
      rw [addLines_cons] at hrest
      exact hrest
    | body chunk =>
      have hcall : (Callback.body chunk :: callbacks).filterMap Callback.call? =
          .write chunk.bytes :: callbacks.filterMap Callback.call? := rfl
      rw [hcall, run_cons, run_cons, callbackStep, BodySink.write, sinkStep]
      cases rec.sink.write chunk.bytes with
      | none => rfl
      | some p => exact ih ⟨p.1, rec.written ++ chunk.bytes⟩ headers hquiet

/-- A transfer into a stream goes through. -/
theorem run_stream {callbacks : List Callback} :
    ∀ (target : σ) (total : Int64) (headers : THttpFields),
      (∀ text ∈ callbacks.filterMap Callback.text?, lineRaises P text = false) →
      ∃ target' total' headers',
        run (callbackStep P url streamWrite) ⟨.stream target total, headers⟩ callbacks =
          some ⟨.stream target' total', headers'⟩ := by
  induction callbacks with
  | nil => exact fun target total headers _ => ⟨target, total, headers, rfl⟩
  | cons c callbacks ih =>
    intro target total headers hquiet
    cases c with
    | header store now text =>
      have htext : lineRaises P text = false := hquiet text List.mem_cons_self
      rw [run_cons, callbackStep_header, if_neg (Bool.eq_false_iff.mp htext), Option.bind_some]
      exact ih target total _ fun t ht => hquiet t (List.mem_cons_of_mem _ ht)
    | body chunk =>
      rw [run_cons, callbackStep, BodySink.write]
      split <;> exact ih _ _ _ hquiet

/-- The bytes written depend on the calls only. -/
theorem written_congr {calls : List SinkCall} :
    ∀ {s₁ s₂ r₁ r₂ : Recording}, s₁.written = s₂.written → run sinkStep s₁ calls = some r₁ →
      run sinkStep s₂ calls = some r₂ → r₁.written = r₂.written := by
  induction calls with
  | nil =>
    intro s₁ s₂ r₁ r₂ h h₁ h₂
    rw [← Option.some.inj h₁, ← Option.some.inj h₂]
    exact h
  | cons call calls ih =>
    intro s₁ s₂ r₁ r₂ h h₁ h₂
    rw [run_cons] at h₁ h₂
    obtain ⟨m₁, hm₁, h₁⟩ := Option.bind_eq_some_iff.mp h₁
    obtain ⟨m₂, hm₂, h₂⟩ := Option.bind_eq_some_iff.mp h₂
    refine ih ?_ h₁ h₂
    cases call with
    | beginAttempt => rw [← Option.some.inj hm₁, ← Option.some.inj hm₂]
    | write buffer =>
      obtain ⟨p₁, -, rfl⟩ := Option.map_eq_some_iff.mp hm₁
      obtain ⟨p₂, -, rfl⟩ := Option.map_eq_some_iff.mp hm₂
      rw [h]

/-! ### Attempts in a row -/

theorem transfer_memory {a : Attempt} (hquiet : a.Quiet P) (rec : Recording) :
    transfer P url streamWrite (.memory rec.sink) a =
      (run sinkStep rec a.sinkCalls).map fun rec' =>
        ⟨.memory rec'.sink, addLines P {} a.texts⟩ :=
  run_memory url streamWrite ⟨rec.sink.beginAttempt, []⟩ {} hquiet

theorem run_attempts_memory {attempts : List Attempt} (hquiet : ∀ a ∈ attempts, a.Quiet P) :
    ∀ rec : Recording, run (attemptStep P url streamWrite) (.memory rec.sink) attempts =
      (run sinkStep rec (attempts.flatMap Attempt.sinkCalls)).map fun rec' => .memory rec'.sink := by
  induction attempts with
  | nil => exact fun _ => rfl
  | cons a attempts ih =>
    intro rec
    rw [run_cons, attemptStep, transfer_memory url streamWrite (hquiet a List.mem_cons_self),
      List.flatMap_cons, run_append]
    cases run sinkStep rec a.sinkCalls with
    | none => rfl
    | some rec' => exact ih (fun b hb => hquiet b (List.mem_cons_of_mem _ hb)) rec'

theorem run_attempts_stream {attempts : List Attempt} (hquiet : ∀ a ∈ attempts, a.Quiet P) :
    ∀ (target : σ) (total : Int64), ∃ target' total',
      run (attemptStep P url streamWrite) (.stream target total) attempts =
        some (.stream target' total') := by
  induction attempts with
  | nil => exact fun target total => ⟨target, total, rfl⟩
  | cons a attempts ih =>
    intro target total
    obtain ⟨target', total', headers', hrun⟩ :=
      run_stream url streamWrite target 0 {} (hquiet a List.mem_cons_self)
    have hstep : attemptStep P url streamWrite (.stream target total) a =
        some (.stream target' total') := by
      rw [attemptStep, transfer, BodySink.beginAttempt, hrun]
      rfl
    rw [run_cons, hstep, Option.bind_some]
    exact ih (fun b hb => hquiet b (List.mem_cons_of_mem _ hb)) target' total'

variable {url streamWrite}

/-- Attempts that go through had no line that raises. -/
theorem quiet_of_attempts {attempts : List Attempt} :
    ∀ {sink after : BodySink σ}, run (attemptStep P url streamWrite) sink attempts = some after →
      ∀ a ∈ attempts, a.Quiet P := by
  induction attempts with
  | nil => exact fun _ a ha => absurd ha List.not_mem_nil
  | cons b attempts ih =>
    intro sink after h a ha
    rw [run_cons] at h
    obtain ⟨m, hm, hrest⟩ := Option.bind_eq_some_iff.mp h
    rcases List.mem_cons.mp ha with rfl | ha
    · obtain ⟨s, hs, -⟩ := Option.map_eq_some_iff.mp hm
      exact quiet_of_run hs
    · exact ih hrest a ha

end Parts

/-- The calls of attempts have counts. -/
theorem counted_sinkCalls {a : Attempt} {call : SinkCall} (h : call ∈ a.sinkCalls) :
    Counted call := by
  rcases List.mem_cons.mp h with rfl | h
  · trivial
  · obtain ⟨c, -, hc⟩ := List.mem_filterMap.mp h
    cases c with
    | header => cases hc
    | body chunk =>
      obtain rfl := Option.some.inj hc
      exact chunk.length_lt

theorem along_counted {step : Recording → SinkCall → Option Recording} {s : Recording}
    {calls : List SinkCall} (h : ∀ call ∈ calls, Counted call) :
    Along step (fun _ call => Counted call) s calls := by
  intro pre call post hsplit _ _
  exact h call (hsplit ▸ List.mem_append_right _ List.mem_cons_self)

/-- A memory sink at its `BeginAttempt`. -/
theorem sinkInv_begin (sink : TMemorySink) : SinkInv ⟨sink.beginAttempt, []⟩ where
  size_eq := rfl
  size_le := Nat.zero_le _
  front := rfl

theorem sinkInv_attempt {rec rec' : Recording} {a : Attempt}
    (h : run sinkStep rec a.sinkCalls = some rec') : SinkInv rec' := by
  have hcalls : ∀ call ∈ a.callbacks.filterMap Callback.call?, Counted call :=
    fun call hcall => counted_sinkCalls (List.mem_cons_of_mem _ hcall)
  exact run_invariant_along SinkInv sinkInv_step (sinkInv_begin rec.sink) (along_counted hcalls) h

/-- After an attempt the data are what it has written. -/
theorem getData_attempt {rec rec' : Recording} {a : Attempt}
    (h : run sinkStep rec a.sinkCalls = some rec') : rec'.sink.getData = rec'.written := by
  have hi := sinkInv_attempt h
  exact getData_eq hi (Nat.lt_of_le_of_lt hi.size_le rec'.sink.length_lt)

/-- The response of a memory sink shows its data and nothing else of it. -/
theorem finish_memory {σ : Type} (strerror : Int → Text) (a : Attempt) (headers : THttpFields)
    {sink sink' : TMemorySink} (h : sink.getData = sink'.getData) :
    finish strerror a (⟨.memory sink, headers⟩ : Progress σ) =
      finish strerror a (⟨.memory sink', headers⟩ : Progress σ) := by
  simp only [finish, h]

/-- **The writes of attempts stay inside the array exactly when they fit.** -/
theorem run_isSome_iff_fits (rec : Recording) (attempts : List Attempt) :
    (run sinkStep rec (attempts.flatMap Attempt.sinkCalls)).isSome = true ↔
      Along sinkStep Fits rec (attempts.flatMap Attempt.sinkCalls) := by
  rw [run_isSome_iff]
  cases attempts with
  | nil => exact ⟨fun _ => along_nil _, fun _ => along_nil _⟩
  | cons a attempts =>
    have hcons : (a :: attempts).flatMap Attempt.sinkCalls =
        .beginAttempt :: (a.callbacks.filterMap Callback.call? ++
          attempts.flatMap Attempt.sinkCalls) := rfl
    have hcalls : ∀ call ∈ a.callbacks.filterMap Callback.call? ++
        attempts.flatMap Attempt.sinkCalls, Counted call := by
      intro call hcall
      rcases List.mem_append.mp hcall with hcall | hcall
      · exact counted_sinkCalls (List.mem_cons_of_mem _ hcall)
      · obtain ⟨b, -, hb⟩ := List.mem_flatMap.mp hcall
        exact counted_sinkCalls hb
    rw [hcons, along_cons, along_cons]
    refine and_congr (Iff.intro (fun _ => trivial) fun _ => rfl) (forall₂_congr fun s hs => ?_)
    obtain rfl := Option.some.inj hs
    exact along_congr_of_invariant SinkInv sinkInv_step
      (fun s call hi hc => sinkStep_isSome_iff hi hc) (sinkInv_begin rec.sink) (along_counted hcalls)

section Isolation

variable {σ : Type} (P : Platform) (url : TUrl) (streamWrite : StreamWrite σ)
  (strerror : Int → Text)

/-- After the earlier attempts the last one is delivered, with the response it would get from a fresh
sink. -/
def Isolated (sink : BodySink σ) (earlier : List Attempt) (last : Attempt) : Prop :=
  ∃ before response, run (attemptStep P url streamWrite) sink earlier = some before ∧
    respond P url streamWrite strerror before last = some response ∧
    respond P url streamWrite strerror before.fresh last = some response

variable {P url streamWrite strerror}

theorem isolated_stream (target : σ) (total : Int64) {earlier : List Attempt} {last : Attempt}
    (hearlier : ∀ a ∈ earlier, a.Quiet P) (hlast : last.Quiet P) :
    Isolated P url streamWrite strerror (.stream target total) earlier last := by
  obtain ⟨target', total', hrun⟩ := run_attempts_stream url streamWrite hearlier target total
  obtain ⟨target'', total'', headers, htransfer⟩ := run_stream url streamWrite target' 0 {} hlast
  refine ⟨_, finish strerror last ⟨.stream target'' total'', headers⟩, hrun, ?_, ?_⟩
  · rw [respond, transfer, BodySink.beginAttempt, htransfer]
    rfl
  · rw [respond, transfer, BodySink.fresh, BodySink.beginAttempt, htransfer]
    rfl

theorem isolated_memory_iff (sink : TMemorySink) {earlier : List Attempt} {last : Attempt}
    (hearlier : ∀ a ∈ earlier, a.Quiet P) (hlast : last.Quiet P) :
    Isolated P url streamWrite strerror (.memory sink) earlier last ↔
      SinkFits (.memory sink : BodySink σ) (earlier ++ [last]) ∧
        SinkFits (.memory .new : BodySink σ) [last] := by
  have hrun := run_attempts_memory url streamWrite hearlier ⟨sink, []⟩
  have htransfer := transfer_memory url streamWrite hlast
  have hsplit : (earlier ++ [last]).flatMap Attempt.sinkCalls =
      earlier.flatMap Attempt.sinkCalls ++ last.sinkCalls := by
    rw [List.flatMap_append, List.flatMap_singleton]
  rw [SinkFits, SinkFits, ← run_isSome_iff_fits, ← run_isSome_iff_fits, hsplit, run_append,
    List.flatMap_singleton]
  constructor
  · intro h
    obtain ⟨before, response, hbefore, hresponse, hfresh⟩ := h
    rw [hrun] at hbefore
    obtain ⟨rec, hrec, rfl⟩ := Option.map_eq_some_iff.mp hbefore
    rw [respond, htransfer rec] at hresponse
    rw [respond, BodySink.fresh, htransfer ⟨.new, []⟩] at hfresh
    rw [hrec, Option.bind_some]
    constructor
    · cases hlastRun : run sinkStep rec last.sinkCalls with
      | none =>
        rw [hlastRun] at hresponse
        cases hresponse
      | some _ => rfl
    · cases hfreshRun : run sinkStep ⟨.new, []⟩ last.sinkCalls with
      | none =>
        rw [hfreshRun] at hfresh
        cases hfresh
      | some _ => rfl
  · intro h
    obtain ⟨hreused, hnew⟩ := h
    obtain ⟨rec', hreused⟩ := Option.isSome_iff_exists.mp hreused
    obtain ⟨rec, hrec, hreused⟩ := Option.bind_eq_some_iff.mp hreused
    obtain ⟨new', hnew⟩ := Option.isSome_iff_exists.mp hnew
    have hbody : run sinkStep ⟨rec.sink.beginAttempt, []⟩
        (last.callbacks.filterMap Callback.call?) = some rec' := hreused
    have hnewBody : run sinkStep ⟨TMemorySink.new.beginAttempt, []⟩
        (last.callbacks.filterMap Callback.call?) = some new' := hnew
    have hwritten : rec'.written = new'.written := by
      refine written_congr ?_ hbody hnewBody
      rfl
    have hdata : rec'.sink.getData = new'.sink.getData := by
      rw [getData_attempt hreused, getData_attempt hnew, hwritten]
    refine ⟨.memory rec.sink, _, by rw [hrun, hrec]; rfl, by rw [respond, htransfer rec, hreused]; rfl,
      ?_⟩
    rw [respond, BodySink.fresh, htransfer ⟨.new, []⟩, hnew]
    exact congrArg some (finish_memory strerror last _ hdata.symm)

/-- **When attempts on one sink do not leak into each other.**  For every sink, every list of earlier
attempts, retried or delivered, and every last attempt: exactly when no Set-Cookie line makes the
parser raise, and on a memory sink every write fits, into the sink as it is and, in the last attempt,
into a fresh one. -/
theorem isolated_iff (sink : BodySink σ) (earlier : List Attempt) (last : Attempt) :
    Isolated P url streamWrite strerror sink earlier last ↔
      (∀ a ∈ earlier ++ [last], a.Quiet P) ∧ SinkFits sink (earlier ++ [last]) ∧
        SinkFits sink.fresh [last] := by
  have hsplit : (∀ a ∈ earlier ++ [last], a.Quiet P) ↔
      (∀ a ∈ earlier, a.Quiet P) ∧ last.Quiet P := by
    rw [List.forall_mem_append, List.forall_mem_singleton]
  rw [hsplit]
  have hcases : ((∀ a ∈ earlier, a.Quiet P) ∧ last.Quiet P) →
      (Isolated P url streamWrite strerror sink earlier last ↔
        SinkFits sink (earlier ++ [last]) ∧ SinkFits sink.fresh [last]) := by
    intro h
    cases sink with
    | memory sink => exact isolated_memory_iff sink h.1 h.2
    | stream target total =>
      exact ⟨fun _ => ⟨trivial, trivial⟩, fun _ => isolated_stream target total h.1 h.2⟩
  constructor
  · intro h
    have hquiet : (∀ a ∈ earlier, a.Quiet P) ∧ last.Quiet P := by
      obtain ⟨before, response, hbefore, hresponse, -⟩ := h
      obtain ⟨s, hs, -⟩ := Option.map_eq_some_iff.mp hresponse
      exact ⟨quiet_of_attempts hbefore, quiet_of_run hs⟩
    exact ⟨hquiet, (hcases hquiet).mp h⟩
  · intro h
    exact (hcases h.1).mpr h.2

end Isolation

/-- An attempt with one chunk. -/
def chunkAttempt (chunk : Chunk) : Attempt := ⟨[.body chunk], 0, 200, []⟩

theorem quiet_chunkAttempt (P : Platform) (chunk : Chunk) : (chunkAttempt chunk).Quiet P := by
  intro text htext
  exact absurd htext List.not_mem_nil

/-- A large first body leaves an array that cannot grow, where a fresh one could. -/
theorem not_every_attempt_isolated :
    ¬ ∀ (sink : BodySink Unit) (earlier : List Attempt) (last : Attempt),
      (∀ a ∈ earlier ++ [last], a.Quiet asciiPlatform) → SinkFits sink.fresh [last] →
        Isolated asciiPlatform shopUrl (fun s _ _ => (s, 0)) (fun _ => []) sink earlier last := by
  intro hall
  obtain ⟨body, hbody⟩ : ∃ body : List UInt8, body.length = 715826347 :=
    ⟨List.replicate 715826347 0, List.length_replicate⟩
  obtain ⟨rest, hrest⟩ : ∃ rest : List UInt8, rest.length = 715827884 :=
    ⟨List.replicate 715827884 0, List.length_replicate⟩
  have hfirst := quiet_chunkAttempt asciiPlatform ⟨body, by rw [hbody]; decide⟩
  have hlast := quiet_chunkAttempt asciiPlatform ⟨rest, by rw [hrest]; decide⟩
  have hnew : TMemorySink.new.dataLength = 1024 := by
    rw [TMemorySink.dataLength, TMemorySink.new, List.length_replicate]
    rfl
  have hfresh : SinkFits (.memory .new : BodySink Unit)
      [chunkAttempt ⟨rest, by rw [hrest]; decide⟩] := by
    refine along_cons.mpr ⟨trivial, fun s hs => along_cons.mpr ⟨Or.inr (Or.inr ?_), fun t _ =>
      along_nil t⟩⟩
    obtain rfl := Option.some.inj hs
    show (((0 : UInt64).toNat : Int) ≤ (TMemorySink.new.dataLength * 3 / 2).toInt) ∧
      (TMemorySink.new.dataLength * 3 / 2).toInt + rest.length < 2 ^ 31
    rw [hnew, hrest]
    decide +kernel
  have hisolated := hall (.memory .new) [chunkAttempt ⟨body, by rw [hbody]; decide⟩]
    (chunkAttempt ⟨rest, by rw [hrest]; decide⟩)
    (List.forall_mem_cons.mpr ⟨hfirst, List.forall_mem_singleton.mpr hlast⟩) hfresh
  have hfits := ((isolated_memory_iff .new (List.forall_mem_singleton.mpr hfirst) hlast).mp
    hisolated).1
  -- the run comes to the second body with the grown array and no byte in it
  obtain ⟨sink, hwrite, -, hfull⟩ := large_write hbody
  have hbegin := (along_cons.mp hfits).2 _ rfl
  have hbegin' := (along_cons.mp ((along_cons.mp hbegin).2 _ hwrite)).2 _ rfl
  rcases (along_cons.mp hbegin').1 with h | h | h
  · have h' : rest = [] := h
    rw [h'] at hrest
    cases hrest
  · have h' : 0 + rest.length ≤ sink.data.length := h
    omega
  · have h' : ((0 : Nat) : Int) ≤ (sink.dataLength * 3 / 2).toInt := h.1
    rw [large_third hfull] at h'
    exact absurd h' (by decide)

end NetMod.AttemptIsolation
