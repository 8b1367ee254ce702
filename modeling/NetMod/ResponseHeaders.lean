import NetMod.ClientEngine
import NetMod.RedirectCookies

/-!
# The headers of a transfer with several responses

libcurl passes the header lines of every response of a transfer to `_HeaderRead`: the informational
ones, those of the redirects, and the final one, each with its status line and the empty line behind
it.  All of them run through one callback into one list (`run_headerRead`).  So the delivered headers
are those of the final response exactly when no line before its fields is a field:
`final_headers_iff`.
-/

namespace NetMod.ResponseHeaders

open NetMod.BlitzText NetMod.ClientEngine NetMod.HttpCookie NetMod.HttpFields NetMod.PartialRuns
open NetMod.RedirectCookies NetMod.SetCookieParser

/-! ### The callback on one line -/

/-- The line is a Set-Cookie field whose parsing raises. -/
def lineRaises (P : Platform) (text : Text) : Bool :=
  match THttpFields.lineField P text with
  | some header =>
    header.is P (lit "set-cookie") && decide (parseFromSetCookieHeader P header = .raised)
  | none => false

theorem addLine_fields (P : Platform) (headers : THttpFields) (line : Text) :
    (headers.addLine P line).1.fields =
      headers.fields ++ (THttpFields.lineField P line).toList := by
  rw [THttpFields.addLine]
  cases THttpFields.lineField P line with
  | none => exact (List.append_nil _).symm
  | some header => rfl

/-- **What the callback does with a line.** -/
theorem headerRead_spec (P : Platform) (url : TUrl) (s : HeaderState) (l : HeaderLine) :
    (lineRaises P l.text = true ∧ headerRead P url s l = none) ∨
      (lineRaises P l.text = false ∧ ∃ s', headerRead P url s l = some s' ∧
        s'.headers.fields = s.headers.fields ++ (THttpFields.lineField P l.text).toList) := by
  have hfields := addLine_fields P s.headers l.text
  rw [headerRead, lineRaises]
  rw [THttpFields.addLine] at hfields ⊢
  cases hline : THttpFields.lineField P l.text with
  | none =>
    simp only [hline] at hfields ⊢
    exact Or.inr ⟨trivial, _, rfl, hfields⟩
  | some header =>
    simp only [hline] at hfields ⊢
    cases hset : header.is P (lit "set-cookie") with
    | false =>
      rw [if_neg Bool.false_ne_true]
      exact Or.inr ⟨rfl, _, rfl, hfields⟩
    | true =>
      rw [if_pos rfl, putCookie]
      cases hparse : parseFromSetCookieHeader P header with
      | raised => exact Or.inl ⟨by simp, rfl⟩
      | null => exact Or.inr ⟨by simp, _, rfl, hfields⟩
      | cookie cookie => exact Or.inr ⟨by simp, _, rfl, hfields⟩

/-- **What the callback does with the lines of a transfer**: it raises on one, or lists the fields of
all. -/
theorem run_headerRead (P : Platform) (url : TUrl) (lines : List HeaderLine) (s : HeaderState) :
    (run (headerRead P url) s lines = none ∧ ∃ l ∈ lines, lineRaises P l.text = true) ∨
      ((∀ l ∈ lines, lineRaises P l.text = false) ∧ ∃ s', run (headerRead P url) s lines = some s' ∧
        s'.headers.fields =
          s.headers.fields ++ lines.filterMap fun l => THttpFields.lineField P l.text) := by
  induction lines generalizing s with
  | nil => exact Or.inr ⟨by simp, s, rfl, (List.append_nil _).symm⟩
  | cons l lines ih =>
    rcases headerRead_spec P url s l with ⟨hraise, hnone⟩ | ⟨hok, s', hsome, hfields⟩
    · refine Or.inl ⟨?_, l, List.mem_cons_self, hraise⟩
      rw [run_cons, hnone]
      rfl
    · rw [run_cons, hsome, Option.bind_some]
      rcases ih s' with ⟨hnone, l', hl', hraise⟩ | ⟨hall, s'', hrun, hrest⟩
      · exact Or.inl ⟨hnone, l', List.mem_cons_of_mem _ hl', hraise⟩
      · refine Or.inr ⟨?_, s'', hrun, ?_⟩
        · intro l' hl'
          rcases List.mem_cons.mp hl' with rfl | hl'
          · exact hok
          · exact hall l' hl'
        · rw [hrest, hfields, List.append_assoc]
          cases hline : THttpFields.lineField P l.text <;> simp [hline]

/-! ### Blocks -/

/-- The header lines of one response, with the clock readings of their calls. -/
structure ResponseBlock where
  url : TUrl
  statusLine : UInt64 × Text
  fieldLines : List (UInt64 × Text)
  ended : UInt64

/-- The lines as libcurl passes them on: the empty line comes last. -/
def ResponseBlock.hop (b : ResponseBlock) : Hop :=
  ⟨b.url, b.statusLine :: b.fieldLines ++ [(b.ended, [13, 10])]⟩

/-- The `Name: Value` of a line: what is before and behind its first colon, trimmed. -/
def nameValue (line : Text) : Option (Text × Text) :=
  match find line (asc ':') with
  | some (n + 1) => some (trim (line.take (n + 1)), trim (line.drop (n + 2)))
  | _ => none

/-- The fields of a response. -/
def ResponseBlock.fields (b : ResponseBlock) : List (Text × Text) :=
  b.fieldLines.filterMap fun l => nameValue l.2

/-- The value of the first field with a name, in any spelling; `Null` is `[]`. -/
def firstValue (P : Platform) (fields : List (Text × Text)) (name : Text) : Text :=
  ((fields.find? fun f => P.toLower f.1 == P.toLower name).map (·.2)).getD []

theorem lineField_nameValue (P : Platform) (line : Text) :
    (THttpFields.lineField P line).map (fun f => (f.name, f.value)) = nameValue line := by
  rw [THttpFields.lineField, nameValue]
  cases find line (asc ':') with
  | none => rfl
  | some sepPos =>
    cases sepPos with
    | zero => rfl
    | succ n =>
      simp only [Nat.zero_lt_succ, if_true, Option.map_some, THttpField.ofName]
      rfl

/-- `GetFirst` looks at names and values only. -/
theorem getFirst_eq (P : Platform) (headers : THttpFields) (name : Text) :
    headers.getFirst P name =
      firstValue P (headers.fields.map fun f => (f.name, f.value)) name := by
  rw [THttpFields.getFirst, firstValue, List.find?_map, Option.map_map]
  rfl

/-! ### The delivered headers -/

/-- The completion of a transfer whose header lines were `lines`; `none` if the callback raised. -/
def transferred (P : Platform) (url : TUrl) (store : CookieStore.THttpCookieStore)
    (lines : List HeaderLine) (result responseCode : Int) (effectiveURL : Text) :
    Option Completion :=
  (run (headerRead P url) { cookieStore := store } lines).map fun s =>
    { result, responseCode, effectiveURL, headers := s.headers }

/-- The response has the fields of its final block, and `GetFirst` finds them. -/
def ShowsFinal (P : Platform) (final : ResponseBlock) (response : RetryPolicy.THttpResponse) : Prop :=
  (response.headers.fields.map fun f => (f.name, f.value)) = final.fields ∧
    ∀ name, response.headers.getFirst P name = firstValue P final.fields name

theorem filterMap_chainLines (P : Platform) (hops : List Hop) :
    ((chainLines hops).filterMap fun l => THttpFields.lineField P l.text).map
        (fun f => (f.name, f.value)) =
      hops.flatMap fun hop => hop.lines.filterMap fun l => nameValue l.2 := by
  rw [List.map_filterMap]
  simp only [lineField_nameValue, chainLines, List.filterMap_flatMap, List.filterMap_map]
  rfl

theorem hop_fields (b : ResponseBlock) :
    (b.hop.lines.filterMap fun l => nameValue l.2) =
      (nameValue b.statusLine.2).toList ++ b.fields := by
  have hempty : nameValue [13, 10] = none := by decide
  rw [ResponseBlock.hop, ResponseBlock.fields]
  cases hstatus : nameValue b.statusLine.2 <;> simp [hstatus, hempty]

/-- The names and values of all blocks, when the final one comes last. -/
theorem transfer_fields (P : Platform) (earlier : List ResponseBlock) (final : ResponseBlock) :
    ((chainLines ((earlier ++ [final]).map (·.hop))).filterMap fun l =>
        THttpFields.lineField P l.text).map (fun f => (f.name, f.value)) =
      (earlier.flatMap fun b => b.hop.lines.filterMap fun l => nameValue l.2) ++
        (nameValue final.statusLine.2).toList ++ final.fields := by
  rw [filterMap_chainLines, List.flatMap_map, List.flatMap_append, List.flatMap_singleton,
    hop_fields, List.append_assoc]

theorem showsFinal_iff (P : Platform) (final : ResponseBlock) (response : RetryPolicy.THttpResponse) :
    ShowsFinal P final response ↔
      (response.headers.fields.map fun f => (f.name, f.value)) = final.fields := by
  constructor
  · exact fun h => h.1
  · intro h
    refine ⟨h, fun name => ?_⟩
    rw [getFirst_eq, h]

/-- **When the delivered headers are those of the final response.**  For every transfer: exactly when
no line of an earlier response is a field, nor is the final status line, and no Set-Cookie line makes
the parser raise. -/
theorem final_headers_iff {C : Type} (P : Setup C) (ctx : TEasyContext) (url : TUrl)
    (store : CookieStore.THttpCookieStore) (earlier : List ResponseBlock) (final : ResponseBlock)
    (result responseCode : Int) (effectiveURL : Text) :
    (∃ completion, transferred P.platform url store
        (chainLines ((earlier ++ [final]).map (·.hop))) result responseCode effectiveURL =
          some completion ∧
      ShowsFinal P.platform final (finishedResponse P ctx completion)) ↔
    (∀ b ∈ earlier, ∀ l ∈ b.hop.lines, nameValue l.2 = none) ∧ nameValue final.statusLine.2 = none ∧
      ∀ l ∈ chainLines ((earlier ++ [final]).map (·.hop)), lineRaises P.platform l.text = false := by
  rcases run_headerRead P.platform url (chainLines ((earlier ++ [final]).map (·.hop)))
    { cookieStore := store } with ⟨hnone, l, hl, hraise⟩ | ⟨hok, s, hrun, hfields⟩
  · constructor
    · intro h
      obtain ⟨completion, hsome, -⟩ := h
      rw [transferred, hnone] at hsome
      cases hsome
    · intro h
      exact absurd ((h.2.2 l hl).symm.trans hraise) Bool.false_ne_true
  · rw [List.nil_append] at hfields
    have hlist := transfer_fields P.platform earlier final
    rw [← hfields] at hlist
    have hearlier : (earlier.flatMap fun b => b.hop.lines.filterMap fun l => nameValue l.2) = [] ↔
        ∀ b ∈ earlier, ∀ l ∈ b.hop.lines, nameValue l.2 = none := by
      rw [List.flatMap_eq_nil_iff]
      exact forall₂_congr fun b _ => List.filterMap_eq_nil_iff
    have hshows : ShowsFinal P.platform final (finishedResponse P ctx
        { result, responseCode, effectiveURL, headers := s.headers }) ↔
        (∀ b ∈ earlier, ∀ l ∈ b.hop.lines, nameValue l.2 = none) ∧
          nameValue final.statusLine.2 = none := by
      rw [showsFinal_iff]
      show (s.headers.fields.map fun f => (f.name, f.value)) = final.fields ↔ _
      rw [hlist, List.append_left_eq_self, List.append_eq_nil_iff, hearlier, Option.toList_eq_nil_iff]
    rw [transferred, hrun]
    simp only [Option.map_some, Option.some.injEq, exists_eq_left', hshows]
    tauto

/-- A redirect that says how long to wait, and the response behind it, which does not. -/
def movedBlock : ResponseBlock where
  url := shopUrl
  statusLine := (0, lit "HTTP/1.1 302 Found\r\n")
  fieldLines := [(0, lit "Retry-After: 60\r\n")]
  ended := 0

def okBlock : ResponseBlock where
  url := adsUrl
  statusLine := (0, lit "HTTP/1.1 200 OK\r\n")
  fieldLines := [(0, lit "Server: ads\r\n")]
  ended := 0

/-- The wait of the redirect is taken for the final response's. -/
theorem not_every_final_headers : ¬ ∀ (earlier : List ResponseBlock) (final : ResponseBlock),
    ∃ completion, transferred asciiPlatform shopUrl {}
        (chainLines ((earlier ++ [final]).map (·.hop))) 0 200 adsUrl.text = some completion ∧
      ShowsFinal asciiPlatform final { headers := completion.headers } := by
  intro hall
  obtain ⟨completion, htransfer, -, hfirst⟩ := hall [movedBlock] okBlock
  have hread : (transferred asciiPlatform shopUrl {}
      (chainLines (([movedBlock] ++ [okBlock]).map (·.hop))) 0 200 adsUrl.text).map (fun c =>
        c.headers.getFirst asciiPlatform (lit "Retry-After")) = some (lit "60") := by
    decide +kernel
  rw [htransfer, Option.map_some, Option.some.injEq] at hread
  have hnone := hfirst (lit "Retry-After")
  change completion.headers.getFirst asciiPlatform (lit "Retry-After") = _ at hnone
  rw [hread] at hnone
  exact absurd hnone (by decide +kernel)

end NetMod.ResponseHeaders
