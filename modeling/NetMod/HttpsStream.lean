import NetMod.HstreamReader

/-!
# `bmx_hstream_read_from_curl` and `TCurlStream`

libcurl's side of a transfer is a list of rounds, one for each `curl_multi_perform` that still does
something: the write callbacks it makes and the code it returns.  The transfer ends with the last
round, or with the first chunk a callback does not take, and then posts one `CURLMSG_DONE`.

`perform` loops until the transfer is over, so one read of an empty buffer takes in the whole rest
of the body.  `stream_faithful` is the refinement of a first-in first-out queue for transfers that
end well; `ended_read_clean` shows what becomes of the others, whose result code nobody looks at.
-/

namespace NetMod.HttpsStream

open NetMod.HstreamReader NetMod.PartialRuns

def CURLM_OK : Int := 0
def CURLE_OK : Int := 0
def CURLE_WRITE_ERROR : Int := 23

/-- One `curl_multi_perform` of a running transfer. -/
structure PerformRound where
  code : Int
  writes : List WriteCall
deriving DecidableEq

/-- The multi handle with its one easy handle.  `delivered` is what the callbacks took and `ended`
the transfer's result once it has one; both are there to be talked about only. -/
structure Multi where
  rounds : List PerformRound
  result : Int
  messages : List Int := []
  ended : Option Int := none
  delivered : List UInt8 := []
deriving DecidableEq

/-- libcurl hands chunks to the callback until one is not taken whole; `true` says that one was
not, and then the transfer is given up. -/
def deliver : Multi → Reader → List WriteCall → Option (Multi × Reader × Bool)
  | m, r, [] => some (m, r, false)
  | m, r, w :: ws =>
    (writeCallback r w).bind fun (r, n) =>
      if n = w.realsize then deliver { m with delivered := m.delivered ++ w.ptr } r ws
      else some (m, r, true)

/-- The transfer after a round of which `rest` is left. -/
def Multi.afterRound (m : Multi) (rest : List PerformRound) (gaveUp : Bool) : Multi :=
  if gaveUp then
    { m with rounds := [], messages := m.messages ++ [CURLE_WRITE_ERROR],
             ended := some CURLE_WRITE_ERROR }
  else if rest.isEmpty then
    { m with rounds := [], messages := m.messages ++ [m.result], ended := some m.result }
  else { m with rounds := rest }

/-- The `do … while (still_running)` loop, on the rounds of `m`; `false` is its `return -1`.  The
results of the messages it reads are dropped. -/
def performLoop : List PerformRound → Multi → Reader → Option (Multi × Reader × Bool)
  | [], m, r => some ({ m with messages := [] }, r, true)
  | round :: rest, m, r =>
    (deliver m r round.writes).bind fun (m, r, gaveUp) =>
      let m := m.afterRound rest gaveUp
      if round.code ≠ CURLM_OK then some (m, r, false)
      else
        let stillRunning := m.messages.isEmpty && !m.rounds.isEmpty
        let m := { m with messages := [] }
        if stillRunning then performLoop rest m r else some (m, r, true)

/-- What a read left behind, returned, and stored at `data`. -/
structure ReadOutcome where
  multi : Multi
  reader : Reader
  ret : Int
  data : List UInt8
deriving DecidableEq

/-- A `size_t` returned through an `int`. -/
def toInt (n : Nat) : Int := (n : Int).bmod (2 ^ 32)

/-- The end of a read: what is copied out, and its count as an `int`. -/
def finishRead (m : Multi) (r : Reader) (size : UInt64) : Option ReadOutcome :=
  (copyOut r size).map fun (r, data) => ⟨m, r, toInt data.length, data⟩

/-- `bmx_hstream_read_from_curl` on a reader that is not `NULL`. -/
def readFromCurl (m : Multi) (r : Reader) (size : UInt64) : Option ReadOutcome :=
  if r.bufferOffset = 0 then
    (performLoop m.rounds m r).bind fun (m, r, ok) =>
      if !ok then some ⟨m, r, -1, []⟩ else finishRead m r size
  else finishRead m r size

/-- `TCurlStream`, with the multi handle of its reader. -/
structure TCurlStream where
  multi : Multi
  curlReaderPtr : Option Reader
  isEOF : Bool := false
deriving DecidableEq

/-- `New(curl)`. -/
def TCurlStream.new (m : Multi) (o : InitOutcome) : TCurlStream :=
  { multi := m, curlReaderPtr := curlReaderInit o }

/-- `Read(buf, count)`: the stream after it, its result and the bytes stored at `buf`. -/
def TCurlStream.read (s : TCurlStream) (count : Int64) : Option (TCurlStream × Int × List UInt8) :=
  match s.curlReaderPtr with
  | none => some (s, -1, [])
  | some r =>
    (readFromCurl s.multi r count.toUInt64).map fun o =>
      (⟨o.multi, some o.reader, s.isEOF || o.ret == 0⟩, o.ret, o.data)

def TCurlStream.eof (s : TCurlStream) : Bool := s.isEOF

/-! ### The filling part of a read -/

/-- The callbacks made until the rounds are over or `curl_multi_perform` fails. -/
def filling : List PerformRound → List WriteCall
  | [] => []
  | round :: rest => round.writes ++ if round.code = CURLM_OK then filling rest else []

/-- The callbacks' bytes. -/
def bytesOf (ws : List WriteCall) : List UInt8 := ws.flatMap (·.ptr)

/-- The buffer takes the chunk: it fits, if need be after a doubling that succeeds. -/
def Takes (r : Reader) (w : WriteCall) : Prop :=
  r.bufferOffset.toNat + w.realsize.toNat ≤ r.bufferSize.toNat ∨
    (w.realloc = true ∧
      r.bufferOffset.toNat + w.realsize.toNat ≤ 2 * r.bufferSize.toNat % 2 ^ 64)

def CallTakes (r : Reader) : Call → Prop
  | .write w => Takes r w
  | .read _ => True

theorem writeCallback_of_takes {r : Reader} {w : WriteCall} (hr : r.Valid) (h : Takes r w) :
    ∃ r', writeCallback r w = some (r', w.realsize) ∧ r'.Valid ∧
      r'.contents = r.contents ++ w.ptr := by
  have hfits : Fits r w := h.imp_right fun h => Or.inr h.2
  rcases writeCallback_spec hr hfits with ⟨hlack, hno, -⟩ | hstored
  · rcases h with h | h
    · omega
    · simp [hno] at h
  · exact hstored

/-- Where every chunk is taken, the contents grow by the chunks. -/
theorem deliver_spec {m : Multi} {r : Reader} {ws : List WriteCall} (hr : r.Valid)
    (hal : Along call CallTakes r (ws.map .write)) :
    ∃ r', deliver m r ws = some ({ m with delivered := m.delivered ++ bytesOf ws }, r', false) ∧
      r'.Valid ∧ r'.contents = r.contents ++ bytesOf ws ∧
      run call r (ws.map .write) = some r' := by
  induction ws generalizing m r with
  | nil => exact ⟨r, by simp [deliver, bytesOf], hr, by simp [bytesOf], rfl⟩
  | cons w ws ih =>
    obtain ⟨htakes, hrest⟩ := along_cons.mp hal
    obtain ⟨r₁, hw, hr₁, hcont₁⟩ := writeCallback_of_takes hr htakes
    have hcall : call r (.write w) = some r₁ := by simp [call, hw]
    obtain ⟨r', hd, hr', hcont, hrun⟩ :=
      ih (m := { m with delivered := m.delivered ++ w.ptr }) hr₁ (hrest r₁ hcall)
    refine ⟨r', ?_, hr', ?_, ?_⟩
    · simp [deliver, hw, hd, bytesOf]
    · simp [hcont, hcont₁, bytesOf]
    · rw [List.map_cons, run_cons, hcall]
      exact hrun

/-- What is always true of libcurl's side: a transfer without rounds has ended, and one that has
ended did so with the announced result. -/
structure Multi.Ok (m : Multi) : Prop where
  atEnd : m.rounds = [] → m.ended = some m.result
  result : ∀ e, m.ended = some e → e = m.result
  messages : m.rounds ≠ [] → m.messages = []

/-- A round whose chunks were all taken leaves a transfer as it should be. -/
theorem afterRound_ok {m : Multi} (hm : m.Ok) (hmsg : m.messages = []) (rest : List PerformRound) :
    (m.afterRound rest false).Ok := by
  cases rest with
  | nil => exact ⟨fun _ => rfl, fun e he => (Option.some.inj he).symm, fun h => absurd rfl h⟩
  | cons a rest => exact ⟨fun h => absurd h (List.cons_ne_nil a rest), hm.result, fun _ => hmsg⟩

@[simp] theorem afterRound_result (m : Multi) (rest : List PerformRound) (b : Bool) :
    (m.afterRound rest b).result = m.result := by
  rw [Multi.afterRound]
  split
  · rfl
  · split <;> rfl

@[simp] theorem afterRound_delivered (m : Multi) (rest : List PerformRound) (b : Bool) :
    (m.afterRound rest b).delivered = m.delivered := by
  rw [Multi.afterRound]
  split
  · rfl
  · split <;> rfl

/-- One turn of the loop, when every chunk of its round is taken. -/
theorem performLoop_cons {round : PerformRound} (rest : List PerformRound) {m m₁ : Multi}
    {r r₁ : Reader} (hd : deliver m r round.writes = some (m₁, r₁, false))
    (hmsg : m₁.messages = []) :
    performLoop (round :: rest) m r =
      if round.code ≠ CURLM_OK then some (m₁.afterRound rest false, r₁, false)
      else if rest = [] then
        some ({ m₁.afterRound rest false with messages := [] }, r₁, true)
      else performLoop rest { m₁ with rounds := rest } r₁ := by
  cases rest with
  | nil => simp [performLoop, hd, Multi.afterRound]
  | cons a rest =>
    have hsame : { m₁ with rounds := a :: rest, messages := [] } = { m₁ with rounds := a :: rest } := by
      rw [hmsg]
    simp [performLoop, hd, Multi.afterRound, hmsg, hsame]

/-- What the filling loop does where every chunk is taken: the bytes arrive in order, and a loop
that does not fail leaves a transfer that is over. -/
structure Filled (rounds : List PerformRound) (m : Multi) (r : Reader) (m' : Multi) (r' : Reader)
    (ok : Bool) : Prop where
  valid : r'.Valid
  multi : m'.Ok
  result : m'.result = m.result
  contents : r'.contents = r.contents ++ bytesOf (filling rounds)
  delivered : m'.delivered = m.delivered ++ bytesOf (filling rounds)
  atEnd : ok = true → m'.rounds = []
  ok_eq : ok = rounds.all (·.code = CURLM_OK)
  run : run call r ((filling rounds).map .write) = some r'

theorem performLoop_spec {rounds : List PerformRound} {m : Multi} {r : Reader} (hr : r.Valid)
    (hm : m.Ok) (hrounds : m.rounds = rounds)
    (hal : Along call CallTakes r ((filling rounds).map .write)) :
    ∃ m' r' ok, performLoop rounds m r = some (m', r', ok) ∧ Filled rounds m r m' r' ok := by
  induction rounds generalizing m r with
  | nil =>
    refine ⟨{ m with messages := [] }, r, true, rfl, hr, ⟨hm.atEnd, hm.result, ?_⟩, rfl, ?_, ?_, ?_,
      rfl, rfl⟩
    · exact fun h => absurd hrounds h
    · simp [filling, bytesOf]
    · simp [filling, bytesOf]
    · exact fun _ => hrounds
  | cons round rest ih =>
    rw [filling, List.map_append] at hal
    obtain ⟨r₁, hd, hr₁, hcont₁, hrun₁⟩ := deliver_spec (m := m) hr hal.left
    have hmsg : m.messages = [] := hm.messages (by simp [hrounds])
    have hloop := performLoop_cons rest hd hmsg
    have hok₁ := afterRound_ok (m := { m with delivered := m.delivered ++ bytesOf round.writes })
      ⟨hm.atEnd, hm.result, hm.messages⟩ hmsg rest
    by_cases hcode : round.code = CURLM_OK
    · rw [if_neg (not_not_intro hcode)] at hloop
      by_cases hrest : rest = []
      · subst hrest
        rw [if_pos rfl] at hloop
        refine ⟨_, _, _, hloop, hr₁, ⟨hok₁.atEnd, hok₁.result, fun h => absurd rfl h⟩, ?_, ?_, ?_, ?_,
          ?_, ?_⟩
        · simp
        · simp [filling, hcode, hcont₁]
        · simp [filling, hcode]
        · exact fun _ => rfl
        · simp [hcode]
        · simp [filling, hcode, hrun₁]
      · rw [if_neg hrest] at hloop
        rw [if_pos hcode] at hal
        obtain ⟨m', r', ok, hrestLoop, hf⟩ :=
          ih (m := { m with delivered := m.delivered ++ bytesOf round.writes, rounds := rest }) hr₁
            ⟨fun h => absurd h hrest, hm.result, fun _ => hmsg⟩ rfl (hal.right hrun₁)
        refine ⟨m', r', ok, hloop.trans hrestLoop, hf.valid, hf.multi, hf.result, ?_, ?_, hf.atEnd, ?_,
          ?_⟩
        · rw [hf.contents, hcont₁]
          simp [filling, hcode, bytesOf]
        · rw [hf.delivered]
          simp [filling, hcode, bytesOf]
        · rw [hf.ok_eq]
          simp [hcode]
        · rw [filling, if_pos hcode, List.map_append, run_append, hrun₁]
          exact hf.run
    · rw [if_pos hcode] at hloop
      refine ⟨_, _, _, hloop, hr₁, hok₁, ?_, ?_, ?_, ?_, ?_, ?_⟩
      · simp
      · simp [filling, hcode, hcont₁]
      · simp [filling, hcode]
      · exact fun h => absurd h (by decide)
      · simp [hcode]
      · simp [filling, hcode, hrun₁]

/-! ### One read -/

/-- The bytes a read takes into the buffer before it copies. -/
def incoming (m : Multi) (r : Reader) : List UInt8 :=
  if r.bufferOffset = 0 then bytesOf (filling m.rounds) else []

/-- How many bytes the buffer then holds. -/
def buffered (m : Multi) (r : Reader) : Nat := (r.contents ++ incoming m r).length

/-- The read gets as far as copying: the buffer is not empty or no `curl_multi_perform` fails. -/
def Copies (m : Multi) (r : Reader) : Prop :=
  r.bufferOffset ≠ 0 ∨ m.rounds.all (·.code = CURLM_OK) = true

/-- What one read does where every chunk is taken. -/
structure ReadDone (m : Multi) (r : Reader) (size : UInt64) (o : ReadOutcome) : Prop where
  valid : o.reader.Valid
  multi : o.multi.Ok
  result : o.multi.result = m.result
  delivered : o.multi.delivered = m.delivered ++ incoming m r
  contents : r.contents ++ incoming m r = o.data ++ o.reader.contents
  outcome : (¬ Copies m r ∧ o.ret = -1 ∧ o.data = []) ∨
    (Copies m r ∧ o.ret = toInt o.data.length ∧ o.data.length = min size.toNat (buffered m r))
  atEnd : Copies m r → r.bufferOffset = 0 → o.multi.rounds = []
  stays : m.rounds = [] → o.multi.rounds = []

theorem finishRead_spec {m : Multi} {r : Reader} (hr : r.Valid) (size : UInt64) :
    ∃ o, finishRead m r size = some o ∧ o.multi = m ∧ o.reader.Valid ∧
      r.contents = o.data ++ o.reader.contents ∧ o.ret = toInt o.data.length ∧
      o.data.length = min size.toNat r.contents.length := by
  obtain ⟨r', data, hc, hr', hcont, hlen⟩ := copyOut_spec hr size
  refine ⟨⟨m, r', toInt data.length, data⟩, by simp [finishRead, hc], rfl, hr', hcont, ?_, ?_⟩
  · simp only
  · rw [hlen, hr.contents_length]

/-- **One read**, where every chunk it takes in fits. -/
theorem readFromCurl_spec {m : Multi} {r : Reader} (hr : r.Valid) (hm : m.Ok) (size : UInt64)
    (hfits : r.bufferOffset = 0 → Along call CallTakes r ((filling m.rounds).map .write)) :
    ∃ o, readFromCurl m r size = some o ∧ ReadDone m r size o := by
  by_cases hempty : r.bufferOffset = 0
  · obtain ⟨m', r', ok, hloop, hf⟩ := performLoop_spec hr hm rfl (hfits hempty)
    have hin : incoming m r = bytesOf (filling m.rounds) := if_pos hempty
    have hcopies : Copies m r ↔ ok = true := by simp [Copies, hempty, hf.ok_eq]
    have hstays : m.rounds = [] → m'.rounds = [] := fun h => hf.atEnd (by simp [hf.ok_eq, h])
    cases ok with
    | false =>
      refine ⟨⟨m', r', -1, []⟩, by simp [readFromCurl, hempty, hloop], hf.valid, hf.multi, hf.result,
        ?_, ?_, ?_, ?_, hstays⟩
      · rw [hin]
        exact hf.delivered
      · rw [hin]
        exact hf.contents.symm
      · exact Or.inl ⟨by simp [hcopies], rfl, rfl⟩
      · exact fun h => absurd (hcopies.mp h) (by decide)
    | true =>
      obtain ⟨o, hfin, rfl, hvalid, hcont, hret, hlen⟩ := finishRead_spec (m := m') hf.valid size
      refine ⟨o, by simp [readFromCurl, hempty, hloop, hfin], hvalid, hf.multi, hf.result, ?_, ?_,
        Or.inr ⟨hcopies.mpr rfl, hret, ?_⟩, fun _ _ => hf.atEnd rfl, hstays⟩
      · rw [hin]
        exact hf.delivered
      · rw [hin, ← hf.contents]
        exact hcont
      · rw [hlen, buffered, hin, hf.contents]
  · have hin : incoming m r = [] := if_neg hempty
    obtain ⟨o, hfin, rfl, hvalid, hcont, hret, hlen⟩ := finishRead_spec (m := m) hr size
    refine ⟨o, by simp [readFromCurl, hempty, hfin], hvalid, hm, rfl, by simp [hin], ?_,
      Or.inr ⟨Or.inl hempty, hret, ?_⟩, fun _ h => absurd h hempty, fun h => h⟩
    · rw [hin, List.append_nil]
      exact hcont
    · rw [hlen, buffered, hin, List.append_nil]

theorem toInt_of_lt {n : Nat} (h : n < 2 ^ 31) : toInt n = n := by
  unfold toInt
  rw [Int.bmod_eq_of_le] <;> omega

/-- **The buffer calls behind a read**: what a read does to the buffer is a run of write callbacks
of its rounds, then of the copying part. -/
theorem readFromCurl_eq_calls {m : Multi} {r : Reader} (hr : r.Valid) (hm : m.Ok) (size : UInt64)
    (hfits : r.bufferOffset = 0 → Along call CallTakes r ((filling m.rounds).map .write)) :
    ∃ (ws : List WriteCall) (tail : List Call), (∀ w ∈ ws, w ∈ filling m.rounds) ∧
      (tail = [] ∨ tail = [Call.read size]) ∧
      (readFromCurl m r size).map (·.reader) = run call r (ws.map .write ++ tail) := by
  by_cases hempty : r.bufferOffset = 0
  · obtain ⟨m', r', ok, hloop, hf⟩ := performLoop_spec hr hm rfl (hfits hempty)
    cases ok with
    | false =>
      refine ⟨filling m.rounds, [], fun _ h => h, Or.inl rfl, ?_⟩
      rw [List.append_nil, hf.run]
      simp [readFromCurl, hempty, hloop]
    | true =>
      refine ⟨filling m.rounds, [.read size], fun _ h => h, Or.inr rfl, ?_⟩
      rw [run_append, hf.run]
      simp [readFromCurl, hempty, hloop, finishRead, call, Function.comp_def]
  · refine ⟨[], [.read size], by simp, Or.inr rfl, ?_⟩
    simp [readFromCurl, hempty, finishRead, call, Function.comp_def]

/-! ### Sessions -/

/-- A stream with the results of the reads made on it. -/
structure Session where
  stream : TCurlStream
  reads : List (Int × List UInt8) := []
deriving DecidableEq

def Session.read (w : Session) (count : Int64) : Option Session :=
  (w.stream.read count).map fun (s, ret, data) => ⟨s, w.reads ++ [(ret, data)]⟩

/-- All bytes returned so far. -/
def Session.returned (w : Session) : List UInt8 := w.reads.flatMap (·.2)

/-- A transfer that has not begun. -/
structure Transfer where
  rounds : List PerformRound
  result : Int
  rounds_ne : rounds ≠ []

/-- `New TCurlStream` on a transfer. -/
def Session.new (t : Transfer) (o : InitOutcome) : Session :=
  { stream := TCurlStream.new { rounds := t.rounds, result := t.result } o }

/-- The chunks a read takes in fit the buffer. -/
def ReadFits (w : Session) (_ : Int64) : Prop :=
  ∀ r, w.stream.curlReaderPtr = some r → r.bufferOffset = 0 →
    Along call CallTakes r ((filling w.stream.multi.rounds).map .write)

/-- The condition on a read: its chunks fit, it asks for something unless nothing is left, and what
it copies is counted by an `int`. -/
structure ReadOk (w : Session) (count : Int64) : Prop where
  fits : ReadFits w count
  asks : ∀ r, w.stream.curlReaderPtr = some r → Copies w.stream.multi r → count.toUInt64 = 0 →
    buffered w.stream.multi r = 0
  counts : ∀ r, w.stream.curlReaderPtr = some r → Copies w.stream.multi r →
    min count.toUInt64.toNat (buffered w.stream.multi r) < 2 ^ 31

/-- The stream has been faithful to its transfer so far. -/
structure Faithful (w : Session) : Prop where
  /-- a read returns the number of bytes it copied, or is negative and copied none -/
  copied : ∀ x ∈ w.reads, x.1 = x.2.length ∨ (x.1 < 0 ∧ x.2 = [])
  /-- nothing is lost, repeated or reordered -/
  queue : w.returned <+: w.stream.multi.delivered
  /-- `Eof` means a good end and nothing left -/
  eof : w.stream.eof = true →
    w.stream.multi.ended = some CURLE_OK ∧ w.returned = w.stream.multi.delivered
  /-- a transfer that failed is never at `Eof`, and the read after its last byte is negative -/
  error : ∀ e, w.stream.multi.ended = some e → e ≠ CURLE_OK →
    w.stream.eof = false ∧ (w.returned = w.stream.multi.delivered → ∀ count w', 0 < count →
      w.read count = some w' → ∃ x, w'.reads = w.reads ++ [x] ∧ x.1 < 0)

/-- The refinement: what was delivered is what was returned followed by the buffer's contents. -/
structure Inv (result : Int) (w : Session) : Prop where
  multi : w.stream.multi.Ok
  result : w.stream.multi.result = result
  reader : ∀ r, w.stream.curlReaderPtr = some r →
    r.Valid ∧ w.stream.multi.delivered = w.returned ++ r.contents
  noReader : w.stream.curlReaderPtr = none →
    w.returned = [] ∧ w.stream.isEOF = false
  copied : ∀ x ∈ w.reads, x.1 = x.2.length ∨ (x.1 < 0 ∧ x.2 = [])
  eof : w.stream.isEOF = true →
    w.stream.multi.rounds = [] ∧ w.returned = w.stream.multi.delivered

theorem inv_new (t : Transfer) (o : InitOutcome) (ho : o.bufferMalloc = true) :
    Inv t.result (Session.new t o) where
  multi := ⟨fun h => absurd h t.rounds_ne, fun e he => (by cases he), fun _ => rfl⟩
  result := rfl
  reader := fun r hr => ⟨(curlReaderInit_valid_iff hr).mpr ho, by
    rw [curlReaderInit_contents hr]
    rfl⟩
  noReader := fun _ => ⟨rfl, rfl⟩
  copied := by simp [Session.new]
  eof := fun h => absurd h (by simp [Session.new, TCurlStream.new])

/-- When the transfer is over and all of it was returned, a read finds nothing. -/
theorem ended_read_data {result : Int} {w : Session} (hw : Inv result w) {r : Reader}
    (hptr : w.stream.curlReaderPtr = some r) (hover : w.stream.multi.rounds = [])
    (hall : w.returned = w.stream.multi.delivered) {size : UInt64} {o : ReadOutcome}
    (hd : ReadDone w.stream.multi r size o) : o.data = [] ∧ incoming w.stream.multi r = [] := by
  obtain ⟨-, hdel⟩ := hw.reader r hptr
  have hcont : r.contents = [] := by
    rw [← hall] at hdel
    exact List.self_eq_append_right.mp hdel
  have hin : incoming w.stream.multi r = [] := by simp [incoming, hover, filling, bytesOf]
  have hdata := hd.contents
  rw [hcont, hin, List.append_nil] at hdata
  exact ⟨(List.append_eq_nil_iff.mp hdata.symm).1, hin⟩

/-- **A read keeps the refinement.** -/
theorem read_inv {result : Int} {w : Session} {count : Int64} (hw : Inv result w)
    (hok : ReadOk w count) : ∃ w', w.read count = some w' ∧ Inv result w' := by
  cases hptr : w.stream.curlReaderPtr with
  | none =>
    obtain ⟨hnil, hneof⟩ := hw.noReader hptr
    refine ⟨⟨w.stream, w.reads ++ [(-1, [])]⟩, by simp [Session.read, TCurlStream.read, hptr], hw.multi,
      hw.result, ?_, ?_, ?_, ?_⟩
    · intro r hr
      rw [hptr] at hr
      cases hr
    · exact fun _ => ⟨by simpa [Session.returned] using hnil, hneof⟩
    · intro x hx
      rcases List.mem_append.mp hx with hx | hx
      · exact hw.copied x hx
      · obtain rfl := List.mem_singleton.mp hx
        exact Or.inr ⟨by decide, rfl⟩
    · exact fun h => absurd (hneof.symm.trans h) (by decide)
  | some r =>
    obtain ⟨hr, hdel⟩ := hw.reader r hptr
    obtain ⟨o, ho, hd⟩ := readFromCurl_spec hr hw.multi count.toUInt64 (hok.fits r hptr)
    have hret : (o.ret = -1 ∧ o.data = []) ∨ o.ret = o.data.length := by
      rcases hd.outcome with ⟨-, hneg⟩ | ⟨hc, hret, hlen⟩
      · exact Or.inl hneg
      · have hlt := hok.counts r hptr hc
        rw [← hlen] at hlt
        exact Or.inr (hret.trans (toInt_of_lt hlt))
    have hreturned : Session.returned ⟨⟨o.multi, some o.reader, w.stream.isEOF || o.ret == 0⟩,
        w.reads ++ [(o.ret, o.data)]⟩ = w.returned ++ o.data := by
      simp [Session.returned]
    refine ⟨⟨⟨o.multi, some o.reader, w.stream.isEOF || o.ret == 0⟩, w.reads ++ [(o.ret, o.data)]⟩,
      by simp [Session.read, TCurlStream.read, hptr, ho], hd.multi, hd.result.trans hw.result, ?_, ?_,
      ?_, ?_⟩
    · intro r' hr'
      obtain rfl := Option.some.inj hr'
      refine ⟨hd.valid, ?_⟩
      rw [hreturned, hd.delivered, hdel, List.append_assoc, hd.contents, List.append_assoc]
    · exact fun h => nomatch h
    · intro x hx
      rcases List.mem_append.mp hx with hx | hx
      · exact hw.copied x hx
      · obtain rfl := List.mem_singleton.mp hx
        rcases hret with ⟨hneg, hnil⟩ | hret
        · exact Or.inr ⟨by simp [hneg], hnil⟩
        · exact Or.inl hret
    · intro heof
      rw [hreturned, hd.delivered]
      rcases Bool.or_eq_true_iff.mp heof with hold | hzero
      · -- already at the end: nothing is left anywhere
        obtain ⟨hover, hall⟩ := hw.eof hold
        obtain ⟨hnil, hin⟩ := ended_read_data hw hptr hover hall hd
        exact ⟨hd.stays hover, by rw [hnil, hin, hall]⟩
      · -- a read of no bytes: the buffer is empty after filling
        have hzero : o.ret = 0 := by simpa using hzero
        rcases hd.outcome with ⟨-, hneg, -⟩ | ⟨hc, -, hlen⟩
        · omega
        · have hdata : o.data.length = 0 := by
            rcases hret with ⟨hneg, -⟩ | hret
            · omega
            · omega
          have hnone : buffered w.stream.multi r = 0 := by
            by_cases hask : count.toUInt64 = 0
            · exact hok.asks r hptr hc hask
            · have hpos : count.toUInt64.toNat ≠ 0 := fun h => hask (UInt64.toNat_inj.mp h)
              omega
          obtain ⟨hcont, hin⟩ := List.append_eq_nil_iff.mp (List.length_eq_zero_iff.mp hnone)
          have hempty : r.bufferOffset = 0 := by
            have hlen := hr.contents_length
            rw [hcont] at hlen
            exact UInt64.toNat_inj.mp hlen.symm
          refine ⟨hd.atEnd hc hempty, ?_⟩
          simp [hin, hdel, hcont, List.length_eq_zero_iff.mp hdata]

/-- **The stream is a faithful byte stream** on every run of reads over a transfer that ends
successfully, as long as every read asks for something and counts what it copies in an `int`. -/
theorem stream_faithful (t : Transfer) (o : InitOutcome) (counts : List Int64)
    (hmalloc : o.bufferMalloc = true) (hresult : t.result = CURLE_OK)
    (hok : Along Session.read ReadOk (Session.new t o) counts) (pre post : List Int64)
    (hpre : counts = pre ++ post) :
    ∃ w, run Session.read (Session.new t o) pre = some w ∧ Faithful w := by
  subst hpre
  obtain ⟨w, hrun, hw⟩ := run_total _ (fun _ _ => read_inv) (inv_new t o hmalloc) hok.left
  refine ⟨w, hrun, hw.copied, ?_, ?_, ?_⟩
  · cases hptr : w.stream.curlReaderPtr with
    | none =>
      rw [(hw.noReader hptr).1]
      exact List.nil_prefix
    | some r => exact ⟨r.contents, ((hw.reader r hptr).2).symm⟩
  · intro heof
    obtain ⟨hover, hall⟩ := hw.eof heof
    exact ⟨by rw [hw.multi.atEnd hover, hw.result, hresult], hall⟩
  · intro e he hne
    exact absurd ((hw.multi.result e he).trans (hw.result.trans hresult)) hne

/-- A transfer of 100 bytes that ends well. -/
def goodTransfer : Transfer := ⟨[⟨CURLM_OK, [zeroWrite 100]⟩], CURLE_OK, by simp⟩

theorem stream_faithful_good :
    ∃ w, run Session.read (Session.new goodTransfer ⟨true, true, true⟩) [64] = some w ∧ Faithful w := by
  have hnew : (Session.new goodTransfer ⟨true, true, true⟩).stream.curlReaderPtr = some freshReader :=
    rfl
  refine stream_faithful goodTransfer ⟨true, true, true⟩ [64] rfl rfl ?_ [64] [] rfl
  refine along_cons.mpr ⟨⟨?_, ?_, ?_⟩, fun _ _ => along_nil _⟩
  · intro r hr _
    obtain rfl := Option.some.inj (hnew.symm.trans hr)
    exact along_cons.mpr ⟨Or.inl (by decide), fun _ _ => along_nil _⟩
  · exact fun _ _ _ h => absurd h (by decide)
  · exact fun _ _ _ => lt_of_le_of_lt (Nat.min_le_left _ _) (by decide)

/-- **The result code is not looked at.**  After the last byte of any transfer, failed or not, a
read returns 0 and the stream is at its end. -/
theorem ended_read_clean {result : Int} {w : Session} {r : Reader} {count : Int64}
    (hw : Inv result w) (hptr : w.stream.curlReaderPtr = some r)
    (hover : w.stream.multi.rounds = []) (hall : w.returned = w.stream.multi.delivered) :
    ∃ w', w.read count = some w' ∧ w'.stream.eof = true ∧ w'.reads = w.reads ++ [(0, [])] := by
  obtain ⟨hr, -⟩ := hw.reader r hptr
  obtain ⟨o, ho, hd⟩ := readFromCurl_spec hr hw.multi count.toUInt64
    (fun _ => by rw [hover]; exact along_nil r)
  obtain ⟨hnil, -⟩ := ended_read_data hw hptr hover hall hd
  have hzero : o.ret = 0 := by
    rcases hd.outcome with ⟨hno, -⟩ | ⟨-, hret, -⟩
    · exact absurd (Or.inr (by simp [hover])) hno
    · rw [hret, hnil]
      rfl
  refine ⟨⟨⟨o.multi, some o.reader, w.stream.isEOF || o.ret == 0⟩, w.reads ++ [(o.ret, o.data)]⟩,
    by simp [Session.read, TCurlStream.read, hptr, ho], ?_, ?_⟩
  · simp [TCurlStream.eof, hzero]
  · rw [hzero, hnil]

/-- A connection lost after 2 bytes: result 18, `CURLE_PARTIAL_FILE`. -/
def lostTransfer : Transfer := ⟨[⟨CURLM_OK, [zeroWrite 2]⟩], 18, by simp⟩

/-- The second read of the lost transfer reports a clean end of file. -/
theorem not_every_transfer_faithful :
    ¬ ∀ (t : Transfer) (o : InitOutcome) (counts : List Int64), o.bufferMalloc = true →
      Along Session.read ReadFits (Session.new t o) counts →
      ∃ w, run Session.read (Session.new t o) counts = some w ∧ Faithful w := by
  intro hall
  have hfits : Along Session.read ReadFits (Session.new lostTransfer ⟨true, true, true⟩) [4, 4] := by
    refine along_cons.mpr ⟨?_, fun s' hs' => along_cons.mpr ⟨?_, fun _ _ => along_nil _⟩⟩
    · intro r hr _
      obtain rfl : freshReader = r := Option.some.inj hr
      exact along_cons.mpr ⟨Or.inl (by decide), fun _ _ => along_nil _⟩
    · intro r _ _
      have hover : s'.stream.multi.rounds = [] := by
        have hrun : ((Session.new lostTransfer ⟨true, true, true⟩).read 4).map
            (·.stream.multi.rounds) = some [] := by decide +kernel
        rw [hs'] at hrun
        exact Option.some.inj hrun
      rw [hover]
      exact along_nil r
  obtain ⟨w, hrun, hw⟩ := hall lostTransfer ⟨true, true, true⟩ [4, 4] rfl hfits
  have hend : (run Session.read (Session.new lostTransfer ⟨true, true, true⟩) [4, 4]).map
      (fun w => (w.stream.eof, w.stream.multi.ended)) = some (true, some 18) := by decide +kernel
  rw [hrun] at hend
  have heof := congrArg Prod.fst (Option.some.inj hend)
  have hended := congrArg Prod.snd (Option.some.inj hend)
  exact absurd (heof.symm.trans (hw.error 18 hended (by decide)).1) (by decide)

end NetMod.HttpsStream
