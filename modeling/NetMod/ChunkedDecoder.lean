import NetMod.CurlText
import NetMod.Lib.PiecewiseInput

/-!
# `http_chunks.c`: reading a chunked body

`httpchunk_readwrite` is called with whatever has come from the network and keeps its place in a
`struct Curl_chunker`.  The model has its loop turn by turn; some turns leave the byte they looked at
to the next one.  What the next writer is handed is collected in `body` and `trailers`, and it never
refuses; the transfer decodes (`http_te_skip` is off) and has its body written.

`Heard` is the same decoder with one step for each byte.  The loop follows it (`write_follows`), so
that nothing depends on where the network cut the body.
-/

namespace NetMod.ChunkedDecoder

open NetMod.CurlText NetMod.PiecewiseInput

/-! ### The loop -/

inductive ChunkyState where
  | hex
  | lf
  | data
  | postLf
  | stop
  | trailer
  | trailerCr
  | trailerPostCr
  | done
  | failed
deriving DecidableEq

/-- `CHUNKcode`, but for what a writer's refusal gives. -/
inductive ChunkCode where
  | ok
  | tooLongHex
  | illegalHex
  | badChunk
  | outOfMemory
deriving DecidableEq

/-- `struct Curl_chunker`; `hexindex` is the length of `hexbuffer`, and a `trailer` that was never
written to has no buffer. -/
structure Chunker where
  datasize : Nat := 0
  state : ChunkyState := .hex
  lastCode : ChunkCode := .ok
  trailer : Option Bytes := none
  hexbuffer : Bytes := []
deriving DecidableEq

/-- `Curl_httpchunk_reset`, which keeps the buffer of the trailer. -/
def Chunker.reset (ch : Chunker) : Chunker :=
  { ch with hexbuffer := [], state := .hex, lastCode := .ok, trailer := ch.trailer.map fun _ => [] }

/-- A chunker with what the next writer has been handed. -/
structure Download where
  ch : Chunker := {}
  body : Bytes := []
  trailers : List Bytes := []
deriving DecidableEq

def Download.fail (d : Download) (lastCode : ChunkCode) : Download :=
  { d with ch := { d.ch with state := .failed, lastCode := lastCode } }

/-- A failed `curlx_dyn_addn` has freed the buffer. -/
def Download.failTrailer (d : Download) : Download :=
  { d with ch := { d.ch with state := .failed, lastCode := .outOfMemory, trailer := none } }

/-- `CHUNK_MAXNUM_LEN`. -/
def chunkMaxNumLen : Nat := 16

/-- `CURL_OFF_T_MAX`. -/
def offTMax : Nat := 2 ^ 63 - 1

/-- `DYN_H1_TRAILER`. -/
def dynH1Trailer : Nat := 4096

/-- What a turn of the loop leads to: the next turn, or the end of the call. -/
inductive Turn where
  | go (d : Download) (rest : Bytes)
  | ret (d : Download) (rest : Bytes) (code : CURLcode)

/-- The `switch` of `httpchunk_readwrite`, with `c :: buf` before it. -/
def turn (d : Download) (c : UInt8) (buf : Bytes) : Turn :=
  match d.ch.state with
  | .hex =>
    if isXDigit c then
      if d.ch.hexbuffer.length ≥ chunkMaxNumLen then .ret (d.fail .tooLongHex) (c :: buf) .recvError
      else .go { d with ch := { d.ch with hexbuffer := d.ch.hexbuffer ++ [c] } } buf
    else if d.ch.hexbuffer = [] then .ret (d.fail .illegalHex) (c :: buf) .recvError
    else
      match strNumBase 16 offTMax d.ch.hexbuffer with
      | none => .ret (d.fail .illegalHex) (c :: buf) .recvError
      | some (n, _) => .go { d with ch := { d.ch with datasize := n, state := .lf } } (c :: buf)
  | .lf =>
    if c = 0x0a then
      if d.ch.datasize = 0 then .go { d with ch := { d.ch with state := .trailer } } buf
      else .go { d with ch := { d.ch with state := .data } } buf
    else .go d buf
  | .data =>
    let piece := if d.ch.datasize < (c :: buf).length then d.ch.datasize else (c :: buf).length
    .go { d with
      body := d.body ++ (c :: buf).take piece
      ch := { d.ch with
        datasize := d.ch.datasize - piece
        state := if d.ch.datasize - piece = 0 then .postLf else .data } } ((c :: buf).drop piece)
  | .postLf =>
    if c = 0x0a then .go { d with ch := d.ch.reset } buf
    else if c ≠ 0x0d then .ret (d.fail .badChunk) (c :: buf) .recvError
    else .go d buf
  | .trailer =>
    if c = 0x0d ∨ c = 0x0a then
      match d.ch.trailer with
      | some tr =>
        if tr.length + 2 + 1 > dynH1Trailer then .ret d.failTrailer (c :: buf) .tooLarge
        else
          let d := { d with
            trailers := d.trailers ++ [tr ++ [0x0d, 0x0a]]
            ch := { d.ch with trailer := some [], state := .trailerCr } }
          -- already on the LF, which is left to the next state
          if c = 0x0a then .go d (c :: buf) else .go d buf
      | none => .go { d with ch := { d.ch with state := .trailerPostCr } } (c :: buf)
    else if (d.ch.trailer.getD []).length + 1 + 1 > dynH1Trailer then
      .ret d.failTrailer (c :: buf) .tooLarge
    else .go { d with ch := { d.ch with trailer := some (d.ch.trailer.getD [] ++ [c]) } } buf
  | .trailerCr =>
    if c = 0x0a then .go { d with ch := { d.ch with state := .trailerPostCr } } buf
    else .ret (d.fail .badChunk) (c :: buf) .recvError
  | .trailerPostCr =>
    if c ≠ 0x0d ∧ c ≠ 0x0a then .go { d with ch := { d.ch with state := .trailer } } (c :: buf)
    else if c = 0x0d then .go { d with ch := { d.ch with state := .stop } } buf
    else .go { d with ch := { d.ch with state := .stop } } (c :: buf)
  | .stop =>
    if c = 0x0a then .ret { d with ch := { d.ch with datasize := buf.length, state := .done } } buf .ok
    else .ret (d.fail .badChunk) (c :: buf) .recvError
  | .done => .ret d (c :: buf) .ok
  | .failed => .ret d (c :: buf) .recvError

/-- The loop; `none` only if there are too few turns. -/
def loop : Nat → Download → Bytes → Option (Download × Bytes × CURLcode)
  | _, d, [] => some (d, [], .ok)
  | 0, _, _ :: _ => none
  | turns + 1, d, c :: buf =>
    match turn d c buf with
    | .go d rest => loop turns d rest
    | .ret d rest code => some (d, rest, code)

/-- `httpchunk_readwrite`: with what is not consumed of the buffer, and the return value. -/
def httpchunkReadwrite (d : Download) (buf : Bytes) : Option (Download × Bytes × CURLcode) :=
  if d.ch.state = .done then some (d, buf, .ok)
  else if d.ch.state = .failed then some (d, buf, .recvError)
  else loop (3 * buf.length) d buf

/-- A body being received: the transfer ends with the first error. -/
structure Transfer where
  d : Download := {}
  code : CURLcode := .ok

/-- `cw_chunked_write` of body bytes. -/
def Transfer.write (t : Transfer) (buf : Bytes) : Transfer :=
  if t.code ≠ .ok then t
  else
    match httpchunkReadwrite t.d buf with
    | some (d, _, code) => { d := d, code := code }
    | none => t

/-- The end of the stream, when the connection has no more: the result of the transfer. -/
def Transfer.close (t : Transfer) : CURLcode :=
  if t.code ≠ .ok then t.code else if t.d.ch.state = .done then .ok else .partialFile

/-! ### One byte at a time -/

/-- What the decoder is reading: the digits of a size, the rest of that line, data still to come, the
line end behind it, a line of the trailer, its line feed, the line behind it, the last line feed. -/
inductive Phase where
  | size (digits : Bytes)
  | sizeLine (n : Nat)
  | data (n : Nat)
  | afterData
  | trailer (line : Bytes)
  | trailerCr
  | trailerEnd
  | stop
  | done
  | failed (lastCode : ChunkCode) (code : CURLcode)
deriving DecidableEq

structure Heard where
  phase : Phase := .size []
  body : Bytes := []
  trailers : List Bytes := []
deriving DecidableEq

namespace Heard

/-- The rest of the line of a size. -/
def sizeLine (h : Heard) (n : Nat) (c : UInt8) : Heard :=
  if c = 0x0a then { h with phase := if n = 0 then .trailer [] else .data n }
  else { h with phase := .sizeLine n }

/-- A byte of a trailer's line. -/
def trailerByte (h : Heard) (line : Bytes) (c : UInt8) : Heard :=
  if line.length + 1 + 1 > dynH1Trailer then { h with phase := .failed .outOfMemory .tooLarge }
  else { h with phase := .trailer (line ++ [c]) }

/-- The byte behind the last line of the trailer. -/
def lastLine (h : Heard) (c : UInt8) : Heard :=
  { h with phase := if c = 0x0d then .stop else .done }

def next (h : Heard) (c : UInt8) : Heard :=
  match h.phase with
  | .size digits =>
    if isXDigit c then
      if digits.length ≥ chunkMaxNumLen then { h with phase := .failed .tooLongHex .recvError }
      else { h with phase := .size (digits ++ [c]) }
    else if digits = [] then { h with phase := .failed .illegalHex .recvError }
    else
      match strNumBase 16 offTMax digits with
      | none => { h with phase := .failed .illegalHex .recvError }
      | some (n, _) => h.sizeLine n c
  | .sizeLine n => h.sizeLine n c
  | .data n =>
    { h with phase := if n - 1 = 0 then .afterData else .data (n - 1), body := h.body ++ [c] }
  | .afterData =>
    if c = 0x0a then { h with phase := .size [] }
    else if c ≠ 0x0d then { h with phase := .failed .badChunk .recvError }
    else h
  | .trailer line =>
    if c = 0x0d ∨ c = 0x0a then
      if line = [] then h.lastLine c
      else if line.length + 2 + 1 > dynH1Trailer then
        { h with phase := .failed .outOfMemory .tooLarge }
      else
        { h with
          phase := if c = 0x0a then .trailerEnd else .trailerCr
          trailers := h.trailers ++ [line ++ [0x0d, 0x0a]] }
    else h.trailerByte line c
  | .trailerCr =>
    if c = 0x0a then { h with phase := .trailerEnd }
    else { h with phase := .failed .badChunk .recvError }
  | .trailerEnd => if c = 0x0d ∨ c = 0x0a then h.lastLine c else h.trailerByte [] c
  | .stop =>
    if c = 0x0a then { h with phase := .done } else { h with phase := .failed .badChunk .recvError }
  | .done | .failed _ _ => h

end Heard

/-! ### The loop does the same -/

/-- What is being read in a state of the loop. -/
def phaseOf (ch : Chunker) (code : CURLcode) : Phase :=
  match ch.state with
  | .hex => .size ch.hexbuffer
  | .lf => .sizeLine ch.datasize
  | .data => .data ch.datasize
  | .postLf => .afterData
  | .trailer => .trailer (ch.trailer.getD [])
  | .trailerCr => .trailerCr
  | .trailerPostCr => .trailerEnd
  | .stop => .stop
  | .done => .done
  | .failed => .failed ch.lastCode code

def heardOf (d : Download) (code : CURLcode) : Heard :=
  { phase := phaseOf d.ch code, body := d.body, trailers := d.trailers }

/-- Between two calls: data is due, the buffer of the trailer is there only once a line has begun,
and is empty where no line has. -/
def Fine (ch : Chunker) : Prop :=
  match ch.state with
  | .hex | .lf | .postLf => ch.trailer = none
  | .data => ch.trailer = none ∧ 0 < ch.datasize
  | .trailer => ch.trailer ≠ some []
  | .trailerCr | .trailerPostCr => ch.trailer = some []
  | .stop | .done | .failed => True

def Live (ch : Chunker) : Prop := ch.state ≠ .failed ∧ ch.state ≠ .done

/-- What a call of the loop leaves: everything as the byte machine has it. -/
structure Followed (d : Download) (buf : Bytes) (r : Download × Bytes × CURLcode) : Prop where
  heard : heardOf r.1 r.2.2 = buf.foldl Heard.next (heardOf d .ok)
  fine : Fine r.1.ch
  ok_iff : r.2.2 = .ok ↔ r.1.ch.state ≠ .failed

theorem Heard.foldl_failed {h : Heard} {lastCode : ChunkCode} {code : CURLcode}
    (hphase : h.phase = .failed lastCode code) (l : Bytes) : l.foldl Heard.next h = h := by
  induction l with
  | nil => rfl
  | cons c l ih =>
    have hnext : h.next c = h := by rw [Heard.next, hphase]
    rw [List.foldl_cons, hnext, ih]

theorem Heard.foldl_done {h : Heard} (hphase : h.phase = .done) (l : Bytes) :
    l.foldl Heard.next h = h := by
  induction l with
  | nil => rfl
  | cons c l ih =>
    have hnext : h.next c = h := by rw [Heard.next, hphase]
    rw [List.foldl_cons, hnext, ih]

/-- `k` turns take the loop on by a byte at least, or end the call. -/
inductive Taken (d : Download) (buf : Bytes) (k : Nat) : Prop
  | moves (d' : Download) (eaten rest : Bytes) : buf = eaten ++ rest → eaten ≠ [] → Fine d'.ch →
      Live d'.ch → heardOf d' .ok = eaten.foldl Heard.next (heardOf d .ok) →
      (∀ m, loop (k + m) d buf = loop m d' rest) → Taken d buf k
  | ends (r : Download × Bytes × CURLcode) : Followed d buf r →
      (∀ m, loop (k + m) d buf = some r) → Taken d buf k

section

variable {d d' : Download} {c : UInt8} {buf rest : Bytes}

theorem loop_go (hturn : turn d c buf = .go d' rest) (m : Nat) :
    loop (1 + m) d (c :: buf) = loop m d' rest := by
  rw [Nat.add_comm, loop, hturn]

theorem loop_ret {code : CURLcode} (hturn : turn d c buf = .ret d' rest code) (m : Nat) :
    loop (1 + m) d (c :: buf) = some (d', rest, code) := by
  rw [Nat.add_comm, loop, hturn]

/-- A turn that consumes its byte. -/
theorem Taken.of_byte (hturn : turn d c buf = .go d' buf)
    (hheard : heardOf d' .ok = (heardOf d .ok).next c) (hfine : Fine d'.ch) (hlive : Live d'.ch) :
    Taken d (c :: buf) 1 :=
  .moves d' [c] buf rfl (List.cons_ne_nil _ _) hfine hlive hheard (loop_go hturn)

/-- A turn that leaves its byte to the next one. -/
theorem Taken.of_go (hturn : turn d c buf = .go d' (c :: buf))
    (hheard : (heardOf d' .ok).next c = (heardOf d .ok).next c) {k : Nat}
    (h : Taken d' (c :: buf) k) : Taken d (c :: buf) (1 + k) := by
  have hturns : ∀ m, loop (1 + k + m) d (c :: buf) = loop (k + m) d' (c :: buf) := fun m => by
    rw [Nat.add_assoc, loop_go hturn]
  cases h with
  | moves d'' eaten rest heq hne hfine hlive hh hloop =>
    refine .moves d'' eaten rest heq hne hfine hlive ?_ fun m => (hturns m).trans (hloop m)
    cases eaten with
    | nil => exact absurd rfl hne
    | cons b eaten =>
      obtain rfl : c = b := (List.cons.inj heq).1
      rw [hh, List.foldl_cons, List.foldl_cons, hheard]
  | ends r hr hloop =>
    refine .ends r ⟨?_, hr.fine, hr.ok_iff⟩ fun m => (hturns m).trans (hloop m)
    rw [hr.heard, List.foldl_cons, List.foldl_cons, hheard]

/-- A turn that fails. -/
theorem Taken.of_fail {code : CURLcode} (hturn : turn d c buf = .ret d' rest code)
    (hstate : d'.ch.state = .failed) (hcode : code ≠ .ok)
    (hheard : heardOf d' code = (heardOf d .ok).next c) : Taken d (c :: buf) 1 := by
  have hphase : (heardOf d' code).phase = .failed d'.ch.lastCode code := by
    rw [heardOf, phaseOf, hstate]
  refine .ends (d', rest, code) ⟨?_, ?_, ?_⟩ (loop_ret hturn)
  · rw [List.foldl_cons, ← hheard, Heard.foldl_failed hphase]
  · rw [Fine, hstate]
    trivial
  · exact ⟨fun h => absurd h hcode, fun h => absurd hstate h⟩

/-- The turn that reads the last byte. -/
theorem Taken.of_done (hturn : turn d c buf = .ret d' rest .ok) (hstate : d'.ch.state = .done)
    (hheard : heardOf d' .ok = (heardOf d .ok).next c) : Taken d (c :: buf) 1 := by
  have hphase : (heardOf d' .ok).phase = .done := by rw [heardOf, phaseOf, hstate]
  refine .ends (d', rest, .ok) ⟨?_, ?_, ?_⟩ (loop_ret hturn)
  · rw [List.foldl_cons, ← hheard, Heard.foldl_done hphase]
  · rw [Fine, hstate]
    trivial
  · simp [hstate]

end

/-! ### Each state -/

section

variable {d : Download} {c : UInt8} {buf : Bytes}

theorem Heard.data_foldl {n : Nat} (l : Bytes) (hl : l ≠ []) (hn : l.length ≤ n) (h : Heard)
    (hphase : h.phase = .data n) :
    l.foldl Heard.next h = { h with
      phase := if n - l.length = 0 then .afterData else .data (n - l.length)
      body := h.body ++ l } := by
  induction l generalizing n h with
  | nil => exact absurd rfl hl
  | cons c l ih =>
    rw [List.foldl_cons]
    have hnext : h.next c = { h with
        phase := if n - 1 = 0 then .afterData else .data (n - 1), body := h.body ++ [c] } := by
      rw [Heard.next, hphase]
    rw [hnext]
    rw [List.length_cons] at hn
    by_cases hnil : l = []
    · rw [hnil]
      rfl
    · have hpos := List.length_pos_of_ne_nil hnil
      rw [if_neg (show ¬ n - 1 = 0 by omega), ih hnil (show l.length ≤ n - 1 by omega) _ rfl,
        List.length_cons, List.append_assoc, Nat.sub_sub, Nat.add_comm 1]
      rfl

theorem taken_lf (hstate : d.ch.state = .lf) (hfine : Fine d.ch) : Taken d (c :: buf) 1 := by
  have hnone : d.ch.trailer = none := by
    rw [Fine, hstate] at hfine
    exact hfine
  by_cases hc : c = 0x0a
  · by_cases hn : d.ch.datasize = 0
    · have hturn : turn d c buf = .go { d with ch := { d.ch with state := .trailer } } buf := by
        simp [turn, hstate, hc, hn]
      refine .of_byte hturn ?_ ?_ ?_
      · simp [heardOf, phaseOf, hstate, Heard.next, Heard.sizeLine, hc, hn, hnone]
      · simp [Fine, hnone]
      · simp [Live]
    · have hturn : turn d c buf = .go { d with ch := { d.ch with state := .data } } buf := by
        simp [turn, hstate, hc, hn]
      refine .of_byte hturn ?_ ?_ ?_
      · simp [heardOf, phaseOf, hstate, Heard.next, Heard.sizeLine, hc, hn]
      · exact ⟨hnone, Nat.pos_of_ne_zero hn⟩
      · simp [Live]
  · have hturn : turn d c buf = .go d buf := by simp [turn, hstate, hc]
    refine .of_byte hturn ?_ hfine ?_
    · simp [heardOf, phaseOf, hstate, Heard.next, Heard.sizeLine, hc]
    · simp [Live, hstate]

theorem taken_hex (hstate : d.ch.state = .hex) (hfine : Fine d.ch) :
    ∃ k ≤ 3, Taken d (c :: buf) k := by
  have hnone : d.ch.trailer = none := by
    rw [Fine, hstate] at hfine
    exact hfine
  by_cases hx : isXDigit c = true
  · by_cases hlong : d.ch.hexbuffer.length ≥ chunkMaxNumLen
    · have hturn : turn d c buf = .ret (d.fail .tooLongHex) (c :: buf) .recvError := by
        simp [turn, hstate, hx, hlong]
      refine ⟨1, by decide, .of_fail hturn rfl (by decide) ?_⟩
      simp [heardOf, phaseOf, Download.fail, hstate, Heard.next, hx, hlong]
    · have hturn : turn d c buf
          = .go { d with ch := { d.ch with hexbuffer := d.ch.hexbuffer ++ [c] } } buf := by
        simp [turn, hstate, hx, hlong]
      refine ⟨1, by decide, .of_byte hturn ?_ ?_ ?_⟩
      · simp [heardOf, phaseOf, hstate, Heard.next, hx, hlong]
      · simp [Fine, hstate, hnone]
      · simp [Live, hstate]
  · by_cases hempty : d.ch.hexbuffer = []
    · have hturn : turn d c buf = .ret (d.fail .illegalHex) (c :: buf) .recvError := by
        simp [turn, hstate, hx, hempty]
      refine ⟨1, by decide, .of_fail hturn rfl (by decide) ?_⟩
      simp [heardOf, phaseOf, Download.fail, hstate, Heard.next, hx, hempty]
    · cases hnum : strNumBase 16 offTMax d.ch.hexbuffer with
      | none =>
        have hturn : turn d c buf = .ret (d.fail .illegalHex) (c :: buf) .recvError := by
          simp [turn, hstate, hx, hempty, hnum]
        refine ⟨1, by decide, .of_fail hturn rfl (by decide) ?_⟩
        simp [heardOf, phaseOf, Download.fail, hstate, Heard.next, hx, hempty, hnum]
      | some r =>
        have hturn : turn d c buf
            = .go { d with ch := { d.ch with datasize := r.1, state := .lf } } (c :: buf) := by
          simp [turn, hstate, hx, hempty, hnum]
        refine ⟨1 + 1, by decide, .of_go hturn ?_ (taken_lf rfl hnone)⟩
        simp [heardOf, phaseOf, hstate, Heard.next, hx, hempty, hnum, Heard.sizeLine]

theorem taken_data (hstate : d.ch.state = .data) (hfine : Fine d.ch) : Taken d (c :: buf) 1 := by
  obtain ⟨hnone, hpos⟩ : d.ch.trailer = none ∧ 0 < d.ch.datasize := by
    rw [Fine, hstate] at hfine
    exact hfine
  let piece := if d.ch.datasize < (c :: buf).length then d.ch.datasize else (c :: buf).length
  have hpiece : 0 < piece ∧ piece ≤ (c :: buf).length ∧ piece ≤ d.ch.datasize := by
    have hlen : (c :: buf).length = buf.length + 1 := rfl
    dsimp only [piece]
    split <;> omega
  have hturn : turn d c buf = .go { d with
      body := d.body ++ (c :: buf).take piece
      ch := { d.ch with
        datasize := d.ch.datasize - piece
        state := if d.ch.datasize - piece = 0 then .postLf else .data } } ((c :: buf).drop piece) := by
    simp only [turn, hstate, piece]
  have htake : ((c :: buf).take piece).length = piece := List.length_take_of_le hpiece.2.1
  have hne : (c :: buf).take piece ≠ [] := List.ne_nil_of_length_pos (htake.symm ▸ hpiece.1)
  refine .moves _ _ _ (List.take_append_drop piece (c :: buf)).symm hne ?_ ?_ ?_ (loop_go hturn)
  · rw [Fine]
    dsimp only
    by_cases hend : d.ch.datasize - piece = 0
    · rw [if_pos hend]
      exact hnone
    · rw [if_neg hend]
      exact ⟨hnone, Nat.pos_of_ne_zero hend⟩
  · rw [Live]
    dsimp only
    split <;> simp
  · have hphase : (heardOf d .ok).phase = .data d.ch.datasize := by simp [heardOf, phaseOf, hstate]
    rw [Heard.data_foldl _ hne (htake.symm ▸ hpiece.2.2) _ hphase, htake]
    by_cases hend : d.ch.datasize - piece = 0
    · simp [heardOf, phaseOf, hend]
    · simp [heardOf, phaseOf, hend]

theorem taken_postLf (hstate : d.ch.state = .postLf) (hfine : Fine d.ch) : Taken d (c :: buf) 1 := by
  have hnone : d.ch.trailer = none := by
    rw [Fine, hstate] at hfine
    exact hfine
  by_cases hc : c = 0x0a
  · have hturn : turn d c buf = .go { d with ch := d.ch.reset } buf := by simp [turn, hstate, hc]
    refine .of_byte hturn ?_ ?_ ?_
    · simp [heardOf, phaseOf, hstate, Heard.next, hc, Chunker.reset]
    · simp [Fine, Chunker.reset, hnone]
    · simp [Live, Chunker.reset]
  · by_cases hcr : c = 0x0d
    · have hturn : turn d c buf = .go d buf := by simp [turn, hstate, hcr]
      refine .of_byte hturn ?_ hfine ?_
      · simp [heardOf, phaseOf, hstate, Heard.next, hcr]
      · simp [Live, hstate]
    · have hturn : turn d c buf = .ret (d.fail .badChunk) (c :: buf) .recvError := by
        simp [turn, hstate, hc, hcr]
      refine .of_fail hturn rfl (by decide) ?_
      simp [heardOf, phaseOf, Download.fail, hstate, Heard.next, hc, hcr]

theorem taken_stop (hstate : d.ch.state = .stop) : Taken d (c :: buf) 1 := by
  by_cases hc : c = 0x0a
  · have hturn : turn d c buf
        = .ret { d with ch := { d.ch with datasize := buf.length, state := .done } } buf .ok := by
      simp [turn, hstate, hc]
    refine .of_done hturn rfl ?_
    simp [heardOf, phaseOf, hstate, Heard.next, hc]
  · have hturn : turn d c buf = .ret (d.fail .badChunk) (c :: buf) .recvError := by
      simp [turn, hstate, hc]
    refine .of_fail hturn rfl (by decide) ?_
    simp [heardOf, phaseOf, Download.fail, hstate, Heard.next, hc]

theorem taken_trailerCr (hstate : d.ch.state = .trailerCr) (hfine : Fine d.ch) :
    Taken d (c :: buf) 1 := by
  have hempty : d.ch.trailer = some [] := by
    rw [Fine, hstate] at hfine
    exact hfine
  by_cases hc : c = 0x0a
  · have hturn : turn d c buf = .go { d with ch := { d.ch with state := .trailerPostCr } } buf := by
      simp [turn, hstate, hc]
    refine .of_byte hturn ?_ ?_ ?_
    · simp [heardOf, phaseOf, hstate, Heard.next, hc]
    · simp [Fine, hempty]
    · simp [Live]
  · have hturn : turn d c buf = .ret (d.fail .badChunk) (c :: buf) .recvError := by
      simp [turn, hstate, hc]
    refine .of_fail hturn rfl (by decide) ?_
    simp [heardOf, phaseOf, Download.fail, hstate, Heard.next, hc]

/-- A byte that begins or goes on with a line of the trailer. -/
theorem taken_trailerByte (hstate : d.ch.state = .trailer) (hc : ¬ (c = 0x0d ∨ c = 0x0a)) :
    Taken d (c :: buf) 1 := by
  have hphase : (heardOf d .ok).phase = .trailer (d.ch.trailer.getD []) := by
    simp [heardOf, phaseOf, hstate]
  by_cases hlong : (d.ch.trailer.getD []).length + 1 + 1 > dynH1Trailer
  · have hturn : turn d c buf = .ret d.failTrailer (c :: buf) .tooLarge := by
      simp only [turn, hstate, if_neg hc, if_pos hlong]
    refine .of_fail hturn rfl (by decide) ?_
    rw [Heard.next, hphase]
    simp only [if_neg hc, Heard.trailerByte, if_pos hlong]
    rfl
  · have hturn : turn d c buf = .go { d with
        ch := { d.ch with trailer := some (d.ch.trailer.getD [] ++ [c]) } } buf := by
      simp only [turn, hstate, if_neg hc, if_neg hlong]
    refine .of_byte hturn ?_ ?_ ?_
    · rw [Heard.next, hphase]
      simp only [if_neg hc, Heard.trailerByte, if_neg hlong]
      simp [heardOf, phaseOf, hstate]
    · simp [Fine, hstate]
    · simp [Live, hstate]

/-- The line behind the last one of the trailer. -/
theorem taken_lastLine (hstate : d.ch.state = .trailerPostCr) (hc : c = 0x0d ∨ c = 0x0a) :
    ∃ k ≤ 2, Taken d (c :: buf) k := by
  rcases hc with rfl | rfl
  · have hturn : turn d 0x0d buf = .go { d with ch := { d.ch with state := .stop } } buf := by
      simp [turn, hstate]
    refine ⟨1, by decide, .of_byte hturn ?_ ?_ ?_⟩
    · simp [heardOf, phaseOf, hstate, Heard.next, Heard.lastLine]
    · simp [Fine]
    · simp [Live]
  · have hturn : turn d 0x0a buf = .go { d with ch := { d.ch with state := .stop } } (0x0a :: buf) := by
      simp [turn, hstate]
    refine ⟨1 + 1, by decide, .of_go hturn ?_ (taken_stop rfl)⟩
    simp [heardOf, phaseOf, hstate, Heard.next, Heard.lastLine]

theorem taken_trailerPostCr (hstate : d.ch.state = .trailerPostCr) (hfine : Fine d.ch) :
    ∃ k ≤ 2, Taken d (c :: buf) k := by
  have hempty : d.ch.trailer = some [] := by
    rw [Fine, hstate] at hfine
    exact hfine
  by_cases hc : c = 0x0d ∨ c = 0x0a
  · exact taken_lastLine hstate hc
  · have hne := not_or.mp hc
    have hturn : turn d c buf = .go { d with ch := { d.ch with state := .trailer } } (c :: buf) := by
      simp [turn, hstate, hne.1, hne.2]
    refine ⟨1 + 1, by decide, .of_go hturn ?_ (taken_trailerByte rfl hc)⟩
    simp [heardOf, phaseOf, hstate, Heard.next, hne.1, hne.2, hempty, Heard.trailerByte]

theorem taken_trailer (hstate : d.ch.state = .trailer) (hfine : Fine d.ch) :
    ∃ k ≤ 3, Taken d (c :: buf) k := by
  have hline : d.ch.trailer ≠ some [] := by
    rw [Fine, hstate] at hfine
    exact hfine
  by_cases hc : c = 0x0d ∨ c = 0x0a
  · cases htr : d.ch.trailer with
    | none =>
      have hturn : turn d c buf
          = .go { d with ch := { d.ch with state := .trailerPostCr } } (c :: buf) := by
        simp only [turn, hstate, if_pos hc, htr]
      obtain ⟨k, hk, htaken⟩ : ∃ k ≤ 2, Taken { d with
          ch := { d.ch with state := .trailerPostCr } } (c :: buf) k := taken_lastLine rfl hc
      refine ⟨1 + k, by omega, .of_go hturn ?_ htaken⟩
      simp [heardOf, phaseOf, hstate, Heard.next, hc, htr, Heard.lastLine]
    | some line =>
      have hne : line ≠ [] := fun h => hline (h ▸ htr)
      by_cases hlong : line.length + 2 + 1 > dynH1Trailer
      · have hturn : turn d c buf = .ret d.failTrailer (c :: buf) .tooLarge := by
          simp only [turn, hstate, if_pos hc, htr, if_pos hlong]
        refine ⟨1, by decide, .of_fail hturn rfl (by decide) ?_⟩
        simp [heardOf, phaseOf, Download.failTrailer, hstate, Heard.next, hc, htr, hne, hlong]
      · -- the line is complete: its LF is left to the next state, its CR is not
        let d' : Download := { d with
          trailers := d.trailers ++ [line ++ [0x0d, 0x0a]]
          ch := { d.ch with trailer := some [], state := .trailerCr } }
        by_cases hlf : c = 0x0a
        · have hturn : turn d c buf = .go d' (c :: buf) := by
            simp only [turn, hstate, if_pos hc, htr, if_neg hlong, if_pos hlf, d']
          refine ⟨1 + 1, by decide, .of_go hturn ?_ (taken_trailerCr rfl rfl)⟩
          simp [heardOf, phaseOf, hstate, Heard.next, hlf, htr, hne, hlong, d']
        · have hcr : c = 0x0d := hc.resolve_right hlf
          have hturn : turn d c buf = .go d' buf := by
            simp only [turn, hstate, if_pos hc, htr, if_neg hlong, if_neg hlf, d']
          refine ⟨1, by decide, .of_byte hturn ?_ rfl ?_⟩
          · simp [heardOf, phaseOf, hstate, Heard.next, hcr, htr, hne, hlong, d']
          · simp [Live, d']
  · exact ⟨1, by decide, taken_trailerByte hstate hc⟩

end

/-- **Three turns at most for each byte.** -/
theorem taken (d : Download) (c : UInt8) (buf : Bytes) (hfine : Fine d.ch) (hlive : Live d.ch) :
    ∃ k ≤ 3, Taken d (c :: buf) k := by
  have hweaken : ∀ {k}, k ≤ 2 → k ≤ 3 := fun h => Nat.le_succ_of_le h
  cases hstate : d.ch.state with
  | hex => exact taken_hex hstate hfine
  | lf => exact ⟨1, by decide, taken_lf hstate hfine⟩
  | data => exact ⟨1, by decide, taken_data hstate hfine⟩
  | postLf => exact ⟨1, by decide, taken_postLf hstate hfine⟩
  | stop => exact ⟨1, by decide, taken_stop hstate⟩
  | trailer => exact taken_trailer hstate hfine
  | trailerCr => exact ⟨1, by decide, taken_trailerCr hstate hfine⟩
  | trailerPostCr =>
    obtain ⟨k, hk, h⟩ : ∃ k ≤ 2, Taken d (c :: buf) k := taken_trailerPostCr hstate hfine
    exact ⟨k, hweaken hk, h⟩
  | done => exact absurd hstate hlive.2
  | failed => exact absurd hstate hlive.1

/-- The loop ends in the turns it is given, wherever it is. -/
theorem loop_followed (n turns : Nat) (buf : Bytes) (d : Download) (hfine : Fine d.ch)
    (hlive : Live d.ch) (hn : buf.length ≤ n) (hturns : 3 * buf.length ≤ turns) :
    ∃ r, loop turns d buf = some r ∧ Followed d buf r := by
  induction n generalizing turns buf d with
  | zero =>
    have hnil : buf = [] := List.eq_nil_of_length_eq_zero (Nat.le_zero.mp hn)
    rw [hnil]
    refine ⟨(d, [], .ok), by cases turns <;> rfl, rfl, hfine, ?_⟩
    exact ⟨fun _ => hlive.1, fun _ => rfl⟩
  | succ n ih =>
    cases buf with
    | nil =>
      refine ⟨(d, [], .ok), by cases turns <;> rfl, rfl, hfine, ?_⟩
      exact ⟨fun _ => hlive.1, fun _ => rfl⟩
    | cons c buf =>
      obtain ⟨k, hk, htaken⟩ := taken d c buf hfine hlive
      rw [List.length_cons] at hn hturns
      obtain ⟨m, hm⟩ : ∃ m, turns = k + m := ⟨turns - k, by omega⟩
      cases htaken with
      | ends r hr hloop => exact ⟨r, hm ▸ hloop m, hr⟩
      | moves d' eaten rest heq hne hfine' hlive' hheard hloop =>
        have hlen : buf.length + 1 = eaten.length + rest.length := by
          rw [← List.length_cons, heq, List.length_append]
        have hpos := List.length_pos_of_ne_nil hne
        obtain ⟨r, hrun, hr⟩ := ih m rest d' hfine' hlive' (by omega) (by omega)
        refine ⟨r, by rw [hm, hloop, hrun], ?_, hr.fine, hr.ok_iff⟩
        rw [hr.heard, hheard, heq, List.foldl_append]

/-! ### Whole bodies -/

/-- A transfer, seen byte by byte. -/
def Transfer.heard (t : Transfer) : Heard := heardOf t.d t.code

/-- A transfer has an error exactly when its chunker has failed. -/
def Transfer.Sound (t : Transfer) : Prop := Fine t.d.ch ∧ (t.code = .ok ↔ t.d.ch.state ≠ .failed)

/-- **A call has a result**, wherever the transfer is. -/
theorem httpchunkReadwrite_followed {t : Transfer} (ht : t.Sound) (buf : Bytes) :
    ∃ r, httpchunkReadwrite t.d buf = some r ∧ (t.code = .ok → Followed t.d buf r) := by
  obtain ⟨hfine, hcode⟩ := ht
  rw [httpchunkReadwrite]
  by_cases hdone : t.d.ch.state = .done
  · rw [if_pos hdone]
    have hphase : (heardOf t.d .ok).phase = .done := by rw [heardOf, phaseOf, hdone]
    refine ⟨_, rfl, fun hok => ⟨?_, hfine, fun _ => hcode.mp hok, fun _ => rfl⟩⟩
    exact (Heard.foldl_done hphase buf).symm
  · rw [if_neg hdone]
    by_cases hfailed : t.d.ch.state = .failed
    · rw [if_pos hfailed]
      exact ⟨_, rfl, fun hok => absurd hfailed (hcode.mp hok)⟩
    · rw [if_neg hfailed]
      obtain ⟨r, hrun, hr⟩ := loop_followed buf.length (3 * buf.length) buf t.d hfine
        ⟨hfailed, hdone⟩ (Nat.le_refl _) (Nat.le_refl _)
      exact ⟨r, hrun, fun _ => hr⟩

theorem write_followed (t : Transfer) (buf : Bytes) (ht : t.Sound) :
    (t.write buf).heard = buf.foldl Heard.next t.heard ∧ (t.write buf).Sound := by
  by_cases hok : t.code = .ok
  · obtain ⟨r, hrun, hr⟩ := httpchunkReadwrite_followed ht buf
    rw [Transfer.write, if_neg (not_not_intro hok), hrun]
    refine ⟨?_, (hr hok).fine, (hr hok).ok_iff⟩
    rw [Transfer.heard, Transfer.heard, hok]
    exact (hr hok).heard
  · have hfailed : t.d.ch.state = .failed := by
      by_contra h
      exact hok (ht.2.mpr h)
    have hphase : t.heard.phase = .failed t.d.ch.lastCode t.code := by
      rw [Transfer.heard, heardOf, phaseOf, hfailed]
    rw [Transfer.write, if_pos hok, Heard.foldl_failed hphase]
    exact ⟨rfl, ht⟩

theorem write_follows : Follows Transfer.heard Heard.next Transfer.write Transfer.Sound where
  view_write := fun t l ht => (write_followed t l ht).1
  inv_write := fun t l ht => (write_followed t l ht).2

theorem sound_start : Transfer.Sound {} := ⟨rfl, fun _ => by decide, fun _ => rfl⟩

/-- What the client has of a body when the connection has no more, and the result of the transfer. -/
def download (pieces : List Bytes) : Bytes × List Bytes × CURLcode :=
  let t := pieces.foldl Transfer.write {}
  (t.d.body, t.d.trailers, t.close)

/-- What a body is worth, byte by byte. -/
def Heard.result (h : Heard) : Bytes × List Bytes × CURLcode :=
  (h.body, h.trailers,
    match h.phase with
    | .done => .ok
    | .failed _ code => code
    | _ => .partialFile)

theorem close_eq {t : Transfer} (ht : t.Sound) : t.close = t.heard.result.2.2 := by
  obtain ⟨-, hcode⟩ := ht
  rw [Transfer.close, Heard.result, Transfer.heard, heardOf, phaseOf]
  by_cases hok : t.code = .ok
  · have hnot := hcode.mp hok
    rw [if_neg (not_not_intro hok)]
    cases hstate : t.d.ch.state with
    | failed => exact absurd hstate hnot
    | _ => rfl
  · have hfailed : t.d.ch.state = .failed := by
      by_contra h
      exact hok (hcode.mpr h)
    rw [if_pos hok, hfailed]

/-- The bytes of a body decide what becomes of it. -/
theorem download_eq (pieces : List Bytes) :
    download pieces = (pieces.flatten.foldl Heard.next {}).result := by
  have hsound := write_follows.inv_foldl pieces {} sound_start
  have hheard := write_follows.foldl pieces {} sound_start
  have hstart : Transfer.heard {} = {} := rfl
  rw [hstart] at hheard
  rw [← hheard, download, close_eq hsound]
  rfl

/-- **However the network cuts a body, the client gets the same**: the same bytes, the same trailer
lines, the same result of the transfer; and whatever has come before, a call of `httpchunk_readwrite`
has a result. -/
theorem download_resplit {pieces pieces' : List Bytes} (h : pieces.flatten = pieces'.flatten) :
    (∀ (received : List Bytes) (buf : Bytes),
        (httpchunkReadwrite (received.foldl Transfer.write {}).d buf).isSome = true) ∧
      download pieces = download pieces' := by
  refine ⟨fun received buf => ?_, by rw [download_eq, download_eq, h]⟩
  have hsound := write_follows.inv_foldl received {} sound_start
  obtain ⟨r, hrun, -⟩ := httpchunkReadwrite_followed hsound buf
  rw [hrun]
  rfl

/-- `1`, CR and LF, a byte, CR and LF, then `0` and an empty trailer, cut within both line ends. -/
theorem download_resplit_small :
    download [[0x31, 0x0d], [0x0a, 0x68, 0x0d], [0x0a], [0x30, 0x0d, 0x0a, 0x0d, 0x0a]]
      = download [[0x31, 0x0d, 0x0a], [0x68, 0x0d, 0x0a, 0x30, 0x0d, 0x0a, 0x0d, 0x0a]] :=
  (download_resplit rfl).2

example :
    download [[0x31, 0x0d], [0x0a, 0x68, 0x0d], [0x0a], [0x30, 0x0d, 0x0a, 0x0d, 0x0a]]
      = ([0x68], [], .ok) := by decide

end NetMod.ChunkedDecoder
