import Mathlib.Data.Nat.Digits.Lemmas
import NetMod.BufferQueueRuns
import NetMod.ChunkedDecoder

/-!
# `http_chunks.c`: sending a body in chunks

`cr_chunked_read` is asked for so many bytes again and again.  It reads the body from the next reader,
wraps what it gets into a chunk in its `struct bufq`, and gives what is due of that.  The next reader
is a parameter, and so is the callback for trailers.

What it gives is what the chunked decoder of the other side takes apart, and until the end the other
side knows that more has to come (`upload_decodes`).  The end comes if the next reader goes on
(`upload_completes`).
-/

namespace NetMod.ChunkedEncoder

open NetMod.CurlText NetMod.BufferQueue NetMod.ChunkedDecoder

/-! ### The reader -/

def crlf : Bytes := [0x0d, 0x0a]

/-- `%zx`. -/
def hex (n : Nat) : Bytes :=
  if n = 0 then [48]
  else (Nat.digits 16 n).reverse.map fun d => UInt8.ofNat (if d < 10 then d + 48 else d + 87)

/-- `CURL_CHUNKED_MINLEN`. -/
def curlChunkedMinlen : Nat := 1024

/-- `CURL_CHUNKED_MAXLEN`. -/
def curlChunkedMaxlen : Nat := 64 * 1024

/-- The next reader: what `Curl_creader_read` gives for a buffer of a size, and whether that was all. -/
structure Source (σ : Type) where
  read : σ → Nat → σ × Except CURLcode (Bytes × Bool)
  fits : ∀ s n s' bytes eos, read s n = (s', .ok (bytes, eos)) → bytes.length ≤ n
  error_ne : ∀ s n s' e, read s n = (s', .error e) → e ≠ .ok

/-- `data->set.trailer_callback`: not set, one that aborts, or one with its lines. -/
inductive TrailerCallback where
  | unset
  | aborts
  | lines (trailers : List Bytes)

/-- A line that `add_last_chunk` does not skip: behind its first colon there is a blank. -/
def isTrailer (line : Bytes) : Bool := ((line.dropWhile (· ≠ 0x3a)).drop 1).head? = some 0x20

/-- `struct chunked_reader`. -/
structure ChunkedReader where
  chunkbuf : Bufq := .init curlChunkedMaxlen 2 true false
  readEos : Bool := false
  eos : Bool := false

/-- `Curl_bufq_cwrite` of one piece after the other, as long as that works. -/
def cwrites : Bufq → List Bytes → Option (Bufq × CURLcode)
  | q, [] => some (q, .ok)
  | q, piece :: pieces =>
    (q.write piece).bind fun r => if r.2.2 = .ok then cwrites r.1 pieces else some (r.1, r.2.2)

/-- The pieces that `add_last_chunk` writes. -/
def lastPieces : TrailerCallback → List Bytes
  | .unset => [[0x30, 0x0d, 0x0a, 0x0d, 0x0a]]
  | .aborts => [[0x30, 0x0d, 0x0a]]
  | .lines trailers =>
    [0x30, 0x0d, 0x0a] :: ((trailers.filter isTrailer).flatMap fun line => [line, crlf]) ++ [crlf]

/-- `add_last_chunk`. -/
def addLastChunk (callback : TrailerCallback) (q : Bufq) : Option (Bufq × CURLcode) :=
  (cwrites q (lastPieces callback)).map fun r =>
    match callback with
    | .aborts => (r.1, if r.2 = .ok then .abortedByCallback else r.2)
    | _ => r

/-- How much `add_chunk` asks for. -/
def chunkSizeFor (blen : Nat) : Nat :=
  if min blen curlChunkedMaxlen < curlChunkedMinlen then curlChunkedMinlen
  else min blen curlChunkedMaxlen - (8 + 2 + 2)

/-- The pieces of a chunk; the buffer of its head has 11 bytes. -/
def chunkPieces (bytes : Bytes) : List Bytes :=
  if bytes ≠ [] then [(hex bytes.length ++ crlf).take 10, bytes, crlf] else []

section

variable {σ : Type} (source : Source σ) (callback : TrailerCallback)

/-- `add_chunk`. -/
def addChunk (s : σ) (ctx : ChunkedReader) (blen : Nat) : Option (σ × ChunkedReader × CURLcode) :=
  match source.read s (chunkSizeFor blen) with
  | (s, .error e) => some (s, ctx, e)
  | (s, .ok (bytes, eos)) =>
    let ctx := { ctx with readEos := ctx.readEos || eos }
    (cwrites ctx.chunkbuf (chunkPieces bytes)).bind fun r =>
      let ctx := { ctx with chunkbuf := r.1 }
      if r.2 ≠ .ok then some (s, ctx, r.2)
      else if ctx.readEos then
        (addLastChunk callback ctx.chunkbuf).map fun r => (s, { ctx with chunkbuf := r.1 }, r.2)
      else some (s, ctx, .ok)

/-- What a call of `cr_chunked_read` gives: `pnread` bytes and `peos`. -/
structure ReadResult where
  bytes : Bytes := []
  eos : Bool := false
  code : CURLcode := .ok

/-- What `cr_chunked_read` gives of its buffer. -/
def handOut (s : σ) (ctx : ChunkedReader) (blen : Nat) : Option (σ × ChunkedReader × ReadResult) :=
  if ¬ ctx.chunkbuf.isEmpty then
    (ctx.chunkbuf.read blen).map fun b =>
      let eos := decide (b.2.2 = .ok) && ctx.readEos && b.1.isEmpty
      (s, { ctx with chunkbuf := b.1, eos := eos }, { bytes := b.2.1, eos := eos, code := b.2.2 })
  else some (s, ctx, { eos := ctx.eos })

/-- `cr_chunked_read`. -/
def crChunkedRead (s : σ) (ctx : ChunkedReader) (blen : Nat) :
    Option (σ × ChunkedReader × ReadResult) :=
  if ctx.eos then some (s, ctx, { eos := true })
  else if ¬ ctx.readEos ∧ ctx.chunkbuf.isEmpty then
    (addChunk source callback s ctx blen).bind fun r =>
      if r.2.2 ≠ .ok then some (r.1, r.2.1, { code := r.2.2 }) else handOut r.1 r.2.1 blen
  else handOut s ctx blen

/-- A body being sent: the transfer ends with the first error. -/
structure Upload (σ : Type) where
  s : σ
  ctx : ChunkedReader := {}
  sent : Bytes := []
  finished : Bool := false
  code : CURLcode := .ok

/-- One more read, with a buffer of `blen` bytes. -/
def Upload.read (u : Upload σ) (blen : Nat) : Upload σ :=
  if u.code ≠ .ok then u
  else
    match crChunkedRead source callback u.s u.ctx blen with
    | some (s, ctx, r) =>
      { s := s, ctx := ctx, sent := u.sent ++ r.bytes, finished := r.eos, code := r.code }
    | none => u

end

/-! ### The encoding -/

/-- A chunk on the wire. -/
def frame (bytes : Bytes) : Bytes := hex bytes.length ++ crlf ++ bytes ++ crlf

/-- The end on the wire. -/
def lastChunk (callback : TrailerCallback) : Bytes := (lastPieces callback).flatten

/-- The trailer lines that are sent. -/
def trailersOf : TrailerCallback → List Bytes
  | .unset | .aborts => []
  | .lines trailers => (trailers.filter isTrailer).map fun line => line ++ crlf

/-- A callback's lines can be told apart by their ends, and are not too long for the other side. -/
def TrailerCallback.Fine : TrailerCallback → Prop
  | .lines trailers => ∀ line ∈ trailers.filter isTrailer,
      line.length + 2 + 1 ≤ dynH1Trailer ∧ ∀ c ∈ line, c ≠ 0x0d ∧ c ≠ 0x0a
  | _ => True

/-! ### It is read back -/

/-- More has to come. -/
def pending : Phase → Bool
  | .done | .failed _ _ => false
  | _ => true

/-- The bytes `l` lead from `h` to `h'`, and before the last of them more has to come. -/
def Reads (h : Heard) (l : Bytes) (h' : Heard) : Prop :=
  l.foldl Heard.next h = h' ∧ ∀ p r, l = p ++ r → r ≠ [] → pending (p.foldl Heard.next h).phase = true

section

variable {h h' h'' : Heard} {c : UInt8} {l l' : Bytes}

theorem Reads.nil (h : Heard) : Reads h [] h :=
  ⟨rfl, fun _ _ heq hr => absurd (List.append_eq_nil_iff.mp heq.symm).2 hr⟩

theorem Reads.cons (hpending : pending h.phase = true) (hrest : Reads (h.next c) l h') :
    Reads h (c :: l) h' := by
  refine ⟨hrest.1, fun p r heq hr => ?_⟩
  cases p with
  | nil => exact hpending
  | cons b p =>
    obtain ⟨rfl, hl⟩ := List.cons.inj heq
    exact hrest.2 p r hl hr

theorem Reads.append (h₁ : Reads h l h') (h₂ : Reads h' l' h'') : Reads h (l ++ l') h'' := by
  refine ⟨by rw [List.foldl_append, h₁.1, h₂.1], fun p r heq hr => ?_⟩
  rcases List.append_eq_append_iff.mp heq with ⟨m, hp, hl'⟩ | ⟨m, hl, hr'⟩
  · -- the cut is in the second part
    rw [hp, List.foldl_append, h₁.1]
    exact h₂.2 m r hl' hr
  · by_cases hm : m = []
    · rw [hm, List.append_nil] at hl
      rw [← hl, h₁.1]
      exact h₂.2 [] l' rfl (by rw [hm, List.nil_append] at hr'; exact hr' ▸ hr)
    · exact h₁.2 p m hl hm

/-! #### Sizes -/

theorem hexValue_digit : ∀ d < 16,
    isXDigit (UInt8.ofNat (if d < 10 then d + 48 else d + 87)) = true ∧
      validDigit 16 (UInt8.ofNat (if d < 10 then d + 48 else d + 87)) = some d := by
  decide

/-- Digits that end a text, behind a number. -/
theorem strNumLoop_hex {max : Nat} (hmax : 16 ≤ max) (ds : List Nat) (hds : ∀ d ∈ ds, d < 16)
    (num : Nat) (hle : Nat.ofDigits 16 ds.reverse + num * 16 ^ ds.length ≤ max) :
    strNumLoop 16 max num (ds.map fun d => UInt8.ofNat (if d < 10 then d + 48 else d + 87))
      = some (Nat.ofDigits 16 ds.reverse + num * 16 ^ ds.length, []) := by
  induction ds generalizing num with
  | nil => simp [strNumLoop]
  | cons d ds ih =>
    obtain ⟨hd, hds⟩ := List.forall_mem_cons.mp hds
    have hsum : Nat.ofDigits 16 (d :: ds).reverse + num * 16 ^ (d :: ds).length
        = Nat.ofDigits 16 ds.reverse + (num * 16 + d) * 16 ^ ds.length := by
      rw [List.reverse_cons, Nat.ofDigits_append, Nat.ofDigits_singleton, List.length_reverse,
        List.length_cons]
      ring
    rw [hsum] at hle ⊢
    have hpos : 1 ≤ 16 ^ ds.length := Nat.one_le_two_pow.trans (Nat.pow_le_pow_left (by decide) _)
    have hmul : num * 16 + d ≤ (num * 16 + d) * 16 ^ ds.length := Nat.le_mul_of_pos_right _ hpos
    have hfits : ¬ (max - d) / 16 < num := by omega
    rw [List.map_cons, strNumLoop, (hexValue_digit d hd).2]
    simp only [if_neg hfits]
    exact ih hds _ hle

/-- `%zx` is read as the number. -/
theorem strNumBase_hex {n : Nat} (hn : n ≤ offTMax) : strNumBase 16 offTMax (hex n) = some (n, []) := by
  rw [hex]
  by_cases hzero : n = 0
  · rw [if_pos hzero, hzero]
    decide
  · rw [if_neg hzero]
    set ds := (Nat.digits 16 n).reverse with hds
    have hlt : ∀ d ∈ ds, d < 16 := fun d hd => Nat.digits_lt_base (by decide) (List.mem_reverse.mp hd)
    have hne : ds ≠ [] := by
      rw [hds, ne_eq, List.reverse_eq_nil_iff, Nat.digits_eq_nil_iff_eq_zero]
      exact hzero
    have hvalue : Nat.ofDigits 16 ds.reverse + 0 * 16 ^ ds.length = n := by
      rw [hds, List.reverse_reverse, Nat.ofDigits_digits, Nat.zero_mul, Nat.add_zero]
    have hloop := strNumLoop_hex (by decide) ds hlt 0 (hvalue.symm ▸ hn)
    rw [hvalue] at hloop
    obtain ⟨d, rest, hcons⟩ := List.exists_cons_of_ne_nil hne
    have hd : (validDigit 16 (UInt8.ofNat (if d < 10 then d + 48 else d + 87))).isSome = true := by
      rw [(hexValue_digit d (hlt d (hcons ▸ List.mem_cons_self))).2]
      rfl
    rw [hcons] at hloop ⊢
    rw [List.map_cons] at hloop ⊢
    rw [strNumBase, if_pos hd, hloop]

theorem isXDigit_hex {n : Nat} {c : UInt8} (hc : c ∈ hex n) : isXDigit c = true := by
  rw [hex] at hc
  split at hc
  · obtain rfl := List.mem_singleton.mp hc
    decide
  · obtain ⟨d, hd, rfl⟩ := List.mem_map.mp hc
    exact (hexValue_digit d (Nat.digits_lt_base (by decide) (List.mem_reverse.mp hd))).1

theorem length_hex {n : Nat} (hn : n < 16 ^ 4) : (hex n).length ≤ 4 ∧ hex n ≠ [] := by
  rw [hex]
  by_cases hzero : n = 0
  · rw [if_pos hzero]
    decide
  · rw [if_neg hzero]
    refine ⟨?_, ?_⟩
    · rw [List.length_map, List.length_reverse]
      exact (Nat.digits_length_le_iff (by decide) n).mpr hn
    · rw [ne_eq, List.map_eq_nil_iff, List.reverse_eq_nil_iff, Nat.digits_eq_nil_iff_eq_zero]
      exact hzero

/-! #### Chunks -/

/-- The digits of a size. -/
theorem reads_digits (l : Bytes) (hl : ∀ c ∈ l, isXDigit c = true) (digits : Bytes)
    (hlen : digits.length + l.length ≤ chunkMaxNumLen) (hphase : h.phase = .size digits) :
    Reads h l { h with phase := .size (digits ++ l) } := by
  induction l generalizing h digits with
  | nil =>
    rw [List.append_nil, ← hphase]
    exact Reads.nil h
  | cons c l ih =>
    obtain ⟨hc, hl⟩ := List.forall_mem_cons.mp hl
    rw [List.length_cons] at hlen
    have hnext : h.next c = { h with phase := .size (digits ++ [c]) } := by
      rw [Heard.next, hphase]
      simp only [hc, if_true]
      rw [if_neg (by omega)]
    refine Reads.cons (by rw [hphase]; rfl) ?_
    rw [hnext]
    have hrest := ih (h := { h with phase := .size (digits ++ [c]) }) hl (digits ++ [c])
      (by rw [List.length_append, List.length_singleton]; omega) rfl
    rw [List.append_assoc, List.singleton_append] at hrest
    exact hrest

/-- The line of a size. -/
theorem reads_head {n : Nat} (hn : n < 16 ^ 4) (hphase : h.phase = .size []) :
    Reads h (hex n ++ crlf) { h with phase := if n = 0 then .trailer [] else .data n } := by
  obtain ⟨hlen, hne⟩ := length_hex hn
  have hdigits := reads_digits (hex n) (fun c => isXDigit_hex) [] (by
    rw [chunkMaxNumLen, List.length_nil]
    omega) hphase
  have hnum := strNumBase_hex (n := n) (by rw [offTMax]; omega)
  refine hdigits.append (Reads.cons rfl (Reads.cons ?_ ?_))
  · have hcr : isXDigit 0x0d = false := by decide
    simp [Heard.next, hcr, hne, hnum, Heard.sizeLine, pending]
  · have hcr : isXDigit 0x0d = false := by decide
    have hend : (Heard.next (Heard.next { h with phase := .size ([] ++ hex n) } 0x0d) 0x0a)
        = { h with phase := if n = 0 then .trailer [] else .data n } := by
      simp [Heard.next, hcr, hne, hnum, Heard.sizeLine]
    rw [hend]
    exact Reads.nil _

/-- The data of a chunk. -/
theorem reads_data (l : Bytes) (hne : l ≠ []) (hphase : h.phase = .data l.length) :
    Reads h l { h with phase := .afterData, body := h.body ++ l } := by
  induction l generalizing h with
  | nil => exact absurd rfl hne
  | cons c l ih =>
    refine Reads.cons (by rw [hphase]; rfl) ?_
    have hnext : h.next c = { h with
        phase := if l.length = 0 then .afterData else .data l.length, body := h.body ++ [c] } := by
      simp only [Heard.next, hphase, List.length_cons, Nat.add_sub_cancel]
    rw [hnext]
    by_cases hl : l = []
    · rw [hl, List.length_nil, if_pos rfl]
      exact Reads.nil _
    · have hlen : l.length ≠ 0 := fun h => hl (List.eq_nil_of_length_eq_zero h)
      rw [if_neg hlen]
      have hrest := ih (h := { h with phase := .data l.length, body := h.body ++ [c] }) hl rfl
      rw [List.append_assoc, List.singleton_append] at hrest
      exact hrest

/-- **A chunk is read back.** -/
theorem reads_frame {bytes : Bytes} (hne : bytes ≠ []) (hlen : bytes.length < 16 ^ 4)
    (hphase : h.phase = .size []) : Reads h (frame bytes) { h with body := h.body ++ bytes } := by
  have hpos : bytes.length ≠ 0 := fun h => hne (List.eq_nil_of_length_eq_zero h)
  have hhead := reads_head hlen hphase
  rw [if_neg hpos] at hhead
  have hdata := reads_data (h := { h with phase := .data bytes.length }) bytes hne rfl
  refine (hhead.append hdata).append (Reads.cons rfl (Reads.cons rfl ?_))
  have hend : ∀ g : Heard, g.phase = .afterData →
      (g.next 0x0d).next 0x0a = { g with phase := .size [] } := by
    intro g hg
    simp [Heard.next, hg]
  rw [hend _ rfl, ← hphase]
  exact Reads.nil _

theorem reads_frames (chunks : List Bytes) (hchunks : ∀ c ∈ chunks, c ≠ [] ∧ c.length < 16 ^ 4)
    (hphase : h.phase = .size []) :
    Reads h (chunks.flatMap frame) { h with body := h.body ++ chunks.flatten } := by
  induction chunks generalizing h with
  | nil =>
    rw [List.flatten_nil, List.append_nil]
    exact Reads.nil h
  | cons c chunks ih =>
    obtain ⟨⟨hne, hlen⟩, hrest⟩ := List.forall_mem_cons.mp hchunks
    rw [List.flatMap_cons, List.flatten_cons, ← List.append_assoc]
    exact (reads_frame hne hlen hphase).append
      (ih (h := { h with body := h.body ++ c }) hrest hphase)

/-! #### The end -/

/-- Where a line of the trailer may begin. -/
def AtLine (h : Heard) : Prop := h.phase = .trailer [] ∨ h.phase = .trailerEnd

theorem AtLine.pending (h₁ : AtLine h) : ChunkedEncoder.pending h.phase = true := by
  rcases h₁ with h₁ | h₁ <;> rw [h₁] <;> rfl

theorem reads_trailerBytes (l : Bytes) (hl : ∀ c ∈ l, c ≠ 0x0d ∧ c ≠ 0x0a) (line : Bytes)
    (hlen : line.length + l.length + 1 ≤ dynH1Trailer) (hphase : h.phase = .trailer line) :
    Reads h l { h with phase := .trailer (line ++ l) } := by
  induction l generalizing h line with
  | nil =>
    rw [List.append_nil, ← hphase]
    exact Reads.nil h
  | cons c l ih =>
    obtain ⟨hc, hl⟩ := List.forall_mem_cons.mp hl
    rw [List.length_cons] at hlen
    have hnext : h.next c = { h with phase := .trailer (line ++ [c]) } := by
      simp only [Heard.next, hphase, if_neg (not_or.mpr hc), Heard.trailerByte]
      rw [if_neg (by omega)]
    refine Reads.cons (by rw [hphase]; rfl) ?_
    rw [hnext]
    have hrest := ih (h := { h with phase := .trailer (line ++ [c]) }) hl (line ++ [c])
      (by rw [List.length_append, List.length_singleton]; omega) rfl
    rw [List.append_assoc, List.singleton_append] at hrest
    exact hrest

/-- The end of a line of the trailer. -/
theorem reads_trailerLine {line : Bytes} (hphase : h.phase = .trailer line) (hne : line ≠ [])
    (hlen : line.length + 2 + 1 ≤ dynH1Trailer) :
    Reads h crlf { h with phase := .trailerEnd, trailers := h.trailers ++ [line ++ crlf] } := by
  have hcr : h.next 0x0d = { h with
      phase := .trailerCr, trailers := h.trailers ++ [line ++ crlf] } := by
    simp only [Heard.next, hphase, true_or, if_true, if_neg hne]
    rw [if_neg (by omega)]
    rfl
  refine Reads.cons (by rw [hphase]; rfl) ?_
  rw [hcr]
  exact Reads.cons rfl (Reads.nil _)

/-- A line of the trailer is read back. -/
theorem reads_trailer {line : Bytes} (hne : line ≠ []) (hline : ∀ c ∈ line, c ≠ 0x0d ∧ c ≠ 0x0a)
    (hlen : line.length + 2 + 1 ≤ dynH1Trailer) (hat : AtLine h) :
    Reads h (line ++ crlf)
      { h with phase := .trailerEnd, trailers := h.trailers ++ [line ++ crlf] } := by
  cases line with
  | nil => exact absurd rfl hne
  | cons c line =>
    obtain ⟨hc, hline⟩ := List.forall_mem_cons.mp hline
    have hnext : h.next c = { h with phase := .trailer [c] } := by
      rcases hat with hphase | hphase <;>
        simp [Heard.next, hphase, hc.1, hc.2, Heard.trailerByte, dynH1Trailer]
    rw [List.length_cons] at hlen
    have hbytes := reads_trailerBytes (h := { h with phase := .trailer [c] }) line hline [c]
      (by rw [List.length_singleton]; omega) rfl
    refine Reads.cons hat.pending ?_
    rw [hnext]
    have hshort : ([c] ++ line).length + 2 + 1 ≤ dynH1Trailer := by
      rw [List.singleton_append, List.length_cons]
      omega
    exact hbytes.append (reads_trailerLine rfl (List.cons_ne_nil c line) hshort)

theorem reads_trailers (lines : List Bytes)
    (hlines : ∀ line ∈ lines, line ≠ [] ∧ line.length + 2 + 1 ≤ dynH1Trailer ∧
      ∀ c ∈ line, c ≠ 0x0d ∧ c ≠ 0x0a) (hat : AtLine h) :
    ∃ h', Reads h (lines.flatMap fun line => line ++ crlf) h' ∧ AtLine h' ∧ h'.body = h.body ∧
      h'.trailers = h.trailers ++ lines.map fun line => line ++ crlf := by
  induction lines generalizing h with
  | nil => exact ⟨h, Reads.nil h, hat, rfl, by simp⟩
  | cons line lines ih =>
    obtain ⟨⟨hne, hlen, hline⟩, hrest⟩ := List.forall_mem_cons.mp hlines
    have hfirst := reads_trailer hne hline hlen hat
    obtain ⟨h', hreads, hat', hbody, htrailers⟩ := ih (h := { h with
      phase := .trailerEnd, trailers := h.trailers ++ [line ++ crlf] }) hrest (.inr rfl)
    refine ⟨h', ?_, hat', hbody, ?_⟩
    · rw [List.flatMap_cons]
      exact hfirst.append hreads
    · rw [htrailers, List.map_cons, List.append_assoc, List.singleton_append]

theorem reads_lastLine (hat : AtLine h) : Reads h crlf { h with phase := .done } := by
  have hcr : h.next 0x0d = { h with phase := .stop } := by
    rcases hat with hphase | hphase <;> simp [Heard.next, hphase, Heard.lastLine]
  refine Reads.cons hat.pending ?_
  rw [hcr]
  exact Reads.cons rfl (Reads.nil _)

theorem ne_nil_of_isTrailer {line : Bytes} (h : isTrailer line = true) : line ≠ [] := by
  rintro rfl
  exact absurd h (by decide)

/-- **The last chunk is read back**, with the trailer. -/
theorem reads_lastChunk {callback : TrailerCallback} (hcallback : callback.Fine)
    (habort : callback ≠ .aborts) (hphase : h.phase = .size []) :
    Reads h (lastChunk callback)
      { phase := .done, body := h.body, trailers := h.trailers ++ trailersOf callback } := by
  have hhead := reads_head (n := 0) (by decide) hphase
  rw [if_pos rfl] at hhead
  cases callback with
  | aborts => exact absurd rfl habort
  | unset =>
    have hlast := hhead.append (reads_lastLine (.inl rfl))
    rw [trailersOf, List.append_nil]
    exact hlast
  | lines trailers =>
    have hlines : ∀ line ∈ trailers.filter isTrailer, line ≠ [] ∧
        line.length + 2 + 1 ≤ dynH1Trailer ∧ ∀ c ∈ line, c ≠ 0x0d ∧ c ≠ 0x0a := fun line hline =>
      ⟨ne_nil_of_isTrailer (List.mem_filter.mp hline).2, hcallback line hline⟩
    obtain ⟨h', hreads, hat, hbody, htrailers⟩ := reads_trailers
      (h := { h with phase := .trailer [] }) _ hlines (.inl rfl)
    have hall := (hhead.append hreads).append (reads_lastLine hat)
    have htext : lastChunk (.lines trailers) = hex 0 ++ crlf
        ++ ((trailers.filter isTrailer).flatMap fun line => line ++ crlf) ++ crlf := by
      have hflat : ∀ l : List Bytes, (l.flatMap fun line => [line, crlf]).flatten
          = l.flatMap fun line => line ++ crlf := by
        intro l
        induction l with
        | nil => rfl
        | cons line l ih => simp [List.flatMap_cons, ih]
      rw [lastChunk, lastPieces, List.cons_append, List.flatten_cons, List.flatten_append, hflat]
      simp [hex, crlf]
    rw [htext, trailersOf, ← hbody, ← htrailers]
    exact hall

end

/-! ### One read -/

section

variable {q : Bufq}

/-- A soft limit lets every write through. -/
theorem write_soft (hq : q.Sound) (hsoft : q.softLimit = true) (buf : Bytes) :
    ∃ q' n, q.write buf = some (q', n, .ok) ∧ q'.Sound ∧ q'.softLimit = true ∧
      q'.view.unread = q.view.unread ++ buf := by
  obtain ⟨q', hrun, hsound, hlimits, hview⟩ := q.writeLoop_spec buf.length buf 0 hq (Nat.le_refl _)
  have hsoft' : q.limits.softLimit = true := hsoft
  have hall : q.view.accepts q.limits buf.length = buf.length := by
    rw [ByteFifo.accepts, hsoft', if_pos rfl]
  have hno : ¬ (0 + buf.length = 0 ∧ buf ≠ []) := fun h =>
    h.2 (List.eq_nil_of_length_eq_zero ((Nat.zero_add _).symm.trans h.1))
  rw [hall, if_neg hno] at hrun
  refine ⟨q', _, hrun, hsound, (congrArg Limits.softLimit hlimits).trans hsoft, ?_⟩
  rw [hview, ByteFifo.write, hall, List.take_length]

theorem cwrites_soft (pieces : List Bytes) (q : Bufq) (hq : q.Sound) (hsoft : q.softLimit = true) :
    ∃ q', cwrites q pieces = some (q', .ok) ∧ q'.Sound ∧ q'.softLimit = true ∧
      q'.view.unread = q.view.unread ++ pieces.flatten := by
  induction pieces generalizing q with
  | nil => exact ⟨q, rfl, hq, hsoft, by simp⟩
  | cons piece pieces ih =>
    obtain ⟨q₁, n, hwrite, hsound₁, hsoft₁, hview₁⟩ := write_soft hq hsoft piece
    obtain ⟨q₂, hrest, hsound₂, hsoft₂, hview₂⟩ := ih q₁ hsound₁ hsoft₁
    refine ⟨q₂, ?_, hsound₂, hsoft₂, ?_⟩
    · rw [cwrites, hwrite, Option.bind_some, if_pos rfl, hrest]
    · rw [hview₂, hview₁, List.flatten_cons, List.append_assoc]

theorem read_some (hq : q.Sound) {blen : Nat} (hblen : 0 < blen) (hne : q.view.unread ≠ []) :
    ∃ q', q.read blen = some (q', q.view.unread.take blen, .ok) ∧ q'.Sound ∧
      q'.softLimit = q.softLimit ∧ q'.view.unread = q.view.unread.drop blen := by
  obtain ⟨q', hrun, hsound, hlimits, hview⟩ := q.readLoop_spec q.chunks.length blen [] hq
    (Nat.le_refl _)
  have hsome : q.view.unread.take blen ≠ [] := by
    rw [ne_eq, List.take_eq_nil_iff]
    exact fun h => h.elim (by omega) hne
  refine ⟨q', ?_, hsound, congrArg Limits.softLimit hlimits, by rw [hview]; rfl⟩
  rw [Bufq.read, hrun, List.nil_append, Option.map_some]
  simp only [if_neg hsome]

end

theorem chunkSizeFor_bounds (blen : Nat) : 0 < chunkSizeFor blen ∧ chunkSizeFor blen < 16 ^ 4 := by
  rw [chunkSizeFor, curlChunkedMaxlen, curlChunkedMinlen]
  split <;> omega

theorem chunkPieces_flatten {bytes : Bytes} (hlen : bytes.length < 16 ^ 4) :
    (chunkPieces bytes).flatten = if bytes = [] then [] else frame bytes := by
  rw [chunkPieces]
  by_cases hne : bytes = []
  · simp [hne]
  · have hhead : (hex bytes.length ++ crlf).length ≤ 10 := by
      have := (length_hex hlen).1
      rw [List.length_append, crlf]
      simp only [List.length_cons, List.length_nil]
      omega
    rw [if_pos hne, if_neg hne, List.take_of_length_le hhead, frame]
    simp

section

variable {σ : Type} {source : Source σ} {callback : TrailerCallback} {remaining : σ → Bytes}

/-- A source gives the front of what remains, and says that it has ended only where nothing does. -/
def Delivers (source : Source σ) (remaining : σ → Bytes) : Prop :=
  ∀ s n s' bytes eos, source.read s n = (s', .ok (bytes, eos)) →
    remaining s = bytes ++ remaining s' ∧ (eos = true → remaining s' = [])

/-- A source that is neither paused nor fails. -/
def Ready (source : Source σ) : Prop :=
  ∀ s n, 0 < n → ∃ s' bytes eos, source.read s n = (s', .ok (bytes, eos)) ∧ (bytes ≠ [] ∨ eos = true)

/-- What has been sent and what is in the buffer are the chunks made of what has been read. -/
structure Encoded (remaining : σ → Bytes) (callback : TrailerCallback) (content : Bytes) (s : σ)
    (ctx : ChunkedReader) (sent : Bytes) (chunks : List Bytes) : Prop where
  sound : ctx.chunkbuf.Sound
  soft : ctx.chunkbuf.softLimit = true
  small : ∀ c ∈ chunks, c ≠ [] ∧ c.length < 16 ^ 4
  content_eq : content = chunks.flatten ++ remaining s
  encoded : sent ++ ctx.chunkbuf.view.unread
    = chunks.flatMap frame ++ if ctx.readEos then lastChunk callback else []
  ended : ctx.readEos = true → remaining s = [] ∧ callback ≠ .aborts

/-- An upload between two reads. -/
structure Sending (remaining : σ → Bytes) (callback : TrailerCallback) (content : Bytes)
    (u : Upload σ) (chunks : List Bytes) : Prop extends
    Encoded remaining callback content u.s u.ctx u.sent chunks where
  done : u.ctx.eos = true ↔ u.ctx.readEos = true ∧ u.ctx.chunkbuf.view.unread = []
  finished_eq : u.finished = u.ctx.eos
  code_ok : u.code = .ok

theorem sending_start (s : σ) : Sending remaining callback (remaining s) { s := s } [] where
  sound := Bufq.sound_init (by decide) (by decide) true false
  soft := rfl
  small := by simp
  content_eq := rfl
  encoded := rfl
  ended := by simp
  done := by simp
  finished_eq := rfl
  code_ok := rfl

/-- `add_chunk` fails, or puts a chunk and perhaps the last one into the empty buffer. -/
theorem addChunk_spec (callback : TrailerCallback) (hsource : Delivers source remaining) {s : σ}
    {ctx : ChunkedReader} {blen : Nat}
    (hsound : ctx.chunkbuf.Sound) (hsoft : ctx.chunkbuf.softLimit = true)
    (hread : ctx.readEos = false) (hempty : ctx.chunkbuf.view.unread = []) :
    (∃ s' ctx' e, addChunk source callback s ctx blen = some (s', ctx', e) ∧ e ≠ .ok ∧
        (Ready source → callback = .aborts)) ∨
      ∃ s' ctx' bytes, addChunk source callback s ctx blen = some (s', ctx', .ok) ∧
        (Ready source → bytes ≠ [] ∨ ctx'.readEos = true) ∧
        ctx'.eos = ctx.eos ∧ ctx'.chunkbuf.Sound ∧ ctx'.chunkbuf.softLimit = true ∧
        bytes.length < 16 ^ 4 ∧ remaining s = bytes ++ remaining s' ∧
        (ctx'.readEos = true → remaining s' = [] ∧ callback ≠ .aborts) ∧
        ctx'.chunkbuf.view.unread = (if bytes = [] then [] else frame bytes) ++
          if ctx'.readEos then lastChunk callback else [] := by
  rw [addChunk]
  cases hsrc : source.read s (chunkSizeFor blen) with
  | mk s' r =>
    cases r with
    | error e =>
      refine .inl ⟨s', ctx, e, rfl, source.error_ne _ _ _ _ hsrc, fun hready => ?_⟩
      obtain ⟨s'', bytes, eos, hok, -⟩ := hready s _ (chunkSizeFor_bounds blen).1
      rw [hsrc] at hok
      exact absurd (Prod.mk.inj hok).2 (by simp)
    | ok r =>
      obtain ⟨bytes, eos⟩ := r
      have hgives : Ready source → bytes ≠ [] ∨ eos = true := fun hready => by
        obtain ⟨s'', bytes', eos', hok, hmore⟩ := hready s _ (chunkSizeFor_bounds blen).1
        rw [hsrc] at hok
        obtain ⟨rfl, rfl⟩ := Prod.mk.inj (Except.ok.inj (Prod.mk.inj hok).2)
        exact hmore
      obtain ⟨hrem, hend⟩ := hsource _ _ _ _ _ hsrc
      have hlen : bytes.length < 16 ^ 4 :=
        Nat.lt_of_le_of_lt (source.fits _ _ _ _ _ hsrc) (chunkSizeFor_bounds blen).2
      obtain ⟨q₁, hrun₁, hsound₁, hsoft₁, hview₁⟩ := cwrites_soft (chunkPieces bytes) _ hsound hsoft
      rw [hempty, List.nil_append, chunkPieces_flatten hlen] at hview₁
      dsimp only
      rw [hrun₁, Option.bind_some, hread, Bool.false_or]
      dsimp only
      rw [if_neg (by decide)]
      cases eos with
      | false =>
        refine .inr ⟨s', _, bytes, if_neg (by decide), hgives, rfl, hsound₁, hsoft₁, hlen, hrem,
          by simp, ?_⟩
        rw [hview₁]
        simp
      | true =>
        obtain ⟨q₂, hrun₂, hsound₂, hsoft₂, hview₂⟩ := cwrites_soft (lastPieces callback) q₁ hsound₁
          hsoft₁
        rw [if_pos rfl, addLastChunk, hrun₂]
        by_cases habort : callback = .aborts
        · refine .inl ⟨s', { ctx with chunkbuf := q₂, readEos := true }, .abortedByCallback, ?_,
            by decide, fun _ => habort⟩
          rw [habort]
          rfl
        · refine .inr ⟨s', { ctx with chunkbuf := q₂, readEos := true }, bytes, ?_, fun _ => .inr rfl,
            rfl, hsound₂, hsoft₂, hlen, hrem, fun _ => ⟨hend rfl, habort⟩, ?_⟩
          · cases callback with
            | aborts => exact absurd rfl habort
            | _ => rfl
          · rw [if_pos rfl]
            dsimp only
            rw [hview₂, hview₁]
            rfl

theorem lastChunk_ne_nil (callback : TrailerCallback) : lastChunk callback ≠ [] := by
  cases callback <;> simp [lastChunk, lastPieces]

theorem frame_ne_nil (bytes : Bytes) : frame bytes ≠ [] := by
  simp [frame, crlf]

/-- The chunk that `add_chunk` makes, if there is one, is the next of the body. -/
theorem addChunk_encoded (hsource : Delivers source remaining) {content : Bytes} {s : σ}
    {ctx : ChunkedReader} {sent : Bytes} {chunks : List Bytes}
    (h : Encoded remaining callback content s ctx sent chunks) (hread : ctx.readEos = false)
    (hempty : ctx.chunkbuf.view.unread = []) (blen : Nat) :
    (∃ s' ctx' e, addChunk source callback s ctx blen = some (s', ctx', e) ∧ e ≠ .ok ∧
        (Ready source → callback = .aborts)) ∨
      ∃ s' ctx' chunks', addChunk source callback s ctx blen = some (s', ctx', .ok) ∧
        ctx'.eos = ctx.eos ∧ Encoded remaining callback content s' ctx' sent chunks' ∧
        (ctx'.readEos = true → ctx'.chunkbuf.view.unread ≠ []) ∧
        (Ready source → ctx'.chunkbuf.view.unread ≠ []) := by
  have hsent := h.encoded
  rw [hempty, hread, List.append_nil, if_neg (by decide), List.append_nil] at hsent
  refine (addChunk_spec callback hsource h.sound h.soft hread hempty).imp_right ?_
  rintro ⟨s', ctx', bytes, hadd, hgives, heos, hsound, hsoft, hlen, hrem, hend, hview⟩
  have hlast : ctx'.readEos = true → ctx'.chunkbuf.view.unread ≠ [] := by
    intro hr hnil
    rw [hview, if_pos hr] at hnil
    exact lastChunk_ne_nil callback (List.append_eq_nil_iff.mp hnil).2
  refine ⟨s', ctx', chunks ++ if bytes = [] then [] else [bytes], hadd, heos, ?_, hlast, ?_⟩
  · refine { sound := hsound, soft := hsoft, small := ?_, content_eq := ?_, encoded := ?_,
             ended := hend }
    · refine List.forall_mem_append.mpr ⟨h.small, fun c hc => ?_⟩
      by_cases hbytes : bytes = []
      · rw [if_pos hbytes] at hc
        exact absurd hc List.not_mem_nil
      · rw [if_neg hbytes, List.mem_singleton] at hc
        exact hc ▸ ⟨hbytes, hlen⟩
    · rw [h.content_eq, hrem, List.flatten_append, List.append_assoc]
      split <;> simp_all
    · rw [hview, hsent, List.flatMap_append, ← List.append_assoc]
      split <;> simp
  · intro hready
    rcases hgives hready with hbytes | hr
    · rw [hview, if_neg hbytes]
      exact fun hnil => frame_ne_nil bytes (List.append_eq_nil_iff.mp hnil).1
    · exact hlast hr

/-- What is handed out has been sent. -/
theorem handOut_spec {content : Bytes} {s : σ} {ctx : ChunkedReader} {sent : Bytes}
    {chunks : List Bytes} (h : Encoded remaining callback content s ctx sent chunks)
    (heos : ctx.eos = false) (hread : ctx.readEos = true → ctx.chunkbuf.view.unread ≠ []) {blen : Nat}
    (hblen : 0 < blen) :
    ∃ ctx' r, handOut s ctx blen = some (s, ctx', r) ∧ r.code = .ok ∧ r.eos = ctx'.eos ∧
      Encoded remaining callback content s ctx' (sent ++ r.bytes) chunks ∧
      (ctx'.eos = true ↔ ctx'.readEos = true ∧ ctx'.chunkbuf.view.unread = []) ∧
      (ctx.chunkbuf.view.unread ≠ [] → r.bytes ≠ []) := by
  rw [handOut]
  by_cases hempty : ctx.chunkbuf.view.unread = []
  · have hno : ¬ ctx.readEos = true := fun hr => hread hr hempty
    rw [if_neg (not_not_intro (h.sound.isEmpty_iff.mpr hempty))]
    refine ⟨ctx, { eos := ctx.eos }, rfl, rfl, rfl, ?_, ?_, fun hne => absurd hempty hne⟩
    · rw [List.append_nil]
      exact h
    · simp [heos, hno]
  · obtain ⟨q', hrun, hsound, hsoft, hview⟩ := read_some h.sound hblen hempty
    rw [if_pos fun hq => hempty (h.sound.isEmpty_iff.mp hq), hrun]
    refine ⟨_, _, rfl, rfl, rfl, ?_, ?_, ?_⟩
    · exact { h with
        sound := hsound
        soft := hsoft.trans h.soft
        encoded := by
          dsimp only
          rw [hview, List.append_assoc, List.take_append_drop]
          exact h.encoded }
    · simp [hsound.isEmpty_iff]
    · intro _
      dsimp only
      rw [ne_eq, List.take_eq_nil_iff]
      exact fun hnil => hnil.elim (by omega) hempty

/-- **One more read**: the upload goes on, with at least a byte more unless it has ended or the source
has nothing; or it fails before it has ended and sends nothing more. -/
theorem read_sending (hsource : Delivers source remaining) {content : Bytes} {u : Upload σ}
    {chunks : List Bytes} (hu : Sending remaining callback content u chunks) {blen : Nat}
    (hblen : 0 < blen) :
    (∃ chunks', Sending remaining callback content (u.read source callback blen) chunks' ∧
      (u.finished = true → (u.read source callback blen).finished = true) ∧
      (u.finished = false → Ready source →
        u.sent.length < (u.read source callback blen).sent.length)) ∨
      ((u.read source callback blen).code ≠ .ok ∧ (u.read source callback blen).sent = u.sent ∧
        (u.read source callback blen).finished = false ∧ u.finished = false ∧
        (Ready source → callback = .aborts)) := by
  rw [Upload.read, if_neg (not_not_intro hu.code_ok), crChunkedRead]
  by_cases heos : u.ctx.eos = true
  · rw [if_pos heos]
    have hfinished : u.finished = true := hu.finished_eq.trans heos
    refine .inl ⟨chunks, { hu.toEncoded with
      encoded := ?_, done := hu.done, finished_eq := heos.symm, code_ok := rfl },
      fun _ => rfl, fun h => absurd (h.symm.trans hfinished) (by decide)⟩
    dsimp only
    rw [List.append_nil, hu.encoded]
  · rw [if_neg heos]
    have hfalse : u.ctx.eos = false := Bool.eq_false_of_not_eq_true heos
    have hunfinished : u.finished = false := hu.finished_eq.trans hfalse
    have hgrows : ∀ {bytes : Bytes}, bytes ≠ [] → u.sent.length < (u.sent ++ bytes).length := by
      intro bytes hne
      rw [List.length_append]
      exact Nat.lt_add_of_pos_right (List.length_pos_of_ne_nil hne)
    by_cases hmore : ¬ u.ctx.readEos = true ∧ u.ctx.chunkbuf.isEmpty = true
    · rw [if_pos hmore]
      have hread : u.ctx.readEos = false := Bool.eq_false_of_not_eq_true hmore.1
      have hempty := hu.sound.isEmpty_iff.mp hmore.2
      rcases addChunk_encoded hsource hu.toEncoded hread hempty blen with
        ⟨s', ctx', e, hadd, he, hwhy⟩ | ⟨s', ctx', chunks', hadd, heos', hnew, hlast, hdue⟩
      · refine .inr ?_
        rw [hadd, Option.bind_some, if_pos he]
        exact ⟨he, List.append_nil _, rfl, hunfinished, hwhy⟩
      · obtain ⟨ctx₁, r, hout, hcode, hr, henc, hdone, hbytes⟩ :=
          handOut_spec hnew (heos'.trans hfalse) hlast hblen
        refine .inl ⟨chunks', ?_⟩
        rw [hadd, Option.bind_some, if_neg (not_not_intro rfl), hout]
        exact ⟨{ henc with done := hdone, finished_eq := hr, code_ok := hcode },
          fun h => absurd (hunfinished.symm.trans h) (by decide),
          fun _ hready => hgrows (hbytes (hdue hready))⟩
    · rw [if_neg hmore]
      have hdue : u.ctx.chunkbuf.view.unread ≠ [] := by
        intro hnil
        by_cases hr : u.ctx.readEos = true
        · exact heos (hu.done.mpr ⟨hr, hnil⟩)
        · exact hmore ⟨hr, hu.sound.isEmpty_iff.mpr hnil⟩
      obtain ⟨ctx₁, r, hout, hcode, hr, henc, hdone, hbytes⟩ :=
        handOut_spec hu.toEncoded hfalse (fun _ => hdue) hblen
      refine .inl ⟨chunks, ?_⟩
      rw [hout]
      exact ⟨{ henc with done := hdone, finished_eq := hr, code_ok := hcode },
        fun h => absurd (hunfinished.symm.trans h) (by decide), fun _ _ => hgrows (hbytes hdue)⟩

/-- A failed upload sends nothing more. -/
theorem run_failed (sizes : List Nat) {u : Upload σ} (hcode : u.code ≠ .ok) :
    sizes.foldl (Upload.read source callback) u = u := by
  induction sizes with
  | nil => rfl
  | cons n sizes ih => rw [List.foldl_cons, Upload.read, if_pos hcode, ih]

/-- A failed upload has sent what one that goes on had, and has not ended. -/
theorem run_sending (hsource : Delivers source remaining) {content : Bytes} (sizes : List Nat)
    (hsizes : ∀ n ∈ sizes, 0 < n) {u : Upload σ} {chunks : List Bytes}
    (hu : Sending remaining callback content u chunks) :
    ∃ v chunks', Sending remaining callback content v chunks' ∧
      (sizes.foldl (Upload.read source callback) u).sent = v.sent ∧
      (sizes.foldl (Upload.read source callback) u).finished = v.finished := by
  induction sizes generalizing u chunks with
  | nil => exact ⟨u, chunks, hu, rfl, rfl⟩
  | cons n sizes ih =>
    obtain ⟨hn, hsizes⟩ := List.forall_mem_cons.mp hsizes
    rw [List.foldl_cons]
    rcases read_sending hsource hu hn with ⟨chunks', hu', -⟩ | ⟨hcode, hsent, hfinished, hbefore, -⟩
    · exact ih hsizes hu'
    · rw [run_failed sizes hcode]
      exact ⟨u, chunks, hu, hsent, hfinished.trans hbefore.symm⟩

/-- A callback that aborts keeps the upload from ending. -/
theorem run_aborts (hsource : Delivers source remaining) (s : σ) (sizes : List Nat)
    (hsizes : ∀ n ∈ sizes, 0 < n) :
    (sizes.foldl (Upload.read source .aborts) { s := s }).finished = false := by
  obtain ⟨v, chunks, hv, -, hfinished⟩ := run_sending hsource sizes hsizes (sending_start s)
  rw [hfinished, hv.finished_eq]
  refine Bool.eq_false_of_not_eq_true fun heos => ?_
  exact (hv.ended (hv.done.mp heos).1).2 rfl

end

/-! ### What the other side has -/

theorem body_next (h : Heard) (c : UInt8) : h.body <+: (h.next c).body := by
  simp only [Heard.next, Heard.sizeLine, Heard.lastLine, Heard.trailerByte]
  split <;> (repeat' split) <;> first | exact List.prefix_rfl | exact List.prefix_append _ _

theorem body_foldl (l : Bytes) (h : Heard) : h.body <+: (l.foldl Heard.next h).body := by
  induction l generalizing h with
  | nil => exact List.prefix_rfl
  | cons c l ih => exact (body_next h c).trans (ih (h.next c))

theorem result_pending {h : Heard} (hpending : pending h.phase = true) :
    h.result.2.2 = .partialFile := by
  rw [Heard.result]
  cases hphase : h.phase <;> simp_all [pending]

/-- A part of what leads on: more has to come, and the body so far is the front of the body. -/
theorem Reads.part {h h' : Heard} {p r : Bytes} (hreads : Reads h (p ++ r) h')
    (hmore : r ≠ [] ∨ pending h'.phase = true) :
    (p.foldl Heard.next h).result.2.2 = .partialFile ∧ (p.foldl Heard.next h).body <+: h'.body := by
  refine ⟨result_pending ?_, ?_⟩
  · by_cases hr : r = []
    · have hall := hreads.1
      rw [hr, List.append_nil] at hall
      rw [hall]
      exact hmore.resolve_left (not_not_intro hr)
    · exact hreads.2 p r rfl hr
  · have hbody := body_foldl r (p.foldl Heard.next h)
    rwa [← List.foldl_append, hreads.1] at hbody

section

variable {σ : Type} {source : Source σ} {callback : TrailerCallback} {remaining : σ → Bytes}

/-- What has been sent, as the other side reads it. -/
theorem sent_read (hcallback : callback.Fine) {content : Bytes} {u : Upload σ} {chunks : List Bytes}
    (hu : Sending remaining callback content u chunks) :
    (u.finished = true → (u.sent.foldl Heard.next {}).result = (content, trailersOf callback, .ok)) ∧
      (u.finished = false → (u.sent.foldl Heard.next {}).result.2.2 = .partialFile ∧
        (u.sent.foldl Heard.next {}).body <+: content) := by
  have hframes := reads_frames (h := {}) chunks hu.small rfl
  have hencoded := hu.encoded
  have hcontent := hu.content_eq
  by_cases hread : u.ctx.readEos = true
  · obtain ⟨hend, habort⟩ := hu.ended hread
    have hlast := hframes.append (reads_lastChunk hcallback habort rfl)
    rw [hend, List.append_nil] at hcontent
    rw [if_pos hread] at hencoded
    rw [← hencoded, List.nil_append, List.nil_append] at hlast
    refine ⟨fun hfinished => ?_, fun hfinished => ?_⟩
    · have hempty := (hu.done.mp (hu.finished_eq.symm.trans hfinished)).2
      have hall := hlast.1
      rw [hempty, List.append_nil] at hall
      rw [hall, hcontent]
      rfl
    · have hdue : u.ctx.chunkbuf.view.unread ≠ [] := fun hnil => by
        have heos := hu.done.mpr ⟨hread, hnil⟩
        rw [← hu.finished_eq, hfinished] at heos
        exact absurd heos (by decide)
      rw [hcontent]
      exact hlast.part (.inl hdue)
  · rw [if_neg hread, List.append_nil] at hencoded
    rw [← hencoded] at hframes
    refine ⟨fun hfinished => ?_, fun _ => ?_⟩
    · exact absurd (hu.done.mp (hu.finished_eq.symm.trans hfinished)).1 hread
    · obtain ⟨hcode, hbody⟩ := hframes.part (.inr rfl)
      refine ⟨hcode, hbody.trans ?_⟩
      rw [hcontent]
      exact List.prefix_append _ _

/-- **An upload arrives.**  Whatever the next reader gives at a time, however large the buffers are that
are asked for, and however the network cuts what is sent: when the upload has ended, the other side
has the body, the trailer and a good end; before that, or where it fails, the other side has the
front of the body and knows that the rest is missing. -/
theorem upload_decodes (hsource : Delivers source remaining) (hcallback : callback.Fine) (s : σ)
    (sizes : List Nat) (hsizes : ∀ n ∈ sizes, 0 < n) (pieces : List Bytes)
    (hpieces : pieces.flatten = (sizes.foldl (Upload.read source callback) { s := s }).sent) :
    ((sizes.foldl (Upload.read source callback) { s := s }).finished = true →
        download pieces = (remaining s, trailersOf callback, .ok)) ∧
      ((sizes.foldl (Upload.read source callback) { s := s }).finished = false →
        (download pieces).2.2 = .partialFile ∧ (download pieces).1 <+: remaining s) := by
  obtain ⟨v, chunks, hv, hsent, hfinished⟩ := run_sending hsource sizes hsizes (sending_start s)
  obtain ⟨hall, hpart⟩ := sent_read hcallback hv
  rw [download_eq, hpieces, hsent, hfinished]
  exact ⟨hall, hpart⟩

/-! ### It comes to its end -/

theorem length_frames {chunks : List Bytes} (hchunks : ∀ c ∈ chunks, c ≠ [] ∧ c.length < 16 ^ 4) :
    (chunks.flatMap frame).length ≤ 9 * chunks.flatten.length := by
  induction chunks with
  | nil => exact Nat.le_refl _
  | cons c chunks ih =>
    obtain ⟨⟨hne, hlen⟩, hrest⟩ := List.forall_mem_cons.mp hchunks
    have hpos := List.length_pos_of_ne_nil hne
    have hhex := (length_hex hlen).1
    have hframe : (frame c).length = (hex c.length).length + 2 + c.length + 2 := by
      simp only [frame, crlf, List.length_append, List.length_cons, List.length_nil]
    rw [List.flatMap_cons, List.flatten_cons, List.length_append, List.length_append, hframe]
    have := ih hrest
    omega

theorem Sending.sent_le {content : Bytes} {u : Upload σ} {chunks : List Bytes}
    (hu : Sending remaining callback content u chunks) :
    u.sent.length ≤ 9 * content.length + (lastChunk callback).length := by
  have hsent := congrArg List.length hu.encoded
  have hframes := length_frames hu.small
  have hcontent := congrArg List.length hu.content_eq
  have hlast : (if u.ctx.readEos then lastChunk callback else []).length
      ≤ (lastChunk callback).length := by
    split
    · exact Nat.le_refl _
    · exact Nat.zero_le _
  rw [List.length_append, List.length_append] at hsent
  rw [List.length_append] at hcontent
  omega

/-- Each read sends at least a byte until the upload has ended. -/
theorem run_progress (hsource : Delivers source remaining) (hready : Ready source)
    (habort : callback ≠ .aborts) {content : Bytes} (sizes : List Nat) (hsizes : ∀ n ∈ sizes, 0 < n)
    {u : Upload σ} {chunks : List Bytes} (hu : Sending remaining callback content u chunks) :
    (∃ chunks', Sending remaining callback content
        (sizes.foldl (Upload.read source callback) u) chunks') ∧
      (u.finished = true → (sizes.foldl (Upload.read source callback) u).finished = true) ∧
      ((sizes.foldl (Upload.read source callback) u).finished = true ∨
        u.sent.length + sizes.length ≤ (sizes.foldl (Upload.read source callback) u).sent.length) := by
  induction sizes generalizing u chunks with
  | nil => exact ⟨⟨chunks, hu⟩, id, .inr (Nat.le_refl _)⟩
  | cons n sizes ih =>
    obtain ⟨hn, hsizes⟩ := List.forall_mem_cons.mp hsizes
    rw [List.foldl_cons]
    rcases read_sending hsource hu hn with ⟨chunks', hu', hstays, hgrows⟩ | ⟨-, -, -, -, hwhy⟩
    · obtain ⟨hsending, hfinished, hlong⟩ := ih hsizes hu'
      refine ⟨hsending, fun h => hfinished (hstays h), ?_⟩
      cases hend : u.finished with
      | true => exact .inl (hfinished (hstays hend))
      | false =>
        have hlt := hgrows hend hready
        rw [List.length_cons]
        exact hlong.imp_right fun h => by omega
    · exact absurd (hwhy hready) habort

/-- Enough reads end an upload. -/
theorem run_ends (hsource : Delivers source remaining) (hready : Ready source)
    (habort : callback ≠ .aborts) (s : σ) (sizes : List Nat) (hsizes : ∀ n ∈ sizes, 0 < n)
    (henough : 9 * (remaining s).length + (lastChunk callback).length < sizes.length) :
    ∃ chunks, Sending remaining callback (remaining s)
        (sizes.foldl (Upload.read source callback) { s := s }) chunks ∧
      (sizes.foldl (Upload.read source callback) { s := s }).finished = true := by
  obtain ⟨⟨chunks, hsending⟩, -, hlong⟩ := run_progress hsource hready habort sizes hsizes
    (sending_start s)
  refine ⟨chunks, hsending, hlong.resolve_right fun hle => ?_⟩
  have hsent := hsending.sent_le
  omega

/-- A read before the end sends at least a byte. -/
theorem read_sends (hsource : Delivers source remaining) (hready : Ready source)
    (habort : callback ≠ .aborts) (s : σ) (sizes : List Nat) (hsizes : ∀ n ∈ sizes, 0 < n) {n : Nat}
    (hn : 0 < n)
    (hmore : (sizes.foldl (Upload.read source callback) { s := s }).finished = false) :
    (sizes.foldl (Upload.read source callback) { s := s }).sent.length
      < ((sizes.foldl (Upload.read source callback) { s := s }).read source callback n).sent.length := by
  obtain ⟨⟨chunks, hsending⟩, -, -⟩ := run_progress hsource hready habort sizes hsizes
    (sending_start s)
  rcases read_sending hsource hsending hn with ⟨-, -, -, hgrows⟩ | ⟨-, -, -, -, hwhy⟩
  · exact hgrows hmore hready
  · exact absurd (hwhy hready) habort

/-- **An upload comes to its end** after a number of reads that the body and the trailer bound,
if the next reader is neither paused nor fails, with at least a byte for each read before it; and then
the other side has it. -/
theorem upload_completes (hsource : Delivers source remaining) (hready : Ready source)
    (hcallback : callback.Fine) (habort : callback ≠ .aborts) (s : σ) (sizes : List Nat)
    (hsizes : ∀ n ∈ sizes, 0 < n)
    (henough : 9 * (remaining s).length + (lastChunk callback).length < sizes.length)
    (pieces : List Bytes)
    (hpieces : pieces.flatten = (sizes.foldl (Upload.read source callback) { s := s }).sent) :
    (sizes.foldl (Upload.read source callback) { s := s }).finished = true ∧
      (sizes.foldl (Upload.read source callback) { s := s }).code = .ok ∧
      download pieces = (remaining s, trailersOf callback, .ok) ∧
      ∀ before n after, sizes = before ++ n :: after →
        (before.foldl (Upload.read source callback) { s := s }).finished = false →
        (before.foldl (Upload.read source callback) { s := s }).sent.length
          < ((before ++ [n]).foldl (Upload.read source callback) { s := s }).sent.length := by
  obtain ⟨chunks, hsending, hfinished⟩ := run_ends hsource hready habort s sizes hsizes henough
  refine ⟨hfinished, hsending.code_ok, ?_, fun before n after heq hmore => ?_⟩
  · rw [download_eq, hpieces]
    exact (sent_read hcallback hsending).1 hfinished
  · rw [heq] at hsizes
    obtain ⟨hbefore, hrest⟩ := List.forall_mem_append.mp hsizes
    rw [List.foldl_concat]
    exact read_sends hsource hready habort s before hbefore (List.forall_mem_cons.mp hrest).1 hmore

end

/-- A source of bytes that gives at most `k` of them at a time. -/
def pieceSource (k : Nat) : Source Bytes where
  read s n := (s.drop (min n k), .ok (s.take (min n k), (s.drop (min n k)).isEmpty))
  fits := by
    intro s n s' bytes eos h
    obtain ⟨-, h⟩ := Prod.mk.inj h
    obtain ⟨rfl, -⟩ := Prod.mk.inj (Except.ok.inj h)
    rw [List.length_take]
    omega
  error_ne := by
    intro s n s' e h
    exact absurd (Prod.mk.inj h).2 (by simp)

theorem delivers_pieceSource (k : Nat) : Delivers (pieceSource k) id := by
  intro s n s' bytes eos h
  obtain ⟨rfl, hok⟩ := Prod.mk.inj h
  obtain ⟨rfl, rfl⟩ := Prod.mk.inj (Except.ok.inj hok)
  exact ⟨(List.take_append_drop _ _).symm, List.isEmpty_iff.mp⟩

theorem ready_pieceSource {k : Nat} (hk : 0 < k) : Ready (pieceSource k) := by
  intro s n hn
  refine ⟨_, _, _, rfl, ?_⟩
  by_cases hs : s = []
  · exact .inr (by rw [hs, List.drop_nil]; rfl)
  · refine .inl ?_
    rw [ne_eq, List.take_eq_nil_iff]
    exact fun h => h.elim (by omega) hs

theorem fine_small : (TrailerCallback.lines [[0x61, 0x3a, 0x20, 0x62]]).Fine := by
  intro line hline
  obtain rfl := List.mem_singleton.mp (List.mem_filter.mp hline).1
  refine ⟨?_, by simp⟩
  rw [dynH1Trailer, List.length_cons, List.length_cons, List.length_cons, List.length_singleton]
  omega

theorem sizes_small : ∀ n ∈ List.replicate 60 7, 0 < n := by
  intro n hn
  rw [List.eq_of_mem_replicate hn]
  decide

/-- Three bytes in pieces of two, asked for seven bytes at a time: with a trailer, and with a callback
that aborts. -/
theorem upload_decodes_small :
    download [((List.replicate 60 7).foldl
        (Upload.read (pieceSource 2) (.lines [[0x61, 0x3a, 0x20, 0x62]])) { s := [1, 2, 3] }).sent]
        = ([1, 2, 3], [[0x61, 0x3a, 0x20, 0x62, 0x0d, 0x0a]], .ok) ∧
      (download [((List.replicate 60 7).foldl
        (Upload.read (pieceSource 2) .aborts) { s := [1, 2, 3] }).sent]).2.2 = .partialFile := by
  have habort : TrailerCallback.lines [[0x61, 0x3a, 0x20, 0x62]] ≠ .aborts := by simp
  obtain ⟨chunks, -, hends⟩ := run_ends (delivers_pieceSource 2) (ready_pieceSource (by decide))
    habort [1, 2, 3] (List.replicate 60 7) sizes_small (by decide)
  have hnever := run_aborts (delivers_pieceSource 2) [1, 2, 3] (List.replicate 60 7) sizes_small
  have hwhole := upload_decodes (delivers_pieceSource 2) fine_small [1, 2, 3] (List.replicate 60 7)
    sizes_small [_] (List.append_nil _)
  have hfine : TrailerCallback.aborts.Fine := trivial
  have hpart := upload_decodes (delivers_pieceSource 2) hfine [1, 2, 3] (List.replicate 60 7)
    sizes_small [_] (List.append_nil _)
  exact ⟨hwhole.1 hends, (hpart.2 hnever).1⟩

/-- Three bytes in pieces of two, with a trailer, asked for seven bytes at a time. -/
theorem upload_completes_small :
    download [((List.replicate 60 7).foldl
        (Upload.read (pieceSource 2) (.lines [[0x61, 0x3a, 0x20, 0x62]])) { s := [1, 2, 3] }).sent]
      = ([1, 2, 3], [[0x61, 0x3a, 0x20, 0x62, 0x0d, 0x0a]], .ok) := by
  have hall := upload_completes (delivers_pieceSource 2) (ready_pieceSource (by decide)) fine_small
    (by simp) [1, 2, 3] (List.replicate 60 7) sizes_small (by decide) [_] (List.append_nil _)
  exact hall.2.2.1

end NetMod.ChunkedEncoder
