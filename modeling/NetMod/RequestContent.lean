import NetMod.BlitzText
import NetMod.Lib.ByteMemory
import NetMod.Lib.ChunkedReads
import NetMod.Lib.PartialRuns

/-!
# Request bodies: the built-in `TContent` types and their replay

`TStringContent` and `TBytePtrContent` have the same fields and methods over their bytes;
`TByteArrayContent` and `TBankContent` extend the latter.  They share `MemoryContent` here.
`TStreamContent` reads a `TStream`, of which the model has the bytes, the position and how many
bytes a read gets: at least one before the end, at most what is asked for and there.

An attempt is a list of calls of the read callback.  A retry runs `PrepareForReplay` first; a new
`Send` of the same request starts from wherever the last attempt left the content.
-/

namespace NetMod.RequestContent

open NetMod.BlitzText NetMod.ByteMemory NetMod.ChunkedReads NetMod.PartialRuns

/-- The fields `TStringContent` and `TBytePtrContent` have in common; `data` is the block of `_size`
bytes at `_data`. -/
structure MemoryContent where
  contentType : Text
  data : List UInt8
  pos : UInt64
  size_lt : data.length < 2 ^ 62
deriving DecidableEq

namespace MemoryContent

def size (c : MemoryContent) : UInt64 := UInt64.ofNat c.data.length

/-- `Read`; a copy from outside the block is undefined. -/
def read (c : MemoryContent) (size : UInt64) : Option (MemoryContent × List UInt8) :=
  if c.size ≤ c.pos then some (c, [])
  else
    let toRead := if c.size < c.pos + size then c.size - c.pos else size
    (memcpyFrom (c.data.drop c.pos.toNat) toRead.toNat).map fun out =>
      ({ c with pos := c.pos + toRead }, out)

def rewind (c : MemoryContent) : MemoryContent := { c with pos := 0 }

@[simp] theorem size_toNat (c : MemoryContent) : c.size.toNat = c.data.length := by
  have := c.size_lt
  rw [size, UInt64.toNat_ofNat', Nat.mod_eq_of_lt (by omega)]

theorem read_data (c : MemoryContent) {size : UInt64} {c' : MemoryContent} {out : List UInt8}
    (h : c.read size = some (c', out)) : c'.data = c.data := by
  rw [read] at h
  split at h
  · obtain ⟨rfl, -⟩ := Prod.mk.inj (Option.some.inj h)
    rfl
  · obtain ⟨_, -, h⟩ := Option.map_eq_some_iff.mp h
    obtain ⟨rfl, -⟩ := Prod.mk.inj h
    rfl

/-- **A read of a positive size** returns the front of what is left, and nothing only at the end. -/
theorem read_spec (c : MemoryContent) {size : UInt64} (hpos : 0 < size.toNat)
    (hsize : size.toNat < 2 ^ 62) :
    ∃ c' out, c.read size = some (c', out) ∧
      c.data.drop c.pos.toNat = out ++ c'.data.drop c'.pos.toNat ∧
      (out = [] → c.data.drop c.pos.toNat = []) := by
  have hlen := c.size_lt
  by_cases hend : c.size ≤ c.pos
  · have hle : c.data.length ≤ c.pos.toNat := by
      rw [← c.size_toNat]
      exact UInt64.le_iff_toNat_le.mp hend
    exact ⟨c, [], by simp [read, hend], rfl, fun _ => List.drop_eq_nil_of_le hle⟩
  · have hlt : c.pos.toNat < c.data.length := by
      rw [← c.size_toNat]
      exact UInt64.lt_iff_toNat_lt.mp (UInt64.not_le.mp hend)
    set toRead := if c.size < c.pos + size then c.size - c.pos else size with hto
    have hsum : (c.pos + size).toNat = c.pos.toNat + size.toNat := by
      rw [UInt64.toNat_add, Nat.mod_eq_of_lt (by omega)]
    have hmin : toRead.toNat = min size.toNat (c.data.length - c.pos.toNat) := by
      rw [hto]
      split <;> rename_i hcut <;> rw [UInt64.lt_iff_toNat_lt, hsum, c.size_toNat] at hcut
      · rw [UInt64.toNat_sub_of_le _ _ (UInt64.le_of_lt (UInt64.not_le.mp hend)), c.size_toNat]
        omega
      · omega
    have hnew : (c.pos + toRead).toNat = c.pos.toNat + toRead.toNat := by
      rw [UInt64.toNat_add, Nat.mod_eq_of_lt (by omega)]
    have hcopy := memcpyFrom_spec (c.data.drop c.pos.toNat) toRead.toNat
      (by rw [List.length_drop]; omega)
    refine ⟨{ c with pos := c.pos + toRead }, (c.data.drop c.pos.toNat).take toRead.toNat, ?_, ?_, ?_⟩
    · simp only [read, if_neg hend, ← hto, hcopy, Option.map_some]
    · rw [hnew, ← List.drop_drop, List.take_append_drop]
    · intro hnil
      have := congrArg List.length hnil
      rw [List.length_take, List.length_drop, List.length_nil] at this
      omega

end MemoryContent

/-- A stream at a position. -/
structure TStream where
  bytes : List UInt8
  pos : Nat
  seekable : Bool
  /-- how many bytes a read of a given size gets at a position -/
  gets : Nat → Nat → Nat
  gets_le : ∀ p n, gets p n ≤ min n (bytes.length - p)
  gets_pos : ∀ p n, 0 < n → p < bytes.length → 0 < gets p n

namespace TStream

def read (s : TStream) (n : Nat) : TStream × List UInt8 :=
  let got := s.gets s.pos n
  ({ s with pos := s.pos + got }, (s.bytes.drop s.pos).take got)

/-- `Seek(0, SEEK_SET_)`: nothing happens on a stream that cannot seek. -/
def seekStart (s : TStream) : TStream := if s.seekable then { s with pos := 0 } else s

/-- `Size()`: -1 on a stream that cannot seek. -/
def size (s : TStream) : Int := if s.seekable then s.bytes.length else -1

end TStream

/-- The built-in contents, each with the fields it has besides.  The block of a string content is the
encoding of its `data`. -/
inductive TContent where
  | string (c : MemoryContent) (data : Text) (encoded : toUTF8String data = c.data)
  | bytePtr (c : MemoryContent)
  | byteArray (c : MemoryContent) (dataArray : List UInt8)
  | bank (c : MemoryContent) (bank : List UInt8)
  | stream (stream : TStream) (length : Int) (contentType : Text)

namespace TContent

/-- `TContent`'s own `_contentType`. -/
def defaultContentType : Text := lit "application/octet-stream"

def newString (data : Text) (contentType : Text) (h : (toUTF8String data).length < 2 ^ 62) : TContent :=
  .string
    { contentType := if contentType ≠ [] then contentType else lit "text/plain; charset=utf-8"
      data := toUTF8String data
      pos := 0
      size_lt := h } data rfl

/-- `TBytePtrContent.New`, which its extensions call. -/
def newMemory (data : List UInt8) (contentType : Text) (h : data.length < 2 ^ 62) : MemoryContent where
  contentType := if contentType ≠ [] then contentType else defaultContentType
  data := data
  pos := 0
  size_lt := h

def newBytePtr (data : List UInt8) (contentType : Text) (h : data.length < 2 ^ 62) : TContent :=
  .bytePtr (newMemory data contentType h)

def newByteArray (data : List UInt8) (contentType : Text) (h : data.length < 2 ^ 62) : TContent :=
  .byteArray (newMemory data contentType h) data

def newBank (data : List UInt8) (contentType : Text) (h : data.length < 2 ^ 62) : TContent :=
  .bank (newMemory data contentType h) data

def newStream (s : TStream) (length : Int) (contentType : Text) : TContent :=
  .stream s length (if contentType ≠ [] then contentType else defaultContentType)

def getContentType : TContent → Text
  | .string c .. | .bytePtr c | .byteArray c _ | .bank c _ => c.contentType
  | .stream _ _ contentType => contentType

def getLength : TContent → Int
  | .string c .. | .bytePtr c | .byteArray c _ | .bank c _ => c.size.toNat
  | .stream _ length _ => length

def read (content : TContent) (size : UInt64) : Option (TContent × List UInt8) :=
  match content with
  | .string c data h =>
    match hread : c.read size with
    | none => none
    | some (c', out) => some (.string c' data (h.trans (c.read_data hread).symm), out)
  | .bytePtr c => (c.read size).map fun (c, out) => (.bytePtr c, out)
  | .byteArray c dataArray => (c.read size).map fun (c, out) => (.byteArray c dataArray, out)
  | .bank c data => (c.read size).map fun (c, out) => (.bank c data, out)
  | .stream s length contentType =>
    let (s, out) := s.read size.toNat
    some (.stream s length contentType, out)

def canReplay : TContent → Bool
  | .string .. | .bytePtr _ | .byteArray .. | .bank .. => true
  | .stream s _ _ => s.size ≠ -1

/-- `Rewind`, with its result. -/
def rewind : TContent → TContent × Bool
  | .string c data h => (.string c.rewind data h, true)
  | .bytePtr c => (.bytePtr c.rewind, true)
  | .byteArray c dataArray => (.byteArray c.rewind dataArray, true)
  | .bank c data => (.bank c.rewind data, true)
  | .stream s length contentType => (.stream s.seekStart length contentType, true)

/-- `Clone`: a new content made from the fields of the old one. -/
def clone : TContent → Option TContent
  | .string c data h => some (newString data c.contentType (by rw [h]; exact c.size_lt))
  | .bytePtr c => some (newBytePtr c.data c.contentType c.size_lt)
  | .byteArray c dataArray => some (.byteArray (newMemory c.data c.contentType c.size_lt) dataArray)
  | .bank c data => some (.bank (newMemory c.data c.contentType c.size_lt) data)
  | .stream s length contentType => some (newStream s length contentType)

/-- The bytes behind a content. -/
def bytes : TContent → List UInt8
  | .string c .. | .bytePtr c | .byteArray c _ | .bank c _ => c.data
  | .stream s _ _ => s.bytes

/-- Its read position. -/
def position : TContent → Nat
  | .string c .. | .bytePtr c | .byteArray c _ | .bank c _ => c.pos.toNat
  | .stream s _ _ => s.pos

/-- The bytes it yields from here to its end. -/
def remaining (content : TContent) : List UInt8 := content.bytes.drop content.position

/-- A stream behind it can seek. -/
def seekable : TContent → Bool
  | .string .. | .bytePtr _ | .byteArray .. | .bank .. => true
  | .stream s _ _ => s.seekable

@[simp] theorem remaining_string (c : MemoryContent) (data : Text) (h) :
    (string c data h).remaining = c.data.drop c.pos.toNat := rfl

@[simp] theorem remaining_bytePtr (c : MemoryContent) :
    (bytePtr c).remaining = c.data.drop c.pos.toNat := rfl

@[simp] theorem remaining_byteArray (c : MemoryContent) (dataArray : List UInt8) :
    (byteArray c dataArray).remaining = c.data.drop c.pos.toNat := rfl

@[simp] theorem remaining_bank (c : MemoryContent) (data : List UInt8) :
    (bank c data).remaining = c.data.drop c.pos.toNat := rfl

@[simp] theorem remaining_stream (s : TStream) (length : Int) (contentType : Text) :
    (stream s length contentType).remaining = s.bytes.drop s.pos := rfl

theorem read_string {c c' : MemoryContent} {data : Text} {h : toUTF8String data = c.data}
    {size : UInt64} {out : List UInt8} (hread : c.read size = some (c', out)) :
    (string c data h).read size =
      some (.string c' data (h.trans (c.read_data hread).symm), out) := by
  simp only [read]
  split <;> rename_i heq
  · rw [hread] at heq
    cases heq
  · obtain ⟨rfl, rfl⟩ := Prod.mk.inj (Option.some.inj (heq.symm.trans hread))
    rfl

end TContent

theorem TStream.read_spec (s : TStream) {n : Nat} (hn : 0 < n) :
    s.bytes.drop s.pos = (s.read n).2 ++ (s.read n).1.bytes.drop (s.read n).1.pos ∧
      ((s.read n).2 = [] → s.bytes.drop s.pos = []) := by
  refine ⟨?_, fun hnil => ?_⟩
  · simp only [read]
    rw [← List.drop_drop, List.take_append_drop]
  · by_contra hne
    have hlt : s.pos < s.bytes.length := by
      rw [List.drop_eq_nil_iff] at hne
      omega
    have hgot := s.gets_pos s.pos n hn hlt
    have hle := s.gets_le s.pos n
    have := congrArg List.length hnil
    simp only [read, List.length_take, List.length_drop, List.length_nil] at this
    omega

/-! ### One attempt -/

/-- The sizes libcurl reads with: positive, and those of real blocks. -/
def ReadSize (n : UInt64) : Prop := 0 < n.toNat ∧ n.toNat < 2 ^ 62

instance : DecidablePred ReadSize := fun _ => inferInstanceAs (Decidable (_ ∧ _))

/-- **Every built-in content is read off in order**, whatever the sizes. -/
theorem content_progressive : Progressive TContent.read TContent.remaining ReadSize where
  front := by
    intro content n hread
    obtain ⟨hpos, hsize⟩ := hread
    cases content with
    | string c data h =>
      obtain ⟨c', out, hread, hrem, hend⟩ := c.read_spec hpos hsize
      exact ⟨_, out, TContent.read_string hread, hrem, hend⟩
    | bytePtr c =>
      obtain ⟨c', out, hread, hrem, hend⟩ := c.read_spec hpos hsize
      exact ⟨.bytePtr c', out, by simp [TContent.read, hread], hrem, hend⟩
    | byteArray c dataArray =>
      obtain ⟨c', out, hread, hrem, hend⟩ := c.read_spec hpos hsize
      exact ⟨.byteArray c' dataArray, out, by simp [TContent.read, hread], hrem, hend⟩
    | bank c data =>
      obtain ⟨c', out, hread, hrem, hend⟩ := c.read_spec hpos hsize
      exact ⟨.bank c' data, out, by simp [TContent.read, hread], hrem, hend⟩
    | stream s length contentType =>
      obtain ⟨hrem, hend⟩ := s.read_spec hpos
      exact ⟨.stream (s.read n.toNat).1 length contentType, (s.read n.toNat).2, rfl, hrem, hend⟩

/-- `PrepareForReplay`, on the content of the request. -/
def prepareForReplay (content : Option TContent) : Option TContent :=
  content.map fun content =>
    let (content, ok) := content.rewind
    if !ok then content.clone.getD content else content

/-- What an attempt comes from: a `Send`, or a retry inside one. -/
inductive AttemptKind where
  | send | retry
deriving DecidableEq

/-- An attempt: its kind, and the sizes of the reads libcurl makes before it stops. -/
structure Attempt where
  kind : AttemptKind
  reads : List UInt64
deriving DecidableEq

/-- The content an attempt of the given kind starts from. -/
def begin (kind : AttemptKind) (content : TContent) : TContent :=
  match kind with
  | .send => content
  | .retry => (prepareForReplay (some content)).getD content

def runAttempt (content : TContent) (a : Attempt) : Option TContent :=
  (readAll TContent.read (begin a.kind content) a.reads).map (·.1)

/-- A retry starts at the first byte of the content. -/
theorem begin_retry (content : TContent) (hseek : content.seekable = true) :
    (begin .retry content).bytes = content.bytes ∧ (begin .retry content).position = 0 := by
  cases content with
  | string c data h => exact ⟨rfl, rfl⟩
  | bytePtr c => exact ⟨rfl, rfl⟩
  | byteArray c dataArray => exact ⟨rfl, rfl⟩
  | bank c data => exact ⟨rfl, rfl⟩
  | stream s length contentType =>
    have hs : s.seekStart = { s with pos := 0 } := if_pos hseek
    simp [begin, prepareForReplay, TContent.rewind, hs, TContent.bytes, TContent.position]

theorem begin_seekable (kind : AttemptKind) (content : TContent) :
    (begin kind content).seekable = content.seekable := by
  cases kind with
  | send => rfl
  | retry =>
    cases content with
    | stream s length contentType =>
      show s.seekStart.seekable = s.seekable
      rw [TStream.seekStart]
      split <;> rfl
    | _ => rfl

/-- A read changes neither the bytes behind a content nor whether it can seek. -/
theorem read_same {content content' : TContent} {size : UInt64} {out : List UInt8}
    (h : content.read size = some (content', out)) :
    content'.bytes = content.bytes ∧ content'.seekable = content.seekable := by
  cases content with
  | string c data henc =>
    cases hread : c.read size with
    | none =>
      simp only [TContent.read] at h
      split at h
      · cases h
      · rename_i heq
        rw [hread] at heq
        cases heq
    | some p =>
      obtain ⟨c', out'⟩ := p
      rw [TContent.read_string hread] at h
      obtain ⟨rfl, -⟩ := Prod.mk.inj (Option.some.inj h)
      exact ⟨c.read_data hread, rfl⟩
  | stream s length contentType =>
    obtain ⟨rfl, -⟩ := Prod.mk.inj (Option.some.inj h)
    exact ⟨rfl, rfl⟩
  | _ =>
    obtain ⟨⟨c', out'⟩, hread, h⟩ := Option.map_eq_some_iff.mp h
    obtain ⟨rfl, -⟩ := Prod.mk.inj h
    exact ⟨MemoryContent.read_data _ hread, rfl⟩

theorem readAll_same {ns : List UInt64} {content content' : TContent} {outs : List (List UInt8)}
    (h : readAll TContent.read content ns = some (content', outs)) :
    content'.bytes = content.bytes ∧ content'.seekable = content.seekable := by
  induction ns generalizing content outs with
  | nil =>
    obtain ⟨rfl, -⟩ := Prod.mk.inj (Option.some.inj h)
    exact ⟨rfl, rfl⟩
  | cons n ns ih =>
    obtain ⟨⟨s, out⟩, hread, h⟩ := Option.bind_eq_some_iff.mp h
    obtain ⟨⟨s', outs'⟩, hrest, h⟩ := Option.map_eq_some_iff.mp h
    obtain ⟨rfl, -⟩ := Prod.mk.inj h
    obtain ⟨hb, hs⟩ := read_same hread
    obtain ⟨hb', hs'⟩ := ih hrest
    exact ⟨hb'.trans hb, hs'.trans hs⟩

/-- An attempt changes neither the bytes behind a content nor whether it can seek. -/
theorem runAttempt_same {content content' : TContent} {a : Attempt}
    (hseek : content.seekable = true) (h : runAttempt content a = some content') :
    content'.bytes = content.bytes ∧ content'.seekable = true := by
  obtain ⟨⟨s, outs⟩, hall, rfl⟩ := Option.map_eq_some_iff.mp h
  obtain ⟨hb, hs⟩ := readAll_same hall
  refine ⟨hb.trans ?_, hs.trans ((begin_seekable a.kind content).trans hseek)⟩
  cases a.kind with
  | send => rfl
  | retry => exact (begin_retry content hseek).1

theorem runAttempt_total (content : TContent) (a : Attempt) (h : ∀ n ∈ a.reads, ReadSize n) :
    ∃ content', runAttempt content a = some content' := by
  obtain ⟨s, outs, hall, -⟩ := content_progressive.readAll_spec h (begin a.kind content)
  exact ⟨s, by simp [runAttempt, hall]⟩

/-! ### Sequences of attempts -/

/-- However libcurl reads the attempt, it sends a prefix of `body`, and `body` if read to the end. -/
def SendsBody (body : List UInt8) (content : TContent) (a : Attempt) : Prop :=
  Yields TContent.read ReadSize body (begin a.kind content)

/-- The attempt starts where the body given to `Body()` started: a retry at the first byte, a new
`Send` at the position left by the attempts before it. -/
def StartsRight (given : TContent) (content : TContent) (a : Attempt) : Prop :=
  match a.kind with
  | .retry => given.position = 0 ∨ given.bytes = []
  | .send => content.position = given.position ∨
      (given.bytes.length ≤ content.position ∧ given.bytes.length ≤ given.position)

theorem drop_eq_drop_iff {α : Type*} {l : List α} {a b : Nat} :
    l.drop a = l.drop b ↔ a = b ∨ (l.length ≤ a ∧ l.length ≤ b) := by
  constructor
  · intro h
    have hlen := congrArg List.length h
    simp only [List.length_drop] at hlen
    omega
  · intro hor
    rcases hor with rfl | ⟨ha, hb⟩
    · rfl
    · rw [List.drop_eq_nil_of_le ha, List.drop_eq_nil_of_le hb]

theorem sendsBody_iff {given content : TContent} (hbytes : content.bytes = given.bytes)
    (hseek : content.seekable = true) (a : Attempt) :
    SendsBody given.remaining content a ↔ StartsRight given content a := by
  rw [SendsBody, content_progressive.yields_iff (n := 1) (by decide : ReadSize 1)]
  cases hkind : a.kind with
  | send =>
    simp only [begin, StartsRight, hkind, TContent.remaining, hbytes]
    exact drop_eq_drop_iff
  | retry =>
    obtain ⟨hb, hp⟩ := begin_retry content hseek
    simp only [StartsRight, hkind, TContent.remaining, hb, hp, hbytes, drop_eq_drop_iff]
    constructor
    · intro hor
      rcases hor with h | ⟨h, -⟩
      · exact Or.inl h.symm
      · exact Or.inr (List.length_eq_zero_iff.mp (by omega))
    · intro hor
      rcases hor with h | h
      · exact Or.inl h.symm
      · exact Or.inr ⟨by simp [h], by simp [h]⟩

/-- **Which attempts send the body.**  Every sequence of sends and retries can be run, and in it an
attempt sends the body whatever the reads exactly when it starts right. -/
theorem attempts_send_body_iff (given : TContent) (hseek : given.seekable = true)
    (attempts : List Attempt) (hreads : ∀ a ∈ attempts, ∀ n ∈ a.reads, ReadSize n) :
    (∃ last, run runAttempt given attempts = some last) ∧
      (Along runAttempt (SendsBody given.remaining) given attempts ↔
        Along runAttempt (StartsRight given) given attempts) := by
  have hsame : ∀ pre mid, run runAttempt given pre = some mid →
      mid.bytes = given.bytes ∧ mid.seekable = true := by
    intro pre mid hrun
    refine run_invariant (fun c => c.bytes = given.bytes ∧ c.seekable = true) ?_
      ⟨rfl, hseek⟩ hrun
    intro s a s' hinv hstep
    obtain ⟨hb, hs⟩ := hinv
    obtain ⟨hb', hs'⟩ := runAttempt_same hs hstep
    exact ⟨hb'.trans hb, hs'⟩
  refine ⟨?_, along_congr fun pre mid a hmid => ?_⟩
  · have hal : Along runAttempt (fun _ a => ∀ n ∈ a.reads, ReadSize n) given attempts :=
      fun pre a post hl _ _ => hreads a (by rw [hl]; exact List.mem_append_right pre List.mem_cons_self)
    obtain ⟨last, hrun, -⟩ := run_total (fun _ => True)
      (fun c a _ ha => (runAttempt_total c a ha).imp fun _ h => ⟨h, trivial⟩) trivial hal
    exact ⟨last, hrun⟩
  · obtain ⟨hb, hs⟩ := hsame pre mid hmid
    exact sendsBody_iff hb hs a

/-- `New TStringContent("ab")`. -/
def abContent : TContent := .newString (lit "ab") [] (by decide +kernel)

theorem attempts_send_body_ab :
    (∃ last, run runAttempt abContent [⟨.send, [1]⟩, ⟨.retry, [4, 4]⟩] = some last) ∧
      (Along runAttempt (SendsBody abContent.remaining) abContent [⟨.send, [1]⟩, ⟨.retry, [4, 4]⟩] ↔
        Along runAttempt (StartsRight abContent) abContent [⟨.send, [1]⟩, ⟨.retry, [4, 4]⟩]) :=
  attempts_send_body_iff abContent rfl _ (by simp [ReadSize])

/-- Sending `abContent` a second time sends nothing. -/
theorem not_every_attempt_sends_body :
    ¬ ∀ (given : TContent) (attempts : List Attempt), given.seekable = true →
      (∀ a ∈ attempts, ∀ n ∈ a.reads, ReadSize n) →
      Along runAttempt (SendsBody given.remaining) given attempts := by
  intro hall
  have h := hall abContent [⟨.send, [4, 4]⟩, ⟨.send, [4]⟩] rfl (by simp [ReadSize])
  have hstart := ((attempts_send_body_iff abContent rfl _ (by simp [ReadSize])).2.mp h)
    [⟨.send, [4, 4]⟩] ⟨.send, [4]⟩ [] rfl
  have hpos : (run runAttempt abContent [⟨.send, [4, 4]⟩]).map (·.position) = some 2 := by
    decide +kernel
  obtain ⟨mid, hmid, hpos⟩ := Option.map_eq_some_iff.mp hpos
  rcases hstart mid hmid with h | ⟨-, h⟩
  · rw [hpos] at h
    exact absurd h (by decide)
  · exact absurd h (by decide)

end NetMod.RequestContent
