import NetMod.CurlText

/-!
# `bufq.c`: a queue of bytes in chunks

A `struct bufq` keeps its bytes in chunks of a fixed size, reads from the first and writes to the
last, and keeps the chunks it has emptied as spares.  Here it is without a `bufc_pool`, and memory
does not run out: in `get_spare` the check that a chunk's size does not overflow a `size_t`, and the
failure of `calloc`, are left out.

`ByteFifo` is what it is for: bytes in order, up to a limit that counts what has been read of the
first chunk too.  Here are the functions, what holds between two calls (`Sound`), and that a write puts
as much behind the bytes as there is room for.
-/

namespace NetMod.BufferQueue

open NetMod.CurlText

/-! ### Chunks -/

/-- `struct buf_chunk`, with the `dlen` bytes of its `data`. -/
structure BufChunk where
  data : Bytes
  rOffset : Nat
  wOffset : Nat
  r_le : rOffset ≤ wOffset
  w_le : wOffset ≤ data.length
deriving DecidableEq

namespace BufChunk

def dlen (c : BufChunk) : Nat := c.data.length

def isEmpty (c : BufChunk) : Bool := c.wOffset ≤ c.rOffset

def isFull (c : BufChunk) : Bool := c.dlen ≤ c.wOffset

def len (c : BufChunk) : Nat := c.wOffset - c.rOffset

def reset (c : BufChunk) : BufChunk where
  data := c.data
  rOffset := 0
  wOffset := 0
  r_le := Nat.le_refl 0
  w_le := Nat.zero_le _

/-- A chunk from `calloc`. -/
def new (size : Nat) : BufChunk where
  data := List.replicate size 0
  rOffset := 0
  wOffset := 0
  r_le := Nat.le_refl 0
  w_le := Nat.zero_le _

/-- `chunk_append`, with its result. -/
def append (c : BufChunk) (buf : Bytes) : BufChunk × Nat :=
  let n := min (c.dlen - c.wOffset) buf.length
  ({ data := c.data.take c.wOffset ++ buf.take n ++ c.data.drop (c.wOffset + n)
     rOffset := c.rOffset
     wOffset := c.wOffset + n
     r_le := Nat.le_add_right_of_le c.r_le
     w_le := by
      have := c.w_le
      simp only [List.length_append, List.length_take, List.length_drop, dlen, n]
      omega }, n)

/-- `chunk_read`, with what it copies. -/
def read (c : BufChunk) (len : Nat) : BufChunk × Bytes :=
  if c.len = 0 then (c, [])
  else if h : c.len ≤ len then (c.reset, (c.data.drop c.rOffset).take c.len)
  else
    ({ c with
       rOffset := c.rOffset + len
       r_le := by rw [BufChunk.len] at h; omega }, (c.data.drop c.rOffset).take len)

/-- `chunk_skip`, with its result. -/
def skip (c : BufChunk) (amount : Nat) : BufChunk × Nat :=
  if c.len = 0 then (c, 0)
  else
    let n := min c.len amount
    if c.rOffset + n = c.wOffset then (c.reset, n)
    else
      ({ c with
         rOffset := c.rOffset + n
         r_le := by have := c.r_le; simp only [BufChunk.len, n]; omega }, n)

/-- `chunk_peek`. -/
def peek (c : BufChunk) : Bytes := (c.data.drop c.rOffset).take c.len

/-- `chunk_peek_at`. -/
def peekAt (c : BufChunk) (offset : Nat) : Bytes :=
  (c.data.drop (offset + c.rOffset)).take (c.wOffset - (offset + c.rOffset))

/-- What is still to be read of it. -/
def unread (c : BufChunk) : Bytes := (c.data.take c.wOffset).drop c.rOffset

@[simp] theorem unread_reset (c : BufChunk) : c.reset.unread = [] := by
  simp [unread, reset]

@[simp] theorem unread_new (size : Nat) : (new size).unread = [] := by
  simp [unread, new]

@[simp] theorem dlen_new (size : Nat) : (new size).dlen = size := List.length_replicate

theorem length_unread (c : BufChunk) : c.unread.length = c.len := by
  have := c.w_le
  rw [unread, List.length_drop, List.length_take, len]
  omega

theorem unread_eq (c : BufChunk) : c.unread = (c.data.drop c.rOffset).take c.len := by
  rw [unread, List.drop_take, len]

theorem isEmpty_iff (c : BufChunk) : c.isEmpty = true ↔ c.unread = [] := by
  have := c.r_le
  rw [isEmpty, decide_eq_true_eq, ← List.length_eq_zero_iff, length_unread, len]
  omega

theorem append_snd (c : BufChunk) (buf : Bytes) :
    (c.append buf).2 = min (c.dlen - c.wOffset) buf.length := rfl

theorem append_dlen (c : BufChunk) (buf : Bytes) : (c.append buf).1.dlen = c.dlen := by
  have := c.w_le
  simp only [append, dlen, List.length_append, List.length_take, List.length_drop]
  omega

theorem append_unread (c : BufChunk) (buf : Bytes) :
    (c.append buf).1.unread = c.unread ++ buf.take (c.append buf).2 := by
  have hr := c.r_le
  have hw := c.w_le
  simp only [append, unread, dlen]
  set n := min (c.data.length - c.wOffset) buf.length with hn
  have hlen : (c.data.take c.wOffset ++ buf.take n).length = c.wOffset + n := by
    rw [List.length_append, List.length_take, List.length_take]
    omega
  rw [List.take_left' hlen, List.drop_append_of_le_length]
  rw [List.length_take]
  omega

/-- A read takes from what is unread, and leaves an emptied chunk as new. -/
theorem read_spec (c : BufChunk) (len : Nat) :
    (c.read len).2 = c.unread.take len ∧ (c.read len).1.unread = c.unread.drop len ∧
      (c.read len).1.dlen = c.dlen := by
  have hlen := c.length_unread
  rw [read]
  by_cases hzero : c.len = 0
  · have hnil : c.unread = [] := List.eq_nil_of_length_eq_zero (hlen.trans hzero)
    rw [if_pos hzero, hnil]
    exact ⟨by simp, by simp, rfl⟩
  · rw [if_neg hzero]
    by_cases hall : c.len ≤ len
    · rw [dif_pos hall, ← unread_eq]
      refine ⟨(List.take_of_length_le (hlen.symm ▸ hall)).symm, ?_, rfl⟩
      rw [unread_reset, List.drop_of_length_le (hlen.symm ▸ hall)]
    · rw [dif_neg hall]
      refine ⟨?_, ?_, rfl⟩
      · rw [unread_eq, List.take_take, Nat.min_eq_left (by omega)]
      · rw [unread, unread, List.drop_drop]

theorem peekAt_eq (c : BufChunk) (offset : Nat) : c.peekAt offset = c.unread.drop offset := by
  rw [peekAt, unread, List.drop_drop, List.drop_take, Nat.add_comm offset]

/-- A read that leaves something. -/
theorem read_part (c : BufChunk) {len : Nat} (hlen : len < c.len) :
    (c.read len).1.wOffset = c.wOffset ∧ (c.read len).1.rOffset = c.rOffset + len := by
  rw [read, if_neg (by omega), dif_neg (by omega)]
  exact ⟨rfl, rfl⟩

/-- `chunk_skip` is `chunk_read` without the copy. -/
theorem skip_eq (c : BufChunk) (amount : Nat) :
    c.skip amount = ((c.read amount).1, (c.read amount).2.length) := by
  have hr := c.r_le
  have hw := c.w_le
  rw [skip, read]
  by_cases hzero : c.len = 0
  · rw [if_pos hzero, if_pos hzero]
    rfl
  · rw [if_neg hzero, if_neg hzero]
    rw [len] at hzero
    by_cases hall : c.len ≤ amount
    · have hcut : c.rOffset + min c.len amount = c.wOffset := by
        rw [Nat.min_eq_left hall, len]
        omega
      rw [dif_pos hall, if_pos hcut, ← unread_eq, length_unread, Nat.min_eq_left hall]
    · have hcut : c.rOffset + min c.len amount ≠ c.wOffset := by
        rw [len] at hall ⊢
        omega
      have hmin : min c.len amount = amount := Nat.min_eq_right (by omega)
      have hroom : amount ≤ c.data.length - c.rOffset := by
        rw [len] at hall
        omega
      rw [dif_neg hall, if_neg hcut]
      simp only [hmin, List.length_take, List.length_drop, Nat.min_eq_left hroom]

end BufChunk

/-! ### The queue -/

/-- `struct bufq`: `chunks` is the list from `head` to `tail`; the bits of `opts` apart. -/
structure Bufq where
  chunks : List BufChunk
  spare : List BufChunk
  chunkCount : Nat
  maxChunks : Nat
  chunkSize : Nat
  softLimit : Bool
  noSpares : Bool
deriving DecidableEq

namespace Bufq

/-- `Curl_bufq_init2`. -/
def init (chunkSize maxChunks : Nat) (softLimit noSpares : Bool) : Bufq where
  chunks := []
  spare := []
  chunkCount := 0
  maxChunks := maxChunks
  chunkSize := chunkSize
  softLimit := softLimit
  noSpares := noSpares

/-- `Curl_bufq_reset`, which puts one chunk after the other before the spares. -/
def reset (q : Bufq) : Bufq := { q with chunks := [], spare := q.chunks.reverse ++ q.spare }

/-- `Curl_bufq_len`. -/
def len (q : Bufq) : Nat := (q.chunks.map BufChunk.len).sum

/-- `Curl_bufq_is_empty`. -/
def isEmpty (q : Bufq) : Bool := q.chunks.head?.all BufChunk.isEmpty

/-- `Curl_bufq_is_full`. -/
def isFull (q : Bufq) : Bool :=
  match q.chunks.getLast? with
  | none => false
  | some tail =>
    if ¬ q.spare.isEmpty then false
    else if q.chunkCount < q.maxChunks then false
    else if q.chunkCount > q.maxChunks then true
    else tail.isFull

/-- `get_spare`. -/
def getSpare (q : Bufq) : Option (BufChunk × Bufq) :=
  match q.spare with
  | c :: spare => some (c.reset, { q with spare := spare })
  | [] =>
    if q.chunkCount ≥ q.maxChunks ∧ ¬ q.softLimit then none
    else some (.new q.chunkSize, { q with chunkCount := q.chunkCount + 1 })

/-- What `prune_head` does with a chunk it has taken off. -/
def giveBack (q : Bufq) (c : BufChunk) : Bufq :=
  if q.chunkCount > q.maxChunks ∨ q.noSpares then { q with chunkCount := q.chunkCount - 1 }
  else { q with spare := c :: q.spare }

/-- The loop of `prune_head`. -/
def pruneLoop (q : Bufq) : List BufChunk → Bufq
  | [] => { q with chunks := [] }
  | c :: cs => if c.isEmpty then (q.giveBack c).pruneLoop cs else { q with chunks := c :: cs }

def pruneHead (q : Bufq) : Bufq := q.pruneLoop q.chunks

/-- A new tail, behind all chunks there are. -/
def newTail (q : Bufq) : Option (List BufChunk × BufChunk × Bufq) :=
  q.getSpare.map fun (c, q) => (q.chunks, c, q)

/-- `get_non_full_tail`: the tail, with the chunks before it. -/
def getNonFullTail (q : Bufq) : Option (List BufChunk × BufChunk × Bufq) :=
  match q.chunks.getLast? with
  | some tail => if ¬ tail.isFull then some (q.chunks.dropLast, tail, q) else q.newTail
  | none => q.newTail

def setTail (q : Bufq) (front : List BufChunk) (tail : BufChunk) : Bufq :=
  { q with chunks := front ++ [tail] }

/-- The loop of `Curl_bufq_write`; `none` only if there are too few turns. -/
def writeLoop : Nat → Bufq → Bytes → Nat → Option (Bufq × Nat × CURLcode)
  | _, q, [], written => some (q, written, .ok)
  | 0, _, _ :: _, _ => none
  | turns + 1, q, b :: buf, written =>
    match q.getNonFullTail with
    | none =>
      if q.chunkCount < q.maxChunks ∨ q.softLimit then some (q, written, .outOfMemory)
      else some (q, written, if written = 0 then .again else .ok)
    | some (front, tail, q) =>
      let r := tail.append (b :: buf)
      let q := q.setTail front r.1
      if r.2 = 0 then some (q, written, if written = 0 then .again else .ok)
      else writeLoop turns q ((b :: buf).drop r.2) (written + r.2)

/-- `Curl_bufq_write`: with what it has written. -/
def write (q : Bufq) (buf : Bytes) : Option (Bufq × Nat × CURLcode) := writeLoop buf.length q buf 0

/-- The loop of `Curl_bufq_read`. -/
def readLoop : Nat → Bufq → Nat → Bytes → Option (Bufq × Bytes)
  | 0, q, len, out => if len = 0 ∨ q.chunks = [] then some (q, out) else none
  | turns + 1, q, len, out =>
    if len = 0 then some (q, out)
    else
      match q.chunks with
      | [] => some (q, out)
      | c :: cs =>
        let r := c.read len
        readLoop turns ({ q with chunks := r.1 :: cs }.pruneHead) (len - r.2.length) (out ++ r.2)

/-- `Curl_bufq_read`: with what it has copied. -/
def read (q : Bufq) (len : Nat) : Option (Bufq × Bytes × CURLcode) :=
  (readLoop q.chunks.length q len []).map fun (q, out) =>
    (q, out, if out = [] then .again else .ok)

/-- The loop of `Curl_bufq_skip`. -/
def skipLoop : Nat → Bufq → Nat → Option Bufq
  | 0, q, amount => if amount = 0 ∨ q.chunks = [] then some q else none
  | turns + 1, q, amount =>
    if amount = 0 then some q
    else
      match q.chunks with
      | [] => some q
      | c :: cs =>
        let r := c.skip amount
        skipLoop turns ({ q with chunks := r.1 :: cs }.pruneHead) (amount - r.2)

/-- `Curl_bufq_skip`. -/
def skip (q : Bufq) (amount : Nat) : Option Bufq := skipLoop q.chunks.length q amount

/-- What `Curl_bufq_peek` shows, if there is anything. -/
def shown (q : Bufq) : Option Bytes :=
  match q.chunks with
  | c :: _ => if ¬ c.isEmpty then some c.peek else none
  | [] => none

def peek (q : Bufq) : Bufq × Option Bytes :=
  let q := if q.chunks.head?.any BufChunk.isEmpty then q.pruneHead else q
  (q, q.shown)

/-- The loop of `Curl_bufq_peek_at`. -/
def peekAtLoop : List BufChunk → Nat → Option Bytes
  | [], _ => none
  | c :: cs, offset =>
    if c.len = 0 then none
    else if offset ≥ c.len then peekAtLoop cs (offset - c.len)
    else some (c.peekAt offset)

/-- `Curl_bufq_peek_at`. -/
def peekAt (q : Bufq) (offset : Nat) : Option Bytes := peekAtLoop q.chunks offset

end Bufq

/-- A reader that `Curl_bufq_sipn` may ask for so many bytes. -/
structure Reader where
  reads : Nat → Except CURLcode Bytes
  fits : ∀ n bytes, reads n = .ok bytes → bytes.length ≤ n

/-- How much `chunk_slurpn` asks for, of `free` bytes. -/
def slurpSize (free maxLen : Nat) : Nat := if maxLen ≠ 0 ∧ free > maxLen then maxLen else free

/-- `chunk_slurpn`: with what it has read, or the error. -/
def BufChunk.slurpn (c : BufChunk) (maxLen : Nat) (reader : Reader) :
    BufChunk × Except CURLcode Bytes :=
  if c.dlen - c.wOffset = 0 then (c, .error .again)
  else
    match reader.reads (slurpSize (c.dlen - c.wOffset) maxLen) with
    | .error e => (c, .error e)
    | .ok bytes => ((c.append bytes).1, .ok bytes)

/-- `Curl_bufq_sipn`. -/
def Bufq.sipn (q : Bufq) (maxLen : Nat) (reader : Reader) : Bufq × Except CURLcode Nat :=
  match q.getNonFullTail with
  | none => (q, .error (if q.chunkCount < q.maxChunks then .outOfMemory else .again))
  | some (front, tail, q) =>
    let r := tail.slurpn maxLen reader
    (q.setTail front r.1, r.2.map List.length)

/-! ### What it is for -/

/-- A queue of bytes.  The first of its chunks of `chunkSize` bytes has been read up to `offset`. -/
structure ByteFifo where
  offset : Nat := 0
  unread : Bytes := []
deriving DecidableEq

/-- What the queue was made with. -/
structure Limits where
  chunkSize : Nat
  maxChunks : Nat
  softLimit : Bool

namespace ByteFifo

/-- How much of the room is used, with what has been read of the first chunk. -/
def used (f : ByteFifo) : Nat := f.offset + f.unread.length

/-- How many of `n` bytes find room. -/
def accepts (l : Limits) (f : ByteFifo) (n : Nat) : Nat :=
  if l.softLimit then n else min n (l.maxChunks * l.chunkSize - f.used)

def write (l : Limits) (f : ByteFifo) (buf : Bytes) : ByteFifo :=
  { f with unread := f.unread ++ buf.take (f.accepts l buf.length) }

/-- Bytes leave, and with the last of them the chunk they were in. -/
def drop (l : Limits) (f : ByteFifo) (n : Nat) : ByteFifo where
  offset := if f.unread.length ≤ n then 0 else (f.offset + n) % l.chunkSize
  unread := f.unread.drop n

/-- What can be seen behind the first `n` bytes without leaving their chunk. -/
def peekAt (l : Limits) (f : ByteFifo) (n : Nat) : Option Bytes :=
  if n < f.unread.length then
    some ((f.unread.drop n).take (l.chunkSize - (f.offset + n) % l.chunkSize))
  else none

/-- How much room there is in the last chunk, or in a new one. -/
def tailRoom (l : Limits) (f : ByteFifo) : Nat := l.chunkSize - f.used % l.chunkSize

/-- `Curl_bufq_sipn`. -/
def sip (l : Limits) (f : ByteFifo) (maxLen : Nat) (reader : Reader) : ByteFifo × Except CURLcode Nat :=
  if l.softLimit = false ∧ f.used = l.maxChunks * l.chunkSize then (f, .error .again)
  else
    match reader.reads (slurpSize (f.tailRoom l) maxLen) with
    | .error e => (f, .error e)
    | .ok bytes => ({ f with unread := f.unread ++ bytes }, .ok bytes.length)

theorem accepts_le (l : Limits) (f : ByteFifo) (n : Nat) : f.accepts l n ≤ n := by
  rw [accepts]
  split
  · exact Nat.le_refl n
  · exact Nat.min_le_left _ _

/-- Some of the bytes first, and then the others. -/
theorem accepts_take {l : Limits} {f : ByteFifo} {buf : Bytes} {n : Nat}
    (h : n ≤ f.accepts l buf.length) :
    n + accepts l { f with unread := f.unread ++ buf.take n } (buf.length - n)
      = f.accepts l buf.length := by
  have hle := accepts_le l f buf.length
  have hused : used { f with unread := f.unread ++ buf.take n } = f.used + n := by
    simp only [used, List.length_append, List.length_take]
    omega
  rw [accepts, hused]
  rw [accepts] at h hle ⊢
  split
  · omega
  · rename_i hhard
    rw [if_neg hhard] at h
    omega

theorem write_take {l : Limits} {f : ByteFifo} {buf : Bytes} {n : Nat}
    (h : n ≤ f.accepts l buf.length) :
    write l { f with unread := f.unread ++ buf.take n } (buf.drop n) = f.write l buf := by
  rw [write, write, ← accepts_take h, List.take_add, List.length_drop]
  simp

end ByteFifo

namespace Bufq

def limits (q : Bufq) : Limits where
  chunkSize := q.chunkSize
  maxChunks := q.maxChunks
  softLimit := q.softLimit

/-- The bytes of a list of chunks. -/
def unreadOf (cs : List BufChunk) : Bytes := cs.flatMap BufChunk.unread

def headOffset (cs : List BufChunk) : Nat := (cs.head?.map BufChunk.rOffset).getD 0

/-- A queue as its user sees it. -/
def view (q : Bufq) : ByteFifo where
  offset := headOffset q.chunks
  unread := unreadOf q.chunks

/-- Between two calls: the chunks have their size, all but the last are full with something to read,
all but the first are unread, an emptied one is as new; none is lost, and a hard limit is kept. -/
structure Sound (q : Bufq) : Prop where
  size_pos : 0 < q.chunkSize
  max_pos : 0 < q.maxChunks
  sized : ∀ c ∈ q.chunks, c.dlen = q.chunkSize
  spare_sized : ∀ c ∈ q.spare, c.dlen = q.chunkSize
  full : ∀ c ∈ q.chunks.dropLast, c.wOffset = q.chunkSize ∧ c.rOffset < c.wOffset
  fresh : ∀ c ∈ q.chunks.tail, c.rOffset = 0
  clean : ∀ c ∈ q.chunks, c.rOffset = c.wOffset → c.wOffset = 0
  counted : q.chunkCount = q.chunks.length + q.spare.length
  bounded : q.softLimit = false → q.chunkCount ≤ q.maxChunks

theorem unreadOf_cons (c : BufChunk) (cs : List BufChunk) :
    unreadOf (c :: cs) = c.unread ++ unreadOf cs := List.flatMap_cons

theorem unreadOf_concat (front : List BufChunk) (tail : BufChunk) :
    unreadOf (front ++ [tail]) = unreadOf front ++ tail.unread := by
  simp [unreadOf]

theorem headOffset_concat {tail tail' : BufChunk} (h : tail'.rOffset = tail.rOffset)
    (front : List BufChunk) : headOffset (front ++ [tail']) = headOffset (front ++ [tail]) := by
  cases front with
  | nil => exact h
  | cons c front => rfl

theorem length_unreadOf {cs : List BufChunk} (hfresh : ∀ c ∈ cs, c.rOffset = 0) :
    (unreadOf cs).length = (cs.map BufChunk.wOffset).sum := by
  induction cs with
  | nil => rfl
  | cons c cs ih =>
    rw [unreadOf_cons, List.length_append, c.length_unread, BufChunk.len,
      hfresh c List.mem_cons_self, ih fun c' h => hfresh c' (List.mem_cons_of_mem c h)]
    simp

/-- What is used, by the ends of what is written in each chunk. -/
theorem view_used {q : Bufq} (hfresh : ∀ c ∈ q.chunks.tail, c.rOffset = 0) :
    q.view.used = (q.chunks.map BufChunk.wOffset).sum := by
  rw [ByteFifo.used, view]
  cases hchunks : q.chunks with
  | nil => rfl
  | cons c cs =>
    rw [hchunks] at hfresh
    have hr := c.r_le
    have hrest : (unreadOf cs).length = (cs.map BufChunk.wOffset).sum := length_unreadOf hfresh
    have hhead : headOffset (c :: cs) = c.rOffset := rfl
    rw [unreadOf_cons, List.length_append, c.length_unread, BufChunk.len, hhead, hrest,
      List.map_cons, List.sum_cons]
    dsimp only
    omega

theorem sum_full {size : Nat} {cs : List BufChunk}
    (hfull : ∀ c ∈ cs, c.wOffset = size ∧ c.rOffset < c.wOffset) :
    (cs.map BufChunk.wOffset).sum = cs.length * size := by
  induction cs with
  | nil => simp
  | cons c cs ih =>
    rw [List.map_cons, List.sum_cons, (hfull c List.mem_cons_self).1,
      ih fun c' h => hfull c' (List.mem_cons_of_mem c h), List.length_cons, Nat.succ_mul, Nat.add_comm]

theorem forall_mem_tail_concat {p : BufChunk → Prop} {front : List BufChunk} {tail : BufChunk} :
    (∀ c ∈ (front ++ [tail]).tail, p c) ↔ (∀ c ∈ front.tail, p c) ∧ (front ≠ [] → p tail) := by
  cases front with
  | nil => simp
  | cons c front => simp [or_imp, forall_and]

theorem sound_init {chunkSize maxChunks : Nat} (hsize : 0 < chunkSize) (hmax : 0 < maxChunks)
    (softLimit noSpares : Bool) : Sound (init chunkSize maxChunks softLimit noSpares) where
  size_pos := hsize
  max_pos := hmax
  sized := by simp [init]
  spare_sized := by simp [init]
  full := by simp [init]
  fresh := by simp [init]
  clean := by simp [init]
  counted := rfl
  bounded := fun _ => Nat.zero_le _

section

variable {q : Bufq} {front : List BufChunk} {tail tail' : BufChunk}

theorem Sound.used_setTail (hq : Sound (q.setTail front tail)) :
    (q.setTail front tail).view.used = front.length * q.chunkSize + tail.wOffset := by
  have hfull := hq.full
  rw [setTail, List.dropLast_concat] at hfull
  rw [view_used hq.fresh, setTail, List.map_append, List.sum_append, sum_full hfull]
  simp

/-- The tail may have more in it. -/
theorem Sound.tail_grows (hq : Sound (q.setTail front tail)) (hdlen : tail'.dlen = tail.dlen)
    (hr : tail'.rOffset = tail.rOffset) (hw : tail.wOffset ≤ tail'.wOffset) :
    Sound (q.setTail front tail') where
  size_pos := hq.size_pos
  max_pos := hq.max_pos
  sized := by
    have hsized := hq.sized
    simp only [setTail, List.forall_mem_append, List.forall_mem_singleton] at hsized ⊢
    exact ⟨hsized.1, hdlen.trans hsized.2⟩
  spare_sized := hq.spare_sized
  full := by
    have hfull := hq.full
    rw [setTail, List.dropLast_concat] at hfull ⊢
    exact hfull
  fresh := by
    have hfresh := hq.fresh
    rw [setTail, forall_mem_tail_concat] at hfresh ⊢
    exact ⟨hfresh.1, fun h => hr.trans (hfresh.2 h)⟩
  clean := by
    have hclean := hq.clean
    simp only [setTail, List.forall_mem_append, List.forall_mem_singleton] at hclean ⊢
    refine ⟨hclean.1, fun h => ?_⟩
    have hle := tail.r_le
    have hzero := hclean.2 (by omega)
    omega
  counted := by
    have hcounted := hq.counted
    simp only [setTail, List.length_append, List.length_singleton] at hcounted ⊢
    exact hcounted
  bounded := hq.bounded

/-- What `get_non_full_tail` finds: a tail with room, in a queue that is the same to its user. -/
structure TailOf (q q' : Bufq) (front : List BufChunk) (tail : BufChunk) : Prop where
  sound : Sound (q'.setTail front tail)
  view : (q'.setTail front tail).view = q.view
  limits : q'.limits = q.limits
  room : tail.wOffset < q.chunkSize

namespace TailOf

variable {q' : Bufq}

theorem dlen (h : TailOf q q' front tail) : tail.dlen = q.chunkSize := by
  have hsized := h.sound.sized tail (by simp [setTail])
  exact hsized.trans (congrArg Limits.chunkSize h.limits)

theorem used (h : TailOf q q' front tail) :
    q.view.used = front.length * q.chunkSize + tail.wOffset := by
  have hsize : q'.chunkSize = q.chunkSize := congrArg Limits.chunkSize h.limits
  rw [← h.view, h.sound.used_setTail, hsize]

/-- Its room is that of the queue's last chunk. -/
theorem tailRoom (h : TailOf q q' front tail) :
    q.view.tailRoom q.limits = tail.dlen - tail.wOffset := by
  have hsize : q.limits.chunkSize = q.chunkSize := rfl
  rw [ByteFifo.tailRoom, hsize, h.used, h.dlen, Nat.mul_comm, Nat.mul_add_mod,
    Nat.mod_eq_of_lt h.room]

/-- A hard limit leaves room for all of it. -/
theorem tailRoom_le (h : TailOf q q' front tail) (hsoft : q.softLimit = false) :
    q.chunkSize - tail.wOffset ≤ q.maxChunks * q.chunkSize - q.view.used := by
  obtain ⟨-, hmax, hsoft'⟩ := Limits.mk.inj h.limits
  have hcounted := h.sound.counted
  have hbounded := h.sound.bounded (hsoft'.trans hsoft)
  simp only [setTail, List.length_append, List.length_singleton] at hcounted hbounded
  have hlen : front.length + 1 ≤ q.maxChunks := by omega
  have hmul := Nat.mul_le_mul_right q.chunkSize hlen
  rw [Nat.add_mul, Nat.one_mul] at hmul
  have hroom := h.room
  rw [h.used]
  omega

theorem append_pos (h : TailOf q q' front tail) {buf : Bytes} (hne : buf ≠ []) :
    (tail.append buf).2 ≠ 0 := by
  have hroom := h.room
  have hlen := List.length_pos_of_ne_nil hne
  rw [tail.append_snd, h.dlen]
  omega

theorem append_le_accepts (h : TailOf q q' front tail) (buf : Bytes) :
    (tail.append buf).2 ≤ q.view.accepts q.limits buf.length := by
  rw [tail.append_snd, h.dlen, ByteFifo.accepts]
  split
  · exact Nat.min_le_right _ _
  · rename_i hsoft
    have hle := h.tailRoom_le (Bool.eq_false_of_not_eq_true hsoft)
    exact Nat.le_min.mpr ⟨Nat.min_le_right _ _, Nat.le_trans (Nat.min_le_left _ _) hle⟩

/-- Bytes appended to it are at the end of the queue. -/
theorem append (h : TailOf q q' front tail) (buf : Bytes) :
    Sound (q'.setTail front (tail.append buf).1) ∧
      (q'.setTail front (tail.append buf).1).limits = q.limits ∧
      (q'.setTail front (tail.append buf).1).view
        = { q.view with unread := q.view.unread ++ buf.take (tail.append buf).2 } := by
  refine ⟨h.sound.tail_grows (tail.append_dlen _) rfl (Nat.le_add_right _ _), h.limits, ?_⟩
  have hr : (tail.append buf).1.rOffset = tail.rOffset := rfl
  have hhead := headOffset_concat hr front
  rw [← h.view]
  simp only [Bufq.view, setTail, hhead, unreadOf_concat, tail.append_unread, List.append_assoc]

end TailOf

/-- A new tail goes behind full chunks. -/
theorem Sound.concat_new (hq : Sound q) {q' : Bufq} (hchunks : q'.chunks = q.chunks)
    (hlimits : q'.limits = q.limits) (hspare : ∀ c ∈ q'.spare, c ∈ q.spare)
    (hcount : q'.chunkCount = q'.chunks.length + 1 + q'.spare.length)
    (hbounded : q.softLimit = false → q'.chunkCount ≤ q.maxChunks)
    (hfull : ∀ c ∈ q.chunks, c.wOffset = q.chunkSize ∧ c.rOffset < c.wOffset)
    (hdlen : tail.dlen = q.chunkSize) (hr : tail.rOffset = 0) (hw : tail.wOffset = 0) :
    Sound (q'.setTail q'.chunks tail) := by
  obtain ⟨hsize, hmax, hsoft⟩ := Limits.mk.inj hlimits
  refine { size_pos := hsize.symm ▸ hq.size_pos, max_pos := hmax.symm ▸ hq.max_pos, sized := ?_,
           spare_sized := ?_, full := ?_, fresh := ?_, clean := ?_, counted := ?_, bounded := ?_ }
  · simp only [setTail, List.forall_mem_append, List.forall_mem_singleton, hchunks, hsize]
    exact ⟨hq.sized, hdlen⟩
  · intro c hc
    exact (hq.spare_sized c (hspare c hc)).trans hsize.symm
  · simp only [setTail, List.dropLast_concat, hchunks, hsize]
    exact hfull
  · simp only [setTail, forall_mem_tail_concat, hchunks]
    exact ⟨hq.fresh, fun _ => hr⟩
  · simp only [setTail, List.forall_mem_append, List.forall_mem_singleton, hchunks]
    exact ⟨hq.clean, fun _ => hw⟩
  · simpa only [setTail, List.length_append, List.length_singleton] using hcount
  · intro h
    exact hmax.symm ▸ hbounded (hsoft ▸ h)

theorem view_concat_new {q' : Bufq} (hchunks : q'.chunks = q.chunks) (hr : tail.rOffset = 0)
    (hunread : tail.unread = []) : (q'.setTail q'.chunks tail).view = q.view := by
  rw [view, view, setTail, hchunks]
  simp only [unreadOf_concat, hunread, List.append_nil]
  cases q.chunks with
  | nil => rw [List.nil_append, headOffset, List.head?_cons, Option.map_some, Option.getD_some, hr]
           rfl
  | cons c cs => rfl

/-- All chunks are full: there is a new tail, or no room. -/
theorem newTail_spec (hq : Sound q)
    (hfull : ∀ c ∈ q.chunks, c.wOffset = q.chunkSize ∧ c.rOffset < c.wOffset) :
    (∃ front tail q', q.newTail = some (front, tail, q') ∧ TailOf q q' front tail) ∨
      (q.newTail = none ∧ q.softLimit = false ∧ q.chunkCount = q.maxChunks ∧
        q.view.used = q.maxChunks * q.chunkSize) := by
  cases hspare : q.spare with
  | cons c spare =>
    have hcount := hq.counted
    have hsized := hq.spare_sized c (by rw [hspare]; exact List.mem_cons_self)
    rw [hspare, List.length_cons] at hcount
    refine .inl ⟨q.chunks, c.reset, { q with spare := spare }, ?_, ?_⟩
    · rw [newTail, getSpare, hspare]
      rfl
    · refine ⟨hq.concat_new rfl rfl ?_ ?_ hq.bounded hfull hsized rfl rfl,
        view_concat_new rfl rfl c.unread_reset, rfl, hq.size_pos⟩
      · intro c' hc'
        rw [hspare]
        exact List.mem_cons_of_mem c hc'
      · dsimp only
        omega
  | nil =>
    have hcount := hq.counted
    rw [hspare, List.length_nil, Nat.add_zero] at hcount
    by_cases hno : q.chunkCount ≥ q.maxChunks ∧ ¬ q.softLimit
    · have hsoft : q.softLimit = false := by simpa using hno.2
      have hmax : q.chunkCount = q.maxChunks := Nat.le_antisymm (hq.bounded hsoft) hno.1
      refine .inr ⟨by rw [newTail, getSpare, hspare]; simp [hno], hsoft, hmax, ?_⟩
      rw [view_used hq.fresh, sum_full hfull, ← hcount, hmax]
    · refine .inl ⟨q.chunks, .new q.chunkSize, { q with chunkCount := q.chunkCount + 1 }, ?_, ?_⟩
      · rw [newTail, getSpare, hspare]
        simp only [if_neg hno, Option.map_some]
      · refine ⟨hq.concat_new rfl rfl (fun _ h => h) ?_ ?_ hfull (BufChunk.dlen_new _) rfl rfl,
          view_concat_new rfl rfl (BufChunk.unread_new _), rfl, hq.size_pos⟩
        · simp [hspare, hcount]
        · intro hsoft
          dsimp only
          have := not_and_not_right.mp hno
          by_contra hlt
          exact absurd (this (by omega)) (by simp [hsoft])

/-- There is a tail with room, or no room at all under a hard limit. -/
theorem getNonFullTail_spec (hq : Sound q) :
    (∃ front tail q', q.getNonFullTail = some (front, tail, q') ∧ TailOf q q' front tail) ∨
      (q.getNonFullTail = none ∧ q.softLimit = false ∧ q.chunkCount = q.maxChunks ∧
        q.view.used = q.maxChunks * q.chunkSize) := by
  rw [getNonFullTail]
  cases hlast : q.chunks.getLast? with
  | none =>
    have hnil : q.chunks = [] := List.getLast?_eq_none_iff.mp hlast
    exact newTail_spec hq (by simp [hnil])
  | some tail =>
    obtain ⟨front, hchunks⟩ := List.getLast?_eq_some_iff.mp hlast
    have hsame : q.setTail front tail = q := by rw [setTail, ← hchunks]
    have hdlen := hq.sized tail (by simp [hchunks])
    by_cases hroom : tail.isFull = true
    · have hw : tail.wOffset = q.chunkSize := by
        rw [BufChunk.isFull, decide_eq_true_eq, hdlen] at hroom
        exact Nat.le_antisymm (hdlen ▸ tail.w_le) hroom
      have hr : tail.rOffset < tail.wOffset := by
        refine Nat.lt_of_le_of_ne tail.r_le fun heq => ?_
        have hzero := hq.clean tail (by simp [hchunks]) heq
        have hpos := hq.size_pos
        omega
      have hfull := hq.full
      rw [hchunks, List.dropLast_concat] at hfull
      simp only [hroom, not_true_eq_false, if_false]
      refine newTail_spec hq ?_
      rw [hchunks]
      exact List.forall_mem_append.mpr ⟨hfull, List.forall_mem_singleton.mpr ⟨hw, hr⟩⟩
    · have hlt : tail.wOffset < q.chunkSize := by
        rw [BufChunk.isFull, decide_eq_true_eq, hdlen] at hroom
        omega
      refine .inl ⟨front, tail, q, ?_, hsame.symm ▸ hq, congrArg view hsame, rfl, hlt⟩
      simp only [hchunks, List.dropLast_concat, if_pos hroom]

/-- **A write takes as much as there is room for**, and is refused only where there is none. -/
theorem writeLoop_spec (turns : Nat) (buf : Bytes) (q : Bufq) (written : Nat) (hq : Sound q)
    (hturns : buf.length ≤ turns) :
    ∃ q', writeLoop turns q buf written = some (q', written + q.view.accepts q.limits buf.length,
        if written + q.view.accepts q.limits buf.length = 0 ∧ buf ≠ [] then .again else .ok) ∧
      Sound q' ∧ q'.limits = q.limits ∧ q'.view = q.view.write q.limits buf := by
  induction turns generalizing buf q written with
  | zero =>
    obtain rfl : buf = [] := List.eq_nil_of_length_eq_zero (Nat.le_zero.mp hturns)
    exact ⟨q, by simp [writeLoop, ByteFifo.accepts], hq, rfl, by simp [ByteFifo.write]⟩
  | succ turns ih =>
    cases buf with
    | nil => exact ⟨q, by simp [writeLoop, ByteFifo.accepts], hq, rfl, by simp [ByteFifo.write]⟩
    | cons b buf =>
      rcases getNonFullTail_spec hq with ⟨front, tail, q₁, hget, htail⟩ | ⟨hget, hsoft, hcount, hfull⟩
      · obtain ⟨hgrown, hlimits, hview⟩ := htail.append (b :: buf)
        have hle := htail.append_le_accepts (b :: buf)
        have hpos : (tail.append (b :: buf)).2 ≠ 0 := htail.append_pos (List.cons_ne_nil b buf)
        obtain ⟨q', hrun, hsound, hlim, hv⟩ := ih ((b :: buf).drop (tail.append (b :: buf)).2) _
          (written + (tail.append (b :: buf)).2) hgrown (by
            rw [List.length_drop, List.length_cons] at *
            omega)
        rw [hlimits, hview] at hrun hv
        rw [List.length_drop, Nat.add_assoc, ByteFifo.accepts_take hle] at hrun
        refine ⟨q', ?_, hsound, hlim.trans hlimits, hv.trans (ByteFifo.write_take hle)⟩
        rw [writeLoop, hget]
        simp only [if_neg hpos]
        rw [hrun]
        have hmore : written + q.view.accepts q.limits (b :: buf).length ≠ 0 := by omega
        rw [if_neg fun h => hmore h.1, if_neg fun h => hmore h.1]
      · have hzero : q.view.accepts q.limits (b :: buf).length = 0 := by
          have hsoft' : q.limits.softLimit = false := hsoft
          have hused : q.view.used = q.limits.maxChunks * q.limits.chunkSize := hfull
          rw [ByteFifo.accepts, hsoft', hused, Nat.sub_self]
          simp
        refine ⟨q, ?_, hq, rfl, ?_⟩
        · rw [writeLoop, hget, hzero]
          simp [hcount, hsoft]
        · rw [ByteFifo.write, hzero]
          simp

end

end Bufq

end NetMod.BufferQueue
