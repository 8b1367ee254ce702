import NetMod.BufferQueue

/-!
# `bufq.c`: reading, and whole runs

The loops of `Curl_bufq_read` and `Curl_bufq_skip`, what `Curl_bufq_peek_at` shows, and from the spec
of each function that every run of a queue gives the replies of a `ByteFifo` (`run_refines`).
-/

namespace NetMod.BufferQueue

open NetMod.CurlText

namespace Bufq

/-! ### Reading -/

section

variable {q : Bufq} {c : BufChunk} {cs : List BufChunk}

@[simp] theorem giveBack_limits (q : Bufq) (c : BufChunk) : (q.giveBack c).limits = q.limits := by
  rw [giveBack]
  split <;> rfl

/-- A chunk taken off the front is not lost, or no longer counted. -/
theorem Sound.giveBack (hq : Sound { q with chunks := c :: cs }) {c' : BufChunk}
    (hdlen : c'.dlen = c.dlen) : Sound { q.giveBack c' with chunks := cs } := by
  have hcounted := hq.counted
  have hsized := hq.sized c List.mem_cons_self
  have hkeep : ∀ {p : BufChunk → Prop}, (∀ x ∈ c :: cs, p x) → ∀ x ∈ cs, p x :=
    fun h x hx => h x (List.mem_cons_of_mem c hx)
  have hfull : ∀ x ∈ cs.dropLast, x.wOffset = q.chunkSize ∧ x.rOffset < x.wOffset := by
    intro x hx
    refine hq.full x ?_
    cases cs with
    | nil => exact absurd hx List.not_mem_nil
    | cons c₁ cs => exact List.mem_cons_of_mem c hx
  have hfresh : ∀ x ∈ cs.tail, x.rOffset = 0 := fun x hx => hq.fresh x (List.mem_of_mem_tail hx)
  rw [List.length_cons] at hcounted
  rw [Bufq.giveBack]
  split
  · exact { size_pos := hq.size_pos, max_pos := hq.max_pos, sized := hkeep hq.sized,
            spare_sized := hq.spare_sized, full := hfull, fresh := hfresh, clean := hkeep hq.clean,
            counted := by dsimp only at hcounted ⊢; omega
            bounded := fun h => Nat.le_trans (Nat.sub_le _ _) (hq.bounded h) }
  · exact { size_pos := hq.size_pos, max_pos := hq.max_pos, sized := hkeep hq.sized,
            spare_sized := List.forall_mem_cons.mpr ⟨hdlen.trans hsized, hq.spare_sized⟩
            full := hfull, fresh := hfresh, clean := hkeep hq.clean
            counted := by dsimp only at hcounted ⊢; rw [List.length_cons]; omega
            bounded := hq.bounded }

/-- `prune_head` takes off what is empty: nothing of what can be read. -/
theorem pruneLoop_spec (cs : List BufChunk) (q : Bufq) (hq : Sound { q with chunks := cs }) :
    Sound (q.pruneLoop cs) ∧ (q.pruneLoop cs).limits = q.limits ∧
      (q.pruneLoop cs).view = view { q with chunks := cs } ∧
      (q.pruneLoop cs).chunks.length ≤ cs.length := by
  induction cs generalizing q with
  | nil => exact ⟨hq, rfl, rfl, Nat.le_refl _⟩
  | cons c cs ih =>
    rw [pruneLoop]
    by_cases hempty : c.isEmpty = true
    · obtain ⟨hsound, hlimits, hview, hlen⟩ := ih (q.giveBack c) (hq.giveBack rfl)
      rw [if_pos hempty]
      refine ⟨hsound, hlimits.trans (giveBack_limits q c), ?_, Nat.le_succ_of_le hlen⟩
      have hnil := c.isEmpty_iff.mp hempty
      have hlen0 := c.length_unread
      rw [hnil, List.length_nil, BufChunk.len] at hlen0
      have hw := hq.clean c List.mem_cons_self (by have := c.r_le; omega)
      have hr : c.rOffset = 0 := Nat.le_zero.mp (hw ▸ c.r_le)
      have hhead : headOffset cs = headOffset (c :: cs) := by
        have hfresh := hq.fresh
        cases cs with
        | nil => exact hr.symm
        | cons c₁ cs => exact (hfresh c₁ List.mem_cons_self).trans hr.symm
      rw [hview]
      simp only [view, hhead, unreadOf_cons, hnil, List.nil_append]
    · rw [if_neg hempty]
      exact ⟨hq, rfl, rfl, Nat.le_refl _⟩

/-- The first chunk is not read to its end. -/
theorem Sound.head_read (hq : Sound { q with chunks := c :: cs }) {c' : BufChunk}
    (hdlen : c'.dlen = c.dlen) (hw : c'.wOffset = c.wOffset) (hlt : c'.rOffset < c'.wOffset) :
    Sound { q with chunks := c' :: cs } where
  size_pos := hq.size_pos
  max_pos := hq.max_pos
  sized := List.forall_mem_cons.mpr ⟨hdlen.trans (List.forall_mem_cons.mp hq.sized).1,
    (List.forall_mem_cons.mp hq.sized).2⟩
  spare_sized := hq.spare_sized
  full := by
    have hfull := hq.full
    cases cs with
    | nil => exact fun x hx => absurd hx List.not_mem_nil
    | cons c₁ cs =>
      rw [List.dropLast_cons_cons, List.forall_mem_cons] at hfull ⊢
      exact ⟨⟨hw.trans hfull.1.1, hlt⟩, hfull.2⟩
  fresh := hq.fresh
  clean := List.forall_mem_cons.mpr ⟨fun h => absurd h (Nat.ne_of_lt hlt),
    (List.forall_mem_cons.mp hq.clean).2⟩
  counted := hq.counted
  bounded := hq.bounded

/-- The offset is in the first chunk, and at its start if nothing can be read. -/
theorem Sound.offset_spec (hq : Sound q) :
    q.view.offset < q.chunkSize ∧ (q.view.unread = [] → q.view.offset = 0) := by
  have hsize := hq.size_pos
  cases hchunks : q.chunks with
  | nil => simp [view, hchunks, headOffset, hsize]
  | cons c cs =>
    have hmem : c ∈ q.chunks := by rw [hchunks]; exact List.mem_cons_self
    have hdlen := hq.sized c hmem
    have hclean := hq.clean c hmem
    have hr := c.r_le
    have hw := c.w_le
    rw [BufChunk.dlen] at hdlen
    have hoffset : q.view.offset = c.rOffset := by simp [view, hchunks, headOffset]
    have hunread : q.view.unread = c.unread ++ unreadOf cs := by simp [view, hchunks, unreadOf_cons]
    rw [hoffset, hunread]
    refine ⟨by omega, fun hnil => ?_⟩
    have hlen := c.length_unread
    rw [(List.append_eq_nil_iff.mp hnil).1, List.length_nil, BufChunk.len] at hlen
    omega

theorem Sound.drop_zero (hq : Sound q) : q.view.drop q.limits 0 = q.view := by
  obtain ⟨hlt, hzero⟩ := hq.offset_spec
  rw [ByteFifo.drop, List.drop_zero, Nat.add_zero]
  split
  · rename_i hnil
    rw [← hzero (List.eq_nil_of_length_eq_zero (Nat.le_zero.mp hnil))]
  · have hmod : q.view.offset % q.limits.chunkSize = q.view.offset := Nat.mod_eq_of_lt hlt
    rw [hmod]

/-- A place beyond the first chunk, where there are others. -/
theorem Sound.offset_beyond {c₁ : BufChunk} (hq : Sound { q with chunks := c :: c₁ :: cs }) {n : Nat}
    (hall : c.len ≤ n) : headOffset (c :: c₁ :: cs) + n
      = q.limits.chunkSize + (headOffset (c₁ :: cs) + (n - c.len)) := by
  have hfull := hq.full c (by simp)
  have hhead : headOffset (c₁ :: cs) = 0 := hq.fresh c₁ List.mem_cons_self
  have hr : headOffset (c :: c₁ :: cs) = c.rOffset := rfl
  have hsize : q.limits.chunkSize = q.chunkSize := rfl
  rw [BufChunk.len] at hall ⊢
  dsimp only at hfull
  omega

/-- Reading beyond the first chunk goes on in the others. -/
theorem Sound.drop_head (hq : Sound { q with chunks := c :: cs }) {len : Nat} (hall : c.len ≤ len) :
    ByteFifo.drop q.limits (view { q with chunks := c :: cs }) len
      = ByteFifo.drop q.limits (view { q with chunks := cs }) (len - c.len) := by
  have hlen := c.length_unread
  simp only [view, unreadOf_cons, ByteFifo.drop, List.length_append, hlen]
  rw [List.drop_append, List.drop_eq_nil_of_le (hlen.symm ▸ hall), List.nil_append, hlen]
  cases cs with
  | nil => simp [unreadOf, hall]
  | cons c₁ cs =>
    have hle : c.len + (unreadOf (c₁ :: cs)).length ≤ len
        ↔ (unreadOf (c₁ :: cs)).length ≤ len - c.len := by omega
    rw [hq.offset_beyond hall, Nat.add_mod_left, if_congr hle rfl rfl]
    rfl

theorem view_nil (hchunks : q.chunks = []) (len : Nat) :
    q.view.unread.take len = [] ∧ q.view.drop q.limits len = q.view := by
  simp [view, hchunks, unreadOf, headOffset, ByteFifo.drop]

/-- A chunk that is read to its end is taken off. -/
theorem Sound.prune_whole (hq : Sound { q with chunks := c :: cs }) {len : Nat} (hall : c.len ≤ len) :
    (c.read len).2 = c.unread ∧
      Sound (pruneHead { q with chunks := (c.read len).1 :: cs }) ∧
      (pruneHead { q with chunks := (c.read len).1 :: cs }).limits = q.limits ∧
      (pruneHead { q with chunks := (c.read len).1 :: cs }).view = view { q with chunks := cs } ∧
      (pruneHead { q with chunks := (c.read len).1 :: cs }).chunks.length ≤ cs.length := by
  obtain ⟨hbytes, hunread, hdlen⟩ := c.read_spec len
  have hempty : (c.read len).1.isEmpty = true := by
    rw [BufChunk.isEmpty_iff, hunread]
    exact List.drop_eq_nil_of_le (c.length_unread.symm ▸ hall)
  have hprune : pruneHead { q with chunks := (c.read len).1 :: cs }
      = ({ q with chunks := (c.read len).1 :: cs }.giveBack (c.read len).1).pruneLoop cs := by
    rw [pruneHead, pruneLoop, if_pos hempty]
  have hgiven := Sound.giveBack (q := { q with chunks := (c.read len).1 :: cs }) hq hdlen
  obtain ⟨hsound, hlimits, hview, hlen⟩ := pruneLoop_spec cs _ hgiven
  rw [← hprune] at hsound hlimits hview hlen
  rw [giveBack_limits] at hlimits
  refine ⟨?_, hsound, hlimits, hview, hlen⟩
  rw [hbytes]
  exact List.take_of_length_le (c.length_unread.symm ▸ hall)

/-- A read that ends within the first chunk leaves that in its place. -/
theorem Sound.prune_part (hq : Sound { q with chunks := c :: cs }) {len : Nat} (hpart : len < c.len) :
    (c.read len).2.length = len ∧
      pruneHead { q with chunks := (c.read len).1 :: cs } = { q with chunks := (c.read len).1 :: cs } ∧
      Sound { q with chunks := (c.read len).1 :: cs } ∧
      view { q with chunks := (c.read len).1 :: cs }
        = ByteFifo.drop q.limits (view { q with chunks := c :: cs }) len := by
  obtain ⟨hbytes, hunread, hdlen⟩ := c.read_spec len
  obtain ⟨hw, hr⟩ := c.read_part hpart
  have hlen := c.length_unread
  have hlt : (c.read len).1.rOffset < (c.read len).1.wOffset := by
    rw [hr, hw]
    rw [BufChunk.len] at hpart
    omega
  have hsound := hq.head_read hdlen hw hlt
  refine ⟨?_, ?_, hsound, ?_⟩
  · rw [hbytes, List.length_take]
    omega
  · rw [pruneHead, pruneLoop, if_neg (by rw [BufChunk.isEmpty, decide_eq_true_eq]; omega)]
  · have hmod : (c.rOffset + len) % q.limits.chunkSize = c.rOffset + len := by
      rw [← hr]
      exact Nat.mod_eq_of_lt hsound.offset_spec.1
    have hmore : ¬ (c.unread ++ unreadOf cs).length ≤ len := by
      rw [List.length_append]
      omega
    have hoffset : ∀ b : BufChunk, headOffset (b :: cs) = b.rOffset := fun _ => rfl
    simp only [view, unreadOf_cons, ByteFifo.drop, hoffset]
    rw [if_neg hmore, hmod, List.drop_append_of_le_length (by omega), ← hunread, ← hr]

theorem readLoop_zero (turns : Nat) (q : Bufq) (out : Bytes) :
    readLoop turns q 0 out = some (q, out) := by
  cases turns <;> simp [readLoop]

/-- **A read takes what is due first**, and no more than there is. -/
theorem readLoop_spec (turns : Nat) (len : Nat) (q : Bufq) (out : Bytes) (hq : Sound q)
    (hturns : q.chunks.length ≤ turns) :
    ∃ q', readLoop turns q len out = some (q', out ++ q.view.unread.take len) ∧ Sound q' ∧
      q'.limits = q.limits ∧ q'.view = q.view.drop q.limits len := by
  induction turns generalizing len q out with
  | zero =>
    have hchunks : q.chunks = [] := List.eq_nil_of_length_eq_zero (Nat.le_zero.mp hturns)
    obtain ⟨htake, hview⟩ := view_nil hchunks len
    exact ⟨q, by rw [readLoop, if_pos (.inr hchunks), htake, List.append_nil], hq, rfl, hview.symm⟩
  | succ turns ih =>
    by_cases hzero : len = 0
    · rw [hzero, readLoop_zero]
      exact ⟨q, by simp, hq, rfl, hq.drop_zero.symm⟩
    · rw [readLoop, if_neg hzero]
      cases hchunks : q.chunks with
      | nil =>
        obtain ⟨htake, hview⟩ := view_nil hchunks len
        exact ⟨q, by rw [htake, List.append_nil], hq, rfl, hview.symm⟩
      | cons c cs =>
        have hsame : { q with chunks := c :: cs } = q := by rw [← hchunks]
        have hq' : Sound { q with chunks := c :: cs } := hsame.symm ▸ hq
        have hview : q.view.unread = c.unread ++ unreadOf cs := by
          rw [view, hchunks, unreadOf_cons]
        have hlen := c.length_unread
        rw [hchunks, List.length_cons] at hturns
        dsimp only
        rw [hview]
        by_cases hall : c.len ≤ len
        · obtain ⟨hbytes, hsound, hlimits, hv, hfewer⟩ := hq'.prune_whole hall
          obtain ⟨q', hrun, hs, hl, hv'⟩ := ih (len - c.len) _ (out ++ c.unread) hsound (by omega)
          have hcut : c.unread.take len = c.unread := List.take_of_length_le (hlen.symm ▸ hall)
          refine ⟨q', ?_, hs, hl.trans hlimits, ?_⟩
          · rw [hbytes, hlen, hrun, hv, List.take_append, hcut, hlen, List.append_assoc]
            rfl
          · rw [hv', hlimits, hv]
            exact (hq'.drop_head hall).symm.trans (by rw [hsame])
        · obtain ⟨hcut, hkept, hsound, hv⟩ := hq'.prune_part (Nat.lt_of_not_le hall)
          rw [hkept, hcut, Nat.sub_self, readLoop_zero]
          refine ⟨_, ?_, hsound, rfl, ?_⟩
          · rw [(c.read_spec len).1, List.take_append_of_le_length (by omega)]
          · exact hv.trans (by rw [hsame])

/-- Skipping is reading, but for the bytes. -/
theorem skipLoop_eq (turns amount : Nat) (q : Bufq) (out : Bytes) :
    skipLoop turns q amount = (readLoop turns q amount out).map Prod.fst := by
  induction turns generalizing amount q out with
  | zero =>
    rw [skipLoop, readLoop]
    split <;> rfl
  | succ turns ih =>
    rw [skipLoop, readLoop]
    by_cases hzero : amount = 0
    · rw [if_pos hzero, if_pos hzero]
      rfl
    · rw [if_neg hzero, if_neg hzero]
      cases q.chunks with
      | nil => rfl
      | cons c cs =>
        dsimp only
        rw [c.skip_eq, ih]

/-- Behind the first chunk, in the others. -/
theorem Sound.peekAt_head (hq : Sound { q with chunks := c :: cs }) {offset : Nat}
    (hall : c.len ≤ offset) :
    (view { q with chunks := c :: cs }).peekAt q.limits offset
      = (view { q with chunks := cs }).peekAt q.limits (offset - c.len) := by
  have hlen := c.length_unread
  simp only [view, unreadOf_cons, ByteFifo.peekAt, List.length_append, hlen]
  rw [List.drop_append, List.drop_eq_nil_of_le (hlen.symm ▸ hall), List.nil_append, hlen]
  cases cs with
  | nil => simp [unreadOf, hall]
  | cons c₁ cs =>
    rw [hq.offset_beyond hall, Nat.add_mod_left]
    have hlt : offset < c.len + (unreadOf (c₁ :: cs)).length
        ↔ offset - c.len < (unreadOf (c₁ :: cs)).length := by omega
    rw [if_congr hlt rfl rfl]
    rfl

/-- Within the first chunk, up to its end. -/
theorem Sound.peekAt_within (hq : Sound { q with chunks := c :: cs }) {offset : Nat}
    (hlt : offset < c.len) :
    (view { q with chunks := c :: cs }).peekAt q.limits offset = some (c.peekAt offset) := by
  have hlen := c.length_unread
  have hdlen := hq.sized c List.mem_cons_self
  have hw := c.w_le
  have hhead : headOffset (c :: cs) = c.rOffset := rfl
  have hsize : q.limits.chunkSize = q.chunkSize := rfl
  have hmod : (c.rOffset + offset) % q.chunkSize = c.rOffset + offset := by
    refine Nat.mod_eq_of_lt ?_
    rw [BufChunk.len] at hlt
    rw [BufChunk.dlen] at hdlen
    dsimp only at hdlen
    omega
  have hdrop : (c.unread.drop offset).length = c.len - offset := by rw [List.length_drop, hlen]
  simp only [view, unreadOf_cons, ByteFifo.peekAt, List.length_append, hlen, hhead, hsize, hmod]
  rw [if_pos (by omega), List.drop_append_of_le_length (by omega), c.peekAt_eq]
  cases cs with
  | nil =>
    rw [unreadOf, List.flatMap_nil, List.append_nil, List.take_of_length_le]
    rw [hdrop, BufChunk.len]
    rw [BufChunk.dlen] at hdlen
    dsimp only at hdlen
    omega
  | cons c₁ cs =>
    have hfull := hq.full c (by simp)
    rw [List.take_left']
    rw [hdrop, BufChunk.len]
    dsimp only at hfull
    omega

theorem peekAtLoop_spec (cs : List BufChunk) (q : Bufq) (hq : Sound { q with chunks := cs })
    (offset : Nat) :
    peekAtLoop cs offset = (view { q with chunks := cs }).peekAt q.limits offset := by
  induction cs generalizing q offset with
  | nil => simp [peekAtLoop, view, unreadOf, ByteFifo.peekAt]
  | cons c cs ih =>
    rw [peekAtLoop]
    by_cases hall : c.len ≤ offset
    · rw [hq.peekAt_head hall]
      have hrest := ih (q.giveBack c) (hq.giveBack rfl) (offset - c.len)
      rw [giveBack_limits] at hrest
      by_cases hzero : c.len = 0
      · -- an empty chunk is the last one
        cases cs with
        | nil => simp [hzero, view, unreadOf, ByteFifo.peekAt]
        | cons c₁ cs =>
          have hfull := hq.full c (by simp)
          rw [BufChunk.len] at hzero
          omega
      · rw [if_neg hzero, if_pos hall, hrest]
        rfl
    · rw [if_neg (by omega), if_neg hall, hq.peekAt_within (Nat.lt_of_not_le hall)]

theorem pruneHead_spec (hq : Sound q) : Sound q.pruneHead ∧ q.pruneHead.limits = q.limits ∧
    q.pruneHead.view = q.view := by
  obtain ⟨hsound, hlimits, hview, -⟩ := pruneLoop_spec q.chunks q hq
  exact ⟨hsound, hlimits, hview⟩

/-- An empty first chunk is the only one. -/
theorem Sound.chunks_of_empty (hq : Sound { q with chunks := c :: cs }) (hempty : c.isEmpty = true) :
    cs = [] := by
  cases cs with
  | nil => rfl
  | cons c₁ cs =>
    have hfull := hq.full c (by simp)
    rw [BufChunk.isEmpty, decide_eq_true_eq] at hempty
    omega

theorem peek_spec (hq : Sound q) : Sound q.peek.1 ∧ q.peek.1.limits = q.limits ∧
    q.peek.1.view = q.view ∧ q.peek.2 = q.view.peekAt q.limits 0 := by
  rw [peek]
  cases hchunks : q.chunks with
  | nil => exact ⟨hq, rfl, rfl, by simp [view, shown, hchunks, unreadOf, ByteFifo.peekAt]⟩
  | cons c cs =>
    have hsame : { q with chunks := c :: cs } = q := by rw [← hchunks]
    have hq' : Sound { q with chunks := c :: cs } := hsame.symm ▸ hq
    rw [List.head?_cons, Option.any_some]
    by_cases hempty : c.isEmpty = true
    · have hcs := hq'.chunks_of_empty hempty
      obtain ⟨hsound, hlimits, hview⟩ := pruneHead_spec hq
      have hpruned : q.pruneHead.chunks = [] := by
        rw [pruneHead, hchunks, hcs, pruneLoop, if_pos hempty]
        rfl
      rw [if_pos hempty]
      refine ⟨hsound, hlimits, hview, ?_⟩
      simp [view, shown, hpruned, hchunks, hcs, unreadOf, c.isEmpty_iff.mp hempty, ByteFifo.peekAt]
    · have hlen : 0 < c.len := by
        rw [BufChunk.isEmpty, decide_eq_true_eq] at hempty
        rw [BufChunk.len]
        omega
      have hzero : c.peekAt 0 = c.peek := by
        rw [c.peekAt_eq, BufChunk.peek, ← c.unread_eq, List.drop_zero]
      have hshown := hq'.peekAt_within hlen
      rw [hsame, hzero] at hshown
      rw [if_neg hempty]
      refine ⟨hq, rfl, rfl, ?_⟩
      rw [hshown, shown, hchunks]
      exact if_pos hempty

theorem reset_spec (hq : Sound q) : Sound q.reset ∧ q.reset.limits = q.limits ∧ q.reset.view = {} := by
  refine ⟨{ size_pos := hq.size_pos, max_pos := hq.max_pos, sized := ?_, spare_sized := ?_, full := ?_,
            fresh := ?_, clean := ?_, counted := ?_, bounded := hq.bounded }, rfl, rfl⟩
  · simp [reset]
  · simp only [reset, List.forall_mem_append, List.mem_reverse]
    exact ⟨hq.sized, hq.spare_sized⟩
  · simp [reset]
  · simp [reset]
  · simp [reset]
  · have hcounted := hq.counted
    simp only [reset, List.length_append, List.length_reverse, List.length_nil]
    omega

theorem sipn_spec (hq : Sound q) (maxLen : Nat) (reader : Reader) :
    Sound (q.sipn maxLen reader).1 ∧ (q.sipn maxLen reader).1.limits = q.limits ∧
      ((q.sipn maxLen reader).1.view, (q.sipn maxLen reader).2)
        = q.view.sip q.limits maxLen reader := by
  rw [sipn, ByteFifo.sip]
  rcases getNonFullTail_spec hq with ⟨front, tail, q₁, hget, htail⟩ | ⟨hget, hsoft, hcount, hfull⟩
  · have hno : ¬ (q.limits.softLimit = false ∧
        q.view.used = q.limits.maxChunks * q.limits.chunkSize) := by
      rintro ⟨hsoft, hused⟩
      have hle := htail.tailRoom_le hsoft
      have hroom := htail.room
      have hused' : q.view.used = q.maxChunks * q.chunkSize := hused
      omega
    have hroom : tail.dlen - tail.wOffset ≠ 0 := by
      have := htail.room
      rw [htail.dlen]
      omega
    rw [hget, if_neg hno, htail.tailRoom]
    simp only [BufChunk.slurpn, if_neg hroom]
    cases hread : reader.reads (slurpSize (tail.dlen - tail.wOffset) maxLen) with
    | error e => exact ⟨htail.sound, htail.limits, by rw [← htail.view]; rfl⟩
    | ok bytes =>
      obtain ⟨hsound, hlimits, hview⟩ := htail.append bytes
      have hfits := reader.fits _ _ hread
      have hsize : slurpSize (tail.dlen - tail.wOffset) maxLen ≤ tail.dlen - tail.wOffset := by
        rw [slurpSize]
        split <;> omega
      have hall : bytes.take (tail.append bytes).2 = bytes := by
        rw [tail.append_snd, Nat.min_eq_right (Nat.le_trans hfits hsize), List.take_length]
      rw [hall] at hview
      exact ⟨hsound, hlimits, by dsimp only; rw [hview]; rfl⟩
  · have hno : q.limits.softLimit = false ∧ q.view.used = q.limits.maxChunks * q.limits.chunkSize :=
      ⟨hsoft, hfull⟩
    rw [hget, if_pos hno]
    refine ⟨hq, rfl, ?_⟩
    rw [hcount, if_neg (Nat.lt_irrefl _)]

/-! ### What it tells -/

theorem len_eq (q : Bufq) : q.len = q.view.unread.length := by
  rw [len, view, unreadOf, List.length_flatMap]
  exact congrArg List.sum (List.map_congr_left fun c _ => c.length_unread.symm)

theorem Sound.isEmpty_iff (hq : Sound q) : q.isEmpty = true ↔ q.view.unread = [] := by
  rw [isEmpty, view]
  cases hchunks : q.chunks with
  | nil => simp [unreadOf]
  | cons c cs =>
    have hsame : { q with chunks := c :: cs } = q := by rw [← hchunks]
    have hq' : Sound { q with chunks := c :: cs } := hsame.symm ▸ hq
    rw [List.head?_cons, Option.all_some, unreadOf_cons, List.append_eq_nil_iff, c.isEmpty_iff]
    constructor
    · intro hnil
      rw [hq'.chunks_of_empty (c.isEmpty_iff.mpr hnil)]
      exact ⟨hnil, rfl⟩
    · exact And.left

/-- Under a hard limit a queue is full exactly where all its room is used. -/
theorem Sound.isFull_iff (hq : Sound q) (hsoft : q.softLimit = false) :
    q.isFull = true ↔ q.view.used = q.maxChunks * q.chunkSize := by
  have hcounted := hq.counted
  have hbounded := hq.bounded hsoft
  have hsize := hq.size_pos
  rw [isFull]
  cases hlast : q.chunks.getLast? with
  | none =>
    have hnil : q.chunks = [] := List.getLast?_eq_none_iff.mp hlast
    have hused : q.view.used = 0 := by rw [view_used hq.fresh, hnil]; rfl
    have hpos := Nat.mul_pos hq.max_pos hsize
    simp only [Bool.false_eq_true, false_iff]
    omega
  | some tail =>
    obtain ⟨front, hchunks⟩ := List.getLast?_eq_some_iff.mp hlast
    have hsame : q.setTail front tail = q := by rw [setTail, ← hchunks]
    have hused : q.view.used = front.length * q.chunkSize + tail.wOffset := by
      have h := Sound.used_setTail (hsame.symm ▸ hq)
      rwa [hsame] at h
    have hdlen := hq.sized tail (by simp [hchunks])
    have hw : tail.wOffset ≤ q.chunkSize := hdlen ▸ tail.w_le
    rw [hchunks, List.length_append, List.length_singleton] at hcounted
    by_cases hmore : front.length + 1 < q.maxChunks
    · -- there is another chunk to come
      have hmul := Nat.mul_le_mul_right q.chunkSize (Nat.succ_le_of_lt hmore)
      rw [Nat.succ_eq_add_one, Nat.add_mul, Nat.add_mul] at hmul
      have hno : q.view.used ≠ q.maxChunks * q.chunkSize := by omega
      refine iff_of_false ?_ hno
      by_cases hspare : q.spare.isEmpty = true
      · have hnil : q.spare = [] := List.isEmpty_iff.mp hspare
        rw [hnil, List.length_nil] at hcounted
        simp [hspare, show q.chunkCount < q.maxChunks by omega]
      · simp [hspare]
    · have hmax : q.maxChunks = front.length + 1 := by omega
      have hnil : q.spare = [] := List.eq_nil_of_length_eq_zero (by omega)
      have hcount : q.chunkCount = q.maxChunks := by
        rw [hnil, List.length_nil] at hcounted
        omega
      have hmul : q.maxChunks * q.chunkSize = front.length * q.chunkSize + q.chunkSize := by
        rw [hmax, Nat.add_mul, Nat.one_mul]
      simp only [hnil, List.isEmpty_nil, not_true_eq_false, if_false, hcount, Nat.lt_irrefl,
        gt_iff_lt, BufChunk.isFull, decide_eq_true_eq]
      rw [hdlen]
      omega

end

end Bufq

/-! ### Runs -/

/-- A call of one of the functions. -/
inductive Op where
  | write (buf : Bytes)
  | read (len : Nat)
  | skip (amount : Nat)
  | peek
  | peekAt (offset : Nat)
  | sipn (maxLen : Nat) (reader : Reader)
  | reset

/-- What a call gives its caller. -/
inductive Reply where
  | wrote (n : Nat) (code : CURLcode)
  | copied (bytes : Bytes) (code : CURLcode)
  | shown (bytes : Option Bytes)
  | sipped (r : Except CURLcode Nat)
  | nothing

def Bufq.step (q : Bufq) : Op → Option (Bufq × Reply)
  | .write buf => (q.write buf).map fun r => (r.1, .wrote r.2.1 r.2.2)
  | .read len => (q.read len).map fun r => (r.1, .copied r.2.1 r.2.2)
  | .skip amount => (q.skip amount).map fun q => (q, .nothing)
  | .peek => some (q.peek.1, .shown q.peek.2)
  | .peekAt offset => some (q, .shown (q.peekAt offset))
  | .sipn maxLen reader => some ((q.sipn maxLen reader).1, .sipped (q.sipn maxLen reader).2)
  | .reset => some (q.reset, .nothing)

def Bufq.run : Bufq → List Op → Option (Bufq × List Reply)
  | q, [] => some (q, [])
  | q, op :: ops =>
    (q.step op).bind fun r => (run r.1 ops).map fun rest => (rest.1, r.2 :: rest.2)

def ByteFifo.step (l : Limits) (f : ByteFifo) : Op → ByteFifo × Reply
  | .write buf =>
    let n := f.accepts l buf.length
    (f.write l buf, .wrote n (if n = 0 ∧ buf ≠ [] then .again else .ok))
  | .read len =>
    let bytes := f.unread.take len
    (f.drop l len, .copied bytes (if bytes = [] then .again else .ok))
  | .skip amount => (f.drop l amount, .nothing)
  | .peek => (f, .shown (f.peekAt l 0))
  | .peekAt offset => (f, .shown (f.peekAt l offset))
  | .sipn maxLen reader => ((f.sip l maxLen reader).1, .sipped (f.sip l maxLen reader).2)
  | .reset => ({}, .nothing)

def ByteFifo.run (l : Limits) : ByteFifo → List Op → ByteFifo × List Reply
  | f, [] => (f, [])
  | f, op :: ops =>
    let r := f.step l op
    let rest := run l r.1 ops
    (rest.1, r.2 :: rest.2)

/-- **One call**: the queue replies as the machine does. -/
theorem step_refines {q : Bufq} (hq : q.Sound) (op : Op) :
    ∃ q', q.step op = some (q', (q.view.step q.limits op).2) ∧ q'.Sound ∧ q'.limits = q.limits ∧
      q'.view = (q.view.step q.limits op).1 := by
  cases op with
  | write buf =>
    obtain ⟨q', hrun, hsound, hlimits, hview⟩ := q.writeLoop_spec buf.length buf 0 hq (Nat.le_refl _)
    rw [Nat.zero_add] at hrun
    exact ⟨q', by rw [Bufq.step, Bufq.write, hrun]; rfl, hsound, hlimits, hview⟩
  | read len =>
    obtain ⟨q', hrun, hsound, hlimits, hview⟩ := q.readLoop_spec q.chunks.length len [] hq
      (Nat.le_refl _)
    rw [List.nil_append] at hrun
    exact ⟨q', by rw [Bufq.step, Bufq.read, hrun]; rfl, hsound, hlimits, hview⟩
  | skip amount =>
    obtain ⟨q', hrun, hsound, hlimits, hview⟩ := q.readLoop_spec q.chunks.length amount [] hq
      (Nat.le_refl _)
    refine ⟨q', ?_, hsound, hlimits, hview⟩
    rw [Bufq.step, Bufq.skip, Bufq.skipLoop_eq _ _ _ [], hrun]
    rfl
  | peek =>
    obtain ⟨hsound, hlimits, hview, hshown⟩ := Bufq.peek_spec hq
    exact ⟨q.peek.1, by rw [Bufq.step, hshown]; rfl, hsound, hlimits, hview⟩
  | peekAt offset =>
    have hshown := Bufq.peekAtLoop_spec q.chunks q hq offset
    exact ⟨q, by rw [Bufq.step, Bufq.peekAt, hshown]; rfl, hq, rfl, rfl⟩
  | sipn maxLen reader =>
    obtain ⟨hsound, hlimits, hview⟩ := Bufq.sipn_spec hq maxLen reader
    obtain ⟨hview, hreply⟩ := Prod.mk.inj hview
    exact ⟨_, by rw [Bufq.step, hreply]; rfl, hsound, hlimits, hview⟩
  | reset =>
    obtain ⟨hsound, hlimits, hview⟩ := Bufq.reset_spec hq
    exact ⟨q.reset, rfl, hsound, hlimits, hview⟩

theorem run_follows (ops : List Op) (q : Bufq) (hq : q.Sound) :
    ∃ q', q.run ops = some (q', (q.view.run q.limits ops).2) ∧ q'.Sound ∧ q'.limits = q.limits ∧
      q'.view = (q.view.run q.limits ops).1 := by
  induction ops generalizing q with
  | nil => exact ⟨q, rfl, hq, rfl, rfl⟩
  | cons op ops ih =>
    obtain ⟨q₁, hstep, hsound₁, hlimits₁, hview₁⟩ := step_refines hq op
    obtain ⟨q₂, hrun, hsound₂, hlimits₂, hview₂⟩ := ih q₁ hsound₁
    rw [hlimits₁, hview₁] at hrun hview₂
    exact ⟨q₂, by rw [Bufq.run, hstep, Option.bind_some, hrun]; rfl, hsound₂,
      hlimits₂.trans hlimits₁, hview₂⟩

/-- **Every run of a queue is one of the machine**: the same replies to any calls in any order, and
the queue tells its length and whether it is empty or full as the machine has it; all its chunks are in
one of its two lists, and under a hard limit there are no more of them than that. -/
theorem run_refines {chunkSize maxChunks : Nat} (hsize : 0 < chunkSize) (hmax : 0 < maxChunks)
    (softLimit noSpares : Bool) (ops : List Op) :
    ∃ q f replies, (Bufq.init chunkSize maxChunks softLimit noSpares).run ops = some (q, replies) ∧
      ByteFifo.run ⟨chunkSize, maxChunks, softLimit⟩ {} ops = (f, replies) ∧
      q.len = f.unread.length ∧ (q.isEmpty = true ↔ f.unread = []) ∧
      q.chunkCount = q.chunks.length + q.spare.length ∧
      (softLimit = false → q.chunkCount ≤ maxChunks ∧
        (q.isFull = true ↔ f.used = maxChunks * chunkSize)) := by
  obtain ⟨q, hrun, hsound, hlimits, hview⟩ := run_follows ops _
    (Bufq.sound_init hsize hmax softLimit noSpares)
  obtain ⟨hsize', hmax', hsoft'⟩ := Limits.mk.inj hlimits
  refine ⟨q, _, _, hrun, rfl, ?_, ?_, hsound.counted, fun hsoft => ⟨?_, ?_⟩⟩
  · rw [q.len_eq, hview]
    rfl
  · rw [hsound.isEmpty_iff, hview]
    rfl
  · exact Nat.le_trans (hsound.bounded (hsoft'.trans hsoft)) (Nat.le_of_eq hmax')
  · rw [hsound.isFull_iff (hsoft'.trans hsoft), hview, hmax', hsize']
    rfl

/-- Two chunks of two bytes, of which four find room; a byte read of the first chunk makes none. -/
def smallRun : List Op := [.write [1, 2, 3, 4, 5], .read 1, .write [6], .peek, .read 9]

theorem run_refines_small : ∃ q, (Bufq.init 2 2 false false).run smallRun = some (q,
    [.wrote 4 .ok, .copied [1] .ok, .wrote 0 .again, .shown (some [2]), .copied [2, 3, 4] .ok]) := by
  have htwo : 0 < 2 := by decide
  obtain ⟨q, f, replies, hrun, hspec, -⟩ := run_refines htwo htwo false false smallRun
  have hreplies : [.wrote 4 .ok, .copied [1] .ok, .wrote 0 .again, .shown (some [2]),
      .copied [2, 3, 4] .ok] = replies := congrArg Prod.snd hspec
  exact ⟨q, hreplies ▸ hrun⟩

end NetMod.BufferQueue
