import Mathlib.Data.List.TakeDrop

/-!
# Blocks of memory

A block is the list of its cells.  `memcpyTo`, `memcpyFrom` and `memmoveDown` are the C copies with
their bounds, and `assign` the assignment to one cell: they give `none` where the block would be
left.  `resize` is what a successful `realloc` makes of a block; the cells it adds hold an arbitrary
value `fresh`.

The lemmas say what a copy does to the front of a block, the part a buffer uses.
-/

namespace NetMod.ByteMemory

variable {α : Type*}

/-- `memcpy(dst + off, src, length of src)`. -/
def memcpyTo (dst : List α) (off : Nat) (src : List α) : Option (List α) :=
  if off + src.length ≤ dst.length then
    some (dst.take off ++ src ++ dst.drop (off + src.length))
  else none

/-- `memcpy(out, src, n)`. -/
def memcpyFrom (src : List α) (n : Nat) : Option (List α) :=
  if n ≤ src.length then some (src.take n) else none

/-- `memmove(block, block + k, m)`. -/
def memmoveDown (block : List α) (k m : Nat) : Option (List α) :=
  if k + m ≤ block.length then some ((block.drop k).take m ++ block.drop m) else none

/-- `block[i] = x`. -/
def assign (block : List α) (i : Nat) (x : α) : Option (List α) := memcpyTo block i [x]

/-- A successful `realloc(block, n)`. -/
def resize (fresh : α) (block : List α) (n : Nat) : List α :=
  block.take n ++ List.replicate (n - block.length) fresh

@[simp] theorem resize_length (fresh : α) (block : List α) (n : Nat) :
    (resize fresh block n).length = n := by
  simp only [resize, List.length_append, List.length_take, List.length_replicate]
  omega

theorem take_resize (fresh : α) (block : List α) {k n : Nat} (hkn : k ≤ n)
    (hk : k ≤ block.length) : (resize fresh block n).take k = block.take k := by
  rw [resize, List.take_append_of_le_length (by rw [List.length_take]; omega), List.take_take,
    Nat.min_eq_left hkn]

theorem memcpyTo_eq_none {dst : List α} {off : Nat} {src : List α} :
    memcpyTo dst off src = none ↔ dst.length < off + src.length := by
  rw [memcpyTo]
  split <;> simp <;> omega

theorem memcpyTo_length {dst dst' : List α} {off : Nat} {src : List α}
    (h : memcpyTo dst off src = some dst') : dst'.length = dst.length := by
  rw [memcpyTo, Option.ite_none_right_eq_some, Option.some.injEq] at h
  obtain ⟨hle, rfl⟩ := h
  simp only [List.length_append, List.length_take, List.length_drop]
  omega

/-- **Copying behind a prefix appends to it.** -/
theorem memcpyTo_spec (dst : List α) (off : Nat) (src : List α)
    (h : off + src.length ≤ dst.length) :
    ∃ dst', memcpyTo dst off src = some dst' ∧ dst'.length = dst.length ∧
      dst'.take (off + src.length) = dst.take off ++ src := by
  refine ⟨_, if_pos h, ?_, ?_⟩
  · simp only [List.length_append, List.length_take, List.length_drop]
    omega
  · have hlen : off + src.length = (dst.take off ++ src).length := by
      simp only [List.length_append, List.length_take]
      omega
    rw [hlen, List.take_left]

/-- **Storing behind a prefix appends to it.** -/
theorem assign_spec (block : List α) (x : α) {i : Nat} (h : i < block.length) :
    ∃ block', assign block i x = some block' ∧ block'.length = block.length ∧
      block'.take (i + 1) = block.take i ++ [x] := memcpyTo_spec block i [x] h

theorem assign_eq_none {block : List α} {i : Nat} {x : α} :
    assign block i x = none ↔ block.length ≤ i := by
  rw [assign, memcpyTo_eq_none, List.length_singleton]
  omega

theorem memcpyFrom_spec (src : List α) (n : Nat) (h : n ≤ src.length) :
    memcpyFrom src n = some (src.take n) := if_pos h

/-- **Moving down drops the front of the prefix.** -/
theorem memmoveDown_spec (block : List α) (k m : Nat) (h : k + m ≤ block.length) :
    ∃ block', memmoveDown block k m = some block' ∧ block'.length = block.length ∧
      block'.take m = (block.take (k + m)).drop k := by
  refine ⟨_, if_pos h, ?_, ?_⟩
  · simp only [List.length_append, List.length_take, List.length_drop]
    omega
  · have hlen : m ≤ ((block.drop k).take m).length := by
      simp only [List.length_take, List.length_drop]
      omega
    rw [List.take_append_of_le_length hlen, List.take_take, Nat.min_self, List.drop_take,
      Nat.add_sub_cancel_left]

end NetMod.ByteMemory
