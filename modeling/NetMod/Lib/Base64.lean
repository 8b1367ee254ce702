import Mathlib.Data.List.Basic

/-!
# Base64

Three bytes are four digits of six bits each, a last pair of bytes is three digits and a last byte
two.  `digits` and `bytes` are the two directions, `padding` is the number of `=` that fill a text up
to whole groups.  Digits are their values here; the alphabet is a matter of whoever writes them down.
-/

namespace NetMod.Base64

/-- The values of the digits of `s`. -/
def digits : List UInt8 → List Nat
  | a :: b :: c :: s =>
    a.toNat / 4 :: (a.toNat % 4 * 16 + b.toNat / 16) :: (b.toNat % 16 * 4 + c.toNat / 64)
      :: c.toNat % 64 :: digits s
  | [a, b] => [a.toNat / 4, a.toNat % 4 * 16 + b.toNat / 16, b.toNat % 16 * 4]
  | [a] => [a.toNat / 4, a.toNat % 4 * 16]
  | [] => []

/-- The bytes that a list of digits stands for; a digit on its own stands for none. -/
def bytes : List Nat → List UInt8
  | p :: q :: r :: t :: ds =>
    UInt8.ofNat (p * 4 + q / 16) :: UInt8.ofNat (q % 16 * 16 + r / 4)
      :: UInt8.ofNat (r % 4 * 64 + t) :: bytes ds
  | [p, q, r] => [UInt8.ofNat (p * 4 + q / 16), UInt8.ofNat (q % 16 * 16 + r / 4)]
  | [p, q] => [UInt8.ofNat (p * 4 + q / 16)]
  | [_] => []
  | [] => []

/-- How many `=` follow the digits of `n` bytes. -/
def padding (n : Nat) : Nat := (3 - n % 3) % 3

theorem padding_le (n : Nat) : padding n ≤ 2 := by
  rw [padding]
  omega

theorem padding_add_three (n : Nat) : padding (n + 1 + 1 + 1) = padding n := by
  rw [padding, padding]
  omega

theorem length_digits (s : List UInt8) : (digits s).length = (4 * s.length + 2) / 3 := by
  fun_induction digits s with
  | case1 a b c s ih => simp only [List.length_cons, ih]; omega
  | case2 | case3 | case4 => simp only [List.length_cons, List.length_nil]

theorem length_digits_add_padding (s : List UInt8) :
    (digits s).length + padding s.length = 4 * ((s.length + 2) / 3) := by
  rw [length_digits, padding]
  omega

theorem digits_lt (s : List UInt8) : ∀ d ∈ digits s, d < 64 := by
  fun_induction digits s with
  | case1 a b c s ih =>
    have ha := a.toNat_lt
    have hb := b.toNat_lt
    have hc := c.toNat_lt
    intro d hd
    simp only [List.mem_cons] at hd
    rcases hd with rfl | rfl | rfl | rfl | hd
    · omega
    · omega
    · omega
    · omega
    · exact ih d hd
  | case2 a b =>
    have ha := a.toNat_lt
    have hb := b.toNat_lt
    intro d hd
    simp only [List.mem_cons, List.not_mem_nil, or_false] at hd
    rcases hd with rfl | rfl | rfl <;> omega
  | case3 a =>
    have ha := a.toNat_lt
    intro d hd
    simp only [List.mem_cons, List.not_mem_nil, or_false] at hd
    rcases hd with rfl | rfl <;> omega
  | case4 => exact fun _ hd => absurd hd List.not_mem_nil

/-- A byte is put together from the parts that two digits hold of it. -/
theorem ofNat_of_eq {n : Nat} {a : UInt8} (h : n = a.toNat) : UInt8.ofNat n = a := by
  rw [h, UInt8.ofNat_toNat]

/-- **The digits of a text stand for it.** -/
theorem bytes_digits (s : List UInt8) : bytes (digits s) = s := by
  fun_induction digits s with
  | case1 a b c s ih =>
    have hb := b.toNat_lt
    have hc := c.toNat_lt
    rw [bytes, ofNat_of_eq (a := a) (by omega), ofNat_of_eq (a := b) (by omega),
      ofNat_of_eq (a := c) (by omega), ih]
  | case2 a b =>
    have hb := b.toNat_lt
    rw [bytes, ofNat_of_eq (a := a) (by omega), ofNat_of_eq (a := b) (by omega)]
  | case3 a => rw [bytes, ofNat_of_eq (a := a) (by omega)]
  | case4 => rfl

end NetMod.Base64
