import Mathlib.Order.Basic
import Mathlib.Tactic.Linarith

/-!
# Conversions between machine integers

What the conversions of fixed-width integers do to the numbers they stand for.  A signed value is the
balanced remainder of its bits (`toInt_eq_bmod`); widening keeps it, narrowing takes the balanced
remainder again.  The bounds under which nothing is lost are left to `omega`.
-/

namespace NetMod.FixedWidth

theorem toInt_eq_bmod (x : Int64) : x.toInt = (x.toUInt64.toNat : Int).bmod (2 ^ 64) := by
  show x.toBitVec.toInt = _
  rw [BitVec.toInt_eq_toNat_bmod]
  rfl

theorem toInt_sub_bmod (a b : Int64) :
    (a - b).toInt = ((a.toUInt64.toNat : Int) - (b.toUInt64.toNat : Int)).bmod (2 ^ 64) := by
  rw [Int64.toInt_sub, toInt_eq_bmod, toInt_eq_bmod, Int.bmod_sub_bmod, Int.sub_bmod_bmod]

theorem toUInt64_toNat {x : Int64} (h : 0 ≤ x.toInt) : x.toUInt64.toNat = x.toInt.toNat := by
  have hcond := BitVec.toInt_eq_toNat_cond x.toBitVec
  have hlt : x.toUInt64.toNat < 2 ^ 64 := x.toUInt64.toNat_lt
  change x.toInt = if 2 * x.toUInt64.toNat < 2 ^ 64 then (x.toUInt64.toNat : Int)
    else (x.toUInt64.toNat : Int) - ((2 ^ 64 : Nat) : Int) at hcond
  split at hcond <;> omega

theorem max_zero_toInt (x : Int32) : (max 0 x).toInt = max 0 x.toInt := by
  show (if 0 ≤ x then x else 0 : Int32).toInt = _
  split
  · rename_i h
    rw [Int32.le_iff_toInt_le] at h
    exact (max_eq_right h).symm
  · rename_i h
    rw [Int32.le_iff_toInt_le, not_le] at h
    exact (max_eq_left h.le).symm

/-- Widening a signed value to an unsigned one extends its sign. -/
theorem widened_toNat (x : Int32) : (x.toInt64.toUInt64.toNat : Int) = x.toInt % (2 ^ 64 : Nat) := by
  have hlt : x.toInt64.toUInt64.toNat < 2 ^ 64 := x.toInt64.toUInt64.toNat_lt
  rw [← Int32.toInt_toInt64 x, toInt_eq_bmod, Int.bmod_emod]
  exact (Int.emod_eq_of_lt (by omega) (by omega)).symm

/-- Narrowing an unsigned value to a signed one takes the balanced remainder. -/
theorem narrowed_toInt (n : UInt64) : n.toUInt32.toInt32.toInt = (n.toNat : Int).bmod (2 ^ 32) := by
  show (n.toUInt32.toBitVec).toInt = _
  rw [BitVec.toInt_eq_toNat_bmod]
  show ((n.toUInt32.toNat : Nat) : Int).bmod (2 ^ 32) = _
  rw [UInt64.toNat_toUInt32, Int.natCast_mod]
  exact Int.emod_bmod ..

/-- Half of a signed value has a bit to spare. -/
theorem half_bounds (x : Int32) : -(2 ^ 30) ≤ (x / 2).toInt ∧ (x / 2).toInt < 2 ^ 30 := by
  have hlow := Int32.le_toInt x
  have hhigh := Int32.toInt_lt x
  have htwo : (2 : Int32).toInt = 2 := by decide
  have hsign : (2 : Int).sign = 1 := rfl
  have hhalf : -(2 ^ 30) ≤ x.toInt.tdiv 2 ∧ x.toInt.tdiv 2 < 2 ^ 30 := by
    rw [Int.tdiv_eq_ediv, hsign]
    split <;> omega
  rw [Int32.toInt_div, htwo, Int.bmod_eq_of_le (by omega) (by omega)]
  exact hhalf

end NetMod.FixedWidth
