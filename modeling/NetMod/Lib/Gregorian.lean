import Mathlib.Data.Int.Init
import Mathlib.Algebra.Order.Group.Int
import Mathlib.Tactic.Linarith

/-!
# The proleptic Gregorian calendar

A date is a day of a month of a year, and `next` is the day after it.  Counting days by that alone
agrees with the closed formula: `dayNumber` goes up by one with each day (`dayNumber_next`), so a date
that is `n` days behind another has a number that is larger by `n` (`dayNumber_after`).  Years may be
any integers.
-/

namespace NetMod.Gregorian

/-! ### Dates -/

def IsLeap (y : Int) : Prop := y % 4 = 0 ∧ (y % 100 ≠ 0 ∨ y % 400 = 0)

instance (y : Int) : Decidable (IsLeap y) := inferInstanceAs (Decidable (_ ∧ _))

/-- The days of a month, from 1 for January to 12. -/
def daysInMonth (y : Int) (m : Nat) : Nat :=
  if m = 2 then if IsLeap y then 29 else 28
  else if m = 4 ∨ m = 6 ∨ m = 9 ∨ m = 11 then 30
  else 31

theorem one_le_daysInMonth (y : Int) (m : Nat) : 1 ≤ daysInMonth y m := by
  unfold daysInMonth
  split
  · split <;> decide
  · split <;> decide

theorem daysInMonth_le (y : Int) (m : Nat) : daysInMonth y m ≤ 31 := by
  unfold daysInMonth
  split
  · split <;> decide
  · split <;> decide

structure Date where
  year : Int
  month : Nat
  day : Nat
  one_le_month : 1 ≤ month
  month_le : month ≤ 12
  one_le_day : 1 ≤ day
  day_le : day ≤ daysInMonth year month

/-- The first day of a month. -/
def Date.first (year : Int) (month : Nat) (h : 1 ≤ month) (h' : month ≤ 12) : Date where
  year := year
  month := month
  day := 1
  one_le_month := h
  month_le := h'
  one_le_day := le_rfl
  day_le := one_le_daysInMonth year month

/-- The day after. -/
def Date.next (d : Date) : Date :=
  if h : d.day < daysInMonth d.year d.month then { d with
    day := d.day + 1
    one_le_day := by omega
    day_le := h }
  else if h' : d.month < 12 then .first d.year (d.month + 1) (by omega) h'
  else .first (d.year + 1) 1 (by omega) (by omega)

/-- So many days after. -/
def Date.after (d : Date) : Nat → Date
  | 0 => d
  | n + 1 => (d.after n).next

/-! ### The number of a day -/

/-- The leap days up to the end of a year. -/
def leapDays (y : Int) : Int := y / 4 - y / 100 + y / 400

theorem leapDays_succ (y : Int) : leapDays (y + 1) = leapDays y + if IsLeap (y + 1) then 1 else 0 := by
  unfold leapDays
  split
  · next h =>
    obtain ⟨h4, h100⟩ := h
    omega
  · next h =>
    rw [IsLeap, not_and_or, not_or, not_not] at h
    omega

theorem leapDays_mono {y z : Int} (h : y ≤ z) : leapDays y ≤ leapDays z := by
  induction z, h using Int.leInduction with
  | base => exact le_rfl
  | succ z hz ih =>
    apply ih.trans
    rw [leapDays_succ]
    split <;> omega

/-- The days of a common year in front of a month. -/
def monthDays (m : Nat) : Nat :=
  [0, 31, 59, 90, 120, 151, 181, 212, 243, 273, 304, 334].getD (m - 1) 0

/-- The number of a day: the leap day of a year counts from March on. -/
def Date.dayNumber (d : Date) : Int :=
  365 * d.year + leapDays (if d.month ≤ 2 then d.year - 1 else d.year) + monthDays d.month + d.day

/-- The number of the first day behind a month. -/
theorem monthDays_succ (y : Int) {m : Nat} (h : 1 ≤ m) (h' : m < 12) :
    leapDays (if m + 1 ≤ 2 then y - 1 else y) + monthDays (m + 1) =
      leapDays (if m ≤ 2 then y - 1 else y) + monthDays m + daysInMonth y m := by
  have hleap := leapDays_succ (y - 1)
  rw [Int.sub_add_cancel] at hleap
  obtain rfl | hne := eq_or_ne m 2
  · show leapDays y + 59 = leapDays (y - 1) + 31 + (if IsLeap y then 29 else 28 : Nat)
    rw [hleap]
    split <;> omega
  · have hlow : (m + 1 ≤ 2) ↔ m ≤ 2 := by omega
    have hall : ∀ m < 12, 1 ≤ m → m ≠ 2 →
        monthDays (m + 1) = monthDays m + if m = 4 ∨ m = 6 ∨ m = 9 ∨ m = 11 then 30 else 31 := by
      decide
    have hdays : monthDays (m + 1) = monthDays m + daysInMonth y m := by
      rw [daysInMonth, if_neg hne]
      exact hall m h' h hne
    simp only [hlow, hdays]
    omega

/-- **The day after has the next number.** -/
theorem dayNumber_next (d : Date) : d.next.dayNumber = d.dayNumber + 1 := by
  have hle := d.day_le
  have hone := d.one_le_month
  have htwelve := d.month_le
  unfold Date.next
  split
  · unfold Date.dayNumber
    push_cast
    omega
  · next hlast =>
    have hday : d.day = daysInMonth d.year d.month := by omega
    split
    · next hmonth =>
      have hdays := monthDays_succ d.year hone hmonth
      show 365 * d.year + leapDays (if d.month + 1 ≤ 2 then d.year - 1 else d.year) +
        monthDays (d.month + 1) + (1 : Nat) = _
      rw [Date.dayNumber, hday]
      omega
    · next hmonth =>
      have hdec : d.month = 12 := by omega
      show 365 * (d.year + 1) + leapDays (d.year + 1 - 1) + (0 : Nat) + (1 : Nat) = _
      rw [Date.dayNumber, hday, hdec, Int.add_sub_cancel]
      show _ = 365 * d.year + leapDays d.year + (334 : Nat) + (31 : Nat) + 1
      omega

/-- **Counting days one by one agrees with the numbers.** -/
theorem dayNumber_after (d : Date) (n : Nat) : (d.after n).dayNumber = d.dayNumber + n := by
  induction n with
  | zero => exact (Int.add_zero _).symm
  | succ n ih =>
    show (d.after n).next.dayNumber = _
    rw [dayNumber_next, ih]
    omega

/-! ### Years -/

theorem year_le_next (d : Date) : d.year ≤ d.next.year := by
  unfold Date.next
  split
  · exact le_rfl
  · split
    · exact le_rfl
    · show d.year ≤ d.year + 1
      omega

theorem year_le_after (d : Date) (n : Nat) : d.year ≤ (d.after n).year := by
  induction n with
  | zero => exact le_rfl
  | succ n ih => exact ih.trans (year_le_next _)

/-- A day before New Year's Day of a year is of an earlier one. -/
theorem year_lt_of_dayNumber {d : Date} {y : Int} (h : d.dayNumber ≤ 365 * y + leapDays (y - 1)) :
    d.year < y := by
  by_contra hle
  have hyear : y ≤ d.year := not_lt.mp hle
  have hday := d.one_le_day
  have hleap : leapDays (y - 1) ≤ leapDays (if d.month ≤ 2 then d.year - 1 else d.year) := by
    apply leapDays_mono
    split <;> omega
  rw [Date.dayNumber] at h
  omega

end NetMod.Gregorian
