import Mathlib.Algebra.BigOperators.Intervals
import Mathlib.Algebra.Order.BigOperators.Group.Finset

namespace Calendar

/-- The leap years of the Gregorian calendar. -/
def IsLeap (y : Nat) : Prop := (y % 4 = 0 ∧ y % 100 ≠ 0) ∨ y % 400 = 0

instance (y : Nat) : Decidable (IsLeap y) :=
  inferInstanceAs (Decidable ((y % 4 = 0 ∧ y % 100 ≠ 0) ∨ y % 400 = 0))

def yearDays (y : Nat) : Nat := if IsLeap y then 366 else 365

/-- The days of a month; months are counted from zero. -/
def monthDays (y month : Nat) : Nat :=
  if month = 1 then (if IsLeap y then 29 else 28)
  else if month = 3 ∨ month = 5 ∨ month = 8 ∨ month = 10 then 30 else 31

theorem monthDays_pos (y month : Nat) : 0 < monthDays y month := by
  unfold monthDays
  split_ifs <;> decide

/-- The days of a year in front of a month. -/
def daysBefore (y : Nat) : Nat → Nat
  | 0 => 0
  | month + 1 => daysBefore y month + monthDays y month

theorem daysBefore_year (y : Nat) : daysBefore y 12 = yearDays y := by
  by_cases h : IsLeap y <;> simp [daysBefore, monthDays, yearDays, h]

@[ext] structure Date where
  year : Nat
  month : Nat
  day : Nat
  month_lt : month < 12
  day_pos : 0 < day
  day_le : day ≤ monthDays year month
  deriving DecidableEq

namespace Date

/-- The day after. -/
def next (d : Date) : Date :=
  if hday : d.day < monthDays d.year d.month then
    ⟨d.year, d.month, d.day + 1, d.month_lt, d.day.succ_pos, hday⟩
  else if hmonth : d.month + 1 < 12 then
    ⟨d.year, d.month + 1, 1, hmonth, Nat.one_pos, monthDays_pos _ _⟩
  else ⟨d.year + 1, 0, 1, by decide, Nat.one_pos, monthDays_pos _ _⟩

/-- The date `n` days after. -/
def after (d : Date) : Nat → Date
  | 0 => d
  | n + 1 => (d.after n).next

/-- The days of the year that are over. -/
def yearDay (d : Date) : Nat := daysBefore d.year d.month + (d.day - 1)

end Date

/-- The days of the years from `base` to the one in front of `y`. -/
def daysOfYears (base y : Nat) : Nat := ∑ k ∈ Finset.Ico base y, yearDays k

/-- The days from the beginning of the year `base` to a date. -/
def dayNumber (base : Nat) (d : Date) : Nat := daysOfYears base d.year + d.yearDay

theorem daysOfYears_succ (base y : Nat) (h : base ≤ y) :
    daysOfYears base (y + 1) = daysOfYears base y + yearDays y :=
  Finset.sum_Ico_succ_top h _

theorem year_le_next (d : Date) : d.year ≤ d.next.year := by
  unfold Date.next
  split_ifs
  · exact le_rfl
  · exact le_rfl
  · exact Nat.le_succ _

/-- Each day has the number after the one of the day in front of it, over the ends of months and years. -/
theorem dayNumber_next (base : Nat) (d : Date) (h : base ≤ d.year) :
    dayNumber base d.next = dayNumber base d + 1 := by
  have hpos := d.day_pos
  have hle := d.day_le
  unfold Date.next
  split_ifs with hday hmonth
  · simp only [dayNumber, Date.yearDay]
    omega
  · have hbefore : daysBefore d.year (d.month + 1) = daysBefore d.year d.month + monthDays d.year d.month := rfl
    simp only [dayNumber, Date.yearDay, hbefore]
    omega
  · have hmonth' : d.month = 11 := by
      have := d.month_lt
      omega
    have hbefore : daysBefore d.year 12 = daysBefore d.year 11 + monthDays d.year 11 := rfl
    have hyear := daysBefore_year d.year
    have hnone : daysBefore (d.year + 1) 0 = 0 := rfl
    rw [hmonth'] at hday hle
    simp only [dayNumber, Date.yearDay, daysOfYears_succ base d.year h, hmonth', hnone]
    omega

theorem year_le_after (d : Date) (n : Nat) : d.year ≤ (d.after n).year := by
  induction n with
  | zero => exact le_rfl
  | succ n ih => exact ih.trans (year_le_next _)

theorem dayNumber_after (base : Nat) (d : Date) (n : Nat) (h : base ≤ d.year) :
    dayNumber base (d.after n) = dayNumber base d + n := by
  induction n with
  | zero => rfl
  | succ n ih =>
    rw [Date.after, dayNumber_next base _ (h.trans (year_le_after d n)), ih, Nat.add_assoc]

/-- The leap years up to `y`. -/
def leapYears (y : Nat) : Nat := y / 4 - y / 100 + y / 400

theorem leapYears_succ (y : Nat) : leapYears (y + 1) = leapYears y + if IsLeap (y + 1) then 1 else 0 := by
  have hfour : 4 ∣ 100 := by decide
  have hhundred : 100 ∣ 400 := by decide
  have hless : y / 100 ≤ y / 4 := Nat.div_le_div_left (by decide) (by decide)
  have hleap : IsLeap (y + 1) ↔ (4 ∣ y + 1 ∧ ¬ 100 ∣ y + 1) ∨ 400 ∣ y + 1 := by
    rw [IsLeap, ← Nat.dvd_iff_mod_eq_zero, ← Nat.dvd_iff_mod_eq_zero, Ne, ← Nat.dvd_iff_mod_eq_zero]
  unfold leapYears
  rw [Nat.succ_div, Nat.succ_div, Nat.succ_div, if_congr hleap rfl rfl]
  -- every fourth century is a century, and every century a multiple of four
  by_cases h400 : 400 ∣ y + 1
  · have h100 := hhundred.trans h400
    have h4 := hfour.trans h100
    simp only [h4, h100, h400, if_true, or_true]
    omega
  by_cases h100 : 100 ∣ y + 1
  · have h4 := hfour.trans h100
    simp only [h4, h100, h400, if_true, if_false, not_true, and_false, or_false]
    omega
  by_cases h4 : 4 ∣ y + 1
  · simp only [h4, h100, h400, if_true, if_false, not_false_eq_true, and_self, or_false]
    omega
  · simp only [h4, h100, h400, if_false, false_and, or_false, Nat.add_zero]

/-- The days of whole years in closed form. -/
theorem daysOfYears_eq (base y : Nat) (h : base < y) :
    daysOfYears (base + 1) y + leapYears base = 365 * (y - (base + 1)) + leapYears (y - 1) := by
  induction y, h using Nat.le_induction with
  | base =>
    have hnone : daysOfYears (base + 1) (base + 1) = 0 := by simp [daysOfYears]
    rw [Nat.succ_eq_add_one, hnone, Nat.sub_self, Nat.add_sub_cancel]
  | succ y hy ih =>
    have hleap := leapYears_succ (y - 1)
    rw [Nat.sub_add_cancel (show 1 ≤ y by omega)] at hleap
    rw [daysOfYears_succ (base + 1) y hy, Nat.add_sub_cancel, hleap]
    unfold yearDays
    split_ifs <;> omega

theorem daysOfYears_ge (base y : Nat) : 365 * (y - base) ≤ daysOfYears base y := by
  have hyear : ∀ k ∈ Finset.Ico base y, 365 ≤ yearDays k := by
    intro k _
    unfold yearDays
    split_ifs <;> decide
  have hsum := Finset.card_nsmul_le_sum (Finset.Ico base y) yearDays 365 hyear
  rw [Nat.card_Ico] at hsum
  change (y - base) * 365 ≤ daysOfYears base y at hsum
  omega

end Calendar
