import Mathlib.Data.Nat.Find
import Mathlib.Tactic

/-!
# The proleptic Gregorian calendar

Days are counted from the first of January of the year 0, months from 0. A row of blocks that begin
at `start 0`, `start 1` and so on is searched for the block a number is in; the year of a day and
the month in its year are found in this way.
-/

namespace Calendar

/-! ## Blocks -/

/-- The last block up to `bound` that does not begin after `n`. -/
def blockOf (start : ℕ → ℕ) (bound n : ℕ) : ℕ := Nat.findGreatest (fun k => start k ≤ n) bound

theorem blockOf_le (start : ℕ → ℕ) (bound n : ℕ) : blockOf start bound n ≤ bound :=
  Nat.findGreatest_le bound

theorem start_blockOf_le {start : ℕ → ℕ} {n : ℕ} (bound : ℕ) (hfirst : start 0 ≤ n) :
    start (blockOf start bound n) ≤ n :=
  Nat.findGreatest_spec (P := fun k => start k ≤ n) (Nat.zero_le bound) hfirst

theorem lt_start_blockOf_succ {start : ℕ → ℕ} {bound n : ℕ} (hlast : n < start (bound + 1)) :
    n < start (blockOf start bound n + 1) := by
  rcases Nat.lt_or_ge (blockOf start bound n) bound with hlt | hge
  · have hnot : ¬start (blockOf start bound n + 1) ≤ n :=
      Nat.findGreatest_is_greatest (P := fun k => start k ≤ n) (Nat.lt_succ_self _) hlt
    exact not_le.mp hnot
  · rw [le_antisymm (blockOf_le start bound n) hge]
    exact hlast

theorem le_blockOf {start : ℕ → ℕ} {bound n k : ℕ} (hk : k ≤ bound) (hle : start k ≤ n) :
    k ≤ blockOf start bound n :=
  Nat.le_findGreatest hk hle

/-! ## Years and months -/

def isLeap (year : ℕ) : Bool := year % 4 = 0 && (year % 100 ≠ 0 || year % 400 = 0)

def daysInYear (year : ℕ) : ℕ := if isLeap year then 366 else 365

/-- The days of the years before `year`. -/
def daysBeforeYear (year : ℕ) : ℕ :=
  365 * year + (year + 3) / 4 + (year + 399) / 400 - (year + 99) / 100

def daysInMonth (year : ℕ) : ℕ → ℕ
  | 1 => if isLeap year then 29 else 28
  | 3 | 5 | 8 | 10 => 30
  | _ => 31

theorem daysInMonth_le (year month : ℕ) : daysInMonth year month ≤ 31 := by
  unfold daysInMonth
  split
  · split <;> decide
  all_goals decide

/-- The days of the months of a year before `month`. -/
def daysBeforeMonth (year : ℕ) : ℕ → ℕ
  | 0 => 0
  | month + 1 => daysBeforeMonth year month + daysInMonth year month

/-- The multiples of `k` up to a year, when the next year comes. -/
theorem multiples_succ (year : ℕ) {k : ℕ} (hk : 0 < k) :
    (year + 1 + (k - 1)) / k = (year + (k - 1)) / k + if year % k = 0 then 1 else 0 := by
  have hsum : year + (k - 1) + 1 = year + k := by omega
  have hdvd : k ∣ year + k ↔ year % k = 0 := by
    rw [Nat.dvd_add_left (dvd_refl k), Nat.dvd_iff_mod_eq_zero]
  rw [Nat.add_right_comm, Nat.succ_div, hsum]
  simp only [hdvd]

theorem daysBeforeYear_succ (year : ℕ) :
    daysBeforeYear (year + 1) = daysBeforeYear year + daysInYear year := by
  have h4 := multiples_succ year (show 0 < 4 by decide)
  have h100 := multiples_succ year (show 0 < 100 by decide)
  have h400 := multiples_succ year (show 0 < 400 by decide)
  have hle : (year + 99) / 100 ≤ (year + 3) / 4 + 365 * year := by omega
  have h400_100 : year % 400 = 0 → year % 100 = 0 := fun h => by omega
  have h100_4 : year % 100 = 0 → year % 4 = 0 := fun h => by omega
  simp only [Nat.reduceSub] at h4 h100 h400
  unfold daysBeforeYear daysInYear
  rw [h4, h100, h400, isLeap]
  generalize (year + 3) / 4 = a at *
  generalize (year + 99) / 100 = b at *
  generalize (year + 399) / 400 = c at *
  by_cases hc : year % 400 = 0
  · simp only [hc, h400_100 hc, h100_4 (h400_100 hc), if_true, decide_true, ne_eq, not_true,
      decide_false, Bool.false_or, Bool.and_true]
    omega
  · by_cases hb : year % 100 = 0
    · simp only [hc, hb, h100_4 hb, if_true, if_false, decide_true, decide_false, ne_eq, not_true,
        Bool.false_or, Bool.and_false, Bool.false_eq_true]
      omega
    · by_cases ha : year % 4 = 0
      · simp only [hc, hb, ha, if_true, if_false, decide_true, decide_false, ne_eq,
          not_false_eq_true, Bool.true_or, Bool.and_true]
        omega
      · simp only [hc, hb, ha, if_false, decide_false, Bool.false_and, Bool.false_eq_true]
        omega

theorem daysBeforeMonth_year (year : ℕ) : daysBeforeMonth year 12 = daysInYear year := by
  simp only [daysBeforeMonth, daysInMonth, daysInYear]
  split_ifs <;> rfl

theorem lt_daysBeforeYear (n : ℕ) : n < daysBeforeYear (n / 365 + 1) := by
  unfold daysBeforeYear
  omega

/-! ## Dates -/

/-- A day of the calendar. -/
structure Date where
  year : ℕ
  month : ℕ
  day : ℕ
  month_lt : month < 12
  day_pos : 1 ≤ day
  day_le : day ≤ daysInMonth year month
deriving DecidableEq

namespace Date

/-- The days before a date. -/
def dayNumber (d : Date) : ℕ :=
  daysBeforeYear d.year + daysBeforeMonth d.year d.month + (d.day - 1)

/-- The year of a day. -/
def yearOf (n : ℕ) : ℕ := blockOf daysBeforeYear (n / 365) n

def dayOfYear (n : ℕ) : ℕ := n - daysBeforeYear (yearOf n)

def monthOf (n : ℕ) : ℕ := blockOf (daysBeforeMonth (yearOf n)) 11 (dayOfYear n)

theorem daysBeforeYear_yearOf_le (n : ℕ) : daysBeforeYear (yearOf n) ≤ n :=
  start_blockOf_le (n / 365) (Nat.zero_le n)

theorem dayOfYear_lt (n : ℕ) : dayOfYear n < daysInYear (yearOf n) := by
  have hnext : n < daysBeforeYear (yearOf n + 1) := lt_start_blockOf_succ (lt_daysBeforeYear n)
  have hle := daysBeforeYear_yearOf_le n
  rw [daysBeforeYear_succ] at hnext
  unfold dayOfYear
  omega

theorem daysBeforeMonth_monthOf_le (n : ℕ) :
    daysBeforeMonth (yearOf n) (monthOf n) ≤ dayOfYear n :=
  start_blockOf_le 11 (Nat.zero_le (dayOfYear n))

theorem dayOfYear_lt_next (n : ℕ) :
    dayOfYear n < daysBeforeMonth (yearOf n) (monthOf n) + daysInMonth (yearOf n) (monthOf n) := by
  have hyear : dayOfYear n < daysBeforeMonth (yearOf n) (11 + 1) := by
    rw [daysBeforeMonth_year]
    exact dayOfYear_lt n
  exact lt_start_blockOf_succ hyear

/-- The date with `n` days before it. -/
def ofDayNumber (n : ℕ) : Date where
  year := yearOf n
  month := monthOf n
  day := dayOfYear n - daysBeforeMonth (yearOf n) (monthOf n) + 1
  month_lt := Nat.lt_succ_of_le (blockOf_le _ 11 _)
  day_pos := Nat.succ_pos _
  day_le := by
    have hle := daysBeforeMonth_monthOf_le n
    have hlt := dayOfYear_lt_next n
    omega

/-- **Dates and day numbers.** -/
theorem dayNumber_ofDayNumber (n : ℕ) : (ofDayNumber n).dayNumber = n := by
  have hyear := daysBeforeYear_yearOf_le n
  have hmonth := daysBeforeMonth_monthOf_le n
  unfold dayNumber ofDayNumber
  simp only [Nat.add_sub_cancel]
  unfold dayOfYear at *
  omega

theorem monotone_daysBeforeYear : Monotone daysBeforeYear := by
  refine monotone_nat_of_le_succ fun year => ?_
  rw [daysBeforeYear_succ]
  exact Nat.le_add_right _ _

/-- The year of a day lies between bounds that its number keeps. -/
theorem le_year_ofDayNumber {n year : ℕ} (h : daysBeforeYear year ≤ n) :
    year ≤ (ofDayNumber n).year := by
  have hbound : year ≤ n / 365 := by
    unfold daysBeforeYear at h
    omega
  exact le_blockOf hbound h

theorem year_ofDayNumber_lt {n year : ℕ} (h : n < daysBeforeYear year) :
    (ofDayNumber n).year < year := by
  by_contra hge
  have hmono := monotone_daysBeforeYear (not_lt.mp hge)
  have hle := daysBeforeYear_yearOf_le n
  exact absurd (hmono.trans hle) (not_le.mpr h)

end Date

end Calendar
