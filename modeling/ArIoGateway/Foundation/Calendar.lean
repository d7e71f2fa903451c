import Mathlib.Data.Nat.Basic
import Mathlib.Order.Basic

/-!
# The Gregorian calendar

Dates of the proleptic Gregorian calendar from the year zero on, and the number of days before a
date by the rule of leap years.  Dates of eras of 400 years are counted from the first of March.
-/

namespace Calendar

def isLeap (year : Nat) : Bool := year % 4 = 0 ∧ (year % 100 ≠ 0 ∨ year % 400 = 0)

def yearLength (year : Nat) : Nat := 365 + (isLeap year).toNat

/-- The length of a month in a year that is leap or not. -/
def monthLength (leap : Bool) : (month : Nat) → Nat
  | 1 | 3 | 5 | 7 | 8 | 10 | 12 => 31
  | 4 | 6 | 9 | 11 => 30
  | 2 => 28 + leap.toNat
  | _ => 0

structure Date where
  year : Nat
  month : Nat
  day : Nat
deriving DecidableEq

/-- A date that is in the calendar. -/
structure Date.Valid (date : Date) : Prop where
  month : 1 ≤ date.month ∧ date.month ≤ 12
  day : 1 ≤ date.day ∧ date.day ≤ monthLength (isLeap date.year) date.month

def daysBeforeYear : Nat → Nat
  | 0 => 0
  | year + 1 => daysBeforeYear year + yearLength year

/-- The days of a year before a month of it. -/
def daysBeforeMonth (leap : Bool) : (month : Nat) → Nat
  | 0 => 0
  | month + 1 => daysBeforeMonth leap month + monthLength leap month

/-- The number of days from the first of January of the year zero to a date. -/
def Date.number (date : Date) : Nat :=
  daysBeforeYear date.year + daysBeforeMonth (isLeap date.year) date.month + (date.day - 1)

/-- The order of dates: by year, month and day. -/
def Date.Before (first second : Date) : Prop :=
  first.year < second.year ∨ first.year = second.year ∧
    (first.month < second.month ∨ first.month = second.month ∧ first.day < second.day)

theorem daysBeforeYear_mono {first second : Nat} (le : first ≤ second) :
    daysBeforeYear first ≤ daysBeforeYear second := by
  induction le with
  | refl => exact le_rfl
  | step _ induction => exact induction.trans (Nat.le_add_right _ _)

theorem daysBeforeMonth_mono (leap : Bool) {first second : Nat} (le : first ≤ second) :
    daysBeforeMonth leap first ≤ daysBeforeMonth leap second := by
  induction le with
  | refl => exact le_rfl
  | step _ induction => exact induction.trans (Nat.le_add_right _ _)

theorem daysBeforeMonth_end (year : Nat) :
    daysBeforeMonth (isLeap year) 13 = yearLength year := by
  rw [yearLength]
  cases isLeap year <;> rfl

/-- A valid date lies within its month and its year. -/
theorem Date.Valid.number_lt {date : Date} (valid : date.Valid) :
    date.number < daysBeforeYear date.year +
      daysBeforeMonth (isLeap date.year) (date.month + 1) ∧
    date.number < daysBeforeYear (date.year + 1) := by
  have whole := daysBeforeMonth_mono (isLeap date.year)
    (Nat.succ_le_succ valid.month.2)
  rw [daysBeforeMonth_end] at whole
  have length := valid.day
  simp only [Date.number, daysBeforeYear, daysBeforeMonth] at whole ⊢
  omega

/-- An earlier date has a smaller number. -/
theorem Date.Valid.number_lt_number {first second : Date} (valid : first.Valid)
    (before : first.Before second) : first.number < second.number := by
  obtain ⟨inMonth, inYear⟩ := valid.number_lt
  rcases before with year | ⟨year, month | ⟨month, day⟩⟩
  · have years := daysBeforeYear_mono (show first.year + 1 ≤ second.year from year)
    simp only [Date.number] at inYear ⊢
    omega
  · have months := daysBeforeMonth_mono (isLeap first.year)
      (show first.month + 1 ≤ second.month from month)
    simp only [Date.number, ← year] at inMonth ⊢
    omega
  · have days := valid.day
    simp only [Date.number, ← year, ← month]
    omega

/-- Two dates are in order or the same. -/
theorem Date.trichotomy (first second : Date) :
    first.Before second ∨ first = second ∨ second.Before first := by
  obtain ⟨firstYear, firstMonth, firstDay⟩ := first
  obtain ⟨secondYear, secondMonth, secondDay⟩ := second
  simp only [Date.Before, Date.mk.injEq]
  omega

/-- A valid date with a smaller number is earlier. -/
theorem Date.Valid.before_of_lt {first second : Date} (valid : second.Valid)
    (less : first.number < second.number) : first.Before second := by
  rcases Date.trichotomy first second with before | rfl | behind
  · exact before
  · exact absurd less (lt_irrefl _)
  · exact absurd less (lt_asymm (valid.number_lt_number behind))

/-- A valid date is known by its number. -/
theorem Date.Valid.eq_of_number {first second : Date} (firstValid : first.Valid)
    (secondValid : second.Valid) (same : first.number = second.number) : first = second := by
  rcases Date.trichotomy first second with before | equal | behind
  · exact absurd same (firstValid.number_lt_number before).ne
  · exact equal
  · exact absurd same (secondValid.number_lt_number behind).ne'

/-- The number of days from the first of March of the year zero to that of a year. -/
def marchStart (year : Nat) : Nat := 365 * year + year / 4 - year / 100 + year / 400

theorem marchStart_succ (year : Nat) :
    marchStart (year + 1) = marchStart year + yearLength (year + 1) := by
  have fours : (year + 1) / 4 = year / 4 + if (year + 1) % 4 = 0 then 1 else 0 := by
    split <;> omega
  have centuries : (year + 1) / 100 = year / 100 + if (year + 1) % 100 = 0 then 1 else 0 := by
    split <;> omega
  have eras : (year + 1) / 400 = year / 400 + if (year + 1) % 400 = 0 then 1 else 0 := by
    split <;> omega
  have fewer : year / 100 ≤ year / 4 := by omega
  have leap : (isLeap (year + 1)).toNat + (if (year + 1) % 100 = 0 then 1 else 0) =
      (if (year + 1) % 4 = 0 then 1 else 0) + if (year + 1) % 400 = 0 then 1 else 0 := by
    have fourth : (year + 1) % 100 = 0 → (year + 1) % 4 = 0 := by omega
    have century : (year + 1) % 400 = 0 → (year + 1) % 100 = 0 := by omega
    by_cases four : (year + 1) % 4 = 0 <;> by_cases hundred : (year + 1) % 100 = 0 <;>
      by_cases era : (year + 1) % 400 = 0 <;> simp_all [isLeap]
  simp only [marchStart, yearLength, fours, centuries, eras]
  omega

/-- The January behind a March is as far away as there are days in a leap year. -/
theorem daysBeforeYear_succ (year : Nat) : daysBeforeYear (year + 1) = marchStart year + 366 := by
  induction year with
  | zero => rfl
  | succ year induction =>
      rw [daysBeforeYear, induction, marchStart_succ]
      omega

/-- What a day of a year from March on is called: the days of the months are counted from March, and
the last two months belong to the next year. -/
theorem month_of_day (leap : Bool) {day : Nat} (inYear : day < 366) :
    let month := (5 * day + 2) / 153
    let first := (153 * month + 2) / 5
    first ≤ day ∧ month ≤ 11 ∧
      (month < 10 → daysBeforeMonth leap (month + 3) + (day - first) = day + 59 + leap.toNat ∧
        day - first < monthLength leap (month + 3)) ∧
      (10 ≤ month → daysBeforeMonth leap (month - 9) + (day - first) + 306 = day ∧
        (day < 365 + leap.toNat → day - first < monthLength leap (month - 9))) := by
  have all : ∀ leap, ((List.range 366).all fun day =>
      let month := (5 * day + 2) / 153
      let first := (153 * month + 2) / 5
      decide (first ≤ day ∧ month ≤ 11 ∧
        (month < 10 → daysBeforeMonth leap (month + 3) + (day - first) = day + 59 + leap.toNat ∧
          day - first < monthLength leap (month + 3)) ∧
        (10 ≤ month → daysBeforeMonth leap (month - 9) + (day - first) + 306 = day ∧
          (day < 365 + leap.toNat → day - first < monthLength leap (month - 9))))) = true := by
    intro leap
    cases leap <;> decide +kernel
  exact of_decide_eq_true (List.all_eq_true.mp (all leap) day (List.mem_range.mpr inYear))

/-- The year of an era of 400 years that a day of it belongs to. -/
def yearOfEra (day : Nat) : Nat := (day - day / 1460 + day / 36524 - day / 146096) / 365

theorem yearOfEra_mono {first second : Nat} (le : first ≤ second) :
    yearOfEra first ≤ yearOfEra second := by
  apply Nat.div_le_div_right
  have quarters (day : Nat) : day / 146096 = day / 36524 / 4 := by
    rw [Nat.div_div_eq_div_mul]
  have centuries : first / 36524 ≤ second / 36524 := Nat.div_le_div_right le
  have leaps : first - first / 1460 ≤ second - second / 1460 := by omega
  rw [quarters, quarters]
  omega

/-- The first and the last day of a year of an era belong to the year. -/
theorem yearOfEra_edges {year : Nat} (inEra : year < 400) :
    yearOfEra (marchStart year) = year ∧ yearOfEra (marchStart (year + 1) - 1) = year := by
  have all : ((List.range 400).all fun year => decide (yearOfEra (marchStart year) = year ∧
      yearOfEra (marchStart (year + 1) - 1) = year)) = true := by
    decide +kernel
  exact of_decide_eq_true (List.all_eq_true.mp all year (List.mem_range.mpr inEra))

/-- A day of an era lies in its year. -/
theorem yearOfEra_spec {day : Nat} (inEra : day < 146097) :
    yearOfEra day < 400 ∧ marchStart (yearOfEra day) ≤ day ∧
      day < marchStart (yearOfEra day + 1) := by
  have early : yearOfEra day < 400 := by
    have last : yearOfEra 146096 = 399 := rfl
    have bound := yearOfEra_mono (Nat.le_of_lt_succ inEra)
    omega
  refine ⟨early, ?_, ?_⟩
  · by_contra behind
    cases year : yearOfEra day with
    | zero =>
        rw [year] at behind
        exact behind (Nat.zero_le _)
    | succ previous =>
        rw [year] at behind early
        have edge := (yearOfEra_edges (Nat.lt_of_succ_lt early)).2
        have bound := yearOfEra_mono (show day ≤ marchStart (previous + 1) - 1 by omega)
        omega
  · by_contra before
    rcases Nat.lt_or_ge (yearOfEra day + 1) 400 with inside | last
    · have edge := (yearOfEra_edges inside).1
      have bound := yearOfEra_mono (show marchStart (yearOfEra day + 1) ≤ day by omega)
      omega
    · have final : marchStart 400 = 146097 := rfl
      rw [show yearOfEra day + 1 = 400 by omega, final] at before
      exact before inEra

theorem marchStart_era (era : Nat) {year : Nat} :
    marchStart (year + era * 400) = era * 146097 + marchStart year := by
  simp only [marchStart]
  omega

end Calendar
