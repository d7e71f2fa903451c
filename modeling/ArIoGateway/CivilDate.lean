import ArIoGateway.Codec
import ArIoGateway.Foundation.Calendar
import Mathlib.Data.List.Lex

/-!
# The date of an instant

The gateway prints instants as dates of the Gregorian calendar with the time of the day.  It finds
the date from the number of elapsed days in eras of 400 years.
-/

namespace ArIoGateway

open Octets Calendar

/-- The time since the epoch, `Duration`. -/
structure Duration where
  secs : Nat
  nanos : Nat
  inSecond : nanos < 1000000000

/-- The date of a day that is counted from the first of March of the year zero. -/
def civilDate (days : Nat) : Date :=
  let era := days / 146097
  let dayOfEra := days % 146097
  let yearOfEra := (dayOfEra - dayOfEra / 1460 + dayOfEra / 36524 - dayOfEra / 146096) / 365
  let dayOfYear := dayOfEra - (365 * yearOfEra + yearOfEra / 4 - yearOfEra / 100)
  let monthFromMarch := (5 * dayOfYear + 2) / 153
  let day := dayOfYear - (153 * monthFromMarch + 2) / 5 + 1
  let month := if monthFromMarch < 10 then monthFromMarch + 3 else monthFromMarch - 9
  let year := yearOfEra + era * 400 + if month ≤ 2 then 1 else 0
  ⟨year, month, day⟩

/-- A number with leading zeros up to a width, `{:0width}`. -/
def zeroPadded (width value : Nat) : String :=
  String.ofList (List.replicate (width - (decimal value).length) '0') ++ decimalString value

/-- The text of a date and a time of the day. -/
def isoText (date : Date) (hour minute second millis : Nat) : String :=
  zeroPadded 4 date.year ++ "-" ++ zeroPadded 2 date.month ++ "-" ++ zeroPadded 2 date.day ++
    "T" ++ zeroPadded 2 hour ++ ":" ++ zeroPadded 2 minute ++ ":" ++ zeroPadded 2 second ++
    "." ++ zeroPadded 3 millis ++ "Z"

/-- `iso_utc_date`.  A clock that is before the epoch gives no duration. -/
def isoUtcDate (now : Option Duration) : Checked String := do
  let elapsed ← Checked.context now "system clock is before Unix epoch"
  let date := civilDate (elapsed.secs / 86400 + 719468)
  Checked.ensure (date.year ≤ 9999) "system clock is outside the ISO date range"
  let seconds := elapsed.secs % 86400
  pure (isoText date (seconds / 3600) (seconds / 60 % 60) (seconds % 60) (elapsed.nanos / 1000000))

def epoch : Date := ⟨1970, 1, 1⟩

theorem number_epoch : epoch.number = 719528 := by
  rw [Date.number, show epoch.year = 1969 + 1 from rfl, daysBeforeYear_succ]
  rfl

/-- A day that is counted from a first of March falls on the date that is computed, which is in the
calendar. -/
theorem civilDate_spec (days : Nat) :
    (civilDate days).Valid ∧ (civilDate days).number = days + 60 := by
  obtain ⟨inEra, begun, ends⟩ := yearOfEra_spec (Nat.mod_lt days (by decide : 146097 > 0))
  have whole : days / 146097 * 146097 + days % 146097 = days := by omega
  have year_eq : (days % 146097 - days % 146097 / 1460 + days % 146097 / 36524 -
      days % 146097 / 146096) / 365 = yearOfEra (days % 146097) := rfl
  have start : 365 * yearOfEra (days % 146097) + yearOfEra (days % 146097) / 4 -
      yearOfEra (days % 146097) / 100 = marchStart (yearOfEra (days % 146097)) := by
    rw [marchStart]
    omega
  simp only [civilDate, year_eq, start]
  generalize yearOfEra (days % 146097) = yearInEra at inEra begun ends
  generalize days % 146097 = dayOfEra at begun ends whole
  generalize days / 146097 = era at whole
  -- The year in question and the one behind it, counted from March.
  have here : marchStart (yearInEra + era * 400) = era * 146097 + marchStart yearInEra :=
    marchStart_era era
  have next : marchStart (yearInEra + era * 400 + 1) =
      era * 146097 + marchStart (yearInEra + 1) := by
    rw [Nat.add_right_comm, marchStart_era]
  generalize yearInEra + era * 400 = year at here next
  have length := marchStart_succ year
  have january := daysBeforeYear_succ year
  have before : daysBeforeYear (year + 1) =
      daysBeforeYear year + (365 + (isLeap year).toNat) := rfl
  simp only [yearLength] at length
  have leaps : (isLeap (year + 1)).toNat ≤ 1 := Bool.toNat_le _
  obtain ⟨_, late, spring, -⟩ := month_of_day (isLeap year)
    (show dayOfEra - marchStart yearInEra < 366 by omega)
  obtain ⟨first, -, -, winter⟩ := month_of_day (isLeap (year + 1))
    (show dayOfEra - marchStart yearInEra < 366 by omega)
  generalize (5 * (dayOfEra - marchStart yearInEra) + 2) / 153 = month at *
  by_cases early : month < 10
  · obtain ⟨counted, inMonth⟩ := spring early
    simp only [if_pos early, if_neg (show ¬month + 3 ≤ 2 by omega), Nat.add_zero]
    refine ⟨⟨by simp only; omega, by simp only; omega⟩, ?_⟩
    simp only [Date.number]
    omega
  · obtain ⟨counted, inMonth⟩ := winter (Nat.le_of_not_lt early)
    have inside := inMonth (by omega)
    simp only [if_neg early, if_pos (show month - 9 ≤ 2 by omega)]
    refine ⟨⟨by simp only; omega, by simp only; omega⟩, ?_⟩
    simp only [Date.number]
    omega

/-- No difference on the way to a date is negative. -/
theorem civilDate_differences (dayOfEra : Nat) (inEra : dayOfEra < 146097) :
    let year := yearOfEra dayOfEra
    let day := dayOfEra - marchStart year
    dayOfEra / 146096 ≤ dayOfEra - dayOfEra / 1460 + dayOfEra / 36524 ∧ year / 100 ≤ 365 * year ∧
      marchStart year ≤ dayOfEra ∧ (153 * ((5 * day + 2) / 153) + 2) / 5 ≤ day := by
  obtain ⟨early, begun, ends⟩ := yearOfEra_spec inEra
  rw [marchStart_succ, yearLength] at ends
  have leaps : (isLeap (yearOfEra dayOfEra + 1)).toNat ≤ 1 := Bool.toNat_le _
  exact ⟨by omega, by omega, begun, (month_of_day true (by omega)).1⟩

/-- The bytes of a text as numbers, in whose order texts are compared. -/
def textKey (text : String) : List Nat := (utf8 text).map UInt8.toNat

theorem ofDecimal_cons (digit : UInt8) (text : Bytes) :
    ofDecimal (digit :: text) = (digit.toNat - 48) * 10 ^ text.length + ofDecimal text := by
  induction text using List.reverseRecOn with
  | nil => simp [ofDecimal]
  | append_singleton text last induction =>
      rw [← List.cons_append, ofDecimal_snoc, ofDecimal_snoc, induction, List.length_append,
        List.length_singleton, pow_succ]
      ring

theorem ofDecimal_lt {text : Bytes} (digits : text.all isAsciiDigit = true) :
    ofDecimal text < 10 ^ text.length := by
  induction text with
  | nil => decide
  | cons digit text induction =>
      rw [List.all_cons, Bool.and_eq_true] at digits
      have small := digits.1
      have rest := induction digits.2
      simp only [isAsciiDigit, decide_eq_true_eq] at small
      rw [ofDecimal_cons, List.length_cons, pow_succ]
      have top : (digit.toNat - 48) * 10 ^ text.length ≤ 9 * 10 ^ text.length :=
        Nat.mul_le_mul_right _ (by omega)
      omega

/-- Digits of one length are in the order of the numbers that they spell. -/
theorem ofDecimal_lt_ofDecimal {left right : Bytes} (width : left.length = right.length)
    (leftDigits : left.all isAsciiDigit = true) (rightDigits : right.all isAsciiDigit = true)
    (less : left.map UInt8.toNat < right.map UInt8.toNat) : ofDecimal left < ofDecimal right := by
  induction left generalizing right with
  | nil =>
      obtain rfl := List.eq_nil_of_length_eq_zero width.symm
      exact absurd less (lt_irrefl _)
  | cons digit left induction =>
      obtain ⟨other, right, rfl⟩ := List.exists_cons_of_length_eq_add_one width.symm
      have width := Nat.succ.inj width
      rw [List.all_cons, Bool.and_eq_true] at leftDigits rightDigits
      have bound := ofDecimal_lt leftDigits.2
      have digitBounds := leftDigits.1
      simp only [isAsciiDigit, decide_eq_true_eq] at digitBounds
      rw [ofDecimal_cons, ofDecimal_cons, ← width]
      rcases List.cons_lt_cons_iff.mp less with first | ⟨same, behind⟩
      · have step : (digit.toNat - 48 + 1) * 10 ^ left.length ≤
            (other.toNat - 48) * 10 ^ left.length := Nat.mul_le_mul_right _ (by omega)
        rw [Nat.add_mul, Nat.one_mul] at step
        omega
      · rw [same]
        exact Nat.add_lt_add_left (induction width leftDigits.2 rightDigits.2 behind) _

/-- The digits of a number with leading zeros. -/
def padded (width value : Nat) : Bytes :=
  List.replicate (width - (decimal value).length) 48 ++ decimal value

theorem utf8_zeroPadded (width value : Nat) :
    utf8 (zeroPadded width value) = padded width value := by
  have zeros (count : Nat) : utf8 (String.ofList (List.replicate count '0')) =
      List.replicate count 48 := by
    have ascii := utf8_ofList_ascii (List.replicate count 48) (by simp +contextual)
    rwa [List.map_replicate] at ascii
  rw [zeroPadded, utf8_append, zeros, utf8_decimalString, padded]

theorem length_padded {width value : Nat} (positive : 0 < width) (fits : value < 10 ^ width) :
    (padded width value).length = width := by
  have short := length_decimal_le positive fits
  rw [padded, List.length_append, List.length_replicate]
  omega

theorem digits_padded (width value : Nat) : (padded width value).all isAsciiDigit = true := by
  rw [padded, List.all_append, Bool.and_eq_true]
  constructor
  · simp [isAsciiDigit]
  · exact List.all_eq_true.mpr fun _ member => isAsciiDigit_of_mem_decimal member

theorem ofDecimal_padded (width value : Nat) : ofDecimal (padded width value) = value := by
  rw [padded]
  induction width - (decimal value).length with
  | zero => exact ofDecimal_decimal value
  | succ count induction =>
      rw [List.replicate_succ, List.cons_append, ofDecimal_cons, induction]
      simp

/-- A smaller number of one width comes first. -/
theorem padded_lt {width first second : Nat} (positive : 0 < width) (less : first < second)
    (fits : second < 10 ^ width) :
    (padded width first).map UInt8.toNat < (padded width second).map UInt8.toNat := by
  have widths : (padded width first).length = (padded width second).length := by
    rw [length_padded positive (less.trans fits), length_padded positive fits]
  rcases lt_trichotomy ((padded width first).map UInt8.toNat)
    ((padded width second).map UInt8.toNat) with before | same | behind
  · exact before
  · have bytes := List.map_injective_iff.mpr (fun _ _ => UInt8.toNat_inj.mp) same
    have value := congrArg ofDecimal bytes
    rw [ofDecimal_padded, ofDecimal_padded] at value
    exact absurd value less.ne
  · have value := ofDecimal_lt_ofDecimal widths.symm (digits_padded _ _) (digits_padded _ _) behind
    rw [ofDecimal_padded, ofDecimal_padded] at value
    exact absurd value (lt_asymm less)

theorem append_lt_append {left right leftRest rightRest : List Nat}
    (width : left.length = right.length) (less : left < right) :
    left ++ leftRest < right ++ rightRest := by
  induction left generalizing right with
  | nil =>
      obtain rfl := List.eq_nil_of_length_eq_zero width.symm
      exact absurd less (lt_irrefl _)
  | cons value left induction =>
      obtain ⟨other, right, rfl⟩ := List.exists_cons_of_length_eq_add_one width.symm
      rw [List.cons_append, List.cons_append]
      apply List.cons_lt_cons_iff.mpr
      exact (List.cons_lt_cons_iff.mp less).imp_right fun both =>
        ⟨both.1, induction (Nat.succ.inj width) both.2⟩

theorem append_le_append (front : List Nat) {left right : List Nat} (le : left ≤ right) :
    front ++ left ≤ front ++ right := by
  rcases le.lt_or_eq with less | rfl
  · apply le_of_lt
    induction front with
    | nil => exact less
    | cons value front induction => exact List.cons_lt_cons_iff.mpr (.inr ⟨rfl, induction⟩)
  · exact le_rfl

/-- A text that begins with a number is in order by the number and then by what is behind it. -/
theorem textKey_padded_le {width first second : Nat} {left right : String} (positive : 0 < width)
    (fits : second < 10 ^ width)
    (order : first < second ∨ first = second ∧ textKey left ≤ textKey right) :
    textKey (zeroPadded width first ++ left) ≤ textKey (zeroPadded width second ++ right) := by
  simp only [textKey, utf8_append, utf8_zeroPadded, List.map_append] at order ⊢
  rcases order with less | ⟨rfl, rest⟩
  · apply le_of_lt
    apply append_lt_append _ (padded_lt positive less fits)
    rw [List.length_map, List.length_map, length_padded positive (less.trans fits),
      length_padded positive fits]
  · exact append_le_append _ rest

theorem textKey_append_le (front : String) {left right : String}
    (le : textKey left ≤ textKey right) : textKey (front ++ left) ≤ textKey (front ++ right) := by
  rw [textKey, textKey, utf8_append, utf8_append, List.map_append, List.map_append]
  exact append_le_append _ le

/-- Texts of dates and times are in the order of the dates and the times. -/
theorem isoText_le {first second : Date} {hour minute instant millis laterHour laterMinute
    laterInstant laterMillis : Nat} (year : second.year ≤ 9999) (valid : second.Valid)
    (hours : laterHour < 24) (minutes : laterMinute < 60) (seconds : laterInstant < 60)
    (parts : laterMillis < 1000)
    (order : first.Before second ∨ first = second ∧ (hour < laterHour ∨ hour = laterHour ∧
      (minute < laterMinute ∨ minute = laterMinute ∧ (instant < laterInstant ∨
        instant = laterInstant ∧ millis ≤ laterMillis)))) :
    textKey (isoText first hour minute instant millis) ≤
      textKey (isoText second laterHour laterMinute laterInstant laterMillis) := by
  have months := valid.month
  have days := valid.day
  have longest : monthLength (isLeap second.year) second.month ≤ 31 := by
    have leaps := Bool.toNat_le (isLeap second.year)
    unfold monthLength
    split <;> omega
  simp only [isoText, String.append_assoc]
  apply textKey_padded_le (by decide) (by omega)
  rcases order with (byYear | ⟨sameYear, byMonth | ⟨sameMonth, byDay⟩⟩) | ⟨rfl, time⟩
  · exact .inl byYear
  · refine .inr ⟨sameYear, textKey_append_le _ ?_⟩
    exact textKey_padded_le (by decide) (by omega) (.inl byMonth)
  · refine .inr ⟨sameYear, textKey_append_le _ ?_⟩
    apply textKey_padded_le (by decide) (by omega)
    refine .inr ⟨sameMonth, textKey_append_le _ ?_⟩
    exact textKey_padded_le (by decide) (by omega) (.inl byDay)
  · refine .inr ⟨rfl, textKey_append_le _ ?_⟩
    apply textKey_padded_le (by decide) (by omega)
    refine .inr ⟨rfl, textKey_append_le _ ?_⟩
    apply textKey_padded_le (by decide) (by omega)
    refine .inr ⟨rfl, textKey_append_le _ ?_⟩
    apply textKey_padded_le (by decide) (by omega)
    apply time.imp_right
    rintro ⟨sameHour, time⟩
    refine ⟨sameHour, textKey_append_le _ (textKey_padded_le (by decide) (by omega) ?_)⟩
    apply time.imp_right
    rintro ⟨sameMinute, time⟩
    refine ⟨sameMinute, textKey_append_le _ (textKey_padded_le (by decide) (by omega) ?_)⟩
    apply time.imp_right
    rintro ⟨sameSecond, part⟩
    refine ⟨sameSecond, textKey_append_le _ (textKey_padded_le (by decide) (by omega) ?_)⟩
    exact (Nat.lt_or_eq_of_le part).imp_right fun same => ⟨same, le_rfl⟩

/-- An instant that is not behind another one. -/
def Duration.le (first second : Duration) : Prop :=
  first.secs < second.secs ∨ first.secs = second.secs ∧ first.nanos ≤ second.nanos

/-- The date of an elapsed number of seconds. -/
def Duration.date (elapsed : Duration) : Date := civilDate (elapsed.secs / 86400 + 719468)

theorem Duration.date_spec (elapsed : Duration) :
    elapsed.date.Valid ∧ elapsed.date.number = epoch.number + elapsed.secs / 86400 := by
  obtain ⟨valid, number⟩ := civilDate_spec (elapsed.secs / 86400 + 719468)
  refine ⟨valid, ?_⟩
  rw [Duration.date, number, number_epoch]
  omega

/-- The year of a date is at most 9999 exactly when the date is before the year 10000. -/
theorem year_le_iff {date : Date} (valid : date.Valid) :
    date.year ≤ 9999 ↔ date.number < (⟨10000, 1, 1⟩ : Date).number := by
  have limit : (⟨10000, 1, 1⟩ : Date).Valid := ⟨by decide, by decide⟩
  constructor
  · intro early
    exact valid.number_lt_number (.inl (Nat.lt_succ_of_le early))
  · intro less
    have before := limit.before_of_lt less
    have months := valid.month
    have days := valid.day
    simp only [Date.Before] at before
    omega

theorem isoUtcDate_eq (elapsed : Duration) : isoUtcDate (some elapsed) =
    if elapsed.date.year ≤ 9999 then
      .ok (isoText elapsed.date (elapsed.secs % 86400 / 3600) (elapsed.secs % 86400 / 60 % 60)
        (elapsed.secs % 86400 % 60) (elapsed.nanos / 1000000))
    else .error "system clock is outside the ISO date range" := by
  rw [isoUtcDate, Checked.context, Checked.ok_bind]
  by_cases early : elapsed.date.year ≤ 9999
  · rw [if_pos early]
    simp only [Checked.ensure_of (show (civilDate _).year ≤ 9999 from early), Checked.ok_bind]
    rfl
  · rw [if_neg early]
    simp only [Checked.ensure, if_neg (show ¬(civilDate _).year ≤ 9999 from early)]
    rfl

theorem isoUtcDate_eq_ok {elapsed : Duration} {text : String} :
    isoUtcDate (some elapsed) = .ok text ↔ elapsed.date.year ≤ 9999 ∧
      isoText elapsed.date (elapsed.secs % 86400 / 3600) (elapsed.secs % 86400 / 60 % 60)
        (elapsed.secs % 86400 % 60) (elapsed.nanos / 1000000) = text := by
  rw [isoUtcDate_eq]
  by_cases early : elapsed.date.year ≤ 9999
  · rw [if_pos early, Except.ok.injEq, and_iff_right early]
  · rw [if_neg early]
    exact iff_of_false (by simp) fun both => early both.1

/-- A later second of a day has a later hour, minute or second. -/
theorem time_order {first second : Nat} (less : first < second) :
    first / 3600 < second / 3600 ∨ first / 3600 = second / 3600 ∧
      (first / 60 % 60 < second / 60 % 60 ∨ first / 60 % 60 = second / 60 % 60 ∧
        first % 60 < second % 60) := by
  have hours (value : Nat) : value / 3600 = value / 60 / 60 := by
    rw [Nat.div_div_eq_div_mul]
  rw [hours, hours]
  rcases Nat.lt_or_ge (first / 60) (second / 60) with minutes | minutes
  · omega
  · have same : first / 60 = second / 60 := by omega
    rw [same]
    exact .inr ⟨rfl, .inr ⟨rfl, by omega⟩⟩

/-- Up to the end of the year 9999, and no longer, an instant is printed as the valid date whose
number is that of the elapsed days, with the time of its day, and a later instant is not printed as
a smaller text. -/
theorem iso_utc_date_civil (elapsed : Duration) :
    (epoch.number + elapsed.secs / 86400 < (⟨10000, 1, 1⟩ : Date).number →
      ∃ date hour minute second, date.Valid ∧ date.year ≤ 9999 ∧
        date.number = epoch.number + elapsed.secs / 86400 ∧
        hour < 24 ∧ minute < 60 ∧ second < 60 ∧
        hour * 3600 + minute * 60 + second = elapsed.secs % 86400 ∧
        isoUtcDate (some elapsed) =
          .ok (isoText date hour minute second (elapsed.nanos / 1000000))) ∧
    ((⟨10000, 1, 1⟩ : Date).number ≤ epoch.number + elapsed.secs / 86400 →
      isoUtcDate (some elapsed) = .error "system clock is outside the ISO date range") ∧
    ∀ later text laterText, elapsed.le later → isoUtcDate (some elapsed) = .ok text →
      isoUtcDate (some later) = .ok laterText → textKey text ≤ textKey laterText := by
  obtain ⟨valid, number⟩ := elapsed.date_spec
  have range := year_le_iff valid
  rw [number] at range
  refine ⟨?_, ?_, ?_⟩
  · intro inRange
    have early := range.mpr inRange
    refine ⟨elapsed.date, elapsed.secs % 86400 / 3600, elapsed.secs % 86400 / 60 % 60,
      elapsed.secs % 86400 % 60, valid, early, number, by omega, by omega, by omega, by omega, ?_⟩
    rw [isoUtcDate_eq, if_pos early]
  · intro outside
    rw [isoUtcDate_eq, if_neg fun early => absurd (range.mp early) (Nat.not_lt.mpr outside)]
  · intro later text laterText order printed laterPrinted
    obtain ⟨laterValid, laterNumber⟩ := later.date_spec
    obtain ⟨-, rfl⟩ := isoUtcDate_eq_ok.mp printed
    obtain ⟨laterEarly, rfl⟩ := isoUtcDate_eq_ok.mp laterPrinted
    have seconds : elapsed.secs ≤ later.secs := by
      rcases order with less | ⟨same, -⟩ <;> omega
    have parts := later.inSecond
    apply isoText_le laterEarly laterValid (by omega) (by omega) (by omega) (by omega)
    rcases Nat.lt_or_ge (elapsed.secs / 86400) (later.secs / 86400) with days | days
    · exact .inl (laterValid.before_of_lt (by omega))
    · have same : elapsed.secs / 86400 = later.secs / 86400 := by omega
      refine .inr ⟨valid.eq_of_number laterValid (by omega), ?_⟩
      rcases order with less | ⟨equal, nanos⟩
      · apply (time_order (show elapsed.secs % 86400 < later.secs % 86400 by omega)).imp_right
        rintro ⟨sameHour, less⟩
        refine ⟨sameHour, less.imp_right ?_⟩
        exact fun ⟨sameMinute, less⟩ => ⟨sameMinute, .inl less⟩
      · rw [equal]
        exact .inr ⟨rfl, .inr ⟨rfl, .inr ⟨rfl, Nat.div_le_div_right nanos⟩⟩⟩

/-- The last second of a leap day at the end of an era. -/
example : isoUtcDate (some ⟨951868799, 999000000, by decide⟩) =
    .ok "2000-02-29T23:59:59.999Z" := by
  decide

end ArIoGateway
