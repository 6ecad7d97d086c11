import Mathlib.Tactic.IntervalCases
import Mathlib.Tactic.NormNum

/-!
# The Gregorian calendar

The calendar with its leap years extended to all years, the numbering of its days, and the day of
the week and of the year. Days are numbered from the first of January of the year 1.
-/

namespace LWebServer.Calendar

/-- A leap year. -/
def IsLeap (year : ℤ) : Prop := year % 4 = 0 ∧ (year % 100 ≠ 0 ∨ year % 400 = 0)

instance (year : ℤ) : Decidable (IsLeap year) := inferInstanceAs (Decidable (_ ∧ (_ ∨ _)))

/-- The number of days of a month. -/
def monthLength (year month : ℤ) : ℤ :=
  if month = 2 then if IsLeap year then 29 else 28
  else if month = 4 ∨ month = 6 ∨ month = 9 ∨ month = 11 then 30 else 31

def yearLength (year : ℤ) : ℤ := if IsLeap year then 366 else 365

/-- The days of a year before so many full months. -/
def daysOfMonths (year : ℤ) : ℕ → ℤ
  | 0 => 0
  | months + 1 => daysOfMonths year months + monthLength year (months + 1)

/-- The days before the first of January, from the year 1 on; negative for the years before. -/
def daysBeforeYear (year : ℤ) : ℤ :=
  365 * (year - 1) + (year - 1) / 4 - (year - 1) / 100 + (year - 1) / 400

/-- A day of the calendar. -/
@[ext]
structure Day where
  year : ℤ
  month : ℤ
  day : ℤ
  hmonth : 1 ≤ month ∧ month ≤ 12
  hday : 1 ≤ day ∧ day ≤ monthLength year month
  deriving DecidableEq

namespace Day

/-- The day of the year, counted from 0. -/
def dayOfYear (d : Day) : ℤ := daysOfMonths d.year (d.month - 1).toNat + d.day - 1

/-- The number of a day; that of the first of January of the year 1 is 1. -/
def number (d : Day) : ℤ := daysBeforeYear d.year + d.dayOfYear + 1

/-- The day of the week, counted from Sunday as 0. -/
def weekday (d : Day) : ℤ := d.number % 7

end Day

/-! ## The lengths of months and years -/

theorem monthLength_pos (year month : ℤ) : 1 ≤ monthLength year month := by
  unfold monthLength
  split_ifs <;> omega

theorem monthLength_le (year month : ℤ) : monthLength year month ≤ 31 := by
  unfold monthLength
  split_ifs <;> omega

/-- The months of a year make up the year. -/
theorem daysOfMonths_twelve (year : ℤ) : daysOfMonths year 12 = yearLength year := by
  simp only [daysOfMonths, monthLength, yearLength]
  norm_num
  split_ifs <;> rfl

theorem daysBeforeYear_add_one (year : ℤ) :
    daysBeforeYear (year + 1) = daysBeforeYear year + yearLength year := by
  unfold daysBeforeYear yearLength IsLeap
  split_ifs with hleap <;> omega

theorem daysOfMonths_le {year : ℤ} {months more : ℕ} (hle : months ≤ more) :
    daysOfMonths year months ≤ daysOfMonths year more := by
  induction more, hle using Nat.le_induction with
  | base => exact le_rfl
  | succ more _ ih =>
    have hpos := monthLength_pos year (more + 1)
    rw [daysOfMonths]
    omega

/-! ## The days in order -/

namespace Day

/-- The day after a day. -/
def next (d : Day) : Day :=
  if hend : d.day < monthLength d.year d.month then
    ⟨d.year, d.month, d.day + 1, d.hmonth, by have hday := d.hday; omega⟩
  else if hyear : d.month < 12 then
    ⟨d.year, d.month + 1, 1, by have hmonth := d.hmonth; omega, le_rfl, monthLength_pos _ _⟩
  else ⟨d.year + 1, 1, 1, by omega, le_rfl, monthLength_pos _ _⟩

theorem daysOfMonths_month (d : Day) :
    daysOfMonths d.year d.month.toNat =
      daysOfMonths d.year (d.month - 1).toNat + monthLength d.year d.month := by
  have hmonth := d.hmonth
  obtain ⟨months, hmonths⟩ : ∃ months : ℕ, d.month = months + 1 :=
    ⟨(d.month - 1).toNat, by omega⟩
  have hbefore : (d.month - 1).toNat = months := by omega
  have hupto : d.month.toNat = months + 1 := by omega
  rw [hbefore, hupto, daysOfMonths, ← hmonths]

/-- The next day has the next number. -/
theorem number_next (d : Day) : d.next.number = d.number + 1 := by
  have hmonth := d.hmonth
  have hday := d.hday
  have hdays := d.daysOfMonths_month
  unfold next
  split_ifs with hend hyear
  · simp only [number, dayOfYear]
    omega
  · have hnext : (d.month + 1 - 1).toNat = d.month.toNat := by rw [Int.add_sub_cancel]
    simp only [number, dayOfYear, hnext, hdays]
    omega
  · have hdecember : d.month = 12 := by omega
    have htwelve := daysOfMonths_twelve d.year
    have hyears := daysBeforeYear_add_one d.year
    rw [hdecember] at hdays hend
    have hdays' : daysOfMonths d.year 12 =
        daysOfMonths d.year (12 - 1 : ℤ).toNat + monthLength d.year 12 := hdays
    have hfirst : daysOfMonths (d.year + 1) (1 - 1 : ℤ).toNat = 0 := rfl
    simp only [number, dayOfYear, hfirst, hdecember]
    rw [hdecember] at hday
    omega

/-- The days of the week follow each other. -/
theorem weekday_next (d : Day) : d.next.weekday = (d.weekday + 1) % 7 := by
  rw [weekday, number_next, weekday, Int.emod_add_emod]

/-- The first of January. -/
def firstOfYear (year : ℤ) : Day := ⟨year, 1, 1, by omega, le_rfl, monthLength_pos _ _⟩

/-- The day of the year counts from the first of January. -/
theorem number_firstOfYear (d : Day) : d.number = (firstOfYear d.year).number + d.dayOfYear := by
  have hfirst : (firstOfYear d.year).dayOfYear = 0 := rfl
  have hyear : (firstOfYear d.year).year = d.year := rfl
  rw [number, number, hfirst, hyear]
  omega

theorem dayOfYear_bounds (d : Day) : 0 ≤ d.dayOfYear ∧ d.dayOfYear < yearLength d.year := by
  have hmonth := d.hmonth
  have hday := d.hday
  have hdays := d.daysOfMonths_month
  have hlower : daysOfMonths d.year 0 ≤ daysOfMonths d.year (d.month - 1).toNat :=
    daysOfMonths_le (Nat.zero_le _)
  have hupper : daysOfMonths d.year d.month.toNat ≤ daysOfMonths d.year 12 :=
    daysOfMonths_le (by omega)
  rw [daysOfMonths_twelve] at hupper
  rw [daysOfMonths] at hlower
  unfold dayOfYear
  omega

/-- A day of an earlier year has a smaller number. -/
theorem number_lt_of_year_lt {d e : Day} (hyear : d.year < e.year) : d.number < e.number := by
  have hd := d.dayOfYear_bounds
  have he := e.dayOfYear_bounds
  have hend := daysBeforeYear_add_one d.year
  have hmono : daysBeforeYear (d.year + 1) ≤ daysBeforeYear e.year := by
    unfold daysBeforeYear
    omega
  unfold number
  omega

/-- So has a day of an earlier month of the year. -/
theorem number_lt_of_month_lt {d e : Day} (hyear : d.year = e.year) (hmonth : d.month < e.month) :
    d.number < e.number := by
  have hdmonth := d.hmonth
  have hdday := d.hday
  have heday := e.hday
  have hdays := d.daysOfMonths_month
  have hmono : daysOfMonths d.year d.month.toNat ≤ daysOfMonths d.year (e.month - 1).toNat :=
    daysOfMonths_le (by omega)
  unfold number dayOfYear
  rw [← hyear]
  omega

/-- Different days have different numbers. -/
theorem number_injective : Function.Injective number := by
  intro d e hnumber
  have hyear : d.year = e.year := by
    rcases lt_trichotomy d.year e.year with hlt | heq | hgt
    · exact absurd hnumber (number_lt_of_year_lt hlt).ne
    · exact heq
    · exact absurd hnumber (number_lt_of_year_lt hgt).ne'
  have hmonth : d.month = e.month := by
    rcases lt_trichotomy d.month e.month with hlt | heq | hgt
    · exact absurd hnumber (number_lt_of_month_lt hyear hlt).ne
    · exact heq
    · exact absurd hnumber (number_lt_of_month_lt hyear.symm hgt).ne'
  have hday : d.day = e.day := by
    unfold number dayOfYear at hnumber
    rw [hyear, hmonth] at hnumber
    omega
  exact Day.ext hyear hmonth hday

end Day

/-! ## Years that start in March -/

/-- The days before a month from March on. -/
theorem daysOfMonths_of_march {year month : ℤ} (hlower : 3 ≤ month) (hupper : month ≤ 12) :
    daysOfMonths year (month - 1).toNat =
      (153 * (month - 3) + 2) / 5 + 59 + if IsLeap year then 1 else 0 := by
  interval_cases month <;> simp [daysOfMonths, monthLength] <;> split_ifs <;> rfl

/-- January and February are the eleventh and twelfth month from the March before. -/
theorem daysOfMonths_of_january {year month : ℤ} (hlower : 1 ≤ month) (hupper : month ≤ 2) :
    daysOfMonths year (month - 1).toNat = (153 * (month + 9) + 2) / 5 - 306 := by
  interval_cases month <;> simp [daysOfMonths, monthLength]

/-- The leap days of the years up to one, and of those before. -/
theorem leapDays_eq (year : ℤ) :
    year / 4 - year / 100 + year / 400 =
      (year - 1) / 4 - (year - 1) / 100 + (year - 1) / 400 + if IsLeap year then 1 else 0 := by
  unfold IsLeap
  split_ifs <;> omega

/-- A century has 36524 days, and one more every fourth time. -/
theorem century_bounds {a b c : ℤ} (hb : b = (4 * a + 3) / 146097)
    (hc : c = a - b * 146097 / 4) :
    0 ≤ c ∧ c ≤ 36524 ∧ (c = 36524 → b % 4 = 3) := by
  have hlower : b * 146097 ≤ 4 * a + 3 := hb ▸ Int.ediv_mul_le _ (by decide)
  have hupper : 4 * a + 3 < (b + 1) * 146097 := hb ▸ Int.lt_ediv_add_one_mul_self _ (by decide)
  have hcenturies : b * 146097 / 4 = 36524 * b + b / 4 := by omega
  have hfour : b = 4 * (b / 4) + b % 4 := by omega
  have hrange : 0 ≤ b % 4 ∧ b % 4 ≤ 3 := by omega
  clear hb
  generalize b / 4 = q at *
  generalize b % 4 = r at *
  omega

/-- A year of a century has 365 days, and one more every fourth time, except that the last one does
only if the century does. -/
theorem yearOfCentury_bounds {c d e : ℤ} (hlower : 0 ≤ c) (hupper : c ≤ 36524)
    (hd : d = (4 * c + 3) / 1461) (he : e = c - 1461 * d / 4) :
    0 ≤ d ∧ d ≤ 99 ∧ 0 ≤ e ∧ e ≤ 365 ∧ (e = 365 → d % 4 = 3) ∧
      (e = 365 → d = 99 → c = 36524) := by
  have hdlower : d * 1461 ≤ 4 * c + 3 := hd ▸ Int.ediv_mul_le _ (by decide)
  have hdupper : 4 * c + 3 < (d + 1) * 1461 := hd ▸ Int.lt_ediv_add_one_mul_self _ (by decide)
  have hnonneg : 0 ≤ d := hd ▸ Int.ediv_nonneg (by omega) (by decide)
  have hyears : 1461 * d / 4 = 365 * d + d / 4 := by omega
  have hfour : d = 4 * (d / 4) + d % 4 := by omega
  have hrange : 0 ≤ d % 4 ∧ d % 4 ≤ 3 := by omega
  clear hd
  generalize d / 4 = q at *
  generalize d % 4 = r at *
  omega

/-- The month of a year that starts in March. -/
theorem monthOfYear_bounds {e m : ℤ} (hlower : 0 ≤ e) (hupper : e ≤ 365)
    (hm : m = (5 * e + 2) / 153) :
    0 ≤ m ∧ m ≤ 11 ∧ (153 * m + 2) / 5 ≤ e ∧ e < (153 * (m + 1) + 2) / 5 := by
  omega

/-- The length of a month that is not February. -/
theorem monthLength_of_march {year m : ℤ} (hlower : 0 ≤ m) (hupper : m ≤ 10) :
    monthLength year (m + 3 - 12 * (m / 10)) =
      (153 * (m + 1) + 2) / 5 - (153 * m + 2) / 5 := by
  interval_cases m <;> simp [monthLength]

/-- A day counted from the first of March of the year -4800 on: the century, the year of the century
and the day of the year. The leap day is the last of its year. -/
structure MarchDay where
  century : ℤ
  year : ℤ
  day : ℤ
  hyear : 0 ≤ year ∧ year ≤ 99
  hday : 0 ≤ day ∧ day ≤ 365
  hleap : day = 365 → year % 4 = 3 ∧ (year = 99 → century % 4 = 3)

namespace MarchDay

/-- The month, counted from March as 0. -/
def month (d : MarchDay) : ℤ := (5 * d.day + 2) / 153

/-- The number of days up to the day. -/
def count (d : MarchDay) : ℤ := d.century * 146097 / 4 + 1461 * d.year / 4 + d.day

theorem month_bounds (d : MarchDay) :
    0 ≤ d.month ∧ d.month ≤ 11 ∧ (153 * d.month + 2) / 5 ≤ d.day ∧
      d.day < (153 * (d.month + 1) + 2) / 5 :=
  monthOfYear_bounds d.hday.1 d.hday.2 rfl

/-- A month is at least as long as the next one starts later. -/
theorem day_le_monthLength (d : MarchDay) :
    d.day - (153 * d.month + 2) / 5 + 1 ≤
      monthLength (d.century * 100 + d.year - 4800 + d.month / 10)
        (d.month + 3 - 12 * (d.month / 10)) := by
  obtain ⟨hlower, hupper, hstart, hend⟩ := d.month_bounds
  have hyear := d.hyear
  have hday := d.hday
  by_cases hfebruary : d.month = 11
  · have htwo : (11 + 3 - 12 * (11 / 10) : ℤ) = 2 := rfl
    rw [hfebruary, htwo, monthLength, if_pos rfl]
    by_cases hlast : d.day = 365
    · obtain ⟨hfour, hcentury⟩ := d.hleap hlast
      have hisleap : IsLeap (d.century * 100 + d.year - 4800 + 11 / 10) := by
        unfold IsLeap
        omega
      rw [if_pos hisleap]
      omega
    · split_ifs <;> omega
  · rw [monthLength_of_march hlower (by omega)]
    omega

/-- The day in the calendar. -/
def toDay (d : MarchDay) : Day where
  year := d.century * 100 + d.year - 4800 + d.month / 10
  month := d.month + 3 - 12 * (d.month / 10)
  day := d.day - (153 * d.month + 2) / 5 + 1
  hmonth := by
    have hmonth := d.month_bounds
    by_cases hmarch : d.month ≤ 9 <;> omega
  hday := ⟨by have hmonth := d.month_bounds; omega, d.day_le_monthLength⟩

/-- The days before a year. -/
theorem leapDays_of_century (d : MarchDay) :
    365 * (d.century * 100 + d.year) + ((d.century * 100 + d.year - 4800) / 4 -
      (d.century * 100 + d.year - 4800) / 100 + (d.century * 100 + d.year - 4800) / 400) =
      d.century * 146097 / 4 + 1461 * d.year / 4 - 1164 := by
  have hyear := d.hyear
  have hfour : (d.century * 100 + d.year - 4800) / 4 = 25 * d.century + d.year / 4 - 1200 := by
    omega
  have hhundred : (d.century * 100 + d.year - 4800) / 100 = d.century - 48 := by omega
  have hfourHundred : (d.century * 100 + d.year - 4800) / 400 = d.century / 4 - 12 := by omega
  have hcenturies : d.century * 146097 / 4 = 36524 * d.century + d.century / 4 := by omega
  have hyears : 1461 * d.year / 4 = 365 * d.year + d.year / 4 := by omega
  rw [hfour, hhundred, hfourHundred, hcenturies, hyears]
  omega

/-- The count is the number of the day up to a constant. -/
theorem number_toDay (d : MarchDay) : d.toDay.number + 1753469 = d.count := by
  obtain ⟨hlower, hupper, hstart, -⟩ := d.month_bounds
  have hyears := leapDays_eq (d.century * 100 + d.year - 4800)
  have hcenturies := d.leapDays_of_century
  unfold Day.number Day.dayOfYear toDay count daysBeforeYear
  dsimp only
  by_cases hmarch : d.month ≤ 9
  · have hten : d.month / 10 = 0 := by omega
    have hdays := @daysOfMonths_of_march (d.century * 100 + d.year - 4800) (d.month + 3)
      (by omega) (by omega)
    rw [add_sub_cancel_right] at hdays
    rw [hten, mul_zero, sub_zero, add_zero, hdays]
    omega
  · have hten : d.month / 10 = 1 := by omega
    have hmonth : d.month + 3 - 12 * 1 + 9 = d.month := by omega
    have hdays := @daysOfMonths_of_january (d.century * 100 + d.year - 4800 + 1)
      (d.month + 3 - 12 * 1) (by omega) (by omega)
    rw [hmonth] at hdays
    rw [hten, hdays, add_sub_cancel_right]
    omega

/-- The day of a count. -/
def ofCount (a : ℤ) : MarchDay :=
  have hcentury := century_bounds (a := a) rfl rfl
  have hyear := yearOfCentury_bounds hcentury.1 hcentury.2.1 rfl rfl
  let b := (4 * a + 3) / 146097
  let c := a - b * 146097 / 4
  let d := (4 * c + 3) / 1461
  { century := b
    year := d
    day := c - 1461 * d / 4
    hyear := ⟨hyear.1, hyear.2.1⟩
    hday := ⟨hyear.2.2.1, hyear.2.2.2.1⟩
    hleap := fun h ↦ ⟨hyear.2.2.2.2.1 h, fun h99 ↦ hcentury.2.2 (hyear.2.2.2.2.2 h h99)⟩ }

theorem count_ofCount (a : ℤ) : (ofCount a).count = a := by
  simp only [count, ofCount]
  omega

end MarchDay

/-- The day of a number. -/
def Day.ofNumber (n : ℤ) : Day := (MarchDay.ofCount (n + 1753469)).toDay

/-- Every number is that of a day. -/
theorem Day.number_ofNumber (n : ℤ) : (Day.ofNumber n).number = n := by
  have hnumber := (MarchDay.ofCount (n + 1753469)).number_toDay
  rw [MarchDay.count_ofCount] at hnumber
  unfold Day.ofNumber
  omega

end LWebServer.Calendar
