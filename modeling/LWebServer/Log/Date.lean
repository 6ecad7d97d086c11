import LWebServer.Library.Calendar
import LWebServer.Library.Checked

/-!
# Dates as Julian day numbers

The two conversions count from the first of March of the year -4800, so that the leap day is the
last of a year. The months from March on repeat the lengths 31, 30, 31, 30, 31, which makes the days
before a month linear in it up to rounding.
-/

namespace LWebServer

open Calendar

/-- `ws::Date::YearMonthDay` -/
structure YearMonthDay where
  year : Checked 32
  month : Checked 32
  day : Checked 32

/-- `ws::getJulianDayNumber` -/
def getJulianDayNumber (year month day : Checked 32) : Checked 32 :=
  let a := (14 - month) / 12
  let y := year + 4800 - a
  let m := month + 12 * a - 3
  day + (153 * m + 2) / 5 + y * 365 + y / 4 - y / 100 + y / 400 - 32045

/-- `ws::getYearMonthDay` -/
def getYearMonthDay (julianDayNumber : Checked 32) : YearMonthDay :=
  let a := julianDayNumber + 32044
  let b := (4 * a + 3) / 146097
  let c := a - b * 146097 / 4
  let d := (4 * c + 3) / 1461
  let e := c - 1461 * d / 4
  let m := (5 * e + 2) / 153
  { day := e - (153 * m + 2) / 5 + 1
    month := m + 3 - 12 * (m / 10)
    year := b * 100 + d - 4800 + m / 10 }

/-- `ws::Date` -/
structure Date where
  julianDayNumber : Checked 32

namespace Date

/-- `Date::kJulianDayOf1970_01_01` -/
def kJulianDayOf1970_01_01 : Checked 32 := getJulianDayNumber 1970 1 1

/-- `Date::kDaysPerWeek` -/
def kDaysPerWeek : Checked 32 := 7

/-- The constructor from a year, a month and a day. -/
def ofYearMonthDay (year month day : Checked 32) : Date := ⟨getJulianDayNumber year month day⟩

def yearMonthDay (date : Date) : YearMonthDay := getYearMonthDay date.julianDayNumber

def weekDay (date : Date) : Checked 32 := (date.julianDayNumber + 1) % kDaysPerWeek

end Date

/-! ## The day of a Julian day number -/

/-- The Julian day number of a day, by counting. -/
def julianDayNumberOf (d : Day) : ℤ := d.number + 1721425

/-- The day 0 is in the year 4714 BC. -/
theorem year_of_julianDayNumber {d : Day} (hjdn : 0 ≤ julianDayNumberOf d) : -4799 ≤ d.year := by
  by_contra hlow
  have hupper := d.dayOfYear_bounds.2
  have hlength := daysBeforeYear_add_one d.year
  unfold julianDayNumberOf Day.number at hjdn
  unfold daysBeforeYear at hlength hjdn
  omega

theorem value_kJulianDayOf1970_01_01 : Date.kJulianDayOf1970_01_01.value = 2440588 := by decide

/-- From 4801 BC on no division of `getJulianDayNumber` is one of a negative number. -/
theorem value_getJulianDayNumber {year month day : Checked 32} {d : Day}
    (hyear : year.value = d.year) (hmonth : month.value = d.month) (hday : day.value = d.day)
    (hrange : -4799 ≤ d.year) :
    (getJulianDayNumber year month day).value = julianDayNumberOf d := by
  have hmonths := d.hmonth
  have hleap := leapDays_eq d.year
  simp only [getJulianDayNumber, Checked.value_sub, Checked.value_add, Checked.value_mul,
    Checked.value_div, Checked.value_ofNat, hyear, hmonth, hday]
  unfold julianDayNumberOf Day.number Day.dayOfYear daysBeforeYear
  rw [@Int.tdiv_eq_ediv_of_nonneg (14 - d.month) 12 (by omega)]
  by_cases hmarch : 3 ≤ d.month
  · have ha : (14 - d.month) / 12 = 0 := by omega
    have hdays := @daysOfMonths_of_march d.year _ hmarch hmonths.2
    rw [ha, @Int.tdiv_eq_ediv_of_nonneg _ 5 (by omega), @Int.tdiv_eq_ediv_of_nonneg _ 4 (by omega),
      @Int.tdiv_eq_ediv_of_nonneg _ 100 (by omega), @Int.tdiv_eq_ediv_of_nonneg _ 400 (by omega)]
    omega
  · have ha : (14 - d.month) / 12 = 1 := by omega
    have hdays := @daysOfMonths_of_january d.year _ hmonths.1 (by omega)
    rw [ha, @Int.tdiv_eq_ediv_of_nonneg _ 5 (by omega), @Int.tdiv_eq_ediv_of_nonneg _ 4 (by omega),
      @Int.tdiv_eq_ediv_of_nonneg _ 100 (by omega), @Int.tdiv_eq_ediv_of_nonneg _ 400 (by omega)]
    omega

/-- The years up to the largest Julian day number of which `getYearMonthDay` gives the date. -/
theorem year_le_of_julianDayNumber {d : Day} (hjdn : julianDayNumberOf d ≤ 536838867) :
    d.year ≤ 1466000 := by
  by_contra hhigh
  have hlower := d.dayOfYear_bounds.1
  unfold julianDayNumberOf Day.number daysBeforeYear at hjdn
  omega

/-- No operation of `getJulianDayNumber` overflows on the days that `getYearMonthDay` gives. -/
theorem defined_getJulianDayNumber {year month day : Checked 32} {d : Day}
    (hyear : year.value = d.year) (hmonth : month.value = d.month) (hday : day.value = d.day)
    (hdefined : year.defined ∧ month.defined ∧ day.defined)
    (hjdn : 0 ≤ julianDayNumberOf d ∧ julianDayNumberOf d ≤ 536838867) :
    (getJulianDayNumber year month day).defined := by
  have hmonths := d.hmonth
  have hdays := d.hday
  have hlength := monthLength_le d.year d.month
  have hlower := year_of_julianDayNumber hjdn.1
  have hupper := year_le_of_julianDayNumber hjdn.2
  obtain ⟨a, ha⟩ : ∃ a, a = (14 - d.month) / 12 := ⟨_, rfl⟩
  have hta : (14 - d.month).tdiv 12 = a := by rw [Int.tdiv_eq_ediv_of_nonneg (by omega), ha]
  simp only [getJulianDayNumber, Checked.defined_sub, Checked.defined_add, Checked.defined_mul,
    Checked.defined_div, Checked.defined_ofNat, Checked.value_sub, Checked.value_add,
    Checked.value_mul, Checked.value_div, Checked.value_ofNat, hyear, hmonth, hday, hdefined,
    inRange_32, hta]
  rw [@Int.tdiv_eq_ediv_of_nonneg _ 5 (by omega), @Int.tdiv_eq_ediv_of_nonneg _ 4 (by omega),
    @Int.tdiv_eq_ediv_of_nonneg _ 100 (by omega), @Int.tdiv_eq_ediv_of_nonneg _ 400 (by omega)]
  norm_num
  omega

/-! ## The date of a Julian day number -/

/-- The date of a Julian day number is the day that has it. -/
theorem getYearMonthDay_spec {j : Checked 32} (hj : 0 ≤ j.value) :
    ∃ day : Day, (getYearMonthDay j).year.value = day.year ∧
      (getYearMonthDay j).month.value = day.month ∧ (getYearMonthDay j).day.value = day.day ∧
      julianDayNumberOf day = j.value := by
  have hday := (MarchDay.ofCount (j.value + 32044)).number_toDay
  rw [MarchDay.count_ofCount] at hday
  obtain ⟨b, hb⟩ : ∃ b, b = (4 * (j.value + 32044) + 3) / 146097 := ⟨_, rfl⟩
  obtain ⟨c, hc⟩ : ∃ c, c = j.value + 32044 - b * 146097 / 4 := ⟨_, rfl⟩
  obtain ⟨d, hd⟩ : ∃ d, d = (4 * c + 3) / 1461 := ⟨_, rfl⟩
  obtain ⟨e, he⟩ : ∃ e, e = c - 1461 * d / 4 := ⟨_, rfl⟩
  obtain ⟨m, hm⟩ : ∃ m, m = (5 * e + 2) / 153 := ⟨_, rfl⟩
  have hb0 : 0 ≤ b := by omega
  obtain ⟨hc0, hcupper, -⟩ := century_bounds hb hc
  obtain ⟨hd0, -, he0, heupper, -, -⟩ := yearOfCentury_bounds hc0 hcupper hd he
  have hm0 := (monthOfYear_bounds he0 heupper hm).1
  have htb : (4 * (j.value + 32044) + 3).tdiv 146097 = b := by
    rw [Int.tdiv_eq_ediv_of_nonneg (by omega), hb]
  have htc : j.value + 32044 - (b * 146097).tdiv 4 = c := by
    rw [Int.tdiv_eq_ediv_of_nonneg (by omega), hc]
  have htd : (4 * c + 3).tdiv 1461 = d := by rw [Int.tdiv_eq_ediv_of_nonneg (by omega), hd]
  have hte : c - (1461 * d).tdiv 4 = e := by rw [Int.tdiv_eq_ediv_of_nonneg (by omega), he]
  have htm : (5 * e + 2).tdiv 153 = m := by rw [Int.tdiv_eq_ediv_of_nonneg (by omega), hm]
  have htten : m.tdiv 10 = m / 10 := Int.tdiv_eq_ediv_of_nonneg hm0
  have htfive : (153 * m + 2).tdiv 5 = (153 * m + 2) / 5 :=
    Int.tdiv_eq_ediv_of_nonneg (by omega)
  refine ⟨(MarchDay.ofCount (j.value + 32044)).toDay, ?_, ?_, ?_, ?_⟩
  · simp only [getYearMonthDay, Checked.value_sub, Checked.value_add, Checked.value_mul,
      Checked.value_div, Checked.value_ofNat, htb, htc, htd, hte, htm, htten]
    rw [hm, he, hd, hc, hb]
    rfl
  · simp only [getYearMonthDay, Checked.value_sub, Checked.value_add, Checked.value_mul,
      Checked.value_div, Checked.value_ofNat, htb, htc, htd, hte, htm, htten]
    rw [hm, he, hd, hc, hb]
    rfl
  · simp only [getYearMonthDay, Checked.value_sub, Checked.value_add, Checked.value_mul,
      Checked.value_div, Checked.value_ofNat, htb, htc, htd, hte, htm, htfive]
    rw [hm, he, hd, hc, hb]
    rfl
  · unfold julianDayNumberOf
    omega

/-- The first product of `getYearMonthDay` is the largest. -/
theorem le_of_defined_getYearMonthDay {j : Checked 32}
    (hdefined : (getYearMonthDay j).day.defined) : j.value ≤ 536838867 := by
  unfold getYearMonthDay at hdefined
  have he := ((Checked.defined_sub _ _).1 ((Checked.defined_add _ _).1 hdefined).1).1
  have hc := ((Checked.defined_sub _ _).1 he).1
  have hdays := ((Checked.defined_sub _ _).1 hc).2.1
  have hb := ((Checked.defined_mul _ _).1 ((Checked.defined_div _ _).1 hdays).1).1
  have hrange := ((Checked.defined_add _ _).1 ((Checked.defined_div _ _).1 hb).1).2.2
  rw [inRange_32] at hrange
  simp only [Checked.value_add, Checked.value_mul, Checked.value_ofNat] at hrange
  omega

theorem value_weekDay {date : Date} {d : Day}
    (hdate : date.julianDayNumber.value = julianDayNumberOf d) (hjdn : 0 ≤ julianDayNumberOf d) :
    date.weekDay.value = d.weekday := by
  have hvalue : date.weekDay.value = (date.julianDayNumber.value + 1).tmod 7 := rfl
  rw [hvalue, hdate, Int.tmod_eq_emod_of_nonneg (by omega), Day.weekday, julianDayNumberOf]
  omega

end LWebServer
