import LWebServer.Base.Bytes
import LWebServer.Log.Date

/-!
# Broken-down times

The conversions between seconds since the epoch and the fields of a `struct tm` in UTC.
-/

namespace LWebServer

open Calendar

/-- `kSecondsPerDay` -/
def kSecondsPerDay : Checked 32 := 24 * 60 * 60

/-- `struct tm`, with the text that `tm_zone` points to. -/
structure Tm where
  tmSec : ℤ
  tmMin : ℤ
  tmHour : ℤ
  tmMday : ℤ
  tmMon : ℤ
  tmYear : ℤ
  tmWday : ℤ
  tmYday : ℤ
  tmIsdst : ℤ
  tmGmtoff : ℤ
  tmZone : List Byte
  deriving DecidableEq

namespace TimeZone

/-- `fillHMS`: the seconds, minutes and hours. -/
def fillHMS (seconds : ℕ) : ℕ × ℕ × ℕ :=
  let minutes := seconds / 60
  (seconds % 60, minutes % 60, minutes / 60)

/-- The seconds and days of `toUtcTime`, with the correction of a negative remainder. -/
def secondsAndDays (secondsSinceEpoch : Checked 64) : Checked 32 × Checked 32 :=
  let seconds := (secondsSinceEpoch % kSecondsPerDay.cast 64).cast 32
  let days := (secondsSinceEpoch / kSecondsPerDay.cast 64).cast 32
  if seconds.value < 0 then (seconds + kSecondsPerDay, days - 1) else (seconds, days)

/-- `TimeZone::toUtcTime`, if no operation overflows. -/
def toUtcTime (secondsSinceEpoch : ℤ) (yday : Bool) : Option Tm := do
  let (seconds, days) := secondsAndDays (.of secondsSinceEpoch)
  let (sec, min, hour) := fillHMS ((← seconds.result) % 2 ^ 32).toNat
  let date : Date := ⟨days + Date.kJulianDayOf1970_01_01⟩
  let ymd := date.yearMonthDay
  let startOfYear := Date.ofYearMonthDay ymd.year 1 1
  let dayOfYear := if yday then date.julianDayNumber - startOfYear.julianDayNumber else 0
  return {
    tmSec := sec
    tmMin := min
    tmHour := hour
    tmMday := ← ymd.day.result
    tmMon := ← (ymd.month - 1).result
    tmYear := ← (ymd.year - 1900).result
    tmWday := ← date.weekDay.result
    tmYday := ← dayOfYear.result
    tmIsdst := 0
    tmGmtoff := 0
    tmZone := text "GMT" }

/-- `TimeZone::fromUtcTime` of the fields, if no operation overflows. -/
def fromUtcTime (year month day hour minute seconds : Checked 32) : Option ℤ :=
  let date := Date.ofYearMonthDay year month day
  let secondsInDay := hour * 3600 + minute * 60 + seconds
  let days := (date.julianDayNumber - Date.kJulianDayOf1970_01_01).cast 64
  (days * kSecondsPerDay.cast 64 + secondsInDay.cast 64).result

/-- `TimeZone::fromUtcTime` of a broken-down time. -/
def fromUtcTm (utc : Tm) : Option ℤ :=
  fromUtcTime (.of utc.tmYear + 1900) (.of utc.tmMon + 1) (.of utc.tmMday) (.of utc.tmHour)
    (.of utc.tmMin) (.of utc.tmSec)

/-! ## The day and the second of the day -/

/-- The Julian day number of a time, with the day before the epoch as -1. -/
def julianDayNumberAt (secondsSinceEpoch : ℤ) : ℤ := secondsSinceEpoch / 86400 + 2440588

/-- Truncation with the correction of a negative remainder is rounding down. -/
theorem secondsOfDay_eq (t : ℤ) :
    (if t.tmod 86400 < 0 then t.tmod 86400 + 86400 else t.tmod 86400) = t % 86400 ∧
      (if t.tmod 86400 < 0 then t.tdiv 86400 - 1 else t.tdiv 86400) = t / 86400 := by
  have hsplit := Int.mul_tdiv_add_tmod t 86400
  have hlower := Int.lt_tmod_of_pos t (show (0 : ℤ) < 86400 by decide)
  have hupper := Int.tmod_lt_of_pos t (show (0 : ℤ) < 86400 by decide)
  split_ifs <;> omega

theorem value_kSecondsPerDay : kSecondsPerDay.value = 86400 := rfl

/-- A broken-down time shows a day of the calendar and a second of the day. -/
structure Shows (tm : Tm) (d : Day) (second : ℤ) : Prop where
  year : tm.tmYear + 1900 = d.year
  month : tm.tmMon + 1 = d.month
  mday : tm.tmMday = d.day
  wday : tm.tmWday = d.weekday
  yday : tm.tmYday = d.dayOfYear
  hour : 0 ≤ tm.tmHour ∧ tm.tmHour ≤ 23
  min : 0 ≤ tm.tmMin ∧ tm.tmMin ≤ 59
  sec : 0 ≤ tm.tmSec ∧ tm.tmSec ≤ 59
  time : tm.tmHour * 3600 + tm.tmMin * 60 + tm.tmSec = second

theorem value_secondsAndDays (t : ℤ) :
    (secondsAndDays (.of t)).1.value = t % 86400 ∧
      (secondsAndDays (.of t)).2.value = t / 86400 := by
  obtain ⟨hsecond, hday⟩ := secondsOfDay_eq t
  by_cases hnegative : t.tmod 86400 < 0
  · have hpair : secondsAndDays (.of t) = (_, _) := if_pos hnegative
    rw [if_pos hnegative] at hsecond hday
    rw [hpair]
    exact ⟨hsecond, hday⟩
  · have hpair : secondsAndDays (.of t) = (_, _) := if_neg hnegative
    rw [if_neg hnegative] at hsecond hday
    rw [hpair]
    exact ⟨hsecond, hday⟩

/-- The fields of the time of the day. -/
theorem fillHMS_spec (t : ℤ) :
    ∃ sec min hour : ℕ, fillHMS (t % 86400 % 2 ^ 32).toNat = (sec, min, hour) ∧
      sec ≤ 59 ∧ min ≤ 59 ∧ hour ≤ 23 ∧ (hour : ℤ) * 3600 + min * 60 + sec = t % 86400 := by
  refine ⟨_, _, _, rfl, ?_, ?_, ?_, ?_⟩ <;> norm_num <;> omega

/-- What `toUtcTime` gives is the day of its Julian day number. -/
theorem shows_toUtcTime {t : ℤ} {tm : Tm} (hjdn : 0 ≤ julianDayNumberAt t)
    (htm : toUtcTime t true = some tm) :
    ∃ d : Day, Shows tm d (t % 86400) ∧ julianDayNumberOf d = julianDayNumberAt t ∧
      julianDayNumberAt t ≤ 536838867 := by
  obtain ⟨hsecond, hday⟩ := value_secondsAndDays t
  unfold toUtcTime at htm
  generalize secondsAndDays (.of t) = split at htm hsecond hday
  simp only [Option.bind_eq_bind, Option.bind_eq_some_iff, Checked.result_eq_some, Option.pure_def,
    Option.some.injEq, if_true] at htm
  obtain ⟨second, ⟨-, rfl⟩, mday, ⟨hmdaydef, rfl⟩, mon, ⟨-, rfl⟩, year, ⟨-, rfl⟩, wday, ⟨-, rfl⟩,
    yday, ⟨-, rfl⟩, rfl⟩ := htm
  have hjulian : (split.2 + Date.kJulianDayOf1970_01_01).value = julianDayNumberAt t := by
    rw [Checked.value_add, hday, value_kJulianDayOf1970_01_01, julianDayNumberAt]
  have hle := le_of_defined_getYearMonthDay hmdaydef
  rw [hjulian] at hle
  obtain ⟨d, hyear, hmonth, hmday, hnumber⟩ := getYearMonthDay_spec (hjulian ▸ hjdn)
  rw [hjulian] at hnumber
  have hwday := @value_weekDay ⟨split.2 + Date.kJulianDayOf1970_01_01⟩ d
    (hjulian.trans hnumber.symm) (hnumber ▸ hjdn)
  have hfirst := @value_getJulianDayNumber _ 1 1 (.firstOfYear d.year) hyear rfl rfl
    (year_of_julianDayNumber (d := d) (hnumber ▸ hjdn))
  have hyday := d.number_firstOfYear
  obtain ⟨sec, min, hour, hfill, hsec, hmin, hhour, htime⟩ := fillHMS_spec t
  rw [hsecond, hfill]
  have hydayvalue :
      julianDayNumberAt t - julianDayNumberOf (.firstOfYear d.year) = d.dayOfYear := by
    rw [← hnumber]
    unfold julianDayNumberOf
    omega
  refine ⟨d, ?_, hnumber, hle⟩
  exact {
    year := (sub_add_cancel _ _).trans hyear
    month := (sub_add_cancel _ _).trans hmonth
    mday := hmday
    wday := hwday
    yday := (congrArg₂ (fun x y : ℤ ↦ x - y) hjulian hfirst).trans hydayvalue
    hour := ⟨Int.natCast_nonneg hour, Int.ofNat_le.2 hhour⟩
    min := ⟨Int.natCast_nonneg min, Int.ofNat_le.2 hmin⟩
    sec := ⟨Int.natCast_nonneg sec, Int.ofNat_le.2 hsec⟩
    time := htime }

/-! ## There and back -/

/-- What `fromUtcTime` gives for a day and a time of the day. -/
theorem value_of_fromUtcTime {year month day hour minute seconds : Checked 32} {d : Day} {t : ℤ}
    (hyear : year.value = d.year) (hmonth : month.value = d.month) (hday : day.value = d.day)
    (hjdn : 0 ≤ julianDayNumberOf d)
    (hfrom : fromUtcTime year month day hour minute seconds = some t) :
    t = (julianDayNumberOf d - 2440588) * 86400 +
      (hour.value * 3600 + minute.value * 60 + seconds.value) := by
  have hnumber := value_getJulianDayNumber hyear hmonth hday (year_of_julianDayNumber hjdn)
  rw [fromUtcTime, Checked.result_eq_some] at hfrom
  rw [← hnumber, ← value_kJulianDayOf1970_01_01]
  exact hfrom.2.symm

/-- Nothing overflows in `fromUtcTime` on the days that `toUtcTime` gives. -/
theorem fromUtcTime_eq_some {year month day hour minute seconds : Checked 32} {d : Day}
    (hyear : year.value = d.year) (hmonth : month.value = d.month) (hday : day.value = d.day)
    (hdate : year.defined ∧ month.defined ∧ day.defined)
    (hjdn : 0 ≤ julianDayNumberOf d ∧ julianDayNumberOf d ≤ 536838867)
    (htime : hour.defined ∧ minute.defined ∧ seconds.defined)
    (hhour : 0 ≤ hour.value ∧ hour.value ≤ 23) (hminute : 0 ≤ minute.value ∧ minute.value ≤ 59)
    (hseconds : 0 ≤ seconds.value ∧ seconds.value ≤ 59) :
    fromUtcTime year month day hour minute seconds =
      some ((julianDayNumberOf d - 2440588) * 86400 +
        (hour.value * 3600 + minute.value * 60 + seconds.value)) := by
  have hnumber := value_getJulianDayNumber hyear hmonth hday (year_of_julianDayNumber hjdn.1)
  have hdefined := defined_getJulianDayNumber hyear hmonth hday hdate hjdn
  have hepoch : Date.kJulianDayOf1970_01_01.defined := by decide
  have hday : kSecondsPerDay.defined := by decide
  rw [fromUtcTime, Checked.result_eq_some]
  constructor
  · simp only [Date.ofYearMonthDay, Checked.defined_sub, Checked.defined_add, Checked.defined_mul,
      Checked.defined_cast, Checked.defined_ofNat, Checked.value_sub, Checked.value_add,
      Checked.value_mul, Checked.value_cast, Checked.value_ofNat, hdefined, hnumber, hepoch, hday,
      htime, value_kSecondsPerDay, value_kJulianDayOf1970_01_01, InRange]
    norm_num
    omega
  · rw [← hnumber, ← value_kJulianDayOf1970_01_01]
    rfl

/-- `fromUtcTime` of the result of `toUtcTime` is the time. -/
theorem fromUtcTm_of_shows {t : ℤ} {tm : Tm} {d : Day} (hshows : Shows tm d (t % 86400))
    (hnumber : julianDayNumberOf d = julianDayNumberAt t) (hjdn : 0 ≤ julianDayNumberAt t)
    (hupper : julianDayNumberAt t ≤ 536838867) : fromUtcTm tm = some t := by
  have hlower := year_of_julianDayNumber (hnumber ▸ hjdn)
  have hyearmax := year_le_of_julianDayNumber (hnumber ▸ hupper)
  have hmonths := d.hmonth
  have hdays := d.hday
  have hlength := monthLength_le d.year d.month
  have hyear := hshows.year
  have hmonth := hshows.month
  have hmday := hshows.mday
  have hof {x : ℤ} (hx : -10000 ≤ x ∧ x ≤ 2000000) : (Checked.of x : Checked 32).defined := by
    rw [Checked.defined_of, inRange_32]
    omega
  have hadd {x : ℤ} {n : ℕ} (hx : -10000 ≤ x ∧ x ≤ 2000000) (hn : n ≤ 10000) :
      (Checked.of x + Checked.of n : Checked 32).defined := by
    rw [Checked.defined_add, Checked.defined_of, Checked.defined_of, Checked.value_of,
      Checked.value_of, inRange_32, inRange_32, inRange_32]
    omega
  have hsome := @fromUtcTime_eq_some (Checked.of tm.tmYear + 1900) (Checked.of tm.tmMon + 1)
    (.of tm.tmMday) (.of tm.tmHour) (.of tm.tmMin) (.of tm.tmSec) d hyear hmonth hmday
    ⟨hadd (n := 1900) (by omega) (by decide), hadd (n := 1) (by omega) (by decide),
      hof (by omega)⟩ (by omega)
    ⟨hof (by have := hshows.hour; omega), hof (by have := hshows.min; omega),
      hof (by have := hshows.sec; omega)⟩ hshows.hour hshows.min hshows.sec
  have htime := hshows.time
  rw [fromUtcTm, hsome, Option.some.injEq, hnumber, julianDayNumberAt]
  simp only [Checked.value_of]
  omega

/-- From the Julian day 0 on and as long as no `int` overflows, `toUtcTime` gives the day of the
time, and the two conversions are inverse to each other. -/
theorem utcTime_inverse :
    (∀ (t : ℤ) (tm : Tm), 0 ≤ julianDayNumberAt t → toUtcTime t true = some tm →
      (∃ d : Day, Shows tm d (t % 86400) ∧ julianDayNumberOf d = julianDayNumberAt t) ∧
        fromUtcTm tm = some t) ∧
    ∀ (d : Day) (hour minute seconds t : ℤ) (tm : Tm), 0 ≤ julianDayNumberOf d →
      0 ≤ hour ∧ hour ≤ 23 → 0 ≤ minute ∧ minute ≤ 59 → 0 ≤ seconds ∧ seconds ≤ 59 →
      fromUtcTime (.of d.year) (.of d.month) (.of d.day) (.of hour) (.of minute) (.of seconds) =
        some t →
      toUtcTime t true = some tm →
      Shows tm d (hour * 3600 + minute * 60 + seconds) ∧
        tm.tmHour = hour ∧ tm.tmMin = minute ∧ tm.tmSec = seconds := by
  constructor
  · intro t tm hjdn htm
    obtain ⟨d, hshows, hnumber, hupper⟩ := shows_toUtcTime hjdn htm
    exact ⟨⟨d, hshows, hnumber⟩, fromUtcTm_of_shows hshows hnumber hjdn hupper⟩
  · intro d hour minute seconds t tm hjdn hhour hminute hseconds hfrom htm
    have ht := value_of_fromUtcTime (d := d) rfl rfl rfl hjdn hfrom
    simp only [Checked.value_of] at ht
    have hday : julianDayNumberAt t = julianDayNumberOf d := by
      unfold julianDayNumberAt
      omega
    have hsecond : t % 86400 = hour * 3600 + minute * 60 + seconds := by omega
    obtain ⟨e, hshows, hnumber, -⟩ := shows_toUtcTime (hday ▸ hjdn) htm
    have hsame : e = d := by
      apply Day.number_injective
      rw [hday, julianDayNumberOf, julianDayNumberOf] at hnumber
      omega
    rw [hsame, hsecond] at hshows
    have htmHour := hshows.hour
    have htmMin := hshows.min
    have htmSec := hshows.sec
    have htime := hshows.time
    exact ⟨hshows, by omega, by omega, by omega⟩

/-- The last second before the epoch, and the leap day of 2000. -/
theorem utcTime_inverse_leapDay :
    (∃ tm, toUtcTime (-1) true = some tm ∧ fromUtcTm tm = some (-1)) ∧
    ∃ tm, fromUtcTime (.of 2000) (.of 2) (.of 29) (.of 0) (.of 0) (.of 1) = some 951782401 ∧
      toUtcTime 951782401 true = some tm ∧ tm.tmMon + 1 = 2 ∧ tm.tmMday = 29 ∧ tm.tmSec = 1 := by
  have hfrom : fromUtcTime (.of 2000) (.of 2) (.of 29) (.of 0) (.of 0) (.of 1) =
      some 951782401 := by decide
  have hlast := utcTime_inverse.1 (-1) _ (by decide) rfl
  have hleap := utcTime_inverse.2 ⟨2000, 2, 29, by decide, by decide⟩ 0 0 1 951782401 _
    (by decide) (by decide) (by decide) (by decide) hfrom rfl
  exact ⟨⟨_, rfl, hlast.2⟩, _, hfrom, rfl, hleap.1.month, hleap.1.mday, hleap.2.2.2⟩

end TimeZone

end LWebServer
