import LWebServer.Library.Memo
import LWebServer.Log.LocalTime
import LWebServer.Log.LogStream
import LWebServer.Log.Printing

/-!
# The time in a log statement

`formatTime` prints the date and the time of a second once and keeps the text until another second
comes. The zone of the log can be set in between. Where an assertion on the length of a text fails,
the process aborts.
-/

namespace LWebServer

/-- A time zone that can be set for the log: the default one, or one with usable data. -/
structure LogZone where
  zone : TimeZone
  husable : ∀ data, zone.data = some data → data.Indexed

namespace LogZone

variable (gmtime : ℤ → Tm)

/-- The zone before any is set. -/
def new : LogZone := ⟨⟨none⟩, fun _ hnone ↦ by cases hnone⟩

theorem toLocalTime_isSome {logZone : LogZone} (hvalid : logZone.zone.valid = true) (seconds : ℤ) :
    (logZone.zone.toLocalTime gmtime seconds).isSome = true := by
  obtain ⟨⟨data⟩, husable⟩ := logZone
  obtain ⟨data, rfl⟩ := Option.isSome_iff_exists.1 hvalid
  obtain ⟨tm, htm⟩ := TimeZone.exists_toLocalTime gmtime (husable data rfl) seconds
  exact Option.isSome_iff_exists.2 ⟨tm, htm⟩

/-- What `formatTime` breaks a second down to. -/
def clock (logZone : LogZone) (seconds : ℤ) : Tm :=
  if hvalid : logZone.zone.valid = true then
    (logZone.zone.toLocalTime gmtime seconds).get (toLocalTime_isSome gmtime hvalid seconds)
  else gmtime seconds

/-- The offset from UTC in force at a time. -/
def offset (logZone : LogZone) (seconds : ℤ) : ℤ :=
  match logZone.zone.data.bind fun data ↦ data.findLocaltime ⟨seconds, 0, 0⟩ ⟨true⟩ with
  | some found => found.gmtOffset
  | none => 0

end LogZone

/-- The text of `snprintf` in a buffer, with the NUL behind it. -/
def snprintf (buffer formatted : List Byte) : List Byte :=
  let kept := formatted.take (buffer.length - 1)
  kept ++ 0 :: buffer.drop (kept.length + 1)

/-- `Timestamp::KmicroSecond` -/
def kMicroSecond : ℤ := 1000000

/-- The text that `formatTime` prints for a second. -/
def dateTime (tm : Tm) : List Byte :=
  printInt false 4 (tm.tmYear + 1900) ++ (printInt true 2 (tm.tmMon + 1) ++
    (printInt true 2 tm.tmMday ++ (ascii ' ' :: (printInt true 2 tm.tmHour ++
      (ascii ':' :: (printInt true 2 tm.tmMin ++ (ascii ':' :: printInt true 2 tm.tmSec)))))))

/-- `assert`: the process aborts if the condition is false. -/
def assert (condition : Prop) [Decidable condition] : Option Unit :=
  if condition then some () else none

theorem assert_bind_eq_some_iff {α : Type} {condition : Prop} [Decidable condition]
    {f : Unit → Option α} {x : α} :
    (assert condition >>= f) = some x ↔ condition ∧ f () = some x := by
  unfold assert
  split_ifs with hcondition
  · exact (and_iff_right hcondition).symm
  · exact iff_of_false (by simp) fun h ↦ hcondition h.1

/-- The text for the part of the second. -/
def fraction (logZone : LogZone) (microseconds : ℤ) : List Byte :=
  if logZone.zone.valid then ascii '.' :: printInt true 6 microseconds ++ text " "
  else ascii '.' :: printInt true 6 microseconds ++ text "Z "

/-- The length that this text is asserted to have. -/
def fractionLength (logZone : LogZone) : ℕ := if logZone.zone.valid then 8 else 9

/-- `Fmt`: what is printed has to fit into `buf_`. -/
def fmt (formatted : List Byte) : Option (List Byte) := do
  assert (formatted.length < 32)
  return formatted

/-- `helper`, as it goes into the stream. -/
def helper (str : List Byte) (len : ℕ) : Option Streamed := do
  assert ((cString str).length = len)
  return .characters (str.take len)

/-- `g_logTimeZone`, `t_lastSecond` and `t_time`. -/
structure LogClock where
  zone : LogZone
  lastSecond : ℤ
  time : List Byte

namespace LogClock

variable (gmtime : ℤ → Tm)

/-- The start of a thread. -/
def new : LogClock where
  zone := .new
  lastSecond := 0
  time := List.replicate 64 0

/-- `setTimeZone` -/
def setTimeZone (logZone : LogZone) (c : LogClock) : LogClock := { c with zone := logZone }

/-- `t_time` and `t_lastSecond` are set if the second is another one. -/
def refresh (seconds : ℤ) (c : LogClock) : Option LogClock :=
  if seconds ≠ c.lastSecond then do
    let formatted := dateTime (c.zone.clock gmtime seconds)
    assert (formatted.length = 17)
    return { c with lastSecond := seconds, time := snprintf c.time formatted }
  else some c

/-- `formatTime`, with the texts that it puts into the stream; `none` if the process aborts. -/
def formatTime (microSecondsSinceEpoch : ℤ) (c : LogClock) :
    Option (List Streamed × LogClock) := do
  let c ← c.refresh gmtime (microSecondsSinceEpoch.tdiv kMicroSecond)
  let us ← fmt (fraction c.zone (microSecondsSinceEpoch.tmod kMicroSecond))
  assert (us.length = fractionLength c.zone)
  let date ← helper c.time 17
  let part ← helper us (fractionLength c.zone)
  return ([date, part], c)

/-- The same without `t_time`. -/
def uncached (logZone : LogZone) (microSecondsSinceEpoch : ℤ) : List Streamed :=
  [.characters (dateTime (logZone.clock gmtime (microSecondsSinceEpoch.tdiv kMicroSecond))),
    .characters (fraction logZone (microSecondsSinceEpoch.tmod kMicroSecond))]

/-- What happens to the clock of a thread. -/
inductive Event where
  | setTimeZone (logZone : LogZone)
  | formatTime (microSecondsSinceEpoch : ℤ)

/-- The texts of every call in order, unless the process aborts in one of them. -/
def appended : List Event → LogClock → Option (List (List Streamed))
  | [], _ => some []
  | .setTimeZone logZone :: events, c => appended events (c.setTimeZone logZone)
  | .formatTime microSecondsSinceEpoch :: events, c => do
    let (texts, c) ← c.formatTime gmtime microSecondsSinceEpoch
    return texts :: (← appended events c)

/-- The calls in order, each with the zone that is set. -/
def calls : List Event → LogZone → List (LogZone × ℤ)
  | [], _ => []
  | .setTimeZone logZone :: events, _ => calls events logZone
  | .formatTime microSecondsSinceEpoch :: events, logZone =>
    (logZone, microSecondsSinceEpoch) :: calls events logZone

end LogClock

/-! ## The text of a second -/

/-- Two broken-down times with the same date and time. -/
structure SameClock (tm tm' : Tm) : Prop where
  year : tm.tmYear = tm'.tmYear
  mon : tm.tmMon = tm'.tmMon
  mday : tm.tmMday = tm'.tmMday
  hour : tm.tmHour = tm'.tmHour
  min : tm.tmMin = tm'.tmMin
  sec : tm.tmSec = tm'.tmSec

/-- The fields of a broken-down time are in their ranges. -/
structure InRanges (tm : Tm) : Prop where
  mon : 0 ≤ tm.tmMon ∧ tm.tmMon ≤ 11
  mday : 1 ≤ tm.tmMday ∧ tm.tmMday ≤ 31
  hour : 0 ≤ tm.tmHour ∧ tm.tmHour ≤ 23
  min : 0 ≤ tm.tmMin ∧ tm.tmMin ≤ 59
  sec : 0 ≤ tm.tmSec ∧ tm.tmSec ≤ 60

/-- What `gmtime_r` is relied on for: the fields are in their ranges, and no two times have the same
date and time. -/
structure BreaksDown (gmtime : ℤ → Tm) : Prop where
  inRanges : ∀ seconds, InRanges (gmtime seconds)
  injective : ∀ seconds other, SameClock (gmtime seconds) (gmtime other) → seconds = other

/-- A year of four digits. -/
def FourDigits (tm : Tm) : Prop := 1000 ≤ tm.tmYear + 1900 ∧ tm.tmYear + 1900 ≤ 9999

namespace SameClock

variable {tm tm' tm'' : Tm}

theorem symm (hsame : SameClock tm tm') : SameClock tm' tm :=
  ⟨hsame.year.symm, hsame.mon.symm, hsame.mday.symm, hsame.hour.symm, hsame.min.symm,
    hsame.sec.symm⟩

theorem trans (hsame : SameClock tm tm') (hsame' : SameClock tm' tm'') : SameClock tm tm'' :=
  ⟨hsame.year.trans hsame'.year, hsame.mon.trans hsame'.mon, hsame.mday.trans hsame'.mday,
    hsame.hour.trans hsame'.hour, hsame.min.trans hsame'.min, hsame.sec.trans hsame'.sec⟩

theorem inRanges (hsame : SameClock tm tm') (hranges : InRanges tm') :
    InRanges tm := by
  obtain ⟨hmon, hmday, hhour, hmin, hsec⟩ := hranges
  rw [← hsame.mon] at hmon
  rw [← hsame.mday] at hmday
  rw [← hsame.hour] at hhour
  rw [← hsame.min] at hmin
  rw [← hsame.sec] at hsec
  exact ⟨hmon, hmday, hhour, hmin, hsec⟩

end SameClock

instance (tm : Tm) : Decidable (FourDigits tm) := inferInstanceAs (Decidable (_ ∧ _))

theorem length_two {n : ℤ} (hn : 0 ≤ n) (hsmall : n ≤ 99) : (printInt true 2 n).length = 2 :=
  length_printInt_zeros hn (by decide) (by omega)

/-- The text has 17 characters. -/
theorem length_dateTime {tm : Tm} (hranges : InRanges tm) (hyear : FourDigits tm) :
    (dateTime tm).length = 17 := by
  obtain ⟨hmon, hmday, hhour, hmin, hsec⟩ := hranges
  obtain ⟨hprint, hlength⟩ := printInt_year hyear.1 hyear.2
  simp only [dateTime, List.length_append, List.length_cons, hprint, hlength]
  rw [length_two (by omega) (by omega), length_two (by omega) (by omega),
    length_two (by omega) (by omega), length_two (by omega) (by omega),
    length_two (by omega) (by omega)]

/-- The text tells the date and the time. -/
theorem dateTime_eq_iff {tm tm' : Tm} (hranges : InRanges tm) (hyear : FourDigits tm)
    (hranges' : InRanges tm') (hyear' : FourDigits tm') :
    dateTime tm = dateTime tm' ↔ SameClock tm tm' := by
  obtain ⟨hmon, hmday, hhour, hmin, hsec⟩ := hranges
  obtain ⟨hmon', hmday', hhour', hmin', hsec'⟩ := hranges'
  constructor
  · intro heq
    obtain ⟨hprint, hlength⟩ := printInt_year hyear.1 hyear.2
    obtain ⟨hprint', hlength'⟩ := printInt_year hyear'.1 hyear'.2
    unfold dateTime at heq
    have hlengths {n n' : ℤ} (hn : 0 ≤ n ∧ n ≤ 99) (hn' : 0 ≤ n' ∧ n' ≤ 99) :
        (printInt true 2 n).length = (printInt true 2 n').length :=
      (length_two hn.1 hn.2).trans (length_two hn'.1 hn'.2).symm
    obtain ⟨h1, heq⟩ := List.append_inj heq (by rw [hprint, hprint', hlength, hlength'])
    obtain ⟨h2, heq⟩ := List.append_inj heq (hlengths (by omega) (by omega))
    obtain ⟨h3, heq⟩ := List.append_inj heq (hlengths (by omega) (by omega))
    obtain ⟨h4, heq⟩ := List.append_inj (List.cons.inj heq).2 (hlengths (by omega) (by omega))
    obtain ⟨h5, heq⟩ := List.append_inj (List.cons.inj heq).2 (hlengths (by omega) (by omega))
    have h6 := (List.cons.inj heq).2
    have hyears : (tm.tmYear + 1900).natAbs = (tm'.tmYear + 1900).natAbs := by
      rw [← readDigits_decimals (tm.tmYear + 1900).natAbs, ← hprint, h1, hprint',
        readDigits_decimals]
    have hmons := printInt_zeros_inj (by omega) (by omega) h2
    have hyearLower := hyear.1
    have hyearLower' := hyear'.1
    exact {
      year := by omega
      mon := by omega
      mday := printInt_zeros_inj (by omega) (by omega) h3
      hour := printInt_zeros_inj hhour.1 hhour'.1 h4
      min := printInt_zeros_inj hmin.1 hmin'.1 h5
      sec := printInt_zeros_inj hsec.1 hsec'.1 h6 }
  · rintro ⟨h1, h2, h3, h4, h5, h6⟩
    unfold dateTime
    rw [h1, h2, h3, h4, h5, h6]

/-- What a zone shows is what `gmtime_r` gives for the time with the offset. -/
theorem LogZone.sameClock_clock (gmtime : ℤ → Tm) (logZone : LogZone) (seconds : ℤ) :
    SameClock (logZone.clock gmtime seconds) (gmtime (seconds + logZone.offset seconds)) := by
  unfold clock
  split_ifs with hvalid
  · have htm := Option.some_get (toLocalTime_isSome gmtime hvalid seconds)
    generalize (logZone.zone.toLocalTime gmtime seconds).get
      (toLocalTime_isSome gmtime hvalid seconds) = tm at htm ⊢
    simp only [TimeZone.toLocalTime, Option.bind_eq_bind] at htm
    obtain ⟨data, hdata, hfound⟩ := Option.bind_eq_some_iff.1 htm.symm
    obtain ⟨found, hforce, hname⟩ := Option.bind_eq_some_iff.1 hfound
    obtain ⟨zoneName, -, hpure⟩ := Option.bind_eq_some_iff.1 hname
    have hoffset : logZone.offset seconds = found.gmtOffset := by
      rw [offset, hdata, Option.bind_some, hforce]
    rw [hoffset, ← Option.some.inj hpure]
    exact ⟨rfl, rfl, rfl, rfl, rfl, rfl⟩
  · have hdata : logZone.zone.data = none := by simpa [TimeZone.valid] using hvalid
    have hoffset : logZone.offset seconds = 0 := by rw [offset, hdata, Option.bind_none]
    rw [hoffset, add_zero]
    exact ⟨rfl, rfl, rfl, rfl, rfl, rfl⟩

/-- With a `gmtime_r` that breaks times down, two zones show a second alike exactly if they have the
same offset there. -/
theorem sameClock_iff {gmtime : ℤ → Tm} (hgmtime : BreaksDown gmtime) (zone zone' : LogZone)
    (seconds : ℤ) :
    SameClock (zone.clock gmtime seconds) (zone'.clock gmtime seconds) ↔
      zone.offset seconds = zone'.offset seconds := by
  have hzone := zone.sameClock_clock gmtime seconds
  have hzone' := zone'.sameClock_clock gmtime seconds
  constructor
  · intro hsame
    have hlocal := hgmtime.injective _ _ ((hzone.symm.trans hsame).trans hzone')
    omega
  · intro hoffset
    rw [hoffset] at hzone
    exact hzone.trans hzone'.symm

namespace LogClock

variable {gmtime : ℤ → Tm}

/-- The second of a call. -/
def second (call : LogZone × ℤ) : ℤ := call.2.tdiv kMicroSecond

/-- The text of a call without `t_time`. -/
def shown (gmtime : ℤ → Tm) (logZone : LogZone) (seconds : ℤ) : List Byte :=
  dateTime (logZone.clock gmtime seconds)

/-- The cache as a memo of the text. -/
def memo (c : LogClock) : Memo ℤ (List Byte) := ⟨c.lastSecond, cString c.time⟩

theorem zero_notMem_dateTime (tm : Tm) : 0 ∉ dateTime tm := by
  have hblank : 0 ≠ ascii ' ' := by decide
  have hcolon : 0 ≠ ascii ':' := by decide
  simp [dateTime, zero_notMem_printInt, hblank, hcolon]

theorem cString_snprintf {buffer formatted : List Byte} (hbuffer : buffer.length = 64)
    (hlength : formatted.length = 17) (hzero : 0 ∉ formatted) :
    cString (snprintf buffer formatted) = formatted := by
  have hkept : formatted.take (buffer.length - 1) = formatted :=
    List.take_of_length_le (by omega)
  rw [snprintf, hkept, cString_append_zero, cString_eq_self hzero]

theorem length_snprintf {buffer : List Byte} (hbuffer : buffer.length = 64)
    (formatted : List Byte) : (snprintf buffer formatted).length = 64 := by
  simp only [snprintf, List.length_append, List.length_cons, List.length_drop, List.length_take]
  omega

/-- A call does to the cache what the memo does. -/
theorem refresh_spec {c : LogClock} {seconds : ℤ} (hbuffer : c.time.length = 64)
    (hlength : (shown gmtime c.zone seconds).length = 17) :
    ∃ c', c.refresh gmtime seconds = some c' ∧ c'.zone = c.zone ∧ c'.time.length = 64 ∧
      c'.memo = Memo.fetch (shown gmtime) c.zone seconds c.memo := by
  unfold refresh Memo.fetch
  by_cases hsecond : seconds ≠ c.lastSecond
  · have hmemo : seconds ≠ c.memo.key := hsecond
    have htext := cString_snprintf hbuffer hlength (zero_notMem_dateTime _)
    rw [if_pos hsecond, if_pos hmemo]
    exact ⟨_, assert_bind_eq_some_iff.2 ⟨hlength, rfl⟩, rfl, length_snprintf hbuffer _,
      congrArg (Memo.mk seconds) htext⟩
  · have hmemo : ¬ seconds ≠ c.memo.key := hsecond
    rw [if_neg hsecond, if_neg hmemo]
    exact ⟨c, rfl, rfl, hbuffer, rfl⟩

/-! ## The assertions -/

/-- The part of the second takes six places, with the sign that it has before 1970. -/
def Fits (microSecondsSinceEpoch : ℤ) : Prop :=
  -100000 < microSecondsSinceEpoch.tmod kMicroSecond

instance (microSecondsSinceEpoch : ℤ) : Decidable (Fits microSecondsSinceEpoch) :=
  inferInstanceAs (Decidable (_ < _))

theorem length_printInt_six {n : ℤ} (hlower : -1000000 < n) (hupper : n < 1000000) :
    (printInt true 6 n).length ≤ 7 ∧ ((printInt true 6 n).length = 6 ↔ -100000 < n) := by
  by_cases hneg : n < 0
  · have hdigits : (decimals n.natAbs).length ≤ 6 :=
      (length_decimals_le_iff (by decide)).2 (by omega)
    constructor
    · rw [printInt, if_pos rfl, if_pos hneg, List.length_append, List.length_append,
        List.length_replicate, List.length_singleton]
      omega
    · apply (length_printInt_neg_iff hneg (by decide)).trans
      omega
  · have hsix := @length_printInt_zeros 6 n (by omega) (by decide) (by omega)
    omega

/-- The text for the part of the second has the length that it is asserted to have exactly if there
are six places for the part. -/
theorem length_fraction (logZone : LogZone) (m : ℤ) :
    (fraction logZone (m.tmod kMicroSecond)).length < 32 ∧
      ((fraction logZone (m.tmod kMicroSecond)).length = fractionLength logZone ↔ Fits m) := by
  have hpart : -1000000 < m.tmod kMicroSecond ∧ m.tmod kMicroSecond < 1000000 := by
    have hsmall : (m.tmod kMicroSecond).natAbs < 1000000 := by
      rw [Int.natAbs_tmod]
      exact Nat.mod_lt _ (by decide)
    omega
  obtain ⟨hseven, hsix⟩ := length_printInt_six hpart.1 hpart.2
  have hblank : (text " ").length = 1 := rfl
  have hzone : (text "Z ").length = 2 := rfl
  unfold Fits
  rw [← hsix, fraction, fractionLength]
  split_ifs
  · rw [List.length_append, List.length_cons, hblank]
    omega
  · rw [List.length_append, List.length_cons, hzone]
    omega

theorem zero_notMem_fraction (logZone : LogZone) (microseconds : ℤ) :
    0 ∉ fraction logZone microseconds := by
  have hdot : 0 ≠ ascii '.' := by decide
  have hblank : 0 ∉ text " " := by decide
  have hzone : 0 ∉ text "Z " := by decide
  unfold fraction
  split_ifs <;> simp [zero_notMem_printInt, hdot, hblank, hzone]

/-- A text goes into the stream as a whole, if it has no NUL before its end. -/
theorem helper_eq_some_iff {str : List Byte} {len : ℕ} {streamed : Streamed} :
    helper str len = some streamed ↔
      (cString str).length = len ∧ .characters (cString str) = streamed := by
  apply assert_bind_eq_some_iff.trans
  apply and_congr_right
  intro hlen
  have htake : str.take len = cString str := by
    rw [← hlen]
    exact (List.prefix_iff_eq_take.1 (List.takeWhile_prefix _)).symm
  rw [htake]
  exact Option.some_inj

/-- A call gets through its assertions and appends what it would without `t_time` exactly if the
memo gives the right text and there are six places for the part of the second. -/
theorem formatTime_eq_some_iff {c c' c'' : LogClock} {m : ℤ}
    (hrefresh : c.refresh gmtime (m.tdiv kMicroSecond) = some c') (hzone : c'.zone = c.zone)
    (hlength : (shown gmtime c.zone (m.tdiv kMicroSecond)).length = 17) :
    c.formatTime gmtime m = some (uncached gmtime c.zone m, c'') ↔
      (c'.memo.result = shown gmtime c.zone (m.tdiv kMicroSecond) ∧ Fits m) ∧ c' = c'' := by
  obtain ⟨hshort, hfits⟩ := length_fraction c.zone m
  have hfraction := cString_eq_self (zero_notMem_fraction c.zone (m.tmod kMicroSecond))
  have hresult : cString c'.time = c'.memo.result := rfl
  have hfmt : fmt (fraction c.zone (m.tmod kMicroSecond)) =
      some (fraction c.zone (m.tmod kMicroSecond)) := assert_bind_eq_some_iff.2 ⟨hshort, rfl⟩
  unfold formatTime uncached
  rw [hrefresh, Option.bind_eq_bind, Option.bind_some, hzone, hfmt, Option.bind_eq_bind,
    Option.bind_some, assert_bind_eq_some_iff, hfits]
  constructor
  · rintro ⟨hfit, hrun⟩
    obtain ⟨date, hdate, hrun⟩ := Option.bind_eq_some_iff.1 hrun
    obtain ⟨part, -, hrun⟩ := Option.bind_eq_some_iff.1 hrun
    obtain ⟨-, rfl⟩ := helper_eq_some_iff.1 hdate
    obtain ⟨htexts, rfl⟩ := Prod.ext_iff.1 (Option.some.inj hrun)
    exact ⟨⟨Streamed.characters.inj (List.cons.inj htexts).1, hfit⟩, rfl⟩
  · rintro ⟨⟨hresult, hfit⟩, rfl⟩
    have hdate : cString c'.time = shown gmtime c.zone (m.tdiv kMicroSecond) := hresult
    have hpart : (cString (fraction c.zone (m.tmod kMicroSecond))).length =
        fractionLength c.zone := by
      rw [hfraction]
      exact hfits.2 hfit
    have hhelper := helper_eq_some_iff.2 ⟨(congrArg List.length hdate).trans hlength, rfl⟩
    have hhelper' := helper_eq_some_iff.2 ⟨hpart, rfl⟩
    refine ⟨hfit, Option.bind_eq_some_iff.2 ⟨_, hhelper, Option.bind_eq_some_iff.2
      ⟨_, hhelper', ?_⟩⟩⟩
    rw [hdate, hfraction]
    rfl

/-- The calls append what they would append without `t_time` exactly if the memo gives the right
texts and there are six places for each part of a second. -/
theorem appended_eq_iff {events : List Event} {c : LogClock} (hbuffer : c.time.length = 64)
    (hlength : ∀ call ∈ calls events c.zone, (shown gmtime call.1 (second call)).length = 17) :
    appended gmtime events c =
        some ((calls events c.zone).map fun call ↦ uncached gmtime call.1 call.2) ↔
      Memo.results (shown gmtime) c.memo
          ((calls events c.zone).map fun call ↦ (call.1, second call)) =
        ((calls events c.zone).map fun call ↦ (call.1, second call)).map
          (fun call ↦ shown gmtime call.1 call.2) ∧
      ∀ call ∈ calls events c.zone, Fits call.2 := by
  induction events generalizing c with
  | nil => simp [appended, calls, Memo.results]
  | cons event events ih =>
    cases event with
    | setTimeZone logZone => exact ih (c := c.setTimeZone logZone) hbuffer hlength
    | formatTime m =>
      obtain ⟨hfirst, hothers⟩ := List.forall_mem_cons.1 hlength
      obtain ⟨c', hrefresh, hzone, hbuffer', hmemo⟩ := refresh_spec hbuffer hfirst
      have hih := ih (c := c') hbuffer' (by rwa [hzone])
      rw [hzone, hmemo] at hih
      have hrun : appended gmtime (.formatTime m :: events) c =
          some (uncached gmtime c.zone m ::
            (calls events c.zone).map fun call ↦ uncached gmtime call.1 call.2) ↔
          (c'.memo.result = shown gmtime c.zone (m.tdiv kMicroSecond) ∧ Fits m) ∧
            appended gmtime events c' =
              some ((calls events c.zone).map fun call ↦ uncached gmtime call.1 call.2) := by
        rw [appended]
        constructor
        · intro hrun
          obtain ⟨⟨texts, c''⟩, hcall, hrun⟩ := Option.bind_eq_some_iff.1 hrun
          obtain ⟨rest, hrest, hrun⟩ := Option.bind_eq_some_iff.1 hrun
          obtain ⟨rfl, rfl⟩ := List.cons.inj (Option.some.inj hrun)
          obtain ⟨hright, rfl⟩ := (formatTime_eq_some_iff hrefresh hzone hfirst).1 hcall
          exact ⟨hright, hrest⟩
        · rintro ⟨hright, hrest⟩
          have hcall := (formatTime_eq_some_iff hrefresh hzone hfirst).2 ⟨hright, rfl⟩
          exact Option.bind_eq_some_iff.2 ⟨_, hcall, Option.bind_eq_some_iff.2 ⟨_, hrest, rfl⟩⟩
      rw [calls, List.map_cons, List.map_cons, List.map_cons, List.forall_mem_cons, Memo.results,
        List.cons.injEq]
      apply hrun.trans
      rw [hih, hmemo]
      exact and_and_and_comm

/-! ## Calls that print what they would print alone -/

/-- The first call is not in the second 0, two calls after each other in the same second are under
zones with the same offset there, and every call before 1970 is less than a tenth of a second before
a full second. -/
structure Unaffected (calls : List (LogZone × ℤ)) : Prop where
  first : ∀ call, calls.head? = some call → second call ≠ 0
  others : calls.IsChain fun earlier later ↦ second later = second earlier →
    earlier.1.offset (second earlier) = later.1.offset (second earlier)
  fits : ∀ call ∈ calls, Fits call.2

/-- An empty `t_time` is the text of no second. -/
theorem ne_dateTime {tm : Tm} : new.memo.result ≠ dateTime tm := by
  have hempty : new.memo.result = [] := by decide
  have hdate : ascii ' ' ∈ dateTime tm := by simp [dateTime]
  rw [hempty]
  exact (List.ne_nil_of_mem hdate).symm

/-- A thread prints in every call what it would print without `t_time` exactly if its calls are
unaffected. -/
theorem appended_eq_uncached_iff (hgmtime : BreaksDown gmtime) {events : List Event}
    (hyears : ∀ call ∈ calls events .new, FourDigits (call.1.clock gmtime (second call))) :
    appended gmtime events new =
        some ((calls events .new).map fun call ↦ uncached gmtime call.1 call.2) ↔
      Unaffected (calls events .new) := by
  have hranges (logZone : LogZone) (seconds : ℤ) : InRanges (logZone.clock gmtime seconds) :=
    (logZone.sameClock_clock gmtime seconds).inRanges (hgmtime.inRanges _)
  have hlength : ∀ call ∈ calls events new.zone,
      (shown gmtime call.1 (second call)).length = 17 := by
    intro call hmem
    exact length_dateTime (hranges _ _) (hyears call hmem)
  have hshown : ∀ earlier ∈ calls events .new, ∀ later ∈ calls events .new,
      second later = second earlier →
        (shown gmtime earlier.1 (second earlier) = shown gmtime later.1 (second later) ↔
          earlier.1.offset (second earlier) = later.1.offset (second earlier)) := by
    intro earlier hearlier later hlater hsecond
    have hyear := hyears later hlater
    rw [hsecond] at hyear
    rw [hsecond, ← sameClock_iff hgmtime]
    exact dateTime_eq_iff (hranges _ _) (hyears earlier hearlier) (hranges _ _) hyear
  have hmemo := @appended_eq_iff gmtime events new rfl hlength
  rw [Memo.results_eq_iff, Memo.Steady, List.isChain_map] at hmemo
  apply hmemo.trans
  constructor
  · rintro ⟨⟨hfirst, hothers⟩, hfits⟩
    constructor
    · intro call hcall hzero
      have hempty := hfirst (call.1, second call) (by rw [List.head?_map]; simp [new, hcall]) hzero
      exact ne_dateTime hempty
    · apply hothers.imp_of_mem_imp
      intro earlier later hearlier hlater hsame hsecond
      exact (hshown _ hearlier _ hlater hsecond).1 (hsame hsecond)
    · exact hfits
  · intro hunaffected
    refine ⟨⟨?_, ?_⟩, hunaffected.fits⟩
    · intro call hcall hzero
      rw [List.head?_map, Option.map_eq_some_iff] at hcall
      obtain ⟨first, hhead, rfl⟩ := hcall
      exact absurd hzero (hunaffected.first first hhead)
    · apply hunaffected.others.imp_of_mem_imp
      intro earlier later hearlier hlater hsame hsecond
      exact (hshown _ hearlier _ hlater hsecond).2 (hsame hsecond)

/-- A zone one hour east of UTC. -/
def hourEast : LogZone where
  zone := ⟨some ⟨[], [⟨3600, false, 0⟩], text "CET" ++ [0]⟩⟩
  husable := by
    intro data hdata
    obtain rfl := Option.some.inj hdata
    exact {
      localtimes := by decide
      localtimeIdx := by decide
      arrbIdx := by decide }

end LogClock

theorem breaksDown_civilTime : BreaksDown TimeZone.civilTime where
  inRanges := by
    intro seconds
    have hmonth := (Calendar.Day.ofNumber (seconds / 86400 + 719163)).hmonth
    have hday := (Calendar.Day.ofNumber (seconds / 86400 + 719163)).hday
    constructor <;> simp only [TimeZone.civilTime]
    · omega
    · exact ⟨hday.1, hday.2.trans (Calendar.monthLength_le _ _)⟩
    · omega
    · omega
    · omega
  injective := by
    intro seconds other hsame
    have hseconds := TimeZone.inverse_civilTime seconds 0 0 []
    have hother := TimeZone.inverse_civilTime other 0 0 []
    rw [← hseconds, ← hother]
    simp only [TimeZone.secondsOf, hsame.year, hsame.mon, hsame.mday, hsame.hour, hsame.min,
      hsame.sec]

namespace LogClock

/-- With another zone set within a second, the thread goes on to print the time of the old one. -/
theorem appended_setTimeZone_false :
    ¬ ∀ (gmtime : ℤ → Tm) (events : List Event), BreaksDown gmtime →
      (∀ call ∈ calls events .new, FourDigits (call.1.clock gmtime (second call))) →
      appended gmtime events new =
        some ((calls events .new).map fun call ↦ uncached gmtime call.1 call.2) := by
  intro hall
  have heq := hall TimeZone.civilTime [.formatTime 1700000000000000, .setTimeZone hourEast,
    .formatTime 1700000000500000] breaksDown_civilTime (by decide +kernel)
  have htexts := congrArg (Option.map (List.map LogStream.shownAll)) heq
  revert htexts
  decide +kernel

/-- Set after the second, it is used from the next one on. The last call is 50 milliseconds before a
second of 1969. -/
theorem appended_hourEast :
    appended TimeZone.civilTime [.formatTime 1700000000000000, .formatTime 1700000000500000,
        .setTimeZone hourEast, .formatTime 1700000001000000, .formatTime (-1050000)] new =
      some ((calls [.formatTime 1700000000000000, .formatTime 1700000000500000,
        .setTimeZone hourEast, .formatTime 1700000001000000, .formatTime (-1050000)] .new).map
          fun call ↦ uncached TimeZone.civilTime call.1 call.2) := by
  apply (appended_eq_uncached_iff breaksDown_civilTime (by decide +kernel)).2
  constructor
  · decide
  · decide
  · decide

end LogClock

end LWebServer
