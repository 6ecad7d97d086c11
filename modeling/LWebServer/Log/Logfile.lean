import LWebServer.Library.Schedule
import LWebServer.Log.Timestamps

/-!
# Rolled log files

`logfile` counts the bytes that it has given to the current file and goes on with another file when
there are too many. The name of a file is the second in which it is opened, and a file that exists
is opened at its end.
-/

namespace LWebServer

/-- What `strftime` prints for "%m%d-%H%M%S.". -/
def withinYear (tm : Tm) : List Byte :=
  printInt true 2 (tm.tmMon + 1) ++ (printInt true 2 tm.tmMday ++ (ascii '-' ::
    (printInt true 2 tm.tmHour ++ (printInt true 2 tm.tmMin ++ (printInt true 2 tm.tmSec ++
      [ascii '.'])))))

/-- What `strftime` prints for ".%Y%m%d-%H%M%S.". -/
def timeSuffix (tm : Tm) : List Byte :=
  ascii '.' :: (printInt false 0 (tm.tmYear + 1900) ++ withinYear tm)

/-- `ws::detail::FileAppend` -/
structure FileAppend where
  filename : List Byte
  writtenBytes : ℤ

namespace FileAppend

/-- The constructor of `FileAppend`. -/
def new (filename : List Byte) : FileAppend := ⟨filename, 0⟩

/-- `FileAppend::append`, if `Write` accepts the whole line. -/
def append (logline : List Byte) (file : FileAppend) : FileAppend :=
  { file with writtenBytes := file.writtenBytes + logline.length }

end FileAppend

/-- `ws::detail::logfile` -/
structure Logfile where
  basename : List Byte
  rollSize : ℤ
  flushInterval : ℤ
  checkEveryN : ℤ
  count : ℤ
  startOfPeriod : ℤ
  lastRoll : ℤ
  lastFlush : ℤ
  file : FileAppend

namespace Logfile

variable (gmtime : ℤ → Tm)

/-- `Daypreseconds` -/
def dayPreSeconds : ℤ := 60 * 60 * 24

/-- `getlogfileName` -/
def getlogfileName (basename : List Byte) (now : ℤ) : List Byte :=
  basename ++ timeSuffix (gmtime now) ++ text "Yuanmxc" ++ text ".log"

/-- `rollFile` at the time `now`. -/
def rollFile (now : ℤ) (log : Logfile) : Logfile :=
  { log with
    lastRoll := now
    lastFlush := now
    startOfPeriod := now - now.tmod dayPreSeconds
    file := .new (getlogfileName gmtime log.basename now) }

/-- The constructor of `logfile`. -/
def new (basename : List Byte) (rollSize flushInterval checkEveryN now : ℤ) : Logfile :=
  rollFile gmtime now
    { basename := basename
      rollSize := rollSize
      flushInterval := flushInterval
      checkEveryN := checkEveryN
      count := 0
      startOfPeriod := 0
      lastRoll := 0
      lastFlush := 0
      file := .new [] }

/-- `append_unlocked`; the clock shows `now` when it is read first and `later` when it is read once
more to name a file. -/
def appendUnlocked (logline : List Byte) (now later : ℤ) (log : Logfile) : Logfile :=
  let log := { log with file := log.file.append logline }
  if log.file.writtenBytes > log.rollSize then log.rollFile gmtime now
  else
    let log := { log with count := log.count + 1 }
    if log.count ≥ log.checkEveryN then
      let log := { log with count := 0 }
      let thisPeriod := now - now.tmod dayPreSeconds
      if thisPeriod ≠ log.startOfPeriod then log.rollFile gmtime later
      else if now - log.lastFlush > log.flushInterval then { log with lastFlush := now }
      else log
    else log

end Logfile

/-- A call of `logfile::append` with the times that the clock shows. -/
structure LogCall where
  logline : List Byte
  now : ℤ
  later : ℤ

/-- A `logfile` with what its files hold, by their names, the names of the files that have become
too long with the length of the line that did it, and the last time that the clock has shown. -/
structure LogDirectory where
  log : Logfile
  disk : List Byte → List Byte
  rolled : List (List Byte × ℕ)
  clock : ℤ

namespace LogDirectory

variable (gmtime : ℤ → Tm)

/-- A new `logfile`, where there are no files. -/
def new (basename : List Byte) (rollSize flushInterval checkEveryN now : ℤ) : LogDirectory where
  log := .new gmtime basename rollSize flushInterval checkEveryN now
  disk := fun _ ↦ []
  rolled := []
  clock := now

/-- A line of this length takes the counter over the limit. -/
def Oversize (logline : List Byte) (s : LogDirectory) : Prop :=
  s.log.file.writtenBytes + logline.length > s.log.rollSize

instance (logline : List Byte) (s : LogDirectory) : Decidable (s.Oversize logline) :=
  inferInstanceAs (Decidable (_ > _))

/-- The line goes to the current file, and the `logfile` becomes `log`. -/
def written (logline : List Byte) (log : Logfile) (clock : ℤ) (s : LogDirectory) :
    LogDirectory where
  log := log
  disk := Function.update s.disk s.log.file.filename (s.disk s.log.file.filename ++ logline)
  rolled := if s.Oversize logline then (s.log.file.filename, logline.length) :: s.rolled
    else s.rolled
  clock := clock

/-- A call. The clock does not go back. -/
def step (call : LogCall) (s : LogDirectory) : Option LogDirectory :=
  if s.clock ≤ call.now ∧ call.now ≤ call.later then
    some (s.written call.logline (s.log.appendUnlocked gmtime call.logline call.now call.later)
      call.later)
  else none

/-- A file holds no more than the limit and the line that has made it too long. -/
def Bounded (s : LogDirectory) : Prop :=
  ∀ filename, (s.disk filename).length ≤ s.log.rollSize ∨
    ∃ triggered, (filename, triggered) ∈ s.rolled ∧
      (s.disk filename).length ≤ s.log.rollSize + triggered

/-- No file has become too long twice. -/
def RolledOnce (s : LogDirectory) : Prop := (s.rolled.map Prod.fst).Nodup

/-- A line that makes the file too long does not come in the second in which the file was opened. -/
def Separated (call : LogCall) (s : LogDirectory) : Prop :=
  s.Oversize call.logline → call.now ≠ s.log.lastRoll

end LogDirectory

/-! ## Names -/

theorem length_withinYear {tm : Tm} (hranges : InRanges tm) : (withinYear tm).length = 12 := by
  obtain ⟨hmon, hmday, hhour, hmin, hsec⟩ := hranges
  simp only [withinYear, List.length_append, List.length_cons, List.length_nil]
  rw [length_two (by omega) (by omega), length_two (by omega) (by omega),
    length_two (by omega) (by omega), length_two (by omega) (by omega),
    length_two (by omega) (by omega)]

/-- The text in the name of a file tells the time. -/
theorem timeSuffix_inj {tm tm' : Tm} (hranges : InRanges tm) (hranges' : InRanges tm')
    (heq : timeSuffix tm = timeSuffix tm') : SameClock tm tm' := by
  obtain ⟨hyear, hwithin⟩ := List.append_inj' (List.cons.inj heq).2
    ((length_withinYear hranges).trans (length_withinYear hranges').symm)
  have hyears := printInt_plain_inj hyear
  obtain ⟨hmon, hmday, hhour, hmin, hsec⟩ := hranges
  obtain ⟨hmon', hmday', hhour', hmin', hsec'⟩ := hranges'
  have hlengths {n n' : ℤ} (hn : 0 ≤ n ∧ n ≤ 99) (hn' : 0 ≤ n' ∧ n' ≤ 99) :
      (printInt true 2 n).length = (printInt true 2 n').length :=
    (length_two hn.1 hn.2).trans (length_two hn'.1 hn'.2).symm
  unfold withinYear at hwithin
  obtain ⟨h1, hwithin⟩ := List.append_inj hwithin (hlengths (by omega) (by omega))
  obtain ⟨h2, hwithin⟩ := List.append_inj hwithin (hlengths (by omega) (by omega))
  have hclock := (List.cons.inj hwithin).2
  obtain ⟨h3, hclock⟩ := List.append_inj hclock (hlengths (by omega) (by omega))
  obtain ⟨h4, hclock⟩ := List.append_inj hclock (hlengths (by omega) (by omega))
  obtain ⟨h5, -⟩ := List.append_inj hclock (hlengths (by omega) (by omega))
  have hmons := printInt_zeros_inj (by omega) (by omega) h1
  exact {
    year := by omega
    mon := by omega
    mday := printInt_zeros_inj (by omega) (by omega) h2
    hour := printInt_zeros_inj hhour.1 hhour'.1 h3
    min := printInt_zeros_inj hmin.1 hmin'.1 h4
    sec := printInt_zeros_inj hsec.1 hsec'.1 h5 }

/-- Files of different seconds have different names. -/
theorem Logfile.getlogfileName_inj {gmtime : ℤ → Tm} (hgmtime : BreaksDown gmtime)
    (basename : List Byte) {now later : ℤ}
    (heq : getlogfileName gmtime basename now = getlogfileName gmtime basename later) :
    now = later := by
  apply hgmtime.injective
  apply timeSuffix_inj (hgmtime.inRanges now) (hgmtime.inRanges later)
  unfold getlogfileName at heq
  exact List.append_cancel_left (List.append_cancel_right (List.append_cancel_right heq))

/-! ## One call -/

/-- A call appends to the file; then the file is rolled because of its length, or because of the
day, or kept. -/
theorem Logfile.appendUnlocked_cases (gmtime : ℤ → Tm) (logline : List Byte) (now later : ℤ)
    (log : Logfile) :
    (log.rollSize < log.file.writtenBytes + logline.length ∧
      log.appendUnlocked gmtime logline now later =
        { log with file := log.file.append logline }.rollFile gmtime now) ∨
    (¬ log.rollSize < log.file.writtenBytes + logline.length ∧
      now - now.tmod dayPreSeconds ≠ log.startOfPeriod ∧
      log.appendUnlocked gmtime logline now later =
        { log with file := log.file.append logline, count := 0 }.rollFile gmtime later) ∨
    (¬ log.rollSize < log.file.writtenBytes + logline.length ∧
      ∃ count lastFlush, log.appendUnlocked gmtime logline now later =
        { log with
          file := log.file.append logline
          count := count
          lastFlush := lastFlush }) := by
  by_cases hsize : log.rollSize < log.file.writtenBytes + logline.length
  · exact .inl ⟨hsize, if_pos hsize⟩
  · have happend : log.appendUnlocked gmtime logline now later = _ := if_neg hsize
    rw [happend]
    dsimp only
    split_ifs with hcheck hperiod hflush
    · exact .inr (.inl ⟨hsize, hperiod, rfl⟩)
    · exact .inr (.inr ⟨hsize, _, _, rfl⟩)
    · exact .inr (.inr ⟨hsize, _, _, rfl⟩)
    · exact .inr (.inr ⟨hsize, _, _, rfl⟩)

namespace LogDirectory

variable {gmtime : ℤ → Tm} {s : LogDirectory}

/-- What holds in a run in which no file is opened twice: the current file is the newest one and
holds what has been counted. -/
structure Sound (gmtime : ℤ → Tm) (s : LogDirectory) : Prop where
  limit : 0 ≤ s.log.rollSize
  clock : s.log.lastRoll ≤ s.clock
  filename : s.log.file.filename = Logfile.getlogfileName gmtime s.log.basename s.log.lastRoll
  period : s.log.startOfPeriod = s.log.lastRoll - s.log.lastRoll.tmod Logfile.dayPreSeconds
  fresh : ∀ time, s.log.lastRoll < time →
    s.disk (Logfile.getlogfileName gmtime s.log.basename time) = []
  counted : (s.disk s.log.file.filename).length = s.log.file.writtenBytes
  within : s.log.file.writtenBytes ≤ s.log.rollSize
  past : ∀ r ∈ s.rolled, ∃ time, time < s.log.lastRoll ∧
    r.1 = Logfile.getlogfileName gmtime s.log.basename time
  once : s.RolledOnce
  bounded : s.Bounded

theorem sound_new {rollSize : ℤ} (hlimit : 0 ≤ rollSize) (basename : List Byte)
    (flushInterval checkEveryN now : ℤ) :
    Sound gmtime (new gmtime basename rollSize flushInterval checkEveryN now) where
  limit := hlimit
  clock := le_rfl
  filename := rfl
  period := rfl
  fresh := fun _ _ ↦ rfl
  counted := rfl
  within := hlimit
  past := fun _ hmem ↦ absurd hmem List.not_mem_nil
  once := List.nodup_nil
  bounded := fun _ ↦ .inl hlimit

variable {log : Logfile} {logline : List Byte} {clock : ℤ}

/-- A line leaves the files bounded. -/
theorem Sound.bounded_written (hsound : Sound gmtime s) (hlimit : log.rollSize = s.log.rollSize) :
    (s.written logline log clock).Bounded := by
  intro filename
  change ((Function.update s.disk s.log.file.filename _ filename).length : ℤ) ≤ log.rollSize ∨
    ∃ triggered, (filename, triggered) ∈ (s.written logline log clock).rolled ∧
      ((Function.update s.disk s.log.file.filename _ filename).length : ℤ) ≤
        log.rollSize + triggered
  rw [hlimit]
  by_cases hcurrent : filename = s.log.file.filename
  · have hcounted := hsound.counted
    have hwithin := hsound.within
    rw [hcurrent, Function.update_self, List.length_append, Nat.cast_add, hcounted]
    by_cases hover : s.Oversize logline
    · have hmem : (s.log.file.filename, logline.length) ∈ (s.written logline log clock).rolled := by
        rw [written, if_pos hover]
        exact List.mem_cons_self
      exact .inr ⟨logline.length, hmem, by omega⟩
    · exact .inl (not_lt.1 hover)
  · rw [Function.update_of_ne hcurrent]
    apply (hsound.bounded filename).imp_right
    intro ⟨triggered, hmem, hle⟩
    have hkept : (filename, triggered) ∈ (s.written logline log clock).rolled := by
      unfold written
      split_ifs
      · exact List.mem_cons_of_mem _ hmem
      · exact hmem
    exact ⟨triggered, hkept, hle⟩

/-- And no file too long for the second time. -/
theorem Sound.once_written (hsound : Sound gmtime s) (hgmtime : BreaksDown gmtime) :
    (s.written logline log clock).RolledOnce := by
  unfold RolledOnce written
  split_ifs
  · rw [List.map_cons, List.nodup_cons]
    refine ⟨?_, hsound.once⟩
    intro hmem
    obtain ⟨r, hr, hname⟩ := List.mem_map.1 hmem
    obtain ⟨time, hbefore, htime⟩ := hsound.past r hr
    rw [htime, hsound.filename] at hname
    exact absurd (Logfile.getlogfileName_inj hgmtime _ hname) hbefore.ne
  · exact hsound.once

/-- The current file can be the last one that has become too long. -/
theorem Sound.past_written (hsound : Sound gmtime s) :
    ∀ r ∈ (s.written logline log clock).rolled, ∃ time, time ≤ s.log.lastRoll ∧
      r.1 = Logfile.getlogfileName gmtime s.log.basename time := by
  intro r hmem
  unfold written at hmem
  split_ifs at hmem
  · rcases List.mem_cons.1 hmem with rfl | hmem
    · exact ⟨s.log.lastRoll, le_rfl, hsound.filename⟩
    · obtain ⟨time, hbefore, hname⟩ := hsound.past r hmem
      exact ⟨time, hbefore.le, hname⟩
  · obtain ⟨time, hbefore, hname⟩ := hsound.past r hmem
    exact ⟨time, hbefore.le, hname⟩

/-- Only the current file is written to. -/
theorem Sound.fresh_written (hsound : Sound gmtime s) (hgmtime : BreaksDown gmtime) {time : ℤ}
    (hafter : s.log.lastRoll < time) :
    (s.written logline log clock).disk
      (Logfile.getlogfileName gmtime s.log.basename time) = [] := by
  have hother : Logfile.getlogfileName gmtime s.log.basename time ≠ s.log.file.filename := by
    intro hname
    rw [hsound.filename] at hname
    exact absurd (Logfile.getlogfileName_inj hgmtime _ hname) hafter.ne'
  exact (Function.update_of_ne hother _ _).trans (hsound.fresh time hafter)

/-- Behind a roll in a later second everything holds of the new file. -/
theorem Sound.roll (hsound : Sound gmtime s) (hgmtime : BreaksDown gmtime)
    (hbasename : log.basename = s.log.basename) (hlimit : log.rollSize = s.log.rollSize) {time : ℤ}
    (hafter : s.log.lastRoll < time) (hclock : time ≤ clock) :
    Sound gmtime (s.written logline (log.rollFile gmtime time) clock) where
  limit := le_of_le_of_eq hsound.limit hlimit.symm
  clock := hclock
  filename := rfl
  period := rfl
  fresh := by
    intro later hlater
    have hfresh := @Sound.fresh_written gmtime s (log.rollFile gmtime time) logline clock hsound
      hgmtime later (hafter.trans hlater)
    rw [← hbasename] at hfresh
    exact hfresh
  counted := by
    have hfresh := @Sound.fresh_written gmtime s (log.rollFile gmtime time) logline clock hsound
      hgmtime time hafter
    rw [← hbasename] at hfresh
    exact congrArg (fun bytes : List Byte ↦ (bytes.length : ℤ)) hfresh
  within := le_of_le_of_eq hsound.limit hlimit.symm
  past := by
    intro r hmem
    obtain ⟨before, hbefore, hname⟩ := hsound.past_written r hmem
    rw [← hbasename] at hname
    exact ⟨before, lt_of_le_of_lt hbefore hafter, hname⟩
  once := hsound.once_written hgmtime
  bounded := hsound.bounded_written hlimit

/-- So it does if the file is kept. -/
theorem Sound.keep (hsound : Sound gmtime s) (hgmtime : BreaksDown gmtime)
    (hfits : ¬ s.Oversize logline) (count lastFlush : ℤ) (hclock : s.log.lastRoll ≤ clock) :
    Sound gmtime (s.written logline
      { s.log with
        file := s.log.file.append logline
        count := count
        lastFlush := lastFlush } clock) where
  limit := hsound.limit
  clock := hclock
  filename := hsound.filename
  period := hsound.period
  fresh := fun _ hlater ↦ hsound.fresh_written hgmtime hlater
  counted := by
    have hwritten := Function.update_self s.log.file.filename
      (s.disk s.log.file.filename ++ logline) s.disk
    have hlength := congrArg (fun bytes : List Byte ↦ (bytes.length : ℤ)) hwritten
    rw [List.length_append, Nat.cast_add, hsound.counted] at hlength
    exact hlength
  within := not_lt.1 hfits
  past := by
    intro r hmem
    rw [written, if_neg hfits] at hmem
    exact hsound.past r hmem
  once := hsound.once_written hgmtime
  bounded := hsound.bounded_written rfl

/-- Every separated call keeps it. -/
theorem Sound.step (hsound : Sound gmtime s) (hgmtime : BreaksDown gmtime) {call : LogCall}
    {t : LogDirectory} (hseparated : Separated call s)
    (hstep : LogDirectory.step gmtime call s = some t) : Sound gmtime t := by
  unfold LogDirectory.step at hstep
  split_ifs at hstep with hclock
  obtain rfl := Option.some.inj hstep
  have hlast := hsound.clock
  rcases s.log.appendUnlocked_cases gmtime call.logline call.now call.later with
    ⟨hover, hlog⟩ | ⟨hfits, hperiod, hlog⟩ | ⟨hfits, count, lastFlush, hlog⟩
  · have hdiffers := hseparated hover
    have hafter : s.log.lastRoll < call.now := by omega
    rw [hlog]
    refine hsound.roll hgmtime ?_ ?_ hafter hclock.2 <;> rfl
  · have hdiffers : call.now ≠ s.log.lastRoll := by
      intro hsame
      exact hperiod (by rw [hsound.period, hsame])
    have hafter : s.log.lastRoll < call.later := by omega
    rw [hlog]
    refine hsound.roll hgmtime ?_ ?_ hafter le_rfl <;> rfl
  · rw [hlog]
    exact hsound.keep hgmtime hfits count lastFlush (by omega)

/-! ## Runs -/

/-- In a run in which no file becomes too long in the second in which it was opened, every file
holds at all times no more than the limit and the one line that has made it too long. -/
theorem bounded_of_separated (hgmtime : BreaksDown gmtime) (basename : List Byte) {rollSize : ℤ}
    (hlimit : 0 ≤ rollSize) (flushInterval checkEveryN now : ℤ) {calls : List LogCall}
    (hseparated : Schedule.Meets (LogDirectory.step gmtime)
      (new gmtime basename rollSize flushInterval checkEveryN now) Separated calls) :
    Schedule.Along (LogDirectory.step gmtime)
      (new gmtime basename rollSize flushInterval checkEveryN now)
      (fun s ↦ s.Bounded ∧ s.RolledOnce) calls := by
  have hsound := Schedule.along_of_meets
    (@sound_new gmtime rollSize hlimit basename flushInterval checkEveryN now)
    (fun call s t hcall hs hstep ↦ Sound.step hs hgmtime hcall hstep) hseparated
  exact hsound.imp fun s hs ↦ ⟨hs.bounded, hs.once⟩

/-- Two lines that come a second apart go to two files. -/
theorem bounded_twoSeconds :
    Schedule.Along (LogDirectory.step TimeZone.civilTime)
      (new TimeZone.civilTime (text "web") 10 15 1024 1700000000)
      (fun s ↦ s.Bounded ∧ s.RolledOnce)
      [⟨List.replicate 11 (ascii 'x'), 1700000001, 1700000001⟩,
        ⟨List.replicate 11 (ascii 'y'), 1700000002, 1700000002⟩] := by
  apply bounded_of_separated breaksDown_civilTime (text "web") (by decide)
  apply Schedule.meets_cons
  · intro _
    decide
  · intro t hstep
    unfold LogDirectory.step at hstep
    split_ifs at hstep
    obtain rfl := Option.some.inj hstep
    apply Schedule.meets_cons
    · intro _
      decide
    · intro u _
      exact Schedule.meets_nil _

/-- What a call does that makes the file too long. -/
theorem step_oversize {call : LogCall} (hover : s.Oversize call.logline) {t : LogDirectory}
    (hstep : LogDirectory.step gmtime call s = some t) :
    t.log.rollSize = s.log.rollSize ∧
    t.log.file = .new (Logfile.getlogfileName gmtime s.log.basename call.now) ∧
    t.disk = Function.update s.disk s.log.file.filename
      (s.disk s.log.file.filename ++ call.logline) ∧
    t.rolled = (s.log.file.filename, call.logline.length) :: s.rolled := by
  unfold LogDirectory.step at hstep
  split_ifs at hstep
  obtain rfl := Option.some.inj hstep
  have hlog : s.log.appendUnlocked gmtime call.logline call.now call.later =
      { s.log with file := s.log.file.append call.logline }.rollFile gmtime call.now := if_pos hover
  rw [hlog]
  exact ⟨rfl, rfl, rfl, if_pos hover⟩

/-- If a file does become too long in the second in which it was opened, its name is used again and
the counter starts from zero, and a long line in the same second makes the file longer than it may
be. -/
theorem Sound.not_bounded (hsound : Sound gmtime s) (hgmtime : BreaksDown gmtime) {call : LogCall}
    (hover : s.Oversize call.logline) (hsame : call.now = s.log.lastRoll) {t : LogDirectory}
    (hstep : LogDirectory.step gmtime call s = some t) {next : LogCall}
    (hlong : s.log.rollSize < next.logline.length)
    (hlonger : call.logline.length ≤ next.logline.length) {u : LogDirectory}
    (hnext : LogDirectory.step gmtime next t = some u) : ¬ u.Bounded := by
  obtain ⟨hlimit, hfile, hdisk, hrolled⟩ := step_oversize hover hstep
  rw [hsame, ← hsound.filename] at hfile
  have hover' : t.Oversize next.logline := by
    unfold Oversize
    rw [hlimit, hfile]
    exact lt_of_lt_of_eq hlong (zero_add _).symm
  obtain ⟨hlimit', -, hdisk', hrolled'⟩ := step_oversize hover' hnext
  have hlength : ((u.disk s.log.file.filename).length : ℤ) =
      s.log.file.writtenBytes + call.logline.length + next.logline.length := by
    rw [hdisk', hfile, FileAppend.new, Function.update_self, hdisk, Function.update_self,
      List.length_append, List.length_append, Nat.cast_add, Nat.cast_add, hsound.counted]
  have htoo : s.log.rollSize < s.log.file.writtenBytes + call.logline.length := hover
  intro hbounded
  rcases hbounded s.log.file.filename with hle | ⟨triggered, hmem, hle⟩
  · rw [hlength, hlimit', hlimit] at hle
    omega
  · rw [hlength, hlimit', hlimit] at hle
    have hshort : triggered ≤ next.logline.length := by
      rw [hrolled', hrolled, hfile] at hmem
      rcases List.mem_cons.1 hmem with heq | hmem
      · exact (congrArg Prod.snd heq).le
      · rcases List.mem_cons.1 hmem with heq | hmem
        · exact (congrArg Prod.snd heq).le.trans hlonger
        · obtain ⟨time, hbefore, hname⟩ := hsound.past _ hmem
          have heq := hsound.filename.symm.trans hname
          exact absurd (Logfile.getlogfileName_inj hgmtime _ heq) hbefore.ne'
    omega

/-- Two lines of 11 bytes in the second in which the log is opened, with a limit of 10 bytes: the
file holds 22 of them. -/
theorem bounded_sameSecond_false :
    ¬ ∀ (gmtime : ℤ → Tm) (basename : List Byte) (rollSize flushInterval checkEveryN now : ℤ)
      (calls : List LogCall), BreaksDown gmtime → 0 ≤ rollSize →
      Schedule.Along (LogDirectory.step gmtime)
        (new gmtime basename rollSize flushInterval checkEveryN now) Bounded calls := by
  intro hall
  let call : LogCall := ⟨List.replicate 11 (ascii 'x'), 1700000000, 1700000000⟩
  have halong := hall TimeZone.civilTime (text "web") 10 15 1024 1700000000 [call, call]
    breaksDown_civilTime (by decide)
  have hsound := @sound_new TimeZone.civilTime 10 (by decide) (text "web") 15 1024 1700000000
  obtain ⟨t, hstep⟩ : ∃ t, LogDirectory.step TimeZone.civilTime call
      (new TimeZone.civilTime (text "web") 10 15 1024 1700000000) = some t :=
    ⟨_, if_pos ⟨le_rfl, le_rfl⟩⟩
  have hclock : t.clock = 1700000000 := by
    unfold LogDirectory.step at hstep
    split_ifs at hstep
    rw [← Option.some.inj hstep]
    rfl
  obtain ⟨u, hnext⟩ : ∃ u, LogDirectory.step TimeZone.civilTime call t = some u :=
    ⟨_, if_pos ⟨hclock.le, le_rfl⟩⟩
  refine hsound.not_bounded breaksDown_civilTime (by decide) rfl hstep (by decide) le_rfl hnext ?_
  apply halong.last
  rw [Schedule.run, hstep, Option.bind_some, Schedule.run, hnext, Option.bind_some,
    Schedule.run_nil]

end LogDirectory

end LWebServer
