import LWebServer.Log.Logfile

/-!
# What the log files hold

`FileAppend::append` writes a line piece by piece until `fwrite_unlocked` accepts nothing more, and
`logfile` goes on with another file when the current one is too long, or when it finds that another
day has begun. All in all the files hold the lines in order, none of them in two files, with few
lines of another day.
-/

namespace LWebServer

open Schedule

namespace FileAppend

/-- What the loop of `append` writes of the rest of a line. The answers are how many bytes
`fwrite_unlocked` accepts, as far as it is given so many; behind them it accepts nothing. -/
def writeRest : List ℕ → List Byte → List Byte
  | [], _ => []
  | accepts :: answers, rest =>
    if rest = [] ∨ accepts = 0 then []
    else rest.take accepts ++ writeRest answers (rest.drop accepts)

/-- What `append` writes of a line. -/
def write (answers : List ℕ) (logline : List Byte) : List Byte :=
  match answers with
  | [] => []
  | accepts :: answers => logline.take accepts ++ writeRest answers (logline.drop accepts)

theorem writeRest_isPrefix (answers : List ℕ) (rest : List Byte) :
    writeRest answers rest <+: rest := by
  induction answers generalizing rest with
  | nil => exact List.nil_prefix
  | cons accepts answers ih =>
    unfold writeRest
    split_ifs with hdone
    · exact List.nil_prefix
    · have hrest := (List.prefix_append_right_inj (rest.take accepts)).mpr (ih (rest.drop accepts))
      rwa [List.take_append_drop] at hrest

theorem write_isPrefix (answers : List ℕ) (logline : List Byte) :
    write answers logline <+: logline := by
  cases answers with
  | nil => exact List.nil_prefix
  | cons accepts answers =>
    have hline := (List.prefix_append_right_inj (logline.take accepts)).mpr
      (writeRest_isPrefix answers (logline.drop accepts))
    rwa [List.take_append_drop] at hline

/-- The loop goes on until everything is written, if something is accepted each time. -/
theorem writeRest_eq {answers : List ℕ} {rest : List Byte} (hpos : 0 ∉ answers)
    (hlong : rest.length ≤ answers.length) : writeRest answers rest = rest := by
  induction answers generalizing rest with
  | nil => exact (List.length_eq_zero_iff.mp (Nat.le_zero.mp hlong)).symm
  | cons accepts answers ih =>
    obtain ⟨hfirst, hpos⟩ := not_or.mp (List.mem_cons.not.mp hpos)
    unfold writeRest
    split_ifs with hdone
    · exact (hdone.resolve_right (Ne.symm hfirst)).symm
    · have hless : (rest.drop accepts).length ≤ answers.length := by
        rw [List.length_drop]
        rw [List.length_cons] at hlong
        omega
      rw [ih hpos hless, List.take_append_drop]

/-- So the whole line is written, unless a call of `fwrite_unlocked` accepts nothing. -/
theorem write_eq {answers : List ℕ} {logline : List Byte} (hpos : 0 ∉ answers)
    (hlong : logline.length < answers.length) : write answers logline = logline := by
  cases answers with
  | nil => exact absurd hlong (Nat.not_lt_zero _)
  | cons accepts answers =>
    have hless : (logline.drop accepts).length ≤ answers.length := by
      rw [List.length_drop]
      rw [List.length_cons] at hlong
      omega
    change logline.take accepts ++ writeRest answers (logline.drop accepts) = logline
    rw [writeRest_eq (not_or.mp (List.mem_cons.not.mp hpos)).2 hless, List.take_append_drop]

example : write [3, 2, 0, 5] (text "abcdefgh") = text "abcde" := rfl

end FileAppend

/-! ## Openings -/

/-- A line that has been appended, at a time, and what has been written of it. -/
structure Entry where
  time : ℤ
  logline : List Byte
  written : List Byte

/-- A file between `fopen` and `fclose`, with what is appended meanwhile. -/
structure Opening where
  time : ℤ
  filename : List Byte
  entries : List Entry

namespace Opening

def add (entry : Entry) (o : Opening) : Opening := { o with entries := o.entries ++ [entry] }

/-- The lengths of the lines, added up. -/
def size (entries : List Entry) : ℕ := (entries.map fun entry ↦ entry.logline.length).sum

end Opening

namespace Logfile

/-- The beginning of a day, as `rollFile` computes it. -/
def period (time : ℤ) : ℤ := time - time.tmod dayPreSeconds

theorem period_mono {time later : ℤ} (hle : time ≤ later) : period time ≤ period later := by
  unfold period dayPreSeconds
  rw [Int.tmod_eq_emod, Int.tmod_eq_emod]
  split_ifs <;> omega

/-- The time of the roll, if a call leads to one. -/
def rollTime (logline : List Byte) (now later : ℤ) (log : Logfile) : Option ℤ :=
  if log.rollSize < log.file.writtenBytes + logline.length then some now
  else if log.checkEveryN ≤ log.count + 1 ∧ period now ≠ log.startOfPeriod then some later
  else none

end Logfile

/-- Lines of an opening that have come on another day than the file. -/
def Opening.strays (o : Opening) : List Entry :=
  o.entries.filter fun entry ↦ Logfile.period entry.time ≠ Logfile.period o.time

/-- A call of `append`, with what `fwrite_unlocked` answers. -/
structure LogAppend where
  call : LogCall
  answers : List ℕ

/-- A `logfile` with what has been written to its files, by their names; the files that it has
closed, the oldest one first, and the open one; and the times and lines of all calls. -/
structure LogFiles where
  log : Logfile
  disk : List Byte → List Byte
  past : List Opening
  present : Opening
  appended : List (ℤ × List Byte)
  clock : ℤ

namespace LogFiles

variable (gmtime : ℤ → Tm)

/-- A new `logfile`, where there are no files. -/
def new (basename : List Byte) (rollSize flushInterval checkEveryN now : ℤ) : LogFiles where
  log := .new gmtime basename rollSize flushInterval checkEveryN now
  disk := fun _ ↦ []
  past := []
  present := ⟨now, Logfile.getlogfileName gmtime basename now, []⟩
  appended := []
  clock := now

/-- A call of `append`. The clock does not go back. -/
def step (act : LogAppend) (s : LogFiles) : Option LogFiles :=
  let logline := act.call.logline
  let now := act.call.now
  let later := act.call.later
  if s.clock ≤ now ∧ now ≤ later then
    let written := FileAppend.write act.answers logline
    let filename := s.log.file.filename
    let log := s.log.appendUnlocked gmtime logline now later
    let present := s.present.add ⟨now, logline, written⟩
    let s' : LogFiles := { s with
      log := log
      disk := Function.update s.disk filename (s.disk filename ++ written)
      appended := s.appended ++ [(now, logline)]
      clock := later }
    match s.log.rollTime logline now later with
    | some time => some { s' with
        past := s.past ++ [present], present := ⟨time, log.file.filename, []⟩ }
    | none => some { s' with present := present }
  else none

/-- The files in the order in which they have been opened. -/
def openings (s : LogFiles) : List Opening := s.past ++ [s.present]

/-- Every line is in the file that was open when it came, in order, as far as `fwrite_unlocked` has
accepted it, and a file holds nothing else; the name of a file tells when it was opened; and only
the last line of a file may take it over the limit. -/
structure Filed (basename : List Byte) (rollSize : ℤ) (openings : List Opening)
    (disk : List Byte → List Byte) (appended : List (ℤ × List Byte)) : Prop where
  order : (openings.flatMap Opening.entries).map (fun entry ↦ (entry.time, entry.logline)) =
    appended
  part : ∀ o ∈ openings, ∀ entry ∈ o.entries, entry.written <+: entry.logline
  disk : ∀ filename, disk filename =
    ((openings.filter fun o ↦ o.filename = filename).flatMap Opening.entries).flatMap
      Entry.written
  named : ∀ o ∈ openings, o.filename = Logfile.getlogfileName gmtime basename o.time
  limit : ∀ o ∈ openings, ∀ entries last, o.entries = entries ++ [last] →
    entries = [] ∨ (Opening.size entries : ℤ) ≤ rollSize

/-- The files are in order, and none has more than `checkEveryN` lines of another day, the open one
fewer. -/
structure Kept (s : LogFiles) : Prop where
  filed : Filed gmtime s.log.basename s.log.rollSize s.openings s.disk s.appended
  strays : 1 ≤ s.log.checkEveryN → (∀ o ∈ s.past, (o.strays.length : ℤ) ≤ s.log.checkEveryN) ∧
    (s.present.strays.length : ℤ) < s.log.checkEveryN

variable {gmtime : ℤ → Tm}

/-! ## Lines and files -/

section

variable {basename : List Byte} {rollSize : ℤ} {past : List Opening} {present : Opening}
  {disk : List Byte → List Byte} {appended : List (ℤ × List Byte)}

/-- A line goes to the open file. -/
theorem Filed.add (hfiled : Filed gmtime basename rollSize (past ++ [present]) disk appended)
    (hwithin : present.entries = [] ∨ (Opening.size present.entries : ℤ) ≤ rollSize)
    (entry : Entry) (hpart : entry.written <+: entry.logline) :
    Filed gmtime basename rollSize (past ++ [present.add entry])
      (Function.update disk present.filename (disk present.filename ++ entry.written))
      (appended ++ [(entry.time, entry.logline)]) where
  order := by
    rw [← hfiled.order]
    simp [Opening.add]
  part := by
    intro o ho e he
    rcases List.mem_append.mp ho with hpast | hpresent
    · exact hfiled.part o (List.mem_append_left _ hpast) e he
    · rw [List.mem_singleton.mp hpresent] at he
      rcases List.mem_append.mp he with hearlier | hlast
      · exact hfiled.part present (List.mem_append_right _ List.mem_cons_self) e hearlier
      · rw [List.mem_singleton.mp hlast]
        exact hpart
  disk := by
    intro filename
    have hbefore := hfiled.disk filename
    by_cases hname : filename = present.filename
    · subst hname
      rw [Function.update_self, hbefore]
      simp [Opening.add]
    · have hother : present.filename ≠ filename := Ne.symm hname
      rw [Function.update_of_ne hname, hbefore]
      simp [Opening.add, hother]
  named := by
    intro o ho
    rcases List.mem_append.mp ho with hpast | hpresent
    · exact hfiled.named o (List.mem_append_left _ hpast)
    · rw [List.mem_singleton.mp hpresent]
      exact hfiled.named present (List.mem_append_right _ List.mem_cons_self)
  limit := by
    intro o ho entries last hentries
    rcases List.mem_append.mp ho with hpast | hpresent
    · exact hfiled.limit o (List.mem_append_left _ hpast) entries last hentries
    · rw [List.mem_singleton.mp hpresent] at hentries
      rw [← (List.append_inj' hentries rfl).1]
      exact hwithin

/-- Another file is opened. -/
theorem Filed.fopen {openings : List Opening}
    (hfiled : Filed gmtime basename rollSize openings disk appended) (time : ℤ) :
    Filed gmtime basename rollSize
      (openings ++ [⟨time, Logfile.getlogfileName gmtime basename time, []⟩]) disk appended where
  order := by
    rw [← hfiled.order]
    simp
  part := by
    intro o ho entry hentry
    rcases List.mem_append.mp ho with hearlier | hlast
    · exact hfiled.part o hearlier entry hentry
    · rw [List.mem_singleton.mp hlast] at hentry
      cases hentry
  disk := by
    intro filename
    rw [hfiled.disk, List.filter_append, List.flatMap_append, List.flatMap_append]
    by_cases hname : Logfile.getlogfileName gmtime basename time = filename
    · simp [hname]
    · simp [hname]
  named := by
    intro o ho
    rcases List.mem_append.mp ho with hearlier | hlast
    · exact hfiled.named o hearlier
    · rw [List.mem_singleton.mp hlast]
  limit := by
    intro o ho entries last hentries
    rcases List.mem_append.mp ho with hearlier | hlast
    · exact hfiled.limit o hearlier entries last hentries
    · rw [List.mem_singleton.mp hlast] at hentries
      exact absurd hentries.symm (List.append_ne_nil_of_right_ne_nil _ (by simp))

end

/-! ## A call -/

/-- What a call makes of the `logfile`: the file is rolled because it is too long; or, at a check,
because of the day; or it is kept at a check; or there is no check. -/
theorem appendUnlocked_outcomes (gmtime : ℤ → Tm) (logline : List Byte) (now later : ℤ)
    (log : Logfile) :
    (log.rollTime logline now later = some now ∧
      log.appendUnlocked gmtime logline now later =
        { log with file := log.file.append logline }.rollFile gmtime now) ∨
    (¬ log.rollSize < log.file.writtenBytes + logline.length ∧
      log.rollTime logline now later = some later ∧
      log.appendUnlocked gmtime logline now later =
        { log with file := log.file.append logline, count := 0 }.rollFile gmtime later) ∨
    (¬ log.rollSize < log.file.writtenBytes + logline.length ∧
      log.rollTime logline now later = none ∧ Logfile.period now = log.startOfPeriod ∧
      ∃ lastFlush, log.appendUnlocked gmtime logline now later =
        { log with file := log.file.append logline, count := 0, lastFlush := lastFlush }) ∨
    (¬ log.rollSize < log.file.writtenBytes + logline.length ∧
      log.rollTime logline now later = none ∧ log.count + 1 < log.checkEveryN ∧
      log.appendUnlocked gmtime logline now later =
        { log with file := log.file.append logline, count := log.count + 1 }) := by
  unfold Logfile.rollTime
  by_cases hsize : log.rollSize < log.file.writtenBytes + logline.length
  · exact .inl ⟨if_pos hsize, if_pos hsize⟩
  · have happend : log.appendUnlocked gmtime logline now later = _ := if_neg hsize
    rw [if_neg hsize, happend]
    dsimp only
    right
    by_cases hcheck : log.checkEveryN ≤ log.count + 1
    · rw [if_pos hcheck]
      by_cases hperiod : Logfile.period now = log.startOfPeriod
      · have hsame : ¬ now - now.tmod Logfile.dayPreSeconds ≠ log.startOfPeriod :=
          not_not.mpr hperiod
        rw [if_neg hsame, if_neg fun h ↦ h.2 hperiod]
        refine .inr (.inl ⟨hsize, rfl, hperiod, ?_⟩)
        split_ifs
        · exact ⟨_, rfl⟩
        · exact ⟨log.lastFlush, rfl⟩
      · have hother : now - now.tmod Logfile.dayPreSeconds ≠ log.startOfPeriod := hperiod
        rw [if_pos hother, if_pos ⟨hcheck, hperiod⟩]
        exact .inl ⟨hsize, rfl, rfl⟩
    · rw [if_neg hcheck, if_neg fun h ↦ hcheck h.1]
      exact .inr (.inr ⟨hsize, rfl, not_le.mp hcheck, rfl⟩)

/-- A state that the calls lead to. -/
structure Regular (gmtime : ℤ → Tm) (s : LogFiles) : Prop where
  filed : Filed gmtime s.log.basename s.log.rollSize s.openings s.disk s.appended
  past : 1 ≤ s.log.checkEveryN → ∀ o ∈ s.past, (o.strays.length : ℤ) ≤ s.log.checkEveryN
  filename : s.log.file.filename = s.present.filename
  counted : s.log.file.writtenBytes = Opening.size s.present.entries
  within : s.present.entries = [] ∨ (Opening.size s.present.entries : ℤ) ≤ s.log.rollSize
  start : s.log.startOfPeriod = Logfile.period s.present.time
  opened : s.present.time ≤ s.clock
  times : ∀ entry ∈ s.present.entries, s.present.time ≤ entry.time ∧ entry.time ≤ s.clock
  strays : (s.present.strays.length : ℤ) ≤ s.log.count
  count : 1 ≤ s.log.checkEveryN → s.log.count < s.log.checkEveryN

theorem Regular.kept {s : LogFiles} (hregular : s.Regular gmtime) : s.Kept gmtime where
  filed := hregular.filed
  strays hcheck := ⟨hregular.past hcheck, lt_of_le_of_lt hregular.strays (hregular.count hcheck)⟩

theorem regular_new (basename : List Byte) (rollSize flushInterval checkEveryN now : ℤ) :
    (new gmtime basename rollSize flushInterval checkEveryN now).Regular gmtime where
  filed := {
    order := rfl
    part := fun o ho entry hentry ↦ by
      rw [List.mem_singleton.mp ho] at hentry
      cases hentry
    disk := fun filename ↦ by
      unfold openings new
      simp only [List.nil_append]
      by_cases hname : Logfile.getlogfileName gmtime basename now = filename
      · simp [hname]
      · simp [hname]
    named := fun o ho ↦ by
      rw [List.mem_singleton.mp ho]
      rfl
    limit := fun o ho entries last hentries ↦ by
      rw [List.mem_singleton.mp ho] at hentries
      exact absurd hentries.symm (List.append_ne_nil_of_right_ne_nil _ (by simp)) }
  past _ _ ho := absurd ho List.not_mem_nil
  filename := rfl
  counted := rfl
  within := .inl rfl
  start := rfl
  opened := le_rfl
  times _ hentry := absurd hentry List.not_mem_nil
  strays := le_rfl
  count hcheck := lt_of_lt_of_le zero_lt_one hcheck

theorem size_add (o : Opening) (entry : Entry) :
    Opening.size (o.add entry).entries = Opening.size o.entries + entry.logline.length := by
  simp [Opening.size, Opening.add]

theorem strays_add (o : Opening) (entry : Entry) :
    (o.add entry).strays.length ≤ o.strays.length + 1 := by
  unfold Opening.strays Opening.add
  rw [List.filter_append, List.length_append]
  exact Nat.add_le_add_left (List.length_filter_le _ [entry]) _

section

variable {s s' : LogFiles} {act : LogAppend}

/-- The files with the line of a call. -/
theorem Regular.filed_add (hregular : s.Regular gmtime) (act : LogAppend) :
    Filed gmtime s.log.basename s.log.rollSize
      (s.past ++ [s.present.add ⟨act.call.now, act.call.logline,
        FileAppend.write act.answers act.call.logline⟩])
      (Function.update s.disk s.log.file.filename (s.disk s.log.file.filename ++
        FileAppend.write act.answers act.call.logline))
      (s.appended ++ [(act.call.now, act.call.logline)]) := by
  rw [hregular.filename]
  exact hregular.filed.add hregular.within ⟨act.call.now, act.call.logline, _⟩
    (FileAppend.write_isPrefix act.answers act.call.logline)

/-- The file is rolled, with the check that has been made or without one. -/
theorem Regular.roll (hregular : s.Regular gmtime) {log : Logfile} {time clock : ℤ}
    (hclock : time ≤ clock) (hbasename : log.basename = s.log.basename)
    (hlimit : log.rollSize = s.log.rollSize) (hcheck : log.checkEveryN = s.log.checkEveryN)
    (hcount : 0 ≤ log.count) (hless : 1 ≤ s.log.checkEveryN → log.count < s.log.checkEveryN) :
    Regular gmtime {
      log := log.rollFile gmtime time
      disk := Function.update s.disk s.log.file.filename (s.disk s.log.file.filename ++
        FileAppend.write act.answers act.call.logline)
      past := s.past ++ [s.present.add ⟨act.call.now, act.call.logline,
        FileAppend.write act.answers act.call.logline⟩]
      present := ⟨time, (log.rollFile gmtime time).file.filename, []⟩
      appended := s.appended ++ [(act.call.now, act.call.logline)]
      clock := clock } where
  filed := by
    have hfiled := (hregular.filed_add act).fopen time
    rw [← hbasename, ← hlimit] at hfiled
    exact hfiled
  past := by
    intro hone o ho
    change 1 ≤ log.checkEveryN at hone
    change _ ≤ log.checkEveryN
    rw [hcheck] at hone ⊢
    rcases List.mem_append.mp ho with hearlier | hlast
    · exact hregular.past hone o hearlier
    · rw [List.mem_singleton.mp hlast]
      have hadded := strays_add s.present ⟨act.call.now, act.call.logline,
        FileAppend.write act.answers act.call.logline⟩
      have hstrays := hregular.strays
      have hbelow := hregular.count hone
      omega
  filename := rfl
  counted := rfl
  within := .inl rfl
  start := rfl
  opened := hclock
  times _ hentry := absurd hentry List.not_mem_nil
  strays := hcount
  count := by
    intro hone
    change 1 ≤ log.checkEveryN at hone
    change log.count < log.checkEveryN
    rw [hcheck] at hone ⊢
    exact hless hone

/-- The file is kept. -/
theorem Regular.keep (hregular : s.Regular gmtime) {count lastFlush : ℤ}
    (hclock : s.clock ≤ act.call.now ∧ act.call.now ≤ act.call.later)
    (hsize : ¬ s.log.rollSize < s.log.file.writtenBytes + act.call.logline.length)
    (hstrays : ((s.present.add ⟨act.call.now, act.call.logline,
      FileAppend.write act.answers act.call.logline⟩).strays.length : ℤ) ≤ count)
    (hless : 1 ≤ s.log.checkEveryN → count < s.log.checkEveryN) :
    Regular gmtime {
      log := { s.log with
        file := s.log.file.append act.call.logline, count := count, lastFlush := lastFlush }
      disk := Function.update s.disk s.log.file.filename (s.disk s.log.file.filename ++
        FileAppend.write act.answers act.call.logline)
      past := s.past
      present := s.present.add ⟨act.call.now, act.call.logline,
        FileAppend.write act.answers act.call.logline⟩
      appended := s.appended ++ [(act.call.now, act.call.logline)]
      clock := act.call.later } where
  filed := hregular.filed_add act
  past := hregular.past
  filename := hregular.filename
  counted := by
    rw [size_add, Nat.cast_add, ← hregular.counted]
    rfl
  within := by
    right
    rw [size_add, Nat.cast_add, ← hregular.counted]
    exact not_lt.mp hsize
  start := hregular.start
  opened := hregular.opened.trans (hclock.1.trans hclock.2)
  times := by
    intro entry hentry
    rcases List.mem_append.mp hentry with hearlier | hlast
    · obtain ⟨hafter, hbefore⟩ := hregular.times entry hearlier
      exact ⟨hafter, hbefore.trans (hclock.1.trans hclock.2)⟩
    · rw [List.mem_singleton.mp hlast]
      exact ⟨hregular.opened.trans hclock.1, hclock.2⟩
  strays := hstrays
  count := hless

/-- A check that finds the day of the file finds no lines of another day. -/
theorem Regular.strays_of_period (hregular : s.Regular gmtime) {entry : Entry}
    (hclock : s.clock ≤ entry.time) (hperiod : Logfile.period entry.time = s.log.startOfPeriod) :
    (s.present.add entry).strays = [] := by
  have hsame (e : Entry) (he : e ∈ (s.present.add entry).entries) :
      Logfile.period e.time = Logfile.period s.present.time := by
    rw [hregular.start] at hperiod
    rcases List.mem_append.mp he with hearlier | hlast
    · obtain ⟨hafter, hbefore⟩ := hregular.times e hearlier
      apply le_antisymm
      · calc Logfile.period e.time
          _ ≤ Logfile.period entry.time := Logfile.period_mono (hbefore.trans hclock)
          _ = Logfile.period s.present.time := hperiod
      · exact Logfile.period_mono hafter
    · rw [List.mem_singleton.mp hlast]
      exact hperiod
  apply List.filter_eq_nil_iff.mpr
  intro e he hother
  exact of_decide_eq_true hother (hsame e he)

theorem regular_step (hregular : s.Regular gmtime) (hstep : step gmtime act s = some s') :
    s'.Regular gmtime := by
  unfold step at hstep
  dsimp only at hstep
  split_ifs at hstep with hclock
  have hcount : 0 ≤ s.log.count := le_trans (Int.natCast_nonneg _) hregular.strays
  rcases appendUnlocked_outcomes gmtime act.call.logline act.call.now act.call.later s.log with
    ⟨hroll, hlog⟩ | ⟨-, hroll, hlog⟩ | ⟨hsize, hroll, hperiod, lastFlush, hlog⟩ |
    ⟨hsize, hroll, hcheck, hlog⟩
  · rw [hroll, hlog] at hstep
    obtain rfl := Option.some.inj hstep
    exact hregular.roll hclock.2 rfl rfl rfl hcount hregular.count
  · rw [hroll, hlog] at hstep
    obtain rfl := Option.some.inj hstep
    exact hregular.roll le_rfl rfl rfl rfl le_rfl (lt_of_lt_of_le zero_lt_one)
  · rw [hroll, hlog] at hstep
    obtain rfl := Option.some.inj hstep
    refine hregular.keep hclock hsize ?_ (lt_of_lt_of_le zero_lt_one)
    rw [hregular.strays_of_period hclock.1 hperiod]
    exact le_rfl
  · rw [hroll, hlog] at hstep
    obtain rfl := Option.some.inj hstep
    refine hregular.keep hclock hsize ?_ fun _ ↦ hcheck
    have hadded := strays_add s.present ⟨act.call.now, act.call.logline,
      FileAppend.write act.answers act.call.logline⟩
    have hstrays := hregular.strays
    omega

/-- Whatever is appended, whenever the clock does not go back, and whatever `fwrite_unlocked`
accepts: the files hold the lines in order. -/
theorem logged_run (gmtime : ℤ → Tm) (basename : List Byte)
    (rollSize flushInterval checkEveryN now : ℤ) (acts : List LogAppend) :
    Along (step gmtime) (new gmtime basename rollSize flushInterval checkEveryN now)
      (Kept gmtime) acts :=
  (along_of_invariant (regular_new basename rollSize flushInterval checkEveryN now)
    (fun _ _ _ ↦ regular_step) acts).imp fun _ ↦ Regular.kept

/-- Where `fwrite_unlocked` accepts every line, the files are those of a `LogDirectory`. -/
theorem directory_run {basename : List Byte} {rollSize flushInterval checkEveryN now : ℤ}
    {acts : List LogAppend}
    (haccepted : ∀ act ∈ acts, 0 ∉ act.answers ∧ act.call.logline.length < act.answers.length)
    (hrun : run (step gmtime) acts (new gmtime basename rollSize flushInterval checkEveryN now) =
      some s) :
    ∃ d, run (LogDirectory.step gmtime) (acts.map LogAppend.call)
        (.new gmtime basename rollSize flushInterval checkEveryN now) = some d ∧
      d.log = s.log ∧ d.disk = s.disk ∧ d.clock = s.clock := by
  induction acts using List.reverseRecOn generalizing s with
  | nil =>
    cases hrun
    exact ⟨_, rfl, rfl, rfl, rfl⟩
  | append_singleton acts act ih =>
    obtain ⟨r, hpast, hlast⟩ := run_snoc.mp hrun
    obtain ⟨d, hd, hlog, hdisk, hclock⟩ :=
      ih (fun other hother ↦ haccepted other (List.mem_append_left _ hother)) hpast
    obtain ⟨hpos, hlong⟩ := haccepted act (List.mem_append_right _ List.mem_cons_self)
    have hwhole := FileAppend.write_eq hpos hlong
    unfold step at hlast
    dsimp only at hlast
    split_ifs at hlast with htimes
    have hstep : LogDirectory.step gmtime act.call d = some (d.written act.call.logline
        (d.log.appendUnlocked gmtime act.call.logline act.call.now act.call.later)
        act.call.later) := by
      unfold LogDirectory.step
      rw [hclock, if_pos htimes]
    rw [List.map_append]
    refine ⟨_, run_snoc.mpr ⟨d, hd, hstep⟩, ?_⟩
    cases hroll : r.log.rollTime act.call.logline act.call.now act.call.later with
    | some time =>
      simp only [hroll] at hlast
      obtain rfl := Option.some.inj hlast
      simp [LogDirectory.written, hlog, hdisk, hwhole]
    | none =>
      simp only [hroll] at hlast
      obtain rfl := Option.some.inj hlast
      simp [LogDirectory.written, hlog, hdisk, hwhole]

end

end LogFiles

end LWebServer
