import LWebServer.Log.Files
import LWebServer.Log.Shutdown

/-!
# From `append` to the files

The thread in `AsyncFunc` gives the `logfile` whole buffers, one call for each. So a file holds
blocks of whole lines, in order and none of them in two files, whatever the threads' turns; and
where too many buffers have piled up, all but two of them are dropped and a notice takes their
place.
-/

namespace LWebServer

open Schedule

namespace AsyncLogging

/-! ## Buffers without their history -/

/-- The buffers are as they should be, however many pile up and however long the lines are. -/
structure Fit (s : AsyncLogging) : Prop where
  defined : s.undefined = false
  current : s.currentBuffer ≠ none
  spare : s.nextBuffer = none → s.buffers ≠ []
  whole : ∀ buffer ∈ s.buffers, buffer ≠ none
  empty : ∀ buffer, s.newBuffer1 = some buffer ∨ s.newBuffer2 = some buffer ∨
    s.nextBuffer = some buffer → buffer.content = []
  stocked : s.Stocked

/-- The state in which the lines have been appended that the buffers and the output hold. -/
def retold (s : AsyncLogging) : AsyncLogging := { s with appended := [s.claimed ++ s.pending] }

theorem Fit.regular {s : AsyncLogging} (hfit : s.Fit) : s.retold.Regular where
  defined := hfit.defined
  current := hfit.current
  spare := hfit.spare
  whole := hfit.whole
  empty := hfit.empty
  stocked := hfit.stocked
  order := List.flatten_singleton.symm

theorem Regular.fit {s : AsyncLogging} {appended : List (List Byte)}
    (hregular : { s with appended := appended : AsyncLogging }.Regular) : s.Fit where
  defined := hregular.defined
  current := hregular.current
  spare := hregular.spare
  whole := hregular.whole
  empty := hregular.empty
  stocked := hregular.stocked

variable {s s' : AsyncLogging}

theorem fit_new : new.Fit := regular_new.fit

theorem fit_append (hfit : s.Fit) (line : List Byte) : (s.append line).Fit := by
  obtain ⟨current, hcurrent⟩ := Option.ne_none_iff_exists'.mp hfit.current
  unfold append
  rw [hcurrent]
  dsimp only
  split
  · exact ⟨hfit.defined, Option.some_ne_none _, hfit.spare, hfit.whole, hfit.empty, hfit.stocked⟩
  · refine ⟨hfit.defined, Option.some_ne_none _, fun _ ↦ by simp, ?_, ?_, hfit.stocked⟩
    · intro buffer hmem
      rcases List.mem_append.mp hmem with hmem | hmem
      · exact hfit.whole buffer hmem
      · rw [List.mem_singleton.mp hmem]
        exact Option.some_ne_none _
    · intro buffer hbuffer
      rcases hbuffer with hbuffer | hbuffer | hbuffer
      · exact hfit.empty buffer (.inl hbuffer)
      · exact hfit.empty buffer (.inr (.inl hbuffer))
      · cases hbuffer

theorem fit_start (hfit : s.Fit) (hphase : s.phase = .unborn) :
    { s with
      running := true
      phase := .check
      newBuffer1 := some .new
      newBuffer2 := some .new : AsyncLogging }.Fit :=
  (regular_start hfit.regular hphase).fit

theorem fit_swap (hfit : s.Fit) (hbetween : s.Between) : s.swap.Fit :=
  (regular_swap hfit.regular hbetween).fit

theorem fit_sift (hfit : s.Fit) (hphase : s.phase = .sift) (now : List Byte) :
    (s.sift now).Fit := by
  have hstocked := hfit.stocked
  rw [Stocked, hphase] at hstocked
  obtain ⟨hne, htwo, hwhole⟩ := hstocked
  unfold sift
  split
  next hmany =>
    have hlength : (s.writeLog.take 2).length = 2 := by
      rw [List.length_take]
      omega
    refine ⟨hfit.defined, hfit.current, hfit.spare, hfit.whole, hfit.empty, ?_, ?_, ?_⟩
    · exact List.ne_nil_of_length_pos (hlength.symm ▸ Nat.two_pos)
    · exact fun _ ↦ hlength.ge
    · exact fun buffer hmem ↦ hwhole buffer (List.mem_of_mem_take hmem)
  next =>
    exact ⟨hfit.defined, hfit.current, hfit.spare, hfit.whole, hfit.empty, hne, htwo, hwhole⟩

theorem fit_write (hfit : s.Fit) {written : ℕ} (hphase : s.phase = .writing written) :
    (s.write written).Fit := by
  have hretold : s.retold.write written =
      { s.write written with appended := s.retold.appended } := by
    change write written { s with appended := _ } = _
    unfold write
    dsimp only
    cases s.writeLog[written]? with
    | none => rfl
    | some buffer => cases buffer <;> rfl
  have hregular := regular_write hfit.regular hphase
  rw [hretold] at hregular
  exact hregular.fit

theorem fit_recycle (hfit : s.Fit) (hphase : s.phase = .recycle) : s.recycle.Fit := by
  have hretold : s.retold.recycle = { s.recycle with appended := s.retold.appended } := by
    change recycle { s with appended := _ } = _
    unfold recycle
    dsimp only
    generalize (if 2 < s.writeLog.length then s.writeLog.take 2 else s.writeLog) = writeLog
    cases refill s.newBuffer1 writeLog with
    | none => rfl
    | some first =>
      dsimp only
      cases refill s.newBuffer2 first.2 <;> rfl
  have hregular := regular_recycle hfit.regular hphase
  rw [hretold] at hregular
  exact hregular.fit

/-- Whatever `AsyncFunc` does next, the buffers are as they should be. -/
theorem fit_work {now : List Byte} (hfit : s.Fit) (hwork : s.work now = some s') : s'.Fit := by
  have hstocked := hfit.stocked
  unfold Stocked at hstocked
  unfold work at hwork
  split at hwork
  next => cases hwork
  next hphase =>
    rw [hphase] at hstocked
    cases hwork
    split
    · exact ⟨hfit.defined, hfit.current, hfit.spare, hfit.whole, hfit.empty, hstocked⟩
    · exact ⟨hfit.defined, hfit.current, hfit.spare, hfit.whole, hfit.empty, hstocked.2.2⟩
  next hphase =>
    rw [hphase] at hstocked
    cases hwork
    split
    · exact ⟨hfit.defined, hfit.current, hfit.spare, hfit.whole, hfit.empty, hstocked⟩
    · exact fit_swap hfit (.inr (.inl hphase))
  next hphase =>
    cases hwork
    exact fit_swap hfit (.inr (.inr hphase))
  next hphase =>
    cases hwork
    exact fit_sift hfit hphase now
  next written hphase =>
    cases hwork
    exact fit_write hfit hphase
  next hphase =>
    cases hwork
    exact fit_recycle hfit hphase
  next => cases hwork

/-! ## Turns -/

/-- A line that a buffer has room for. -/
def Fits (line : List Byte) : Prop := line.length < largerBuffer

instance : DecidablePred Fits := fun line ↦ inferInstanceAs (Decidable (line.length < largerBuffer))

/-- A turn of the loop of `AsyncFunc`: the lines in each of the buffers that it has taken over, and
the time that it tells if there are too many. -/
structure Turn where
  now : List Byte
  groups : List (List (List Byte))

/-- What is given to the `logfile` in a turn, call by call. -/
def Turn.blocks (turn : Turn) : List (List Byte) :=
  if 25 < turn.groups.length then
    dropped turn.now turn.groups.length :: (turn.groups.take 2).map List.flatten
  else turn.groups.map List.flatten

/-- What `AsyncFunc` gives to the `logfile` in its next step, if it does. -/
def block (now : List Byte) (s : AsyncLogging) : Option (List Byte) :=
  match s.phase with
  | .sift => if 25 < s.writeLog.length then some (dropped now s.writeLog.length) else none
  | .writing written => s.writeLog[written]?.join.map FixedBuffer.content
  | _ => none

/-- The buffers that are still to be sifted. -/
def backlog (s : AsyncLogging) : List BufferPtr :=
  (if s.phase = .sift then s.writeLog else []) ++ s.buffers ++ [s.currentBuffer]

/-- The buffers that have been sifted and are still to be written. -/
def outstanding (s : AsyncLogging) : List BufferPtr :=
  match s.phase with
  | .writing written => s.writeLog.drop written
  | _ => []

/-- With these turns, and these lines in the buffers that are still to be sifted: each line that
fits is where it belongs, and these blocks have been given to the `logfile`. -/
structure Flows (given : List (List Byte)) (turns : List Turn) (groups : List (List (List Byte)))
    (s : AsyncLogging) : Prop where
  filled : s.backlog.map content = groups.map List.flatten
  lines : (turns.flatMap Turn.groups ++ groups).flatten = s.appended.filter fun line ↦ Fits line
  blocks : given ++ s.outstanding.map content = turns.flatMap Turn.blocks
  output : s.output = given.flatten

variable {given : List (List Byte)} {turns : List Turn} {groups : List (List (List Byte))}

/-- No buffers are being sifted or written. -/
def AtRest (s : AsyncLogging) : Prop := s.phase ≠ .sift ∧ ∀ written, s.phase ≠ .writing written

theorem Between.atRest (hbetween : s.Between) : s.AtRest := by
  rcases hbetween with hphase | hphase | hphase <;> simp [AtRest, hphase]

theorem AtRest.backlog (hrest : s.AtRest) : s.backlog = s.buffers ++ [s.currentBuffer] := by
  unfold AsyncLogging.backlog
  rw [if_neg hrest.1]
  rfl

theorem AtRest.outstanding (hrest : s.AtRest) : s.outstanding = [] := by
  unfold AsyncLogging.outstanding
  split
  next written hphase => exact absurd hphase (hrest.2 written)
  next => rfl

theorem AtRest.block (hrest : s.AtRest) (now : List Byte) : s.block now = none := by
  unfold AsyncLogging.block
  split
  next hphase => exact absurd hphase hrest.1
  next written hphase => exact absurd hphase (hrest.2 written)
  next => rfl

theorem flows_new : new.Flows [] [] [[]] where
  filled := rfl
  lines := rfl
  blocks := rfl
  output := rfl

/-- Nothing is taken over, sifted or written. -/
theorem Flows.move (hflows : s.Flows given turns groups) (hbacklog : s'.backlog = s.backlog)
    (houtstanding : s'.outstanding = s.outstanding) (happended : s'.appended = s.appended)
    (houtput : s'.output = s.output) : s'.Flows given turns groups where
  filled := hbacklog ▸ hflows.filled
  lines := happended ▸ hflows.lines
  blocks := houtstanding ▸ hflows.blocks
  output := houtput.trans hflows.output

/-- What a buffer holds of a line. -/
def held (line : List Byte) : List (List Byte) := [line].filter fun line ↦ Fits line

theorem held_of_fits {line : List Byte} (hfits : Fits line) : held line = [line] :=
  List.filter_cons_of_pos (by simpa using hfits)

theorem content_append_fresh {buffer : FixedBuffer largerBuffer} (hempty : buffer.content = [])
    (line : List Byte) : (buffer.append line).content = (held line).flatten := by
  by_cases hfits : Fits line
  · rw [held_of_fits hfits, FixedBuffer.content_append_of_empty hempty hfits,
      List.flatten_singleton]
  · have hroom : ¬ line.length < buffer.avail := by
      rw [FixedBuffer.avail, hempty]
      exact hfits
    have hheld : held line = [] := List.filter_cons_of_neg (by simpa using hfits)
    rw [hheld, FixedBuffer.append, dif_neg hroom, hempty]
    rfl

theorem flows_append (hfit : s.Fit) (hflows : s.Flows given turns groups) (line : List Byte) :
    ∃ groups', (s.append line).Flows given turns groups' := by
  obtain ⟨current, hcurrent⟩ := Option.ne_none_iff_exists'.mp hfit.current
  have hfilled := hflows.filled
  unfold backlog at hfilled
  rw [hcurrent, List.map_append] at hfilled
  obtain ⟨before, rest, rfl, hbefore, hlast⟩ := List.append_eq_map_iff.mp hfilled
  obtain ⟨last, rfl, hcontent⟩ := List.map_eq_singleton_iff.mp hlast
  rw [content_some] at hcontent
  have hlines : (turns.flatMap Turn.groups ++ (before ++ [last])).flatten ++ held line =
      (s.appended ++ [line]).filter fun line ↦ Fits line := by
    rw [List.filter_append, hflows.lines]
    rfl
  unfold append
  rw [hcurrent]
  dsimp only
  split
  next hroom =>
    have hfits : Fits line := by
      unfold FixedBuffer.avail at hroom
      exact hroom.trans_le (Nat.sub_le _ _)
    refine ⟨before ++ [last ++ held line], ?_, ?_, hflows.blocks, hflows.output⟩
    · rw [List.map_append, hbefore]
      unfold backlog
      simp [FixedBuffer.content_append hroom, hcontent, held_of_fits hfits]
    · rw [← hlines]
      simp
  next hfull =>
    have hfresh : (s.nextBuffer.getD .new).content = [] := by
      cases hnext : s.nextBuffer with
      | none => rfl
      | some buffer => exact hfit.empty buffer (.inr (.inr hnext))
    refine ⟨before ++ [last] ++ [held line], ?_, ?_, hflows.blocks, hflows.output⟩
    · rw [List.map_append, List.map_append, hbefore]
      unfold backlog
      simp [content_append_fresh hfresh, hcontent]
    · rw [← hlines]
      simp

/-- The swap takes over the buffers for the next turn. -/
theorem flows_swap (hfit : s.Fit) (hbetween : s.Between) (hflows : s.Flows given turns groups) :
    s.swap.Flows given turns (groups ++ [[]]) := by
  obtain ⟨hbuffer, -, hwriteLog⟩ := hfit.stocked.ready hbetween
  obtain ⟨buffer, hbuffer⟩ := Option.ne_none_iff_exists'.mp hbuffer
  have hempty : buffer.content = [] := hfit.empty buffer (.inl hbuffer)
  have hblocks := hflows.blocks
  rw [hbetween.atRest.outstanding] at hblocks
  refine ⟨?_, ?_, hblocks, hflows.output⟩
  · have hswapped : s.swap.backlog = s.backlog ++ [some buffer] := by
      rw [hbetween.atRest.backlog]
      unfold backlog swap
      simp [hwriteLog, hbuffer]
    rw [hswapped, List.map_append, hflows.filled]
    simp [hempty]
  · have hlines := hflows.lines
    rw [← List.append_assoc, List.flatten_append, hlines]
    simp [swap]

/-- Sifting tells what is going to be given in the turn. -/
theorem blocks_sift (hphase : s.phase = .sift) {taken : List (List (List Byte))}
    (htaken : taken.map List.flatten = s.writeLog.map content) (now : List Byte) :
    (s.block now).toList ++ (s.sift now).outstanding.map content = Turn.blocks ⟨now, taken⟩ := by
  have hlength : taken.length = s.writeLog.length := by
    rw [← List.length_map List.flatten, htaken, List.length_map]
  have hfirst : (taken.take 2).map List.flatten = (s.writeLog.take 2).map content := by
    rw [List.map_take, List.map_take, htaken]
  unfold Turn.blocks
  rw [hlength, hfirst, htaken]
  unfold block sift
  rw [hphase]
  dsimp only
  split <;> rfl

/-- Sifting makes a turn of what has been taken over. -/
theorem flows_sift (hphase : s.phase = .sift) (hflows : s.Flows given turns groups)
    (now : List Byte) : ∃ turns' groups',
      (s.sift now).Flows (given ++ (s.block now).toList) turns' groups' := by
  have hfilled := hflows.filled
  unfold backlog at hfilled
  rw [if_pos hphase, List.append_assoc, List.map_append] at hfilled
  obtain ⟨taken, rest, rfl, htaken, hrest⟩ := List.append_eq_map_iff.mp hfilled
  have houtstanding : s.outstanding = [] := by
    unfold outstanding
    rw [hphase]
  have hblocks := hflows.blocks
  rw [houtstanding, List.map_nil, List.append_nil] at hblocks
  refine ⟨turns ++ [⟨now, taken⟩], rest, ?_, ?_, ?_, ?_⟩
  · rw [hrest]
    unfold backlog sift
    split <;> simp
  · have happended : (s.sift now).appended = s.appended := by
      unfold sift
      split <;> rfl
    rw [happended, ← hflows.lines]
    simp
  · rw [List.append_assoc, blocks_sift hphase htaken, hblocks, List.flatMap_append]
    simp
  · unfold sift block
    rw [hphase]
    dsimp only
    split <;> simp [hflows.output]

/-- A buffer is given to the `logfile`, unless they all have been. -/
theorem flows_write (hfit : s.Fit) {written : ℕ} (hphase : s.phase = .writing written)
    (hflows : s.Flows given turns groups) (now : List Byte) :
    (s.write written).Flows (given ++ (s.block now).toList) turns groups := by
  have hstocked := hfit.stocked
  rw [Stocked, hphase] at hstocked
  have hbacklog : s.backlog = s.buffers ++ [s.currentBuffer] := by
    unfold backlog
    rw [hphase]
    rfl
  have houtstanding : s.outstanding = s.writeLog.drop written := by
    unfold outstanding
    rw [hphase]
  cases hnext : s.writeLog[written]? with
  | none =>
    have hblock : s.block now = none := by
      unfold block
      simp [hphase, hnext]
    have hwrite : s.write written = { s with phase := .recycle } := by
      unfold write
      rw [hnext]
    have hdone : s.outstanding = [] := by
      rw [houtstanding, List.drop_eq_nil_of_le (List.getElem?_eq_none_iff.mp hnext)]
    rw [hblock, hwrite, Option.toList_none, List.append_nil]
    exact hflows.move hbacklog.symm hdone.symm rfl rfl
  | some buffer =>
    obtain ⟨buffer, rfl⟩ := Option.ne_none_iff_exists'.mp
      (hstocked.2.2 buffer (List.mem_of_getElem? hnext))
    have hblock : s.block now = some buffer.content := by
      unfold block
      simp [hphase, hnext]
    have hwrite : s.write written =
        { s with output := s.output ++ buffer.content, phase := .writing (written + 1) } := by
      unfold write
      rw [hnext]
    obtain ⟨hlt, hget⟩ := List.getElem?_eq_some_iff.mp hnext
    have hblocks := hflows.blocks
    rw [houtstanding, List.drop_eq_getElem_cons hlt, hget, List.map_cons, content_some] at hblocks
    rw [hblock, hwrite]
    refine ⟨?_, hflows.lines, ?_, ?_⟩
    · rw [← hflows.filled, hbacklog]
      rfl
    · rw [← hblocks, List.append_assoc]
      rfl
    · simp [hflows.output]

theorem recycle_cases (s : AsyncLogging) : s.recycle = { s with undefined := true } ∨
    ∃ newBuffer1 newBuffer2, s.recycle = { s with
      newBuffer1 := newBuffer1, newBuffer2 := newBuffer2, writeLog := [], phase := .check } := by
  unfold recycle
  dsimp only
  cases refill s.newBuffer1 (if 2 < s.writeLog.length then s.writeLog.take 2 else s.writeLog) with
  | none => exact .inl rfl
  | some first =>
    dsimp only
    cases refill s.newBuffer2 first.2 with
    | none => exact .inl rfl
    | some second => exact .inr ⟨_, _, rfl⟩

/-- From one point at rest to another, with the same buffers. -/
theorem Flows.rest (hflows : s.Flows given turns groups) (hrest : s.AtRest) (hrest' : s'.AtRest)
    (hbuffers : s'.buffers = s.buffers) (hcurrent : s'.currentBuffer = s.currentBuffer)
    (happended : s'.appended = s.appended) (houtput : s'.output = s.output) :
    s'.Flows given turns groups := by
  refine hflows.move ?_ ?_ happended houtput
  · rw [hrest'.backlog, hrest.backlog, hbuffers, hcurrent]
  · rw [hrest'.outstanding, hrest.outstanding]

theorem flows_recycle (hphase : s.phase = .recycle) (hflows : s.Flows given turns groups) :
    s.recycle.Flows given turns groups := by
  rcases recycle_cases s with hrecycle | ⟨newBuffer1, newBuffer2, hrecycle⟩
  · rw [hrecycle]
    exact hflows.move rfl rfl rfl rfl
  · rw [hrecycle]
    exact hflows.rest (by simp [AtRest, hphase]) (by simp [AtRest]) rfl rfl rfl rfl

theorem flows_work {now : List Byte} (hfit : s.Fit) (hflows : s.Flows given turns groups)
    (hwork : s.work now = some s') :
    ∃ turns' groups', s'.Flows (given ++ (s.block now).toList) turns' groups' := by
  have hblock (hrest : s.AtRest) : given ++ (s.block now).toList = given := by
    rw [hrest.block, Option.toList_none, List.append_nil]
  unfold work at hwork
  split at hwork
  next => cases hwork
  next hphase =>
    have hrest : s.AtRest := Between.atRest (.inl hphase)
    cases hwork
    rw [hblock hrest]
    refine ⟨turns, groups, hflows.rest hrest ?_ rfl rfl rfl rfl⟩
    unfold AtRest
    split <;> simp
  next hphase =>
    have hbetween : s.Between := .inr (.inl hphase)
    cases hwork
    rw [hblock hbetween.atRest]
    split
    · exact ⟨turns, groups, hflows.rest hbetween.atRest (by simp [AtRest]) rfl rfl rfl rfl⟩
    · exact ⟨turns, _, flows_swap hfit hbetween hflows⟩
  next hphase =>
    have hbetween : s.Between := .inr (.inr hphase)
    cases hwork
    rw [hblock hbetween.atRest]
    exact ⟨turns, _, flows_swap hfit hbetween hflows⟩
  next hphase =>
    cases hwork
    exact flows_sift hphase hflows now
  next written hphase =>
    cases hwork
    exact ⟨turns, groups, flows_write hfit hphase hflows now⟩
  next hphase =>
    cases hwork
    rw [hblock (by simp [AtRest, hphase])]
    exact ⟨turns, groups, flows_recycle hphase hflows⟩
  next => cases hwork

/-- Only a thread that has been started takes a step. -/
theorem born_of_work {now : List Byte} (hwork : s.work now = some s') :
    s.phase ≠ .unborn ∧ s'.phase ≠ .unborn := by
  unfold work at hwork
  split at hwork
  next => cases hwork
  next hphase =>
    cases hwork
    split <;> simp [hphase]
  next hphase =>
    cases hwork
    split <;> simp [hphase, swap]
  next hphase =>
    cases hwork
    simp [hphase, swap]
  next hphase =>
    cases hwork
    unfold sift
    split <;> simp [hphase]
  next written hphase =>
    cases hwork
    unfold write
    split <;> simp [hphase]
  next hphase =>
    cases hwork
    rcases recycle_cases s with hrecycle | ⟨newBuffer1, newBuffer2, hrecycle⟩
    · simp [hrecycle, hphase]
    · simp [hrecycle, hphase]
  next => cases hwork

end AsyncLogging

/-! ## The files -/

/-- The log with the `logfile` that its thread has, from `start` on. -/
structure LogPipeline where
  log : AsyncLogging
  files : Option LogFiles

namespace LogPipeline

variable (gmtime : ℤ → Tm) (basename : List Byte) (rollSize : ℤ)

/-- A step of the log. Where the thread calls `append` of the `logfile`, `fwrite_unlocked` gives
these answers and the clock shows these times. -/
inductive Act where
  | append (line : List Byte)
  | start (now : ℤ)
  | stop
  | work (told : List Byte) (answers : List ℕ) (now later : ℤ)

/-- `append` of the `logfile`. -/
def give (block : List Byte) (answers : List ℕ) (now later : ℤ) (files : Option LogFiles) :
    Option LogFiles :=
  files.bind (LogFiles.step gmtime ⟨⟨block, now, later⟩, answers⟩)

def step : Act → LogPipeline → Option LogPipeline
  | .append line, s => (s.log.step (.append line)).map fun log ↦ { s with log := log }
  | .start now, s => (s.log.step .start).map fun log ↦
    { log := log, files := some (.new gmtime basename rollSize 15 1024 now) }
  | .stop, s => (s.log.step .stop).map fun log ↦ { s with log := log }
  | .work told answers now later, s => (s.log.step (.work told)).bind fun log ↦
    match s.log.block told with
    | none => some { s with log := log }
    | some block => (give gmtime block answers now later s.files).map fun files ↦
      { log := log, files := some files }

/-- A log that has not been started. -/
def new : LogPipeline := ⟨.new, none⟩

/-- What the `logfile` has been given, call by call. -/
def given (s : LogPipeline) : List (List Byte) :=
  s.files.elim [] fun files ↦ files.appended.map Prod.snd

/-- No null pointer is followed and nothing is taken from an empty vector; each line that a buffer
has room for is in one group of one turn, or in a buffer, in order; the `logfile` has been given the
blocks of the turns, but for those that the current turn is still to write; and the files hold what
it has been given, in order, each block in one file. -/
structure Recorded (s : LogPipeline) : Prop where
  defined : s.log.undefined = false
  started : s.files = none ↔ s.log.phase = .unborn
  flows : ∃ turns groups, s.log.Flows s.given turns groups
  files : ∀ files, s.files = some files → files.Kept gmtime

/-- A state that the steps lead to. -/
structure Regular (s : LogPipeline) : Prop where
  fit : s.log.Fit
  started : s.files = none ↔ s.log.phase = .unborn
  flows : ∃ turns groups, s.log.Flows s.given turns groups
  files : ∀ files, s.files = some files → files.Regular gmtime

variable {gmtime : ℤ → Tm} {basename : List Byte} {rollSize : ℤ} {s s' : LogPipeline}

theorem Regular.recorded (hregular : s.Regular gmtime) : s.Recorded gmtime where
  defined := hregular.fit.defined
  started := hregular.started
  flows := hregular.flows
  files files hfiles := (hregular.files files hfiles).kept

theorem regular_new : new.Regular gmtime where
  fit := AsyncLogging.fit_new
  started := ⟨fun _ ↦ rfl, fun _ ↦ rfl⟩
  flows := ⟨[], [[]], AsyncLogging.flows_new⟩
  files _ hnone := absurd hnone.symm (Option.some_ne_none _)

theorem appended_step {act : LogAppend} {files files' : LogFiles}
    (hstep : files.step gmtime act = some files') :
    files'.appended = files.appended ++ [(act.call.now, act.call.logline)] := by
  unfold LogFiles.step at hstep
  dsimp only at hstep
  split_ifs at hstep
  cases hroll : files.log.rollTime act.call.logline act.call.now act.call.later with
  | none =>
    rw [hroll] at hstep
    cases hstep
    rfl
  | some time =>
    rw [hroll] at hstep
    cases hstep
    rfl

theorem regular_append {line : List Byte} (hregular : s.Regular gmtime)
    (hstep : step gmtime basename rollSize (.append line) s = some s') : s'.Regular gmtime := by
  obtain ⟨log, hlog, rfl⟩ := Option.map_eq_some_iff.mp hstep
  unfold AsyncLogging.step at hlog
  rw [if_neg (by simp [hregular.fit.defined])] at hlog
  cases hlog
  obtain ⟨turns, groups, hflows⟩ := hregular.flows
  refine ⟨AsyncLogging.fit_append hregular.fit line, ?_, ?_, hregular.files⟩
  · rw [AsyncLogging.phase_append]
    exact hregular.started
  · exact ⟨turns, AsyncLogging.flows_append hregular.fit hflows line⟩

theorem regular_start {now : ℤ} (hregular : s.Regular gmtime)
    (hstep : step gmtime basename rollSize (.start now) s = some s') : s'.Regular gmtime := by
  obtain ⟨log, hlog, rfl⟩ := Option.map_eq_some_iff.mp hstep
  unfold AsyncLogging.step at hlog
  rw [if_neg (by simp [hregular.fit.defined])] at hlog
  dsimp only at hlog
  split_ifs at hlog with hphase
  cases hlog
  obtain ⟨turns, groups, hflows⟩ := hregular.flows
  have hgiven : s.given = [] := by
    unfold given
    rw [hregular.started.mpr hphase]
    rfl
  rw [hgiven] at hflows
  refine ⟨AsyncLogging.fit_start hregular.fit hphase, by simp, ⟨turns, groups, ?_⟩, ?_⟩
  · exact hflows.rest (by simp [AsyncLogging.AtRest, hphase]) (by simp [AsyncLogging.AtRest]) rfl
      rfl rfl rfl
  · intro files hfiles
    cases hfiles
    exact LogFiles.regular_new basename rollSize 15 1024 now

theorem regular_stop (hregular : s.Regular gmtime)
    (hstep : step gmtime basename rollSize .stop s = some s') : s'.Regular gmtime := by
  obtain ⟨log, hlog, rfl⟩ := Option.map_eq_some_iff.mp hstep
  unfold AsyncLogging.step at hlog
  rw [if_neg (by simp [hregular.fit.defined])] at hlog
  dsimp only at hlog
  split_ifs at hlog
  cases hlog
  obtain ⟨turns, groups, hflows⟩ := hregular.flows
  have hfit := hregular.fit
  exact ⟨⟨hfit.defined, hfit.current, hfit.spare, hfit.whole, hfit.empty, hfit.stocked⟩,
    hregular.started, ⟨turns, groups, hflows.move rfl rfl rfl rfl⟩, hregular.files⟩

theorem regular_work {told : List Byte} {answers : List ℕ} {now later : ℤ}
    (hregular : s.Regular gmtime)
    (hstep : step gmtime basename rollSize (.work told answers now later) s = some s') :
    s'.Regular gmtime := by
  obtain ⟨log, hlog, hgive⟩ := Option.bind_eq_some_iff.mp hstep
  unfold AsyncLogging.step at hlog
  rw [if_neg (by simp [hregular.fit.defined])] at hlog
  change s.log.work told = some log at hlog
  obtain ⟨turns, groups, hflows⟩ := hregular.flows
  obtain ⟨turns', groups', hflows'⟩ := AsyncLogging.flows_work hregular.fit hflows hlog
  obtain ⟨hborn, hborn'⟩ := AsyncLogging.born_of_work hlog
  have hfiles : s.files ≠ none := hregular.started.not.mpr hborn
  cases hblock : s.log.block told with
  | none =>
    rw [hblock] at hgive hflows'
    cases hgive
    rw [Option.toList_none, List.append_nil] at hflows'
    exact ⟨AsyncLogging.fit_work hregular.fit hlog, by simp [hfiles, hborn'],
      ⟨turns', groups', hflows'⟩, hregular.files⟩
  | some block =>
    rw [hblock] at hgive hflows'
    obtain ⟨files', hfiles', rfl⟩ := Option.map_eq_some_iff.mp hgive
    obtain ⟨files, hfiles, happend⟩ := Option.bind_eq_some_iff.mp hfiles'
    have hgiven : given ⟨log, some files'⟩ = s.given ++ (some block).toList := by
      unfold given
      rw [hfiles]
      simp [appended_step happend]
    refine ⟨AsyncLogging.fit_work hregular.fit hlog, by simp [hborn'], ⟨turns', groups', ?_⟩, ?_⟩
    · rw [hgiven]
      exact hflows'
    · intro other hother
      cases hother
      exact LogFiles.regular_step (hregular.files files hfiles) happend

theorem regular_step {act : Act} (hregular : s.Regular gmtime)
    (hstep : step gmtime basename rollSize act s = some s') : s'.Regular gmtime := by
  cases act with
  | append line => exact regular_append hregular hstep
  | start now => exact regular_start hregular hstep
  | stop => exact regular_stop hregular hstep
  | work told answers now later => exact regular_work hregular hstep

end LogPipeline

end LWebServer
