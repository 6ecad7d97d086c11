import LWebServer.Log.AsyncLogging

/-!
# The rotation of the log's buffers

Four buffers go round between the threads that log and the thread that writes. Between two swaps at
most one spare buffer is used up before a full one is put aside, so there is always enough in
`WriteLog` to make up for what the swap has taken.
-/

namespace LWebServer.AsyncLogging

open Schedule

/-- The bytes of a buffer, none for a null pointer. -/
def content (buffer : BufferPtr) : List Byte := buffer.elim [] FixedBuffer.content

/-- The bytes of buffers in order. -/
def contents (buffers : List BufferPtr) : List Byte := buffers.flatMap content

/-- The buffers of `WriteLog` that have not been written. -/
def unwritten (s : AsyncLogging) : List BufferPtr :=
  match s.phase with
  | .sift => s.writeLog
  | .writing written => s.writeLog.drop written
  | _ => []

/-- What has been appended and not been taken over by `AsyncFunc`. -/
def pending (s : AsyncLogging) : List Byte := contents s.buffers ++ content s.currentBuffer

/-- What has been written or taken over by `AsyncFunc`. -/
def claimed (s : AsyncLogging) : List Byte := s.output ++ contents s.unwritten

/-- Between two turns of the loop of `AsyncFunc`, up to the swap. -/
def Between (s : AsyncLogging) : Prop :=
  s.phase = .check ∨ s.phase = .enter ∨ s.phase = .waiting

/-- No null pointer is followed and nothing is taken from an empty vector; at the start of a turn
the buffers that are needed are there; a buffer that is used again is empty; and the file, what is
still to be written of `WriteLog`, `buffers_` and `currentBuffer_` hold the lines in order. -/
structure Sound (s : AsyncLogging) : Prop where
  defined : s.undefined = false
  ready : s.Between → s.newBuffer1 ≠ none ∧ s.newBuffer2 ≠ none ∧ s.currentBuffer ≠ none ∧
    (s.nextBuffer = none → s.buffers ≠ [])
  empty : ∀ buffer, s.newBuffer1 = some buffer ∨ s.newBuffer2 = some buffer ∨
    s.nextBuffer = some buffer → buffer.content = []
  order : s.output ++ contents s.unwritten ++ contents s.buffers ++ content s.currentBuffer =
    s.appended.flatten

/-- What `AsyncFunc` has at hand. -/
def Stocked (s : AsyncLogging) : Prop :=
  match s.phase with
  | .unborn => s.writeLog = []
  | .check => s.newBuffer1 ≠ none ∧ s.newBuffer2 ≠ none ∧ s.writeLog = []
  | .enter => s.newBuffer1 ≠ none ∧ s.newBuffer2 ≠ none ∧ s.writeLog = []
  | .waiting => s.newBuffer1 ≠ none ∧ s.newBuffer2 ≠ none ∧ s.writeLog = []
  | .finished => s.writeLog = []
  | _ => s.writeLog ≠ [] ∧ (s.newBuffer2 = none → 2 ≤ s.writeLog.length) ∧
      ∀ buffer ∈ s.writeLog, buffer ≠ none

/-- A state that the log reaches as long as not too many buffers pile up. -/
structure Regular (s : AsyncLogging) : Prop where
  defined : s.undefined = false
  current : s.currentBuffer ≠ none
  spare : s.nextBuffer = none → s.buffers ≠ []
  whole : ∀ buffer ∈ s.buffers, buffer ≠ none
  empty : ∀ buffer, s.newBuffer1 = some buffer ∨ s.newBuffer2 = some buffer ∨
    s.nextBuffer = some buffer → buffer.content = []
  stocked : s.Stocked
  order : s.claimed ++ s.pending = s.appended.flatten

/-- Lines fit in a buffer. -/
def Short : Act → Prop
  | .append line => line.length < largerBuffer
  | _ => True

@[simp]
theorem content_some (buffer : FixedBuffer largerBuffer) :
    content (some buffer) = buffer.content := rfl

@[simp]
theorem content_none : content none = [] := rfl

@[simp]
theorem contents_nil : contents [] = [] := rfl

@[simp]
theorem contents_cons (buffer : BufferPtr) (buffers : List BufferPtr) :
    contents (buffer :: buffers) = content buffer ++ contents buffers := rfl

@[simp]
theorem contents_append (first second : List BufferPtr) :
    contents (first ++ second) = contents first ++ contents second := List.flatMap_append

theorem unwritten_sift {s : AsyncLogging} (hphase : s.phase = .sift) :
    s.unwritten = s.writeLog := by
  rw [unwritten, hphase]

theorem unwritten_writing {s : AsyncLogging} {written : ℕ} (hphase : s.phase = .writing written) :
    s.unwritten = s.writeLog.drop written := by
  rw [unwritten, hphase]

theorem unwritten_recycle {s : AsyncLogging} (hphase : s.phase = .recycle) :
    s.unwritten = [] := by
  rw [unwritten, hphase]

theorem Between.unwritten_eq {s : AsyncLogging} (hbetween : s.Between) : s.unwritten = [] := by
  rcases hbetween with hphase | hphase | hphase <;> rw [unwritten, hphase]

/-- At the start of a turn the two spare buffers are there and `WriteLog` is empty. -/
theorem Stocked.ready {s : AsyncLogging} (hstocked : s.Stocked) (hbetween : s.Between) :
    s.newBuffer1 ≠ none ∧ s.newBuffer2 ≠ none ∧ s.writeLog = [] := by
  rw [Stocked] at hstocked
  rcases hbetween with hphase | hphase | hphase <;> rwa [hphase] at hstocked

theorem Regular.sound {s : AsyncLogging} (hregular : s.Regular) : s.Sound where
  defined := hregular.defined
  ready := by
    intro hbetween
    obtain ⟨hbuffer1, hbuffer2, -⟩ := hregular.stocked.ready hbetween
    exact ⟨hbuffer1, hbuffer2, hregular.current, hregular.spare⟩
  empty := hregular.empty
  order := by
    have horder := hregular.order
    unfold claimed pending at horder
    rw [← horder]
    simp only [List.append_assoc]

theorem regular_new : new.Regular where
  defined := rfl
  current := Option.some_ne_none _
  spare := fun hnone ↦ absurd hnone (Option.some_ne_none _)
  whole := fun _ hmem ↦ by cases hmem
  empty := by
    rintro buffer (h | h | h) <;> cases h
    rfl
  stocked := rfl
  order := rfl

theorem regular_append {s : AsyncLogging} {line : List Byte} (hregular : s.Regular)
    (hshort : line.length < largerBuffer) : (s.append line).Regular := by
  obtain ⟨current, hcurrent⟩ := Option.ne_none_iff_exists'.mp hregular.current
  have horder := hregular.order
  rw [pending, hcurrent, content_some] at horder
  unfold append
  rw [hcurrent]
  dsimp only
  split
  next hroom =>
    refine ⟨hregular.defined, Option.some_ne_none _, hregular.spare, hregular.whole,
      hregular.empty, hregular.stocked, ?_⟩
    change s.claimed ++ (contents s.buffers ++ (current.append line).content) = _
    rw [FixedBuffer.content_append hroom, List.flatten_append, List.flatten_singleton, ← horder]
    simp only [List.append_assoc]
  next =>
    have hfresh : (s.nextBuffer.getD .new).content = [] := by
      cases hnext : s.nextBuffer with
      | none => rfl
      | some buffer => exact hregular.empty buffer (.inr (.inr hnext))
    refine ⟨hregular.defined, Option.some_ne_none _, fun _ ↦ by simp, ?_, ?_,
      hregular.stocked, ?_⟩
    · intro buffer hmem
      rcases List.mem_append.mp hmem with hmem | hmem
      · exact hregular.whole buffer hmem
      · rw [List.mem_singleton.mp hmem]
        exact Option.some_ne_none _
    · rintro buffer (hbuffer | hbuffer | hbuffer)
      · exact hregular.empty buffer (.inl hbuffer)
      · exact hregular.empty buffer (.inr (.inl hbuffer))
      · cases hbuffer
    · change s.claimed ++ (contents (s.buffers ++ [some current]) ++
        ((s.nextBuffer.getD .new).append line).content) = _
      rw [FixedBuffer.content_append_of_empty hfresh hshort, List.flatten_append,
        List.flatten_singleton, ← horder]
      simp

/-- The swap takes over all lines, and the thread that logs gets the spare buffers. -/
theorem regular_swap {s : AsyncLogging} (hregular : s.Regular)
    (hbetween : s.Between) : s.swap.Regular := by
  obtain ⟨hbuffer1, hbuffer2, hwriteLog⟩ := hregular.stocked.ready hbetween
  have hnext (hnone : s.swap.nextBuffer = none ∨ s.swap.newBuffer2 = none) :
      s.nextBuffer = none := by
    cases hnext : s.nextBuffer with
    | none => rfl
    | some next => simp [swap, hnext, hbuffer2] at hnone
  refine ⟨hregular.defined, hbuffer1, ?_, ?_, ?_, ⟨by simp [swap], ?_, ?_⟩, ?_⟩
  · intro hnone
    have hspare : s.swap.nextBuffer = s.newBuffer2 := by
      simp [swap, hnext (.inl hnone)]
    exact absurd (hspare ▸ hnone) hbuffer2
  · intro buffer hmem
    change buffer ∈ s.writeLog at hmem
    rw [hwriteLog] at hmem
    cases hmem
  · have hold (buffer : FixedBuffer largerBuffer)
        (hbuffer : s.swap.newBuffer2 = some buffer ∨ s.swap.nextBuffer = some buffer) :
        s.newBuffer2 = some buffer ∨ s.nextBuffer = some buffer := by
      cases hspare : s.nextBuffer <;> simpa [swap, hspare] using hbuffer
    rintro buffer (hbuffer | hbuffer)
    · cases hbuffer
    · exact hregular.empty buffer (.inr (hold buffer hbuffer))
  · intro hnone
    have hlength : 0 < s.buffers.length :=
      List.length_pos_iff.mpr (hregular.spare (hnext (.inr hnone)))
    change 2 ≤ (s.buffers ++ [s.currentBuffer]).length
    rw [List.length_append, List.length_singleton]
    omega
  · intro buffer hmem
    rcases List.mem_append.mp hmem with hmem | hmem
    · exact hregular.whole buffer hmem
    · rw [List.mem_singleton.mp hmem]
      exact hregular.current
  · obtain ⟨buffer1, hsome⟩ := Option.ne_none_iff_exists'.mp hbuffer1
    have hempty : buffer1.content = [] := hregular.empty buffer1 (.inl hsome)
    calc s.swap.claimed ++ s.swap.pending
        = (s.output ++ contents (s.buffers ++ [s.currentBuffer])) ++
            (contents s.writeLog ++ content s.newBuffer1) := rfl
      _ = s.claimed ++ s.pending := by
        rw [claimed, pending, hbetween.unwritten_eq, hwriteLog, hsome, content_some, hempty]
        simp
      _ = s.appended.flatten := hregular.order

theorem regular_write {s : AsyncLogging} {written : ℕ} (hregular : s.Regular)
    (hphase : s.phase = .writing written) : (s.write written).Regular := by
  have hstocked := hregular.stocked
  have horder := hregular.order
  rw [Stocked, hphase] at hstocked
  rw [claimed, unwritten_writing hphase] at horder
  unfold write
  split
  next hnone =>
    refine ⟨hregular.defined, hregular.current, hregular.spare, hregular.whole, hregular.empty,
      hstocked, ?_⟩
    rw [← horder, List.drop_eq_nil_of_le (List.getElem?_eq_none_iff.mp hnone)]
    rfl
  next hnull =>
    exact absurd rfl (hstocked.2.2 none (List.mem_of_getElem? hnull))
  next buffer hbuffer =>
    refine ⟨hregular.defined, hregular.current, hregular.spare, hregular.whole, hregular.empty,
      hstocked, ?_⟩
    obtain ⟨hlt, hget⟩ := List.getElem?_eq_some_iff.mp hbuffer
    change (s.output ++ buffer.content) ++ contents (s.writeLog.drop (written + 1)) ++ s.pending = _
    rw [← horder, List.drop_eq_getElem_cons hlt, hget, contents_cons, content_some]
    simp only [List.append_assoc]

/-- A buffer for the thread that logs is there or is left over from the log, and it is empty. -/
theorem refill_eq (newBuffer : BufferPtr) {writeLog : List BufferPtr}
    (hleft : newBuffer = none → writeLog ≠ []) (hwhole : ∀ buffer ∈ writeLog, buffer ≠ none)
    (hempty : ∀ buffer, newBuffer = some buffer → buffer.content = []) :
    ∃ buffer rest, refill newBuffer writeLog = some (some buffer, rest) ∧
      buffer.content = [] ∧ writeLog.length ≤ rest.length + 1 ∧ rest <+: writeLog := by
  cases newBuffer with
  | some buffer => exact ⟨buffer, writeLog, rfl, hempty buffer rfl, by omega, List.prefix_rfl⟩
  | none =>
    have hne : writeLog ≠ [] := hleft rfl
    obtain ⟨buffer, hbuffer⟩ :=
      Option.ne_none_iff_exists'.mp (hwhole _ (List.getLast_mem hne))
    refine ⟨buffer.setSpotBegin, writeLog.dropLast, ?_, rfl, ?_, List.dropLast_prefix writeLog⟩
    · rw [refill, List.getLast?_eq_getLast_of_ne_nil hne, hbuffer]
    · rw [List.length_dropLast]
      omega

theorem regular_recycle {s : AsyncLogging} (hregular : s.Regular) (hphase : s.phase = .recycle) :
    s.recycle.Regular := by
  have hstocked := hregular.stocked
  rw [Stocked, hphase] at hstocked
  obtain ⟨hne, htwo, hwhole⟩ := hstocked
  have hpos : 0 < s.writeLog.length := List.length_pos_iff.mpr hne
  have hkept : (if 2 < s.writeLog.length then s.writeLog.take 2 else s.writeLog) =
      s.writeLog.take 2 := by
    split
    · rfl
    · exact (List.take_of_length_le (by omega)).symm
  have hlength : (s.writeLog.take 2).length = min 2 s.writeLog.length := List.length_take
  obtain ⟨buffer1, rest, hrefill1, hempty1, hrest, hinit⟩ :=
    refill_eq s.newBuffer1
      (fun _ ↦ List.ne_nil_of_length_pos (show 0 < (s.writeLog.take 2).length by omega))
      (fun buffer hmem ↦ hwhole buffer (List.mem_of_mem_take hmem))
      (fun buffer hbuffer ↦ hregular.empty buffer (.inl hbuffer))
  have hleft (hnone : s.newBuffer2 = none) : rest ≠ [] := by
    have hlog : 2 ≤ s.writeLog.length := htwo hnone
    exact List.ne_nil_of_length_pos (by omega)
  obtain ⟨buffer2, rest', hrefill2, hempty2, -, -⟩ :=
    refill_eq s.newBuffer2 hleft
      (fun buffer hmem ↦ hwhole buffer (List.mem_of_mem_take (hinit.subset hmem)))
      (fun buffer hbuffer ↦ hregular.empty buffer (.inr (.inl hbuffer)))
  have hrecycle : s.recycle = { s with
      newBuffer1 := some buffer1
      newBuffer2 := some buffer2
      writeLog := []
      phase := .check } := by
    unfold recycle
    dsimp only
    rw [hkept, hrefill1]
    dsimp only
    rw [hrefill2]
  rw [hrecycle]
  refine ⟨hregular.defined, hregular.current, hregular.spare, hregular.whole, ?_,
    ⟨Option.some_ne_none _, Option.some_ne_none _, rfl⟩, ?_⟩
  · rintro buffer (hbuffer | hbuffer | hbuffer)
    · cases hbuffer
      exact hempty1
    · cases hbuffer
      exact hempty2
    · exact hregular.empty buffer (.inr (.inr hbuffer))
  · have horder := hregular.order
    rw [claimed, unwritten_recycle hphase] at horder
    exact horder

theorem regular_start {s : AsyncLogging} (hregular : s.Regular) (hphase : s.phase = .unborn) :
    { s with
      running := true
      phase := .check
      newBuffer1 := some .new
      newBuffer2 := some .new : AsyncLogging }.Regular := by
  have hstocked := hregular.stocked
  have horder := hregular.order
  rw [Stocked, hphase] at hstocked
  rw [claimed, unwritten, hphase] at horder
  refine ⟨hregular.defined, hregular.current, hregular.spare, hregular.whole, ?_,
    ⟨Option.some_ne_none _, Option.some_ne_none _, hstocked⟩, horder⟩
  rintro buffer (hbuffer | hbuffer | hbuffer)
  · cases hbuffer
    rfl
  · cases hbuffer
    rfl
  · exact hregular.empty buffer (.inr (.inr hbuffer))

theorem regular_stop {s : AsyncLogging} (hregular : s.Regular) :
    { s with running := false : AsyncLogging }.Regular :=
  ⟨hregular.defined, hregular.current, hregular.spare, hregular.whole, hregular.empty,
    hregular.stocked, hregular.order⟩

/-- Moving on between two places where nothing is taken over or given back -/
theorem Regular.move {s : AsyncLogging} (phase : LogPhase) (hregular : s.Regular)
    (hstocked : { s with phase := phase : AsyncLogging }.Stocked)
    (hunwritten : { s with phase := phase : AsyncLogging }.unwritten = s.unwritten) :
    { s with phase := phase : AsyncLogging }.Regular := by
  refine ⟨hregular.defined, hregular.current, hregular.spare, hregular.whole, hregular.empty,
    hstocked, ?_⟩
  rw [← hregular.order, claimed, claimed, hunwritten]
  rfl

theorem regular_work {now : List Byte} {s s' : AsyncLogging} (hfew : s.writeLog.length ≤ 25)
    (hregular : s.Regular) (hwork : s.work now = some s') : s'.Regular := by
  have hstocked := hregular.stocked
  unfold Stocked at hstocked
  unfold work at hwork
  split at hwork
  next => cases hwork
  next hphase =>
    rw [hphase] at hstocked
    have hbetween : s.Between := .inl hphase
    cases hwork
    split
    · exact hregular.move .enter hstocked hbetween.unwritten_eq.symm
    · exact hregular.move .finished hstocked.2.2 hbetween.unwritten_eq.symm
  next hphase =>
    rw [hphase] at hstocked
    have hbetween : s.Between := .inr (.inl hphase)
    cases hwork
    split
    · exact hregular.move .waiting hstocked hbetween.unwritten_eq.symm
    · exact regular_swap hregular hbetween
  next hphase =>
    cases hwork
    exact regular_swap hregular (.inr (.inr hphase))
  next hphase =>
    rw [hphase] at hstocked
    cases hwork
    rw [sift, if_neg (by omega)]
    refine hregular.move (.writing 0) hstocked ?_
    rw [unwritten_sift hphase, unwritten_writing rfl, List.drop_zero]
  next written hphase =>
    cases hwork
    exact regular_write hregular hphase
  next hphase =>
    cases hwork
    exact regular_recycle hregular hphase
  next => cases hwork

/-- One step keeps the buffers in order. -/
theorem regular_step {act : Act} {s s' : AsyncLogging} (hact : Short act)
    (hfew : s.writeLog.length ≤ 25) (hregular : s.Regular) (hstep : step act s = some s') :
    s'.Regular := by
  unfold step at hstep
  rw [if_neg (by simp [hregular.defined])] at hstep
  cases act with
  | append line =>
    cases hstep
    exact regular_append hregular hact
  | start =>
    dsimp only at hstep
    split at hstep
    next hphase =>
      cases hstep
      exact regular_start hregular hphase
    next => cases hstep
  | stop =>
    dsimp only at hstep
    split at hstep
    · cases hstep
      exact regular_stop hregular
    · cases hstep
  | work now => exact regular_work hfew hregular hstep

/-- Short lines, and no more than 25 buffers in `WriteLog` at any time. -/
def Modest (schedule : List Act) : Prop :=
  (∀ act ∈ schedule, Short act) ∧ Along step new (fun s ↦ s.writeLog.length ≤ 25) schedule

theorem along_regular {schedule : List Act} (hmodest : Modest schedule) :
    Along step new Regular schedule := by
  have hmeets : Meets step new (fun act s ↦ Short act ∧ s.writeLog.length ≤ 25) schedule :=
    (meets_of_mem hmodest.1).and hmodest.2.meets
  exact along_of_meets regular_new
    (fun _ _ _ hmeets hregular ↦ regular_step hmeets.1 hmeets.2 hregular) hmeets

end LWebServer.AsyncLogging
