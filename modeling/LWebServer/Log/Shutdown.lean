import LWebServer.Log.Rotation

/-!
# The log at shutdown

`stop` stores `running` and waits for the thread in `AsyncFunc`, which looks at `running` only
between two turns of its loop. If a swap is still to come when `running` is stored, that swap takes
over all lines. Otherwise the lines that have been appended since the last swap are never written.
-/

namespace LWebServer.AsyncLogging

open Schedule

/-- The thread has entered its loop and is still to swap the buffers in this turn. -/
def Awaiting (s : AsyncLogging) : Prop := s.phase = .enter ∨ s.phase = .waiting

/-- After `running` has been stored -/
def Stopped (s : AsyncLogging) : Prop := s.running = false ∧ s.phase ≠ .unborn

/-- What `AsyncFunc` has written or taken over are whole lines, so many at least. -/
def Kept (count : ℕ) (s : AsyncLogging) : Prop :=
  ∃ kept, count ≤ kept ∧ kept ≤ s.appended.length ∧ s.claimed = (s.appended.take kept).flatten

@[simp]
theorem claimed_append (line : List Byte) (s : AsyncLogging) :
    (s.append line).claimed = s.claimed := by
  unfold append
  split
  · rfl
  · dsimp only
    split <;> rfl

@[simp]
theorem phase_append (line : List Byte) (s : AsyncLogging) : (s.append line).phase = s.phase := by
  unfold append
  split
  · rfl
  · dsimp only
    split <;> rfl

@[simp]
theorem running_append (line : List Byte) (s : AsyncLogging) :
    (s.append line).running = s.running := by
  unfold append
  split
  · rfl
  · dsimp only
    split <;> rfl

theorem appended_append (line : List Byte) (s : AsyncLogging) :
    s.appended <+: (s.append line).appended := by
  unfold append
  split
  · exact List.prefix_rfl
  · dsimp only
    split <;> exact List.prefix_append _ _

/-- What a step of `AsyncFunc` other than the swap leaves alone, after `running` has been stored. -/
theorem work_frame {now : List Byte} {s s' : AsyncLogging} (hstopped : s.Stopped)
    (hawaiting : ¬ s.Awaiting) (hwork : s.work now = some s') :
    s'.Stopped ∧ ¬ s'.Awaiting ∧ s'.pending = s.pending ∧ s'.appended = s.appended := by
  obtain ⟨hrunning, hborn⟩ := hstopped
  unfold work at hwork
  split at hwork
  next => cases hwork
  next =>
    cases hwork
    simp [Stopped, Awaiting, pending, hrunning]
  next hphase => exact absurd (.inl hphase) hawaiting
  next hphase => exact absurd (.inr hphase) hawaiting
  next =>
    cases hwork
    unfold sift
    split <;> simp [Stopped, Awaiting, pending, hrunning]
  next written hphase =>
    cases hwork
    unfold write
    split <;> simp [Stopped, Awaiting, pending, hrunning, hphase]
  next hphase =>
    cases hwork
    unfold recycle
    dsimp only
    split
    · simp [Stopped, Awaiting, pending, hrunning, hphase]
    · split <;> simp [Stopped, Awaiting, pending, hrunning, hphase]
  next => cases hwork

/-- Without a swap nothing more is taken over. -/
theorem claimed_step {act : Act} {s s' : AsyncLogging} (hact : Short act)
    (hfew : s.writeLog.length ≤ 25) (hregular : s.Regular) (hstopped : s.Stopped)
    (hawaiting : ¬ s.Awaiting) (hstep : step act s = some s') :
    s'.Stopped ∧ ¬ s'.Awaiting ∧ s'.claimed = s.claimed ∧ s.appended <+: s'.appended := by
  have hregular' : s'.Regular := regular_step hact hfew hregular hstep
  unfold step at hstep
  rw [if_neg (by simp [hregular.defined])] at hstep
  cases act with
  | append line =>
    cases hstep
    refine ⟨?_, ?_, claimed_append line s, appended_append line s⟩
    · rwa [Stopped, phase_append, running_append]
    · rwa [Awaiting, phase_append]
  | start =>
    dsimp only at hstep
    rw [if_neg hstopped.2] at hstep
    cases hstep
  | stop =>
    dsimp only at hstep
    rw [if_neg (by simp [hstopped.1])] at hstep
    cases hstep
  | work now =>
    obtain ⟨hstopped', hawaiting', hpending, happended⟩ := work_frame hstopped hawaiting hstep
    refine ⟨hstopped', hawaiting', ?_, happended ▸ List.prefix_rfl⟩
    have horder : s'.claimed ++ s.pending = s.claimed ++ s.pending := by
      rw [hregular.order, ← hpending, ← happended]
      exact hregular'.order
    exact List.append_cancel_right horder

theorem claimed_finished {s : AsyncLogging} (hphase : s.phase = .finished) :
    s.claimed = s.output := by
  rw [claimed, unwritten, hphase]
  exact List.append_nil s.output

/-- The swap takes over everything. -/
theorem claimed_swap {s : AsyncLogging} (hregular : s.Regular) (hbetween : s.Between) :
    s.swap.claimed = s.appended.flatten := by
  have hswap : s.swap.Regular := regular_swap hregular hbetween
  obtain ⟨hready, -, hwriteLog⟩ := hregular.stocked.ready hbetween
  obtain ⟨buffer, hbuffer⟩ := Option.ne_none_iff_exists'.mp hready
  have hpending : s.swap.pending = [] := by
    change contents s.writeLog ++ content s.newBuffer1 = []
    rw [hwriteLog, hbuffer, content_some, hregular.empty buffer (.inl hbuffer)]
    rfl
  calc s.swap.claimed = s.swap.claimed ++ s.swap.pending := by rw [hpending, List.append_nil]
    _ = s.appended.flatten := hswap.order

/-- As long as the swap is to come every line is still taken over. -/
theorem kept_step {act : Act} {count : ℕ} {s s' : AsyncLogging} (hregular : s.Regular)
    (hstopped : s.Stopped) (hcount : count ≤ s.appended.length) (hawaiting : s.Awaiting)
    (hstep : step act s = some s') :
    s'.Stopped ∧ count ≤ s'.appended.length ∧ (s'.Awaiting ∨ s'.Kept count) := by
  unfold step at hstep
  rw [if_neg (by simp [hregular.defined])] at hstep
  have hswap : s.swap.Stopped ∧ count ≤ s.swap.appended.length ∧
      (s.swap.Awaiting ∨ s.swap.Kept count) := by
    refine ⟨⟨hstopped.1, by simp [swap]⟩, hcount, .inr ⟨s.appended.length, hcount, le_rfl, ?_⟩⟩
    rw [claimed_swap hregular (.inr hawaiting)]
    exact congrArg List.flatten List.take_length.symm
  cases act with
  | append line =>
    cases hstep
    refine ⟨?_, hcount.trans (appended_append line s).length_le, .inl ?_⟩
    · rwa [Stopped, phase_append, running_append]
    · rwa [Awaiting, phase_append]
  | start =>
    dsimp only at hstep
    rw [if_neg hstopped.2] at hstep
    cases hstep
  | stop =>
    dsimp only at hstep
    rw [if_neg (by simp [hstopped.1])] at hstep
    cases hstep
  | work now =>
    rcases hawaiting with hphase | hphase
    · simp only [work, hphase, Option.some.injEq] at hstep
      split at hstep
      · cases hstep
        exact ⟨⟨hstopped.1, by simp⟩, hcount, .inl (.inr rfl)⟩
      · cases hstep
        exact hswap
    · simp only [work, hphase, Option.some.injEq] at hstep
      cases hstep
      exact hswap

/-- What holds from the moment `running` is stored, if a swap is still to come. -/
def Keeping (count : ℕ) (s : AsyncLogging) : Prop :=
  s.Regular ∧ s.Stopped ∧ count ≤ s.appended.length ∧ (s.Awaiting ∨ s.Kept count)

theorem keeping_step {act : Act} {count : ℕ} {s s' : AsyncLogging}
    (hact : Short act ∧ s.writeLog.length ≤ 25) (hkeeping : s.Keeping count)
    (hstep : step act s = some s') : s'.Keeping count := by
  obtain ⟨hregular, hstopped, hcount, hkept⟩ := hkeeping
  refine ⟨regular_step hact.1 hact.2 hregular hstep, ?_⟩
  by_cases hawaiting : s.Awaiting
  · exact kept_step hregular hstopped hcount hawaiting hstep
  · obtain ⟨hstopped', -, hclaimed, happended⟩ :=
      claimed_step hact.1 hact.2 hregular hstopped hawaiting hstep
    obtain ⟨kept, hle, hlength, hkept⟩ := hkept.resolve_left hawaiting
    have hlength' : s.appended.length ≤ s'.appended.length := happended.length_le
    refine ⟨hstopped', hcount.trans hlength', .inr ⟨kept, hle, hlength.trans hlength', ?_⟩⟩
    obtain ⟨more, hmore⟩ := happended
    rw [hclaimed, hkept, ← hmore, List.take_append_of_le_length hlength]

/-- What holds from the moment `running` is stored, if no swap is to come. -/
def Closing (s t : AsyncLogging) : Prop :=
  t.Regular ∧ t.Stopped ∧ ¬ t.Awaiting ∧ t.claimed = s.claimed ∧ s.appended <+: t.appended

theorem closing_step {act : Act} {s t t' : AsyncLogging}
    (hact : Short act ∧ t.writeLog.length ≤ 25) (hclosing : s.Closing t)
    (hstep : step act t = some t') : s.Closing t' := by
  obtain ⟨hregular, hstopped, hawaiting, hclaimed, happended⟩ := hclosing
  obtain ⟨hstopped', hawaiting', hclaimed', happended'⟩ :=
    claimed_step hact.1 hact.2 hregular hstopped hawaiting hstep
  exact ⟨regular_step hact.1 hact.2 hregular hstep, hstopped', hawaiting',
    hclaimed'.trans hclaimed, happended.trans happended'⟩

theorem work_born {now : List Byte} {s s' : AsyncLogging} (hwork : s.work now = some s') :
    s'.phase ≠ .unborn := by
  unfold work at hwork
  split at hwork
  next => cases hwork
  next =>
    cases hwork
    dsimp only
    split <;> simp
  next =>
    cases hwork
    split <;> simp [swap]
  next =>
    cases hwork
    simp [swap]
  next =>
    cases hwork
    unfold sift
    split <;> simp
  next written hphase =>
    cases hwork
    unfold write
    split <;> simp [hphase]
  next hphase =>
    cases hwork
    unfold recycle
    dsimp only
    split
    · simp [hphase]
    · split <;> simp [hphase]
  next => cases hwork

/-- Only a thread that has been started can be stopped. -/
def Started (s : AsyncLogging) : Prop := s.running = true → s.phase ≠ .unborn

theorem started_step {act : Act} {s s' : AsyncLogging} (hstarted : s.Started)
    (hstep : step act s = some s') : s'.Started := by
  unfold step at hstep
  split at hstep
  next => cases hstep
  next =>
    cases act with
    | append line =>
      cases hstep
      rwa [Started, running_append, phase_append]
    | start =>
      dsimp only at hstep
      split at hstep <;> cases hstep
      simp [Started]
    | stop =>
      dsimp only at hstep
      split at hstep <;> cases hstep
      simp [Started]
    | work now => exact fun _ ↦ work_born hstep

theorem started_run {schedule : List Act} {s : AsyncLogging}
    (hrun : run step schedule new = some s) : s.Started :=
  invariant (show new.Started from fun hrunning ↦ nomatch hrunning) (fun _ _ _ ↦ started_step) hrun

/-- What is so right after `stop` has stored `running`, and what its steps are like later. -/
theorem stop_spec {before after : List Act} {s t : AsyncLogging}
    (hmodest : Modest (before ++ .stop :: after)) (hbefore : run step before new = some s)
    (hafter : run step (before ++ .stop :: after) new = some t) :
    s.Regular ∧ { s with running := false : AsyncLogging }.Stopped ∧
      run step after { s with running := false : AsyncLogging } = some t ∧
      Meets step { s with running := false : AsyncLogging }
        (fun act s ↦ Short act ∧ s.writeLog.length ≤ 25) after := by
  have hregular : s.Regular :=
    along_regular hmodest before s (List.prefix_append before _) hbefore
  rw [run_append_of_run hbefore] at hafter
  obtain ⟨s', hstop, hrun⟩ := Option.bind_eq_some_iff.mp hafter
  have hstop' : s.running = true ∧ s' = { s with running := false } := by
    unfold step at hstop
    rw [if_neg (by simp [hregular.defined])] at hstop
    dsimp only at hstop
    split at hstop
    next hrunning =>
      cases hstop
      exact ⟨hrunning, rfl⟩
    next => cases hstop
  obtain ⟨hrunning, rfl⟩ := hstop'
  have hborn : s.phase ≠ .unborn := started_run hbefore hrunning
  refine ⟨hregular, ⟨rfl, hborn⟩, hrun, ?_⟩
  have hmeets : Meets step new (fun act s ↦ Short act ∧ s.writeLog.length ≤ 25)
      ((before ++ [.stop]) ++ after) := by
    rw [List.append_assoc]
    exact (meets_of_mem hmodest.1).and hmodest.2.meets
  exact hmeets.after (run_snoc.mpr ⟨s, hbefore, hstop⟩)

/-- If a swap is to come when `running` is stored, the file gets all lines appended so far. -/
theorem kept_of_awaiting {before after : List Act} {s t : AsyncLogging}
    (hmodest : Modest (before ++ .stop :: after)) (hbefore : run step before new = some s)
    (hafter : run step (before ++ .stop :: after) new = some t) (hreturned : t.phase = .finished)
    (hawaiting : s.Awaiting) :
    ∃ kept, s.appended.length ≤ kept ∧ t.output = (t.appended.take kept).flatten := by
  obtain ⟨hregular, hstopped, hrun, hmeets⟩ := stop_spec hmodest hbefore hafter
  have hstart : Keeping s.appended.length { s with running := false } :=
    ⟨regular_stop hregular, hstopped, le_rfl, .inl hawaiting⟩
  have hlast : t.Keeping s.appended.length :=
    (along_of_meets hstart (fun _ _ _ ↦ keeping_step) hmeets).last hrun
  obtain ⟨-, -, -, hkept⟩ := hlast
  obtain ⟨kept, hle, -, hclaimed⟩ := hkept.resolve_left (by simp [Awaiting, hreturned])
  exact ⟨kept, hle, (claimed_finished hreturned).symm.trans hclaimed⟩

/-- If no swap is to come, the file gets what has been taken over before. -/
theorem closing_of_not_awaiting {before after : List Act} {s t : AsyncLogging}
    (hmodest : Modest (before ++ .stop :: after)) (hbefore : run step before new = some s)
    (hafter : run step (before ++ .stop :: after) new = some t) (hawaiting : ¬ s.Awaiting) :
    s.Closing t := by
  obtain ⟨hregular, hstopped, hrun, hmeets⟩ := stop_spec hmodest hbefore hafter
  have hstart : s.Closing { s with running := false } :=
    ⟨regular_stop hregular, hstopped, hawaiting, rfl, List.prefix_rfl⟩
  exact (along_of_meets hstart (fun _ _ _ ↦ closing_step) hmeets).last hrun

/-- When `stop` has returned, all lines that had been appended before are in the file, in order,
exactly if a swap was still to come when `running` was stored or nothing was left to take over. -/
theorem kept_at_shutdown_iff (before after : List Act) {s t : AsyncLogging}
    (hmodest : Modest (before ++ .stop :: after)) (hbefore : run step before new = some s)
    (hafter : run step (before ++ .stop :: after) new = some t)
    (hreturned : t.phase = .finished) :
    (∃ kept, s.appended.length ≤ kept ∧ t.output = (t.appended.take kept).flatten) ↔
      s.Awaiting ∨ s.pending = [] := by
  by_cases hawaiting : s.Awaiting
  · exact iff_of_true (kept_of_awaiting hmodest hbefore hafter hreturned hawaiting) (.inl hawaiting)
  · obtain ⟨-, -, -, hclaimed, happended⟩ :=
      closing_of_not_awaiting hmodest hbefore hafter hawaiting
    obtain ⟨hregular, -, -, -⟩ := stop_spec hmodest hbefore hafter
    obtain ⟨more, hmore⟩ := happended
    have houtput : t.output = s.claimed := (claimed_finished hreturned).symm.trans hclaimed
    constructor
    · rintro ⟨kept, hle, hkept⟩
      right
      have hsplit : s.claimed = s.claimed ++ (s.pending ++
          (more.take (kept - s.appended.length)).flatten) := by
        calc s.claimed = ((s.appended ++ more).take kept).flatten := by rw [← houtput, hkept, hmore]
          _ = s.appended.flatten ++ (more.take (kept - s.appended.length)).flatten := by
            rw [List.take_append, List.take_of_length_le hle, List.flatten_append]
          _ = _ := by rw [← hregular.order, List.append_assoc]
      exact (List.append_eq_nil_iff.mp (List.self_eq_append_right.mp hsplit)).1
    · intro hpending
      refine ⟨s.appended.length, le_rfl, ?_⟩
      rw [houtput, ← hmore, List.take_left, ← hregular.order,
        hpending.resolve_left hawaiting, List.append_nil]

/-- The thread waits for lines when it is stopped, and the line is written. -/
theorem kept_waiting : ∃ s t,
    run step [.start, .work [], .work [], .append [97]] new = some s ∧
      run step [.start, .work [], .work [], .append [97], .stop, .work [], .work [], .work [],
        .work [], .work [], .work []] new = some t ∧
      ∃ kept, s.appended.length ≤ kept ∧ t.output = (t.appended.take kept).flatten := by
  refine ⟨_, _, rfl, rfl, (kept_at_shutdown_iff [.start, .work [], .work [], .append [97]]
    [.work [], .work [], .work [], .work [], .work [], .work []] ⟨?_, ?_⟩ rfl rfl rfl).mpr
      (.inl (.inr rfl))⟩
  · simp [Short, largerBuffer]
  · repeat
      refine along_cons (by decide) fun s hs ↦ ?_
      cases hs
    exact along_nil (by decide)

/-- The line comes while the thread writes what it has taken over, and it is lost. -/
theorem not_kept_writing : ∃ s t,
    Modest [.start, .work [], .work [], .work [], .append [97], .stop, .work [], .work [],
        .work [], .work [], .work []] ∧
      run step [.start, .work [], .work [], .work [], .append [97]] new = some s ∧
      run step [.start, .work [], .work [], .work [], .append [97], .stop, .work [], .work [],
        .work [], .work [], .work []] new = some t ∧ t.phase = .finished ∧
      ¬ ∃ kept, s.appended.length ≤ kept ∧ t.output = (t.appended.take kept).flatten := by
  refine ⟨_, _, ⟨?_, ?_⟩, rfl, rfl, rfl, ?_⟩
  · simp [Short, largerBuffer]
  · repeat
      refine along_cons (by decide) fun s hs ↦ ?_
      cases hs
    exact along_nil (by decide)
  · rintro ⟨kept, hkept, houtput⟩
    change 1 ≤ kept at hkept
    change [] = ([[97]].take kept).flatten at houtput
    rw [List.take_of_length_le hkept] at houtput
    cases houtput

end LWebServer.AsyncLogging
