import LWebServer.Tool.QueueSize

/-!
# Extractions

`ExtractDataDromLockFreeQueue` asks the queue for its size once and then pops so many times, while
the other threads go on pushing. Nobody else pops. So it pops no more than there is, and what it
takes are the reports in the order in which they have been pushed.
-/

namespace LWebServer

open Schedule Tally LockFreeQueue

variable {ι T : Type}

/-- A queue and the thread that extracts: the turns of its loop that are left, and what the calls of
`pop` in all extractions so far have returned. -/
structure Extracting (ι T : Type) where
  queue : LockFreeQueue ι T
  left : ℕ
  taken : List (Option T)

namespace Extracting

/-- Another thread begins to push, or the thread that extracts looks at `size` or begins the next
turn of its loop; or some thread takes the next step of its call. -/
inductive Act (ι T : Type) where
  | report (thread : ι) (data : T)
  | size
  | pop
  | step (thread : ι)

def new [Inhabited T] : Extracting ι T := ⟨.new, 0, []⟩

/-- The turns of the loop of which the call of `pop` has returned. -/
def settle (accepter : ι) (queue : LockFreeQueue ι T) (e : Extracting ι T) : Extracting ι T :=
  match queue.calls accepter with
  | .popped item => ⟨queue, e.left - 1, e.taken ++ [item]⟩
  | _ => { e with queue := queue }

variable [DecidableEq ι]

def step (accepter : ι) : Act ι T → Extracting ι T → Option (Extracting ι T)
  | .report thread data, e =>
    if thread = accepter then none
    else (LockFreeQueue.step (.push thread data) e.queue).map fun queue ↦ { e with queue := queue }
  | .size, e =>
    if (e.queue.calls accepter).Over ∧ e.left = 0 then
      some { e with left := toSize e.queue.count }
    else none
  | .pop, e =>
    if e.left = 0 then none
    else (LockFreeQueue.step (.pop accepter) e.queue).map fun queue ↦ { e with queue := queue }
  | .step thread, e => (e.queue.advance thread).map fun queue ↦
    if thread = accepter then e.settle accepter queue else { e with queue := queue }

variable [Fintype ι]

/-- The reports that have been linked and not counted. -/
def linking (e : Extracting ι T) : ℕ := tally QueueCall.linking e.queue.calls

/-- What has been taken are the first reports. The turns that are left will find a report each, and
`size` gives the number of reports that have been counted and not been taken. -/
structure Extracts (e : Extracting ι T) : Prop where
  taken : e.taken <+: e.queue.pushed.map some
  left : e.taken.length + e.left ≤ e.queue.pushed.length
  size : e.taken.length + toSize e.queue.count + e.linking = e.queue.pushed.length

/-- What is known between two steps. -/
structure Sound (accepter : ι) (e : Extracting ι T) : Prop where
  regular : e.queue.Regular
  accounted : e.queue.Accounted
  alone : ∀ thread, (e.queue.calls thread).InPop → thread = accepter
  pops : (e.queue.calls accepter).InPop ∨ (e.queue.calls accepter).Over
  popped : e.queue.popped.map some = e.taken ++ (e.queue.calls accepter).taking.toList.map some
  inCall : (e.queue.calls accepter).InPop → 0 < e.left
  left : e.taken.length + e.left + e.linking ≤ e.queue.pushed.length
  seen : ∀ oldHead oldTail, e.queue.calls accepter ≠ .popCheck oldHead oldTail none

variable {accepter thread : ι} {e e' : Extracting ι T}

omit [DecidableEq ι] in
theorem sound_new [Inhabited T] (accepter : ι) : Sound accepter (new : Extracting ι T) where
  regular := regular_new
  accounted := accounted_new
  alone := fun _ hpop ↦ hpop.elim
  pops := .inr trivial
  popped := rfl
  inCall := fun hpop ↦ hpop.elim
  left := by
    have hlinking : (new : Extracting ι T).linking = 0 := tally_eq_zero _ _ fun _ ↦ rfl
    rw [hlinking]
    exact Nat.zero_le _
  seen := fun _ _ hcall ↦ by cases hcall

omit [DecidableEq ι] [Fintype ι] in
/-- A call that has unlinked something is one of `pop`. -/
theorem inPop_of_taking {call : QueueCall T} (htaking : call.taking ≠ none) : call.InPop := by
  cases call <;> first | exact trivial | exact absurd rfl htaking

omit [DecidableEq ι] in
/-- The value of `size`. -/
theorem Sound.size_eq (hsound : Sound accepter e)
    (hfew : e.queue.pushed.length < e.taken.length + 2 ^ 31) :
    e.taken.length + toSize e.queue.count + e.linking = e.queue.pushed.length := by
  have hunlinking : tally QueueCall.unlinking e.queue.calls =
      (e.queue.calls accepter).taking.toList.length := by
    apply tally_eq_single
    intro thread hthread
    have hnone : (e.queue.calls thread).taking = none := by
      by_contra htaking
      exact hthread (hsound.alone thread (inPop_of_taking htaking))
    rw [QueueCall.unlinking, hnone]
    rfl
  have hpopped := congrArg List.length hsound.popped
  rw [List.length_append, List.length_map, List.length_map] at hpopped
  obtain ⟨rest, hrest⟩ := Nat.exists_eq_add_of_le hsound.left
  have hcount : e.queue.count = toInt (e.left + rest : ℕ) := by
    rw [hsound.accounted, hunlinking]
    congr 1
    unfold linking at hrest
    push_cast
    omega
  rw [hcount, toSize_toInt (by omega)]
  omega

/-! ## Steps -/

omit [DecidableEq ι] in
/-- A call of `pop` that reads a null pointer would have found more turns than reports. -/
theorem Sound.not_empty (hsound : Sound accepter e) {oldHead oldTail : ℕ}
    (hcall : e.queue.calls accepter = .popNext oldHead oldTail) :
    e.queue.next oldHead ≠ none := by
  intro hnone
  have hempty : e.queue.next e.queue.head = none := empty_of_popNext hsound.regular hcall hnone
  obtain ⟨chain, t, hshape⟩ := hsound.regular
  have hlength := hshape.linked.length_eq hshape.head hempty
  have hpushed := congrArg List.length hshape.data
  rw [List.length_map, List.length_tail] at hpushed
  have hpopped := congrArg List.length hsound.popped
  rw [hcall] at hpopped
  simp only [QueueCall.taking, Option.toList_none, List.map_nil, List.append_nil,
    List.length_map] at hpopped
  have hpos := hsound.inCall (by rw [hcall]; trivial)
  have hleft := hsound.left
  omega

/-- A thread that is in no call begins one. -/
theorem linking_go (call : QueueCall T) (hover : (e.queue.calls thread).Over)
    (hlinking : call.linking = 0) :
    tally QueueCall.linking (e.queue.go thread call).calls = e.linking :=
  tally_update_of_eq _ _ (hlinking.trans (linking_of_over hover).1.symm)

theorem sound_report {data : T} (hsound : Sound accepter e) (hne : thread ≠ accepter)
    {queue : LockFreeQueue ι T}
    (hstep : LockFreeQueue.step (.push thread data) e.queue = some queue) :
    Sound accepter { e with queue := queue } := by
  have hregular := regular_step hsound.regular hstep
  have haccounted := accounted_step hsound.accounted hstep
  simp only [LockFreeQueue.step] at hstep
  split_ifs at hstep with hover
  cases hstep
  have hself : (e.queue.go thread (.pushNew data)).calls accepter = e.queue.calls accepter :=
    calls_go_of_ne hne.symm _ _
  refine ⟨hregular, haccounted, fun other hpop ↦ ?_, ?_, ?_, ?_, ?_, ?_⟩
  · by_cases hother : other = thread
    · rw [hother, calls_go_self] at hpop
      exact hpop.elim
    · rw [calls_go_of_ne hother] at hpop
      exact hsound.alone other hpop
  · rw [hself]
    exact hsound.pops
  · rw [hself]
    exact hsound.popped
  · rw [hself]
    exact hsound.inCall
  · have hlinking := linking_go (.pushNew data) hover rfl
    unfold linking
    rw [hlinking]
    exact hsound.left
  · rw [hself]
    exact hsound.seen

theorem sound_pop (hsound : Sound accepter e) (hleft : e.left ≠ 0) {queue : LockFreeQueue ι T}
    (hstep : LockFreeQueue.step (.pop accepter) e.queue = some queue) :
    Sound accepter { e with queue := queue } := by
  have hregular := regular_step hsound.regular hstep
  have haccounted := accounted_step hsound.accounted hstep
  simp only [LockFreeQueue.step] at hstep
  split_ifs at hstep with hover
  cases hstep
  have hself : (e.queue.go accepter .popHead).calls accepter = .popHead := calls_go_self _ _ _
  refine ⟨hregular, haccounted, fun other hpop ↦ ?_, ?_, ?_, ?_, ?_, ?_⟩
  · by_contra hother
    rw [calls_go_of_ne hother] at hpop
    exact hother (hsound.alone other hpop)
  · rw [hself]
    exact .inl trivial
  · have hpopped := hsound.popped
    rw [(linking_of_over hover).2] at hpopped
    rw [hself]
    exact hpopped
  · exact fun _ ↦ Nat.pos_of_ne_zero hleft
  · have hlinking := linking_go .popHead hover rfl
    unfold linking
    rw [hlinking]
    exact hsound.left
  · intro oldHead oldTail hcheck
    rw [hself] at hcheck
    cases hcheck

omit [DecidableEq ι] in
theorem sound_size (hsound : Sound accepter e)
    (hfew : e.queue.pushed.length < e.taken.length + 2 ^ 31)
    (hover : (e.queue.calls accepter).Over) :
    Sound accepter { e with left := toSize e.queue.count } := by
  have hnot : ¬ (e.queue.calls accepter).InPop := by
    cases hcall : e.queue.calls accepter <;> rw [hcall] at hover <;>
      first | exact hover.elim | exact id
  exact { hsound with
    inCall := fun hpop ↦ absurd hpop hnot
    left := (hsound.size_eq hfew).le }

/-- A step of a call of `push`. -/
theorem sound_push (hsound : Sound accepter e) (hne : thread ≠ accepter)
    {queue : LockFreeQueue ι T} (hstep : e.queue.advance thread = some queue) :
    Sound accepter { e with queue := queue } := by
  have hact : LockFreeQueue.step (.step thread) e.queue = some queue := hstep
  have hnot : ¬ (e.queue.calls thread).InPop := fun hpop ↦ hne (hsound.alone thread hpop)
  have hself : queue.calls accepter = e.queue.calls accepter := calls_step_of_ne hact hne.symm
  have hlinking := tally_update QueueCall.linking e.queue.calls thread (queue.calls thread)
  rw [← calls_advance hstep] at hlinking
  have hcounts : queue.popped = e.queue.popped ∧
      e.queue.pushed.length + tally QueueCall.linking queue.calls ≤
        queue.pushed.length + e.linking := by
    unfold linking
    cases effect_advance hstep with
    | quiet count pushed popped linking taking goesOn =>
      rw [linking] at hlinking
      rw [pushed]
      exact ⟨popped, by omega⟩
    | link item count pushed popped before after taking push goesOn =>
      rw [before, after] at hlinking
      rw [pushed, List.length_append, List.length_singleton]
      exact ⟨popped, by omega⟩
    | counted count pushed popped before after =>
      rw [before, after] at hlinking
      rw [pushed]
      refine ⟨popped, ?_⟩
      simp only [QueueCall.linking] at hlinking
      omega
    | unlink item count pushed popped linking before after =>
      exact absurd (inPop_of_advance hstep (inPop_of_taking (by rw [after]; simp))) hnot
    | returned item count pushed popped before after =>
      exact absurd (by rw [before]; trivial) hnot
  refine ⟨regular_step hsound.regular hact, accounted_step hsound.accounted hact,
    fun other hpop ↦ ?_, ?_, ?_, ?_, ?_, ?_⟩
  · by_cases hother : other = thread
    · rw [hother] at hpop
      exact absurd (inPop_of_advance hstep hpop) hnot
    · have hsame := calls_step_of_ne hact hother
      rw [hsame] at hpop
      exact hsound.alone other hpop
  · rw [hself]
    exact hsound.pops
  · rw [hself, hcounts.1]
    exact hsound.popped
  · rw [hself]
    exact hsound.inCall
  · have hleft := hsound.left
    have hmore := hcounts.2
    change e.taken.length + e.left + tally QueueCall.linking queue.calls ≤ queue.pushed.length
    omega
  · rw [hself]
    exact hsound.seen

omit [DecidableEq ι] [Fintype ι] in
/-- Until its call returns, the thread that extracts is in the same turn. -/
theorem settle_of_inPop {queue : LockFreeQueue ι T} (hpop : (queue.calls accepter).InPop) :
    e.settle accepter queue = { e with queue := queue } := by
  unfold settle
  cases hcall : queue.calls accepter <;> rw [hcall] at hpop
  all_goals first | rfl | exact hpop.elim

/-- A step of the call of `pop`. -/
theorem sound_pull (hsound : Sound accepter e) {queue : LockFreeQueue ι T}
    (hstep : e.queue.advance accepter = some queue) :
    Sound accepter (e.settle accepter queue) := by
  have hact : LockFreeQueue.step (.step accepter) e.queue = some queue := hstep
  have hregular := regular_step hsound.regular hact
  have haccounted := accounted_step hsound.accounted hact
  have hpop : (e.queue.calls accepter).InPop := by
    refine hsound.pops.resolve_right fun hover ↦ ?_
    unfold advance at hstep
    cases hcall : e.queue.calls accepter <;> rw [hcall] at hover hstep
    all_goals first | exact hover.elim | cases hstep
  have halone (other : ι) (hother : (queue.calls other).InPop) : other = accepter := by
    by_contra hne
    have hsame := calls_step_of_ne hact hne
    rw [hsame] at hother
    exact hne (hsound.alone other hother)
  have hlinking := tally_update QueueCall.linking e.queue.calls accepter (queue.calls accepter)
  rw [← calls_advance hstep] at hlinking
  have hseen (oldHead oldTail : ℕ) : queue.calls accepter ≠ .popCheck oldHead oldTail none := by
    intro hcheck
    obtain ⟨hnext, hnone⟩ := (advance_popNull hstep).1 oldHead oldTail hcheck
    exact hsound.not_empty hnext hnone
  have hgoing (hafter : (queue.calls accepter).InPop)
      (hsame : (queue.calls accepter).linking = (e.queue.calls accepter).linking)
      (hpushed : queue.pushed = e.queue.pushed)
      (hpopped : queue.popped.map some =
        e.taken ++ (queue.calls accepter).taking.toList.map some) :
      Sound accepter (e.settle accepter queue) := by
    rw [settle_of_inPop hafter]
    refine ⟨hregular, haccounted, halone, .inl hafter, hpopped, fun _ ↦ hsound.inCall hpop, ?_,
      hseen⟩
    have hleft := hsound.left
    rw [hsame] at hlinking
    change e.taken.length + e.left + tally QueueCall.linking queue.calls ≤ queue.pushed.length
    rw [hpushed, Nat.add_right_cancel hlinking]
    exact hleft
  cases effect_advance hstep with
  | quiet count pushed popped linking taking goesOn =>
    have hafter : (queue.calls accepter).InPop := by
      rcases popped_of_advance hstep hpop with hafter | ⟨_ | item, hreturn⟩ | hundefined
      · exact hafter
      · obtain ⟨oldHead, oldTail, hcheck⟩ := (advance_popNull hstep).2 hreturn
        exact absurd hcheck (hsound.seen oldHead oldTail)
      · exact absurd hreturn (goesOn item)
      · obtain ⟨chain, t, hshape⟩ := hregular
        have hholds := hshape.holds accepter
        rw [hundefined] at hholds
        exact hholds.elim
    refine hgoing hafter linking pushed ?_
    rw [popped, taking]
    exact hsound.popped
  | link item count pushed popped before after taking push goesOn => exact absurd hpop push
  | counted count pushed popped before after =>
    rw [before] at hpop
    exact hpop.elim
  | unlink item count pushed popped linking before after =>
    refine hgoing (inPop_of_taking (by rw [after]; simp)) linking pushed ?_
    have hpopped := hsound.popped
    rw [before] at hpopped
    rw [popped, after, List.map_append, hpopped]
    simp
  | returned item count pushed popped before after =>
    have hsettle : e.settle accepter queue = ⟨queue, e.left - 1, e.taken ++ [some item]⟩ := by
      unfold settle
      rw [after]
    rw [hsettle]
    refine ⟨hregular, haccounted, halone, ?_, ?_, ?_, ?_, hseen⟩
    · rw [after]
      exact .inr trivial
    · have hpopped := hsound.popped
      rw [before] at hpopped
      rw [popped, after, hpopped]
      simp [QueueCall.taking]
    · intro hafter
      rw [after] at hafter
      exact hafter.elim
    · have hleft := hsound.left
      have hpos := hsound.inCall hpop
      rw [before, after] at hlinking
      change (e.taken ++ [some item]).length + (e.left - 1) +
        tally QueueCall.linking queue.calls ≤ queue.pushed.length
      rw [pushed, Nat.add_right_cancel hlinking, List.length_append, List.length_singleton]
      unfold linking at hleft
      omega

theorem sound_step {act : Act ι T} (hsound : Sound accepter e)
    (hfew : e.queue.pushed.length < e.taken.length + 2 ^ 31)
    (hstep : step accepter act e = some e') : Sound accepter e' := by
  cases act with
  | report thread data =>
    simp only [step] at hstep
    split_ifs at hstep with hsame
    obtain ⟨queue, hqueue, rfl⟩ := Option.map_eq_some_iff.mp hstep
    exact sound_report hsound hsame hqueue
  | size =>
    simp only [step] at hstep
    split_ifs at hstep with hidle
    cases hstep
    exact sound_size hsound hfew hidle.1
  | pop =>
    simp only [step] at hstep
    split_ifs at hstep with hleft
    obtain ⟨queue, hqueue, rfl⟩ := Option.map_eq_some_iff.mp hstep
    exact sound_pop hsound hleft hqueue
  | step thread =>
    obtain ⟨queue, hqueue, rfl⟩ := Option.map_eq_some_iff.mp hstep
    by_cases hsame : thread = accepter
    · rw [if_pos hsame]
      rw [hsame] at hqueue
      exact sound_pull hsound hqueue
    · rw [if_neg hsame]
      exact sound_push hsound hsame hqueue

/-! ## Runs -/

/-- In every run in which there are never `2 ^ 31` reports waiting: each call of `pop` in an
extraction returns a report, these are all reports in the order of their pushes, and `size` gives
the number of those that wait and have been counted. -/
theorem extracts_run [Inhabited T] (accepter : ι) (schedule : List (Act ι T))
    (e : Extracting ι T)
    (hfew : Along (step accepter) new
      (fun e ↦ e.queue.pushed.length < e.taken.length + 2 ^ 31) schedule)
    (hrun : run (step accepter) schedule new = some e) : e.Extracts := by
  have hsound : Sound accepter e :=
    (along_of_meets (sound_new accepter)
      (fun _ _ _ hfew hsound hstep ↦ sound_step hsound hfew hstep) hfew.meets).last hrun
  obtain ⟨chain, t, hshape⟩ := hsound.regular
  refine ⟨?_, ?_, hsound.size_eq (hfew.last hrun)⟩
  · have hpopped : e.taken <+: e.queue.popped.map some := by
      rw [hsound.popped]
      exact List.prefix_append _ _
    exact hpopped.trans (hshape.order.map some)
  · have hleft := hsound.left
    omega

omit [Fintype ι] in
/-- A step pushes one report at most. -/
theorem length_pushed_step {act : Act ι T} (hstep : step accepter act e = some e') :
    e'.queue.pushed.length ≤ e.queue.pushed.length + 1 := by
  cases act with
  | report thread data =>
    simp only [step, LockFreeQueue.step] at hstep
    split_ifs at hstep <;> cases hstep
    exact Nat.le_succ _
  | size =>
    simp only [step] at hstep
    split_ifs at hstep
    cases hstep
    exact Nat.le_succ _
  | pop =>
    simp only [step, LockFreeQueue.step] at hstep
    split_ifs at hstep <;> cases hstep
    exact Nat.le_succ _
  | step thread =>
    obtain ⟨queue, hqueue, rfl⟩ := Option.map_eq_some_iff.mp hstep
    have hpushed : queue.pushed.length ≤ e.queue.pushed.length + 1 := by
      cases effect_advance hqueue with
      | link item count pushed => rw [pushed, List.length_append, List.length_singleton]
      | quiet count pushed => exact pushed ▸ Nat.le_succ _
      | counted count pushed => exact pushed ▸ Nat.le_succ _
      | unlink item count pushed => exact pushed ▸ Nat.le_succ _
      | returned item count pushed => exact pushed ▸ Nat.le_succ _
    split_ifs
    · unfold settle
      split <;> exact hpushed
    · exact hpushed

omit [Fintype ι] in
/-- In a run that is not too long there are never too many reports. -/
theorem few_of_short [Inhabited T] {schedule : List (Act ι T)} (hshort : schedule.length < 2 ^ 31) :
    Along (step accepter) new
      (fun e ↦ e.queue.pushed.length < e.taken.length + 2 ^ 31) schedule := by
  intro past e hpast hrun
  have hlength : e.queue.pushed.length ≤ past.length := by
    refine @history (Act ι T) (Extracting ι T) (step accepter) new e past
      (fun past e ↦ e.queue.pushed.length ≤ past.length) (Nat.zero_le _)
      (fun past act e e' _ hle hstep ↦ ?_) hrun
    rw [List.length_append, List.length_singleton]
    exact (length_pushed_step hstep).trans (Nat.add_le_add_right hle 1)
  have hpast' := hpast.length_le
  omega

/-- A report is pushed and counted, and another one while the first is being taken. -/
def meanwhile : List (Act Bool ℕ) :=
  .report true 5 :: List.replicate 7 (.step true) ++ .size :: .pop ::
    List.replicate 3 (.step false) ++ .report true 6 :: List.replicate 6 (.step true) ++
      List.replicate 5 (.step false)

theorem extracts_run_meanwhile : ∃ e,
    run (step false) meanwhile (new : Extracting Bool ℕ) = some e ∧
      e.taken = [some 5] ∧ e.linking = 1 ∧ e.Extracts :=
  ⟨_, rfl, rfl, by decide, extracts_run false meanwhile _ (few_of_short (by decide)) rfl⟩

end Extracting

end LWebServer
