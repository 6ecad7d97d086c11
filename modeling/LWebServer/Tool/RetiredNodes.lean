import LWebServer.Tool.QueueOrder

/-!
# Nodes that have been deleted

A call of `pop` deletes the node that it has unlinked. With a single thread that pops, this thread
never comes back to such a node, but a call of `push` may have loaded it from `tail_` before it was
unlinked and still be about to go through it.
-/

namespace LWebServer

open Schedule

variable {ι T : Type}

/-- The node of which the next step reads `next_` or `data_`, or swaps `next_`. -/
def QueueCall.touches : QueueCall T → Option ℕ
  | popNext oldHead _ => some oldHead
  | popData _ firstNode => firstNode
  | pushNext _ oldTail => some oldTail
  | pushLink _ oldTail => some oldTail
  | _ => none

/-- `old_head` in a call of `pop` that has not unlinked it. -/
def QueueCall.oldHead : QueueCall T → Option ℕ
  | popTail oldHead => some oldHead
  | popNext oldHead _ => some oldHead
  | popCheck oldHead _ _ => some oldHead
  | popData oldHead _ => some oldHead
  | popSwap oldHead _ _ => some oldHead
  | _ => none

namespace LockFreeQueue

/-- The step does not read or swap a field of a node that has been deleted. -/
def Untouching : Act ι T → LockFreeQueue ι T → Prop
  | .step thread, s => ∀ a, (s.calls thread).touches = some a → a ∉ s.deleted
  | _, _ => True

/-- No call is about to read or swap a field of a node that has been deleted. -/
def Spared (s : LockFreeQueue ι T) : Prop :=
  ∀ thread a, (s.calls thread).touches = some a → a ∉ s.deleted

/-- The step does not delete a node of which a call is about to read or swap a field. -/
def Guarded : Act ι T → LockFreeQueue ι T → Prop
  | .step thread, s => ∀ a item, s.calls thread = .popDelete a item →
      ∀ other, (s.calls other).touches ≠ some a
  | _, _ => True

/-- No other thread calls `pop`. -/
def PoppedBy (popper : ι) : Act ι T → Prop
  | .pop thread => thread = popper
  | _ => True

/-- What is known of a queue with a single thread that pops. -/
structure Retired (popper : ι) (s : LockFreeQueue ι T) (chain : List ℕ) (t : ℕ) : Prop where
  shape : s.Shape chain t
  alone : ∀ thread, (s.calls thread).InPop → thread = popper
  behind : ∀ a ∈ s.deleted, ∃ i, i < s.popped.length ∧ chain[i]? = some a
  current : ∀ a, (s.calls popper).oldHead = some a → a = s.head
  retiring : ∀ a item, s.calls popper = .popDelete a item →
    ∃ i, i < s.popped.length ∧ chain[i]? = some a
  spared : s.Spared

variable {popper thread : ι} {s s' : LockFreeQueue ι T} {chain chain' : List ℕ} {t t' : ℕ}
  {call : QueueCall T}

/-- A node from `head_` on has not been deleted. -/
theorem Retired.not_deleted {a i : ℕ} (hretired : s.Retired popper chain t)
    (ha : chain[i]? = some a) (hle : s.popped.length ≤ i) : a ∉ s.deleted := by
  intro hdeleted
  obtain ⟨j, hlt, hj⟩ := hretired.behind a hdeleted
  have hij : i = j := index_unique hretired.shape.nodup ha hj
  omega

/-- What a step of one thread has to see to if it leaves `head_` and the deleted nodes alone. -/
structure Fits (popper thread : ι) (s : LockFreeQueue ι T) (call : QueueCall T) : Prop where
  alone : call.InPop → thread = popper
  current : ∀ a, call.oldHead = some a → a = s.head
  retiring : ∀ a item, call ≠ .popDelete a item
  spared : ∀ a, call.touches = some a → a ∉ s.deleted

/-- A call that is over, or one that does not look at a node next, fits. -/
theorem fits_of_none (halone : call.InPop → thread = popper) (hhead : call.oldHead = none)
    (hdelete : ∀ a item, call ≠ .popDelete a item) (htouches : call.touches = none) :
    Fits popper thread s call where
  alone := halone
  current := fun a ha ↦ by rw [hhead] at ha; cases ha
  retiring := hdelete
  spared := fun a ha ↦ by rw [htouches] at ha; cases ha

theorem retired_new [Inhabited T] (popper : ι) :
    (new : LockFreeQueue ι T).Retired popper [0] 0 where
  shape := shape_new
  alone := fun _ hpop ↦ absurd hpop id
  behind := fun _ ha ↦ by cases ha
  current := nofun
  retiring := nofun
  spared := nofun

variable [DecidableEq ι]

theorem Retired.go {s₁ : LockFreeQueue ι T} (hretired : s.Retired popper chain t)
    (hchain : chain <+: chain') (hshape : (s₁.go thread call).Shape chain' t')
    (hcalls : s₁.calls = s.calls) (hdeleted : s₁.deleted = s.deleted) (hhead : s₁.head = s.head)
    (hpopped : s₁.popped = s.popped) (hfits : Fits popper thread s call) :
    (s₁.go thread call).Retired popper chain' t' := by
  have hdeleted' : (s₁.go thread call).deleted = s.deleted := hdeleted
  have hpopped' : (s₁.go thread call).popped = s.popped := hpopped
  have hhead' : (s₁.go thread call).head = s.head := hhead
  have hother {other : ι} (hne : other ≠ thread) :
      (s₁.go thread call).calls other = s.calls other := by
    rw [calls_go_of_ne hne, hcalls]
  refine ⟨hshape, fun other hpop ↦ ?_, fun a ha ↦ ?_, fun a ha ↦ ?_, fun a item ha ↦ ?_,
    fun other a ha ↦ ?_⟩
  · by_cases hthread : other = thread
    · rw [hthread, calls_go_self] at hpop
      exact hthread.trans (hfits.alone hpop)
    · rw [hother hthread] at hpop
      exact hretired.alone other hpop
  · rw [hdeleted'] at ha
    obtain ⟨i, hlt, hi⟩ := hretired.behind a ha
    rw [hpopped']
    exact ⟨i, hlt, getElem?_of_prefix hchain hi⟩
  · rw [hhead']
    by_cases hthread : popper = thread
    · rw [hthread, calls_go_self] at ha
      exact hfits.current a ha
    · rw [hother hthread] at ha
      exact hretired.current a ha
  · by_cases hthread : popper = thread
    · rw [hthread, calls_go_self] at ha
      exact absurd ha (hfits.retiring a item)
    · rw [hother hthread] at ha
      obtain ⟨i, hlt, hi⟩ := hretired.retiring a item ha
      rw [hpopped']
      exact ⟨i, hlt, getElem?_of_prefix hchain hi⟩
  · rw [hdeleted']
    by_cases hthread : other = thread
    · rw [hthread, calls_go_self] at ha
      exact hfits.spared a ha
    · rw [hother hthread] at ha
      exact hretired.spared other a ha

/-- The node has been unlinked, and `old_head` is behind `head_`. -/
theorem Retired.unlink {oldHead firstNode : ℕ} {item : T} (hretired : s.Retired popper chain t)
    (hcall : s.calls popper = .popSwap oldHead firstNode item)
    (hchain : chain <+: chain')
    (hshape : ((s.unlink firstNode item).go popper (.popDelete oldHead item)).Shape chain' t') :
    ((s.unlink firstNode item).go popper (.popDelete oldHead item)).Retired popper chain' t' := by
  have hlength : (s.popped ++ [item]).length = s.popped.length + 1 := by simp
  have hother {other : ι} (hne : other ≠ popper) : ((s.unlink firstNode item).go popper
      (.popDelete oldHead item)).calls other = s.calls other := calls_go_of_ne hne _ _
  refine ⟨hshape, fun other hpop ↦ ?_, fun a ha ↦ ?_, fun a ha ↦ ?_, fun a item' ha ↦ ?_,
    fun other a ha ↦ ?_⟩
  · by_cases hpopper : other = popper
    · exact hpopper
    · rw [hother hpopper] at hpop
      exact hretired.alone other hpop
  · obtain ⟨i, hlt, hi⟩ := hretired.behind a ha
    exact ⟨i, hlt.trans (hlength ▸ Nat.lt_succ_self _), getElem?_of_prefix hchain hi⟩
  · rw [calls_go_self] at ha
    cases ha
  · rw [calls_go_self] at ha
    cases ha
    have hhead : oldHead = s.head := hretired.current oldHead (by rw [hcall]; rfl)
    exact ⟨s.popped.length, hlength ▸ Nat.lt_succ_self _,
      getElem?_of_prefix hchain (hhead ▸ hretired.shape.head)⟩
  · by_cases hpopper : other = popper
    · rw [hpopper, calls_go_self] at ha
      cases ha
    · rw [hother hpopper] at ha
      exact hretired.spared other a ha

/-- A node is deleted that no call is about to go through. -/
theorem Retired.delete {oldHead : ℕ} {item : T} (hretired : s.Retired popper chain t)
    (hcall : s.calls popper = .popDelete oldHead item)
    (hguarded : ∀ other, (s.calls other).touches ≠ some oldHead) (hchain : chain <+: chain')
    (hshape : (({ s with deleted := oldHead :: s.deleted } : LockFreeQueue ι T).go popper
      (.popCount item)).Shape chain' t') :
    (({ s with deleted := oldHead :: s.deleted } : LockFreeQueue ι T).go popper
      (.popCount item)).Retired popper chain' t' := by
  have hother {other : ι} (hne : other ≠ popper) :
      (({ s with deleted := oldHead :: s.deleted } : LockFreeQueue ι T).go popper
        (.popCount item)).calls other = s.calls other := calls_go_of_ne hne _ _
  refine ⟨hshape, fun other hpop ↦ ?_, fun a ha ↦ ?_, fun a ha ↦ ?_, fun a item' ha ↦ ?_,
    fun other a ha ↦ ?_⟩
  · by_cases hpopper : other = popper
    · exact hpopper
    · rw [hother hpopper] at hpop
      exact hretired.alone other hpop
  · obtain ⟨i, hlt, hi⟩ : ∃ i, i < s.popped.length ∧ chain[i]? = some a := by
      rcases List.mem_cons.mp ha with rfl | hold
      · exact hretired.retiring a item hcall
      · exact hretired.behind a hold
    exact ⟨i, hlt, getElem?_of_prefix hchain hi⟩
  · rw [calls_go_self] at ha
    cases ha
  · rw [calls_go_self] at ha
    cases ha
  · by_cases hpopper : other = popper
    · rw [hpopper, calls_go_self] at ha
      cases ha
    · rw [hother hpopper] at ha
      intro hdeleted
      rcases List.mem_cons.mp hdeleted with rfl | hold
      · exact hguarded other ha
      · exact hretired.spared other a ha hold

/-- A step of the thread that pops. -/
theorem Retired.advance_pop (hretired : s.Retired popper chain t)
    (hpop : (s.calls popper).InPop) (hguarded : Guarded (.step popper) s)
    (hstep : s.advance popper = some s') : ∃ chain' t', s'.Retired popper chain' t' := by
  obtain ⟨chain', t', hchain, hshape⟩ := hretired.shape.advance_pop hpop hstep
  have hholds := hretired.shape.holds popper
  have hcurrent := hretired.current
  refine ⟨chain', t', ?_⟩
  unfold LockFreeQueue.advance at hstep
  cases hcall : s.calls popper <;> rw [hcall] at hholds hpop hstep hcurrent <;>
    dsimp only at hstep
  case popHead =>
    cases hstep
    refine hretired.go hchain hshape rfl rfl rfl rfl ⟨fun _ ↦ rfl, ?_, nofun, nofun⟩
    intro a ha
    cases ha
    rfl
  case popTail oldHead =>
    cases hstep
    have hhead : oldHead = s.head := hcurrent oldHead rfl
    refine hretired.go hchain hshape rfl rfl rfl rfl ⟨fun _ ↦ rfl, ?_, nofun, ?_⟩
    · intro a ha
      cases ha
      exact hhead
    · intro a ha
      cases ha
      exact hretired.not_deleted (hhead ▸ hretired.shape.head) le_rfl
  case popNext oldHead oldTail =>
    cases hstep
    exact hretired.go hchain hshape rfl rfl rfl rfl ⟨fun _ ↦ rfl, hcurrent, nofun, nofun⟩
  case popCheck oldHead oldTail firstNode =>
    obtain ⟨i, j, hi, hj, hij, hjt, hnext, hnone⟩ := hholds
    split_ifs at hstep with hhead htail
    · cases hstep
      exact hretired.go hchain hshape rfl rfl rfl rfl (fits_of_none (fun _ ↦ rfl) rfl nofun rfl)
    · cases firstNode with
      | none =>
        cases hstep
        exact hretired.go hchain hshape rfl rfl rfl rfl (fits_of_none nofun rfl nofun rfl)
      | some a =>
        cases hstep
        exact hretired.go hchain hshape rfl rfl rfl rfl (fits_of_none (fun _ ↦ rfl) rfl nofun rfl)
    · cases hstep
      refine hretired.go hchain hshape rfl rfl rfl rfl ⟨fun _ ↦ rfl, hcurrent, nofun, ?_⟩
      intro a ha
      have hplace : s.popped.length = i :=
        index_unique hretired.shape.nodup hretired.shape.head (hcurrent oldHead rfl ▸ hi)
      exact hretired.not_deleted (hnext a ha) (by omega)
  case popHelp oldTail firstNode =>
    cases hstep
    exact hretired.go hchain hshape rfl rfl rfl rfl (fits_of_none (fun _ ↦ rfl) rfl nofun rfl)
  case popData oldHead firstNode =>
    obtain ⟨i, a, rfl, hi, hnext, hit⟩ := hholds
    cases hstep
    exact hretired.go hchain hshape rfl rfl rfl rfl ⟨fun _ ↦ rfl, hcurrent, nofun, nofun⟩
  case popSwap oldHead firstNode item =>
    split_ifs at hstep with hhead
    · cases hstep
      exact hretired.unlink hcall hchain hshape
    · cases hstep
      exact hretired.go hchain hshape rfl rfl rfl rfl (fits_of_none (fun _ ↦ rfl) rfl nofun rfl)
  case popDelete oldHead item =>
    cases hstep
    exact hretired.delete hcall (hguarded oldHead item hcall) hchain hshape
  case popCount item =>
    cases hstep
    exact hretired.go hchain hshape rfl rfl rfl rfl (fits_of_none nofun rfl nofun rfl)
  all_goals exact absurd hpop id

/-- A step of a call of `push`, or of none. -/
theorem Retired.advance_push (hretired : s.Retired popper chain t)
    (hpush : ¬ (s.calls thread).InPop) (hstep : s.advance thread = some s') :
    ∃ chain' t', s'.Retired popper chain' t' := by
  obtain ⟨chain', t', hchain, hshape⟩ := hretired.shape.advance_push hpush hstep
  have htail := hretired.not_deleted hretired.shape.tail hretired.shape.le
  refine ⟨chain', t', ?_⟩
  unfold LockFreeQueue.advance at hstep
  cases hcall : s.calls thread <;> rw [hcall] at hpush hstep <;> dsimp only at hstep
  case idle => cases hstep
  case popped item => cases hstep
  case undefined => cases hstep
  case pushNew item =>
    cases hstep
    exact hretired.go hchain hshape rfl rfl rfl rfl (fits_of_none nofun rfl nofun rfl)
  case pushTail enqueueNode =>
    cases hstep
    refine hretired.go hchain hshape rfl rfl rfl rfl ⟨nofun, nofun, nofun, fun a ha ↦ ?_⟩
    cases ha
    exact htail
  case pushNext enqueueNode oldTail =>
    cases hstep
    exact hretired.go hchain hshape rfl rfl rfl rfl (fits_of_none nofun rfl nofun rfl)
  case pushCheck enqueueNode oldTail oldTailNext =>
    split_ifs at hstep with hmoved
    · cases hstep
      exact hretired.go hchain hshape rfl rfl rfl rfl (fits_of_none nofun rfl nofun rfl)
    · cases oldTailNext with
      | none =>
        cases hstep
        refine hretired.go hchain hshape rfl rfl rfl rfl ⟨nofun, nofun, nofun, fun a ha ↦ ?_⟩
        cases ha
        exact not_not.mp hmoved ▸ htail
      | some a =>
        cases hstep
        exact hretired.go hchain hshape rfl rfl rfl rfl (fits_of_none nofun rfl nofun rfl)
  case pushLink enqueueNode oldTail =>
    split_ifs at hstep with hlast
    · cases hstep
      exact hretired.go hchain hshape rfl rfl rfl rfl (fits_of_none nofun rfl nofun rfl)
    · cases hstep
      exact hretired.go hchain hshape rfl rfl rfl rfl (fits_of_none nofun rfl nofun rfl)
  case pushHelp enqueueNode oldTail oldTailNext =>
    cases hstep
    exact hretired.go hchain hshape rfl rfl rfl rfl (fits_of_none nofun rfl nofun rfl)
  case pushSwing enqueueNode oldTail =>
    cases hstep
    exact hretired.go hchain hshape rfl rfl rfl rfl (fits_of_none nofun rfl nofun rfl)
  case pushCount =>
    cases hstep
    exact hretired.go hchain hshape rfl rfl rfl rfl (fits_of_none nofun rfl nofun rfl)
  all_goals exact absurd trivial hpush

theorem Retired.step {act : Act ι T} (hretired : s.Retired popper chain t)
    (hpopper : PoppedBy popper act) (hguarded : Guarded act s)
    (hstep : step act s = some s') : ∃ chain' t', s'.Retired popper chain' t' := by
  cases act with
  | push other item =>
    obtain ⟨chain', t', hchain, hshape⟩ := hretired.shape.step hstep
    simp only [LockFreeQueue.step] at hstep
    split_ifs at hstep
    cases hstep
    refine ⟨chain', t', hretired.go hchain hshape rfl rfl rfl rfl (fits_of_none ?_ rfl ?_ rfl)⟩
    · intro hpop
      cases hpop
    · intro a data hdelete
      cases hdelete
  | pop other =>
    obtain ⟨chain', t', hchain, hshape⟩ := hretired.shape.step hstep
    simp only [LockFreeQueue.step] at hstep
    split_ifs at hstep
    cases hstep
    refine ⟨chain', t',
      hretired.go hchain hshape rfl rfl rfl rfl (fits_of_none (fun _ ↦ hpopper) rfl ?_ rfl)⟩
    intro a data hdelete
    cases hdelete
  | step other =>
    by_cases hpop : (s.calls other).InPop
    · cases hretired.alone other hpop
      exact hretired.advance_pop hpop hguarded hstep
    · exact hretired.advance_push hpop hstep

/-- A delete of a node that a call is about to go through leaves the call before a deleted node. -/
theorem guarded_of_spared {act : Act ι T} (hstep : step act s = some s') (hspared : s'.Spared) :
    Guarded act s := by
  cases act with
  | step thread =>
    intro a item hcall other htouches
    have hne : other ≠ thread := by
      rintro rfl
      rw [hcall] at htouches
      cases htouches
    have hsame : (s'.calls other).touches = some a := by
      rw [calls_step_of_ne hstep hne, htouches]
    simp only [step, advance, hcall] at hstep
    cases hstep
    exact hspared other a hsame List.mem_cons_self
  | _ => trivial

/-- With a single thread that pops: as long as no node is deleted that a call is about to go
through, no step reads or swaps a field of a deleted node; and no call is ever about to do this
exactly if no such node is deleted. -/
theorem untouched_run [Inhabited T] (popper : ι) (schedule : List (Act ι T))
    (s : LockFreeQueue ι T) (hpopper : ∀ thread, Act.pop thread ∈ schedule → thread = popper)
    (hrun : run step schedule new = some s) :
    (Meets step new Guarded schedule → Meets step new Untouching schedule) ∧
      (Along step new Spared schedule ↔ Meets step new Guarded schedule) := by
  have hspared (hguarded : Meets step new Guarded schedule) : Along step new Spared schedule := by
    have hpoppedBy : ∀ act ∈ schedule, PoppedBy popper act := by
      intro act hact
      cases act with
      | pop thread => exact hpopper thread hact
      | _ => trivial
    have hretired : Along step new (fun s ↦ ∃ chain t, s.Retired popper chain t) schedule :=
      along_of_meets ⟨[0], 0, retired_new popper⟩
        (fun _ _ _ hmeets ⟨_, _, hretired⟩ hstep ↦ hretired.step hmeets.1 hmeets.2 hstep)
        ((meets_of_mem hpoppedBy).and hguarded)
    exact hretired.imp fun _ ⟨_, _, hretired⟩ ↦ hretired.spared
  refine ⟨fun hguarded past act s hprefix hpast ↦ ?_, fun halong ↦ ?_, hspared⟩
  · cases act with
    | step thread =>
      exact hspared hguarded past s ((List.prefix_append past _).trans hprefix) hpast thread
    | _ => trivial
  · exact meets_of_along (fun _ _ _ _ ↦ guarded_of_spared) hrun halong

/-- One thread pushes an item, and then another one pops it. -/
def inTurn : List (Act Bool ℕ) :=
  .push true 5 :: List.replicate 7 (.step true) ++ .pop false :: List.replicate 8 (.step false)

theorem untouched_inTurn : Meets step (new : LockFreeQueue Bool ℕ) Untouching inTurn := by
  refine (untouched_run false inTurn _ (by simp [inTurn]) rfl).1 ?_
  simp only [inTurn, List.replicate, List.cons_append, List.nil_append]
  repeat
    refine meets_cons ?_ fun s hs ↦ ?_
    · first
      | exact trivial
      | intro a item hcall other
        cases hcall
        try cases other <;> decide
    cases hs
  exact meets_nil _

/-- A thread loads `tail_`, another one pushes an item, this is popped, and the node that the first
thread has loaded is deleted before it reads its `next_`. -/
def stale : List (Act ℕ ℕ) :=
  [.push 1 5, .step 1, .step 1, .push 2 6] ++ List.replicate 7 (.step 2) ++ [.pop 0] ++
    List.replicate 7 (.step 0)

theorem not_untouched_stale : ¬ Meets step new Untouching (stale ++ [.step 1]) := by
  intro hmeets
  have hstate : run step stale new = some _ := rfl
  exact hmeets.last hstate 0 rfl List.mem_cons_self

end LockFreeQueue

end LWebServer
