import LWebServer.Library.Tally
import LWebServer.Tool.QueueOrder

/-!
# What `count` counts

`push` counts a node after it has been linked, and `pop` after it has been unlinked and deleted. In
between `count` is behind, by as many nodes as there are calls in between.
-/

namespace LWebServer

open Schedule Tally

variable {ι T : Type}

namespace QueueCall

/-- The call of `push` has linked its node and not counted it. -/
def linking : QueueCall T → ℕ
  | pushSwing _ _ => 1
  | pushCount => 1
  | _ => 0

/-- What a call of `pop` has unlinked and not counted. -/
def taking : QueueCall T → Option T
  | popDelete _ data => some data
  | popCount data => some data
  | _ => none

def unlinking (call : QueueCall T) : ℕ := call.taking.toList.length

end QueueCall

namespace LockFreeQueue

/-- What a step of a call does to the size of the queue. -/
inductive Effect (thread : ι) (s s' : LockFreeQueue ι T) : Prop
  | quiet (count : s'.count = s.count) (pushed : s'.pushed = s.pushed)
      (popped : s'.popped = s.popped)
      (linking : (s'.calls thread).linking = (s.calls thread).linking)
      (taking : (s'.calls thread).taking = (s.calls thread).taking)
      (goesOn : ∀ item, s'.calls thread ≠ .popped (some item))
  | link (item : T) (count : s'.count = s.count) (pushed : s'.pushed = s.pushed ++ [item])
      (popped : s'.popped = s.popped) (before : (s.calls thread).linking = 0)
      (after : (s'.calls thread).linking = 1)
      (taking : (s'.calls thread).taking = (s.calls thread).taking)
      (push : ¬ (s.calls thread).InPop) (goesOn : ∀ item, s'.calls thread ≠ .popped (some item))
  | counted (count : s'.count = toInt (s.count + 1)) (pushed : s'.pushed = s.pushed)
      (popped : s'.popped = s.popped) (before : s.calls thread = .pushCount)
      (after : s'.calls thread = .idle)
  | unlink (item : T) (count : s'.count = s.count) (pushed : s'.pushed = s.pushed)
      (popped : s'.popped = s.popped ++ [item])
      (linking : (s'.calls thread).linking = (s.calls thread).linking)
      (before : (s.calls thread).taking = none) (after : (s'.calls thread).taking = some item)
  | returned (item : T) (count : s'.count = toInt (s.count - 1)) (pushed : s'.pushed = s.pushed)
      (popped : s'.popped = s.popped) (before : s.calls thread = .popCount item)
      (after : s'.calls thread = .popped (some item))

variable [DecidableEq ι] {s s' : LockFreeQueue ι T} {thread : ι}

theorem effect_advance (hstep : s.advance thread = some s') : Effect thread s s' := by
  have hquiet {call : QueueCall T} {s₁ : LockFreeQueue ι T} (hcount : s₁.count = s.count)
      (hpushed : s₁.pushed = s.pushed) (hpopped : s₁.popped = s.popped)
      (hlinking : call.linking = (s.calls thread).linking)
      (htaking : call.taking = (s.calls thread).taking)
      (hgoesOn : ∀ item, call ≠ .popped (some item)) : Effect thread s (s₁.go thread call) :=
    .quiet hcount hpushed hpopped (by rw [calls_go_self, hlinking])
      (by rw [calls_go_self, htaking]) (by rwa [calls_go_self])
  unfold advance at hstep
  cases hcall : s.calls thread <;> rw [hcall] at hstep hquiet <;> dsimp only at hstep
  case idle => cases hstep
  case popped item => cases hstep
  case undefined => cases hstep
  case popSwap oldHead firstNode data =>
    split_ifs at hstep
    · cases hstep
      exact .unlink data rfl rfl rfl (by rw [calls_go_self, hcall]; rfl) (by rw [hcall]; rfl)
        (by rw [calls_go_self]; rfl)
    · cases hstep
      exact hquiet rfl rfl rfl rfl rfl nofun
  case popCount data =>
    cases hstep
    exact .returned data rfl rfl rfl hcall (calls_go_self _ _ _)
  case pushLink enqueueNode oldTail =>
    split_ifs at hstep
    · cases hstep
      exact .link (s.data enqueueNode) rfl rfl rfl (by rw [hcall]; rfl) (by rw [calls_go_self]; rfl)
        (by rw [calls_go_self, hcall]; rfl) (by rw [hcall]; exact id)
        (by rw [calls_go_self]; exact nofun)
    · cases hstep
      exact hquiet rfl rfl rfl rfl rfl nofun
  case pushCount =>
    cases hstep
    exact .counted rfl rfl rfl hcall (calls_go_self _ _ _)
  all_goals
    try split_ifs at hstep
    all_goals try split at hstep
    all_goals
      cases hstep
      exact hquiet rfl rfl rfl rfl rfl nofun

/-- A call of `push` does not become one of `pop`. -/
theorem inPop_of_advance (hstep : s.advance thread = some s') (hpop : (s'.calls thread).InPop) :
    (s.calls thread).InPop := by
  unfold advance at hstep
  cases hcall : s.calls thread <;> rw [hcall] at hstep <;> dsimp only at hstep
  case idle => cases hstep
  case popped item => cases hstep
  case undefined => cases hstep
  case popHead | popTail | popNext | popCheck | popHelp => trivial
  case popData | popSwap | popDelete | popCount => trivial
  all_goals
    try split_ifs at hstep
    all_goals try split at hstep
    all_goals
      cases hstep
      rw [calls_go_self] at hpop
      exact hpop

/-- A call of `pop` goes on, or it returns. -/
theorem popped_of_advance (hstep : s.advance thread = some s') (hpop : (s.calls thread).InPop) :
    (s'.calls thread).InPop ∨ (∃ item, s'.calls thread = .popped item) ∨
      s'.calls thread = .undefined := by
  unfold advance at hstep
  cases hcall : s.calls thread <;> rw [hcall] at hstep hpop <;> dsimp only at hstep
  case popHead | popTail | popNext | popHelp | popDelete =>
    cases hstep
    rw [calls_go_self]
    exact .inl trivial
  case popCount data =>
    cases hstep
    rw [calls_go_self]
    exact .inr (.inl ⟨some data, rfl⟩)
  case popCheck oldHead oldTail firstNode =>
    split_ifs at hstep
    · cases hstep
      rw [calls_go_self]
      exact .inl trivial
    · cases firstNode <;> cases hstep <;> rw [calls_go_self]
      · exact .inr (.inl ⟨none, rfl⟩)
      · exact .inl trivial
    · cases hstep
      rw [calls_go_self]
      exact .inl trivial
  case popData oldHead firstNode =>
    cases firstNode <;> cases hstep <;> rw [calls_go_self]
    · exact .inr (.inr rfl)
    · exact .inl trivial
  case popSwap oldHead firstNode data =>
    split_ifs at hstep <;> cases hstep <;> rw [calls_go_self] <;> exact .inl trivial
  all_goals exact hpop.elim

theorem calls_advance (hstep : s.advance thread = some s') :
    s'.calls = Function.update s.calls thread (s'.calls thread) := by
  funext other
  by_cases hother : other = thread
  · rw [hother, Function.update_self]
  · rw [Function.update_of_ne hother]
    have hact : step (.step thread) s = some s' := hstep
    exact calls_step_of_ne hact hother

omit [DecidableEq ι] in
/-- A call that is over owes nothing. -/
theorem linking_of_over {call : QueueCall T} (hover : call.Over) :
    call.linking = 0 ∧ call.taking = none := by
  cases call <;> first | exact hover.elim | exact ⟨rfl, rfl⟩

/-! ## The account -/

variable [Fintype ι]

/-- What `count` should be: the nodes that have been linked, but not those that have not been
counted, without those that have been unlinked and counted; as an `int`. -/
def Accounted (s : LockFreeQueue ι T) : Prop :=
  s.count = toInt ((s.pushed.length + tally QueueCall.unlinking s.calls : ℕ) -
    (s.popped.length + tally QueueCall.linking s.calls : ℕ))

/-- An `int` that is counted up or down. -/
theorem toInt_add (count d : ℤ) : toInt (toInt count + d) = toInt (count + d) := by
  unfold toInt
  exact Int.bmod_add_bmod

theorem accounted_advance (haccounted : s.Accounted) (hstep : s.advance thread = some s') :
    s'.Accounted := by
  have hlinking := tally_update QueueCall.linking s.calls thread (s'.calls thread)
  have hunlinking := tally_update QueueCall.unlinking s.calls thread (s'.calls thread)
  rw [← calls_advance hstep] at hlinking hunlinking
  unfold Accounted at haccounted ⊢
  -- the account of a step that changes `count` by `d`
  have hsettle (d : ℤ) (hcount : s'.count = toInt (s.count + d))
      (hchange : (s'.pushed.length + tally QueueCall.unlinking s'.calls : ℤ) +
        (s.popped.length + tally QueueCall.linking s.calls) =
          s.pushed.length + tally QueueCall.unlinking s.calls +
            (s'.popped.length + tally QueueCall.linking s'.calls) + d) :
      s'.count = toInt ((s'.pushed.length + tally QueueCall.unlinking s'.calls : ℕ) -
        (s'.popped.length + tally QueueCall.linking s'.calls : ℕ)) := by
    rw [hcount, haccounted, toInt_add]
    congr 1
    push_cast
    omega
  have hsame (hcount : s'.count = s.count) : s'.count = toInt (s.count + 0) := by
    rw [hcount, haccounted, toInt_add, Int.add_zero]
  cases effect_advance hstep with
  | quiet count pushed popped linking taking goesOn =>
    apply hsettle 0 (hsame count)
    rw [pushed, popped]
    simp only [QueueCall.unlinking, taking] at hunlinking
    omega
  | link item count pushed popped before after taking push goesOn =>
    apply hsettle 0 (hsame count)
    rw [pushed, popped, List.length_append, List.length_singleton]
    rw [before, after] at hlinking
    simp only [QueueCall.unlinking, taking] at hunlinking
    omega
  | counted count pushed popped before after =>
    apply hsettle 1 count
    rw [pushed, popped]
    rw [before, after] at hlinking hunlinking
    simp only [QueueCall.linking, QueueCall.unlinking, QueueCall.taking] at hlinking hunlinking
    omega
  | unlink item count pushed popped linking before after =>
    apply hsettle 0 (hsame count)
    rw [pushed, popped, List.length_append, List.length_singleton]
    rw [linking] at hlinking
    simp only [QueueCall.unlinking, before, after, Option.toList_none, Option.toList_some,
      List.length_nil, List.length_singleton] at hunlinking
    omega
  | returned item count pushed popped before after =>
    apply hsettle (-1) count
    rw [pushed, popped]
    rw [before, after] at hlinking hunlinking
    simp only [QueueCall.linking, QueueCall.unlinking, QueueCall.taking, Option.toList_none,
      Option.toList_some, List.length_nil, List.length_singleton] at hlinking hunlinking
    omega

/-- A thread that is in no call begins one. -/
theorem accounted_go {call : QueueCall T} (haccounted : s.Accounted)
    (hover : (s.calls thread).Over) (hlinking : call.linking = 0) (htaking : call.taking = none) :
    (s.go thread call).Accounted := by
  obtain ⟨hlinking', htaking'⟩ := linking_of_over hover
  have hunlinking : call.unlinking = (s.calls thread).unlinking := by
    rw [QueueCall.unlinking, QueueCall.unlinking, htaking, htaking']
  unfold Accounted go
  dsimp only
  rw [tally_update_of_eq _ _ hunlinking, tally_update_of_eq _ _ (hlinking.trans hlinking'.symm)]
  exact haccounted

theorem accounted_step {act : Act ι T} (haccounted : s.Accounted) (hstep : step act s = some s') :
    s'.Accounted := by
  cases act with
  | push thread item =>
    simp only [step] at hstep
    split_ifs at hstep with hover
    cases hstep
    exact accounted_go haccounted hover rfl rfl
  | pop thread =>
    simp only [step] at hstep
    split_ifs at hstep with hover
    cases hstep
    exact accounted_go haccounted hover rfl rfl
  | step thread => exact accounted_advance haccounted hstep

omit [DecidableEq ι] in
theorem accounted_new [Inhabited T] : (new : LockFreeQueue ι T).Accounted := by
  have hlinking : tally QueueCall.linking (new : LockFreeQueue ι T).calls = 0 :=
    tally_eq_zero _ _ fun _ ↦ rfl
  have hunlinking : tally QueueCall.unlinking (new : LockFreeQueue ι T).calls = 0 :=
    tally_eq_zero _ _ fun _ ↦ rfl
  unfold Accounted
  rw [hlinking, hunlinking]
  simp [new, toInt]

omit [DecidableEq ι] [Fintype ι] in
/-- A small number is read back by `size`. -/
theorem toSize_toInt {n : ℕ} (hn : n < 2 ^ 31) : toSize (toInt n) = n := by
  have hsame : toInt n = n := by
    unfold toInt
    apply Int.bmod_eq_of_le <;> omega
  unfold toSize
  rw [hsame]
  omega

/-- In every run of calls of `push` and `pop`, `count` differs from the number of items in the queue
by what the calls in between have not counted, modulo `2 ^ 32`; and where there are none, `size`
gives this number, if there are fewer than `2 ^ 31` items. -/
theorem count_run [Inhabited T] (schedule : List (Act ι T))
    (hrun : run step schedule new = some s) : s.Accounted ∧ ((∀ thread, (s.calls thread).Over) →
      s.pushed.length < s.popped.length + 2 ^ 31 →
        s.popped.length + toSize s.count = s.pushed.length) := by
  have haccounted : s.Accounted :=
    invariant accounted_new (fun _ _ _ haccounted hstep ↦ accounted_step haccounted hstep) hrun
  refine ⟨haccounted, fun hover hfew ↦ ?_⟩
  have hlinking : tally QueueCall.linking s.calls = 0 :=
    tally_eq_zero _ _ fun thread ↦ (linking_of_over (hover thread)).1
  have hunlinking : tally QueueCall.unlinking s.calls = 0 :=
    tally_eq_zero _ _ fun thread ↦ by
      rw [QueueCall.unlinking, (linking_of_over (hover thread)).2]
      rfl
  obtain ⟨⟨chain, t, hshape⟩, -⟩ := reached_run hrun
  obtain ⟨rest, hrest⟩ := hshape.order
  have hlength : s.pushed.length = s.popped.length + rest.length := by
    rw [← hrest, List.length_append]
  have hcount : s.count = toInt (rest.length : ℤ) := by
    rw [haccounted, hlinking, hunlinking, hlength]
    congr 1
    push_cast
    omega
  rw [hcount, toSize_toInt (by omega), hlength]

/-- An item is pushed by one thread and popped by another one before the first has counted it. -/
def uncounted : List (Act Bool ℕ) :=
  .push true 5 :: List.replicate 6 (.step true) ++ .pop false :: List.replicate 8 (.step false)

theorem count_run_uncounted : ∃ s, run step uncounted (new : LockFreeQueue Bool ℕ) = some s ∧
    s.count = -1 ∧ s.Accounted :=
  ⟨_, rfl, by decide, (count_run uncounted rfl).1⟩

end LockFreeQueue

end LWebServer
