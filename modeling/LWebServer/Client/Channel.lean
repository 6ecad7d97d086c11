import LWebServer.Base.Bytes
import LWebServer.Library.Handover
import LWebServer.Library.Schedule

/-!
# Tasks for the client's loop

`ClientChannel::push` writes to an `eventfd` and then puts a task in `Events`. `RunAndPop` reads the
`eventfd`, which resets it, and takes as many tasks from `Events` as it has read. A task that the
loop takes from an empty `Events` is not one.
-/

namespace LWebServer

open Schedule

variable {τ : Type}

/-- `ws::ClientChannel` and those who use it. `pushing` are the tasks of the calls of `push` that
have written to the `eventfd` and not put their task in `Events`; `temp` is what the loop of
`RunAndPop` has to go; `pushed` and `ran` are the tasks that have been put in `Events` and run so
far. -/
structure ClientChannel (τ : Type) where
  events : List τ
  eventfd : ℕ
  pushing : List τ
  temp : ℕ
  pushed : List τ
  ran : List τ
  /-- `RunAndPop` has taken the front of an empty `Events`. -/
  undefined : Bool

namespace ClientChannel

/-- A step of a call of `push` or of the loop. -/
inductive Act (τ : Type) where
  /-- A call of `push` writes to the `eventfd`. -/
  | write (task : τ)
  /-- One of the calls of `push` that have written puts its task in `Events`. -/
  | push (call : ℕ)
  /-- `RunAndPop` reads the `eventfd`. -/
  | read
  /-- `RunAndPop` executes the body of its loop. -/
  | runAndPop

def step : Act τ → ClientChannel τ → Option (ClientChannel τ)
  | .write task, c => some { c with
      eventfd := c.eventfd + 1
      pushing := c.pushing ++ [task] }
  | .push call, c => match c.pushing[call]? with
    | some task => some { c with
        events := c.events ++ [task]
        pushing := c.pushing.eraseIdx call
        pushed := c.pushed ++ [task] }
    | none => none
  | .read, c =>
    if c.temp = 0 then some { c with temp := c.eventfd, eventfd := 0 } else none
  | .runAndPop, c =>
    if c.temp = 0 ∨ c.undefined then none
    else match c.events with
      | [] => some { c with undefined := true }
      | task :: events => some { c with
          events := events
          temp := c.temp - 1
          ran := c.ran ++ [task] }

def new : ClientChannel τ where
  events := []
  eventfd := 0
  pushing := []
  temp := 0
  pushed := []
  ran := []
  undefined := false

/-- Every task that has been taken was there; every task that has been pushed has run, in this
order, or waits in `Events`; and what waits is covered by the `eventfd` and the loop. -/
structure Safe (c : ClientChannel τ) : Prop where
  defined : c.undefined = false
  order : c.ran ++ c.events = c.pushed
  covered : c.events.length ≤ c.eventfd + c.temp

/-- When `RunAndPop` takes a task, fewer calls of `push` are between their write and their push than
the `eventfd` and the loop have units. -/
def Timely : Act τ → ClientChannel τ → Prop
  | .runAndPop, c => c.pushing.length < c.eventfd + c.temp
  | _, _ => True

/-- When `RunAndPop` reads the `eventfd`, no call of `push` is between its write and its push. -/
def Quiet : Act τ → ClientChannel τ → Prop
  | .read, c => c.pushing = []
  | _, _ => True

/-- `Events` and the `eventfd`, as a line and a counter. -/
def handover (c : ClientChannel τ) : Handover τ where
  line := c.events
  taken := c.ran
  owed := 0
  early := c.pushing.length
  units := c.eventfd
  claims := c.temp

/-- A state that the channel reaches as long as `RunAndPop` takes tasks in time. -/
structure Regular (c : ClientChannel τ) : Prop where
  balanced : c.handover.Balanced
  items : c.handover.items = c.pushed
  defined : c.undefined = false

theorem Regular.safe {c : ClientChannel τ} (hregular : c.Regular) : c.Safe :=
  ⟨hregular.defined, hregular.items, hregular.balanced.length_le⟩

theorem regular_new : (new : ClientChannel τ).Regular := ⟨rfl, rfl, rfl⟩

variable {c c' : ClientChannel τ}

theorem regular_write {task : τ} (hregular : c.Regular) (hstep : step (.write task) c = some c') :
    c'.Regular := by
  cases hstep
  have hbalanced := hregular.balanced.promise
  refine ⟨?_, hregular.items, hregular.defined⟩
  simpa [handover, Handover.promise] using hbalanced

theorem regular_push {call : ℕ} (hregular : c.Regular) (hstep : step (.push call) c = some c') :
    c'.Regular := by
  cases hcall : c.pushing[call]? with
  | none => simp [step, hcall] at hstep
  | some task =>
    have hlt : call < c.pushing.length := (List.getElem?_eq_some_iff.mp hcall).1
    simp only [step, hcall] at hstep
    cases hstep
    have hbalanced := hregular.balanced.keep task (Nat.zero_lt_of_lt hlt)
    have hitems := Handover.items_keep task c.handover
    rw [hregular.items] at hitems
    refine ⟨?_, hitems, hregular.defined⟩
    simpa [handover, Handover.keep, List.length_eraseIdx_of_lt hlt] using hbalanced

theorem regular_read (hregular : c.Regular) (hstep : step .read c = some c') : c'.Regular := by
  unfold step at hstep
  dsimp only at hstep
  split_ifs at hstep with htemp
  cases hstep
  have hbalanced := hregular.balanced.collect
  refine ⟨?_, hregular.items, hregular.defined⟩
  simpa [handover, Handover.collect, htemp] using hbalanced

/-- The loop takes a task that is there exactly if it is in time. -/
theorem events_ne_nil_iff (hregular : c.Regular) :
    c.events ≠ [] ↔ c.pushing.length < c.eventfd + c.temp := by
  have hempty : c.events = [] ↔ c.eventfd + c.temp + 0 ≤ c.pushing.length :=
    hregular.balanced.line_eq_nil_iff
  rw [Ne, hempty, Nat.add_zero, not_le]

theorem regular_runAndPop (hregular : c.Regular) (htimely : Timely .runAndPop c)
    (hstep : step .runAndPop c = some c') : c'.Regular := by
  have hline : c.handover.line ≠ [] := (events_ne_nil_iff hregular).mpr htimely
  cases hevents : c.events with
  | nil => exact absurd hevents hline
  | cons task events =>
    simp only [step, hevents] at hstep
    split_ifs at hstep with htemp
    cases hstep
    have hclaims : 0 < c.temp := Nat.pos_of_ne_zero fun h ↦ htemp (.inl h)
    have hbalanced := hregular.balanced.take hclaims hline
    have hitems := Handover.items_take c.handover
    rw [hregular.items] at hitems
    refine ⟨?_, ?_, hregular.defined⟩
    · simpa [handover, Handover.take, hevents] using hbalanced
    · simpa [handover, Handover.take, hevents, Handover.items] using hitems

theorem regular_step {act : Act τ} (htimely : Timely act c) (hregular : c.Regular)
    (hstep : step act c = some c') : c'.Regular := by
  cases act with
  | write task => exact regular_write hregular hstep
  | push call => exact regular_push hregular hstep
  | read => exact regular_read hregular hstep
  | runAndPop => exact regular_runAndPop hregular htimely hstep

/-- A channel that has not met an empty `Events`. -/
def Steady (c : ClientChannel τ) : Prop := c.undefined = false → c.Regular

theorem steady_step {act : Act τ} (hsteady : c.Steady) (hstep : step act c = some c') :
    c'.Steady := by
  intro hdefined
  have hregular : c.Regular := by
    apply hsteady
    revert hdefined
    cases act with
    | write task =>
      cases hstep
      exact id
    | push call =>
      cases hcall : c.pushing[call]? <;> simp only [step, hcall] at hstep <;> cases hstep
      exact id
    | read =>
      simp only [step] at hstep
      split_ifs at hstep
      cases hstep
      exact id
    | runAndPop =>
      simp only [step] at hstep
      split_ifs at hstep with htemp
      exact fun _ ↦ Bool.eq_false_iff.mpr fun h ↦ htemp (.inr h)
  refine regular_step ?_ hregular hstep
  cases act with
  | runAndPop =>
    refine (events_ne_nil_iff hregular).mp fun hevents ↦ ?_
    simp only [step, hevents] at hstep
    split_ifs at hstep
    cases hstep
    cases hdefined
  | _ => trivial

/-- A step from one state without an accident to another one was in time. -/
theorem timely_of_safe {act : Act τ} (hregular : c.Regular) (hstep : step act c = some c')
    (hsafe : c'.Safe) : Timely act c := by
  cases act with
  | runAndPop =>
    refine (events_ne_nil_iff hregular).mp fun hevents ↦ ?_
    simp only [step, hevents] at hstep
    split_ifs at hstep
    cases hstep
    cases hsafe.defined
  | _ => trivial

theorem along_of_timely {schedule : List (Act τ)} (htimely : Meets step new Timely schedule) :
    Along step new Safe schedule := by
  have hregular : Along step new Regular schedule :=
    along_of_meets regular_new (fun _ _ _ ↦ regular_step) htimely
  exact hregular.imp fun _ ↦ Regular.safe

/-- In every run of calls of `push` and of `RunAndPop`, no task is taken from an empty `Events`, and
each task runs once and in order, exactly if `RunAndPop` always takes its tasks in time. -/
theorem safe_run_iff (schedule : List (Act τ)) (c : ClientChannel τ)
    (hrun : run step schedule new = some c) :
    Along step new Safe schedule ↔ Meets step new Timely schedule := by
  constructor
  · intro hsafe
    have hsteady : Along step new Steady schedule :=
      along_of_invariant (fun _ ↦ regular_new) (fun _ _ _ ↦ steady_step) schedule
    have hboth : Along step new (fun c ↦ c.Safe ∧ c.Regular) schedule :=
      fun past c hpast hrun ↦ ⟨hsafe past c hpast hrun,
        hsteady past c hpast hrun (hsafe past c hpast hrun).defined⟩
    exact meets_of_along (fun _ _ _ hbefore hstep hafter ↦
      timely_of_safe hbefore.2 hstep hafter.1) hrun hboth
  · exact along_of_timely

/-- Every call of `push` that is between its two steps has written since the last read. -/
def Recent (c : ClientChannel τ) : Prop := c.pushing.length ≤ c.eventfd

theorem recent_step {act : Act τ} (hquiet : Quiet act c) (hrecent : c.Recent)
    (hstep : step act c = some c') : c'.Recent := by
  unfold Recent at hrecent ⊢
  cases act with
  | write task =>
    cases hstep
    simpa using hrecent
  | push call =>
    cases hcall : c.pushing[call]? <;> simp only [step, hcall] at hstep <;> cases hstep
    exact (List.length_eraseIdx_le c.pushing call).trans hrecent
  | read =>
    simp only [step] at hstep
    split_ifs at hstep
    cases hstep
    simp only [Quiet] at hquiet
    simp [hquiet]
  | runAndPop =>
    cases hevents : c.events <;> simp only [step, hevents] at hstep <;> split_ifs at hstep <;>
      cases hstep <;> exact hrecent

/-- It is enough that `RunAndPop` never reads the `eventfd` in the middle of a call of `push`. -/
theorem safe_of_quiet {schedule : List (Act τ)} {c : ClientChannel τ}
    (hrun : run step schedule new = some c) (hquiet : Meets step new Quiet schedule) :
    Along step new Safe schedule := by
  have hrecent : Along step new Recent schedule :=
    along_of_meets le_rfl (fun _ _ _ ↦ recent_step) hquiet
  refine along_of_timely (meets_of_along (fun act c c' hrecent hstep _ ↦ ?_) hrun hrecent)
  cases act with
  | runAndPop =>
    simp only [step] at hstep
    split_ifs at hstep with htemp
    have hpos : 0 < c.temp := Nat.pos_of_ne_zero fun h ↦ htemp (.inl h)
    exact Nat.lt_of_le_of_lt hrecent (Nat.lt_add_of_pos_right hpos)
  | _ => trivial

theorem safe_two_tasks : Along step (new : ClientChannel ℕ) Safe
    [.write 5, .push 0, .write 6, .read, .runAndPop, .push 0, .runAndPop] := by
  apply (safe_run_iff _ _ rfl).mpr
  repeat
    refine meets_cons (by simp [Timely, new]) fun s hs ↦ ?_
    cases hs
  exact meets_nil _

/-- `RunAndPop` comes between the two steps of a call of `push`. -/
theorem not_safe_between :
    ¬ Along step (new : ClientChannel ℕ) Safe [.write 5, .read, .runAndPop] := by
  intro hsafe
  cases (hsafe.last rfl).defined

end ClientChannel

end LWebServer
