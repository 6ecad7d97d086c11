import LWebServer.Library.Handover
import LWebServer.Library.Schedule
import LWebServer.Tool.LoadBalance

/-!
# Accepted sockets on their way to a worker

The accept thread pushes a descriptor into the queue of the worker that the load balancer picks and
then writes to the `eventfd` of this worker. The worker reads its `eventfd`, which resets it, and
takes as many descriptors from its queue as it has read.
-/

namespace LWebServer

open Schedule

/-- A worker: its queue, the counter of its `eventfd`, the turns that its loop over `Temp` has to
go, and the descriptors that it has registered, in this order. -/
structure Recipient where
  queue : List ℕ
  eventfd : ℕ
  temp : ℕ
  registered : List ℕ

/-- The accept thread and its `n` workers. `owing` is the worker whose `eventfd` a `Distribution`
has still to write; `distributed` is what has been pushed so far. -/
structure Distributing (n : ℕ) where
  workers : Fin n → Recipient
  balance : LoadBalance n
  owing : Option (Fin n)
  distributed : List (Fin n × ℕ)
  /-- An assertion of `looping` has failed. -/
  aborted : Bool

namespace Distributing

variable {n : ℕ}

/-- A step of the accept thread or of a worker. -/
inductive Act (n : ℕ) where
  /-- `Distribution` picks a worker and pushes the descriptor. -/
  | push (fd : ℕ)
  /-- `Distribution` writes to the `eventfd`. -/
  | write
  /-- The accept thread calls `ExtractDataDromLockFreeQueue` and finds these items. -/
  | extract (items : List ThreadLoadData)
  /-- A worker reads its `eventfd`. -/
  | read (index : Fin n)
  /-- A worker executes the body of its loop over `Temp`. -/
  | pop (index : Fin n)

def setWorker (index : Fin n) (worker : Recipient) (s : Distributing n) : Distributing n :=
  { s with workers := Function.update s.workers index worker }

def step [NeZero n] : Act n → Distributing n → Option (Distributing n)
  | .push fd, s => match s.owing with
    | none =>
      let (index, balance) := s.balance.distribution
      let worker := s.workers index
      some { s.setWorker index { worker with queue := worker.queue ++ [fd] } with
        balance := balance
        owing := some index
        distributed := s.distributed ++ [(index, fd)] }
    | some _ => none
  | .write, s => match s.owing with
    | some index =>
      let worker := s.workers index
      some { s.setWorker index { worker with eventfd := worker.eventfd + 1 } with owing := none }
    | none => none
  | .extract items, s => match s.owing with
    | none => (items.foldlM (fun b item ↦ LoadBalance.account item b) s.balance.beginExtract).map
      fun balance ↦ { s with balance := balance.endExtract }
    | some _ => none
  | .read index, s =>
    let worker := s.workers index
    if worker.temp = 0 then
      some (s.setWorker index { worker with temp := worker.eventfd, eventfd := 0 })
    else none
  | .pop index, s =>
    let worker := s.workers index
    if worker.temp = 0 then none
    else match worker.queue with
      | [] => some { s with aborted := true }
      | fd :: queue => some (s.setWorker index { worker with
          queue := queue
          temp := worker.temp - 1
          registered := worker.registered ++ [fd] })

/-- No descriptor has been distributed. -/
def new (balance : LoadBalance n) : Distributing n where
  workers := fun _ ↦ ⟨[], 0, 0, []⟩
  balance := balance
  owing := none
  distributed := []
  aborted := false

/-- One if the accept thread has still to write to the `eventfd` of a worker. -/
def owed (s : Distributing n) (index : Fin n) : ℕ := if s.owing = some index then 1 else 0

/-- The descriptors that a worker has been given. -/
def given (s : Distributing n) (index : Fin n) : List ℕ :=
  (s.distributed.filter fun entry ↦ entry.1 = index).map Prod.snd

@[simp]
theorem workers_setWorker (index : Fin n) (worker : Recipient) (s : Distributing n) :
    (s.setWorker index worker).workers = Function.update s.workers index worker := rfl

@[simp]
theorem owed_setWorker (index : Fin n) (worker : Recipient) (s : Distributing n) (other : Fin n) :
    (s.setWorker index worker).owed other = s.owed other := rfl

@[simp]
theorem given_setWorker (index : Fin n) (worker : Recipient) (s : Distributing n) (other : Fin n) :
    (s.setWorker index worker).given other = s.given other := rfl

/-- The queue of a worker and its `eventfd`, as a line and a counter. -/
def handover (s : Distributing n) (index : Fin n) : Handover ℕ where
  line := (s.workers index).queue
  taken := (s.workers index).registered
  owed := s.owed index
  early := 0
  units := (s.workers index).eventfd
  claims := (s.workers index).temp

/-- A state that the accept thread and the workers reach. -/
structure Regular (s : Distributing n) : Prop where
  balanced : ∀ index, (s.handover index).Balanced
  items : ∀ index, (s.handover index).items = s.given index
  asserts : s.aborted = false

theorem regular_new (balance : LoadBalance n) : (new balance).Regular :=
  ⟨fun _ ↦ rfl, fun _ ↦ rfl, rfl⟩

/-- What a step does to one worker is enough, if it leaves the others alone. -/
theorem Regular.of_worker {s s' : Distributing n} {h : Handover ℕ} (hregular : s.Regular)
    (index : Fin n)
    (hother : ∀ other, other ≠ index → s'.handover other = s.handover other ∧
      s'.given other = s.given other)
    (hhandover : s'.handover index = h) (hbalanced : h.Balanced) (hitems : h.items = s'.given index)
    (hasserts : s'.aborted = s.aborted) : s'.Regular := by
  refine ⟨fun other ↦ ?_, fun other ↦ ?_, hasserts.trans hregular.asserts⟩
  · by_cases hindex : other = index
    · rw [hindex, hhandover]
      exact hbalanced
    · rw [(hother other hindex).1]
      exact hregular.balanced other
  · by_cases hindex : other = index
    · rw [hindex, hhandover]
      exact hitems
    · rw [(hother other hindex).1, (hother other hindex).2]
      exact hregular.items other

section

variable [NeZero n] {s s' : Distributing n} {index : Fin n}

theorem regular_push {fd : ℕ} (hregular : s.Regular) (hstep : step (.push fd) s = some s') :
    s'.Regular := by
  cases howing : s.owing with
  | some index => simp [step, howing] at hstep
  | none =>
    simp only [step, howing] at hstep
    cases hstep
    apply hregular.of_worker s.balance.distribution.1
      (h := (s.handover s.balance.distribution.1).put fd)
    · intro other hother
      simp [handover, owed, howing, given, hother, hother.symm]
    · simp [handover, Handover.put, howing, owed]
    · exact (hregular.balanced _).put fd
    · rw [Handover.items_put, hregular.items]
      simp [given]
    · rfl

theorem regular_write (hregular : s.Regular) (hstep : step .write s = some s') : s'.Regular := by
  cases howing : s.owing with
  | none => simp [step, howing] at hstep
  | some index =>
    simp only [step, howing] at hstep
    cases hstep
    have howed : (s.handover index).owed = 1 := by simp [handover, owed, howing]
    apply hregular.of_worker index (h := (s.handover index).announce)
    · intro other hother
      simp [handover, setWorker, owed, howing, given, hother, hother.symm]
    · simp [handover, Handover.announce, howing, owed]
    · exact (hregular.balanced index).announce (by omega)
    · exact hregular.items index
    · rfl

theorem regular_extract {items : List ThreadLoadData} (hregular : s.Regular)
    (hstep : step (.extract items) s = some s') : s'.Regular := by
  obtain ⟨workers, balance, owing, distributed, aborted⟩ := s
  cases owing with
  | some index => cases hstep
  | none =>
    obtain ⟨balance', -, rfl⟩ := Option.map_eq_some_iff.mp hstep
    exact ⟨hregular.balanced, hregular.items, hregular.asserts⟩

theorem regular_read (hregular : s.Regular) (hstep : step (.read index) s = some s') :
    s'.Regular := by
  simp only [step] at hstep
  split_ifs at hstep with htemp
  cases hstep
  apply hregular.of_worker index (h := (s.handover index).collect)
  · intro other hother
    simp [handover, hother]
  · simp [handover, Handover.collect, htemp]
  · exact (hregular.balanced index).collect
  · exact hregular.items index
  · rfl

/-- The assertion of the loop holds. -/
theorem regular_pop (hregular : s.Regular) (hstep : step (.pop index) s = some s') :
    s'.Regular := by
  simp only [step] at hstep
  split_ifs at hstep with htemp
  have hclaims : 0 < (s.handover index).claims := Nat.pos_of_ne_zero htemp
  have hline : (s.handover index).line ≠ [] :=
    (hregular.balanced index).line_ne_nil (Nat.zero_le _) hclaims
  cases hqueue : (s.workers index).queue with
  | nil => exact absurd hqueue hline
  | cons fd queue =>
    simp only [hqueue] at hstep
    cases hstep
    apply hregular.of_worker index (h := (s.handover index).take)
    · intro other hother
      simp [handover, hother]
    · simp [handover, Handover.take, hqueue]
    · exact (hregular.balanced index).take hclaims hline
    · rw [Handover.items_take]
      exact hregular.items index
    · rfl

theorem regular_step {act : Act n} (hregular : s.Regular) (hstep : step act s = some s') :
    s'.Regular := by
  cases act with
  | push fd => exact regular_push hregular hstep
  | write => exact regular_write hregular hstep
  | extract items => exact regular_extract hregular hstep
  | read index => exact regular_read hregular hstep
  | pop index => exact regular_pop hregular hstep

end

/-- Two threads with the same weight. -/
def even : LoadBalance 2 where
  perThreadThroughput := fun _ ↦ 1
  currentWeight := fun _ ↦ 0
  totalWeight := 2
  perThreadConnectNumber := fun _ ↦ 0
  keepData := false

end Distributing

end LWebServer
