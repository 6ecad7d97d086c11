import LWebServer.Library.Handover
import LWebServer.Library.Schedule
import LWebServer.Tool.LoadBalance
import LWebServer.Tool.LockFreeQueue

/-!
# The queue of throughput reports

The workers push what they have sent, and the accept thread empties the queue in
`ExtractDataDromLockFreeQueue`. A push links its node and then increments `count`; a pop unlinks a
node and then decrements `count`. The accept thread pops as often as `count` said when it began.
-/

namespace LWebServer

open Schedule
open LockFreeQueue (toInt toSize)

/-- Where the accept thread is. -/
inductive Extraction where
  /-- It is not in `ExtractDataDromLockFreeQueue`. -/
  | outside
  /-- It is in the loop, with so many turns to go. -/
  | popping (turns : ℕ)
  /-- It is in `pop` and has unlinked an item, with so many turns to go after this one. -/
  | unlinked (item : ThreadLoadData) (turns : ℕ)
  /-- It has gone on with an item that `pop` did not set, or past the end of a vector. -/
  | undefined
  deriving DecidableEq

/-- The queue, who is between two steps on it, and the balancer. `linked` and `extracted` are the
items that have been linked and unlinked so far. -/
structure Reports (n : ℕ) where
  queue : List ThreadLoadData
  count : ℤ
  uncounted : ℕ
  extraction : Extraction
  balance : LoadBalance n
  linked : List ThreadLoadData
  extracted : List ThreadLoadData

namespace Reports

variable {n : ℕ}

/-- A step of a worker or of the accept thread. -/
inductive Act (n : ℕ) where
  /-- A worker links the node of a report. -/
  | link (index : Fin n) (throught : UInt32)
  /-- A worker executes `count++`. -/
  | countUp
  /-- The accept thread enters `ExtractDataDromLockFreeQueue` and reads `count`. -/
  | size
  /-- It unlinks the first node. -/
  | unlink
  /-- It executes `count--` and the rest of the loop body. -/
  | countDown
  /-- It leaves the loop and `ExtractDataDromLockFreeQueue`. -/
  | leave

/-- What the callback of `looping` pushes. -/
def report (index : Fin n) (throught : UInt32) : ThreadLoadData where
  throughput := throught
  threadId := UInt16.ofNat index
  connectionNumber := 0

def step : Act n → Reports n → Option (Reports n)
  | .link index throught, s => some { s with
      queue := s.queue ++ [report index throught]
      uncounted := s.uncounted + 1
      linked := s.linked ++ [report index throught] }
  | .countUp, s =>
    if 0 < s.uncounted then
      some { s with count := toInt (s.count + 1), uncounted := s.uncounted - 1 }
    else none
  | .size, s => match s.extraction with
    | .outside => some { s with
        balance := s.balance.beginExtract
        extraction := .popping (toSize s.count) }
    | _ => none
  | .unlink, s => match s.extraction with
    | .popping (turns + 1) => match s.queue with
      | item :: queue => some { s with
          queue := queue
          extraction := .unlinked item turns
          extracted := s.extracted ++ [item] }
      | [] => some { s with extraction := .undefined }
    | _ => none
  | .countDown, s => match s.extraction with
    | .unlinked item turns => match s.balance.account item with
      | some balance => some { s with
          count := toInt (s.count - 1)
          extraction := .popping turns
          balance := balance }
      | none => some { s with extraction := .undefined }
    | _ => none
  | .leave, s => match s.extraction with
    | .popping 0 => some { s with
        balance := s.balance.endExtract
        extraction := .outside }
    | _ => none

/-- An empty queue. -/
def new (balance : LoadBalance n) : Reports n where
  queue := []
  count := 0
  uncounted := 0
  extraction := .outside
  balance := balance
  linked := []
  extracted := []

end Reports

/-- The items that the accept thread still has to pop. -/
def Extraction.turns : Extraction → ℕ
  | popping turns => turns
  | unlinked _ turns => turns
  | _ => 0

/-- One if the accept thread is between an unlinking and its `count--`. -/
def Extraction.lag : Extraction → ℕ
  | unlinked _ _ => 1
  | _ => 0

namespace Reports

variable {n : ℕ}

/-- `count` is not negative and exceeds the items in the queue by one at most, and only while the
accept thread is between an unlinking and its `count--`; every pop has found an item; and every item
that has been linked has been extracted, in this order, or is still in the queue. -/
structure Sound (s : Reports n) : Prop where
  nonneg : 0 ≤ s.count
  le : s.count ≤ s.queue.length + s.extraction.lag
  succeeds : s.extraction ≠ .undefined
  order : s.extracted ++ s.queue = s.linked

/-- `count` can be incremented. -/
def Countable : Act n → Reports n → Prop
  | .countUp, s => s.count ≠ 2 ^ 31 - 1
  | _, _ => True

/-- What the queue is in terms of a line and a counter: `count` holds the units that are announced,
the pops that are to come and the decrement that is due. -/
structure Refines (s : Reports n) (h : Handover ThreadLoadData) : Prop where
  balanced : h.Balanced
  line : h.line = s.queue
  taken : h.taken = s.extracted
  items : h.items = s.linked
  owed : h.owed = s.uncounted
  early : h.early = 0
  claims : h.claims = s.extraction.turns
  count : s.count = (h.units + h.claims + s.extraction.lag : ℕ)

/-- A state that the queue reaches as long as `count` does not overflow. -/
structure Regular (s : Reports n) : Prop where
  refines : ∃ h, s.Refines h
  small : s.count < 2 ^ 31
  defined : s.extraction ≠ .undefined
  inside : ∀ item ∈ s.queue, item.threadId.toNat < n
  current : ∀ item turns, s.extraction = .unlinked item turns → item.threadId.toNat < n

theorem toInt_of_small {count : ℤ} (hnonneg : 0 ≤ count) (hsmall : count < 2 ^ 31) :
    toInt count = count := by
  unfold toInt
  rw [Int.bmod_def]
  split_ifs <;> omega

theorem toSize_of_small {count : ℤ} (hnonneg : 0 ≤ count) (hsmall : count < 2 ^ 31) :
    (toSize count : ℤ) = count := by
  unfold toSize
  omega

theorem threadId_report (index : Fin n) (throught : UInt32) :
    (report index throught).threadId.toNat < n :=
  (Nat.mod_le index (2 ^ 16)).trans_lt index.isLt

theorem sound_of_refines {s : Reports n} {h : Handover ThreadLoadData} (hrefines : s.Refines h)
    (hdefined : s.extraction ≠ .undefined) : s.Sound := by
  have hcount := hrefines.count
  have hbalanced := hrefines.balanced
  unfold Handover.Balanced at hbalanced
  rw [hrefines.line, hrefines.early] at hbalanced
  refine ⟨by omega, by omega, hdefined, ?_⟩
  rw [← hrefines.items, ← hrefines.taken, ← hrefines.line, Handover.items]

theorem regular_new (balance : LoadBalance n) : (new balance).Regular where
  refines := ⟨.empty, Handover.balanced_empty, rfl, rfl, rfl, rfl, rfl, rfl, rfl⟩
  small := by norm_num [new]
  defined := by simp [new]
  inside := fun _ hitem ↦ by cases hitem
  current := fun _ _ hunlinked ↦ by cases hunlinked

section

variable {s s' : Reports n} (hregular : s.Regular)
include hregular

theorem regular_link {index : Fin n} {throught : UInt32}
    (hstep : step (.link index throught) s = some s') : s'.Regular := by
  cases hstep
  obtain ⟨h, hrefines⟩ := hregular.refines
  refine ⟨⟨h.put (report index throught), hrefines.balanced.put _, ?_, hrefines.taken, ?_, ?_,
    hrefines.early, hrefines.claims, hrefines.count⟩, hregular.small, hregular.defined, ?_,
    hregular.current⟩
  · exact congrArg (· ++ [report index throught]) hrefines.line
  · rw [Handover.items_put, hrefines.items]
  · exact congrArg (· + 1) hrefines.owed
  · refine List.forall_mem_append.mpr ⟨hregular.inside, List.forall_mem_singleton.mpr ?_⟩
    exact threadId_report index throught

theorem regular_countUp (hcountable : s.count ≠ 2 ^ 31 - 1)
    (hstep : step .countUp s = some s') : s'.Regular := by
  obtain ⟨h, hrefines⟩ := hregular.refines
  have hcount := hrefines.count
  have hsmall := hregular.small
  have hnext : toInt (s.count + 1) = s.count + 1 := toInt_of_small (by omega) (by omega)
  unfold step at hstep
  dsimp only at hstep
  split_ifs at hstep with howed
  cases hstep
  refine ⟨⟨h.announce, hrefines.balanced.announce (hrefines.owed ▸ howed), hrefines.line,
    hrefines.taken, hrefines.items, ?_, hrefines.early, hrefines.claims, ?_⟩, ?_,
    hregular.defined, hregular.inside, hregular.current⟩
  · exact congrArg (· - 1) hrefines.owed
  · simp only [hnext, Handover.announce]
    omega
  · simp only [hnext]
    omega

/-- The accept thread is told no more than there is in the queue. -/
theorem regular_size (hstep : step .size s = some s') : s'.Regular := by
  obtain ⟨h, hrefines⟩ := hregular.refines
  have hcount := hrefines.count
  have hclaims := hrefines.claims
  cases hextraction : s.extraction with
  | outside =>
    simp only [step, hextraction] at hstep
    cases hstep
    rw [hextraction] at hcount hclaims
    simp only [Extraction.turns, Extraction.lag] at hcount hclaims
    have hsize : toSize s.count = h.claims + h.units := by
      have hsize' := toSize_of_small (by omega) hregular.small
      omega
    refine ⟨⟨h.collect, hrefines.balanced.collect, hrefines.line, hrefines.taken, hrefines.items,
      hrefines.owed, hrefines.early, hsize.symm, ?_⟩, hregular.small, Extraction.noConfusion,
      hregular.inside, fun _ _ hunlinked ↦ by cases hunlinked⟩
    simp only [Handover.collect, Extraction.lag]
    omega
  | popping turns => simp [step, hextraction] at hstep
  | unlinked item turns => simp [step, hextraction] at hstep
  | undefined => exact absurd hextraction hregular.defined

/-- A pop finds an item. -/
theorem regular_unlink (hstep : step .unlink s = some s') : s'.Regular := by
  obtain ⟨h, hrefines⟩ := hregular.refines
  have hcount := hrefines.count
  have hclaims := hrefines.claims
  cases hextraction : s.extraction with
  | outside => simp [step, hextraction] at hstep
  | popping turns =>
    cases turns with
    | zero => simp [step, hextraction] at hstep
    | succ turns =>
      rw [hextraction] at hcount hclaims
      simp only [Extraction.turns, Extraction.lag] at hcount hclaims
      have hpos : 0 < h.claims := by omega
      have hline : h.line ≠ [] := hrefines.balanced.line_ne_nil (by rw [hrefines.early]; omega) hpos
      have htake := hrefines.balanced.take hpos hline
      have hinside := hregular.inside
      cases hqueue : s.queue with
      | nil => exact absurd (hrefines.line.trans hqueue) hline
      | cons item queue =>
        simp only [step, hextraction, hqueue] at hstep
        cases hstep
        rw [hqueue] at hinside
        have hitem : item.threadId.toNat < n := hinside item List.mem_cons_self
        refine ⟨⟨h.take, htake, ?_, ?_, ?_, hrefines.owed, hrefines.early, ?_, ?_⟩, hregular.small,
          Extraction.noConfusion,
          fun other hother ↦ hinside other (List.mem_cons_of_mem _ hother), ?_⟩
        · simp only [Handover.take, hrefines.line, hqueue, List.tail_cons]
        · simp only [Handover.take, hrefines.line, hrefines.taken, hqueue, List.take_succ_cons,
            List.take_zero]
        · rw [Handover.items_take, hrefines.items]
        · simp only [Handover.take, Extraction.turns]
          omega
        · simp only [Handover.take, Extraction.lag]
          omega
        · intro other turns' hunlinked
          cases hunlinked
          exact hitem
  | unlinked item turns => simp [step, hextraction] at hstep
  | undefined => exact absurd hextraction hregular.defined

theorem regular_countDown (hstep : step .countDown s = some s') : s'.Regular := by
  obtain ⟨h, hrefines⟩ := hregular.refines
  have hcount := hrefines.count
  have hclaims := hrefines.claims
  have hsmall := hregular.small
  cases hextraction : s.extraction with
  | outside => simp [step, hextraction] at hstep
  | popping turns => simp [step, hextraction] at hstep
  | unlinked item turns =>
    rw [hextraction] at hcount hclaims
    simp only [Extraction.turns, Extraction.lag] at hcount hclaims
    have hnext : toInt (s.count - 1) = s.count - 1 := toInt_of_small (by omega) (by omega)
    obtain ⟨balance, haccount⟩ : ∃ balance, s.balance.account item = some balance := by
      unfold LoadBalance.account
      rw [dif_pos (hregular.current item turns hextraction)]
      dsimp only
      split_ifs <;> exact ⟨_, rfl⟩
    simp only [step, hextraction, haccount, hnext] at hstep
    cases hstep
    refine ⟨⟨h, hrefines.balanced, hrefines.line, hrefines.taken, hrefines.items, hrefines.owed,
      hrefines.early, hclaims, ?_⟩, ?_, Extraction.noConfusion, hregular.inside,
      fun _ _ hunlinked ↦ by cases hunlinked⟩
    · simp only [Extraction.lag]
      omega
    · simp only
      omega
  | undefined => exact absurd hextraction hregular.defined

theorem regular_leave (hstep : step .leave s = some s') : s'.Regular := by
  obtain ⟨h, hrefines⟩ := hregular.refines
  have hcount := hrefines.count
  have hclaims := hrefines.claims
  cases hextraction : s.extraction with
  | outside => simp [step, hextraction] at hstep
  | popping turns =>
    cases turns with
    | zero =>
      simp only [step, hextraction] at hstep
      cases hstep
      rw [hextraction] at hcount hclaims
      exact ⟨⟨h, hrefines.balanced, hrefines.line, hrefines.taken, hrefines.items, hrefines.owed,
        hrefines.early, hclaims, hcount⟩, hregular.small, Extraction.noConfusion, hregular.inside,
        fun _ _ hunlinked ↦ by cases hunlinked⟩
    | succ turns => simp [step, hextraction] at hstep
  | unlinked item turns => simp [step, hextraction] at hstep
  | undefined => exact absurd hextraction hregular.defined

theorem regular_step {act : Act n} (hcountable : Countable act s) (hstep : step act s = some s') :
    s'.Regular := by
  cases act with
  | link index throught => exact regular_link hregular hstep
  | countUp => exact regular_countUp hregular hcountable hstep
  | size => exact regular_size hregular hstep
  | unlink => exact regular_unlink hregular hstep
  | countDown => exact regular_countDown hregular hstep
  | leave => exact regular_leave hregular hstep

end

theorem Regular.sound {s : Reports n} (hregular : s.Regular) : s.Sound := by
  obtain ⟨h, hrefines⟩ := hregular.refines
  exact sound_of_refines hrefines hregular.defined

/-- An increment of the greatest `int` makes `count` negative. -/
theorem countable_of_sound {act : Act n} {s s' : Reports n} (hstep : step act s = some s')
    (hsound : s'.Sound) : Countable act s := by
  cases act with
  | countUp =>
    intro hlast
    unfold step at hstep
    dsimp only at hstep
    split_ifs at hstep
    cases hstep
    have hnonneg := hsound.nonneg
    rw [show toInt (s.count + 1) = -2 ^ 31 by rw [hlast]; decide] at hnonneg
    norm_num at hnonneg
  | _ => trivial

/-- In every run of the workers and the accept thread, the queue is sound all along exactly if
`count` is never incremented when it is the greatest `int`. -/
theorem sound_run_iff (balance : LoadBalance n) (schedule : List (Act n)) (s : Reports n)
    (hrun : run step schedule (new balance) = some s) :
    Along step (new balance) Sound schedule ↔ Meets step (new balance) Countable schedule := by
  constructor
  · exact meets_of_along (fun _ _ _ _ ↦ countable_of_sound) hrun
  · intro hmeets
    have hregular : Along step (new balance) Regular schedule :=
      along_of_meets (regular_new balance)
        (fun _ _ _ hcountable hregular ↦ regular_step hregular hcountable) hmeets
    exact hregular.imp fun _ ↦ Regular.sound

/-- One thread and no history. -/
def one : LoadBalance 1 where
  perThreadThroughput := fun _ ↦ 0
  currentWeight := fun _ ↦ 0
  totalWeight := 0
  perThreadConnectNumber := fun _ ↦ 0
  keepData := false

theorem sound_one_report : Along step (new one) Sound
    [.link 0 10, .countUp, .size, .link 0 20, .unlink, .countDown, .countUp, .leave] := by
  apply (sound_run_iff one _ _ rfl).mpr
  repeat
    refine meets_cons (by simp [Countable, new, toInt]) fun s hs ↦ ?_
    cases hs
  exact meets_nil _

/-- So many pushes in a row. -/
def backlog (pushes : ℕ) : List (Act 1) :=
  (List.replicate pushes [Act.link 0 0, Act.countUp]).flatten

theorem backlog_succ (pushes : ℕ) :
    backlog (pushes + 1) = backlog pushes ++ [Act.link 0 0, Act.countUp] := by
  unfold backlog
  rw [List.replicate_succ', List.flatten_append, List.flatten_singleton]

theorem run_backlog {pushes : ℕ} (hpushes : pushes < 2 ^ 31) :
    ∃ s, run step (backlog pushes) (new one) = some s ∧ s.count = pushes ∧ s.uncounted = 0 := by
  induction pushes with
  | zero => exact ⟨new one, rfl, rfl, rfl⟩
  | succ pushes ih =>
    obtain ⟨s, hrun, hcount, huncounted⟩ := ih (by omega)
    have hnext : toInt (s.count + 1) = pushes + 1 := by
      rw [toInt_of_small (by omega) (by omega), hcount]
    rw [backlog_succ, run_append_of_run hrun]
    refine ⟨_, rfl, ?_, ?_⟩
    · simp only [hnext]
      omega
    · simp only [huncounted]

/-- When nothing has been extracted for `2 ^ 31` pushes, `count` is negative. -/
theorem not_sound_backlog :
    ¬ Along step (new one) Sound (backlog (2 ^ 31 - 1) ++ [Act.link 0 0, Act.countUp]) := by
  intro hsound
  obtain ⟨s, hrun, hcount, huncounted⟩ := run_backlog (show 2 ^ 31 - 1 < 2 ^ 31 by norm_num)
  have hlast : run step (backlog (2 ^ 31 - 1) ++ [Act.link 0 0, Act.countUp]) (new one) =
      some _ := (run_append_of_run hrun _).trans rfl
  have hnonneg := (hsound.last hlast).nonneg
  simp only [hcount] at hnonneg
  revert hnonneg
  decide

end Reports

end LWebServer
