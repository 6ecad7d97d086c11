import LWebServer.Tool.Leftovers

/-!
# The account of a write loop

The lengths of the `Send` tasks in the queue add up to the number of readable bytes. A `Send` that
is cut off puts the rest of its length back, so that a turn keeps the account unless a `Send` gives
up on a dead connection.
-/

namespace LWebServer

open Memory

namespace Task

/-- The task is one that `provide` or `InsertSend` can have queued. -/
def Proper : Task → Prop
  | .send length => 0 < length
  | .sendReadable => False
  | .sendFile _ => True

end Task

namespace WriteLoop

/-- The `Send` tasks in the queue account for the readable bytes. -/
structure Balanced (w : WriteLoop) : Prop where
  due : dueAll w.que = w.userBuffer.writeSpot - w.userBuffer.readSpot
  proper : ∀ task ∈ w.que, task.Proper
  readSpot_le : w.userBuffer.readSpot ≤ w.userBuffer.writeSpot

/-! ## Executed sends -/

/-- A `Send` that has been executed: its length, what was readable at that time, and whether it met
a dead connection. -/
structure Executed where
  length : ℕ
  readable : ℕ
  faultError : Bool

/-- The length of the `Send` in front of the queue. -/
def frontSend (w : WriteLoop) : Option ℕ :=
  match w.que with
  | .send length :: _ => some length
  | .sendReadable :: _ => some w.userBuffer.readable
  | _ => none

/-- A `Send` as it is executed. -/
def record (w : WriteLoop) (length : ℕ) : Executed where
  length := length
  readable := w.userBuffer.readable
  faultError := (sendLoop (load w.userBuffer.buffer w.userBuffer.readSpot length)
    w.outlet.answers w.starting).faultError

/-- The sends that some turns of `DoAll` execute. -/
def executed : ℕ → WriteLoop → List Executed
  | 0, _ => []
  | count + 1, w =>
    (w.frontSend.map w.record).toList ++
      match doFirst w with
      | .ok .complete w' => executed count w'.report
      | _ => []

/-- The sends that `DoAll` executes. -/
def executedAll (w : WriteLoop) : List Executed := executed (w.que.length + 1) w

/-- The loop, and the answers that the kernel is going to give. -/
def facing (answers : List Accept) (w : WriteLoop) : WriteLoop :=
  { w with outlet.answers := answers }

/-- No `send` fails by `EPIPE` or `ECONNRESET`. -/
def Alive (sends : List Executed) : Prop := ∀ sent ∈ sends, sent.faultError = false

variable {w : WriteLoop}

theorem dueAll_cons (task : Task) (que : List Task) :
    dueAll (task :: que) = task.due + dueAll que :=
  rfl

theorem balanced_new (interval length : ℕ) : Balanced (new interval length) :=
  ⟨rfl, fun _ htask ↦ absurd htask List.not_mem_nil, le_rfl⟩

theorem Balanced.facing (hbalanced : Balanced w) (answers : List Accept) :
    Balanced (w.facing answers) :=
  ⟨hbalanced.due, hbalanced.proper, hbalanced.readSpot_le⟩

theorem Balanced.report (hbalanced : Balanced w) : Balanced w.report := by
  unfold WriteLoop.report
  split_ifs
  · exact ⟨hbalanced.due, hbalanced.proper, hbalanced.readSpot_le⟩
  · exact hbalanced

/-- What a `Send` has not sent goes back into the queue. -/
theorem balanced_settle {length : ℕ} {s : Sending}
    (hdue : length + dueAll w.que = w.userBuffer.writeSpot - w.userBuffer.readSpot)
    (hproper : ∀ task ∈ w.que, task.Proper)
    (hle : w.userBuffer.readSpot ≤ w.userBuffer.writeSpot) (hsent : s.sent ≤ length)
    (halive : s.faultError = false) :
    ∃ answer w', settle length s w = .ok answer w' ∧ Balanced w' := by
  unfold settle
  dsimp only
  by_cases hmore : 0 < length - s.sent
  · rw [if_pos ⟨halive, hmore⟩]
    refine ⟨_, _, rfl, ?_, fun task htask ↦ ?_, ?_⟩
    · change length - s.sent + dueAll w.que =
        w.userBuffer.writeSpot - (w.userBuffer.readSpot + s.sent)
      omega
    · rcases List.mem_cons.mp htask with rfl | hold
      · exact hmore
      · exact hproper task hold
    · change w.userBuffer.readSpot + s.sent ≤ w.userBuffer.writeSpot
      omega
  · rw [if_neg fun h ↦ hmore h.2]
    refine ⟨_, _, rfl, ?_, hproper, ?_⟩
    · change dueAll w.que = w.userBuffer.writeSpot - (w.userBuffer.readSpot + s.sent)
      omega
    · change w.userBuffer.readSpot + s.sent ≤ w.userBuffer.writeSpot
      omega

theorem balanced_send {length : ℕ} {que : List Task} (hbalanced : Balanced w)
    (hque : w.que = .send length :: que) (halive : (w.record length).faultError = false) :
    (∃ answer w', send length { w with que := que } = .ok answer w' ∧ Balanced w') ∧
      length ≤ w.userBuffer.readable := by
  have hdue : length + dueAll que = w.userBuffer.writeSpot - w.userBuffer.readSpot := by
    rw [← hbalanced.due, hque]
    rfl
  have hle := hbalanced.readSpot_le
  have hsize := w.userBuffer.writeSpot_le
  have hpos : 0 < length := hbalanced.proper (.send length) (hque ▸ List.mem_cons_self)
  have hproper : ∀ task ∈ que, task.Proper := fun task htask ↦
    hbalanced.proper task (hque ▸ List.mem_cons_of_mem _ htask)
  have hsent : (sendLoop (load w.userBuffer.buffer w.userBuffer.readSpot length)
      w.outlet.answers w.starting).sent ≤ length :=
    (sent_sendLoop_le (Nat.zero_le _)).trans_eq (length_load _ _ _)
  have hreadable : w.userBuffer.readable = w.userBuffer.writeSpot - w.userBuffer.readSpot :=
    sizeSub_of_le hle
  refine ⟨?_, by omega⟩
  rw [send_eq, if_neg (by omega), if_neg (by dsimp only; omega)]
  exact balanced_settle hdue hproper hle hsent halive

theorem balanced_sendFile {ptr : FileReader} {que : List Task} (hbalanced : Balanced w)
    (hque : w.que = .sendFile ptr :: que) :
    ∃ answer w', sendFile ptr { w with que := que } = .ok answer w' ∧ Balanced w' := by
  have hdue : dueAll que = w.userBuffer.writeSpot - w.userBuffer.readSpot := by
    rw [← hbalanced.due, hque, dueAll_cons]
    exact (Nat.zero_add _).symm
  have hproper : ∀ task ∈ que, task.Proper := fun task htask ↦
    hbalanced.proper task (hque ▸ List.mem_cons_of_mem _ htask)
  unfold sendFile
  dsimp only
  split_ifs
  · exact ⟨_, _, rfl, hdue, hproper, hbalanced.readSpot_le⟩
  · refine ⟨_, _, rfl, (dueAll_append _ _).trans hdue, ?_, hbalanced.readSpot_le⟩
    exact List.forall_mem_append.mpr ⟨hproper, List.forall_mem_singleton.mpr trivial⟩

/-- A turn keeps the account, and it does not send more than is readable. -/
theorem balanced_doFirst (hbalanced : Balanced w)
    (halive : ∀ length, w.frontSend = some length → (w.record length).faultError = false) :
    (∃ answer w', doFirst w = .ok answer w' ∧ Balanced w') ∧
      ∀ length, w.frontSend = some length → length ≤ w.userBuffer.readable := by
  unfold doFirst
  unfold frontSend at halive ⊢
  cases hque : w.que with
  | nil => exact ⟨⟨_, w, rfl, hbalanced⟩, fun _ hnone ↦ by cases hnone⟩
  | cons task que =>
    rw [hque] at halive
    cases task with
    | send length =>
      obtain ⟨hrun, hle⟩ := balanced_send hbalanced hque (halive length rfl)
      refine ⟨hrun, fun length' hfront ↦ ?_⟩
      cases hfront
      exact hle
    | sendReadable => exact (hbalanced.proper .sendReadable (hque ▸ List.mem_cons_self)).elim
    | sendFile ptr => exact ⟨balanced_sendFile hbalanced hque, fun _ hnone ↦ by cases hnone⟩

theorem balanced_turns (hbalanced : Balanced w) (count : ℕ) (halive : Alive (executed count w)) :
    (∃ answer w', turns count w = .ok answer w' ∧ Balanced w') ∧
      ∀ sent ∈ executed count w, sent.length ≤ sent.readable := by
  induction count generalizing w with
  | zero => exact ⟨⟨_, w, rfl, hbalanced⟩, fun _ hnone ↦ absurd hnone List.not_mem_nil⟩
  | succ count ih =>
    have hfirst : ∀ length, w.frontSend = some length → (w.record length).faultError = false := by
      intro length hfront
      refine halive _ (List.mem_append_left _ ?_)
      rw [hfront]
      exact List.mem_singleton_self _
    obtain ⟨⟨answer, w₁, hdo, hbalanced₁⟩, hlength⟩ := balanced_doFirst hbalanced hfirst
    have hfront : ∀ sent ∈ (w.frontSend.map w.record).toList, sent.length ≤ sent.readable := by
      intro sent hsent
      obtain ⟨length, hlength', rfl⟩ := Option.map_eq_some_iff.mp (Option.mem_toList.mp hsent)
      exact hlength length hlength'
    unfold executed at halive ⊢
    unfold turns
    rw [hdo] at halive ⊢
    cases answer with
    | complete =>
      obtain ⟨hrest, hrestLength⟩ := ih hbalanced₁.report fun sent hsent ↦
        halive sent (List.mem_append_right _ hsent)
      refine ⟨hrest, fun sent hsent ↦ ?_⟩
      rcases List.mem_append.mp hsent with hsent | hsent
      · exact hfront sent hsent
      · exact hrestLength sent hsent
    | imcomplete =>
      refine ⟨⟨_, _, rfl, hbalanced₁.report⟩, fun sent hsent ↦ hfront sent ?_⟩
      simpa using hsent
    | empty =>
      refine ⟨⟨_, _, rfl, hbalanced₁.report⟩, fun sent hsent ↦ hfront sent ?_⟩
      simpa using hsent

theorem balanced_doAll (hbalanced : Balanced w) (halive : Alive w.executedAll) :
    (∃ answer w', doAll w = .ok answer w' ∧ Balanced w') ∧
      ∀ sent ∈ w.executedAll, sent.length ≤ sent.readable :=
  balanced_turns hbalanced _ halive

/-! ## Putting and queueing -/

/-- Bytes that have been put get a `Send` of their number. -/
theorem Balanced.addSend (hbalanced : Balanced w) {bytes : List Byte} {w' : WriteLoop}
    (hfilled : Filled w bytes w') (hpos : 0 < bytes.length) :
    Balanced (w'.addSend bytes.length) := by
  have hunread := congrArg List.length hfilled.appended.unread
  rw [List.length_append, UserBuffer.length_unread, UserBuffer.length_unread] at hunread
  refine ⟨?_, ?_, hfilled.appended.readSpot_le⟩
  · change dueAll (w'.que ++ [.send bytes.length]) =
      w'.userBuffer.writeSpot - w'.userBuffer.readSpot
    rw [dueAll_append, hfilled.que, hbalanced.due, hunread]
    rfl
  · refine List.forall_mem_append.mpr ⟨?_, List.forall_mem_singleton.mpr hpos⟩
    rw [hfilled.que]
    exact hbalanced.proper

theorem Balanced.addSendFile (hbalanced : Balanced w) (ptr : FileReader) :
    Balanced (w.addSendFile ptr) := by
  refine ⟨(dueAll_append _ _).trans hbalanced.due, ?_, hbalanced.readSpot_le⟩
  exact List.forall_mem_append.mpr ⟨hbalanced.proper, List.forall_mem_singleton.mpr trivial⟩

end WriteLoop

end LWebServer
