import LWebServer.Library.Outbox
import LWebServer.Tool.WriteLoop

/-!
# The order of bytes on the wire

The write loop as an outbox: each task in the queue stands for a chunk of bytes, the chunks of
the buffered tasks are the unread bytes of the buffer, and the bytes accepted by the kernel are
what has been sent. A turn keeps this as long as it does not resume what it has interrupted.
-/

namespace LWebServer

open Memory

namespace UserBuffer

/-- What writing does to the unread bytes. -/
structure Appended (b : UserBuffer) (bytes : List Byte) (b' : UserBuffer) : Prop where
  unread : b'.unread = b.unread ++ bytes
  readSpot_le : b'.readSpot ≤ b'.writeSpot

theorem appended_stored {b : UserBuffer} (hle : b.readSpot ≤ b.writeSpot) {block : List Byte}
    (hfits : b.writeSpot + block.length ≤ b.bufferSize) :
    Appended b block (b.stored block hfits) := by
  refine ⟨?_, hle.trans (Nat.le_add_right _ _)⟩
  rw [unread_stored, Nat.sub_eq_zero_of_le hle, List.drop_zero]

theorem moveBuffer_cases {b : UserBuffer} (hle : b.readSpot ≤ b.writeSpot) :
    b.moveBuffer = .ok () b ∨ b.moveBuffer = .ok () b.moved := by
  unfold moveBuffer
  split_ifs with hlow
  · exact .inl rfl
  · exact .inr rfl

theorem appended_append {b b' : UserBuffer} (hle : b.readSpot ≤ b.writeSpot) {block : List Byte}
    {n : ℕ} (happend : b.append block = .ok n b') : n = block.length ∧ Appended b block b' := by
  unfold append at happend
  split_ifs at happend with hfits
  cases happend
  exact ⟨rfl, appended_stored hle hfits⟩

theorem readSpot_le_moved (b : UserBuffer) : b.moved.readSpot ≤ b.moved.writeSpot := Nat.zero_le _

theorem appended_moved {b b' : UserBuffer} {bytes : List Byte}
    (happended : Appended b.moved bytes b') : Appended b bytes b' := by
  refine ⟨?_, happended.readSpot_le⟩
  rw [happended.unread, unread_moved]

theorem appended_writeBytes {b b' : UserBuffer} (hle : b.readSpot ≤ b.writeSpot)
    {block : List Byte} {n : ℕ} (hwrite : b.writeBytes block = .ok n b') :
    n = block.length ∧ Appended b block b' := by
  obtain ⟨b₁, b₂, hget, hwrite⟩ := Op.bind_ok hwrite
  cases hget
  split_ifs at hwrite
  · obtain ⟨_, b₃, hmove, happend⟩ := Op.bind_ok hwrite
    rcases moveBuffer_cases hle with h | h <;> rw [h] at hmove <;> cases hmove
    · exact appended_append hle happend
    · obtain ⟨hn, happended⟩ := appended_append b.readSpot_le_moved happend
      exact ⟨hn, appended_moved happended⟩
  · exact appended_append hle hwrite

/-- Bytes that are at the write position already are committed. -/
theorem appended_write {b b' : UserBuffer} (hle : b.readSpot ≤ b.writeSpot) {bytes n : ℕ}
    (hwrite : b.write bytes = .ok n b') :
    n = bytes ∧ Appended b (load b.buffer b.writeSpot bytes) b' := by
  unfold write at hwrite
  split_ifs at hwrite with hfits
  let b₁ : UserBuffer :=
    { b with writeSpot := b.writeSpot + bytes, writeSpot_le := hfits }
  have hle₁ : b₁.readSpot ≤ b₁.writeSpot := hle.trans (Nat.le_add_right _ _)
  have hcommitted : Appended b (load b.buffer b.writeSpot bytes) b₁ := by
    refine ⟨?_, hle₁⟩
    have hcount : b.writeSpot + bytes - b.readSpot = b.writeSpot - b.readSpot + bytes := by omega
    have hspot : b.readSpot + (b.writeSpot - b.readSpot) = b.writeSpot := by omega
    simp only [unread, b₁, hcount, load_add, hspot]
  obtain ⟨_, b₂, hmove, hpure⟩ := Op.bind_ok hwrite
  obtain ⟨rfl, rfl⟩ : bytes = n ∧ b₂ = b' := by simpa [pure, EStateM.pure] using hpure
  have hmoved : b₁.moveBuffer = .ok () b₂ := hmove
  refine ⟨rfl, ?_⟩
  rcases moveBuffer_cases hle₁ with h | h
  · obtain rfl : b₁ = b₂ := by simpa [h] using hmoved
    exact hcommitted
  · obtain rfl : b₁.moved = b₂ := by simpa [h] using hmoved
    refine ⟨?_, b₁.readSpot_le_moved⟩
    rw [unread_moved, hcommitted.unread]

/-- `SWrite` puts bytes behind the write position only. -/
theorem sWrite_eq (b : UserBuffer) (formatted : List Byte) : ∃ buffer,
    b.sWrite formatted = .ok formatted.length { b with buffer := buffer } ∧
      ∀ i < b.writeSpot, buffer i = b.buffer i :=
  ⟨_, rfl, fun _ hi ↦ store_of_lt _ _ hi⟩

end UserBuffer

/-! ## Tasks and their chunks -/

/-- The task sends bytes of the buffer. -/
def Task.buffered : Task → Bool
  | .sendFile _ => false
  | _ => true

/-- A task and the bytes it stands for. -/
inductive Holds : Task → List Byte → Prop
  | send (bytes : List Byte) : Holds (.send bytes.length) bytes
  | sendReadable (bytes : List Byte) : Holds .sendReadable bytes
  | sendFile (ptr : FileReader) (hle : ptr.offest ≤ ptr.length) :
      Holds (.sendFile ptr) (ptr.content.drop ptr.offest)

/-- The bytes of the buffered tasks. -/
def bufferedBytes (items : List (Task × List Byte)) : List Byte :=
  (items.filter fun item ↦ item.1.buffered).flatMap Prod.snd

theorem bufferedBytes_append (items items' : List (Task × List Byte)) :
    bufferedBytes (items ++ items') = bufferedBytes items ++ bufferedBytes items' := by
  simp [bufferedBytes]

theorem bufferedBytes_cons_buffered {task : Task} (hbuffered : task.buffered = true)
    (bytes : List Byte) (items : List (Task × List Byte)) :
    bufferedBytes ((task, bytes) :: items) = bytes ++ bufferedBytes items := by
  simp [bufferedBytes, hbuffered]

theorem bufferedBytes_cons_file (ptr : FileReader) (bytes : List Byte)
    (items : List (Task × List Byte)) :
    bufferedBytes ((.sendFile ptr, bytes) :: items) = bufferedBytes items := by
  simp [bufferedBytes, Task.buffered]

namespace WriteLoop

/-- The queue as items, which account for the unread bytes of the buffer. -/
structure Represents (w : WriteLoop) (items : List (Task × List Byte)) : Prop where
  que : w.que = items.map Prod.fst
  holds : ∀ item ∈ items, Holds item.1 item.2
  unread : w.userBuffer.unread = bufferedBytes items
  readSpot_le : w.userBuffer.readSpot ≤ w.userBuffer.writeSpot

/-- The write loop as an outbox. -/
def outbox (w : WriteLoop) (items : List (Task × List Byte)) : Outbox Byte :=
  ⟨w.outlet.wire, items.map Prod.snd⟩

theorem represents_new (interval length : ℕ) : Represents (new interval length) [] :=
  ⟨rfl, by simp, rfl, le_rfl⟩

/-! ## Sending without a resumption -/

/-- What is accepted in part is followed by a refusal. -/
def Steady (length : ℕ) : List Accept → Prop
  | .accepts more :: .accepts _ :: _ => length ≤ more + 1
  | _ => True

/-- One `sendfile` is enough for the rest of the file. -/
def Finishing (ptr : FileReader) : List Accept → Prop
  | .accepts more :: _ => ptr.length - ptr.offest ≤ more + 1
  | _ => ptr.offest = ptr.length

/-- The front task can be run without disturbing the order: a send is steady, a file is finished
or alone, and what is readable belongs to the task that sends it. -/
def Served (w : WriteLoop) : Prop :=
  match w.que with
  | [] => True
  | .send length :: _ => Steady length w.outlet.answers
  | .sendReadable :: que =>
    Steady w.userBuffer.readable w.outlet.answers ∧ ∀ task ∈ que, task.buffered = false
  | .sendFile ptr :: que => que = [] ∨ Finishing ptr w.outlet.answers

/-- The loop ends where all is sent or the next answer accepts nothing. -/
theorem sendLoop_stalled {block : List Byte} {answers : List Accept} {s : Sending}
    (hstop : s.sent = block.length ∨ ∀ more, answers.head? ≠ some (.accepts more)) :
    (sendLoop block answers s).sent = s.sent ∧
      (sendLoop block answers s).outlet.wire = s.outlet.wire ∧
      (sendLoop block answers s).throughout = s.throughout ∧
      (Accept.reset ∉ answers → (sendLoop block answers s).faultError = s.faultError) := by
  cases answers with
  | nil => exact ⟨rfl, rfl, rfl, fun _ ↦ rfl⟩
  | cons answer answers =>
    rw [sendLoop.eq_def]
    by_cases hall : s.sent = block.length
    · simp [hall]
    · have hrefused := hstop.resolve_left hall
      simp only [if_neg hall]
      cases answer with
      | accepts more => exact absurd rfl (hrefused more)
      | eagain => exact ⟨rfl, rfl, rfl, fun _ ↦ rfl⟩
      | reset => exact ⟨rfl, rfl, rfl, fun hlive ↦ absurd List.mem_cons_self hlive⟩
      | failed => exact ⟨rfl, rfl, rfl, fun _ ↦ rfl⟩

/-- A steady loop sends a part of the block, from its start on, and counts it. -/
theorem sendLoop_steady {block : List Byte} {answers : List Accept}
    (hsteady : Steady block.length answers) {s : Sending} (hsent : s.sent = 0) :
    ∃ n ≤ block.length, (sendLoop block answers s).sent = n ∧
      (sendLoop block answers s).outlet.wire = s.outlet.wire ++ block.take n ∧
      (s.throughout + n < 2 ^ 32 → (sendLoop block answers s).throughout = s.throughout + n) ∧
      (Accept.reset ∉ answers → (sendLoop block answers s).faultError = s.faultError) := by
  by_cases hstop : s.sent = block.length ∨ ∀ more, answers.head? ≠ some (.accepts more)
  · obtain ⟨hsame, hwire, hcount, hfault⟩ := sendLoop_stalled hstop
    exact ⟨0, Nat.zero_le _, hsame.trans hsent, by simpa using hwire, fun _ ↦ hcount, hfault⟩
  · obtain ⟨hmore, haccepts⟩ := not_or.mp hstop
    push Not at haccepts
    obtain ⟨more, hhead⟩ := haccepts
    obtain ⟨rest, rfl⟩ := List.head?_eq_some_iff.mp hhead
    rw [sendLoop, if_neg hmore]
    simp only [hsent, Nat.sub_zero, Nat.zero_add]
    have hlast : min (more + 1) block.length = block.length ∨
        ∀ more', rest.head? ≠ some (.accepts more') := by
      by_cases hwhole : block.length ≤ more + 1
      · exact .inl (min_eq_right hwhole)
      · right
        intro more' hhead'
        obtain ⟨rest', rfl⟩ := List.head?_eq_some_iff.mp hhead'
        exact hwhole hsteady
    obtain ⟨hsame, hwire, hcount, hfault⟩ := sendLoop_stalled (s := ⟨_, _, _, _, _⟩) hlast
    exact ⟨min (more + 1) block.length, min_le_right _ _, hsame, hwire,
      fun hsmall ↦ hcount.trans (Nat.mod_eq_of_lt hsmall),
      fun hlive ↦ hfault fun hmem ↦ hlive (List.mem_cons_of_mem _ hmem)⟩

/-! ## Turns -/

theorem answers_sendLoop (block : List Byte) (answers : List Accept) (s : Sending) :
    (sendLoop block answers s).outlet.answers <:+ answers := by
  induction answers generalizing s with
  | nil => exact List.suffix_rfl
  | cons answer answers ih =>
    rw [sendLoop.eq_def]
    by_cases hall : s.sent = block.length
    · simp [hall]
    · simp only [if_neg hall]
      cases answer with
      | accepts more => exact (ih _).trans (List.suffix_cons _ _)
      | eagain => exact List.suffix_cons _ _
      | reset => exact List.suffix_cons _ _
      | failed => exact List.suffix_cons _ _

/-- The bytes offered first are those of the front task. -/
theorem block_eq {w : WriteLoop} {bytes rest : List Byte}
    (hunread : w.userBuffer.unread = bytes ++ rest) :
    load w.userBuffer.buffer w.userBuffer.readSpot bytes.length = bytes :=
  (load_eq_append hunread).1

/-- A turn keeps the outbox. -/
def Keeps (w : WriteLoop) (items : List (Task × List Byte)) :
    EStateM.Result Fail WriteLoop CompleteType → Prop
  | .ok _ w' => ∃ items', Represents w' items' ∧
    (outbox w' items').total = (outbox w items).total ∧ w'.outlet.answers <:+ w.outlet.answers
  | .error _ w' => w'.outlet.wire = w.outlet.wire

theorem send_keeps {w : WriteLoop} {task : Task} {bytes : List Byte}
    {items : List (Task × List Byte)} (hrepresents : Represents w ((task, bytes) :: items))
    (hbuffered : task.buffered = true) (hsteady : Steady bytes.length w.outlet.answers)
    (hlive : Accept.reset ∉ w.outlet.answers) :
    Keeps w ((task, bytes) :: items)
      (send bytes.length { w with que := items.map Prod.fst }) := by
  have hunread := hrepresents.unread
  rw [bufferedBytes_cons_buffered hbuffered] at hunread
  have hblock := block_eq hunread
  have hholds : ∀ item ∈ items, Holds item.1 item.2 := fun item hitem ↦
    hrepresents.holds item (List.mem_cons_of_mem _ hitem)
  unfold send
  split_ifs with hempty hbeyond
  · rfl
  · rfl
  simp only [UserBuffer.readPtr, hblock]
  obtain ⟨n, hn, hsent, hwire, -, hfault⟩ := sendLoop_steady hsteady
    (s := { outlet := w.outlet, sent := 0, throughout := w.throughout, interval := w.interval
            faultError := false }) rfl
  have hanswers := answers_sendLoop bytes w.outlet.answers
    { outlet := w.outlet, sent := 0, throughout := w.throughout, interval := w.interval
      faultError := false }
  simp only [hsent, hfault hlive]
  have hlength : (bytes.drop n).length = bytes.length - n := List.length_drop
  have hread : (w.userBuffer.read n).unread = bytes.drop n ++ bufferedBytes items := by
    rw [UserBuffer.unread_read, hunread, List.drop_append_of_le_length hn]
  have hspot : (w.userBuffer.read n).readSpot ≤ (w.userBuffer.read n).writeSpot := by
    have hcount := congrArg List.length hunread
    have hle := hrepresents.readSpot_le
    rw [UserBuffer.length_unread, List.length_append] at hcount
    simp only [UserBuffer.read]
    omega
  have htotal := Outbox.total_advance n (outbox w ((task, bytes) :: items))
  by_cases hrest : 0 < bytes.length - n
  · rw [if_pos ⟨trivial, hrest⟩]
    refine ⟨(.send (bytes.length - n), bytes.drop n) :: items, ⟨rfl, ?_, ?_, hspot⟩, ?_, hanswers⟩
    · intro item hitem
      rcases List.mem_cons.mp hitem with rfl | hold
      · rw [← hlength]
        exact .send _
      · exact hholds item hold
    · rw [bufferedBytes_cons_buffered rfl]
      exact hread
    · rw [← htotal]
      simp only [outbox, Outbox.advance, List.map_cons, insertSend, hwire]
  · have hdone : bytes.drop n = [] := List.eq_nil_of_length_eq_zero (by omega)
    rw [if_neg fun h ↦ hrest h.2]
    refine ⟨items, ⟨rfl, hholds, ?_, hspot⟩, ?_, hanswers⟩
    · rw [hread, hdone, List.nil_append]
    · have hhead : ((outbox w ((task, bytes) :: items)).advance n).pending.head? = some [] := by
        simp [outbox, Outbox.advance, hdone]
      rw [← htotal, ← Outbox.total_retire hhead]
      simp only [outbox, Outbox.advance, Outbox.retire, List.map_cons, List.tail_cons, hwire]

/-- One `sendfile` moves the offset by what is accepted. -/
theorem fileSent {ptr : FileReader} (hle : ptr.offest ≤ ptr.length) (o : Outlet) :
    ∃ n outlet, ptr.offest + n ≤ ptr.length ∧
      ptr.sendFile o = ({ ptr with offest := ptr.offest + n }, outlet) ∧
      outlet.wire = o.wire ++ (ptr.content.drop ptr.offest).take n ∧
      outlet.answers <:+ o.answers ∧
      (Finishing ptr o.answers → ptr.offest + n = ptr.length) := by
  unfold FileReader.sendFile
  split_ifs with hend
  · exact ⟨0, o, hle, rfl, by simp, List.suffix_rfl, fun _ ↦ hend⟩
  · cases hanswers : o.answers with
    | nil => exact ⟨0, o, hle, rfl, by simp, hanswers ▸ List.suffix_rfl, id⟩
    | cons answer answers =>
      cases answer with
      | accepts more =>
        refine ⟨min (more + 1) (ptr.length - ptr.offest), _, by omega, rfl, rfl,
          List.suffix_cons _ _, ?_⟩
        intro hroom
        have hroom' : ptr.length - ptr.offest ≤ more + 1 := hroom
        omega
      | eagain => exact ⟨0, _, hle, rfl, by simp, List.suffix_cons _ _, id⟩
      | reset => exact ⟨0, _, hle, rfl, by simp, List.suffix_cons _ _, id⟩
      | failed => exact ⟨0, _, hle, rfl, by simp, List.suffix_cons _ _, id⟩

theorem sendFile_keeps {w : WriteLoop} {ptr : FileReader} {items : List (Task × List Byte)}
    (hrepresents : Represents w ((.sendFile ptr, ptr.content.drop ptr.offest) :: items))
    (hle : ptr.offest ≤ ptr.length)
    (hserved : items = [] ∨ Finishing ptr w.outlet.answers) :
    Keeps w ((.sendFile ptr, ptr.content.drop ptr.offest) :: items)
      (sendFile ptr { w with que := items.map Prod.fst }) := by
  have hunread := hrepresents.unread
  rw [bufferedBytes_cons_file] at hunread
  have hholds : ∀ item ∈ items, Holds item.1 item.2 := fun item hitem ↦
    hrepresents.holds item (List.mem_cons_of_mem _ hitem)
  -- one `sendfile` has moved the offset by `n`
  obtain ⟨n, outlet, hn, hcall, hwire, hanswers, hwhole⟩ := fileSent hle w.outlet
  have hfinish : items ≠ [] → ptr.offest + n = ptr.length := fun hne ↦
    hwhole (hserved.resolve_left hne)
  have hend : ({ ptr with offest := ptr.offest + n } : FileReader).sendEnd =
      decide (ptr.offest + n = ptr.length) := by
    exact decide_eq_decide.mpr eq_comm
  have hdrop : (ptr.content.drop ptr.offest).drop n = ptr.content.drop (ptr.offest + n) :=
    List.drop_drop
  have htotal := Outbox.total_advance n
    (outbox w ((.sendFile ptr, ptr.content.drop ptr.offest) :: items))
  simp only [sendFile, hcall, hend, decide_eq_true_eq]
  by_cases hall : ptr.offest + n = ptr.length
  · have hdone : (ptr.content.drop ptr.offest).drop n = [] := by
      rw [hdrop, hall]
      exact List.drop_length
    have hhead : ((outbox w ((.sendFile ptr, ptr.content.drop ptr.offest) :: items)).advance
        n).pending.head? = some [] := by
      simp [outbox, Outbox.advance, hdone]
    rw [if_pos hall]
    refine ⟨items, ⟨rfl, hholds, hunread, hrepresents.readSpot_le⟩, ?_, hanswers⟩
    rw [← htotal, ← Outbox.total_retire hhead]
    simp only [outbox, Outbox.advance, Outbox.retire, List.map_cons, List.tail_cons, hwire]
  · have hlast : items = [] := by
      by_contra hne
      exact hall (hfinish hne)
    subst hlast
    rw [if_neg hall]
    refine ⟨[(.sendFile { ptr with offest := ptr.offest + n },
      ptr.content.drop (ptr.offest + n))], ⟨rfl, ?_, hunread, hrepresents.readSpot_le⟩, ?_,
      hanswers⟩
    · intro item hitem
      obtain rfl := List.mem_singleton.mp hitem
      exact .sendFile { ptr with offest := ptr.offest + n } hn
    · rw [← htotal]
      simp only [outbox, Outbox.advance, List.map_cons, List.map_nil, insertSendFile, addSendFile,
        hwire, hdrop]

/-- Running the front task keeps the outbox, if the task is served. -/
theorem doFirst_keeps {w : WriteLoop} {items : List (Task × List Byte)}
    (hrepresents : Represents w items) (hserved : Served w)
    (hlive : Accept.reset ∉ w.outlet.answers) : Keeps w items (doFirst w) := by
  have hque := hrepresents.que
  unfold Served at hserved
  unfold doFirst
  cases items with
  | nil =>
    rw [List.map_nil] at hque
    simp only [hque]
    exact ⟨[], hrepresents, rfl, List.suffix_rfl⟩
  | cons item items =>
    obtain ⟨task, bytes⟩ := item
    rw [List.map_cons] at hque
    simp only [hque] at hserved ⊢
    have hholds : Holds task bytes := hrepresents.holds _ List.mem_cons_self
    cases hholds with
    | send => exact send_keeps hrepresents rfl hserved hlive
    | sendReadable =>
      obtain ⟨hsteady, hfiles⟩ := hserved
      -- nothing else in the queue has bytes in the buffer
      have hnone : bufferedBytes items = [] := by
        unfold bufferedBytes
        rw [List.filter_eq_nil_iff.mpr, List.flatMap_nil]
        intro item hitem
        rw [hfiles item.1 (List.mem_map_of_mem hitem)]
        exact Bool.false_ne_true
      have hunread := hrepresents.unread
      rw [bufferedBytes_cons_buffered rfl, hnone, List.append_nil] at hunread
      have hreadable : w.userBuffer.readable = bytes.length := by
        rw [← hunread, UserBuffer.length_unread, UserBuffer.readable,
          sizeSub_of_le hrepresents.readSpot_le]
      rw [hreadable] at hsteady
      simp only [runTask, hreadable]
      exact send_keeps hrepresents rfl hsteady hlive
    | sendFile ptr hle =>
      simp only [List.map_eq_nil_iff] at hserved
      exact sendFile_keeps hrepresents hle hserved

theorem report_eq (w : WriteLoop) :
    w.report.que = w.que ∧ w.report.userBuffer = w.userBuffer ∧ w.report.outlet = w.outlet := by
  unfold report
  split_ifs <;> exact ⟨rfl, rfl, rfl⟩

theorem Represents.report {w : WriteLoop} {items : List (Task × List Byte)}
    (hrepresents : Represents w items) : Represents w.report items := by
  obtain ⟨hque, hbuffer, -⟩ := w.report_eq
  exact ⟨hque.trans hrepresents.que, hrepresents.holds, hbuffer ▸ hrepresents.unread,
    hbuffer ▸ hrepresents.readSpot_le⟩

/-- Every turn of `DoAll` finds its task served. -/
def AllServed : ℕ → WriteLoop → Prop
  | 0, _ => True
  | count + 1, w => Served w ∧
    match doFirst w with
    | .ok .complete w' => AllServed count w'.report
    | _ => True

/-- What a whole `DoAll` keeps: after a throw, the bytes on the wire are still the right ones. -/
def KeepsWire (w : WriteLoop) (items : List (Task × List Byte)) :
    EStateM.Result Fail WriteLoop CompleteType → Prop
  | .ok _ w' => ∃ items', Represents w' items' ∧
    (outbox w' items').total = (outbox w items).total
  | .error _ w' => w'.outlet.wire <+: (outbox w items).total

theorem turns_keep {count : ℕ} {w : WriteLoop} {items : List (Task × List Byte)}
    (hrepresents : Represents w items) (hserved : AllServed count w)
    (hlive : Accept.reset ∉ w.outlet.answers) : KeepsWire w items (turns count w) := by
  induction count generalizing w items with
  | zero => exact ⟨items, hrepresents, rfl⟩
  | succ count ih =>
    obtain ⟨hfirst, hrest⟩ := hserved
    have hkeeps := doFirst_keeps hrepresents hfirst hlive
    unfold turns
    cases hturn : doFirst w with
    | error e w' =>
      rw [hturn] at hkeeps
      have hwire : w'.outlet.wire = w.outlet.wire := hkeeps
      simp only [KeepsWire, hwire]
      exact (outbox w items).sent_prefix_total
    | ok result w' =>
      rw [hturn] at hkeeps hrest
      obtain ⟨items', hrepresents', htotal, hanswers⟩ := hkeeps
      obtain ⟨-, -, houtlet⟩ := w'.report_eq
      have htotal' : (outbox w'.report items').total = (outbox w items).total := by
        rw [← htotal, outbox, outbox, houtlet]
      cases result with
      | imcomplete => exact ⟨items', hrepresents'.report, htotal'⟩
      | empty => exact ⟨items', hrepresents'.report, htotal'⟩
      | complete =>
        have hlive' : Accept.reset ∉ w'.report.outlet.answers := by
          rw [houtlet]
          exact fun h ↦ hlive (hanswers.mem h)
        have hlater := ih hrepresents'.report hrest hlive'
        simp only
        unfold KeepsWire at hlater ⊢
        rw [htotal'] at hlater
        exact hlater

/-! ## Histories -/

/-- One piece of what a `Send` task is to send. -/
inductive Piece where
  /-- An `swrite` -/
  | formatted (characters : List Byte)
  /-- A `write` of an array or a string -/
  | block (bytes : List Byte)
  deriving DecidableEq

def put : Piece → Op WriteLoop ℕ
  | .formatted characters => swrite characters
  | .block bytes => writeBytes bytes

/-- The pieces one after another; the value is the sum of what the calls return. -/
def putAll : List Piece → Op WriteLoop ℕ
  | [] => pure 0
  | piece :: pieces => do
    let first ← put piece
    let rest ← putAll pieces
    pure (first + rest)

/-- What is done to a write loop. -/
inductive Command where
  /-- Buffer some pieces and `AddSend` with their length. -/
  | send (pieces : List Piece)
  /-- Buffer some pieces and `AddSend()`. -/
  | sendReadable (pieces : List Piece)
  | sendFile (content : List Byte)
  /-- `DoAll`, with what the kernel answers. -/
  | doAll (answers : List Accept)

def perform : Command → Op WriteLoop Unit
  | .send pieces => do
    let ret ← putAll pieces
    modify (addSend ret)
  | .sendReadable pieces => do
    let _ ← putAll pieces
    modify addSendReadable
  | .sendFile content => modify (addSendFile { content })
  | .doAll answers => do
    modify fun w ↦ { w with outlet.answers := answers }
    let _ ← doAll
    pure ()

def performAll : List Command → Op WriteLoop Unit
  | [] => pure ()
  | command :: commands => do
    perform command
    performAll commands

/-- The bytes that a command puts in line: those buffered by it, or the file. -/
def enqueued (w : WriteLoop) : Command → List Byte
  | .send pieces | .sendReadable pieces =>
    match putAll pieces w with
    | .ok _ w' => w'.userBuffer.unread.drop w.userBuffer.unread.length
    | .error _ _ => []
  | .sendFile content => content
  | .doAll _ => []

/-- The bytes put in line by a history, in order; a throw ends it. -/
def enqueuedAll : List Command → WriteLoop → List Byte
  | [], _ => []
  | command :: commands, w => enqueued w command ++
    match perform command w with
    | .ok _ w' => enqueuedAll commands w'
    | .error _ _ => []

/-- A `DoAll` finds its tasks served. -/
def ServedBy (w : WriteLoop) : Command → Prop
  | .doAll answers => AllServed (w.que.length + 1) { w with outlet.answers := answers }
  | _ => True

/-- Every `DoAll` of a history finds its tasks served. -/
def Orderly : List Command → WriteLoop → Prop
  | [], _ => True
  | command :: commands, w => ServedBy w command ∧
    match perform command w with
    | .ok _ w' => Orderly commands w'
    | .error _ _ => True

theorem onBuffer_ok {f : Op UserBuffer ℕ} {w w' : WriteLoop} {n : ℕ}
    (hcall : onBuffer f w = .ok n w') :
    ∃ b, f w.userBuffer = .ok n b ∧ w' = { w with userBuffer := b } := by
  unfold onBuffer at hcall
  cases hf : f w.userBuffer with
  | ok k b =>
    rw [hf] at hcall
    cases hcall
    exact ⟨b, rfl, rfl⟩
  | error e b =>
    rw [hf] at hcall
    cases hcall

theorem onBuffer_error {f : Op UserBuffer ℕ} {w w' : WriteLoop} {e : Fail}
    (hcall : onBuffer f w = .error e w') :
    ∃ b, f w.userBuffer = .error e b ∧ w' = { w with userBuffer := b } := by
  unfold onBuffer at hcall
  cases hf : f w.userBuffer with
  | ok k b =>
    rw [hf] at hcall
    cases hcall
  | error e b =>
    rw [hf] at hcall
    cases hcall
    exact ⟨b, rfl, rfl⟩

/-- The same queue with more unread bytes in the buffer. -/
structure Filled (w : WriteLoop) (bytes : List Byte) (w' : WriteLoop) : Prop where
  que : w'.que = w.que
  outlet : w'.outlet = w.outlet
  appended : UserBuffer.Appended w.userBuffer bytes w'.userBuffer

theorem put_fills {w w' : WriteLoop} (hle : w.userBuffer.readSpot ≤ w.userBuffer.writeSpot)
    {piece : Piece} {n : ℕ} (hput : put piece w = .ok n w') :
    ∃ bytes, bytes.length = n ∧ Filled w bytes w' := by
  cases piece with
  | block bytes =>
    obtain ⟨b, hwrite, rfl⟩ := onBuffer_ok hput
    obtain ⟨hn, happended⟩ := UserBuffer.appended_writeBytes hle hwrite
    exact ⟨bytes, hn.symm, rfl, rfl, happended⟩
  | formatted characters =>
    obtain ⟨ret, w₁, hprint, hput⟩ := Op.bind_ok hput
    obtain ⟨_, w₂, hwrite, hpure⟩ := Op.bind_ok hput
    cases hpure
    obtain ⟨b₁, hprinted, rfl⟩ := onBuffer_ok hprint
    obtain ⟨b₂, hwritten, rfl⟩ := onBuffer_ok hwrite
    obtain ⟨buffer, hsWrite, hbelow⟩ := UserBuffer.sWrite_eq w.userBuffer characters
    rw [hsWrite] at hprinted
    cases hprinted
    let b₁ : UserBuffer := { w.userBuffer with buffer := buffer }
    have hle₁ : b₁.readSpot ≤ b₁.writeSpot := hle
    have hsame : b₁.unread = w.userBuffer.unread := by
      apply load_congr
      intro i _ hi
      have hspot : b₁.readSpot + (b₁.writeSpot - b₁.readSpot) = w.userBuffer.writeSpot :=
        Nat.add_sub_cancel' hle
      exact hbelow i (hspot ▸ hi)
    obtain ⟨-, happended⟩ := UserBuffer.appended_write hle₁ hwritten
    refine ⟨load buffer w.userBuffer.writeSpot characters.length, by simp, rfl, rfl, ?_,
      happended.readSpot_le⟩
    rw [happended.unread, hsame]

theorem put_error {w w' : WriteLoop} {piece : Piece} {e : Fail}
    (hput : put piece w = .error e w') : ∃ b, w' = { w with userBuffer := b } := by
  cases piece with
  | block bytes =>
    obtain ⟨b, -, hsame⟩ := onBuffer_error hput
    exact ⟨b, hsame⟩
  | formatted characters =>
    rcases Op.bind_error hput with hprint | ⟨ret, w₁, hprint, hput⟩
    · obtain ⟨b, -, hsame⟩ := onBuffer_error hprint
      exact ⟨b, hsame⟩
    obtain ⟨b₁, -, rfl⟩ := onBuffer_ok hprint
    rcases Op.bind_error hput with hwrite | ⟨_, w₂, hwrite, hpure⟩
    · obtain ⟨b, -, hsame⟩ := onBuffer_error hwrite
      exact ⟨b, hsame⟩
    · cases hpure

theorem putAll_fills {w w' : WriteLoop} (hle : w.userBuffer.readSpot ≤ w.userBuffer.writeSpot)
    {pieces : List Piece} {n : ℕ} (hput : putAll pieces w = .ok n w') :
    ∃ bytes, bytes.length = n ∧ Filled w bytes w' := by
  induction pieces generalizing w n with
  | nil =>
    cases hput
    exact ⟨[], rfl, rfl, rfl, by simp, hle⟩
  | cons piece pieces ih =>
    obtain ⟨first, w₁, hfirst, hput⟩ := Op.bind_ok hput
    obtain ⟨rest, w₂, hrest, hpure⟩ := Op.bind_ok hput
    cases hpure
    obtain ⟨bytes, hbytes, hfilled⟩ := put_fills hle hfirst
    obtain ⟨bytes', hbytes', hfilled'⟩ := ih hfilled.appended.readSpot_le hrest
    refine ⟨bytes ++ bytes', by simp [hbytes, hbytes'], hfilled'.que.trans hfilled.que,
      hfilled'.outlet.trans hfilled.outlet, ?_, hfilled'.appended.readSpot_le⟩
    · rw [hfilled'.appended.unread, hfilled.appended.unread, List.append_assoc]

theorem putAll_error {w w' : WriteLoop} (hle : w.userBuffer.readSpot ≤ w.userBuffer.writeSpot)
    {pieces : List Piece} {e : Fail} (hput : putAll pieces w = .error e w') :
    w'.outlet = w.outlet := by
  induction pieces generalizing w with
  | nil => cases hput
  | cons piece pieces ih =>
    rcases Op.bind_error hput with hfirst | ⟨first, w₁, hfirst, hput⟩
    · obtain ⟨b, rfl⟩ := put_error hfirst
      rfl
    obtain ⟨bytes, -, hfilled⟩ := put_fills hle hfirst
    have houtlet := hfilled.outlet
    rcases Op.bind_error hput with hrest | ⟨rest, w₂, -, hpure⟩
    · exact (ih hfilled.appended.readSpot_le hrest).trans houtlet
    · cases hpure

/-- A task behind the others, with the bytes it stands for. -/
theorem Represents.push {w w' : WriteLoop} {items : List (Task × List Byte)}
    (hrepresents : Represents w items) {bytes : List Byte} (hfilled : Filled w bytes w')
    {task : Task} (hbuffered : task.buffered = true) (hholds : Holds task bytes) :
    Represents { w' with que := w'.que ++ [task] } (items ++ [(task, bytes)]) ∧
      (outbox { w' with que := w'.que ++ [task] } (items ++ [(task, bytes)])).total =
        (outbox w items).total ++ bytes := by
  have hque := hfilled.que
  have houtlet := hfilled.outlet
  refine ⟨⟨?_, ?_, ?_, hfilled.appended.readSpot_le⟩, ?_⟩
  · simp only [hque, hrepresents.que, List.map_append, List.map_cons, List.map_nil]
  · exact List.forall_mem_append.mpr ⟨hrepresents.holds, List.forall_mem_singleton.mpr hholds⟩
  · rw [bufferedBytes_append, bufferedBytes_cons_buffered hbuffered, hfilled.appended.unread,
      hrepresents.unread]
    simp [bufferedBytes]
  · rw [← Outbox.total_push]
    simp only [outbox, Outbox.push, houtlet, List.map_append, List.map_cons, List.map_nil]

/-- A file behind the others. -/
theorem Represents.pushFile {w : WriteLoop} {items : List (Task × List Byte)}
    (hrepresents : Represents w items) (content : List Byte) :
    Represents (w.addSendFile { content }) (items ++ [(.sendFile { content }, content)]) ∧
      (outbox (w.addSendFile { content }) (items ++ [(.sendFile { content }, content)])).total =
        (outbox w items).total ++ content := by
  refine ⟨⟨?_, ?_, ?_, hrepresents.readSpot_le⟩, ?_⟩
  · simp only [addSendFile, hrepresents.que, List.map_append, List.map_cons, List.map_nil]
  · refine List.forall_mem_append.mpr ⟨hrepresents.holds, List.forall_mem_singleton.mpr ?_⟩
    exact .sendFile { content } (Nat.zero_le _)
  · rw [bufferedBytes_append, bufferedBytes_cons_file]
    simpa [bufferedBytes, addSendFile] using hrepresents.unread
  · rw [← Outbox.total_push]
    simp only [outbox, Outbox.push, addSendFile, List.map_append, List.map_cons, List.map_nil]

/-- The bytes that a returning `putAll` has buffered. -/
theorem enqueued_of_filled {w w' : WriteLoop} {bytes : List Byte} (hfilled : Filled w bytes w') :
    w'.userBuffer.unread.drop w.userBuffer.unread.length = bytes := by
  rw [hfilled.appended.unread, List.drop_left]

/-- One command keeps the outbox and adds what it puts in line. -/
theorem perform_keeps {w : WriteLoop} {items : List (Task × List Byte)}
    (hrepresents : Represents w items) (command : Command)
    (hlive : ∀ answers, command = .doAll answers → Accept.reset ∉ answers)
    (hserved : ServedBy w command) :
    match perform command w with
    | .ok _ w' => ∃ items', Represents w' items' ∧
      (outbox w' items').total = (outbox w items).total ++ enqueued w command
    | .error _ w' => w'.outlet.wire <+: (outbox w items).total := by
  have hle := hrepresents.readSpot_le
  cases command with
  | send pieces =>
    cases hput : putAll pieces w with
    | error e w' =>
      simp only [perform, Op.bind_of_error hput, putAll_error hle hput]
      exact (outbox w items).sent_prefix_total
    | ok n w' =>
      obtain ⟨bytes, rfl, hfilled⟩ := putAll_fills hle hput
      obtain ⟨hpushed, htotal⟩ := hrepresents.push hfilled rfl (.send bytes)
      simp only [perform, Op.bind_of_ok hput, enqueued, hput, enqueued_of_filled hfilled]
      exact ⟨_, hpushed, htotal⟩
  | sendReadable pieces =>
    cases hput : putAll pieces w with
    | error e w' =>
      simp only [perform, Op.bind_of_error hput, putAll_error hle hput]
      exact (outbox w items).sent_prefix_total
    | ok n w' =>
      obtain ⟨bytes, rfl, hfilled⟩ := putAll_fills hle hput
      obtain ⟨hpushed, htotal⟩ := hrepresents.push hfilled rfl (.sendReadable bytes)
      simp only [perform, Op.bind_of_ok hput, enqueued, hput, enqueued_of_filled hfilled]
      exact ⟨_, hpushed, htotal⟩
  | sendFile content =>
    obtain ⟨hpushed, htotal⟩ := hrepresents.pushFile content
    exact ⟨_, hpushed, htotal⟩
  | doAll answers =>
    have hsupplied : Represents { w with outlet.answers := answers } items :=
      ⟨hrepresents.que, hrepresents.holds, hrepresents.unread, hrepresents.readSpot_le⟩
    have hkeeps := turns_keep hsupplied hserved (hlive answers rfl)
    have hrun : perform (.doAll answers) w = (do let _ ← doAll; pure () : Op WriteLoop Unit)
        { w with outlet.answers := answers } := rfl
    rw [hrun]
    cases hall : doAll { w with outlet.answers := answers } with
    | error e w' =>
      have hturns : turns (w.que.length + 1) { w with outlet.answers := answers } =
        .error e w' := hall
      rw [hturns] at hkeeps
      simp only [Op.bind_of_error hall]
      exact hkeeps
    | ok result w' =>
      have hturns : turns (w.que.length + 1) { w with outlet.answers := answers } =
        .ok result w' := hall
      rw [hturns] at hkeeps
      obtain ⟨items', hrepresents', htotal⟩ := hkeeps
      simp only [Op.bind_of_ok hall, enqueued, List.append_nil]
      exact ⟨items', hrepresents', htotal⟩

/-- Histories keep the outbox: what is on the wire is a prefix of what was put in line. -/
theorem wire_prefix_of_represents {commands : List Command} {w : WriteLoop}
    {items : List (Task × List Byte)} (hrepresents : Represents w items)
    (hlive : ∀ answers, .doAll answers ∈ commands → Accept.reset ∉ answers)
    (horderly : Orderly commands w) :
    (Op.finalState (performAll commands w)).outlet.wire <+:
      (outbox w items).total ++ enqueuedAll commands w := by
  induction commands generalizing w items with
  | nil =>
    rw [enqueuedAll, List.append_nil]
    exact (outbox w items).sent_prefix_total
  | cons command commands ih =>
    obtain ⟨hserved, hlater⟩ := horderly
    have hkeeps := perform_keeps hrepresents command
      (fun answers h ↦ hlive answers (h ▸ List.mem_cons_self)) hserved
    unfold performAll
    cases hperform : perform command w with
    | error e w' =>
      rw [hperform] at hkeeps
      rw [Op.bind_of_error hperform]
      exact hkeeps.trans (List.prefix_append _ _)
    | ok u w' =>
      rw [hperform] at hkeeps hlater
      obtain ⟨items', hrepresents', htotal⟩ := hkeeps
      rw [Op.bind_of_ok hperform]
      have hrest := ih hrepresents' (fun answers h ↦ hlive answers (List.mem_cons_of_mem _ h))
        hlater
      simp only [enqueuedAll, hperform]
      rw [← List.append_assoc, ← htotal]
      exact hrest

/-- In an orderly history on a new write loop, the bytes on the wire are a prefix of what was put
in line. -/
theorem wire_prefix_enqueued {interval length : ℕ} {commands : List Command}
    (hlive : ∀ answers, .doAll answers ∈ commands → Accept.reset ∉ answers)
    (horderly : Orderly commands (new interval length)) :
    (Op.finalState (performAll commands (new interval length))).outlet.wire <+:
      enqueuedAll commands (new interval length) :=
  wire_prefix_of_represents (represents_new interval length) hlive horderly

/-- A head and a file, of which the kernel takes one byte. -/
def reply : List Command :=
  [.send [.formatted (text "head")], .sendFile (text "file"), .doAll [.accepts 0]]

theorem wire_prefix_enqueued_reply :
    (Op.finalState (performAll reply (new 0 64))).outlet.wire <+: enqueuedAll reply (new 0 64) := by
  apply wire_prefix_enqueued
  · intro answers hanswers
    obtain rfl : answers = [.accepts 0] := by simpa [reply] using hanswers
    decide
  · exact ⟨trivial, trivial, ⟨trivial, trivial⟩, trivial⟩

/-- A second call that the kernel accepts repeats the first bytes. -/
theorem not_wire_prefix_resumed : ¬
    (Op.finalState (performAll [.send [.block (text "abcd")], .doAll [.accepts 1, .accepts 1]]
      (new 0 64))).outlet.wire <+:
    enqueuedAll [.send [.block (text "abcd")], .doAll [.accepts 1, .accepts 1]] (new 0 64) := by
  decide

end WriteLoop

end LWebServer
