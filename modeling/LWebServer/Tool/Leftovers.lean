import LWebServer.Library.Lockstep
import LWebServer.Tool.WireOrder

/-!
# Write loops in step

What a write loop sends lies between its read and its write position: the `Send` tasks in the queue
have no more to send than there are unread bytes. It does not matter what else the buffer holds,
nor what has been sent and reported before.
-/

namespace LWebServer

open Memory Lockstep

/-! ## Buffers with the same unread bytes -/

namespace UserBuffer

/-- The same bytes stand at the same place, and there are at least `due` of them. -/
structure Holds (due : ℕ) (b b' : UserBuffer) : Prop where
  writeSpot : b'.writeSpot = b.writeSpot
  readSpot : b'.readSpot = b.readSpot
  bufferSize : b'.bufferSize = b.bufferSize
  unread : b'.unread = b.unread
  due_le : b.readSpot + due ≤ b.writeSpot

variable {due : ℕ} {b b' : UserBuffer}

namespace Holds

theorem readSpot_le (hholds : Holds due b b') : b.readSpot ≤ b.writeSpot :=
  (Nat.le_add_right _ _).trans hholds.due_le

theorem readSpot_le' (hholds : Holds due b b') : b'.readSpot ≤ b'.writeSpot := by
  rw [hholds.readSpot, hholds.writeSpot]
  exact hholds.readSpot_le

theorem writeable (hholds : Holds due b b') : b'.writeable = b.writeable := by
  unfold UserBuffer.writeable
  rw [hholds.bufferSize, hholds.writeSpot]

theorem of_le {less : ℕ} (hholds : Holds due b b') (hle : less ≤ due) : Holds less b b' :=
  ⟨hholds.writeSpot, hholds.readSpot, hholds.bufferSize, hholds.unread,
    (Nat.add_le_add_left hle _).trans hholds.due_le⟩

/-- The first of the bytes. -/
theorem load_eq (hholds : Holds due b b') {n : ℕ} (hn : n ≤ due) :
    load b'.buffer b'.readSpot n = load b.buffer b.readSpot n := by
  have hroom := hholds.due_le
  have htake {c : UserBuffer} (hc : c.readSpot + n ≤ c.writeSpot) :
      c.unread.take n = load c.buffer c.readSpot n := by
    obtain ⟨rest, hrest⟩ := Nat.exists_eq_add_of_le (Nat.le_sub_of_add_le' hc)
    rw [UserBuffer.unread, hrest, load_add, List.take_left' (length_load _ _ _)]
  have hfits : b.readSpot + n ≤ b.writeSpot := (Nat.add_le_add_left hn _).trans hroom
  have hfits' : b'.readSpot + n ≤ b'.writeSpot := by
    rwa [hholds.readSpot, hholds.writeSpot]
  rw [← htake hfits, ← htake hfits', hholds.unread]

theorem read {n : ℕ} (hholds : Holds (n + due) b b') : Holds due (b.read n) (b'.read n) := by
  refine ⟨hholds.writeSpot, congrArg (· + n) hholds.readSpot, hholds.bufferSize, ?_, ?_⟩
  · rw [unread_read, unread_read, hholds.unread]
  · have hle := hholds.due_le
    simp only [UserBuffer.read]
    omega

theorem moved (hholds : Holds due b b') : Holds due b.moved b'.moved := by
  refine ⟨?_, rfl, hholds.bufferSize, ?_, ?_⟩
  · simp only [UserBuffer.moved, hholds.writeSpot, hholds.readSpot]
  · rw [unread_moved, unread_moved, hholds.unread]
  · have hle := hholds.due_le
    simp only [UserBuffer.moved]
    omega

theorem stored (hholds : Holds due b b') {block : List Byte}
    (hfits : b.writeSpot + block.length ≤ b.bufferSize)
    (hfits' : b'.writeSpot + block.length ≤ b'.bufferSize) :
    Holds due (b.stored block hfits) (b'.stored block hfits') := by
  refine ⟨congrArg (· + block.length) hholds.writeSpot, hholds.readSpot, hholds.bufferSize, ?_,
    hholds.due_le.trans (Nat.le_add_right _ _)⟩
  rw [unread_stored, unread_stored, hholds.unread, hholds.readSpot, hholds.writeSpot]

end Holds

theorem together_moveBuffer_holds (hholds : Holds due b b') :
    Together (Holds due) (Holds due) b.moveBuffer b'.moveBuffer := by
  have hlow : (b'.readSpot < b'.bufferSize / 2) = (b.readSpot < b.bufferSize / 2) := by
    rw [hholds.readSpot, hholds.bufferSize]
  unfold moveBuffer
  rw [if_pos hholds.readSpot_le, if_pos hholds.readSpot_le']
  simp only [hlow]
  split_ifs
  · exact .ok () hholds
  · exact .ok () hholds.moved

/-- Bytes have been put at the write position, and the first of them are committed. -/
theorem unread_committed {b : UserBuffer} {block : List Byte} {n : ℕ}
    (hle : b.readSpot ≤ b.writeSpot) (hn : n ≤ block.length)
    (hfits : b.writeSpot + n ≤ b.bufferSize) :
    UserBuffer.unread { b with
      buffer := store b.buffer b.writeSpot block
      writeSpot := b.writeSpot + n
      writeSpot_le := hfits } = b.unread ++ block.take n := by
  have hcount : b.writeSpot + n - b.readSpot = (b.writeSpot - b.readSpot) + n := by omega
  have hwhole : load (store b.buffer b.writeSpot block) b.writeSpot block.length =
      block.take n ++ block.drop n := by
    rw [load_store, List.take_append_drop]
  have hfirst := (load_eq_append hwhole).1
  rw [List.length_take, min_eq_left hn] at hfirst
  unfold unread
  dsimp only
  rw [hcount, load_add, Nat.add_sub_cancel' hle, hfirst,
    load_store_below _ _ (Nat.add_sub_cancel' hle).le]

/-- Bytes have been put at the write position, and none of them is committed. -/
theorem unread_put {b : UserBuffer} (hle : b.readSpot ≤ b.writeSpot) (block : List Byte) :
    UserBuffer.unread { b with buffer := store b.buffer b.writeSpot block } = b.unread :=
  load_store_below _ _ (Nat.add_sub_cancel' hle).le

/-- Bytes are put at the write position, and so many of them are committed. -/
theorem together_write_holds (hholds : Holds due b b') {block : List Byte} {n : ℕ}
    (hn : b.writeSpot + n ≤ b.bufferSize → n ≤ block.length) :
    Together (Holds due) (Holds due)
      (write n { b with buffer := store b.buffer b.writeSpot block })
      (write n { b' with buffer := store b'.buffer b'.writeSpot block }) := by
  have hle := hholds.readSpot_le
  have hle' := hholds.readSpot_le'
  unfold write
  dsimp only
  by_cases hfits : b.writeSpot + n ≤ b.bufferSize
  · have hfits' : b'.writeSpot + n ≤ b'.bufferSize := by
      rwa [hholds.writeSpot, hholds.bufferSize]
    have hcommitted := unread_committed hle (hn hfits) hfits
    have hcommitted' := unread_committed hle' (hn hfits) hfits'
    rw [dif_pos hfits, dif_pos hfits']
    refine Together.bind (together_moveBuffer_holds ⟨congrArg (· + n) hholds.writeSpot,
      hholds.readSpot, hholds.bufferSize, ?_, hholds.due_le.trans (Nat.le_add_right _ _)⟩)
      fun _ _ _ hrel ↦ .ok _ hrel
    rw [hcommitted, hcommitted', hholds.unread]
  · have hfits' : ¬ b'.writeSpot + n ≤ b'.bufferSize := by
      rwa [hholds.writeSpot, hholds.bufferSize]
    rw [dif_neg hfits, dif_neg hfits']
    refine .error _ ⟨hholds.writeSpot, hholds.readSpot, hholds.bufferSize, ?_, hholds.due_le⟩
    rw [unread_put hle, unread_put hle', hholds.unread]

theorem together_append_holds (hholds : Holds due b b') (block : List Byte) :
    Together (Holds due) (Holds due) (append block b) (append block b') := by
  unfold append
  by_cases hfits : b.writeSpot + block.length ≤ b.bufferSize
  · have hfits' : b'.writeSpot + block.length ≤ b'.bufferSize := by
      rwa [hholds.writeSpot, hholds.bufferSize]
    rw [dif_pos hfits, dif_pos hfits']
    exact .ok _ (hholds.stored hfits hfits')
  · have hfits' : ¬ b'.writeSpot + block.length ≤ b'.bufferSize := by
      rwa [hholds.writeSpot, hholds.bufferSize]
    rw [dif_neg hfits, dif_neg hfits']
    exact .error _ hholds

theorem together_writeBytes_holds (hholds : Holds due b b') (block : List Byte) :
    Together (Holds due) (Holds due) (writeBytes block b) (writeBytes block b') := by
  unfold writeBytes
  rw [Op.bind_get, Op.bind_get, hholds.writeable]
  split_ifs
  · exact (together_moveBuffer_holds hholds).bind fun _ _ _ hrel ↦
      together_append_holds hrel block
  · exact together_append_holds hholds block

end UserBuffer

/-! ## Printing -/

namespace Task

/-- The bytes of the buffer that a task has still to send. -/
def due : Task → ℕ
  | .send length => length
  | _ => 0

end Task

/-- The bytes of the buffer that the tasks of a queue have still to send. -/
def dueAll : List Task → ℕ
  | [] => 0
  | task :: que => task.due + dueAll que

theorem dueAll_append (que que' : List Task) : dueAll (que ++ que') = dueAll que + dueAll que' := by
  induction que with
  | nil => simp [dueAll]
  | cons task que ih => rw [List.cons_append, dueAll, dueAll, ih, Nat.add_assoc]

namespace WriteLoop

/-- Two loops with the same to do. The second one has already sent and reported something else. -/
structure Apart (sent : List Byte) (reported : List ℤ) (w w' : WriteLoop) : Prop where
  buffer : w.userBuffer.Holds (dueAll w.que) w'.userBuffer
  plain : ∀ task ∈ w.que, task ≠ .sendReadable
  que : w'.que = w.que
  throughout : w'.throughout = w.throughout
  interval : w'.interval = w.interval
  wire : w'.outlet.wire = sent ++ w.outlet.wire
  reports : w'.reports = reported ++ w.reports

variable {sent : List Byte} {reported : List ℤ} {w w' : WriteLoop}

theorem together_onBuffer (hapart : Apart sent reported w w') {f f' : Op UserBuffer ℕ}
    (hcall : Together (UserBuffer.Holds (dueAll w.que)) (UserBuffer.Holds (dueAll w.que))
      (f w.userBuffer) (f' w'.userBuffer)) :
    Together (Apart sent reported) (Apart sent reported) (onBuffer f w) (onBuffer f' w') := by
  have hwith {b b' : UserBuffer} (hholds : b.Holds (dueAll w.que) b') :
      Apart sent reported { w with userBuffer := b } { w' with userBuffer := b' } :=
    ⟨hholds, hapart.plain, hapart.que, hapart.throughout, hapart.interval, hapart.wire,
      hapart.reports⟩
  unfold onBuffer
  generalize f w.userBuffer = result at hcall
  generalize f' w'.userBuffer = result' at hcall
  cases hcall with
  | ok n hholds => exact .ok n (hwith hholds)
  | error e hholds => exact .error e (hwith hholds)

/-- What `vsnprintf` stores where there is room for so many characters. -/
def printed (room : ℕ) (formatted : List Byte) : List Byte :=
  if room = 0 then [] else formatted.take (room - 1) ++ [0]

theorem length_le_printed {room : ℕ} {formatted : List Byte} (hfits : formatted.length ≤ room) :
    formatted.length ≤ (printed room formatted).length := by
  unfold printed
  split_ifs with hroom
  · exact hfits.trans_eq hroom
  · simp only [List.length_append, List.length_take, List.length_singleton]
    omega

/-- `swrite` stores what `vsnprintf` prints and commits it. -/
theorem swrite_eq (formatted : List Byte) (w : WriteLoop) : swrite formatted w =
    onBuffer (fun b ↦ UserBuffer.write formatted.length { b with
      buffer := store b.buffer b.writeSpot (printed b.writeable formatted) }) w := by
  have hprint : onBuffer (UserBuffer.sWrite formatted) w = .ok formatted.length { w with
      userBuffer := { w.userBuffer with
        buffer := store w.userBuffer.buffer w.userBuffer.writeSpot
          (printed w.userBuffer.writeable formatted) } } := rfl
  unfold swrite
  rw [Op.bind_of_ok hprint]
  unfold write onBuffer
  dsimp only
  generalize { w.userBuffer with
    buffer := store w.userBuffer.buffer w.userBuffer.writeSpot
      (printed w.userBuffer.writeable formatted) } = b
  simp only [bind, EStateM.bind]
  cases hwrite : UserBuffer.write formatted.length b with
  | error e b' => rfl
  | ok n b' =>
    unfold UserBuffer.write at hwrite
    split_ifs at hwrite
    obtain ⟨_, b₁, -, hpure⟩ := Op.bind_ok hwrite
    cases hpure
    rfl

theorem together_put (hapart : Apart sent reported w w') (piece : Piece) :
    Together (Apart sent reported) (Apart sent reported) (put piece w) (put piece w') := by
  cases piece with
  | block bytes =>
    exact together_onBuffer hapart (UserBuffer.together_writeBytes_holds hapart.buffer bytes)
  | formatted characters =>
    change Together _ _ (swrite characters w) (swrite characters w')
    rw [swrite_eq, swrite_eq]
    refine together_onBuffer hapart ?_
    rw [hapart.buffer.writeable]
    refine UserBuffer.together_write_holds hapart.buffer fun hfits ↦ ?_
    exact length_le_printed (Nat.le_sub_of_add_le' hfits)

theorem together_putAll (hapart : Apart sent reported w w') (pieces : List Piece) :
    Together (Apart sent reported) (Apart sent reported) (putAll pieces w) (putAll pieces w') := by
  induction pieces generalizing w w' with
  | nil => exact .ok 0 hapart
  | cons piece pieces ih =>
    refine (together_put hapart piece).bind fun first _ _ hfirst ↦ ?_
    exact (ih hfirst).bind fun rest _ _ hrest ↦ .ok _ hrest

/-- The bytes that have been put get their `Send` task. -/
theorem Apart.addSend {w₁ w₁' : WriteLoop} (hapart : Apart sent reported w w') {bytes : List Byte}
    (hfilled : Filled w bytes w₁) (hnext : Apart sent reported w₁ w₁') :
    Apart sent reported (w₁.addSend bytes.length) (w₁'.addSend bytes.length) := by
  have hdue := hapart.buffer.due_le
  have hunread := congrArg List.length hfilled.appended.unread
  rw [List.length_append, UserBuffer.length_unread, UserBuffer.length_unread] at hunread
  have hroom : w₁.userBuffer.readSpot + dueAll (w₁.addSend bytes.length).que ≤
      w₁.userBuffer.writeSpot := by
    have hle := hfilled.appended.readSpot_le
    have hque : dueAll (w₁.addSend bytes.length).que = dueAll w.que + bytes.length := by
      unfold WriteLoop.addSend
      rw [dueAll_append, hfilled.que]
      rfl
    omega
  have hbuffer := hnext.buffer
  refine ⟨⟨hbuffer.writeSpot, hbuffer.readSpot, hbuffer.bufferSize, hbuffer.unread, hroom⟩, ?_,
    congrArg (· ++ [Task.send bytes.length]) hnext.que, hnext.throughout, hnext.interval,
    hnext.wire, hnext.reports⟩
  exact List.forall_mem_append.mpr ⟨hnext.plain, List.forall_mem_singleton.mpr Task.noConfusion⟩

theorem Apart.addSendFile (hapart : Apart sent reported w w') (ptr : FileReader) :
    Apart sent reported (w.addSendFile ptr) (w'.addSendFile ptr) := by
  have hdue : dueAll (w.addSendFile ptr).que = dueAll w.que := dueAll_append _ _
  refine ⟨hdue ▸ hapart.buffer, ?_, congrArg (· ++ [Task.sendFile ptr]) hapart.que,
    hapart.throughout, hapart.interval, hapart.wire, hapart.reports⟩
  exact List.forall_mem_append.mpr ⟨hapart.plain, List.forall_mem_singleton.mpr Task.noConfusion⟩

end WriteLoop

/-! ## Sending -/

/-- An outlet through which something else has been sent before. -/
def Outlet.behind (sent : List Byte) (o : Outlet) : Outlet := { o with wire := sent ++ o.wire }

theorem FileReader.sendFile_behind (sent : List Byte) (ptr : FileReader) (o : Outlet) :
    ptr.sendFile (o.behind sent) = ((ptr.sendFile o).1, (ptr.sendFile o).2.behind sent) := by
  have hanswers : (o.behind sent).answers = o.answers := rfl
  unfold FileReader.sendFile
  rw [hanswers]
  split_ifs
  · rfl
  · rcases o.answers with _ | ⟨answer, answers⟩
    · rfl
    · cases answer with
      | accepts more => simp only [Outlet.behind, List.append_assoc]
      | eagain => rfl
      | reset => rfl
      | failed => rfl

namespace WriteLoop

theorem sendLoop_behind (sent block : List Byte) (answers : List Accept) (s : Sending) :
    sendLoop block answers { s with outlet := s.outlet.behind sent } =
      { sendLoop block answers s with
        outlet := (sendLoop block answers s).outlet.behind sent } := by
  induction answers generalizing s with
  | nil => rfl
  | cons answer answers ih =>
    rw [sendLoop.eq_def, sendLoop.eq_def block (answer :: answers) s]
    by_cases hall : s.sent = block.length
    · simp only [if_pos hall]
      rfl
    · simp only [if_neg hall]
      cases answer with
      | accepts more =>
        dsimp only
        rw [← ih]
        simp only [Outlet.behind, List.append_assoc]
      | eagain => rfl
      | reset => rfl
      | failed => rfl

theorem sent_sendLoop_le {block : List Byte} {answers : List Accept} {s : Sending}
    (hle : s.sent ≤ block.length) : (sendLoop block answers s).sent ≤ block.length := by
  induction answers generalizing s with
  | nil => exact hle
  | cons answer answers ih =>
    rw [sendLoop.eq_def]
    by_cases hall : s.sent = block.length
    · simp only [if_pos hall]
      exact hle
    · simp only [if_neg hall]
      cases answer with
      | accepts more =>
        apply ih
        dsimp only
        omega
      | eagain => exact hle
      | reset => exact hle
      | failed => exact hle

/-- The kernel has the same answers for both. -/
structure Abreast (sent : List Byte) (reported : List ℤ) (w w' : WriteLoop) : Prop extends
    Apart sent reported w w' where
  answers : w'.outlet.answers = w.outlet.answers

variable {sent : List Byte} {reported : List ℤ} {w w' : WriteLoop}

theorem Abreast.outlet (habreast : Abreast sent reported w w') :
    w'.outlet = w.outlet.behind sent := by
  have hwire := habreast.wire
  have hanswers := habreast.answers
  cases hout : w'.outlet with
  | mk answers wire =>
    rw [hout] at hwire hanswers
    dsimp only at hwire hanswers
    rw [hwire, hanswers]
    rfl

/-- The variables of the loop in `Send` at its start. -/
def starting (w : WriteLoop) : Sending where
  outlet := w.outlet
  sent := 0
  throughout := w.throughout
  interval := w.interval
  faultError := false

/-- What `Send` does behind its loop. -/
def settle (length : ℕ) (s : Sending) : Op WriteLoop CompleteType := fun w ↦
  let w := { w with
    userBuffer := w.userBuffer.read s.sent
    outlet := s.outlet
    throughout := s.throughout
    interval := s.interval }
  if s.faultError = false ∧ 0 < length - s.sent then
    .ok .imcomplete (w.insertSend (length - s.sent))
  else .ok .complete w

theorem send_eq (length : ℕ) (w : WriteLoop) : send length w =
    if length < 1 then .error .invalidArgument w
    else if w.userBuffer.bufferSize < w.userBuffer.readSpot + length then
      .error .undefinedBehaviour w
    else settle length (sendLoop (load w.userBuffer.buffer w.userBuffer.readSpot length)
      w.outlet.answers w.starting) w := rfl

theorem Abreast.starting (habreast : Abreast sent reported w w') :
    w'.starting = { w.starting with outlet := w.starting.outlet.behind sent } := by
  unfold WriteLoop.starting
  rw [habreast.outlet, habreast.throughout, habreast.interval]

theorem together_settle {length : ℕ}
    (hholds : w.userBuffer.Holds (length + dueAll w.que) w'.userBuffer)
    (habreast : Abreast sent reported w w') {s : Sending} (hle : s.sent ≤ length) :
    Together (Abreast sent reported) (Abreast sent reported) (settle length s w)
      (settle length { s with outlet := s.outlet.behind sent } w') := by
  have hread : (w.userBuffer.read s.sent).Holds (length - s.sent + dueAll w.que)
      (w'.userBuffer.read s.sent) := by
    apply UserBuffer.Holds.read
    rwa [← Nat.add_assoc, Nat.add_sub_cancel' hle]
  unfold settle
  dsimp only
  by_cases hmore : s.faultError = false ∧ 0 < length - s.sent
  · rw [if_pos hmore, if_pos hmore]
    refine .ok _ ⟨⟨hread, fun task htask ↦ ?_, ?_, rfl, rfl, rfl, habreast.reports⟩, rfl⟩
    · rcases List.mem_cons.mp htask with rfl | hold
      · exact Task.noConfusion
      · exact habreast.plain task hold
    · unfold insertSend
      rw [habreast.que]
  · rw [if_neg hmore, if_neg hmore]
    exact .ok _ ⟨⟨hread.of_le (Nat.le_add_left _ _), habreast.plain, habreast.que, rfl, rfl, rfl,
      habreast.reports⟩, rfl⟩

theorem together_send {length : ℕ}
    (hholds : w.userBuffer.Holds (length + dueAll w.que) w'.userBuffer)
    (habreast : Abreast sent reported w w') :
    Together (Abreast sent reported) (Abreast sent reported) (send length w) (send length w') := by
  have hblock := hholds.load_eq (Nat.le_add_right length (dueAll w.que))
  rw [send_eq, send_eq, hblock, hholds.bufferSize, hholds.readSpot, habreast.answers,
    habreast.starting, sendLoop_behind]
  split_ifs
  · exact .error _ habreast
  · exact .error _ habreast
  · have hle : (sendLoop (load w.userBuffer.buffer w.userBuffer.readSpot length) w.outlet.answers
        w.starting).sent ≤ length :=
      (sent_sendLoop_le (Nat.zero_le _)).trans_eq (length_load _ _ _)
    exact together_settle hholds habreast hle

theorem together_sendFile (habreast : Abreast sent reported w w') (ptr : FileReader) :
    Together (Abreast sent reported) (Abreast sent reported) (sendFile ptr w)
      (sendFile ptr w') := by
  unfold sendFile
  rw [habreast.outlet, FileReader.sendFile_behind, habreast.interval]
  dsimp only
  have hnext : Abreast sent reported
      { w with outlet := (ptr.sendFile w.outlet).2, interval := (w.interval + 1) % 2 ^ 32 }
      { w' with
        outlet := (ptr.sendFile w.outlet).2.behind sent
        interval := (w.interval + 1) % 2 ^ 32 } :=
    ⟨⟨habreast.buffer, habreast.plain, habreast.que, habreast.throughout, rfl, rfl,
      habreast.reports⟩, rfl⟩
  split_ifs
  · exact .ok _ hnext
  · exact .ok _ ⟨hnext.toApart.addSendFile _, hnext.answers⟩

theorem together_doFirst (habreast : Abreast sent reported w w') :
    Together (Abreast sent reported) (Abreast sent reported) (doFirst w) (doFirst w') := by
  have hplain := habreast.plain
  have hbuffer := habreast.buffer
  unfold doFirst
  rw [habreast.que]
  cases hque : w.que with
  | nil => exact .ok _ habreast
  | cons task que =>
    rw [hque] at hplain hbuffer
    have hnext : Abreast sent reported { w with que := que } { w' with que := que } :=
      ⟨⟨hbuffer.of_le (Nat.le_add_left _ _),
        fun task htask ↦ hplain task (List.mem_cons_of_mem _ htask), rfl, habreast.throughout,
        habreast.interval, habreast.wire, habreast.reports⟩, habreast.answers⟩
    cases task with
    | send length => exact together_send hbuffer hnext
    | sendReadable => exact absurd rfl (hplain _ List.mem_cons_self)
    | sendFile ptr => exact together_sendFile hnext ptr

theorem Abreast.report (habreast : Abreast sent reported w w') :
    Abreast sent reported w.report w'.report := by
  unfold WriteLoop.report
  rw [habreast.interval, habreast.throughout, habreast.reports, List.append_assoc]
  split_ifs
  · exact ⟨⟨habreast.buffer, habreast.plain, habreast.que, rfl, rfl, habreast.wire, rfl⟩,
      habreast.answers⟩
  · exact habreast

theorem together_turns (habreast : Abreast sent reported w w') (count : ℕ) :
    Together (Abreast sent reported) (Abreast sent reported) (turns count w) (turns count w') := by
  induction count generalizing w w' with
  | zero => exact .ok _ habreast
  | succ count ih =>
    have hfirst := together_doFirst habreast
    unfold turns
    generalize doFirst w = result at hfirst
    generalize doFirst w' = result' at hfirst
    cases hfirst with
    | error e hnext => exact .error e hnext
    | ok answer hnext =>
      cases answer with
      | imcomplete => exact .ok _ hnext.report
      | complete => exact ih hnext.report
      | empty => exact .ok _ hnext.report

/-- Two loops do the same. -/
theorem together_doAll (hapart : Apart sent reported w w') (answers : List Accept) :
    Together (Apart sent reported) (Apart sent reported)
      (doAll { w with outlet.answers := answers })
      (doAll { w' with outlet.answers := answers }) := by
  have habreast : Abreast sent reported { w with outlet.answers := answers }
      { w' with outlet.answers := answers } :=
    ⟨⟨hapart.buffer, hapart.plain, hapart.que, hapart.throughout, hapart.interval, hapart.wire,
      hapart.reports⟩, rfl⟩
  have hcount : w'.que.length = w.que.length := congrArg List.length hapart.que
  change Together _ _ (turns (w.que.length + 1) _) (turns (w'.que.length + 1) _)
  rw [hcount]
  exact (together_turns habreast _).mono (fun _ _ h ↦ h.toApart) fun _ _ h ↦ h.toApart

end WriteLoop

end LWebServer
