import LWebServer.Library.Queue
import LWebServer.Tool.Leftovers

/-!
# The buffer as a queue

The readable bytes are a bounded queue: each call that returns does one thing to it, and a call that
throws does nothing. The copy that `Move_Buffer` makes has its source and its destination apart as
long as the array has an even size.
-/

namespace LWebServer.UserBuffer

open Memory Queue

/-! ## Calls -/

/-- The calls on a buffer. -/
inductive Action where
  /-- A caller puts bytes at `WritePtr()`. -/
  | deposit (block : List Byte)
  /-- `Write(int)` -/
  | commit (bytes : ℕ)
  /-- `Write(char*, int)`, `Write(const char*, int)` or `Write(const std::string&)` -/
  | writeBytes (block : List Byte)
  /-- `Read(char*, int)` -/
  | readInto (bytes : ℕ)
  /-- `read(int)` -/
  | read (bytes : ℕ)
  | moveBuffer
  | clean

namespace Action

/-- A call, and what it does to the queue where it returns. -/
def call : Action → Op UserBuffer (Queue.Event Byte)
  | .deposit block => fun b ↦ .ok .idle { b with buffer := store b.buffer b.writeSpot block }
  | .commit bytes => do
    let b ← get
    let _ ← write bytes
    return .put (load b.buffer b.writeSpot bytes)
  | .writeBytes block => do
    let _ ← UserBuffer.writeBytes block
    return .put block
  | .readInto bytes => do
    let block ← UserBuffer.readInto bytes
    return .take block
  | .read bytes => fun b ↦ .ok (.take (load b.buffer b.readSpot bytes)) (b.read bytes)
  | .moveBuffer => do
    UserBuffer.moveBuffer
    return .idle
  | .clean => fun b ↦ .ok .clear b.clean

/-- `read(int)` is given a count that is not above `Readable()`. -/
def Allowed (b : UserBuffer) : Action → Prop
  | .read bytes => bytes ≤ b.readable
  | _ => True

end Action

/-- The calls from a new buffer on: what they have done to the queue, the newest one first. -/
inductive Run (size : ℕ) : List (Queue.Event Byte) → UserBuffer → Prop
  | new : Run size [] (.new size)
  | returned {events : List (Queue.Event Byte)} {b b' : UserBuffer} {event : Queue.Event Byte}
      (hrun : Run size events b) (action : Action) (hallowed : action.Allowed b)
      (hcall : action.call b = .ok event b') : Run size (event :: events) b'
  | threw {events : List (Queue.Event Byte)} {b b' : UserBuffer} {e : Fail}
      (hrun : Run size events b) (action : Action) (hallowed : action.Allowed b)
      (hcall : action.call b = .error e b') : Run size events b'

/-! ## Copies -/

/-- A `memcpy` within the array. -/
structure Copy where
  dest : ℕ
  source : ℕ
  count : ℕ

namespace Copy

def run (copy : Copy) (mem : ℕ → Byte) : ℕ → Byte :=
  store mem copy.dest (load mem copy.source copy.count)

/-- The two ranges have no byte in common, and both are in an array of the given size. -/
structure Apart (size : ℕ) (copy : Copy) : Prop where
  disjoint : ∀ i, copy.dest ≤ i → i < copy.dest + copy.count →
    ¬ (copy.source ≤ i ∧ i < copy.source + copy.count)
  dest_le : copy.dest + copy.count ≤ size
  source_le : copy.source + copy.count ≤ size

end Copy

/-- The copies that `Move_Buffer` makes. -/
def copies (b : UserBuffer) : List Copy :=
  if b.readSpot < b.bufferSize / 2 then []
  else [{ dest := 0, source := b.readSpot, count := sizeSub b.writeSpot b.readSpot }]

/-- The copies that a call makes in `Move_Buffer`. -/
def Action.copies (b : UserBuffer) : Action → List Copy
  | .commit bytes =>
    if h : b.writeSpot + bytes ≤ b.bufferSize then
      UserBuffer.copies { b with writeSpot := b.writeSpot + bytes, writeSpot_le := h }
    else []
  | .writeBytes block => if b.writeable < block.length then b.copies else []
  | .moveBuffer => b.copies
  | _ => []

/-- Moving the buffer changes the array by these copies alone. -/
theorem buffer_of_moveBuffer {b b' : UserBuffer} (hle : b.readSpot ≤ b.writeSpot)
    (hmove : b.moveBuffer = .ok () b') :
    b'.buffer = b.copies.foldl (fun mem copy ↦ copy.run mem) b.buffer := by
  unfold moveBuffer at hmove
  unfold copies
  rw [sizeSub_of_le hle]
  split_ifs at hmove ⊢ with hlow
  · cases hmove
    rfl
  · cases hmove
    rfl

/-! ## What a call does -/

/-- The positions are in order, in an array of the given size. -/
structure Sound (size : ℕ) (b : UserBuffer) : Prop where
  readSpot_le : b.readSpot ≤ b.writeSpot
  bufferSize : b.bufferSize = size

/-- A call has done one thing to the queue, or it threw and has done nothing. -/
def Serves (size : ℕ) (b : UserBuffer) : EStateM.Result Fail UserBuffer (Queue.Event Byte) → Prop
  | .ok event b' => Step size b.unread event b'.unread ∧ Sound size b'
  | .error e b' => e = .outOfRange ∧ b'.unread = b.unread ∧ Sound size b'

variable {size : ℕ} {b : UserBuffer}

namespace Sound

theorem moveBuffer (hsound : Sound size b) : ∃ b', b.moveBuffer = .ok () b' ∧
    b'.unread = b.unread ∧ Sound size b' := by
  rcases moveBuffer_cases hsound.readSpot_le with hmove | hmove
  · exact ⟨b, hmove, rfl, hsound⟩
  · exact ⟨b.moved, hmove, unread_moved b, b.readSpot_le_moved, hsound.bufferSize⟩

theorem length_unread_le (hsound : Sound size b) : b.unread.length ≤ size := by
  rw [length_unread, ← hsound.bufferSize]
  exact (Nat.sub_le _ _).trans b.writeSpot_le

/-- Bytes have been put behind the others. -/
theorem put {b' : UserBuffer} {block : List Byte} (hsound : Sound size b')
    (hunread : b'.unread = b.unread ++ block) :
    Step size b.unread (.put block) b'.unread ∧ Sound size b' := by
  refine ⟨?_, hsound⟩
  have hroom := hsound.length_unread_le
  rw [hunread] at hroom ⊢
  exact .put hroom

theorem serves_append (hsound : Sound size b) (block : List Byte) :
    Serves size b ((do
      let _ ← append block
      return .put block : Op UserBuffer (Queue.Event Byte)) b) := by
  by_cases hfits : b.writeSpot + block.length ≤ b.bufferSize
  · have happend : b.append block = .ok block.length (b.stored block hfits) := dif_pos hfits
    obtain ⟨hunread, hle⟩ := appended_stored hsound.readSpot_le hfits
    rw [Op.bind_of_ok happend]
    exact put ⟨hle, hsound.bufferSize⟩ hunread
  · have happend : b.append block = .error .outOfRange b := dif_neg hfits
    rw [Op.bind_of_error happend]
    exact ⟨rfl, rfl, hsound⟩

theorem serves_writeBytes (hsound : Sound size b) (block : List Byte) :
    Serves size b ((Action.writeBytes block).call b) := by
  unfold Action.call writeBytes
  dsimp only
  rw [bind_assoc, Op.bind_get]
  split_ifs
  · obtain ⟨b', hmove, hunread, hsound'⟩ := hsound.moveBuffer
    have hserves := hsound'.serves_append block
    rw [bind_assoc, Op.bind_of_ok hmove]
    unfold Serves at hserves ⊢
    rwa [hunread] at hserves
  · exact hsound.serves_append block

theorem serves_commit (hsound : Sound size b) (bytes : ℕ) :
    Serves size b ((Action.commit bytes).call b) := by
  unfold Action.call
  dsimp only
  rw [Op.bind_get]
  by_cases hfits : b.writeSpot + bytes ≤ b.bufferSize
  · let b₁ : UserBuffer := { b with writeSpot := b.writeSpot + bytes, writeSpot_le := hfits }
    have hsound₁ : Sound size b₁ :=
      ⟨hsound.readSpot_le.trans (Nat.le_add_right _ _), hsound.bufferSize⟩
    obtain ⟨b', hmove, hunread, hsound'⟩ := hsound₁.moveBuffer
    have hwrite : b.write bytes = .ok bytes b' := by
      unfold write
      rw [dif_pos hfits]
      exact Op.bind_of_ok hmove
    obtain ⟨-, hunread', -⟩ := appended_write hsound.readSpot_le hwrite
    rw [Op.bind_of_ok hwrite]
    exact put hsound' hunread'
  · have hwrite : b.write bytes = .error .outOfRange b := dif_neg hfits
    rw [Op.bind_of_error hwrite]
    exact ⟨rfl, rfl, hsound⟩

/-- The first of the unread bytes are consumed. -/
theorem take {bytes : ℕ} (hsound : Sound size b) (henough : b.readSpot + bytes ≤ b.writeSpot) :
    Step size b.unread (.take (load b.buffer b.readSpot bytes)) (b.read bytes).unread ∧
      Sound size (b.read bytes) := by
  refine ⟨?_, henough, hsound.bufferSize⟩
  have hcount : b.writeSpot - b.readSpot = bytes + (b.writeSpot - (b.readSpot + bytes)) := by omega
  have hunread : b.unread = load b.buffer b.readSpot bytes ++ (b.read bytes).unread := by
    unfold unread
    rw [hcount, load_add]
    rfl
  rw [hunread]
  exact .take _ _

/-- Every call does one thing to the queue or nothing. -/
theorem serves_call (hsound : Sound size b) (action : Action) (hallowed : action.Allowed b) :
    Serves size b (action.call b) := by
  cases action with
  | deposit block =>
    have hunread := unread_put hsound.readSpot_le block
    refine ⟨?_, hsound.readSpot_le, hsound.bufferSize⟩
    rw [hunread]
    exact .idle _
  | commit bytes => exact hsound.serves_commit bytes
  | writeBytes block => exact hsound.serves_writeBytes block
  | readInto bytes =>
    unfold Action.call
    by_cases hshort : b.writeSpot < b.readSpot + bytes
    · have hread : b.readInto bytes = .error .outOfRange b := if_pos hshort
      dsimp only
      rw [Op.bind_of_error hread]
      exact ⟨rfl, rfl, hsound⟩
    · have hread : b.readInto bytes =
          .ok (load b.buffer b.readSpot bytes) (b.read bytes) := if_neg hshort
      dsimp only
      rw [Op.bind_of_ok hread]
      exact hsound.take (Nat.le_of_not_lt hshort)
  | read bytes =>
    have hreadable : bytes ≤ b.writeSpot - b.readSpot := by
      rw [← sizeSub_of_le hsound.readSpot_le]
      exact hallowed
    exact hsound.take (Nat.add_le_of_le_sub' hsound.readSpot_le hreadable)
  | moveBuffer =>
    obtain ⟨b', hmove, hunread, hsound'⟩ := hsound.moveBuffer
    unfold Action.call
    dsimp only
    rw [Op.bind_of_ok hmove]
    refine ⟨?_, hsound'⟩
    rw [hunread]
    exact .idle _
  | clean => exact ⟨.clear _, le_rfl, hsound.bufferSize⟩

end Sound

/-! ## Runs -/

/-- A run of the buffer is one of the queue. -/
theorem Run.refines {events : List (Queue.Event Byte)} (hrun : Run size events b) :
    Runs size events b.unread ∧ Sound size b := by
  induction hrun with
  | new => exact ⟨.nil, le_rfl, rfl⟩
  | returned hrun action hallowed hcall ih =>
    have hserves := ih.2.serves_call action hallowed
    rw [hcall] at hserves
    exact ⟨.step ih.1 hserves.1, hserves.2⟩
  | threw hrun action hallowed hcall ih =>
    have hserves := ih.2.serves_call action hallowed
    rw [hcall] at hserves
    rw [hserves.2.1]
    exact ⟨ih.1, hserves.2.2⟩

/-- What is copied lies in the upper half of the array, and it fits into the lower half. -/
theorem Sound.apart_copies (hsound : Sound size b) (heven : Even size) :
    ∀ copy ∈ b.copies, copy.Apart size := by
  have hle := hsound.readSpot_le
  have hsize := hsound.bufferSize
  have hwrite := b.writeSpot_le
  obtain ⟨half, hhalf⟩ := heven
  unfold copies
  rw [sizeSub_of_le hle]
  split_ifs with hlow
  · simp
  · intro copy hcopy
    obtain rfl := List.mem_singleton.mp hcopy
    refine ⟨fun i _ hi hboth ↦ ?_, ?_, ?_⟩
    · dsimp only at hi hboth
      omega
    · dsimp only
      omega
    · dsimp only
      omega

theorem Sound.apart_copies_of_call (hsound : Sound size b) (heven : Even size) (action : Action) :
    ∀ copy ∈ action.copies b, copy.Apart size := by
  unfold Action.copies
  cases action with
  | commit bytes =>
    dsimp only
    split_ifs with hfits
    · exact apart_copies ⟨hsound.readSpot_le.trans (Nat.le_add_right _ _), hsound.bufferSize⟩ heven
    · simp
  | writeBytes block =>
    dsimp only
    split_ifs
    · exact hsound.apart_copies heven
    · simp
  | moveBuffer => exact hsound.apart_copies heven
  | deposit block => simp
  | readInto bytes => simp
  | read bytes => simp
  | clean => simp

/-- The readable bytes are those that have been written since the last `Clean` and not been
consumed, a call that throws leaves them, and no copy overlaps itself. -/
theorem refines_queue {size : ℕ} (heven : Even size) {events : List (Queue.Event Byte)}
    {b : UserBuffer} (hrun : Run size events b) :
    Runs size events b.unread ∧ written events = taken events ++ b.unread ∧
      b.readable = b.unread.length ∧ b.readSpot ≤ b.writeSpot ∧ b.writeSpot ≤ b.bufferSize ∧
      b.bufferSize = size ∧ ∀ action : Action, action.Allowed b →
        (∀ e b', action.call b = .error e b' → b'.unread = b.unread) ∧
          ∀ copy ∈ action.copies b, copy.Apart size := by
  obtain ⟨hruns, hsound⟩ := hrun.refines
  have hreadable : b.readable = b.unread.length := by
    rw [length_unread]
    exact sizeSub_of_le hsound.readSpot_le
  refine ⟨hruns, hruns.conservation, hreadable, hsound.readSpot_le, b.writeSpot_le,
    hsound.bufferSize, fun action hallowed ↦ ⟨fun e b' hcall ↦ ?_,
      hsound.apart_copies_of_call heven action⟩⟩
  have hserves := hsound.serves_call action hallowed
  rw [hcall] at hserves
  exact hserves.2.1

theorem refines_queue_four : ∃ b, Run 4 [.idle, .take [1, 2, 3], .put [1, 2, 3]] b ∧
    Runs 4 [.idle, .take [1, 2, 3], .put [1, 2, 3]] b.unread ∧ b.bufferSize = 4 := by
  have hwritten : Run 4 _ _ := .returned .new (.writeBytes [1, 2, 3]) trivial rfl
  have htaken : Run 4 _ _ := .returned hwritten (.readInto 3) trivial rfl
  have hmoved : Run 4 _ _ := .returned htaken .moveBuffer trivial rfl
  obtain ⟨hruns, -, -, -, -, hsize, -⟩ := refines_queue (by decide) hmoved
  exact ⟨_, hmoved, hruns, hsize⟩

end LWebServer.UserBuffer
