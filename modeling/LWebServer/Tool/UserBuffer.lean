import LWebServer.Base.Bytes
import LWebServer.Library.Calls
import LWebServer.Library.Memory

/-!
# The byte buffer of a connection

`UserBuffer` is one fixed array with a write position and a read position. Appended bytes go to
the write position; `moveBuffer` shifts the unread bytes to the front once the read position has
passed the middle of the array. Pointers into the array are offsets, so a view taken before a
shift designates whatever the array holds there afterwards.
-/

namespace LWebServer

open Memory

/-- A call on an object of type `σ`: it returns a value or fails, and leaves a state either way. -/
abbrev Op (σ α : Type) := EStateM Fail σ α

namespace Op

variable {σ α β : Type} {f : Op σ α} {g : α → Op σ β} {s s' : σ}

/-- The state a call leaves, whether it returned or threw. -/
def finalState : EStateM.Result Fail σ α → σ
  | .ok _ s => s
  | .error _ s => s

theorem bind_of_ok {a : α} (hf : f s = .ok a s') : (f >>= g) s = g a s' := Calls.bind_of_ok hf

theorem bind_of_error {e : Fail} (hf : f s = .error e s') : (f >>= g) s = .error e s' :=
  Calls.bind_of_error hf

/-- Two sequences whose first parts end alike. -/
theorem bind_congr {f' : Op σ α} (hfirst : f s = f' s) : (f >>= g) s = (f' >>= g) s := by
  simp only [bind, EStateM.bind, hfirst]

theorem bind_get (g : σ → Op σ β) (s : σ) : ((get : Op σ σ) >>= g) s = g s s := rfl

theorem bind_modify (h : σ → σ) (g : PUnit → Op σ β) (s : σ) :
    ((modify h : Op σ PUnit) >>= g) s = g ⟨⟩ (h s) := rfl

/-- A sequence that returned ran both parts. -/
theorem bind_ok {b : β} (hbind : (f >>= g) s = .ok b s') :
    ∃ a t, f s = .ok a t ∧ g a t = .ok b s' := Calls.bind_eq_ok.1 hbind

/-- A sequence that threw did so in its first or in its second part. -/
theorem bind_error {e : Fail} (hbind : (f >>= g) s = .error e s') :
    f s = .error e s' ∨ ∃ a t, f s = .ok a t ∧ g a t = .error e s' := Calls.bind_eq_error.1 hbind

/-- The call returns, with a value and a state that pass a test. -/
def returning (test : α → σ → Bool) : EStateM.Result Fail σ α → Bool
  | .ok a s => test a s
  | .error _ _ => false

theorem of_returning {test : α → σ → Bool} {result : EStateM.Result Fail σ α}
    (hreturning : returning test result = true) :
    ∃ a s, result = .ok a s ∧ test a s = true := by
  cases result with
  | ok a s => exact ⟨a, s, rfl, hreturning⟩
  | error e s => cases hreturning

/-- An invariant that a call keeps, whether it returns or throws. -/
def Maintains (invariant : σ → Prop) (f : Op σ α) : Prop :=
  ∀ s, invariant s → invariant (finalState (f s))

namespace Maintains

variable {invariant : σ → Prop}

theorem pure (a : α) : Maintains invariant (Pure.pure a : Op σ α) := fun _ hinvariant ↦ hinvariant

theorem get : Maintains invariant (MonadState.get : Op σ σ) := fun _ hinvariant ↦ hinvariant

theorem bind {f : Op σ α} {g : α → Op σ β} (hf : Maintains invariant f)
    (hg : ∀ a, Maintains invariant (g a)) : Maintains invariant (f >>= g) := by
  intro s hinvariant
  have hfirst := hf s hinvariant
  cases hcall : f s with
  | ok a s' =>
    rw [hcall] at hfirst
    rw [bind_of_ok hcall]
    exact hg a s' hfirst
  | error e s' =>
    rw [hcall] at hfirst
    rw [bind_of_error hcall]
    exact hfirst

end Maintains

variable {γ : Type} {view : σ → γ}

/-- A call that leaves a part of the state as it was, whether it returns or throws. -/
def Keeps (view : σ → γ) (f : Op σ α) : Prop := ∀ s, view (finalState (f s)) = view s

theorem keeps_iff_maintains {f : Op σ α} :
    Keeps view f ↔ ∀ v, Maintains (fun s ↦ view s = v) f :=
  ⟨fun hkeeps _ s hview ↦ (hkeeps s).trans hview, fun hmaintains s ↦ hmaintains (view s) s rfl⟩

namespace Keeps

theorem pure (a : α) : Keeps view (Pure.pure a : Op σ α) := fun _ ↦ rfl

theorem get : Keeps view (MonadState.get : Op σ σ) := fun _ ↦ rfl

theorem bind {f : Op σ α} {g : α → Op σ β} (hf : Keeps view f) (hg : ∀ a, Keeps view (g a)) :
    Keeps view (f >>= g) := by
  rw [keeps_iff_maintains] at hf ⊢
  exact fun v ↦ (hf v).bind fun a ↦ keeps_iff_maintains.mp (hg a) v

end Keeps

end Op

/-- `ws::UserBuffer`. The read position may pass the write position; the write position never
leaves the array. -/
structure UserBuffer where
  buffer : ℕ → Byte
  writeSpot : ℕ
  readSpot : ℕ
  bufferSize : ℕ
  writeSpot_le : writeSpot ≤ bufferSize

namespace UserBuffer

/-- `UserBuffer(int Length)`: a zeroed array. -/
def new (length : ℕ) : UserBuffer where
  buffer := fun _ ↦ 0
  writeSpot := 0
  readSpot := 0
  bufferSize := length
  writeSpot_le := Nat.zero_le length

def length (b : UserBuffer) : ℕ := b.bufferSize

/-- `Readable`, a difference of `size_t` values. -/
def readable (b : UserBuffer) : ℕ := sizeSub b.writeSpot b.readSpot

def writeable (b : UserBuffer) : ℕ := b.bufferSize - b.writeSpot

/-- `ReadPtr`, as an offset into the array. -/
def readPtr (b : UserBuffer) : ℕ := b.readSpot

/-- `Peek`, whose range test never fires; outside the array there is nothing to return. -/
def peek (b : UserBuffer) (jump : ℕ) : Option Byte :=
  if b.readSpot + jump < b.bufferSize then some (b.buffer (b.readSpot + jump)) else none

/-- `Read(char*, int)`: the bytes copied out. -/
def readInto (bytes : ℕ) : Op UserBuffer (List Byte) := fun b ↦
  if b.writeSpot < b.readSpot + bytes then .error .outOfRange b
  else .ok (load b.buffer b.readSpot bytes) { b with readSpot := b.readSpot + bytes }

/-- `read(int)`, which moves the read position without any test. -/
def read (bytes : ℕ) (b : UserBuffer) : UserBuffer := { b with readSpot := b.readSpot + bytes }

/-- `Move_Buffer`. A read position beyond the write position makes the copied length wrap. -/
def moveBuffer : Op UserBuffer Unit := fun b ↦
  if b.readSpot < b.bufferSize / 2 then .ok () b
  else if b.readSpot ≤ b.writeSpot then
    .ok () { b with
      buffer := store b.buffer 0 (load b.buffer b.readSpot (b.writeSpot - b.readSpot))
      readSpot := 0
      writeSpot := b.writeSpot - b.readSpot
      writeSpot_le := (Nat.sub_le _ _).trans b.writeSpot_le }
  else .error .undefinedBehaviour b

/-- `Write(int)`: commit bytes that are already at the write position. -/
def write (bytes : ℕ) : Op UserBuffer ℕ := fun b ↦
  if h : b.writeSpot + bytes ≤ b.bufferSize then
    (do moveBuffer; pure bytes) { b with
      writeSpot := b.writeSpot + bytes
      writeSpot_le := h }
  else .error .outOfRange b

/-- The copying part that the `Write` overloads taking a source share. -/
def append (block : List Byte) : Op UserBuffer ℕ := fun b ↦
  if h : b.writeSpot + block.length ≤ b.bufferSize then
    .ok block.length { b with
      buffer := store b.buffer b.writeSpot block
      writeSpot := b.writeSpot + block.length
      writeSpot_le := h }
  else .error .outOfRange b

/-- `Write(const char*, int)` and `Write(const std::string&)`. -/
def writeBytes (block : List Byte) : Op UserBuffer ℕ := do
  let b ← get
  if b.writeable < block.length then moveBuffer
  append block

/-- `SWrite`: `vsnprintf` into the free part stores at most `writeable - 1` characters and a NUL,
and returns the full length. -/
def sWrite (formatted : List Byte) : Op UserBuffer ℕ := fun b ↦
  let stored := if b.writeable = 0 then [] else formatted.take (b.writeable - 1) ++ [0]
  .ok formatted.length { b with buffer := store b.buffer b.writeSpot stored }

def clean (b : UserBuffer) : UserBuffer :=
  { b with writeSpot := 0, readSpot := 0, writeSpot_le := Nat.zero_le _ }

/-- A `recv` into `WritePtr()` followed by `Write(ret)`. -/
def receive (block : List Byte) : Op UserBuffer ℕ := fun b ↦
  write block.length { b with buffer := store b.buffer b.writeSpot block }

/-- The readable bytes. -/
def unread (b : UserBuffer) : List Byte := load b.buffer b.readSpot (b.writeSpot - b.readSpot)

/-- The end of the bytes that have been read. The read position can be one further. -/
def limit (b : UserBuffer) : ℕ := min b.readSpot b.writeSpot

theorem limit_le_limit_read (b : UserBuffer) (n : ℕ) : b.limit ≤ (b.read n).limit :=
  min_le_min (Nat.le_add_right _ _) le_rfl

theorem limit_of_le {b : UserBuffer} (hle : b.readSpot ≤ b.writeSpot) : b.limit = b.readSpot :=
  min_eq_left hle

theorem limit_read_one {b : UserBuffer} (hlt : b.readSpot < b.writeSpot) :
    (b.read 1).limit = b.readSpot + 1 :=
  min_eq_left hlt

@[simp]
theorem length_unread (b : UserBuffer) : b.unread.length = b.writeSpot - b.readSpot := by
  simp [unread]

theorem unread_cons {b : UserBuffer} {ch : Byte} {rest : List Byte}
    (hunread : b.unread = ch :: rest) :
    b.readSpot < b.writeSpot ∧ b.buffer b.readSpot = ch ∧ (b.read 1).unread = rest := by
  unfold unread at hunread
  have hlength : b.writeSpot - b.readSpot = rest.length + 1 := by
    simpa using congrArg List.length hunread
  rw [hlength, load_succ, List.cons.injEq] at hunread
  refine ⟨by omega, hunread.1, ?_⟩
  rw [← hunread.2]
  simp only [unread, read]
  congr 1
  omega

theorem peek_of_unread {b : UserBuffer} {ch : Byte} {rest : List Byte}
    (hunread : b.unread = ch :: rest) : b.peek 0 = some ch := by
  obtain ⟨hlt, hch, -⟩ := unread_cons hunread
  unfold peek
  rw [Nat.add_zero, if_pos (hlt.trans_le b.writeSpot_le), hch]

/-- Reading past `n` unread bytes. -/
theorem unread_read (b : UserBuffer) (n : ℕ) : (b.read n).unread = b.unread.drop n := by
  simp only [unread, read]
  by_cases hn : n ≤ b.writeSpot - b.readSpot
  · obtain ⟨k, hk⟩ := Nat.exists_eq_add_of_le hn
    rw [hk, load_add, List.drop_left' (by simp)]
    congr 1
    omega
  · rw [List.drop_eq_nil_of_le (by simp; omega), show b.writeSpot - (b.readSpot + n) = 0 by omega,
      load_zero]

/-! ## Receiving -/

/-- Bytes put at the write position. -/
def stored (b : UserBuffer) (block : List Byte)
    (hfits : b.writeSpot + block.length ≤ b.bufferSize) : UserBuffer where
  buffer := store b.buffer b.writeSpot block
  writeSpot := b.writeSpot + block.length
  readSpot := b.readSpot
  bufferSize := b.bufferSize
  writeSpot_le := hfits

/-- The unread bytes shifted to the front. -/
def moved (b : UserBuffer) : UserBuffer where
  buffer := store b.buffer 0 (load b.buffer b.readSpot (b.writeSpot - b.readSpot))
  writeSpot := b.writeSpot - b.readSpot
  readSpot := 0
  bufferSize := b.bufferSize
  writeSpot_le := (Nat.sub_le _ _).trans b.writeSpot_le

theorem receive_of_lt {b : UserBuffer} {block : List Byte}
    (hfits : b.writeSpot + block.length ≤ b.bufferSize) (hlow : b.readSpot < b.bufferSize / 2) :
    b.receive block = .ok block.length (b.stored block hfits) := by
  simp only [receive, write, dif_pos hfits]
  have hmove : (b.stored block hfits).moveBuffer = .ok () (b.stored block hfits) := if_pos hlow
  exact Op.bind_of_ok hmove

theorem receive_of_ge {b : UserBuffer} {block : List Byte}
    (hfits : b.writeSpot + block.length ≤ b.bufferSize) (hhigh : b.bufferSize / 2 ≤ b.readSpot)
    (hle : b.readSpot ≤ b.writeSpot + block.length) :
    b.receive block = .ok block.length (b.stored block hfits).moved := by
  simp only [receive, write, dif_pos hfits]
  have hmove : (b.stored block hfits).moveBuffer = .ok () (b.stored block hfits).moved := by
    have hnot : ¬ (b.stored block hfits).readSpot < (b.stored block hfits).bufferSize / 2 :=
      Nat.not_lt.mpr hhigh
    have hle' : (b.stored block hfits).readSpot ≤ (b.stored block hfits).writeSpot := hle
    unfold moveBuffer
    rw [if_neg hnot, if_pos hle']
    rfl
  exact Op.bind_of_ok hmove

theorem unread_moved (b : UserBuffer) : b.moved.unread = b.unread := by
  have h := load_store b.buffer 0 (load b.buffer b.readSpot (b.writeSpot - b.readSpot))
  rw [length_load] at h
  exact h

/-- The bytes received are read after the others; one of them is lost where the read position is
one too far. -/
theorem unread_stored {b : UserBuffer} {block : List Byte}
    (hfits : b.writeSpot + block.length ≤ b.bufferSize) :
    (b.stored block hfits).unread = b.unread ++ block.drop (b.readSpot - b.writeSpot) := by
  simp only [unread, stored]
  by_cases hle : b.readSpot ≤ b.writeSpot
  · have hsplit : b.writeSpot = b.readSpot + (b.writeSpot - b.readSpot) := by omega
    have hcount : b.writeSpot + block.length - b.readSpot =
        (b.writeSpot - b.readSpot) + block.length := by omega
    rw [hcount, Nat.sub_eq_zero_of_le hle, List.drop_zero]
    conv_lhs => rw [hsplit]
    rw [Nat.add_sub_cancel_left, load_store_extend]
  · have hlost : b.readSpot = b.writeSpot + (b.readSpot - b.writeSpot) := by omega
    have hwhole := load_store b.buffer b.writeSpot block
    rw [Nat.sub_eq_zero_of_le (Nat.le_of_not_le hle), load_zero, List.nil_append]
    conv_rhs => rw [← hwhole]
    by_cases hlong : b.readSpot - b.writeSpot ≤ block.length
    · obtain ⟨k, hk⟩ := Nat.exists_eq_add_of_le hlong
      have hcount : b.writeSpot + block.length - b.readSpot = k := by omega
      rw [hcount]
      conv_rhs => rw [hk, load_add, List.drop_left' (by simp), ← hlost]
    · rw [List.drop_eq_nil_of_le (by simp; omega),
        show b.writeSpot + block.length - b.readSpot = 0 by omega, load_zero]

end UserBuffer

end LWebServer
