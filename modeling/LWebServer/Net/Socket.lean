import LWebServer.Tool.UserBuffer

/-!
# Sockets and the overflow buffer

`Extrabuf` takes what no longer fits into the `UserBuffer` of a connection. `Socket.read` drains
the kernel by repeated `recv` calls; it is modelled on the list of answers those calls give.
Memory that `new char[n]` leaves indeterminate is the parameter `heap`.
-/

namespace LWebServer

open Memory

/-- `ws::Extrabuf`. `extrabufPeek` is `-1` while the buffer is invalid, and otherwise the number
of bytes written; `allocated` is the size of the array that was last allocated. -/
structure Extrabuf where
  extrabuf : ℕ → Byte := fun _ ↦ 0
  allocated : ℕ := 0
  extrabufPeek : ℤ := -1
  bufferSize : ℕ := 4048

namespace Extrabuf

/-- `init`: a zeroed array of 4048 bytes, whatever `bufferSize` is. -/
def init (e : Extrabuf) : Extrabuf :=
  { e with extrabuf := fun _ ↦ 0, allocated := 4048, extrabufPeek := 0 }

def clear (e : Extrabuf) : Extrabuf := { e with extrabufPeek := -1 }

/-- `Get_ptr`, as an offset into the array. -/
def getPtr (e : Extrabuf) : ℕ := e.extrabufPeek.toNat

def getLength (e : Extrabuf) : ℤ := e.extrabufPeek

def write (spot : ℕ) (e : Extrabuf) : Extrabuf :=
  { e with extrabufPeek := e.extrabufPeek + spot }

def writeAble (e : Extrabuf) : ℤ := e.bufferSize - e.extrabufPeek

def isVaild (e : Extrabuf) : Bool := e.extrabufPeek ≠ -1

/-- `Reset`: a new array of twice the size. The prefix carried over has the length of the free
part, not of the written one. -/
def reset (heap : ℕ → Byte) (e : Extrabuf) : Extrabuf :=
  let vaildLength := e.writeAble.toNat
  { e with
    extrabuf := store heap 0 (load e.extrabuf 0 vaildLength)
    allocated := e.bufferSize * 2
    bufferSize := e.bufferSize * 2 }

def highWaterMark : ℕ := 64 * 1024 * 1024

def isExecutehighWaterMark (e : Extrabuf) : Bool := (highWaterMark : ℤ) ≤ e.getLength

end Extrabuf

/-- What one `recv` answers. -/
inductive Recv where
  /-- Bytes of the stream; the kernel hands over no more than it was offered room for. -/
  | bytes (block : List Byte)
  /-- `0`: the peer has shut down, or no room was offered. -/
  | zero
  /-- `-1` with `EINTR` -/
  | eintr
  /-- `-1` with `EWOULDBLOCK` or `EAGAIN` -/
  | eagain
  /-- `-1` with any other `errno` -/
  | failed
  deriving DecidableEq, Repr

/-- Where `StartBuffer` points: into the `UserBuffer` or into the `Extrabuf`. -/
inductive StartBuffer where
  | user (spot : ℕ)
  | extra (spot : ℕ)

/-- The locals of `Socket::Read` together with the two buffers it fills. -/
structure Receiving where
  extraBuffer : Extrabuf
  userBuffer : UserBuffer
  startBuffer : StartBuffer
  length : ℕ
  sum : ℕ

namespace Receiving

/-- The bytes a `recv` puts at `StartBuffer`. A copy past the end of the array is undefined. -/
def fill (block : List Byte) : Op Receiving Unit := fun r ↦
  match r.startBuffer with
  | .user spot =>
    if spot + block.length ≤ r.userBuffer.bufferSize then
      .ok () { r with
        userBuffer := { r.userBuffer with buffer := store r.userBuffer.buffer spot block } }
    else .error .undefinedBehaviour r
  | .extra spot =>
    if spot + block.length ≤ r.extraBuffer.allocated then
      .ok () { r with
        extraBuffer := { r.extraBuffer with
          extrabuf := store r.extraBuffer.extrabuf spot block } }
    else .error .undefinedBehaviour r

/-- The branch taken while the `Extrabuf` is invalid: commit to the `UserBuffer`, and switch to
the `Extrabuf` once that is full. -/
def commitUser (ret : ℕ) : Op Receiving Bool := fun r ↦
  match r.userBuffer.write ret with
  | .error e b => .error e { r with userBuffer := b }
  | .ok _ b =>
    let r := { r with
      userBuffer := b
      sum := r.sum + ret
      length := r.length - ret
      startBuffer := .user b.writeSpot }
    if b.writeable = 0 then
      let extra := r.extraBuffer.init
      .ok true { r with
        extraBuffer := extra
        startBuffer := .extra extra.getPtr
        length := extra.writeAble.toNat }
    else .ok true r

/-- The branch taken while the `Extrabuf` is valid. -/
def commitExtra (heap : ℕ → Byte) (ret : ℕ) : Op Receiving Bool := fun r ↦
  let extra := r.extraBuffer.write ret
  let r := { r with
    extraBuffer := extra
    sum := r.sum + ret
    length := r.length - ret
    startBuffer := .extra extra.getPtr }
  if extra.writeAble = 0 then
    if extra.isExecutehighWaterMark then .ok false r
    else
      let extra := extra.reset heap
      .ok true { r with
        extraBuffer := extra
        startBuffer := .extra extra.getPtr
        length := extra.writeAble.toNat }
  else .ok true r

/-- The part of the loop body for `ret != -1`. -/
def accept (heap : ℕ → Byte) (block : List Byte) : Op Receiving Bool := do
  fill block
  let r ← get
  if r.extraBuffer.isVaild then commitExtra heap block.length else commitUser block.length

/-- One turn of the `while (true)` loop; `false` is a `break`. -/
def turn (heap : ℕ → Byte) : Recv → Op Receiving Bool
  | .bytes block => do accept heap (block.take (← get).length)
  | .zero => accept heap []
  | .eintr => pure true
  | .eagain => pure false
  | .failed => pure false

/-- The loop over the answers of `recv`. Where the list ends the next `recv` has nothing to give
and the loop leaves as for `EAGAIN`. -/
def drain (heap : ℕ → Byte) : List Recv → Op Receiving Unit
  | [] => pure ()
  | answer :: rest => do if ← turn heap answer then drain heap rest

end Receiving

/-- `ws::Socket`, less the `Extrabuf`, which the parser shares. -/
structure Socket where
  socketFd : ℕ
  haveClose : Bool := true

/-- `Socket::Read(std::shared_ptr<UserBuffer>)` with its default arguments. -/
def Socket.read (heap : ℕ → Byte) (answers : List Recv) : Op (Extrabuf × UserBuffer) ℕ :=
  fun (extra, b) ↦
    match Receiving.drain heap answers
      { extraBuffer := extra, userBuffer := b, startBuffer := .user b.writeSpot,
        length := b.writeable, sum := 0 } with
    | .ok _ r => .ok r.sum (r.extraBuffer, r.userBuffer)
    | .error e r => .error e (r.extraBuffer, r.userBuffer)

end LWebServer
