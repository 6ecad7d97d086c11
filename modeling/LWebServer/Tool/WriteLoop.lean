import LWebServer.Library.Decimal
import LWebServer.Tool.UserBuffer

/-!
# The write loop of a connection

`WriteLoop` is a buffer and a queue of tasks; `doAll` runs tasks until one of them cannot finish.
The kernel's side of the descriptor is the list of answers it gives to `send` and `sendfile`, and
the bytes it has accepted. A `FileReader` is the content of a file and an offset into it.
-/

namespace LWebServer

open Memory

/-- What one `send` or `sendfile` answers. -/
inductive Accept where
  /-- So many of the bytes offered and one more, or all of them. -/
  | accepts (more : ℕ)
  /-- `-1` with `EAGAIN` or `EWOULDBLOCK` -/
  | eagain
  /-- `-1` with `EPIPE` or `ECONNRESET` -/
  | reset
  /-- `-1` with any other `errno` -/
  | failed
  deriving DecidableEq, Repr

/-- The kernel's side of a descriptor that is written to. Where the answers end it has no room. -/
structure Outlet where
  answers : List Accept := []
  wire : List Byte := []

/-- `ws::FileReader`. The file does not change while it is open. -/
structure FileReader where
  content : List Byte
  offest : ℕ := 0

namespace FileReader

def length (ptr : FileReader) : ℕ := ptr.content.length

/-- `SendFile`: one `sendfile` for the rest of the file. -/
def sendFile (ptr : FileReader) (o : Outlet) : FileReader × Outlet :=
  if ptr.offest = ptr.length then (ptr, o)
  else match o.answers with
    | [] => (ptr, o)
    | .accepts more :: answers =>
      let ans := min (more + 1) (ptr.length - ptr.offest)
      ({ ptr with offest := ptr.offest + ans },
        { answers := answers, wire := o.wire ++ (ptr.content.drop ptr.offest).take ans })
    | _ :: answers => (ptr, { o with answers := answers })

def sendEnd (ptr : FileReader) : Bool := ptr.length = ptr.offest

end FileReader

/-- What the closures in the queue run. -/
inductive Task where
  | send (length : ℕ)
  /-- `Send(User_Buffer_->Readable())` -/
  | sendReadable
  | sendFile (ptr : FileReader)

inductive CompleteType where
  | imcomplete | complete | empty
  deriving DecidableEq, Repr

/-- `ws::WriteLoop`, with the kernel's side of its descriptor and the values that its callback has
been given. -/
structure WriteLoop where
  userBuffer : UserBuffer
  que : List Task
  throughout : ℕ
  interval : ℕ
  outlet : Outlet
  reports : List ℤ

namespace WriteLoop

def expectedInterval : ℕ := 3

/-- The constructor, which leaves `interval` as it is in memory. -/
def new (interval length : ℕ) : WriteLoop where
  userBuffer := .new length
  que := []
  throughout := 0
  interval := interval
  outlet := {}
  reports := []

/-- An operation on the buffer alone. -/
def onBuffer (f : Op UserBuffer ℕ) : Op WriteLoop ℕ := fun w ↦
  match f w.userBuffer with
  | .ok n b => .ok n { w with userBuffer := b }
  | .error e b => .error e { w with userBuffer := b }

/-- `write(int)` -/
def write (bytes : ℕ) : Op WriteLoop ℕ := onBuffer (UserBuffer.write bytes)

/-- `write` of a string or of an array. -/
def writeBytes (block : List Byte) : Op WriteLoop ℕ := onBuffer (UserBuffer.writeBytes block)

/-- `swrite`, whose format and arguments make the given characters. -/
def swrite (formatted : List Byte) : Op WriteLoop ℕ := do
  let ret ← onBuffer (UserBuffer.sWrite formatted)
  let _ ← write ret
  return ret

def addSend (length : ℕ) (w : WriteLoop) : WriteLoop := { w with que := w.que ++ [.send length] }

/-- `AddSend()` -/
def addSendReadable (w : WriteLoop) : WriteLoop := { w with que := w.que ++ [.sendReadable] }

def addSendFile (ptr : FileReader) (w : WriteLoop) : WriteLoop :=
  { w with que := w.que ++ [.sendFile ptr] }

/-- `InsertSend` -/
def insertSend (len : ℕ) (w : WriteLoop) : WriteLoop := { w with que := .send len :: w.que }

/-- `InsertSendFile`, which puts the task behind all others. -/
def insertSendFile (ptr : FileReader) (w : WriteLoop) : WriteLoop := w.addSendFile ptr

/-- The variables of the loop in `Send`; `faultError` says that it left for a dead connection. -/
structure Sending where
  outlet : Outlet
  sent : ℕ
  throughout : ℕ
  interval : ℕ
  faultError : Bool

/-- The loop in `Send`. `ReadPtr()` does not move between its turns, so each of them offers the
bytes from the first one on. -/
def sendLoop (block : List Byte) : List Accept → Sending → Sending
  | [], s => { s with outlet.answers := [] }
  | answer :: answers, s =>
    if s.sent = block.length then { s with outlet.answers := answer :: answers }
    else match answer with
      | .accepts more =>
        let ans := min (more + 1) (block.length - s.sent)
        sendLoop block answers { s with
          outlet.wire := s.outlet.wire ++ block.take ans
          sent := s.sent + ans
          throughout := (s.throughout + (s.sent + ans)) % 2 ^ 32
          interval := (s.interval + 1) % 2 ^ 32 }
      | .eagain => { s with outlet.answers := answers }
      | .reset => { s with outlet.answers := answers, faultError := true }
      | .failed => { s with outlet.answers := answers }

/-- `Send`. After a loop that has sent everything `errno` is not looked at in effect. -/
def send (length : ℕ) : Op WriteLoop CompleteType := fun w ↦
  if length < 1 then .error .invalidArgument w
  else if w.userBuffer.bufferSize < w.userBuffer.readSpot + length then
    .error .undefinedBehaviour w
  else
    let block := load w.userBuffer.buffer w.userBuffer.readPtr length
    let s := sendLoop block w.outlet.answers
      { outlet := w.outlet, sent := 0, throughout := w.throughout, interval := w.interval
        faultError := false }
    let w := { w with
      userBuffer := w.userBuffer.read s.sent
      outlet := s.outlet
      throughout := s.throughout
      interval := s.interval }
    if s.faultError = false ∧ 0 < length - s.sent then
      .ok .imcomplete (w.insertSend (length - s.sent))
    else .ok .complete w

/-- `SendFile`. The condition of its loop is `len = (ptr->SendFile(fd_) && len > 0)` with `len` 0
before, so that there is one call and nothing is added to `throughout`. -/
def sendFile (ptr : FileReader) : Op WriteLoop CompleteType := fun w ↦
  let (ptr, outlet) := ptr.sendFile w.outlet
  let w := { w with outlet := outlet, interval := (w.interval + 1) % 2 ^ 32 }
  if ptr.sendEnd then .ok .complete w else .ok .imcomplete (w.insertSendFile ptr)

def runTask : Task → Op WriteLoop CompleteType
  | .send length => send length
  | .sendReadable => fun w ↦ send w.userBuffer.readable w
  | .sendFile ptr => sendFile ptr

def doFirst : Op WriteLoop CompleteType := fun w ↦
  match w.que with
  | [] => .ok .empty w
  | task :: que => runTask task { w with que := que }

/-- The callback in `DoAll`; it takes an `int`. -/
def report (w : WriteLoop) : WriteLoop :=
  if expectedInterval ≤ w.interval then
    { w with
      reports := w.reports ++ [Decimal.wrap 32 w.throughout], throughout := 0, interval := 0 }
  else w

/-- `DoAll`, for at most the given number of turns. -/
def turns : ℕ → Op WriteLoop CompleteType
  | 0 => fun w ↦ .ok .complete w
  | count + 1 => fun w ↦
    match doFirst w with
    | .error e w => .error e w
    | .ok .complete w => turns count w.report
    | .ok result w => .ok result w.report

/-- `DoAll`. A turn that goes on has taken a task off the queue. -/
def doAll : Op WriteLoop CompleteType := fun w ↦ turns (w.que.length + 1) w

/-- `clear` -/
def clear (w : WriteLoop) : WriteLoop := { w with que := [], userBuffer := w.userBuffer.clean }

end WriteLoop

end LWebServer
