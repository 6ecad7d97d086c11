import LWebServer.Library.Schedule
import LWebServer.Log.FixedBuffer

/-!
# The log in the background

`AsyncLogging::append` collects lines in a large buffer, under a lock, and puts full buffers aside.
The thread in `AsyncFunc` takes over all buffers under the same lock and writes them without it. The
critical section of `append` and each section of `AsyncFunc` between two points at which the lock or
`running` is used is one step, and so is the writing of one buffer.
-/

namespace LWebServer

/-- A `unique_ptr` to a large buffer. -/
abbrev BufferPtr := Option (FixedBuffer largerBuffer)

/-- Where the thread is in `AsyncFunc`. -/
inductive LogPhase where
  /-- It has not been started. -/
  | unborn
  /-- Before the condition of the loop -/
  | check
  /-- Before it takes the lock -/
  | enter
  /-- In `wait_for`, without the lock -/
  | waiting
  /-- Before the test of the size of `WriteLog` -/
  | sift
  /-- In the loop over `WriteLog`, with so many buffers behind it -/
  | writing (written : ℕ)
  /-- Behind this loop -/
  | recycle
  /-- It has returned. -/
  | finished
  deriving DecidableEq

/-- `ws::detail::AsyncLogging` with the local variables of `AsyncFunc`. `output` is what `logfile`
has been given, and `appended` are the lines of the calls of `append` so far. -/
structure AsyncLogging where
  running : Bool
  currentBuffer : BufferPtr
  nextBuffer : BufferPtr
  buffers : List BufferPtr
  phase : LogPhase
  newBuffer1 : BufferPtr
  newBuffer2 : BufferPtr
  writeLog : List BufferPtr
  output : List Byte
  appended : List (List Byte)
  /-- A null pointer has been followed, or the last element of an empty vector taken. -/
  undefined : Bool

namespace AsyncLogging

/-- A step of a thread that logs, of the one that starts and stops the log, or of `AsyncFunc`. -/
inductive Act where
  /-- `append` -/
  | append (line : List Byte)
  /-- `start` -/
  | start
  /-- `stop` stores `running` and goes on to wait for the thread. -/
  | stop
  /-- The next step of `AsyncFunc`; `now` is the time that it may have to tell. -/
  | work (now : List Byte)

/-- `append` -/
def append (line : List Byte) (s : AsyncLogging) : AsyncLogging :=
  match s.currentBuffer with
  | none => { s with undefined := true }
  | some current =>
    if line.length < current.avail then
      { s with currentBuffer := some (current.append line), appended := s.appended ++ [line] }
    else
      let fresh := s.nextBuffer.getD .new
      { s with
        buffers := s.buffers ++ [some current]
        currentBuffer := some (fresh.append line)
        nextBuffer := none
        appended := s.appended ++ [line] }

/-- The critical section of `AsyncFunc`, from the end of the wait. -/
def swap (s : AsyncLogging) : AsyncLogging :=
  { s with
    currentBuffer := s.newBuffer1
    nextBuffer := if s.nextBuffer.isNone then s.newBuffer2 else s.nextBuffer
    buffers := s.writeLog
    phase := .sift
    newBuffer1 := none
    newBuffer2 := if s.nextBuffer.isNone then none else s.newBuffer2
    writeLog := s.buffers ++ [s.currentBuffer] }

/-- The text of `AsyncFunc` for dropped messages, cut by `snprintf`. -/
def dropped (now : List Byte) (size : ℕ) : List Byte :=
  (text "Dropped log messages at " ++ now ++ text ", " ++ text (toString (size - 2)) ++
    text " larger buffers\n").take 255

/-- What `AsyncFunc` does when too many buffers have piled up. -/
def sift (now : List Byte) (s : AsyncLogging) : AsyncLogging :=
  if 25 < s.writeLog.length then
    { s with
      output := s.output ++ dropped now s.writeLog.length
      writeLog := s.writeLog.take 2
      phase := .writing 0 }
  else { s with phase := .writing 0 }

/-- One turn of the loop over `WriteLog`. -/
def write (written : ℕ) (s : AsyncLogging) : AsyncLogging :=
  match s.writeLog[written]? with
  | none => { s with phase := .recycle }
  | some none => { s with undefined := true }
  | some (some buffer) =>
    { s with output := s.output ++ buffer.content, phase := .writing (written + 1) }

/-- A buffer of `WriteLog` is used again, if one is missing. -/
def refill (newBuffer : BufferPtr) (writeLog : List BufferPtr) :
    Option (BufferPtr × List BufferPtr) :=
  match newBuffer with
  | some buffer => some (some buffer, writeLog)
  | none => match writeLog.getLast? with
    | some (some buffer) => some (some buffer.setSpotBegin, writeLog.dropLast)
    | _ => none

/-- The end of the body of the loop. -/
def recycle (s : AsyncLogging) : AsyncLogging :=
  let writeLog := if 2 < s.writeLog.length then s.writeLog.take 2 else s.writeLog
  match refill s.newBuffer1 writeLog with
  | none => { s with undefined := true }
  | some (newBuffer1, writeLog) => match refill s.newBuffer2 writeLog with
    | none => { s with undefined := true }
    | some (newBuffer2, _) =>
      { s with
        newBuffer1 := newBuffer1
        newBuffer2 := newBuffer2
        writeLog := []
        phase := .check }

/-- The next step of `AsyncFunc`. -/
def work (now : List Byte) (s : AsyncLogging) : Option AsyncLogging :=
  match s.phase with
  | .unborn => none
  | .check => some { s with phase := if s.running then .enter else .finished }
  | .enter => some (if s.buffers.isEmpty then { s with phase := .waiting } else s.swap)
  | .waiting => some s.swap
  | .sift => some (s.sift now)
  | .writing written => some (s.write written)
  | .recycle => some s.recycle
  | .finished => none

def step (act : Act) (s : AsyncLogging) : Option AsyncLogging :=
  if s.undefined then none
  else match act with
    | .append line => some (s.append line)
    | .start =>
      if s.phase = .unborn then
        some { s with
          running := true
          phase := .check
          newBuffer1 := some .new
          newBuffer2 := some .new }
      else none
    | .stop => if s.running then some { s with running := false } else none
    | .work now => s.work now

/-- The constructor. -/
def new : AsyncLogging where
  running := false
  currentBuffer := some .new
  nextBuffer := some .new
  buffers := []
  phase := .unborn
  newBuffer1 := none
  newBuffer2 := none
  writeLog := []
  output := []
  appended := []
  undefined := false

end AsyncLogging

end LWebServer
