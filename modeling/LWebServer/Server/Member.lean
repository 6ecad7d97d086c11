import LWebServer.Http.Parser
import LWebServer.Http.Provider

/-!
# A connection

`Member` ties the socket, the parser, the provider and the write loop of one connection together.
A call is given what the kernel and the outside world answer during it.
-/

namespace LWebServer

/-- What a `DoRead` meets: the answers to `recv`, to `send` and `sendfile`, the world outside the
server, and the contents of memory that is allocated. -/
structure Arrival where
  received : List Recv
  accepts : List Accept
  site : Site
  heap : ℕ → Byte := fun _ ↦ 0

/-- `ws::Member`. The parser holds the buffer, the request and the `Extrabuf` that it shares. -/
structure Member where
  socket : Socket
  httpParser : HttpParser
  writeLoop : WriteLoop
  writeComplete : Bool

namespace Member

/-- `Member(int, ...)`, in memory where the request has the given content and the `interval` of
the write loop the given value. -/
def new (fd : ℕ) (memory : HttpRequest) (interval : ℕ) : Member where
  socket := { socketFd := fd }
  httpParser := {
    userBuffer := .new 4048
    parserResult := {}
    requestResult := .new memory
    extrabuffer := {} }
  writeLoop := .new interval 4048
  writeComplete := false

/-- Step 1 of `DoRead`: `Socket_Ptr->Read(User_Buffer)`. -/
def receive (a : Arrival) : Op Member Unit := fun m ↦
  let p := m.httpParser
  match Socket.read a.heap a.received (p.extrabuffer, p.userBuffer) with
  | .ok _ (extra, b) =>
    .ok () { m with httpParser := { p with extrabuffer := extra, userBuffer := b } }
  | .error e (extra, b) =>
    .error e { m with httpParser := { p with extrabuffer := extra, userBuffer := b } }

/-- Step 2: `Again_Parser` behind a finished request, and `Starting_Parser`. -/
def parse (table : HeaderTable) : Op Member Unit := fun m ↦
  let p := if m.httpParser.finished then m.httpParser.againParser else m.httpParser
  match HttpParser.startingParser table p with
  | .ok _ p => .ok () { m with httpParser := p }
  | .error e p => .error e { m with httpParser := p }

/-- Step 3: `Content_Provider_->Provide()` for a finished request. -/
def answer (table : HeaderTable) (a : Arrival) : Op Member Unit := fun m ↦
  if m.httpParser.finished then
    let p := m.httpParser
    match REAProvider.provide table a.site p.userBuffer.buffer ⟨p.requestResult, m.writeLoop⟩ with
    | .ok _ ⟨request, w⟩ =>
      .ok () { m with httpParser := { p with requestResult := request }, writeLoop := w }
    | .error e ⟨request, w⟩ =>
      .error e { m with httpParser := { p with requestResult := request }, writeLoop := w }
  else .ok () m

/-- `Write_Loop_->DoAll()` -/
def doAll (accepts : List Accept) : Op Member CompleteType := fun m ↦
  match WriteLoop.doAll { m.writeLoop with outlet.answers := accepts } with
  | .ok result w => .ok result { m with writeLoop := w }
  | .error e w => .error e { m with writeLoop := w }

/-- `DoRead` -/
def doRead (table : HeaderTable) (a : Arrival) : Op Member Unit := do
  receive a
  parse table
  answer table a
  let result ← doAll a.accepts
  if result ≠ .imcomplete then modify fun m ↦ { m with writeComplete := true }

/-- `DoWrite` -/
def doWrite (accepts : List Accept) : Op Member Unit := do
  let result ← doAll accepts
  modify fun m ↦ { m with writeComplete := result ≠ .imcomplete }

/-- `CloseAble` -/
def closeAble (m : Member) : Bool :=
  let request := m.httpParser.requestResult
  m.httpParser.finished &&
    ((request.versionMajor = 1 && request.versionMinor = 0) || request.flag ≠ .keepAlive)

/-- `clear`. `Http_Request_->clear()` goes through `Request_Buffer_`, which is null until a call
of `Starting_Parser` has returned. -/
def clear : Op Member Unit := fun m ↦
  let p := m.httpParser
  let m := { m with
    writeComplete := false
    socket := { m.socket with haveClose := true }
    httpParser := { p with
      userBuffer := p.userBuffer.clean, extrabuffer := p.extrabuffer.clear } }
  if p.requestResult.requestBuffer then
    let p := { m.httpParser with
      requestResult := { m.httpParser.requestResult with headerValue := [] } }
    match HttpParser.clear p with
    | .ok _ p => .ok () { m with httpParser := p, writeLoop := m.writeLoop.clear }
    | .error e p => .error e { m with httpParser := p }
  else .error .undefinedBehaviour m

/-- `InitiativeClose` -/
def initiativeClose (m : Member) : Member :=
  { m with socket := { m.socket with haveClose := false } }

end Member

end LWebServer
