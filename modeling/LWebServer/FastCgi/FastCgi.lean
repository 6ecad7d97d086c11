import LWebServer.FastCgi.Format
import LWebServer.Library.Calls
import LWebServer.Library.Decimal

/-!
# The FastCGI client

`FastCgi` sends one request over its socket, which is connected and takes all bytes that are
written.
-/

namespace LWebServer

/-- How a call of `FastCgi` fails. -/
inductive Fault where
  | undefinedBehaviour
  /-- An `assert` -/
  | assertion
  deriving DecidableEq

/-- `ws::FastCgi`. `sent` is what has been written to the socket and `received` what is still to
be read from it; `headers` are the places, each with all that follows, where `ReadContent` has
read a header. -/
structure FastCgi where
  requestId : ℤ
  htmlFlag : Bool
  sent : List Byte
  received : List Byte
  headers : List (List Byte)

/-- `FCGI_Header` -/
structure Header where
  version : Byte
  type : Byte
  requestIdB1 : Byte
  requestIdB0 : Byte
  contentLengthB1 : Byte
  contentLengthB0 : Byte
  paddingLength : Byte
  reserved : Byte

def Header.bytes (header : Header) : List Byte :=
  [header.version, header.type, header.requestIdB1, header.requestIdB0, header.contentLengthB1,
    header.contentLengthB0, header.paddingLength, header.reserved]

/-- `FCGI_BeginRequestBody` -/
structure BeginRequestBody where
  roleB1 : Byte
  roleB0 : Byte
  flags : Byte
  reserved : List Byte

def BeginRequestBody.bytes (body : BeginRequestBody) : List Byte :=
  [body.roleB1, body.roleB0, body.flags] ++ body.reserved

namespace FastCgi

abbrev Call := EStateM Fault FastCgi

/-- A sequence returns if both parts do. -/
theorem bind_eq_ok {α β : Type} {f : Call α} {g : α → Call β} {s s' : FastCgi} {b : β} :
    (f >>= g) s = .ok b s' ↔ ∃ a t, f s = .ok a t ∧ g a t = .ok b s' := Calls.bind_eq_ok

theorem seq_eq_ok {β : Type} {f : Call Unit} {g : Unit → Call β} {s s' : FastCgi} {b : β} :
    (f >>= g) s = .ok b s' ↔ ∃ t, f s = .ok () t ∧ g () t = .ok b s' := by
  rw [bind_eq_ok]
  exact ⟨fun ⟨_, t, hf, hg⟩ ↦ ⟨t, hf, hg⟩, fun ⟨t, hf, hg⟩ ↦ ⟨(), t, hf, hg⟩⟩

theorem except_bind_eq_ok {α β : Type} {x : Except Fault α} {g : α → Except Fault β} {b : β} :
    x >>= g = .ok b ↔ ∃ a, x = .ok a ∧ g a = .ok b := by
  change Except.bind x g = .ok b ↔ _
  unfold Except.bind
  cases x with
  | ok a => simp
  | error fault => simp

/-! ## The constants -/

def fcgiBeginRequest : ℕ := 1
def fcgiEndRequest : ℕ := 3
def fcgiParams : ℕ := 4
def fcgiStdin : ℕ := 5
def fcgiStdout : ℕ := 6
def fcgiStderr : ℕ := 7
def fcgiResponder : ℕ := 1
def fcgiKeepConn : Byte := 1
def fcgiVersion1 : Byte := 1
def fcgiHeaderLen : ℕ := 8
def contentBufferLen : ℕ := 1024

/-! ## Writing -/

/-- `(unsigned char)x` -/
def uchar (x : ℤ) : Byte := UInt8.ofNat (x % 256).toNat

/-- The conversion of a `size_t` to `int`. -/
def toInt (n : ℕ) : ℤ := Decimal.wrap 32 n

def createHeader (type request contentLength paddingLength : ℤ) : Header where
  version := fcgiVersion1
  type := uchar type
  requestIdB1 := uchar (request.shiftRight 8)
  requestIdB0 := uchar request
  contentLengthB1 := uchar (contentLength.shiftRight 8)
  contentLengthB0 := uchar contentLength
  paddingLength := uchar paddingLength
  reserved := 0

def createBeginRequestBody (role : ℤ) (keepConnection : Bool) : BeginRequestBody where
  roleB1 := uchar (role.shiftRight 8)
  roleB0 := uchar role
  flags := if keepConnection then fcgiKeepConn else 0
  reserved := List.replicate 5 0

/-- More bytes on the socket. -/
def wrote (bytes : List Byte) (s : FastCgi) : FastCgi := { s with sent := s.sent ++ bytes }

/-- `write` and `send` -/
def write (bytes : List Byte) : Call Unit := modify (wrote bytes)

def startRequest : Call Unit := do
  let s ← get
  let body := createBeginRequestBody fcgiResponder false
  write ((createHeader fcgiBeginRequest s.requestId body.bytes.length 0).bytes ++ body.bytes)

/-- `*ContentBuffPtr++ = ch`, where `buffer` is what lies before `ContentBuffPtr` in
`bodyBuffer`. -/
def put (buffer : List Byte) (ch : Byte) : Except Fault (List Byte) :=
  if buffer.length < contentBufferLen then .ok (buffer ++ [ch]) else .error .undefinedBehaviour

/-- The length of a name or a value. -/
def putLength (buffer : List Byte) (len : ℤ) : Except Fault (List Byte) :=
  if len < 128 then put buffer (uchar len)
  else do
    let buffer ← put buffer (uchar (len.shiftRight 24) ||| 0x80)
    let buffer ← put buffer (uchar (len.shiftRight 16))
    let buffer ← put buffer (uchar (len.shiftRight 8))
    put buffer (uchar len)

def createContentValue (name : List Byte) (nameLen : ℤ) (value : List Byte) (valueLen : ℤ) :
    Except Fault (List Byte) := do
  let buffer ← putLength [] nameLen
  let buffer ← putLength buffer valueLen
  let buffer ← name.foldlM put buffer
  value.foldlM put buffer

def sendContent (tag value : List Byte) : Call Unit := do
  let s ← get
  match createContentValue tag (toInt tag.length) value (toInt value.length) with
  | .error fault => throw fault
  | .ok body => write ((createHeader fcgiParams s.requestId body.length 0).bytes ++ body)

def endRequest : Call Unit := do
  let s ← get
  write (createHeader fcgiParams s.requestId 0 0).bytes

/-- `send` reads `len` bytes from `data.c_str()`, behind which there is one NUL. -/
def sendRequest (data : List Byte) (len : ℕ) : Call Unit := do
  let s ← get
  write (createHeader fcgiStdin s.requestId (toInt len) 0).bytes
  if data.length + 1 < len then
    throw .undefinedBehaviour
  write ((data ++ [0]).take len)
  write (createHeader fcgiStdin s.requestId 0 0).bytes

/-- `++requestId_` -/
def nextRequestId : Call Unit := do
  let s ← get
  if s.requestId < 2 ^ 31 - 1 then set { s with requestId := s.requestId + 1 }
  else throw .undefinedBehaviour

def start (path data : List Byte) : Call Unit := do
  nextRequestId
  startRequest
  let length := text (toString (toInt data.length))
  sendContent (text "SCRIPT_FILENAME") (cString path)
  sendContent (text "REQUEST_METHOD") (text "POST")
  sendContent (text "CONTENT_LENGTH") length
  sendContent (text "CONTENT_TYPE") (text "application/x-www-form-urlencoded")
  endRequest
  sendRequest (cString data) data.length

/-- The constructor, with the reply that is to be read. -/
def new (received : List Byte) : FastCgi where
  requestId := 0
  htmlFlag := false
  sent := []
  received := received
  headers := []

end FastCgi

end LWebServer
