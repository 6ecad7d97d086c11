import LWebServer.Http.Request
import LWebServer.Library.Decimal
import LWebServer.Net.Socket

/-!
# The request parser

The state machine of `HttpParser::Parsering`. One turn of its loop looks at the next readable
byte and runs the `case` of the current state; a `case` that ends by `break` has one more byte
consumed after the `switch`, one that ends by `continue` has not. Words such as the rest of a
method name are taken at once, and taking one throws when the buffer holds too few bytes.
-/

namespace LWebServer

open Memory

/-- `ws::HttpParser_Content`. Pointers are offsets into the `UserBuffer` array. -/
structure HttpParserContent where
  method : HttpRequestMethod := .hrInit
  status : HttpParserStatus := .hpsOK
  fault : HttpParserFault := .hpfOK
  uri : Option ℕ := none
  header : Option ℕ := none
  value : Option ℕ := none
  uriLength : ℕ := 1
  headerLength : ℕ := 1
  valueLength : ℕ := 1
  contentLength : ℤ := 0
  vMajor : ℤ := 0
  vMinor : ℤ := 0
  setKa : HttpFlag := .keepAlive

/-- `HttpParser_Content::init`, which leaves `setKa` as it is. -/
def HttpParserContent.init (c : HttpParserContent) : HttpParserContent := { setKa := c.setKa }

/-- `ws::HttpParser` with the objects it shares: the buffer and the `Extrabuf` of the connection
and the request it fills. -/
structure HttpParser where
  userBuffer : UserBuffer
  parserResult : HttpParserContent
  requestResult : HttpRequest
  extrabuffer : Extrabuf

/-- How a `case` of the `switch` ends. -/
inductive Jump where
  | break | continue
  deriving DecidableEq, Repr

namespace HttpParser

def cr : Byte := ascii '\r'
def lf : Byte := ascii '\n'

def contentLengthKey : List Byte := text "Content-Length"
def connectionKey : List Byte := text "Connection"
def keepAliveValue : List Byte := text "Keep-Alive"
def closeValue : List Byte := text "Close"

/-- `x *= 10; x += ch - '0';` on an `int`. -/
def pushDigit (x : ℤ) (ch : Byte) : ℤ := Decimal.push 32 x (ch.toNat - 48)

/-! ## The macros -/

/-- Change the parser's record. -/
def mapResult (f : HttpParserContent → HttpParserContent) (p : HttpParser) : HttpParser :=
  { p with parserResult := f p.parserResult }

/-- `If_Con_Exe`, once its condition holds: the next state, the statement, `break`. -/
def conExe (nextstatus : HttpParserStatus) (stm : HttpParserContent → HttpParserContent) :
    Op HttpParser Jump := fun p ↦
  .ok .break (p.mapResult fun c ↦ stm { c with status := nextstatus })

/-- `If_Conversion`, once its condition holds. -/
def conversion (nextstatus : HttpParserStatus) : Op HttpParser Jump := conExe nextstatus id

/-- `Set_Fault`. -/
def setFault (fault : HttpParserFault) : Op HttpParser Jump :=
  conExe .hpsGameOver fun c ↦ { c with fault := fault }

/-- `User_Buffer_->Read(Buffer, n)`, `C_If_Con_Exe(!memcmp(Buffer, word, n), ...)`, `Set_Fault`,
with `n` the length of the word. -/
def readWord (word : List Byte) (nextstatus : HttpParserStatus)
    (stm : HttpParserContent → HttpParserContent) (fault : HttpParserFault) :
    Op HttpParser Jump := fun p ↦
  match p.userBuffer.readInto word.length with
  | .error e b => .error e { p with userBuffer := b }
  | .ok buffer b =>
    let p := { p with userBuffer := b }
    if buffer = word then
      .ok .continue (p.mapResult fun c ↦ stm { c with status := nextstatus })
    else setFault fault p

/-- A `case` for the rest of a method name. -/
def readMethod (word : String) (method : HttpRequestMethod) : Op HttpParser Jump :=
  readWord (text word) .hpsBetweenMU (fun c ↦ { c with method := method }) .hpfInvaildMethod

/-! ## Storing a header line -/

/-- The loop over the characters of a `Content-Length` value. The `break` inside `Set_Fault`
leaves this loop, not the `switch`. -/
def contentLengthLoop : List Byte → HttpParserContent → HttpParserContent
  | [], c => c
  | ch :: rest, c =>
    if isDigit ch then
      contentLengthLoop rest { c with contentLength := pushDigit c.contentLength ch }
    else { c with status := .hpsGameOver, fault := .hpfContentLength }

/-- `case HPSStore_Header`. The byte at the read position is not looked at. -/
def storeHeaderCase (table : HeaderTable) : Op HttpParser Jump := fun p ↦
  let mem := p.userBuffer.buffer
  let header : ParsedHeader := ⟨p.parserResult.header, p.parserResult.headerLength⟩
  let value : ParsedHeader := ⟨p.parserResult.value, p.parserResult.valueLength⟩
  let p := { p with
    requestResult := p.requestResult.storeHeader table mem header value
    parserResult := { p.parserResult with
      header := none, headerLength := 1, value := none, valueLength := 1 } }
  let lengthCase (p : HttpParser) :=
    if header.parsedHeaderIsEqual mem contentLengthKey then
      conversion .hpsLF (p.mapResult (contentLengthLoop (value.bytes mem)))
    else conversion .hpsLF p
  if header.parsedHeaderIsEqual mem connectionKey then
    if value.parsedHeaderIsEqual mem keepAliveValue then
      lengthCase (p.mapResult fun c ↦ { c with setKa := .keepAlive })
    else if value.parsedHeaderIsEqual mem closeValue then
      lengthCase (p.mapResult fun c ↦ { c with setKa := .close })
    else setFault .hpfSetConnection p
  else lengthCase p

/-! ## The switch -/

/-- The `switch` on the current state, with `ch` the byte at the read position. -/
def cases (table : HeaderTable) (ch : Byte) (p : HttpParser) :
    EStateM.Result Fail HttpParser Jump :=
  match p.parserResult.status with
  | .hpsOK =>
    if ch = ascii 'G' then conversion .hpsGet p
    else if ch = ascii 'P' then conversion .hpsPost p
    else if ch = ascii 'O' then conversion .hpsOption p
    else if ch = ascii 'H' then conversion .hpsHead p
    else if ch = ascii 'D' then conversion .hpsDelete p
    else if ch = ascii ' ' then conversion .hpsOK p
    else setFault .hpfInvaildMethod p
  | .hpsOption => readMethod "PTIONS" .hrOptions p
  | .hpsGet => readMethod "ET" .hrGet p
  | .hpsHead => readMethod "EAD" .hrHead p
  | .hpsDelete => readMethod "ELETE" .hrDelete p
  | .hpsPost => readMethod "OST" .hrPost p
  | .hpsBetweenMU =>
    if ch = ascii ' ' then conversion .hpsUriStart p
    else setFault .hpfBetweenMethodURINoBlank p
  | .hpsUriStart =>
    if ch = ascii ' ' then conversion .hpsUriStart p
    else if isUri ch then
      conExe .hpsUriParser (fun c ↦ { c with uri := some p.userBuffer.readPtr }) p
    else setFault .hpfInvaildUri p
  | .hpsUriParser =>
    if isUri ch then conExe .hpsUriParser (fun c ↦ { c with uriLength := c.uriLength + 1 }) p
    else if ch = ascii ' ' then conversion .hpsUriEnd p
    else setFault .hpfInvaildUri p
  | .hpsUriEnd =>
    if ch = ascii ' ' then conversion .hpsUriEnd p
    else readWord (text "HTTP/") .hpsVersionMajor id .hpfInvaildVersion p
  | .hpsVersionMajor =>
    if isDigit ch then
      conExe .hpsVersionMajor (fun c ↦ { c with vMajor := pushDigit c.vMajor ch }) p
    else if ch = ascii '.' then conversion .hpsVersionMinor p
    else setFault .hpfInvaildVersion p
  | .hpsVersionMinor =>
    if isDigit ch then
      conExe .hpsVersionMinor (fun c ↦ { c with vMinor := pushDigit c.vMinor ch }) p
    else if ch = cr then conversion .hpsVersionEnd p
    else setFault .hpfInvaildVersion p
  | .hpsVersionEnd =>
    if p.parserResult.vMajor ≠ 1 ∨ (p.parserResult.vMinor ≠ 1 ∧ p.parserResult.vMinor ≠ 0) then
      conExe .hpsGameOver (fun c ↦ { c with fault := .hpfNoSupportVersion }) p
    else if ch = lf then conversion .hpsLF p
    else setFault .hpfInvaildVersion p
  | .hpsLF =>
    if ch = cr then conversion .hpsCRLFCR p
    else if isHeader ch then
      conExe .hpsHeader (fun c ↦ { c with header := some p.userBuffer.readPtr }) p
    else setFault .hpfInvaildHeader p
  | .hpsCRLFCR =>
    if ch = lf then conExe .hpsGameOver (fun c ↦ { c with fault := .hpfContent }) p
    else setFault .hpfCRLFCR p
  | .hpsHeader =>
    if isHeader ch then
      conExe .hpsHeader (fun c ↦ { c with headerLength := c.headerLength + 1 }) p
    else if ch = ascii ':' then conversion .hpsColon p
    else setFault .hpfInvaildHeader p
  | .hpsColon =>
    if ch = ascii ' ' then conversion .hpsColon p
    else if isValue ch then
      conExe .hpsHeaderValue (fun c ↦ { c with value := some p.userBuffer.readPtr }) p
    else setFault .hpfInvaildHeader p
  | .hpsHeaderValue =>
    if isValue ch then
      conExe .hpsHeaderValue (fun c ↦ { c with valueLength := c.valueLength + 1 }) p
    else if ch = cr then conversion .hpsStoreHeader p
    else setFault .hpfInvaildHeaderValue p
  | .hpsStoreHeader => storeHeaderCase table p
  | .hpsGameOver => .ok .break p

/-! ## The loop -/

/-- The refill from the `Extrabuf` at the end of a turn. `Write(length)` moves the position
before `Get_ptr()` is taken. -/
def refill : Op HttpParser Unit := fun p ↦
  if p.userBuffer.readable = 0 ∧ p.extrabuffer.isVaild = true then
    let b := p.userBuffer.clean
    let length := min p.extrabuffer.getLength.toNat b.length
    let extra := p.extrabuffer.write length
    if extra.getPtr + length ≤ extra.allocated then
      match b.writeBytes (load extra.extrabuf extra.getPtr length) with
      | .ok _ b => .ok () { p with userBuffer := b, extrabuffer := extra }
      | .error e b => .error e { p with userBuffer := b, extrabuffer := extra }
    else .error .undefinedBehaviour { p with userBuffer := b, extrabuffer := extra }
  else .ok () p

/-- One turn of the loop: the `switch`, then `read(1)` and the refill unless it continued. -/
def turn (table : HeaderTable) : Op HttpParser Unit := fun p ↦
  match p.userBuffer.peek 0 with
  | none => .error .undefinedBehaviour p
  | some ch =>
    match cases table ch p with
    | .error e p => .error e p
    | .ok .continue p => .ok () p
    | .ok .break p => refill { p with userBuffer := p.userBuffer.read 1 }

/-- The condition of the `while`. -/
def running (p : HttpParser) : Prop :=
  p.parserResult.status ≠ .hpsGameOver ∧ p.userBuffer.readable ≠ 0

instance (p : HttpParser) : Decidable p.running := inferInstanceAs (Decidable (_ ∧ _))

/-- The loop, for at most the given number of turns. -/
def loop (table : HeaderTable) : ℕ → Op HttpParser Unit
  | 0 => fun p ↦ .ok () p
  | turns + 1 => fun p ↦
    if p.running then
      match turn table p with
      | .ok _ p => loop table turns p
      | .error e p => .error e p
    else .ok () p

/-- A number of turns that the loop cannot exceed: each turn moves the read position within the
array or the position within the `Extrabuf`. -/
def turnBound (p : HttpParser) : ℕ :=
  (p.userBuffer.bufferSize + 2) * (p.extrabuffer.allocated + 1)

/-- `Parsering`. -/
def parsering (table : HeaderTable) : Op HttpParser Unit := fun p ↦ loop table p.turnBound p

/-! ## The public calls -/

def againParser (p : HttpParser) : HttpParser := p.mapResult HttpParserContent.init

/-- `Finished`. -/
def finished (p : HttpParser) : Bool := p.parserResult.fault = .hpfContent

/-- `Parser_able`: a request line and an empty line take at least 16 bytes. -/
def parserAble (p : HttpParser) : Bool := 16 ≤ p.userBuffer.readable

/-- `SetRequesting`: copy the result into the request. The `int` length becomes a `size_t`. -/
def setRequesting (p : HttpParser) : HttpParser :=
  let c := p.parserResult
  { p with requestResult := { p.requestResult with
      versionMajor := c.vMajor
      versionMinor := c.vMinor
      contentLength := (c.contentLength % 2 ^ 64).toNat
      method := c.method
      flag := c.setKa
      fault := c.fault
      uri := if c.uri = none then p.requestResult.uri else ⟨c.uri, c.uriLength⟩
      requestBuffer := true } }

/-- The test at the head of `Starting_Parser`. -/
def markShort (p : HttpParser) : HttpParser :=
  if p.parserAble then p else p.mapResult fun c ↦ { c with fault := .hpfToLittleMessage }

/-- `Starting_Parser`. A throw from `Parsering` passes by `SetRequesting`. -/
def startingParser (table : HeaderTable) : Op HttpParser HttpParserFault := fun p ↦
  match parsering table p.markShort with
  | .ok _ p => .ok p.parserResult.fault p.setRequesting
  | .error e p => .error e p

/-- `clear`. `Request_Result->clear()` goes through `Request_Buffer_`. -/
def clear : Op HttpParser Unit := fun p ↦
  let p := { p with
    userBuffer := p.userBuffer.clean
    parserResult := p.parserResult.init }
  if p.requestResult.requestBuffer then
    .ok () { p with requestResult := { p.requestResult with headerValue := [] } }
  else .error .undefinedBehaviour p

end HttpParser

end LWebServer
