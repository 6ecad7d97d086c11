import LWebServer.Http.Mime
import LWebServer.Http.Request
import LWebServer.Tool.WriteLoop

/-!
# Answering a request

`REAProvider::provide` writes the head of an answer into the write loop and queues what is to be
sent. The file system, the FastCGI server and the clock are the parameter `Site`.
-/

namespace LWebServer

open Memory

/-- A file that could be opened. `special` is `IsTextFile`, which tells directories and devices. -/
structure OpenedFile where
  content : List Byte
  special : Bool

/-- What lies outside the server. -/
structure Site where
  /-- `../src/index.html` -/
  index : Option OpenedFile
  /-- The file of a given name under the directory of a given name. -/
  openAt : List Byte → List Byte → Option OpenedFile
  /-- The answer of the FastCGI server to a request for `Host + "/" + Filename`. -/
  fastCgi : List Byte → List Byte → Except Fail (List Byte)
  /-- What `strftime` makes of the time. -/
  date : List Byte
  /-- The number of bytes at an address that `new char` gives: 1 for the language, 24 with glibc. -/
  allotted : ℕ

/-- A world without files. -/
def Site.bare : Site where
  index := none
  openAt := fun _ _ ↦ none
  fastCgi := fun _ _ ↦ .ok []
  date := []
  allotted := 24

/-- A provider works on the request and the write loop. -/
structure Answering where
  request : HttpRequest
  writeLoop : WriteLoop

namespace Provider

/-- `IsFilename` -/
def isFilename (x : Byte) : Bool := !(text "?\\/*\"'<>|").contains x

/-- An operation of the write loop. -/
def onLoop (f : Op WriteLoop ℕ) : Op Answering ℕ := fun a ↦
  match f a.writeLoop with
  | .ok n w => .ok n { a with writeLoop := w }
  | .error e w => .error e { a with writeLoop := w }

def swrite (formatted : List Byte) : Op Answering ℕ := onLoop (WriteLoop.swrite formatted)

/-- A number printed by `%d` or `std::to_string`. -/
def decimal (n : ℤ) : List Byte := text (toString n)

def addSend (ret : ℕ) : Op Answering Unit :=
  modify fun a ↦ { a with writeLoop := a.writeLoop.addSend ret }

def addSendFile (file : FileReader) : Op Answering Unit :=
  modify fun a ↦ { a with writeLoop := a.writeLoop.addSendFile file }

def setStatusCode (code : HttpStatusCode) : Op Answering Unit :=
  modify fun a ↦ { a with request := { a.request with statusCode := code } }

def writeHead (ma mi : ℤ) (code : HttpStatusCode) : Op Answering ℕ := do
  let first ← swrite (text "HTTP/" ++ decimal ma ++ text "." ++ decimal mi ++ text " " ++
    decimal code.code ++ text " " ++ text code.statusCodeToString ++ text "\r\n")
  let second ← swrite (text "Server: MxcServer(Yuanmxc_Arch) 0.0\r\n")
  return first + second

def writeDate (site : Site) : Op Answering ℕ := swrite site.date

/-- `WriteItem`, on a format that ends in `%s`. -/
def writeItem (key : String) (va : List Byte) : Op Answering ℕ := swrite (text key ++ va)

def writeConnection : Op Answering ℕ := do
  let a ← get
  swrite (text "Connection: " ++
    if a.request.flag = .keepAlive then text "Keep-alive\n" else text "Close\n")

/-- `WriteCRLF`, whose string has slashes for backslashes. -/
def writeCRLF : Op Answering ℕ := swrite (text "/r/n")

/-- `MIME`: a `std::string` made of a null pointer throws. -/
def mime (suffix : List Byte) : Except Fail (List Byte) :=
  let res := FastFindMIMEMatcher.get suffix
  if res = text "nullptr" then .error .logicError else .ok res

def defaultMIME : List Byte := text "text/html\n"

/-- The loop of `AutoAdapt` at `Start = temp + start`, with `End = temp + stop`. -/
def autoAdaptLoop (mem : ℕ → Byte) (temp stop : ℕ) : ℕ → Except Fail (List Byte)
  | 0 => .ok defaultMIME
  | start + 1 =>
    if mem (temp + (start + 1)) = ascii '.' then
      mime (load mem (temp + (start + 1)) (stop - (start + 1)))
    else if isFilename (mem (temp + (start + 1))) then autoAdaptLoop mem temp stop start
    else autoAdaptLoop mem temp (start + 1) start

/-- `AutoAdapt`: the media type of the last suffix in the URI. The loop begins at the byte after
the URI. -/
def autoAdapt (mem : ℕ → Byte) (uri : ParsedHeader) : Except Fail (List Byte) :=
  match uri.header with
  | none => .error .undefinedBehaviour
  | some temp => autoAdaptLoop mem temp uri.length uri.length

/-- A computed value, or its exception. -/
def lift {α : Type} (x : Except Fail α) : Op Answering α := fun a ↦
  match x with
  | .ok v => .ok v a
  | .error e => .error e a

/-- `RegularProvide(long)`. -/
def regularProvide (site : Site) (mem : ℕ → Byte) (contentLength : ℕ) : Op Answering ℕ := do
  let contentType ← lift (autoAdapt mem (← get).request.uri)
  let request := (← get).request
  let head ← writeHead request.versionMajor request.versionMinor request.statusCode
  let date ← writeDate site
  let connection ← writeConnection
  let type ← writeItem "Content-Type: " contentType
  let length ← writeItem "\nContent-Length: " (decimal contentLength)
  let language ← writeItem "\nContent-Language: " (text "en-US")
  return head + date + connection + type + length + language

def errorPage : List Byte := text "<html><head><title>MxcServer/HTTP Error</title></head>"

def provideError (site : Site) (mem : ℕ → Byte) : Op Answering Unit := do
  setStatusCode .hscBadRequest
  let head ← regularProvide site mem (errorPage.length - 1)
  let crlf ← writeCRLF
  let page ← swrite errorPage
  addSend (head + crlf + page)

/-- `Get_Value` for the key `Host`. -/
def host (table : HeaderTable) (mem : ℕ → Byte) : Op Answering ParsedHeader := do
  match (← get).request.getValue table mem (text "Host") with
  | some x => return x
  | none => lift (.error .invalidArgument)

end Provider

namespace REAProvider

open Provider

/-- `FileProvider`; `none` is the answer `false`. The URI and a NUL are copied to what
`new char(y.Readable() + 1)` gives, which is one character and not an array. -/
def fileProvider (table : HeaderTable) (site : Site) (mem : ℕ → Byte) :
    Op Answering (Option FileReader) := do
  if (← get).request.requestGood = false then
    setStatusCode .hscBadRequest
    return none
  let x ← host table mem
  let y := (← get).request.uri
  if site.allotted < y.length + 1 then lift (.error .undefinedBehaviour)
  let file :=
    if y.bytes mem = text "/" then site.index
    else site.openAt (cString (x.bytes mem)) (cString (y.bytes mem))
  match file with
  | some ⟨content, false⟩ =>
    setStatusCode .hscOK
    return some { content }
  | _ =>
    setStatusCode .hscForbidden
    return none

/-- The block of `provide` for `POST`. The NUL that should end `Filename` is put at the length of
`Host`, which may lie outside. -/
def postProvider (table : HeaderTable) (site : Site) (mem : ℕ → Byte) : Op Answering Unit := do
  let x ← host table mem
  let y := (← get).request.uri
  let hostName := x.bytes mem ++ [0]
  let filename := ParsedHeader.bytes mem ⟨y.header, y.length + 1⟩
  if filename.length < x.length then lift (.error .undefinedBehaviour)
  let content ← lift (site.fastCgi hostName (filename.set x.length 0))
  if (← get).request.requestGood = false then
    setStatusCode .hscBadRequest
    provideError site mem
  else
    setStatusCode .hscOK
    let head ← regularProvide site mem content.length
    let crlf ← writeCRLF
    let body ← onLoop (WriteLoop.writeBytes content)
    let crlf' ← writeCRLF
    addSend (head + crlf + body + crlf')

/-- `provide` -/
def provide (table : HeaderTable) (site : Site) (mem : ℕ → Byte) : Op Answering Unit := do
  if (← get).request.method = .hrPost then postProvider table site mem
  else
    match ← fileProvider table site mem with
    | some file =>
      let head ← regularProvide site mem file.length
      let crlf ← writeCRLF
      addSend (head + crlf)
      addSendFile file
      let ret ← writeCRLF
      addSend ret
    | none => provideError site mem

end REAProvider

end LWebServer
