import LWebServer.Http.Provider
import LWebServer.Tool.Printing

/-!
# What an answer is made of

`provide` decides on a response and then prints it: the head and the first line end, what follows
them in the first `Send` task, and for a file the file and one more line end.
-/

namespace LWebServer

open WriteLoop

namespace Provider

/-- `RegularProvide(long, const char*)` -/
def regularProvideTyped (site : Site) (contentLength : ℕ) (contentType : List Byte) :
    Op Answering ℕ := do
  let request := (← get).request
  let head ← writeHead request.versionMajor request.versionMinor request.statusCode
  let date ← writeDate site
  let connection ← writeConnection
  let type ← writeItem "Content-Type: " contentType
  let length ← writeItem "\nContent-Length: " (decimal contentLength)
  let language ← writeItem "\nContent-Language: " (text "en-US")
  return head + date + connection + type + length + language

theorem regularProvide_of_ok {site : Site} {mem : ℕ → Byte} {a : Answering} {type : List Byte}
    (htype : autoAdapt mem a.request.uri = .ok type) (contentLength : ℕ) :
    regularProvide site mem contentLength a = regularProvideTyped site contentLength type a := by
  have hlift : lift (autoAdapt mem a.request.uri) a = .ok type a := by
    rw [htype]
    rfl
  unfold regularProvide
  rw [Op.bind_get, Op.bind_of_ok hlift]
  rfl

theorem regularProvide_of_error {site : Site} {mem : ℕ → Byte} {a : Answering} {e : Fail}
    (htype : autoAdapt mem a.request.uri = .error e) (contentLength : ℕ) :
    regularProvide site mem contentLength a = .error e a := by
  have hlift : lift (autoAdapt mem a.request.uri) a = .error e a := by
    rw [htype]
    rfl
  unfold regularProvide
  rw [Op.bind_get, Op.bind_of_error hlift]

/-! ## Printing -/

/-- Print some pieces, counting from a number on. -/
def onward (count : ℕ) : List Piece → Op Answering ℕ
  | [] => pure count
  | piece :: pieces => do
    let n ← onLoop (put piece)
    onward (count + n) pieces

/-- The pieces of the head. -/
def headPieces (site : Site) (r : HttpRequest) (contentLength : ℕ) (contentType : List Byte) :
    List Piece := [
  .formatted (text "HTTP/" ++ decimal r.versionMajor ++ text "." ++ decimal r.versionMinor ++
    text " " ++ decimal r.statusCode.code ++ text " " ++ text r.statusCode.statusCodeToString ++
    text "\r\n"),
  .formatted (text "Server: MxcServer(Yuanmxc_Arch) 0.0\r\n"),
  .formatted site.date,
  .formatted (text "Connection: " ++
    if r.flag = .keepAlive then text "Keep-alive\n" else text "Close\n"),
  .formatted (text "Content-Type: " ++ contentType),
  .formatted (text "\nContent-Length: " ++ decimal contentLength),
  .formatted (text "\nContent-Language: " ++ text "en-US")]

/-- What `WriteCRLF` prints. -/
def crlfPiece : Piece := .formatted (text "/r/n")

theorem onLoop_cases (f : Op WriteLoop ℕ) (a : Answering) :
    (∃ n w, f a.writeLoop = .ok n w ∧ onLoop f a = .ok n { a with writeLoop := w }) ∨
      ∃ e w, f a.writeLoop = .error e w ∧ onLoop f a = .error e { a with writeLoop := w } := by
  unfold onLoop
  cases f a.writeLoop with
  | ok n w => exact .inl ⟨n, w, rfl, rfl⟩
  | error e w => exact .inr ⟨e, w, rfl, rfl⟩

/-- Two sequences that begin by the same operation of the write loop and go on alike. -/
theorem bind_onLoop_congr {α : Type} {f : Op WriteLoop ℕ} {g g' : ℕ → Op Answering α}
    {a : Answering}
    (hrest : ∀ n w, g n { a with writeLoop := w } = g' n { a with writeLoop := w }) :
    (onLoop f >>= g) a = (onLoop f >>= g') a := by
  rcases onLoop_cases f a with ⟨n, w, -, hrun⟩ | ⟨e, w, -, hrun⟩
  · rw [Op.bind_of_ok hrun, Op.bind_of_ok hrun, hrest]
  · rw [Op.bind_of_error hrun, Op.bind_of_error hrun]

theorem onward_append (count : ℕ) (pieces pieces' : List Piece) :
    onward count (pieces ++ pieces') = onward count pieces >>= fun n ↦ onward n pieces' := by
  induction pieces generalizing count with
  | nil => rfl
  | cons piece pieces ih =>
    funext a
    refine (bind_onLoop_congr fun n w ↦ congrFun (ih (count + n)) _).trans ?_
    simp only [onward, bind_assoc]

/-- Printing pieces is putting them into the write loop. -/
theorem onward_eq (count : ℕ) (pieces : List Piece) (a : Answering) :
    onward count pieces a = match putAll pieces a.writeLoop with
      | .ok n w => .ok (count + n) { a with writeLoop := w }
      | .error e w => .error e { a with writeLoop := w } := by
  induction pieces generalizing count a with
  | nil => rfl
  | cons piece pieces ih =>
    unfold onward putAll
    rcases onLoop_cases (put piece) a with ⟨n, w, hput, hrun⟩ | ⟨e, w, hput, hrun⟩
    · rw [Op.bind_of_ok hrun, Op.bind_of_ok hput, ih]
      dsimp only
      cases hrest : putAll pieces w with
      | ok m w' =>
        rw [Op.bind_of_ok hrest]
        simp only [pure, EStateM.pure, Nat.add_assoc]
      | error e w' => rw [Op.bind_of_error hrest]
    · rw [Op.bind_of_error hrun, Op.bind_of_error hput]

theorem regularProvideTyped_eq (site : Site) (contentLength : ℕ) (contentType : List Byte)
    (a : Answering) : regularProvideTyped site contentLength contentType a =
      onward 0 (headPieces site a.request contentLength contentType) a := by
  unfold regularProvideTyped writeHead writeDate writeConnection writeItem headPieces swrite
  rw [Op.bind_get]
  simp only [bind_assoc, pure_bind, onward]
  refine bind_onLoop_congr fun n₁ w₁ ↦ bind_onLoop_congr fun n₂ w₂ ↦
    bind_onLoop_congr fun n₃ w₃ ↦ ?_
  rw [Op.bind_get]
  refine bind_onLoop_congr fun n₄ w₄ ↦ bind_onLoop_congr fun n₅ w₅ ↦
    bind_onLoop_congr fun n₆ w₆ ↦ bind_onLoop_congr fun n₇ w₇ ↦ ?_
  rw [Nat.zero_add]

/-- The head of an answer and the line end behind it. -/
theorem regularProvide_bind {α : Type} (site : Site) (mem : ℕ → Byte) (contentLength : ℕ)
    (g : ℕ → Op Answering α) (a : Answering) :
    (do
      let head ← regularProvide site mem contentLength
      let crlf ← writeCRLF
      g (head + crlf)) a =
    (do
      let type ← lift (autoAdapt mem a.request.uri)
      let head ← onward 0 (headPieces site a.request contentLength type)
      let n ← onward head [crlfPiece]
      g n) a := by
  cases htype : autoAdapt mem a.request.uri with
  | error e =>
    have hlift : (lift (.error e) : Op Answering (List Byte)) a = .error e a := rfl
    rw [Op.bind_of_error (regularProvide_of_error htype contentLength), Op.bind_of_error hlift]
  | ok type =>
    have hlift : (lift (.ok type) : Op Answering (List Byte)) a = .ok type a := rfl
    have hhead := (regularProvide_of_ok htype contentLength).trans
      (regularProvideTyped_eq site contentLength type a)
    have hcrlf (head : ℕ) : (onward head [crlfPiece] >>= g) =
        writeCRLF >>= fun crlf ↦ g (head + crlf) := by
      simp only [onward, bind_assoc, pure_bind]
      rfl
    rw [Op.bind_of_ok hlift, Op.bind_congr hhead]
    simp only [hcrlf]

end Provider

/-! ## The response -/

/-- What `provide` decides on: the status, the length it announces, what follows the head in the
first `Send` task, and the file. -/
structure Response where
  status : HttpStatusCode
  contentLength : ℕ
  body : List Piece
  file : Option FileReader

namespace Response

open Provider

/-- The page of `ProvideError`. -/
def error : Response where
  status := .hscBadRequest
  contentLength := errorPage.length - 1
  body := [.formatted errorPage]
  file := none

/-- The content that the FastCGI server has given. -/
def ofContent (content : List Byte) : Response where
  status := .hscOK
  contentLength := content.length
  body := [.block content, crlfPiece]
  file := none

def ofFile (content : List Byte) : Response where
  status := .hscOK
  contentLength := content.length
  body := []
  file := some { content }

/-- All that is printed into the first `Send` task. -/
def pieces (response : Response) (site : Site) (r : HttpRequest) (type : List Byte) : List Piece :=
  headPieces site r response.contentLength type ++ crlfPiece :: response.body

/-- The tasks behind the first one. -/
def attach (response : Response) : Op Answering Unit :=
  match response.file with
  | none => pure ()
  | some file => do
    addSendFile file
    let ret ← writeCRLF
    addSend ret

/-- Print a response and queue it. -/
def send (response : Response) (site : Site) (mem : ℕ → Byte) : Op Answering Unit := do
  setStatusCode response.status
  let a ← get
  let type ← lift (autoAdapt mem a.request.uri)
  let n ← onward 0 (response.pieces site a.request type)
  addSend n
  response.attach

end Response

namespace REAProvider

open Provider

/-- The file that a request is about. -/
def requested (site : Site) (mem : ℕ → Byte) (host uri : ParsedHeader) :
    Except Fail (Option OpenedFile) :=
  if site.allotted < uri.length + 1 then .error .undefinedBehaviour
  else if uri.bytes mem = text "/" then .ok site.index
  else .ok (site.openAt (cString (host.bytes mem)) (cString (uri.bytes mem)))

/-- What the FastCGI server gives for a request. -/
def cgiContent (site : Site) (mem : ℕ → Byte) (host uri : ParsedHeader) :
    Except Fail (List Byte) :=
  let filename := ParsedHeader.bytes mem ⟨uri.header, uri.length + 1⟩
  if filename.length < host.length then .error .undefinedBehaviour
  else site.fastCgi (host.bytes mem ++ [0]) (filename.set host.length 0)

/-- The response to a request, or the exception. -/
def respond (table : HeaderTable) (site : Site) (mem : ℕ → Byte) (r : HttpRequest) :
    Except Fail Response :=
  if r.method = .hrPost then
    match r.getValue table mem (text "Host") with
    | none => .error .invalidArgument
    | some host =>
      match cgiContent site mem host r.uri with
      | .error e => .error e
      | .ok content => .ok (if r.requestGood then .ofContent content else .error)
  else if r.requestGood = false then .ok .error
  else
    match r.getValue table mem (text "Host") with
    | none => .error .invalidArgument
    | some host =>
      match requested site mem host r.uri with
      | .error e => .error e
      | .ok (some ⟨content, false⟩) => .ok (.ofFile content)
      | .ok _ => .ok .error

end REAProvider

/-! ## What `provide` does -/

namespace Response

open Provider

/-- Sending a response, written as the source does it. -/
theorem send_eq (response : Response) (site : Site) (mem : ℕ → Byte) (g : ℕ → Op Answering Unit)
    (hrest : ∀ n, (do
      let n ← onward n response.body
      addSend n
      response.attach) = g n) :
    (do
      setStatusCode response.status
      let head ← regularProvide site mem response.contentLength
      let crlf ← writeCRLF
      g (head + crlf)) = response.send site mem := by
  funext a
  have hset : setStatusCode response.status a =
      .ok ⟨⟩ { a with request := { a.request with statusCode := response.status } } := rfl
  unfold send
  rw [Op.bind_of_ok hset, Op.bind_of_ok hset, Op.bind_get, regularProvide_bind]
  simp only [pieces, onward_append, onward, bind_assoc, pure_bind, ← hrest]

/-- The error page is sent as a response. -/
theorem provideError_eq (site : Site) (mem : ℕ → Byte) :
    provideError site mem = error.send site mem :=
  send_eq error site mem (fun n ↦ do
    let page ← Provider.swrite errorPage
    addSend (n + page)) fun n ↦ by
      simp only [error, attach, onward, Provider.swrite, bind_assoc, pure_bind]
      rfl

theorem send_ofContent (site : Site) (mem : ℕ → Byte) (content : List Byte) :
    (do
      setStatusCode .hscOK
      let head ← regularProvide site mem content.length
      let crlf ← writeCRLF
      let body ← onLoop (WriteLoop.writeBytes content)
      let crlf' ← writeCRLF
      addSend (head + crlf + body + crlf')) = (ofContent content).send site mem :=
  send_eq (ofContent content) site mem (fun n ↦ do
    let body ← onLoop (WriteLoop.writeBytes content)
    let crlf' ← writeCRLF
    addSend (n + body + crlf')) fun n ↦ by
      simp only [ofContent, attach, onward, bind_assoc, pure_bind]
      rfl

theorem send_ofFile (site : Site) (mem : ℕ → Byte) (content : List Byte) :
    (do
      setStatusCode .hscOK
      let head ← regularProvide site mem content.length
      let crlf ← writeCRLF
      addSend (head + crlf)
      addSendFile { content }
      let ret ← writeCRLF
      addSend ret) = (ofFile content).send site mem :=
  send_eq (ofFile content) site mem _ fun _ ↦ rfl

/-- The request with the status of a response. -/
def requestOf (response : Response) (r : HttpRequest) : HttpRequest :=
  { r with statusCode := response.status }

theorem send_of_error (response : Response) {site : Site} {mem : ℕ → Byte} {a : Answering}
    {e : Fail} (htype : autoAdapt mem a.request.uri = .error e) :
    response.send site mem a = .error e { a with request := response.requestOf a.request } := by
  have hset : setStatusCode response.status a =
      .ok ⟨⟩ { a with request := response.requestOf a.request } := rfl
  have hlift : lift (autoAdapt mem (response.requestOf a.request).uri)
      { a with request := response.requestOf a.request } =
        .error e { a with request := response.requestOf a.request } := by
    unfold lift requestOf
    rw [htype]
  unfold send
  rw [Op.bind_of_ok hset, Op.bind_get, Op.bind_of_error hlift]

theorem send_of_ok (response : Response) {site : Site} {mem : ℕ → Byte} {a : Answering}
    {type : List Byte} (htype : autoAdapt mem a.request.uri = .ok type) :
    response.send site mem a =
      match putAll (response.pieces site (response.requestOf a.request) type) a.writeLoop with
      | .ok n w => response.attach ⟨response.requestOf a.request, w.addSend n⟩
      | .error e w => .error e ⟨response.requestOf a.request, w⟩ := by
  have hset : setStatusCode response.status a =
      .ok ⟨⟩ { a with request := response.requestOf a.request } := rfl
  have hlift : lift (autoAdapt mem (response.requestOf a.request).uri)
      { a with request := response.requestOf a.request } =
        .ok type { a with request := response.requestOf a.request } := by
    unfold lift requestOf
    rw [htype]
  have hprint := onward_eq 0 (response.pieces site (response.requestOf a.request) type)
    { a with request := response.requestOf a.request }
  unfold send
  rw [Op.bind_of_ok hset, Op.bind_get, Op.bind_of_ok hlift]
  dsimp only at hprint ⊢
  cases hput : putAll (response.pieces site (response.requestOf a.request) type) a.writeLoop with
  | ok n w =>
    rw [hput] at hprint
    rw [Op.bind_of_ok hprint, Nat.zero_add]
    rfl
  | error e w =>
    rw [hput] at hprint
    rw [Op.bind_of_error hprint]

theorem attach_none {response : Response} (hfile : response.file = none) (a : Answering) :
    response.attach a = .ok () a := by
  unfold attach
  rw [hfile]
  rfl

theorem attach_some {response : Response} {file : FileReader} (hfile : response.file = some file)
    (a : Answering) : response.attach a =
      match put crlfPiece (a.writeLoop.addSendFile file) with
      | .ok n w => .ok () { a with writeLoop := w.addSend n }
      | .error e w => .error e { a with writeLoop := w } := by
  have hqueue : Provider.addSendFile file a =
      .ok () { a with writeLoop := a.writeLoop.addSendFile file } := rfl
  unfold attach
  rw [hfile]
  dsimp only
  rw [Op.bind_of_ok hqueue]
  rcases onLoop_cases (put crlfPiece) { a with writeLoop := a.writeLoop.addSendFile file } with
    ⟨n, w, hput, hrun⟩ | ⟨e, w, hput, hrun⟩
  · have hline : writeCRLF { a with writeLoop := a.writeLoop.addSendFile file } =
        .ok n { a with writeLoop := w } := hrun
    rw [Op.bind_of_ok hline, hput]
    rfl
  · have hline : writeCRLF { a with writeLoop := a.writeLoop.addSendFile file } =
        .error e { a with writeLoop := w } := hrun
    rw [Op.bind_of_error hline, hput]

end Response

namespace REAProvider

open Provider

theorem bind_lift {α : Type} (x : Except Fail α) (g : α → Op Answering Unit) (a : Answering) :
    (lift x >>= g) a = match x with
      | .ok v => g v a
      | .error e => .error e a := by
  cases x <;> rfl

theorem host_bind (table : HeaderTable) (mem : ℕ → Byte) (g : ParsedHeader → Op Answering Unit)
    (a : Answering) : (host table mem >>= g) a =
      match a.request.getValue table mem (text "Host") with
      | some x => g x a
      | none => .error .invalidArgument a := by
  unfold host
  rw [bind_assoc, Op.bind_get]
  cases a.request.getValue table mem (text "Host") <;> rfl

/-- The status set before that of a response is lost. -/
theorem set_send (code : HttpStatusCode) (response : Response) (site : Site) (mem : ℕ → Byte) :
    (do
      setStatusCode code
      response.send site mem) = response.send site mem := rfl

theorem postProvider_eq (table : HeaderTable) (site : Site) (mem : ℕ → Byte) {a : Answering}
    (hpost : a.request.method = .hrPost) : postProvider table site mem a =
      match respond table site mem a.request with
      | .ok response => response.send site mem a
      | .error e => .error e a := by
  unfold postProvider respond
  rw [if_pos hpost, host_bind]
  cases a.request.getValue table mem (text "Host") with
  | none => rfl
  | some x =>
    dsimp only
    rw [Op.bind_get]
    unfold cgiContent
    dsimp only
    generalize ParsedHeader.bytes mem ⟨a.request.uri.header, a.request.uri.length + 1⟩ = filename
    by_cases hlength : filename.length < x.length
    · rw [if_pos hlength, if_pos hlength, bind_lift]
    · rw [if_neg hlength, if_neg hlength, bind_lift]
      cases site.fastCgi (x.bytes mem ++ [0]) (filename.set x.length 0) with
      | error e => rfl
      | ok content =>
        dsimp only
        rw [Op.bind_get]
        cases hgood : a.request.requestGood with
        | false => rw [if_pos rfl, Response.provideError_eq, set_send, if_neg Bool.false_ne_true]
        | true =>
          rw [if_neg (by decide), if_pos rfl, ← Response.send_ofContent]

theorem provide_eq (table : HeaderTable) (site : Site) (mem : ℕ → Byte) (a : Answering) :
    provide table site mem a = match respond table site mem a.request with
      | .ok response => response.send site mem a
      | .error e => .error e a := by
  unfold provide
  rw [Op.bind_get]
  by_cases hpost : a.request.method = .hrPost
  · rw [if_pos hpost, postProvider_eq table site mem hpost]
  · unfold fileProvider respond
    rw [if_neg hpost, if_neg hpost, bind_assoc, Op.bind_get]
    cases hgood : a.request.requestGood with
    | false =>
      rw [if_pos rfl, if_pos rfl]
      exact congrFun ((congrArg (fun f ↦ setStatusCode .hscBadRequest >>= fun _ ↦ f)
        (Response.provideError_eq site mem)).trans (set_send _ _ _ _)) a
    | true =>
      rw [if_neg (by decide), if_neg (by decide), bind_assoc, host_bind]
      cases a.request.getValue table mem (text "Host") with
      | none => rfl
      | some x =>
        dsimp only
        rw [bind_assoc, Op.bind_get]
        unfold requested
        have herror : (do
            setStatusCode .hscForbidden
            provideError site mem) a = Response.error.send site mem a := by
          rw [Response.provideError_eq, set_send]
        by_cases hover : site.allotted < a.request.uri.length + 1
        · rw [if_pos hover, if_pos hover]
          rfl
        rw [if_neg hover, if_neg hover, ← apply_ite Except.ok]
        generalize (if a.request.uri.bytes mem = text "/" then site.index
          else site.openAt (cString (x.bytes mem)) (cString (a.request.uri.bytes mem))) = file
        rcases file with _ | ⟨content, _ | _⟩
        · exact herror
        · dsimp only
          rw [← Response.send_ofFile]
          rfl
        · exact herror

/-- Whether `provide` returns. -/
def returns (table : HeaderTable) (site : Site) (mem : ℕ → Byte) (a : Answering) : Bool :=
  match provide table site mem a with
  | .ok _ _ => true
  | .error _ _ => false

theorem ok_of_returns {table : HeaderTable} {site : Site} {mem : ℕ → Byte} {a : Answering}
    (hreturns : returns table site mem a = true) : ∃ a', provide table site mem a = .ok () a' := by
  unfold returns at hreturns
  cases hprovide : provide table site mem a with
  | ok _ a' => exact ⟨a', rfl⟩
  | error e a' =>
    rw [hprovide] at hreturns
    cases hreturns

end REAProvider

/-! ## What `provide` leaves -/

namespace Provider

/-- The header map of the request. -/
def headerMap (a : Answering) : List HeaderEntry := a.request.headerValue

variable {γ : Type} (view : HttpRequest → γ)

theorem keeps_onLoop (f : Op WriteLoop ℕ) :
    Op.Keeps (fun a ↦ view a.request) (onLoop f) := by
  intro a
  rcases onLoop_cases f a with ⟨n, w, -, hcall⟩ | ⟨e, w, -, hcall⟩ <;> rw [hcall] <;> rfl

theorem keeps_onward (count : ℕ) (pieces : List Piece) :
    Op.Keeps (fun a ↦ view a.request) (onward count pieces) := by
  induction pieces generalizing count with
  | nil => exact .pure count
  | cons piece pieces ih => exact .bind (keeps_onLoop view _) fun n ↦ ih (count + n)

theorem keeps_attach (response : Response) :
    Op.Keeps (fun a ↦ view a.request) response.attach := by
  unfold Response.attach
  cases response.file with
  | none => exact fun _ ↦ rfl
  | some file => exact .bind (fun _ ↦ rfl) fun _ ↦ .bind (keeps_onLoop view _) fun _ _ ↦ rfl

variable {view}

theorem keeps_send (hview : ∀ r code, view { r with statusCode := code } = view r)
    (response : Response) (site : Site) (mem : ℕ → Byte) :
    Op.Keeps (fun a ↦ view a.request) (response.send site mem) := by
  refine .bind (fun _ ↦ hview _ _) fun _ ↦ .bind .get fun a ↦ .bind ?_ fun _ ↦
    .bind (keeps_onward view _ _) fun _ ↦ .bind (fun _ ↦ rfl) fun _ ↦ keeps_attach view response
  intro s
  cases autoAdapt mem a.request.uri <;> rfl

end Provider

namespace REAProvider

/-- `provide` leaves all of the request as it is but its status. -/
theorem keeps_request {γ : Type} (view : HttpRequest → γ)
    (hview : ∀ r code, view { r with statusCode := code } = view r) (table : HeaderTable)
    (site : Site) (mem : ℕ → Byte) :
    Op.Keeps (fun a ↦ view a.request) (provide table site mem) := by
  intro a
  rw [provide_eq]
  cases respond table site mem a.request with
  | error e => rfl
  | ok response => exact Provider.keeps_send hview response site mem a

/-- `provide` leaves the header map as it is. -/
theorem keeps_provide (table : HeaderTable) (site : Site) (mem : ℕ → Byte) :
    Op.Keeps Provider.headerMap (provide table site mem) :=
  keeps_request HttpRequest.headerValue (fun _ _ ↦ rfl) table site mem

end REAProvider

end LWebServer
