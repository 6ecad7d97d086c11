import LWebServer.Http.Answer
import LWebServer.Http.Acceptance

/-!
# Which accepted requests are answered

A request that the parser has accepted can still make `provide` throw: it may have no `Host`, a
suffix without a media type, or an answer that does not fit into the output buffer. And its URI is
copied to where there is room for one character.
-/

namespace LWebServer

open WriteLoop Provider

namespace Response

/-- The number of bytes that the response takes in the output buffer. -/
def size (response : Response) (site : Site) (r : HttpRequest) (type : List Byte) : ℕ :=
  (characters (response.pieces site (response.requestOf r) type)).length +
    if response.file = none then 0 else crlfPiece.characters.length

/-- In the lower half of the buffer a response is sent exactly if there is room for it. -/
theorem send_room (response : Response) (site : Site) {mem : ℕ → Byte} {r : HttpRequest}
    {w : WriteLoop} (hlow : w.userBuffer.readSpot < w.userBuffer.bufferSize / 2)
    {type : List Byte} (htype : autoAdapt mem r.uri = .ok type) :
    if w.userBuffer.writeSpot + response.size site r type ≤ w.userBuffer.bufferSize then
      ∃ a, response.send site mem ⟨r, w⟩ = .ok () a ∧ ∃ n, .send n ∈ a.writeLoop.que
    else ∃ e a, response.send site mem ⟨r, w⟩ = .error e a := by
  have hprint := putAll_room hlow (response.pieces site (response.requestOf r) type)
  have hsend : response.send site mem ⟨r, w⟩ = _ := response.send_of_ok htype
  unfold size
  rw [hsend]
  generalize response.pieces site (response.requestOf r) type = pieces at hprint ⊢
  dsimp only
  by_cases hfits : w.userBuffer.writeSpot + (characters pieces).length ≤ w.userBuffer.bufferSize
  · rw [if_pos hfits] at hprint
    obtain ⟨w₁, hput, hread, hwrite, hsize⟩ := hprint
    rw [hput]
    dsimp only
    cases hfile : response.file with
    | none =>
      rw [if_pos rfl, Nat.add_zero, if_pos hfits, attach_none hfile]
      exact ⟨_, rfl, _, List.mem_append_right _ List.mem_cons_self⟩
    | some file =>
      have hbuffer : ((w₁.addSend (characters pieces).length).addSendFile file).userBuffer =
          w₁.userBuffer := rfl
      rw [if_neg (Option.some_ne_none file), attach_some hfile, ← Nat.add_assoc, ← hwrite, ← hsize,
        ← hbuffer]
      dsimp only
      generalize (w₁.addSend (characters pieces).length).addSendFile file = loop at hbuffer ⊢
      have hlow' : loop.userBuffer.readSpot < loop.userBuffer.bufferSize / 2 := by
        rw [hbuffer, hread, hsize]
        exact hlow
      have hline := put_room hlow' crlfPiece
      split_ifs at hline ⊢
      · obtain ⟨w₂, hput', -⟩ := hline
        rw [hput']
        exact ⟨_, rfl, _, List.mem_append_right _ List.mem_cons_self⟩
      · obtain ⟨w₂, hput'⟩ := hline
        rw [hput']
        exact ⟨_, _, rfl⟩
  · rw [if_neg hfits] at hprint
    obtain ⟨w₁, hput⟩ := hprint
    have hlarge : ¬ w.userBuffer.writeSpot + ((characters pieces).length +
        if response.file = none then 0 else crlfPiece.characters.length) ≤
          w.userBuffer.bufferSize := by
      omega
    rw [hput, if_neg hlarge]
    exact ⟨_, _, rfl⟩

end Response

namespace REAProvider

/-- `provide` returns and leaves a `Send` task. -/
def Answered (table : HeaderTable) (site : Site) (mem : ℕ → Byte) (a : Answering) : Prop :=
  ∃ a', provide table site mem a = .ok () a' ∧ ∃ n, .send n ∈ a'.writeLoop.que

/-- The number of bytes in a head. -/
def headLength (site : Site) (r : HttpRequest) (code : HttpStatusCode) (contentLength : ℕ)
    (type : List Byte) : ℕ :=
  (characters (headPieces site { r with statusCode := code } contentLength type)).length

/-- The request has a `Host` and a suffix with a media type, and the output buffer has room for the
head and for what is put behind it. A `POST` has a `Host` that is at most one byte longer than the
URI, and the FastCGI server gives some content; otherwise the URI and its NUL fit where they are
copied. -/
def Answerable (table : HeaderTable) (site : Site) (mem : ℕ → Byte) (r : HttpRequest) (room : ℕ) :
    Prop :=
  ∃ host type, r.getValue table mem (text "Host") = some host ∧ autoAdapt mem r.uri = .ok type ∧
    if r.method = .hrPost then
      ∃ content, cgiContent site mem host r.uri = .ok content ∧
        headLength site r .hscOK content.length type + 4 + content.length + 4 ≤ room
    else
      match requested site mem host r.uri with
      | .error _ => False
      | .ok (some ⟨content, false⟩) => headLength site r .hscOK content.length type + 4 + 4 ≤ room
      | .ok _ =>
        headLength site r .hscBadRequest (errorPage.length - 1) type + 4 + errorPage.length ≤ room

variable {table : HeaderTable} {site : Site} {mem : ℕ → Byte} {r : HttpRequest} {w : WriteLoop}

instance (room : ℕ) : Decidable (Answerable table site mem r room) :=
  match hhost : r.getValue table mem (text "Host"), htype : autoAdapt mem r.uri with
  | none, _ => isFalse fun ⟨_, _, hfound, _⟩ ↦ by simp [hhost] at hfound
  | some _, .error _ => isFalse fun ⟨_, _, _, hfound, _⟩ ↦ by simp [htype] at hfound
  | some host, .ok type =>
    if hpost : r.method = .hrPost then
      match hcgi : cgiContent site mem host r.uri with
      | .error _ => isFalse fun ⟨_, _, hfound, _, hroom⟩ ↦ by
        obtain rfl := Option.some.inj (hhost.symm.trans hfound)
        simp [hpost, hcgi] at hroom
      | .ok content =>
        decidable_of_iff
          (headLength site r .hscOK content.length type + 4 + content.length + 4 ≤ room) (by
            simp [Answerable, hhost, htype, hpost, hcgi])
    else
      match hfile : requested site mem host r.uri with
      | .error _ => isFalse fun ⟨_, _, hfound, _, hroom⟩ ↦ by
        obtain rfl := Option.some.inj (hhost.symm.trans hfound)
        simp [hpost, hfile] at hroom
      | .ok (some ⟨content, false⟩) =>
        decidable_of_iff (headLength site r .hscOK content.length type + 4 + 4 ≤ room) (by
          simp [Answerable, hhost, htype, hpost, hfile])
      | .ok (some ⟨_, true⟩) | .ok none =>
        decidable_of_iff (headLength site r .hscBadRequest (errorPage.length - 1) type + 4 +
          errorPage.length ≤ room) (by simp [Answerable, hhost, htype, hpost, hfile])

theorem size_eq (response : Response) (type : List Byte) : response.size site r type =
    headLength site r response.status response.contentLength type + 4 +
      (characters response.body).length + if response.file = none then 0 else 4 := by
  unfold Response.size Response.pieces
  rw [characters_append, characters_cons, List.length_append, List.length_append]
  rw [← Nat.add_assoc]
  rfl

theorem size_ofContent (content type : List Byte) : (Response.ofContent content).size site r type =
    headLength site r .hscOK content.length type + 4 + content.length + 4 := by
  have hcrlf : crlfPiece.characters.length = 4 := rfl
  rw [size_eq]
  simp [Response.ofContent, hcrlf, Nat.add_assoc]

theorem size_ofFile (content type : List Byte) : (Response.ofFile content).size site r type =
    headLength site r .hscOK content.length type + 4 + 4 := by
  rw [size_eq]
  simp [Response.ofFile]

theorem size_error (type : List Byte) : Response.error.size site r type =
    headLength site r .hscBadRequest (errorPage.length - 1) type + 4 + errorPage.length := by
  rw [size_eq]
  simp [Response.error]

/-- A request is answered exactly if there is a response to it and the response can be sent. -/
theorem answered_iff_respond (hread : w.userBuffer.readSpot = 0)
    (hwrite : w.userBuffer.writeSpot = 0) (hsize : w.userBuffer.bufferSize = 4048) :
    Answered table site mem ⟨r, w⟩ ↔ ∃ response type, respond table site mem r = .ok response ∧
      autoAdapt mem r.uri = .ok type ∧ response.size site r type ≤ 4048 := by
  unfold Answered
  rw [provide_eq]
  cases hrespond : respond table site mem r with
  | error e => simp
  | ok response =>
    cases htype : autoAdapt mem r.uri with
    | error e =>
      have hsend : response.send site mem ⟨r, w⟩ = .error e ⟨response.requestOf r, w⟩ :=
        response.send_of_error htype
      simp [hsend]
    | ok type =>
      have hlow : w.userBuffer.readSpot < w.userBuffer.bufferSize / 2 := by
        rw [hread, hsize]
        decide
      have hsend := response.send_room site hlow htype
      rw [hwrite, hsize, Nat.zero_add] at hsend
      by_cases hroom : response.size site r type ≤ 4048
      · rw [if_pos hroom] at hsend
        exact iff_of_true hsend ⟨response, type, rfl, rfl, hroom⟩
      · rw [if_neg hroom] at hsend
        obtain ⟨e, a', hsend⟩ := hsend
        dsimp only
        rw [hsend]
        simp [hroom]

/-- An accepted request is answered exactly if it is answerable. -/
theorem answered_iff (hgood : r.requestGood = true) (hread : w.userBuffer.readSpot = 0)
    (hwrite : w.userBuffer.writeSpot = 0) (hsize : w.userBuffer.bufferSize = 4048) :
    Answered table site mem ⟨r, w⟩ ↔ Answerable table site mem r 4048 := by
  rw [answered_iff_respond hread hwrite hsize]
  unfold Answerable respond
  cases r.getValue table mem (text "Host") with
  | none => simp [hgood]
  | some host =>
    by_cases hpost : r.method = .hrPost
    · cases hcgi : cgiContent site mem host r.uri with
      | error e => simp [hpost, hcgi]
      | ok content => simp [hpost, hgood, hcgi, size_ofContent]
    · rcases hfile : requested site mem host r.uri with e | _ | ⟨content, _ | _⟩
      · simp [hpost, hgood, hfile]
      · simp [hpost, hgood, hfile, size_error]
      · simp [hpost, hgood, hfile, size_ofFile]
      · simp [hpost, hgood, hfile, size_error]

/-- A site with one page. -/
def pageSite : Site := { Site.bare with
  openAt := fun _ name ↦
    if name = text "/page.html" then some ⟨text "<html></html>", false⟩ else none }

/-- The parser accepts a request for the page, and it is answered. -/
theorem answered_page : ∃ q,
    HttpParser.startingParser .sample
      (HttpParser.holding .zero (text "GET /page.html HTTP/1.1\r\nHost: a\r\n\r\n") (by decide)) =
        .ok .hpfContent q ∧
    Answered .sample pageSite q.userBuffer.buffer ⟨q.requestResult, .new 0 4048⟩ := by
  have hrun : Op.returning (fun fault q ↦ decide (fault = .hpfContent) &&
        (q.requestResult.requestGood &&
          decide (Answerable .sample pageSite q.userBuffer.buffer q.requestResult 4048)))
      (HttpParser.startingParser .sample (HttpParser.holding .zero
        (text "GET /page.html HTTP/1.1\r\nHost: a\r\n\r\n") (by decide))) = true := by
    decide +kernel
  obtain ⟨fault, q, hcall, htest⟩ := Op.of_returning hrun
  simp only [Bool.and_eq_true, decide_eq_true_eq] at htest
  obtain ⟨rfl, hgood, hanswerable⟩ := htest
  exact ⟨q, hcall, (answered_iff hgood rfl rfl rfl).2 hanswerable⟩

theorem not_answered_of_returns {table : HeaderTable} {site : Site} {mem : ℕ → Byte}
    {a : Answering} (hreturns : returns table site mem a = false) :
    ¬ Answered table site mem a := by
  rintro ⟨a', hprovide, -⟩
  unfold returns at hreturns
  rw [hprovide] at hreturns
  cases hreturns

/-- The parser accepts a request without `Host`, and `provide` throws. -/
theorem not_answered_noHost : ∃ q,
    HttpParser.startingParser .sample
      (HttpParser.holding .zero (text "GET / HTTP/1.1\r\n\r\n") (by decide)) = .ok .hpfContent q ∧
    ¬ Answered .sample .bare q.userBuffer.buffer ⟨q.requestResult, .new 0 4048⟩ := by
  have hrun : Op.returning (fun fault q ↦ decide (fault = .hpfContent) &&
        !returns .sample .bare q.userBuffer.buffer ⟨q.requestResult, .new 0 4048⟩)
      (HttpParser.startingParser .sample
        (HttpParser.holding .zero (text "GET / HTTP/1.1\r\n\r\n") (by decide))) = true := by
    decide +kernel
  obtain ⟨fault, q, hcall, htest⟩ := Op.of_returning hrun
  simp only [Bool.and_eq_true, decide_eq_true_eq, Bool.not_eq_true'] at htest
  obtain ⟨rfl, hreturns⟩ := htest
  exact ⟨q, hcall, not_answered_of_returns hreturns⟩

end REAProvider

end LWebServer
