import LWebServer.Http.Answer
import LWebServer.Http.Grammar

/-!
# The head of a response

What a client reads: a status line and header lines, each ended by CR LF, and an empty line. What
`RegularProvide` and `WriteCRLF` print is never of this form.
-/

namespace LWebServer

open WriteLoop Provider HttpParser

/-! ## The grammar of a client -/

/-- `NAME ":" SP* VALUE CRLF` -/
structure ResponseField where
  name : List Byte
  pad : ℕ
  value : List Byte
  name_ne : name ≠ []
  name_chars : ∀ ch ∈ name, isHeader ch
  value_chars : ∀ ch ∈ value, ch ≠ cr ∧ ch ≠ lf

def ResponseField.encode (f : ResponseField) : List Byte :=
  f.name ++ ascii ':' :: (blanks f.pad ++ f.value ++ [cr, lf])

/-- `"HTTP/" DIGIT+ "." DIGIT+ SP DIGIT+ SP REASON CRLF`, header lines and CRLF. -/
structure ResponseHead where
  major : List Byte
  minor : List Byte
  code : List Byte
  reason : List Byte
  fields : List ResponseField
  major_digits : major ≠ [] ∧ ∀ ch ∈ major, isDigit ch
  minor_digits : minor ≠ [] ∧ ∀ ch ∈ minor, isDigit ch
  code_digits : code ≠ [] ∧ ∀ ch ∈ code, isDigit ch
  reason_chars : ∀ ch ∈ reason, ch ≠ cr ∧ ch ≠ lf

namespace ResponseHead

def statusLine (h : ResponseHead) : List Byte :=
  text "HTTP/" ++ h.major ++ text "." ++ h.minor ++ text " " ++ h.code ++ text " " ++ h.reason ++
    [cr, lf]

def encode (h : ResponseHead) : List Byte :=
  h.statusLine ++ h.fields.flatMap ResponseField.encode ++ [cr, lf]

/-- The head has a line of the given name and value. -/
def Says (h : ResponseHead) (name : String) (value : List Byte) : Prop :=
  ∃ f ∈ h.fields, f.name = text name ∧ f.value = value

/-- A head ends in a line feed. -/
theorem getLast?_encode (h : ResponseHead) : h.encode.getLast? = some lf := by
  unfold encode
  rw [List.getLast?_append_of_ne_nil _ (List.cons_ne_nil _ _)]
  rfl

end ResponseHead

/-- Some bytes are read as a head with the given version, status, `Connection`, `Content-Type` and
`Content-Length`. -/
def DecodesTo (bytes : List Byte) (r : HttpRequest) (contentLength : ℕ) (contentType : List Byte) :
    Prop :=
  ∃ h : ResponseHead, bytes = h.encode ∧
    h.major = decimal r.versionMajor ∧ h.minor = decimal r.versionMinor ∧
    h.code = decimal r.statusCode.code ∧
    h.Says "Connection" (if r.flag = .keepAlive then text "Keep-alive" else text "Close") ∧
    h.Says "Content-Type" contentType ∧ h.Says "Content-Length" (decimal contentLength)

/-- The head that a client expects of a plain answer. -/
def plainResponseHead : ResponseHead where
  major := text "1"
  minor := text "1"
  code := text "200"
  reason := text "OK"
  fields := [
    { name := text "Connection", pad := 1, value := text "Keep-alive"
      name_ne := by decide, name_chars := forall_mem_of_all rfl
      value_chars := forall_mem_of_all rfl },
    { name := text "Content-Type", pad := 1, value := text "text/html"
      name_ne := by decide, name_chars := forall_mem_of_all rfl
      value_chars := forall_mem_of_all rfl },
    { name := text "Content-Length", pad := 1, value := text "5"
      name_ne := by decide, name_chars := forall_mem_of_all rfl
      value_chars := forall_mem_of_all rfl }]
  major_digits := ⟨by decide, forall_mem_of_all rfl⟩
  minor_digits := ⟨by decide, forall_mem_of_all rfl⟩
  code_digits := ⟨by decide, forall_mem_of_all rfl⟩
  reason_chars := forall_mem_of_all rfl

example : DecodesTo (text "HTTP/1.1 200 OK\r\nConnection: Keep-alive\r\n" ++
    text "Content-Type: text/html\r\nContent-Length: 5\r\n\r\n")
    { HttpRequest.zero with
      versionMajor := 1, versionMinor := 1, statusCode := .hscOK, flag := .keepAlive }
    5 (text "text/html") :=
  ⟨plainResponseHead, by decide, by decide, by decide, by decide,
    ⟨_, List.mem_cons_self, by decide, by decide⟩,
    ⟨_, List.mem_cons_of_mem _ List.mem_cons_self, by decide, by decide⟩,
    ⟨_, List.mem_cons_of_mem _ (List.mem_cons_of_mem _ List.mem_cons_self), by decide, by decide⟩⟩

/-! ## What is printed -/

namespace Provider

/-- `RegularProvide(long, const char*)` followed by `WriteCRLF`. -/
def writeResponseHead (site : Site) (contentLength : ℕ) (contentType : List Byte) :
    Op Answering ℕ := do
  let head ← regularProvideTyped site contentLength contentType
  let crlf ← writeCRLF
  return head + crlf

/-- The bytes that a call has put into the output buffer. -/
def written (a a' : Answering) : List Byte :=
  a'.writeLoop.userBuffer.unread.drop a.writeLoop.userBuffer.unread.length

theorem writeResponseHead_eq (site : Site) (contentLength : ℕ) (contentType : List Byte)
    (a : Answering) : writeResponseHead site contentLength contentType a =
      onward 0 (headPieces site a.request contentLength contentType ++ [crlfPiece]) a := by
  have hcrlf (head : ℕ) : onward head [crlfPiece] =
      writeCRLF >>= fun crlf ↦ pure (head + crlf) := rfl
  unfold writeResponseHead
  rw [Op.bind_congr (regularProvideTyped_eq site contentLength contentType a), onward_append]
  simp only [hcrlf]

/-- The line end with slashes is found as it is, or with a NUL for its last letter. -/
theorem shown_crlfPiece {shown : List Byte} (hshown : Shown crlfPiece.characters shown) :
    shown = text "/r/n" ∨ shown = text "/r/" ++ [0] := by
  rcases hshown with rfl | ⟨init, last, hsplit, rfl⟩
  · exact .inl rfl
  · have hsplit' : text "/r/" ++ [ascii 'n'] = init ++ [last] := hsplit
    rw [(List.append_inj' hsplit' rfl).1]
    exact .inr rfl

/-- What is printed never ends in a line feed. -/
theorem getLast?_written {site : Site} {contentLength : ℕ} {contentType : List Byte}
    {a a' : Answering} {n : ℕ}
    (hle : a.writeLoop.userBuffer.readSpot ≤ a.writeLoop.userBuffer.writeSpot)
    (hrun : writeResponseHead site contentLength contentType a = .ok n a') :
    (written a a').getLast? ≠ some lf := by
  rw [writeResponseHead_eq, onward_eq] at hrun
  cases hput : putAll (headPieces site a.request contentLength contentType ++ [crlfPiece])
      a.writeLoop with
  | error e w =>
    rw [hput] at hrun
    cases hrun
  | ok m w =>
    rw [hput] at hrun
    cases hrun
    obtain ⟨first, w₁, second, hfirst, hsecond, -⟩ := putAll_append hput
    obtain ⟨-, heads, -, hheads⟩ := putAll_shows hle hfirst
    obtain ⟨-, lasts, hlasts, hfilled⟩ := putAll_shows hheads.appended.readSpot_le hsecond
    obtain _ | ⟨hlast, _ | _⟩ := hlasts
    unfold written
    dsimp only
    rw [hfilled.appended.unread, hheads.appended.unread, List.append_assoc, List.drop_left,
      List.flatten_cons, List.flatten_nil, List.append_nil]
    rcases shown_crlfPiece hlast with rfl | rfl
    · rw [List.getLast?_append_of_ne_nil _ (by decide)]
      decide
    · rw [List.getLast?_append_of_ne_nil _ (by decide)]
      decide

variable {site : Site} {contentLength : ℕ} {contentType : List Byte} {a a' : Answering} {n : ℕ}

/-- What `RegularProvide` and `WriteCRLF` print is never read as the head it is meant to be. -/
theorem not_decodesTo_written
    (hle : a.writeLoop.userBuffer.readSpot ≤ a.writeLoop.userBuffer.writeSpot)
    (hrun : writeResponseHead site contentLength contentType a = .ok n a') :
    ¬ DecodesTo (written a a') a.request contentLength contentType := by
  rintro ⟨h, hencode, -⟩
  apply getLast?_written hle hrun
  rw [hencode, h.getLast?_encode]

/-- The head of an answer to a request of version 1.1. -/
def plainAnswering : Answering where
  request := { HttpRequest.zero with versionMajor := 1, versionMinor := 1, statusCode := .hscOK }
  writeLoop := .new 0 4048

/-- Into an empty output buffer a head is printed if there is room for it. -/
theorem writeResponseHead_of_room {site : Site} {contentLength : ℕ} {contentType : List Byte}
    {a : Answering} (hlow : a.writeLoop.userBuffer.readSpot < a.writeLoop.userBuffer.bufferSize / 2)
    (hroom : a.writeLoop.userBuffer.writeSpot + (characters
      (headPieces site a.request contentLength contentType ++ [crlfPiece])).length ≤
        a.writeLoop.userBuffer.bufferSize) :
    ∃ n a', writeResponseHead site contentLength contentType a = .ok n a' := by
  have hput := putAll_room hlow (headPieces site a.request contentLength contentType ++ [crlfPiece])
  rw [if_pos hroom] at hput
  obtain ⟨w, hput, -⟩ := hput
  rw [writeResponseHead_eq, onward_eq, hput]
  exact ⟨_, _, rfl⟩

theorem not_decodesTo_written_errorPage :
    ∃ n a', writeResponseHead .bare errorPage.length defaultMIME plainAnswering = .ok n a' ∧
      ¬ DecodesTo (written plainAnswering a') plainAnswering.request errorPage.length
        defaultMIME := by
  have hroom : ∃ n a',
      writeResponseHead .bare errorPage.length defaultMIME plainAnswering = .ok n a' :=
    writeResponseHead_of_room (by decide) (by decide +kernel)
  obtain ⟨n, a', hrun⟩ := hroom
  exact ⟨n, a', hrun, not_decodesTo_written (Nat.zero_le _) hrun⟩

/-- The head of a plain answer is not read as one: it ends in a slash and a letter. -/
theorem not_decodesTo_plain : ∃ n a',
    writeResponseHead .bare 5 (text "text/html") plainAnswering = .ok n a' ∧
      ¬ DecodesTo (written plainAnswering a') plainAnswering.request 5 (text "text/html") := by
  have hroom : ∃ n a',
      writeResponseHead .bare 5 (text "text/html") plainAnswering = .ok n a' :=
    writeResponseHead_of_room (by decide) (by decide +kernel)
  obtain ⟨n, a', hrun⟩ := hroom
  refine ⟨n, a', hrun, ?_⟩
  rintro ⟨h, hencode, -⟩
  apply getLast?_written (Nat.zero_le _) hrun
  rw [hencode, h.getLast?_encode]

end Provider

end LWebServer
