import LWebServer.Http.Answered
import LWebServer.Http.BodyLength
import LWebServer.Tool.Exactness

/-!
# Responses that stay unfinished

A response is written piece by piece, and each piece is committed at once. If a later piece does not
fit, `provide` throws and leaves the pieces before it in the buffer. The status line is the only
piece that can be refused without a trace; once it is committed, all the rest has to fit.
-/

namespace LWebServer

open WriteLoop Provider

/-! ## Pieces that are refused -/

namespace WriteLoop

variable {w w' : WriteLoop}

/-- A piece that does not fit leaves the readable bytes as they are. -/
theorem unread_put_error (hle : w.userBuffer.readSpot ≤ w.userBuffer.writeSpot) {piece : Piece}
    {e : Fail} (hput : put piece w = .error e w') :
    w'.userBuffer.unread = w.userBuffer.unread := by
  cases piece with
  | block bytes =>
    obtain ⟨b, hwrite, rfl⟩ := onBuffer_error hput
    have hsound : w.userBuffer.Sound w.userBuffer.bufferSize := ⟨hle, rfl⟩
    have hserves := hsound.serves_writeBytes bytes
    have hcall : (UserBuffer.Action.writeBytes bytes).call w.userBuffer = .error e b :=
      Op.bind_of_error hwrite
    rw [hcall] at hserves
    exact hserves.2.1
  | formatted characters =>
    by_cases hroom : characters.length ≤ w.userBuffer.writeable
    · obtain ⟨w₁, hwrite, -⟩ := swrite_of_le hle hroom
      have hput' : swrite characters w = .error e w' := hput
      rw [hwrite] at hput'
      cases hput'
    · obtain ⟨w₁, hwrite, hunread⟩ := swrite_of_lt hle (Nat.lt_of_not_le hroom)
      have hput' : swrite characters w = .error e w' := hput
      rw [hwrite] at hput'
      cases hput'
      exact hunread

/-- Pieces that do not fit leave what was readable, and some of them behind it. -/
theorem unread_putAll_error (hle : w.userBuffer.readSpot ≤ w.userBuffer.writeSpot)
    {pieces : List Piece} {e : Fail} (hput : putAll pieces w = .error e w') :
    w.userBuffer.unread <+: w'.userBuffer.unread := by
  induction pieces generalizing w with
  | nil => cases hput
  | cons piece pieces ih =>
    rcases Op.bind_error hput with hfirst | ⟨first, w₁, hfirst, hput⟩
    · simp only [unread_put_error hle hfirst, List.prefix_rfl]
    obtain ⟨bytes, -, hfilled⟩ := put_fills hle hfirst
    rcases Op.bind_error hput with hrest | ⟨rest, w₂, -, hpure⟩
    · have hprefix := ih hfilled.appended.readSpot_le hrest
      rw [hfilled.appended.unread] at hprefix
      exact (List.prefix_append _ _).trans hprefix
    · cases hpure

/-- Where the free part begins once some bytes have been committed, less their number. -/
def base (w : WriteLoop) : ℕ :=
  w.userBuffer.writeSpot -
    if w.userBuffer.bufferSize / 2 ≤ w.userBuffer.readSpot then w.userBuffer.readSpot else 0

/-- Two characters or more leave the read position in the lower half. -/
theorem put_formatted_spots (hle : w.userBuffer.readSpot ≤ w.userBuffer.writeSpot)
    {characters : List Byte} (htwo : 2 ≤ characters.length)
    (hfits : w.userBuffer.writeSpot + characters.length ≤ w.userBuffer.bufferSize) :
    ∃ w', put (.formatted characters) w = .ok characters.length w' ∧
      w'.userBuffer.readSpot < w'.userBuffer.bufferSize / 2 ∧
      w'.userBuffer.writeSpot = w.base + characters.length ∧
      w'.userBuffer.bufferSize = w.userBuffer.bufferSize := by
  by_cases hlow : w.userBuffer.readSpot < w.userBuffer.bufferSize / 2
  · have hput := put_room hlow (.formatted characters)
    rw [Piece.characters_formatted, if_pos hfits] at hput
    obtain ⟨w', hput, hread, hwrite, hsize⟩ := hput
    refine ⟨w', hput, by rwa [hread, hsize], ?_, hsize⟩
    rw [hwrite, base, if_neg (Nat.not_le_of_lt hlow), Nat.sub_zero]
  · let b : UserBuffer := { w.userBuffer with
      buffer := Memory.store w.userBuffer.buffer w.userBuffer.writeSpot
        (printed w.userBuffer.writeable characters)
      writeSpot := w.userBuffer.writeSpot + characters.length
      writeSpot_le := hfits }
    have hmove : b.moveBuffer = .ok () b.moved := by
      have hle' : b.readSpot ≤ b.writeSpot := hle.trans (Nat.le_add_right _ _)
      have hhigh : ¬ b.readSpot < b.bufferSize / 2 := hlow
      unfold UserBuffer.moveBuffer
      rw [if_neg hhigh, if_pos hle']
      rfl
    have hwrite : UserBuffer.write characters.length { w.userBuffer with
        buffer := Memory.store w.userBuffer.buffer w.userBuffer.writeSpot
          (printed w.userBuffer.writeable characters) } = .ok characters.length b.moved := by
      unfold UserBuffer.write
      rw [dif_pos hfits]
      exact Op.bind_of_ok hmove
    have hput : put (.formatted characters) w =
        .ok characters.length { w with userBuffer := b.moved } := by
      change swrite characters w = _
      rw [swrite_eq]
      unfold onBuffer
      dsimp only
      rw [hwrite]
    refine ⟨_, hput, ?_, ?_, rfl⟩
    · change 0 < w.userBuffer.bufferSize / 2
      omega
    · change w.userBuffer.writeSpot + characters.length - w.userBuffer.readSpot = _
      unfold base
      rw [if_pos (Nat.le_of_not_lt hlow)]
      omega

end WriteLoop

/-! ## One response -/

/-- The status line. -/
def statusLine (r : HttpRequest) : List Byte :=
  text "HTTP/" ++ decimal r.versionMajor ++ text "." ++ decimal r.versionMinor ++ text " " ++
    decimal r.statusCode.code ++ text " " ++ text r.statusCode.statusCodeToString ++ text "\r\n"

theorem two_le_length_statusLine (r : HttpRequest) : 2 ≤ (statusLine r).length := by
  have hend : (text "\r\n").length = 2 := rfl
  unfold statusLine
  rw [List.length_append, hend]
  exact Nat.le_add_left _ _

/-- `provide` has returned, or it threw and has left the readable bytes and the queue. -/
def AllOrNothing (w : WriteLoop) : EStateM.Result Fail Answering Unit → Prop
  | .ok _ _ => True
  | .error e a => e ≠ .undefinedBehaviour ∧
    a.writeLoop.userBuffer.unread = w.userBuffer.unread ∧ a.writeLoop.que = w.que

namespace Response

/-- The status line does not fit behind the write position, or the whole response fits once the
status line has been committed. -/
def Whole (response : Response) (site : Site) (r : HttpRequest) (type : List Byte)
    (w : WriteLoop) : Prop :=
  w.userBuffer.bufferSize <
      w.userBuffer.writeSpot + (statusLine (response.requestOf r)).length ∨
    w.base + response.size site r type ≤ w.userBuffer.bufferSize

variable {response : Response} {site : Site} {mem : ℕ → Byte} {r : HttpRequest} {w : WriteLoop}
  {type : List Byte}

/-- After all pieces have been printed, only the line end behind a file can fail, and it leaves the
tasks before it in the queue. -/
theorem attach_room {a : Answering}
    (hlow : a.writeLoop.userBuffer.readSpot < a.writeLoop.userBuffer.bufferSize / 2) :
    if a.writeLoop.userBuffer.writeSpot +
        (if response.file = none then 0 else crlfPiece.characters.length) ≤
          a.writeLoop.userBuffer.bufferSize then ∃ a', response.attach a = .ok () a'
    else ∃ e a', response.attach a = .error e a' ∧
      a.writeLoop.que.length < a'.writeLoop.que.length := by
  cases hfile : response.file with
  | none =>
    rw [if_pos rfl, Nat.add_zero, if_pos a.writeLoop.userBuffer.writeSpot_le]
    exact ⟨a, attach_none hfile a⟩
  | some file =>
    have hline := @put_room (a.writeLoop.addSendFile file) hlow crlfPiece
    have hbuffer : (a.writeLoop.addSendFile file).userBuffer = a.writeLoop.userBuffer := rfl
    rw [hbuffer] at hline
    rw [if_neg (Option.some_ne_none file), attach_some hfile]
    split_ifs at hline ⊢
    · obtain ⟨w', hput, -⟩ := hline
      rw [hput]
      exact ⟨_, rfl⟩
    · obtain ⟨w', hput⟩ := hline
      obtain ⟨b, rfl⟩ := put_error hput
      rw [hput]
      refine ⟨_, _, rfl, ?_⟩
      change _ < (a.writeLoop.que ++ [Task.sendFile file]).length
      simp

/-- Once the other pieces are queued, all or nothing means all. -/
theorem allOrNothing_attach_iff {a : Answering}
    (hlow : a.writeLoop.userBuffer.readSpot < a.writeLoop.userBuffer.bufferSize / 2)
    (hque : w.que.length ≤ a.writeLoop.que.length) :
    AllOrNothing w (response.attach a) ↔ a.writeLoop.userBuffer.writeSpot +
      (if response.file = none then 0 else crlfPiece.characters.length) ≤
        a.writeLoop.userBuffer.bufferSize := by
  have hattach := response.attach_room hlow
  generalize (if response.file = none then 0 else crlfPiece.characters.length) = tail at hattach ⊢
  split_ifs at hattach with hroom
  · obtain ⟨a', hattach⟩ := hattach
    rw [hattach]
    exact iff_of_true trivial hroom
  · obtain ⟨e, a', hattach, hlonger⟩ := hattach
    rw [hattach]
    refine iff_of_false (fun hnothing ↦ ?_) hroom
    rw [hnothing.2.2] at hlonger
    omega

/-- The status line and what is printed behind it. -/
theorem size_eq_add (response : Response) (site : Site) (r : HttpRequest) (type : List Byte) :
    ∃ rest, response.pieces site (response.requestOf r) type =
        .formatted (statusLine (response.requestOf r)) :: rest ∧
      response.size site r type = (statusLine (response.requestOf r)).length +
        (characters rest).length +
          if response.file = none then 0 else crlfPiece.characters.length := by
  refine ⟨_, rfl, ?_⟩
  unfold size pieces headPieces
  rw [List.cons_append, characters_cons, List.length_append]
  rfl

/-- A response is sent all or nothing exactly if the status line is refused or all fits. -/
theorem allOrNothing_send_iff (hle : w.userBuffer.readSpot ≤ w.userBuffer.writeSpot)
    (htype : autoAdapt mem r.uri = .ok type) :
    AllOrNothing w (response.send site mem ⟨r, w⟩) ↔ response.Whole site r type w := by
  have hsend : response.send site mem ⟨r, w⟩ = _ := response.send_of_ok htype
  have htwo := two_le_length_statusLine (response.requestOf r)
  obtain ⟨rest, hpieces, hcount⟩ := response.size_eq_add site r type
  unfold Whole
  rw [hsend, hpieces, hcount]
  generalize statusLine (response.requestOf r) = line at htwo ⊢
  dsimp only
  unfold putAll
  by_cases hfits : w.userBuffer.writeSpot + line.length ≤ w.userBuffer.bufferSize
  · obtain ⟨w₁, hput, hlow, hwrite, hsize⟩ := put_formatted_spots hle htwo hfits
    obtain ⟨bytes, hbytes, hfilled⟩ := put_fills hle hput
    have hrest := putAll_room hlow rest
    rw [hwrite, hsize] at hrest
    rw [Op.bind_of_ok hput]
    split_ifs at hrest with hroom
    · obtain ⟨w₂, hputAll, hread₂, hwrite₂, hsize₂⟩ := hrest
      obtain ⟨bytes', -, hfilled'⟩ := putAll_fills hfilled.appended.readSpot_le hputAll
      rw [Op.bind_of_ok hputAll]
      have hlow₂ : w₂.userBuffer.readSpot < w₂.userBuffer.bufferSize / 2 := by
        rwa [hread₂, hsize₂]
      have hque : w.que.length ≤
          (w₂.addSend (line.length + (characters rest).length)).que.length := by
        unfold WriteLoop.addSend
        rw [hfilled'.que, hfilled.que, List.length_append]
        exact Nat.le_add_right _ _
      refine (allOrNothing_attach_iff hlow₂ hque).trans ?_
      change w₂.userBuffer.writeSpot + _ ≤ w₂.userBuffer.bufferSize ↔ _
      rw [hwrite₂, hwrite, hsize₂, hsize]
      omega
    · obtain ⟨w₂, hputAll⟩ := hrest
      have hprefix := unread_putAll_error hfilled.appended.readSpot_le hputAll
      rw [Op.bind_of_error hputAll]
      refine iff_of_false (fun hnothing ↦ ?_) (by omega)
      have hlength := hprefix.length_le
      rw [hfilled.appended.unread, hnothing.2.1, List.length_append] at hlength
      omega
  · have hroom : w.userBuffer.writeable < line.length := by
      unfold UserBuffer.writeable
      omega
    obtain ⟨w', hput, hunread⟩ := swrite_of_lt hle hroom
    have hput : put (.formatted line) w = .error .outOfRange w' := hput
    obtain ⟨b, rfl⟩ := put_error hput
    rw [Op.bind_of_error hput]
    exact iff_of_true ⟨by decide, hunread, rfl⟩ (.inl (Nat.lt_of_not_le hfits))

end Response

namespace REAProvider

/-- What is copied for a request stays inside the memory that it is copied to: the NUL behind the
script name of a `POST`, and else the URI with a NUL. -/
def Inside (table : HeaderTable) (site : Site) (mem : ℕ → Byte) (r : HttpRequest) : Prop :=
  ∀ host, r.getValue table mem (text "Host") = some host →
    if r.method = .hrPost then cgiContent site mem host r.uri ≠ .error .undefinedBehaviour
    else r.requestGood = true → r.uri.length + 1 ≤ site.allotted

/-- If there is a response to a request, there is a URI to look for a suffix in, and with a media
type for it the response is sent all or nothing. -/
def Sendable (table : HeaderTable) (site : Site) (mem : ℕ → Byte) (r : HttpRequest)
    (w : WriteLoop) : Prop :=
  ∀ response, respond table site mem r = .ok response → r.uri.header ≠ none ∧
    ∀ type, autoAdapt mem r.uri = .ok type → response.Whole site r type w

theorem respond_ne_iff (table : HeaderTable) (site : Site) (mem : ℕ → Byte) (r : HttpRequest) :
    respond table site mem r ≠ .error .undefinedBehaviour ↔ Inside table site mem r := by
  unfold respond Inside
  cases r.getValue table mem (text "Host") with
  | none => by_cases hpost : r.method = .hrPost <;> cases r.requestGood <;> simp [hpost]
  | some host =>
    by_cases hpost : r.method = .hrPost
    · cases hcgi : cgiContent site mem host r.uri <;> simp [hpost, hcgi]
    · cases hgood : r.requestGood with
      | false => simp [hpost]
      | true =>
        by_cases hover : site.allotted < r.uri.length + 1
        · have hfile : requested site mem host r.uri = .error .undefinedBehaviour := if_pos hover
          simp [hpost, hfile, Nat.not_le_of_lt hover]
        · have hfile : ∃ file, requested site mem host r.uri = .ok file := by
            unfold requested
            rw [if_neg hover, ← apply_ite Except.ok]
            exact ⟨_, rfl⟩
          obtain ⟨_ | ⟨content, _ | _⟩, hfile⟩ := hfile <;>
            simp [hpost, hfile, Nat.le_of_not_lt hover]

theorem mime_ne (suffix : List Byte) : mime suffix ≠ .error .undefinedBehaviour := by
  unfold mime
  dsimp only
  split_ifs <;> simp

theorem autoAdaptLoop_ne (mem : ℕ → Byte) (temp stop start : ℕ) :
    autoAdaptLoop mem temp stop start ≠ .error .undefinedBehaviour := by
  induction start generalizing stop with
  | zero => simp [autoAdaptLoop]
  | succ start ih =>
    unfold autoAdaptLoop
    split_ifs
    · exact mime_ne _
    · exact ih stop
    · exact ih (start + 1)

/-- Without a URI `AutoAdapt` reads through a null pointer. -/
theorem autoAdapt_ne_iff (mem : ℕ → Byte) (uri : ParsedHeader) :
    autoAdapt mem uri ≠ .error .undefinedBehaviour ↔ uri.header ≠ none := by
  unfold autoAdapt
  cases uri.header with
  | none => simp
  | some temp => exact iff_of_true (autoAdaptLoop_ne mem temp _ _) (Option.some_ne_none temp)

/-- `provide` is all or nothing exactly if nothing is copied past the end of its memory, and there
is no response to the request, no media type for it, no room for the status line, or room for
everything. -/
theorem allOrNothing_provide_iff (table : HeaderTable) (site : Site) (mem : ℕ → Byte)
    (r : HttpRequest) {w : WriteLoop} (hle : w.userBuffer.readSpot ≤ w.userBuffer.writeSpot) :
    AllOrNothing w (provide table site mem ⟨r, w⟩) ↔
      Inside table site mem r ∧ Sendable table site mem r w := by
  rw [provide_eq, ← respond_ne_iff]
  unfold Sendable
  cases hrespond : respond table site mem r with
  | error e => simp [AllOrNothing]
  | ok response =>
    have hdefined := autoAdapt_ne_iff mem r.uri
    cases htype : autoAdapt mem r.uri with
    | error e =>
      have hsend : response.send site mem ⟨r, w⟩ = .error e ⟨response.requestOf r, w⟩ :=
        response.send_of_error htype
      rw [htype] at hdefined
      dsimp only
      rw [hsend]
      simpa [AllOrNothing] using hdefined
    | ok type =>
      rw [htype] at hdefined
      have huri : r.uri.header ≠ none := hdefined.1 (by simp)
      dsimp only
      rw [Response.allOrNothing_send_iff hle htype]
      simp [huri]

/-- A response that fits is sent as a whole. -/
theorem allOrNothing_provide_iff_empty :
    AllOrNothing (.new 0 4048) (provide .sample indexSite plainMemory
        ⟨plainRequest, .new 0 4048⟩) ↔
      Inside .sample indexSite plainMemory plainRequest ∧
        Sendable .sample indexSite plainMemory plainRequest (.new 0 4048) :=
  allOrNothing_provide_iff _ _ _ _ le_rfl

/-- A write loop with 4000 bytes that have not been sent yet. -/
def nearlyFull : WriteLoop := { WriteLoop.new 0 4048 with
  userBuffer := { UserBuffer.new 4048 with writeSpot := 4000, writeSpot_le := by decide }
  que := [.send 4000] }

/-- The status line of the error page fits behind the 4000 bytes, and the next line does not. -/
theorem not_allOrNothing_nearlyFull : ¬ AllOrNothing nearlyFull
    (provide .sample .bare plainMemory ⟨plainRequest, nearlyFull⟩) := by
  have hrespond : respond .sample .bare plainMemory plainRequest = .ok .error := rfl
  have htype : autoAdapt plainMemory plainRequest.uri = .ok defaultMIME := rfl
  have hline : (statusLine (Response.error.requestOf plainRequest)).length = 26 := by
    decide +kernel
  have hsize : 48 < Response.error.size .bare plainRequest defaultMIME := by decide +kernel
  have hle : nearlyFull.userBuffer.readSpot ≤ nearlyFull.userBuffer.writeSpot := Nat.zero_le _
  rw [provide_eq]
  dsimp only
  rw [hrespond]
  dsimp only
  rw [Response.allOrNothing_send_iff hle htype]
  unfold Response.Whole
  rw [hline]
  have hbase : nearlyFull.base = 4000 := rfl
  have hroom : nearlyFull.userBuffer.bufferSize = 4048 := rfl
  have hspot : nearlyFull.userBuffer.writeSpot = 4000 := rfl
  omega

end REAProvider

end LWebServer
