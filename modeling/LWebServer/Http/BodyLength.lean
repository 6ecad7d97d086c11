import LWebServer.Http.Answer
import LWebServer.Http.ResponseHead
import LWebServer.Library.Span

/-!
# The announced length and the body

`Content-Length` is computed from the size of a file, of a FastCGI answer or of the error page. What
is queued behind the head is always longer.
-/

namespace LWebServer

open WriteLoop Provider

/-! ## Decimal numerals -/

namespace Provider

theorem toNat_of_isDigit {c : Char} (hc : c.isDigit = true) : 48 ≤ c.toNat ∧ c.toNat ≤ 57 := by
  simp only [Char.isDigit, Bool.and_eq_true, decide_eq_true_eq, UInt32.le_iff_toNat_le] at hc
  exact hc

theorem toNat_ascii {c : Char} (hc : c.isDigit = true) : (ascii c).toNat = c.toNat := by
  have hupper := (toNat_of_isDigit hc).2
  simp only [ascii, UInt8.toNat_ofNat']
  omega

theorem decimal_eq (n : ℕ) : decimal n = (Nat.toDigits 10 n).map ascii :=
  congrArg (List.map ascii) Nat.toList_repr

theorem decimal_ne (n : ℕ) : decimal n ≠ [] := by
  rw [decimal_eq]
  simp [Nat.toDigits_ne_nil]

theorem isDigit_of_mem_decimal {n : ℕ} {ch : Byte} (hch : ch ∈ decimal n) :
    isDigit ch = true := by
  rw [decimal_eq] at hch
  obtain ⟨c, hmem, rfl⟩ := List.mem_map.mp hch
  have hc := Nat.isDigit_of_mem_toDigits (by decide) (by decide) hmem
  unfold isDigit
  rw [Bool.and_eq_true, decide_eq_true_eq, decide_eq_true_eq, UInt8.le_iff_toNat_le,
    UInt8.le_iff_toNat_le, toNat_ascii hc]
  exact toNat_of_isDigit hc

theorem decimal_inj {m n : ℕ} (heq : decimal m = decimal n) : m = n := by
  have hread (n : ℕ) : (decimal n).map (fun ch ↦ Char.ofNat ch.toNat) = Nat.toDigits 10 n := by
    rw [decimal_eq, List.map_map]
    refine (List.map_congr_left fun c hmem ↦ ?_).trans (List.map_id _)
    have hc := Nat.isDigit_of_mem_toDigits (by decide) (by decide) hmem
    simp only [Function.comp_apply, toNat_ascii hc, Char.ofNat_toNat, id_eq]
  calc
    m = Nat.ofDigitChars 10 (Nat.toDigits 10 m) 0 := Nat.ofDigitChars_ten_toDigits.symm
    _ = Nat.ofDigitChars 10 (Nat.toDigits 10 n) 0 := by rw [← hread m, heq, hread n]
    _ = n := Nat.ofDigitChars_ten_toDigits

/-- Followed by a line feed, a numeral is read back from what is found in the buffer. -/
theorem decimal_of_shown {m n : ℕ} {shown rest rest' : List Byte} (hshown : Shown (decimal m) shown)
    (heq : shown ++ ascii '\n' :: rest = decimal n ++ ascii '\n' :: rest') : m = n := by
  rcases hshown with rfl | ⟨init, last, hsplit, rfl⟩
  · have hdigits := Span.append_cons_inj isDigit (fun _ ↦ isDigit_of_mem_decimal)
      (fun _ ↦ isDigit_of_mem_decimal) (by decide) (by decide) heq
    exact decimal_inj hdigits.1
  · have hinit : ∀ ch ∈ init, isDigit ch = true := by
      intro ch hch
      apply @isDigit_of_mem_decimal m
      rw [hsplit]
      exact List.mem_append_left _ hch
    rw [List.append_assoc] at heq
    have hdigits := Span.append_cons_inj isDigit hinit (fun _ ↦ isDigit_of_mem_decimal)
      (by decide) (by decide) heq
    exact absurd hdigits.2.1 (by decide)

/-- Two texts that begin with the same piece go on alike. -/
theorem shown_peel {piece : Piece} {pieces : List Piece} {shown rest rest' : List Byte}
    {showns : List (List Byte)} (hshown : Shown piece.characters shown)
    (heq : (shown :: showns).flatten ++ rest = characters (piece :: pieces) ++ rest') :
    showns.flatten ++ rest = characters pieces ++ rest' := by
  rw [List.flatten_cons, characters_cons, List.append_assoc, List.append_assoc] at heq
  exact List.append_inj_right heq hshown.length_eq

/-- A printed head announces one length. -/
theorem announced_unique {site : Site} {r : HttpRequest} {m n : ℕ} {type rest rest' : List Byte}
    {showns : List (List Byte)}
    (hshowns : List.Forall₂ (fun piece shown ↦ Shown (Piece.characters piece) shown)
      (headPieces site r m type) showns)
    (heq : showns.flatten ++ rest = characters (headPieces site r n type) ++ rest') : m = n := by
  obtain _ | ⟨h₁, _ | ⟨h₂, _ | ⟨h₃, _ | ⟨h₄, _ | ⟨h₅, _ | ⟨h₆, _ | ⟨h₇, _ | _⟩⟩⟩⟩⟩⟩⟩ := hshowns
  have hlength := shown_peel h₅ (shown_peel h₄ (shown_peel h₃ (shown_peel h₂ (shown_peel h₁ heq))))
  obtain ⟨digits, rfl, hdigits⟩ := Shown.append (decimal_ne m) h₆
  obtain ⟨language, rfl, -⟩ := Shown.cons (by decide) h₇
  simp only [characters_cons, Piece.characters_formatted, List.flatten_cons,
    List.append_assoc] at hlength
  exact decimal_of_shown hdigits (List.append_cancel_left hlength)

end Provider

/-! ## What is delivered -/

/-- The number of bytes that a task delivers. -/
def Task.amount (w : WriteLoop) : Task → ℕ
  | .send length => length
  | .sendReadable => w.userBuffer.readable
  | .sendFile ptr => ptr.length - ptr.offest

namespace Response

/-- The number of bytes behind the head and its end. -/
def bodyLength (response : Response) : ℕ :=
  (characters response.body).length +
    match response.file with
    | none => 0
    | some file => file.length - file.offest + crlfPiece.characters.length

/-- What a response that has been sent has put into the output buffer and into the queue. -/
structure Delivered (response : Response) (site : Site) (type : List Byte) (a a' : Answering)
    (showns : List (List Byte)) (rest : List Byte) (tasks : List Task) : Prop where
  request : a'.request = response.requestOf a.request
  shown : List.Forall₂ (fun piece shown ↦ Shown (Piece.characters piece) shown)
    (headPieces site a'.request response.contentLength type) showns
  written : written a a' = showns.flatten ++ rest
  que : a'.writeLoop.que = a.writeLoop.que ++ tasks
  amount : (tasks.map (Task.amount a'.writeLoop)).sum =
    (characters (headPieces site a'.request response.contentLength type)).length +
      crlfPiece.characters.length + response.bodyLength

theorem send_delivers (response : Response) {site : Site} {mem : ℕ → Byte} {a a' : Answering}
    (hle : a.writeLoop.userBuffer.readSpot ≤ a.writeLoop.userBuffer.writeSpot)
    (hsend : response.send site mem a = .ok () a') : ∃ type showns rest tasks,
      autoAdapt mem a.request.uri = .ok type ∧
        response.Delivered site type a a' showns rest tasks := by
  cases htype : autoAdapt mem a.request.uri with
  | error e =>
    rw [response.send_of_error htype] at hsend
    cases hsend
  | ok type =>
    rw [response.send_of_ok htype] at hsend
    cases hput : putAll (response.pieces site (response.requestOf a.request) type) a.writeLoop with
    | error e w =>
      rw [hput] at hsend
      cases hsend
    | ok n w =>
      rw [hput] at hsend
      dsimp only at hsend
      obtain ⟨first, w₁, second, hhead, hbody, rfl⟩ := putAll_append hput
      obtain ⟨hfirst, showns, hshowns, hfilled⟩ := putAll_shows hle hhead
      obtain ⟨hsecond, bodies, -, hfilled'⟩ := putAll_shows hfilled.appended.readSpot_le hbody
      have hunread : w.userBuffer.unread =
          a.writeLoop.userBuffer.unread ++ (showns.flatten ++ bodies.flatten) := by
        rw [hfilled'.appended.unread, hfilled.appended.unread, List.append_assoc]
      have hque : w.que = a.writeLoop.que := hfilled'.que.trans hfilled.que
      have hcount : first + second = (characters (headPieces site (response.requestOf a.request)
          response.contentLength type)).length + crlfPiece.characters.length +
            (characters response.body).length := by
        rw [hfirst, hsecond, characters_cons, List.length_append, Nat.add_assoc]
      cases hfile : response.file with
      | none =>
        rw [attach_none hfile] at hsend
        cases hsend
        refine ⟨type, showns, bodies.flatten, [.send (first + second)], rfl, rfl, hshowns, ?_, ?_,
          ?_⟩
        · change w.userBuffer.unread.drop _ = _
          rw [hunread, List.drop_left]
        · change w.que ++ _ = _
          rw [hque]
        · simp only [bodyLength, hfile, List.map_cons, List.map_nil, List.sum_cons, List.sum_nil,
            Task.amount, Nat.add_zero]
          rw [hcount]
      | some file =>
        rw [attach_some hfile] at hsend
        dsimp only at hsend
        cases hline : put crlfPiece ((w.addSend (first + second)).addSendFile file) with
        | error e w₂ =>
          rw [hline] at hsend
          cases hsend
        | ok m w₂ =>
          rw [hline] at hsend
          cases hsend
          have hle' : ((w.addSend (first + second)).addSendFile file).userBuffer.readSpot ≤
              ((w.addSend (first + second)).addSendFile file).userBuffer.writeSpot :=
            hfilled'.appended.readSpot_le
          obtain ⟨hm, line, -, hfilled''⟩ := put_shows hle' hline
          have hunread' : w₂.userBuffer.unread = a.writeLoop.userBuffer.unread ++
              (showns.flatten ++ (bodies.flatten ++ line)) := by
            refine hfilled''.appended.unread.trans ?_
            change w.userBuffer.unread ++ line = _
            rw [hunread, List.append_assoc, List.append_assoc]
          have hque' : w₂.que = a.writeLoop.que ++ [.send (first + second), .sendFile file] := by
            refine hfilled''.que.trans ?_
            change w.que ++ [.send (first + second)] ++ [.sendFile file] = _
            rw [hque, List.append_assoc]
            rfl
          refine ⟨type, showns, bodies.flatten ++ line,
            [.send (first + second), .sendFile file, .send m], rfl, rfl, hshowns, ?_, ?_, ?_⟩
          · change w₂.userBuffer.unread.drop _ = _
            rw [hunread', List.drop_left]
          · change w₂.que ++ [.send m] = _
            rw [hque', List.append_assoc]
            rfl
          · simp only [bodyLength, hfile, List.map_cons, List.map_nil, List.sum_cons, List.sum_nil,
              Task.amount, Nat.add_zero]
            rw [hcount, hm]
            omega

end Response

namespace REAProvider

variable {table : HeaderTable} {site : Site} {mem : ℕ → Byte}

/-- Every response has more behind its head than it announces. -/
theorem contentLength_lt_bodyLength {r : HttpRequest} {response : Response}
    (hrespond : respond table site mem r = .ok response) :
    response.contentLength < response.bodyLength := by
  have herror : Response.error.contentLength < Response.error.bodyLength := by decide
  have hcontent (content : List Byte) : (Response.ofContent content).contentLength <
      (Response.ofContent content).bodyLength := by
    simp [Response.ofContent, Response.bodyLength, crlfPiece, text]
  have hfile (content : List Byte) : (Response.ofFile content).contentLength <
      (Response.ofFile content).bodyLength := by
    simp [Response.ofFile, Response.bodyLength, FileReader.length, crlfPiece, text]
  unfold respond at hrespond
  by_cases hpost : r.method = .hrPost
  · rw [if_pos hpost] at hrespond
    cases hhost : r.getValue table mem (text "Host") with
    | none => simp [hhost] at hrespond
    | some host =>
      cases hcgi : cgiContent site mem host r.uri with
      | error e => simp [hhost, hcgi] at hrespond
      | ok content =>
        simp only [hhost, hcgi, Except.ok.injEq] at hrespond
        rw [← hrespond]
        split_ifs
        · exact hcontent content
        · exact herror
  · rw [if_neg hpost] at hrespond
    by_cases hgood : r.requestGood = false
    · rw [if_pos hgood] at hrespond
      cases hrespond
      exact herror
    · rw [if_neg hgood] at hrespond
      cases hhost : r.getValue table mem (text "Host") with
      | none => simp [hhost] at hrespond
      | some host =>
        rcases hrequested : requested site mem host r.uri with e | _ | ⟨content, _ | _⟩
        · simp [hhost, hrequested] at hrespond
        · simp only [hhost, hrequested, Except.ok.injEq] at hrespond
          rw [← hrespond]
          exact herror
        · simp only [hhost, hrequested, Except.ok.injEq] at hrespond
          rw [← hrespond]
          exact hfile content
        · simp only [hhost, hrequested, Except.ok.injEq] at hrespond
          rw [← hrespond]
          exact herror

/-- The length that `Content-Length` announces is the number of bytes that the new tasks deliver
behind the head and its end. -/
def Agrees (site : Site) (mem : ℕ → Byte) (a a' : Answering) : Prop :=
  ∃ n type rest tasks, autoAdapt mem a.request.uri = .ok type ∧
    written a a' = characters (headPieces site a'.request n type) ++ rest ∧
    a'.writeLoop.que = a.writeLoop.que ++ tasks ∧
    (tasks.map (Task.amount a'.writeLoop)).sum =
      (characters (headPieces site a'.request n type)).length + crlfPiece.characters.length + n

theorem delivered_of_provide {a a' : Answering}
    (hle : a.writeLoop.userBuffer.readSpot ≤ a.writeLoop.userBuffer.writeSpot)
    (hprovide : provide table site mem a = .ok () a') : ∃ response type showns rest tasks,
      respond table site mem a.request = .ok response ∧ autoAdapt mem a.request.uri = .ok type ∧
        response.Delivered site type a a' showns rest tasks := by
  rw [provide_eq] at hprovide
  cases hrespond : respond table site mem a.request with
  | error e =>
    rw [hrespond] at hprovide
    cases hprovide
  | ok response =>
    rw [hrespond] at hprovide
    obtain ⟨type, showns, rest, tasks, hsent⟩ := response.send_delivers hle hprovide
    exact ⟨response, type, showns, rest, tasks, rfl, hsent⟩

/-- Where the lengths agree, the response has as much behind its head as it announces. -/
theorem Agrees.bodyLength_eq {a a' : Answering} (hagrees : Agrees site mem a a')
    {response : Response} {type rest : List Byte} {showns : List (List Byte)} {tasks : List Task}
    (htype : autoAdapt mem a.request.uri = .ok type)
    (hdelivered : response.Delivered site type a a' showns rest tasks) :
    response.bodyLength = response.contentLength := by
  obtain ⟨n, type', rest', tasks', htype', hwritten, hque, hamount⟩ := hagrees
  obtain rfl : type = type' := Except.ok.inj (htype.symm.trans htype')
  obtain rfl := announced_unique hdelivered.shown (hdelivered.written.symm.trans hwritten)
  obtain rfl : tasks = tasks' := List.append_cancel_left (hdelivered.que.symm.trans hque)
  exact Nat.add_left_cancel (hdelivered.amount.symm.trans hamount)

/-- The announced length is never that of the body. -/
theorem not_agrees {a a' : Answering}
    (hle : a.writeLoop.userBuffer.readSpot ≤ a.writeLoop.userBuffer.writeSpot)
    (hprovide : provide table site mem a = .ok () a') : ¬ Agrees site mem a a' := by
  obtain ⟨response, type, showns, rest, tasks, hrespond, htype, hdelivered⟩ :=
    delivered_of_provide hle hprovide
  intro hagrees
  exact absurd (hagrees.bodyLength_eq htype hdelivered) (contentLength_lt_bodyLength hrespond).ne'

/-- A request for `/` on a host, whose URI and `Host` stand in a row in the buffer. -/
def plainRequest : HttpRequest where
  versionMajor := 1
  versionMinor := 1
  contentLength := 0
  statusCode := .hscInit
  method := .hrGet
  flag := .keepAlive
  fault := .hpfContent
  uri := ⟨some 0, 1⟩
  requestBuffer := true
  headerValue := [(⟨some 1, 4⟩, ⟨some 5, 1⟩)]

/-- The bytes that `plainRequest` points to. -/
def plainMemory : ℕ → Byte := Memory.store (fun _ ↦ 0) 0 (text "/Hosta")

/-- A world with an index page of five bytes. -/
def indexSite : Site := { Site.bare with index := some ⟨text "hello", false⟩ }

theorem returns_plain (site : Site)
    (hreturns : returns .sample site plainMemory ⟨plainRequest, .new 0 4048⟩ = true) :
    ∃ a', provide .sample site plainMemory ⟨plainRequest, .new 0 4048⟩ = .ok () a' :=
  ok_of_returns hreturns

theorem not_agrees_indexPage : ∃ a',
    provide .sample indexSite plainMemory ⟨plainRequest, .new 0 4048⟩ = .ok () a' ∧
      ¬ Agrees indexSite plainMemory ⟨plainRequest, .new 0 4048⟩ a' := by
  obtain ⟨a', hprovide⟩ := returns_plain indexSite (by decide +kernel)
  exact ⟨a', hprovide, not_agrees (Nat.zero_le _) hprovide⟩

/-- The error page announces 53 bytes and has 54. -/
theorem not_agrees_errorPage : ∃ a',
    provide .sample .bare plainMemory ⟨plainRequest, .new 0 4048⟩ = .ok () a' ∧
      ¬ Agrees .bare plainMemory ⟨plainRequest, .new 0 4048⟩ a' := by
  obtain ⟨a', hprovide⟩ := returns_plain .bare (by decide +kernel)
  obtain ⟨response, type, showns, rest, tasks, hrespond, htype, hdelivered⟩ :=
    delivered_of_provide (Nat.zero_le _) hprovide
  refine ⟨a', hprovide, fun hagrees ↦ ?_⟩
  exact absurd (hagrees.bodyLength_eq htype hdelivered) (contentLength_lt_bodyLength hrespond).ne'

end REAProvider

end LWebServer
