import LWebServer.Http.Parser
import LWebServer.Library.Online

/-!
# The parser as an online machine

What `HttpParser` computes, without buffers and pointers: a machine that takes the bytes of the
stream one at a time and keeps the texts it has found. Where the parser takes a whole word from
its buffer, this machine collects the bytes of the word as they come. It is cut-independent by
construction; that the parser follows it is proved in `LWebServer.Http.Tracking`.
-/

namespace LWebServer

/-- The state of the machine. `word` holds the bytes of an unfinished word, and `consumed` counts
the bytes of the stream that belong to the head so far. -/
structure Scan where
  status : HttpParserStatus := .hpsOK
  fault : HttpParserFault := .hpfOK
  method : HttpRequestMethod := .hrInit
  word : List Byte := []
  uri : List Byte := []
  name : List Byte := []
  value : List Byte := []
  headers : List (List Byte × List Byte) := []
  contentLength : ℤ := 0
  vMajor : ℤ := 0
  vMinor : ℤ := 0
  setKa : HttpFlag := .keepAlive
  consumed : ℕ := 0

namespace Scan

open HttpParser (pushDigit)

/-- The state before a head. -/
def start (setKa : HttpFlag) (fault : HttpParserFault) : Scan := { setKa := setKa, fault := fault }

/-- Take the byte and go on in another state. -/
def enter (status : HttpParserStatus) (c : Scan) : Scan :=
  { c with status := status, consumed := c.consumed + 1 }

def stop (fault : HttpParserFault) (c : Scan) : Scan :=
  { c with status := .hpsGameOver, fault := fault, consumed := c.consumed + 1 }

/-- Take a byte of a word. A word that turns out wrong costs one byte more. -/
def feedWord (word : List Byte) (next : HttpParserStatus) (found : Scan → Scan)
    (fault : HttpParserFault) (c : Scan) (ch : Byte) : Scan :=
  let seen := c.word ++ [ch]
  if seen.length < word.length then { c with word := seen, consumed := c.consumed + 1 }
  else if seen = word then found { c with status := next, word := [], consumed := c.consumed + 1 }
  else { c with status := .hpsGameOver, fault := fault, word := [], consumed := c.consumed + 2 }

def feedMethod (word : String) (method : HttpRequestMethod) : Scan → Byte → Scan :=
  feedWord (text word) .hpsBetweenMU (fun c ↦ { c with method := method }) .hpfInvaildMethod

/-- A `Content-Length` value is read up to its first character that is not a digit. -/
def readLength (value : List Byte) (c : Scan) : Scan :=
  { c with
    contentLength := (value.takeWhile isDigit).foldl pushDigit c.contentLength
    fault := if value.all isDigit then c.fault else .hpfContentLength }

/-- The line just read is a header; `Connection` and `Content-Length` have an effect. -/
def storeLine (c : Scan) : Scan :=
  let stored := { c with headers := c.headers ++ [(c.name, c.value)], name := [], value := [] }
  let withLength (c' : Scan) :=
    enter .hpsLF (if c.name = HttpParser.contentLengthKey then c'.readLength c.value else c')
  if c.name = HttpParser.connectionKey then
    if c.value = HttpParser.keepAliveValue then withLength { stored with setKa := .keepAlive }
    else if c.value = HttpParser.closeValue then withLength { stored with setKa := .close }
    else stop .hpfSetConnection stored
  else withLength stored

/-- One byte of the stream. -/
def step (c : Scan) (ch : Byte) : Scan :=
  match c.status with
  | .hpsOK =>
    if ch = ascii 'G' then c.enter .hpsGet
    else if ch = ascii 'P' then c.enter .hpsPost
    else if ch = ascii 'O' then c.enter .hpsOption
    else if ch = ascii 'H' then c.enter .hpsHead
    else if ch = ascii 'D' then c.enter .hpsDelete
    else if ch = ascii ' ' then c.enter .hpsOK
    else c.stop .hpfInvaildMethod
  | .hpsOption => c.feedMethod "PTIONS" .hrOptions ch
  | .hpsGet => c.feedMethod "ET" .hrGet ch
  | .hpsHead => c.feedMethod "EAD" .hrHead ch
  | .hpsDelete => c.feedMethod "ELETE" .hrDelete ch
  | .hpsPost => c.feedMethod "OST" .hrPost ch
  | .hpsBetweenMU =>
    if ch = ascii ' ' then c.enter .hpsUriStart else c.stop .hpfBetweenMethodURINoBlank
  | .hpsUriStart =>
    if ch = ascii ' ' then c.enter .hpsUriStart
    else if isUri ch then enter .hpsUriParser { c with uri := [ch] }
    else c.stop .hpfInvaildUri
  | .hpsUriParser =>
    if isUri ch then enter .hpsUriParser { c with uri := c.uri ++ [ch] }
    else if ch = ascii ' ' then c.enter .hpsUriEnd
    else c.stop .hpfInvaildUri
  | .hpsUriEnd =>
    if c.word = [] ∧ ch = ascii ' ' then c.enter .hpsUriEnd
    else c.feedWord (text "HTTP/") .hpsVersionMajor id .hpfInvaildVersion ch
  | .hpsVersionMajor =>
    if isDigit ch then enter .hpsVersionMajor { c with vMajor := pushDigit c.vMajor ch }
    else if ch = ascii '.' then c.enter .hpsVersionMinor
    else c.stop .hpfInvaildVersion
  | .hpsVersionMinor =>
    if isDigit ch then enter .hpsVersionMinor { c with vMinor := pushDigit c.vMinor ch }
    else if ch = HttpParser.cr then c.enter .hpsVersionEnd
    else c.stop .hpfInvaildVersion
  | .hpsVersionEnd =>
    if c.vMajor ≠ 1 ∨ (c.vMinor ≠ 1 ∧ c.vMinor ≠ 0) then c.stop .hpfNoSupportVersion
    else if ch = HttpParser.lf then c.enter .hpsLF
    else c.stop .hpfInvaildVersion
  | .hpsLF =>
    if ch = HttpParser.cr then c.enter .hpsCRLFCR
    else if isHeader ch then enter .hpsHeader { c with name := [ch] }
    else c.stop .hpfInvaildHeader
  | .hpsCRLFCR => if ch = HttpParser.lf then c.stop .hpfContent else c.stop .hpfCRLFCR
  | .hpsHeader =>
    if isHeader ch then enter .hpsHeader { c with name := c.name ++ [ch] }
    else if ch = ascii ':' then c.enter .hpsColon
    else c.stop .hpfInvaildHeader
  | .hpsColon =>
    if ch = ascii ' ' then c.enter .hpsColon
    else if isValue ch then enter .hpsHeaderValue { c with value := [ch] }
    else c.stop .hpfInvaildHeader
  | .hpsHeaderValue =>
    if isValue ch then enter .hpsHeaderValue { c with value := c.value ++ [ch] }
    else if ch = HttpParser.cr then c.enter .hpsStoreHeader
    else c.stop .hpfInvaildHeaderValue
  | .hpsStoreHeader => c.storeLine
  | .hpsGameOver => c

/-- The machine after a piece of the stream. -/
def scan (c : Scan) (stream : List Byte) : Scan := Online.feed step c stream

/-- The parse is over, with success or not. -/
def ended (c : Scan) : Prop := c.status = .hpsGameOver

instance (c : Scan) : Decidable c.ended := inferInstanceAs (Decidable (_ = _))

@[simp]
theorem scan_nil (c : Scan) : c.scan [] = c := rfl

@[simp]
theorem scan_cons (c : Scan) (ch : Byte) (stream : List Byte) :
    c.scan (ch :: stream) = (c.step ch).scan stream := rfl

theorem scan_append (c : Scan) (first second : List Byte) :
    c.scan (first ++ second) = (c.scan first).scan second :=
  Online.feed_append step c first second

theorem scan_of_ended {c : Scan} (hended : c.ended) (stream : List Byte) : c.scan stream = c :=
  Online.feed_fixed (fun _ ↦ by rw [step, hended]) stream

/-! ## Words -/

/-- Inside a word, the bytes are collected until there are as many as the word has. -/
theorem scan_inside_word {word : List Byte} {next : HttpParserStatus} {found : Scan → Scan}
    {fault : HttpParserFault} {c : Scan}
    (hstep : ∀ seen k ch, seen ≠ [] → step { c with word := seen, consumed := k } ch =
      feedWord word next found fault { c with word := seen, consumed := k } ch)
    {seen rest : List Byte} (hseen : seen ≠ []) (k : ℕ)
    (hshort : seen.length < word.length) (hlength : (seen ++ rest).length ≤ word.length) :
    scan { c with word := seen, consumed := k } rest =
      if (seen ++ rest).length < word.length then
        { c with word := seen ++ rest, consumed := k + rest.length }
      else if seen ++ rest = word then
        found { c with status := next, word := [], consumed := k + rest.length }
      else { c with
        status := .hpsGameOver, fault := fault, word := [], consumed := k + rest.length + 1 } := by
  induction rest generalizing seen k with
  | nil => simp [hshort]
  | cons ch rest ih =>
    have hjoin : seen ++ ch :: rest = (seen ++ [ch]) ++ rest := by simp
    rw [hjoin] at hlength ⊢
    rw [scan_cons, hstep seen k ch hseen, feedWord]
    by_cases hmore : (seen ++ [ch]).length < word.length
    · rw [if_pos hmore, ih (by simp) (k + 1) hmore hlength]
      simp only [List.length_cons, Nat.add_assoc, Nat.add_comm 1 rest.length]
    · have hrest : rest = [] := by
        rw [← List.length_eq_zero_iff]
        simp only [List.length_append] at hlength hmore
        omega
      subst hrest
      rw [if_neg hmore, List.append_nil, if_neg hmore]
      split_ifs <;> simp

/-- A block no longer than the word, from the first byte of the word on. -/
theorem scan_word {word : List Byte} {next : HttpParserStatus} {found : Scan → Scan}
    {fault : HttpParserFault} {c : Scan} {ch : Byte} {rest : List Byte} (hword : c.word = [])
    (hfirst : step c ch = feedWord word next found fault c ch)
    (hstep : ∀ seen k ch, seen ≠ [] → step { c with word := seen, consumed := k } ch =
      feedWord word next found fault { c with word := seen, consumed := k } ch)
    (hlength : (ch :: rest).length ≤ word.length) :
    scan c (ch :: rest) =
      if (ch :: rest).length < word.length then
        { c with word := ch :: rest, consumed := c.consumed + (ch :: rest).length }
      else if ch :: rest = word then
        found { c with
          status := next, word := [], consumed := c.consumed + (ch :: rest).length }
      else { c with
        status := .hpsGameOver, fault := fault, word := []
        consumed := c.consumed + (ch :: rest).length + 1 } := by
  rw [scan_cons, hfirst, feedWord, hword, List.nil_append]
  by_cases hmore : [ch].length < word.length
  · rw [if_pos hmore, scan_inside_word hstep (by simp) _ hmore (by simpa using hlength)]
    simp only [List.singleton_append, List.length_cons, Nat.add_assoc, Nat.add_comm 1 rest.length]
  · have hrest : rest = [] := by
      rw [← List.length_eq_zero_iff]
      simp only [List.length_cons, List.length_nil] at hlength hmore
      omega
    subst hrest
    rw [if_neg hmore, if_neg hmore]
    split_ifs <;> simp

end Scan

/-! ## Shape of the machine's states -/

namespace HttpParserStatus

/-- The URI has not begun. -/
def beforeUri : HttpParserStatus → Bool
  | hpsOK | hpsGet | hpsPost | hpsOption | hpsHead | hpsDelete | hpsBetweenMU | hpsUriStart => true
  | _ => false

/-- A header name has been read and its line is not stored yet. -/
def inLine : HttpParserStatus → Bool
  | hpsHeader | hpsColon | hpsHeaderValue | hpsStoreHeader => true
  | _ => false

/-- A header value has been read and its line is not stored yet. -/
def inValue : HttpParserStatus → Bool
  | hpsHeaderValue | hpsStoreHeader => true
  | _ => false

end HttpParserStatus

namespace Scan

open HttpParserStatus

/-- Which texts are present in which state. -/
structure Shape (c : Scan) : Prop where
  uriEarly : c.status.beforeUri → c.uri = []
  uriOpen : c.status = .hpsUriParser → c.uri ≠ []
  nameOpen : c.status.inLine → c.name ≠ []
  nameIdle : c.status.inLine = false → ¬ c.ended → c.name = []
  valueOpen : c.status.inValue → c.value ≠ []
  valueIdle : c.status.inValue = false → ¬ c.ended → c.value = []
  nameChars : ∀ ch ∈ c.name, isHeader ch

theorem shape_start (setKa : HttpFlag) (fault : HttpParserFault) : (start setKa fault).Shape := by
  constructor <;> simp [start, inLine, inValue]

theorem shape_stop {c : Scan} (hchars : ∀ ch ∈ c.name, isHeader ch) (fault : HttpParserFault) :
    (c.stop fault).Shape := by
  constructor
  case nameChars => exact hchars
  all_goals simp [stop, ended, HttpParserStatus.beforeUri, HttpParserStatus.inLine,
    HttpParserStatus.inValue]

theorem shape_feedWord {word : List Byte} {next : HttpParserStatus} {found : Scan → Scan}
    {fault : HttpParserFault} {c : Scan} (hshape : c.Shape)
    (hended : ¬ c.ended) (huri : next.beforeUri → c.status.beforeUri)
    (hparser : next ≠ .hpsUriParser) (hline : c.status.inLine = false ∧ c.status.inValue = false)
    (hnext : next.inLine = false ∧ next.inValue = false)
    (hfound : ∀ c : Scan, c.Shape → (found c).Shape) (ch : Byte) :
    (c.feedWord word next found fault ch).Shape := by
  obtain ⟨hl, hv⟩ := hline
  obtain ⟨hnl, hnv⟩ := hnext
  unfold feedWord
  dsimp only
  split_ifs
  · exact ⟨hshape.uriEarly, hshape.uriOpen, hshape.nameOpen, hshape.nameIdle, hshape.valueOpen,
      hshape.valueIdle, hshape.nameChars⟩
  · apply hfound
    exact ⟨fun h ↦ hshape.uriEarly (huri h), fun h ↦ absurd h hparser, by simp [hnl],
      fun _ _ ↦ hshape.nameIdle hl hended, by simp [hnv], fun _ _ ↦ hshape.valueIdle hv hended,
      hshape.nameChars⟩
  · constructor
    case nameChars => exact hshape.nameChars
    all_goals simp [ended, beforeUri, inLine, inValue]

theorem shape_enter {c : Scan} {status : HttpParserStatus}
    (huri : status.beforeUri → c.uri = []) (hopen : status = .hpsUriParser → c.uri ≠ [])
    (hname : c.name = [] ↔ status.inLine = false) (hvalue : c.value = [] ↔ status.inValue = false)
    (hchars : ∀ ch ∈ c.name, isHeader ch) : (c.enter status).Shape where
  uriEarly := huri
  uriOpen := hopen
  nameOpen h := by
    have h' : status.inLine = true := h
    simp [enter, hname, h']
  nameIdle h _ := hname.mpr h
  valueOpen h := by
    have h' : status.inValue = true := h
    simp [enter, hvalue, h']
  valueIdle h _ := hvalue.mpr h
  nameChars := hchars

theorem shape_step {c : Scan} (hshape : c.Shape) (ch : Byte) : (c.step ch).Shape := by
  have hname : ¬ c.ended → (c.name = [] ↔ c.status.inLine = false) := fun hended ↦
    ⟨fun h ↦ by by_contra hne; exact hshape.nameOpen (by simpa using hne) h,
      fun h ↦ hshape.nameIdle h hended⟩
  have hvalue : ¬ c.ended → (c.value = [] ↔ c.status.inValue = false) := fun hended ↦
    ⟨fun h ↦ by by_contra hne; exact hshape.valueOpen (by simpa using hne) h,
      fun h ↦ hshape.valueIdle h hended⟩
  have huri := hshape.uriEarly
  have hopen := hshape.uriOpen
  have hchars := hshape.nameChars
  unfold ended at hname hvalue
  cases hstatus : c.status <;> rw [hstatus] at hname hvalue huri hopen <;>
    simp only [beforeUri, inLine, inValue] at hname hvalue huri hopen <;>
    simp only [step, hstatus]
  case hpsGameOver => exact hshape
  case hpsOption | hpsGet | hpsHead | hpsDelete | hpsPost =>
    unfold feedMethod
    apply shape_feedWord hshape
    case hfound => exact fun _ h ↦ ⟨h.1, h.2, h.3, h.4, h.5, h.6, h.7⟩
    all_goals simp [ended, hstatus, beforeUri, inLine, inValue]
  case hpsUriEnd =>
    split_ifs
    · apply shape_enter <;> simp_all [beforeUri, inLine, inValue]
    · apply shape_feedWord hshape
      case hfound => exact fun _ h ↦ h
      all_goals simp [ended, hstatus, beforeUri, inLine, inValue]
  case hpsStoreHeader =>
    unfold storeLine
    dsimp only
    split_ifs
    all_goals first
      | apply shape_stop <;> simp
      | apply shape_enter <;> simp_all [beforeUri, inLine, inValue, readLength]
  all_goals
    split_ifs
    all_goals first
      | exact shape_stop hchars _
      | apply shape_enter <;> simp_all [beforeUri, inLine, inValue, or_imp]

/-! ## Steps -/

/-- Success is the end of the parse. -/
def Unsettled (c : Scan) : Prop := ¬ c.ended → c.fault ≠ .hpfContent

/-- What a byte does to the position and to success. -/
structure Proceeding (c c' : Scan) : Prop where
  consumed_le : c.consumed ≤ c'.consumed
  unsettled : c.fault ≠ .hpfContent → c'.Unsettled

theorem proceeding_enter {c c' : Scan} (hconsumed : c'.consumed = c.consumed)
    (hfault : c'.fault = c.fault) (status : HttpParserStatus) :
    Proceeding c (c'.enter status) where
  consumed_le := by simp [enter, hconsumed]
  unsettled hsome _ := hfault.trans_ne hsome

theorem proceeding_stop {c c' : Scan} (hconsumed : c'.consumed = c.consumed)
    (fault : HttpParserFault) : Proceeding c (c'.stop fault) where
  consumed_le := by simp [stop, hconsumed]
  unsettled _ hopen := absurd rfl hopen

theorem proceeding_feedWord {word : List Byte} {next : HttpParserStatus} {fault : HttpParserFault}
    (g : HttpRequestMethod → HttpRequestMethod) (c : Scan) (ch : Byte) : Proceeding c
      (c.feedWord word next (fun c ↦ { c with method := g c.method }) fault ch) := by
  unfold feedWord
  dsimp only
  split_ifs
  · exact ⟨Nat.le_succ _, fun hsome _ ↦ hsome⟩
  · exact ⟨Nat.le_succ _, fun hsome _ ↦ hsome⟩
  · exact ⟨Nat.le_add_right _ 2, fun _ hopen ↦ absurd rfl hopen⟩

theorem proceeding_step (c : Scan) (ch : Byte) : Proceeding c (c.step ch) := by
  cases hstatus : c.status <;> simp only [step, hstatus]
  case hpsGet | hpsPost | hpsOption | hpsHead | hpsDelete =>
    exact proceeding_feedWord (fun _ ↦ _) c ch
  case hpsUriEnd =>
    split_ifs
    · apply proceeding_enter <;> rfl
    · exact proceeding_feedWord id c ch
  case hpsStoreHeader =>
    unfold storeLine readLength
    dsimp only
    split_ifs
    all_goals first
      | exact proceeding_stop rfl _
      | (apply proceeding_enter <;> rfl)
      | exact ⟨Nat.le_succ _, fun _ _ ↦ HttpParserFault.noConfusion⟩
  case hpsGameOver => exact ⟨le_rfl, fun _ hopen ↦ absurd hstatus hopen⟩
  all_goals
    split_ifs
    all_goals first
      | exact proceeding_stop rfl _
      | (apply proceeding_enter <;> rfl)

theorem unsettled_step {c : Scan} (hunsettled : c.Unsettled) (ch : Byte) :
    (c.step ch).Unsettled := by
  by_cases hended : c.ended
  · rwa [step, show c.status = _ from hended]
  · exact (proceeding_step c ch).unsettled (hunsettled hended)

theorem unsettled_scan {c : Scan} (hunsettled : c.Unsettled) (stream : List Byte) :
    (c.scan stream).Unsettled :=
  Online.feed_invariant hunsettled (fun _ ch h ↦ unsettled_step h ch) stream

theorem consumed_le_scan (c : Scan) (stream : List Byte) :
    c.consumed ≤ (c.scan stream).consumed :=
  @Online.feed_invariant Scan Byte step (fun c' ↦ c.consumed ≤ c'.consumed) c le_rfl
    (fun _ ch h ↦ h.trans (proceeding_step _ ch).consumed_le) stream

end Scan

end LWebServer
