import LWebServer.Http.Grammar

/-!
# The machine reads a head

Fed the text of an accepted head, the machine ends in success, with the parts of the head and with
exactly its bytes consumed.
-/

namespace LWebServer

open HttpParser

namespace Scan

theorem scan_blanks {c : Scan}
    (hloop : ∀ k, step { c with consumed := k } (ascii ' ') = { c with consumed := k + 1 })
    (n : ℕ) : c.scan (blanks n) = { c with consumed := c.consumed + n } := by
  have h := Online.feed_collect step (fun acc ↦ { c with consumed := c.consumed + acc.length })
    (fun ch ↦ ch = ascii ' ') (blanks n) ?_ [] fun ch hch ↦ List.eq_of_mem_replicate hch
  · simpa [scan] using h
  · rintro acc ch rfl
    simp [hloop, Nat.add_assoc]

theorem foldl_pushDigit (x : ℤ) (digits : List Byte) :
    digits.foldl pushDigit x = (digits.map fun ch ↦ ch.toNat - 48).foldl (Decimal.push 32) x := by
  rw [List.foldl_map]
  rfl

theorem foldl_pushDigit_zero (digits : List Byte) :
    digits.foldl pushDigit 0 = Decimal.wrap 32 (numeral digits) := by
  rw [foldl_pushDigit, Decimal.foldl_push, numeral]

/-- A word whose bytes come one by one. -/
theorem scan_method {c : Scan} (hstatus : c.status = .hpsOK) (hword : c.word = [])
    {method : HttpRequestMethod} (hknown : method.word ≠ []) : c.scan method.word =
      { c with
        status := .hpsBetweenMU, method := method
        consumed := c.consumed + method.word.length } := by
  cases method <;> first | exact absurd rfl hknown | skip
  all_goals
    simp [HttpRequestMethod.word, text, scan_cons, step, hstatus, enter, ascii, feedMethod,
      feedWord, hword]

theorem ne_blank_of_isUri {ch : Byte} (hch : isUri ch = true) : ch ≠ ascii ' ' := by
  rintro rfl
  revert hch
  decide

theorem scan_uri {c : Scan} (hstatus : c.status = .hpsUriStart)
    {uri : List Byte} (hne : uri ≠ []) (hchars : ∀ ch ∈ uri, isUri ch) : c.scan uri =
      { c with status := .hpsUriParser, uri := uri, consumed := c.consumed + uri.length } := by
  obtain ⟨ch, rest, rfl⟩ := List.exists_cons_of_ne_nil hne
  have hch : isUri ch := hchars ch List.mem_cons_self
  have hfirst : c.step ch =
      { c with status := .hpsUriParser, uri := [ch], consumed := c.consumed + 1 } := by
    simp [step, hstatus, hch, ne_blank_of_isUri hch, enter]
  have h := Online.feed_collect step (fun acc ↦ { c with
      status := .hpsUriParser, uri := acc, consumed := c.consumed + acc.length })
    (fun ch ↦ isUri ch = true) rest ?_ [ch]
    fun ch hch ↦ hchars ch (List.mem_cons_of_mem _ hch)
  · rw [scan_cons, hfirst]
    simpa [scan] using h
  · intro acc ch hch
    simp [step, hch, enter, Nat.add_assoc]


theorem scan_major {c : Scan} (hstatus : c.status = .hpsVersionMajor) {digits : List Byte}
    (hdigits : ∀ ch ∈ digits, isDigit ch) : c.scan digits =
      { c with
        vMajor := digits.foldl pushDigit c.vMajor, consumed := c.consumed + digits.length } := by
  have h := Online.feed_collect step (fun acc ↦ { c with
      vMajor := acc.foldl pushDigit c.vMajor, consumed := c.consumed + acc.length })
    (fun ch ↦ isDigit ch = true) digits ?_ [] hdigits
  · simpa [scan] using h
  · intro acc ch hch
    simp [step, hstatus, hch, enter, Nat.add_assoc]

theorem scan_minor {c : Scan} (hstatus : c.status = .hpsVersionMinor) {digits : List Byte}
    (hdigits : ∀ ch ∈ digits, isDigit ch) : c.scan digits =
      { c with
        vMinor := digits.foldl pushDigit c.vMinor, consumed := c.consumed + digits.length } := by
  have h := Online.feed_collect step (fun acc ↦ { c with
      vMinor := acc.foldl pushDigit c.vMinor, consumed := c.consumed + acc.length })
    (fun ch ↦ isDigit ch = true) digits ?_ [] hdigits
  · simpa [scan] using h
  · intro acc ch hch
    simp [step, hstatus, hch, enter, Nat.add_assoc]

theorem scan_name {c : Scan} (hstatus : c.status = .hpsLF)
    {name : List Byte} (hne : name ≠ []) (hchars : ∀ ch ∈ name, isHeader ch) : c.scan name =
      { c with status := .hpsHeader, name := name, consumed := c.consumed + name.length } := by
  obtain ⟨ch, rest, rfl⟩ := List.exists_cons_of_ne_nil hne
  have hch : isHeader ch := hchars ch List.mem_cons_self
  have hcr : ch ≠ cr := by
    rintro rfl
    revert hch
    decide
  have hfirst : c.step ch =
      { c with status := .hpsHeader, name := [ch], consumed := c.consumed + 1 } := by
    simp [step, hstatus, hch, hcr, enter]
  have h := Online.feed_collect step (fun acc ↦ { c with
      status := .hpsHeader, name := acc, consumed := c.consumed + acc.length })
    (fun ch ↦ isHeader ch = true) rest ?_ [ch]
    fun ch hch ↦ hchars ch (List.mem_cons_of_mem _ hch)
  · rw [scan_cons, hfirst]
    simpa [scan] using h
  · intro acc ch hch
    simp [step, hch, enter, Nat.add_assoc]

theorem scan_value {c : Scan} (hstatus : c.status = .hpsColon)
    {value : List Byte} (hne : value ≠ []) (hchars : ∀ ch ∈ value, isValue ch)
    (htrimmed : value.head? ≠ some (ascii ' ')) : c.scan value =
      { c with
        status := .hpsHeaderValue, value := value
        consumed := c.consumed + value.length } := by
  obtain ⟨ch, rest, rfl⟩ := List.exists_cons_of_ne_nil hne
  have hch : isValue ch := hchars ch List.mem_cons_self
  have hblank : ch ≠ ascii ' ' := by simpa using htrimmed
  have hfirst : c.step ch =
      { c with status := .hpsHeaderValue, value := [ch], consumed := c.consumed + 1 } := by
    simp [step, hstatus, hch, hblank, enter]
  have h := Online.feed_collect step (fun acc ↦ { c with
      status := .hpsHeaderValue, value := acc, consumed := c.consumed + acc.length })
    (fun ch ↦ isValue ch = true) rest ?_ [ch]
    fun ch hch ↦ hchars ch (List.mem_cons_of_mem _ hch)
  · rw [scan_cons, hfirst]
    simpa [scan] using h
  · intro acc ch hch
    simp [step, hch, enter, Nat.add_assoc]

/-- A whole header line is read and then stored. -/
theorem scan_line {c : Scan} (hstatus : c.status = .hpsLF) {l : HeaderLine}
    (htrimmed : l.Trimmed) : c.scan l.encode = storeLine { c with
      status := .hpsStoreHeader, name := l.name, value := l.value
      consumed := c.consumed + (l.encode.length - 1) } := by
  unfold HeaderLine.encode
  rw [scan_append, scan_name hstatus l.name_ne l.name_chars, scan_cons, List.append_assoc,
    scan_append]
  have hcolon : isHeader (ascii ':') = false := by decide
  have hcr : isValue cr = false := by decide
  simp only [step, hcolon, Bool.false_eq_true, if_false, if_true, enter]
  rw [scan_blanks (fun _ ↦ by simp [step, enter]), scan_append,
    scan_value rfl l.value_ne l.value_chars htrimmed]
  simp only [scan_cons, scan_nil, step, hcr, Bool.false_eq_true, if_false, if_true, enter]
  congr 2
  simp
  omega

/-- The blanks between two parts, of which the first ends the part before. -/
theorem scan_gap {c : Scan} (hstatus : c.status = .hpsBetweenMU) (gap : ℕ) :
    c.scan (blanks (gap + 1)) =
      { c with status := .hpsUriStart, consumed := c.consumed + (gap + 1) } := by
  have hfirst : c.step (ascii ' ') =
      { c with status := .hpsUriStart, consumed := c.consumed + 1 } := by
    simp [step, hstatus, enter]
  rw [blanks, List.replicate_succ, ← blanks, scan_cons, hfirst,
    scan_blanks (fun _ ↦ by simp [step, enter]) gap]
  simp [Nat.add_comm, Nat.add_left_comm]

theorem scan_gap' {c : Scan} (hstatus : c.status = .hpsUriParser) (hword : c.word = []) (gap : ℕ) :
    c.scan (blanks (gap + 1)) =
      { c with status := .hpsUriEnd, consumed := c.consumed + (gap + 1) } := by
  have hblank : isUri (ascii ' ') = false := by decide
  have hfirst : c.step (ascii ' ') =
      { c with status := .hpsUriEnd, consumed := c.consumed + 1 } := by
    simp [step, hstatus, enter, hblank]
  rw [blanks, List.replicate_succ, ← blanks, scan_cons, hfirst,
    scan_blanks (fun _ ↦ by simp [step, enter, hword]) gap]
  simp [Nat.add_comm, Nat.add_left_comm]

theorem scan_http {c : Scan} (hstatus : c.status = .hpsUriEnd) (hword : c.word = []) :
    c.scan (text "HTTP/") =
      { c with status := .hpsVersionMajor, consumed := c.consumed + 5 } := by
  simp [text, step, hstatus, feedWord, hword, ascii]

theorem scan_dot {c : Scan} (hstatus : c.status = .hpsVersionMajor) :
    c.scan [ascii '.'] = { c with status := .hpsVersionMinor, consumed := c.consumed + 1 } := by
  have hdot : isDigit (ascii '.') = false := by decide
  simp [step, hstatus, hdot, enter]

theorem scan_versionEnd {c : Scan} (hstatus : c.status = .hpsVersionMinor)
    (hmajor : c.vMajor = 1) (hminor : c.vMinor = 1 ∨ c.vMinor = 0) :
    c.scan [cr, lf] = { c with status := .hpsLF, consumed := c.consumed + 2 } := by
  have hcr : isDigit cr = false := by decide
  rcases hminor with hminor | hminor <;> simp [step, hstatus, hcr, enter, hmajor, hminor]

/-- The same state, so many bytes into the head. -/
def upTo (k : ℕ) (c : Scan) : Scan := { c with consumed := k }

/-- The machine between the start line and the header lines of a head. -/
def begun (h : RequestHead) (setKa : HttpFlag) (fault : HttpParserFault) : Scan :=
  { start setKa fault with
    status := .hpsLF, method := h.method, uri := h.uri
    vMajor := Decimal.wrap 32 (numeral h.major), vMinor := Decimal.wrap 32 (numeral h.minor) }

theorem scan_startLine {h : RequestHead} (hsupported : h.Supported) (setKa : HttpFlag)
    (fault : HttpParserFault) : (start setKa fault).scan h.startLine =
      (begun h setKa fault).upTo h.startLine.length := by
  unfold RequestHead.startLine
  simp only [scan_append]
  rw [scan_blanks (fun _ ↦ rfl) h.leading, scan_method rfl rfl h.method_known,
    scan_gap rfl h.gap, scan_uri rfl h.uri_ne h.uri_chars, scan_gap' rfl rfl h.gap',
    scan_http rfl rfl, scan_major rfl h.major_digits, scan_dot rfl, scan_minor rfl h.minor_digits]
  simp only [start, begun, upTo, foldl_pushDigit_zero]
  obtain ⟨hmajor, hminor⟩ := hsupported
  rw [scan_versionEnd]
  case hmajor => simpa only using hmajor
  case hminor => simpa only using hminor
  case hstatus => rfl
  have hhttp : (text "HTTP/").length = 5 := rfl
  simp only [Scan.mk.injEq, true_and, List.length_append, length_blanks, List.length_cons,
    List.length_nil, hhttp]
  omega

/-- The effect of a stored line on the machine, apart from the bytes it takes. -/
def line (c : Scan) (name value : List Byte) : Scan :=
  let stored := { c with headers := c.headers ++ [(name, value)] }
  let flagged :=
    if name = connectionKey then
      { stored with setKa := if value = keepAliveValue then .keepAlive else .close }
    else stored
  if name = contentLengthKey then flagged.readLength value else flagged

theorem storeLine_of_legal {c : Scan}
    (hlegal : c.name = connectionKey → c.value = keepAliveValue ∨ c.value = closeValue) :
    c.storeLine = enter .hpsLF { c.line c.name c.value with name := [], value := [] } := by
  have hkeys : connectionKey ≠ contentLengthKey := by decide
  have hvalues : closeValue ≠ keepAliveValue := by decide
  unfold storeLine line
  by_cases hconnection : c.name = connectionKey
  · rcases hlegal hconnection with hvalue | hvalue
    · simp only [hconnection, hvalue, if_true, hkeys, if_false]
    · simp only [hconnection, hvalue, if_true, hkeys, hvalues, if_false]
  · simp only [hconnection, if_false]
    split_ifs <;> rfl

/-- The effect of the lines of a head. -/
def afterLines (c : Scan) (lines : List HeaderLine) : Scan :=
  lines.foldl (fun c l ↦ c.line l.name l.value) c

theorem line_upTo (c : Scan) (k : ℕ) (name value : List Byte) :
    (c.upTo k).line name value = (c.line name value).upTo k := by
  unfold line
  split_ifs <;> rfl

theorem afterLines_upTo (c : Scan) (k : ℕ) (lines : List HeaderLine) :
    (c.upTo k).afterLines lines = (c.afterLines lines).upTo k :=
  List.foldl_hom (upTo k) fun c l ↦ line_upTo c k l.name l.value

/-- A line in the state between lines. -/
theorem scan_legalLine {c : Scan} (hstatus : c.status = .hpsLF) (hname : c.name = [])
    (hvalue : c.value = []) {l : HeaderLine} (hlegal : l.Legal) (htrimmed : l.Trimmed) :
    c.scan l.encode = (c.line l.name l.value).upTo (c.consumed + l.encode.length) := by
  have hpos : 0 < l.encode.length := by simp [HeaderLine.encode]
  have hcount : c.consumed + (l.encode.length - 1) + 1 = c.consumed + l.encode.length := by omega
  have hstored := @storeLine_of_legal { c with
    status := .hpsStoreHeader, name := l.name, value := l.value
    consumed := c.consumed + (l.encode.length - 1) } hlegal
  rw [scan_line hstatus htrimmed, hstored]
  obtain ⟨status, fault, method, word, uri, name, value, headers, length, major, minor, ka, n⟩ := c
  dsimp only at hstatus hname hvalue hcount ⊢
  subst hstatus hname hvalue
  unfold line enter upTo
  dsimp only
  split_ifs <;> simp only [readLength, hcount]

theorem line_idle (c : Scan) (name value : List Byte) :
    (c.line name value).status = c.status ∧ (c.line name value).name = c.name ∧
      (c.line name value).value = c.value := by
  unfold line
  split_ifs <;> exact ⟨rfl, rfl, rfl⟩

theorem afterLines_idle (c : Scan) (lines : List HeaderLine) :
    (c.afterLines lines).status = c.status ∧ (c.afterLines lines).name = c.name ∧
      (c.afterLines lines).value = c.value := by
  induction lines generalizing c with
  | nil => exact ⟨rfl, rfl, rfl⟩
  | cons l lines ih =>
    obtain ⟨hs, hn, hv⟩ := c.line_idle l.name l.value
    obtain ⟨hs', hn', hv'⟩ := ih (c.line l.name l.value)
    exact ⟨hs'.trans hs, hn'.trans hn, hv'.trans hv⟩

/-- Lines in a row. -/
theorem scan_lines {c : Scan} (hstatus : c.status = .hpsLF) (hname : c.name = [])
    (hvalue : c.value = []) {lines : List HeaderLine} (hlegal : ∀ l ∈ lines, l.Legal)
    (htrimmed : ∀ l ∈ lines, l.Trimmed) : c.scan (lines.flatMap HeaderLine.encode) =
      (c.afterLines lines).upTo (c.consumed + (lines.flatMap HeaderLine.encode).length) := by
  induction lines generalizing c with
  | nil => rfl
  | cons l lines ih =>
    obtain ⟨hs, hn, hv⟩ := c.line_idle l.name l.value
    have hrest := @ih ((c.line l.name l.value).upTo (c.consumed + l.encode.length))
      (hs.trans hstatus) (hn.trans hname) (hv.trans hvalue)
      (fun l hl ↦ hlegal l (List.mem_cons_of_mem _ hl))
      fun l hl ↦ htrimmed l (List.mem_cons_of_mem _ hl)
    rw [List.flatMap_cons, scan_append, scan_legalLine hstatus hname hvalue
      (hlegal l List.mem_cons_self) (htrimmed l List.mem_cons_self), hrest, afterLines_upTo,
      List.length_append, ← Nat.add_assoc]
    rfl

/-- The machine after an accepted head. -/
theorem scan_encode {h : RequestHead} (haccepted : h.Accepted) (setKa : HttpFlag)
    (fault : HttpParserFault) : (start setKa fault).scan h.encode =
      { (begun h setKa fault).afterLines h.lines with
        status := .hpsGameOver, fault := .hpfContent, consumed := h.encode.length } := by
  have hstart := scan_startLine haccepted.supported setKa fault
  have hlines := @scan_lines ((begun h setKa fault).upTo h.startLine.length) rfl rfl rfl
    h.lines haccepted.legal haccepted.trimmed
  have hstatus : ((begun h setKa fault).afterLines h.lines).status = .hpsLF :=
    ((begun h setKa fault).afterLines_idle h.lines).1
  rw [RequestHead.encode, scan_append, scan_append, hstart, hlines, afterLines_upTo]
  simp [upTo, step, hstatus, enter, stop]
  omega

/-! ## What the lines leave behind -/

theorem line_parts (c : Scan) (name value : List Byte) :
    (c.line name value).method = c.method ∧ (c.line name value).uri = c.uri ∧
      (c.line name value).vMajor = c.vMajor ∧ (c.line name value).vMinor = c.vMinor ∧
      (c.line name value).word = c.word ∧
      (c.line name value).headers = c.headers ++ [(name, value)] := by
  unfold line
  split_ifs <;> exact ⟨rfl, rfl, rfl, rfl, rfl, rfl⟩

theorem afterLines_parts (c : Scan) (lines : List HeaderLine) :
    (c.afterLines lines).method = c.method ∧ (c.afterLines lines).uri = c.uri ∧
      (c.afterLines lines).vMajor = c.vMajor ∧ (c.afterLines lines).vMinor = c.vMinor ∧
      (c.afterLines lines).word = c.word ∧
      (c.afterLines lines).headers = c.headers ++ lines.map HeaderLine.pair := by
  induction lines generalizing c with
  | nil => exact ⟨rfl, rfl, rfl, rfl, rfl, by simp [afterLines]⟩
  | cons l lines ih =>
    obtain ⟨h₁, h₂, h₃, h₄, h₅, h₆⟩ := c.line_parts l.name l.value
    obtain ⟨h₁', h₂', h₃', h₄', h₅', h₆'⟩ := ih (c.line l.name l.value)
    refine ⟨h₁'.trans h₁, h₂'.trans h₂, h₃'.trans h₃, h₄'.trans h₄, h₅'.trans h₅, ?_⟩
    change ((c.line l.name l.value).afterLines lines).headers = _
    rw [h₆', h₆]
    simp [HeaderLine.pair]

end Scan

namespace HeaderLine

/-- What a line makes of the keep-alive flag. -/
def flag (setKa : HttpFlag) (l : HeaderLine) : HttpFlag :=
  if l.name = connectionKey then if l.value = keepAliveValue then .keepAlive else .close
  else setKa

/-- What a line makes of the content length. -/
def length (x : ℤ) (l : HeaderLine) : ℤ :=
  if l.name = contentLengthKey then (l.value.takeWhile isDigit).foldl pushDigit x else x

end HeaderLine

namespace Scan

theorem line_setKa (c : Scan) (l : HeaderLine) :
    (c.line l.name l.value).setKa = l.flag c.setKa := by
  unfold line HeaderLine.flag
  split_ifs <;> rfl

theorem line_contentLength (c : Scan) (l : HeaderLine) :
    (c.line l.name l.value).contentLength = l.length c.contentLength := by
  unfold line HeaderLine.length
  split_ifs <;> rfl

theorem afterLines_setKa (c : Scan) (lines : List HeaderLine) :
    (c.afterLines lines).setKa = lines.foldl HeaderLine.flag c.setKa := by
  induction lines generalizing c with
  | nil => rfl
  | cons l lines ih =>
    rw [List.foldl_cons, ← line_setKa, ← ih]
    rfl

theorem afterLines_contentLength (c : Scan) (lines : List HeaderLine) :
    (c.afterLines lines).contentLength = lines.foldl HeaderLine.length c.contentLength := by
  induction lines generalizing c with
  | nil => rfl
  | cons l lines ih =>
    rw [List.foldl_cons, ← line_contentLength, ← ih]
    rfl

/-- The state of the machine that has read a head. -/
structure HeadRead (h : RequestHead) (setKa : HttpFlag) (c : Scan) : Prop where
  ended : c.ended
  fault : c.fault = .hpfContent
  word : c.word = []
  method : c.method = h.method
  uri : c.uri = h.uri
  vMajor : c.vMajor = Decimal.wrap 32 (numeral h.major)
  vMinor : c.vMinor = Decimal.wrap 32 (numeral h.minor)
  headers : c.headers = h.headers
  setKa : c.setKa = h.lines.foldl HeaderLine.flag setKa
  contentLength : c.contentLength = h.lines.foldl HeaderLine.length 0
  consumed : c.consumed = h.encode.length

theorem headRead_scan {h : RequestHead} (haccepted : h.Accepted) (setKa : HttpFlag)
    (fault : HttpParserFault) : HeadRead h setKa ((start setKa fault).scan h.encode) := by
  rw [scan_encode haccepted]
  obtain ⟨hmethod, huri, hmajor, hminor, hword, hheaders⟩ :=
    (begun h setKa fault).afterLines_parts h.lines
  simp only [begun] at hmajor hminor
  exact ⟨rfl, rfl, hword, hmethod, huri, hmajor, hminor, hheaders, afterLines_setKa _ _,
    afterLines_contentLength _ _, rfl⟩

end Scan

end LWebServer
