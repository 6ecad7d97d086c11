import LWebServer.Http.HeaderMap
import LWebServer.Http.Scanner

/-!
# The parser follows the online machine

`Tracks` relates a parser to a state of the online machine: the scalars agree and every live
pointer designates the text that the machine holds. One turn of the loop preserves it, and
`parsering` run on the readable bytes does what the machine does on them, unless they end inside
a word: then taking the word throws.
-/

namespace LWebServer

open Memory HttpParser

/-! ## The relation -/

/-- The scalar results of the parser are those of the machine. -/
structure Agrees (r : HttpParserContent) (c : Scan) : Prop where
  status : r.status = c.status
  fault : r.fault = c.fault
  method : r.method = c.method
  contentLength : r.contentLength = c.contentLength
  vMajor : r.vMajor = c.vMajor
  vMinor : r.vMinor = c.vMinor
  setKa : r.setKa = c.setKa

/-- The parser is as far as the machine, whatever its pointers designate. -/
structure Paces (r : HttpParserContent) (c : Scan) : Prop where
  status : r.status = c.status
  vMajor : r.vMajor = c.vMajor
  vMinor : r.vMinor = c.vMinor
  content : r.fault = .hpfContent ↔ c.fault = .hpfContent

theorem Agrees.paces {r : HttpParserContent} {c : Scan} (hagrees : Agrees r c) : Paces r c :=
  ⟨hagrees.status, hagrees.vMajor, hagrees.vMinor, by rw [hagrees.fault]⟩

/-- Which pointers of a parser still designate the texts that they were set to: the URI, the line
that is being read, and the entries stored since the head began. `old` is about the entries of
earlier heads: they designate the names that they have designated since this head began. -/
structure Sight where
  uri : Prop
  line : Prop
  entries : Prop
  old : Prop
  line_of_entries : entries → line

/-- Nothing of the head has been lost from sight. -/
def Sight.all : Sight := ⟨True, True, True, False, id⟩

namespace HttpParserContent

def uriView (r : HttpParserContent) : ParsedHeader := ⟨r.uri, r.uriLength⟩

def headerView (r : HttpParserContent) : ParsedHeader := ⟨r.header, r.headerLength⟩

def valueView (r : HttpParserContent) : ParsedHeader := ⟨r.value, r.valueLength⟩

end HttpParserContent

/-- The start of the line being read: entries of the map lie below it. -/
def HttpParser.lineStart (p : HttpParser) : ℕ := p.parserResult.header.getD p.userBuffer.limit

/-- The parser stands where the machine stands, and the pointers in sight designate the texts that
the machine holds. -/
structure Sees (sight : Sight) (table : HeaderTable) (stale : List HeaderEntry)
    (known : List (List Byte)) (p : HttpParser) (c : Scan) : Prop where
  paces : Paces p.parserResult c
  agrees : sight.line → Agrees p.parserResult c
  unsettled : c.Unsettled
  word : c.word = []
  shape : c.Shape
  uri : sight.uri → p.parserResult.uriView.Designates p.userBuffer.buffer p.userBuffer.limit c.uri
  uriEnd : sight.uri → c.status = .hpsUriParser →
    p.parserResult.uriView.EndsAt p.userBuffer.readSpot
  name : sight.line →
    p.parserResult.headerView.Designates p.userBuffer.buffer p.userBuffer.limit c.name
  nameEnd : sight.line → c.status = .hpsHeader →
    p.parserResult.headerView.EndsAt p.userBuffer.readSpot
  value : sight.line →
    p.parserResult.valueView.Designates p.userBuffer.buffer p.userBuffer.limit c.value
  valueEnd : sight.line → c.status = .hpsHeaderValue →
    p.parserResult.valueView.EndsAt p.userBuffer.readSpot
  stored : sight.entries → Stored table p.userBuffer.bufferSize stale known p.userBuffer.buffer
    p.lineStart p.requestResult.headerValue c.headers

/-- The parser stands where the machine stands, with all pointers in sight. -/
abbrev Tracks : HeaderTable → List HeaderEntry → List (List Byte) → HttpParser → Scan → Prop :=
  Sees .all

namespace Tracks

variable {table : HeaderTable} {stale : List HeaderEntry} {known : List (List Byte)}
  {p : HttpParser} {c : Scan}

theorem agrees (htracks : Tracks table stale known p c) : Agrees p.parserResult c :=
  Sees.agrees htracks trivial

theorem uri (htracks : Tracks table stale known p c) :
    p.parserResult.uriView.Designates p.userBuffer.buffer p.userBuffer.limit c.uri :=
  Sees.uri htracks trivial

theorem name (htracks : Tracks table stale known p c) :
    p.parserResult.headerView.Designates p.userBuffer.buffer p.userBuffer.limit c.name :=
  Sees.name htracks trivial

theorem stored (htracks : Tracks table stale known p c) :
    Stored table p.userBuffer.bufferSize stale known p.userBuffer.buffer p.lineStart
      p.requestResult.headerValue c.headers :=
  Sees.stored htracks trivial

end Tracks

/-- The parser has stopped at a fault. -/
def HttpParser.Halted (p : HttpParser) : Prop :=
  p.parserResult.status = .hpsGameOver ∧ p.parserResult.fault ≠ .hpfContent

/-- The refill is not reached: either the `Extrabuf` is invalid, or the head ends before the last of
the readable bytes. -/
def HttpParser.Dry (p : HttpParser) (c : Scan) : Prop :=
  p.extrabuffer.isVaild = true → (c.scan p.userBuffer.unread).ended ∧
    (c.scan p.userBuffer.unread).consumed < c.consumed + p.userBuffer.unread.length

theorem HttpParser.dry_of_invalid {p : HttpParser} (hextra : p.extrabuffer.isVaild = false)
    (c : Scan) : p.Dry c := fun hvaild ↦ absurd (hextra.symm.trans hvaild) Bool.false_ne_true

theorem HttpParser.refill_of_invalid {p : HttpParser} (hextra : p.extrabuffer.isVaild = false) :
    refill p = .ok () p := by
  simp [refill, hextra]

theorem HttpParser.turn_eq {table : HeaderTable} {p : HttpParser} {ch : Byte} {rest : List Byte}
    (hunread : p.userBuffer.unread = ch :: rest) :
    turn table p = match cases table ch p with
      | .error e p => .error e p
      | .ok .continue p => .ok () p
      | .ok .break p => refill { p with userBuffer := p.userBuffer.read 1 } := by
  have hpeek := UserBuffer.peek_of_unread hunread
  cases hcases : cases table ch p with
  | error e p' => simp only [turn, hpeek, hcases]
  | ok jump p' => cases jump <;> simp only [turn, hpeek, hcases]

/-- Behind bytes that do not end the head, the refill has nothing to do. -/
theorem HttpParser.refill_of_dry {p : HttpParser} {c : Scan} (hdry : p.Dry c)
    (hle : p.userBuffer.readSpot ≤ p.userBuffer.writeSpot) {k n : ℕ}
    (hconsumed : (c.scan (p.userBuffer.unread.take k)).consumed = c.consumed + n)
    (r : HttpParserContent) (request : HttpRequest) :
    refill { p with
      userBuffer := p.userBuffer.read n, parserResult := r, requestResult := request } =
      .ok () { p with
        userBuffer := p.userBuffer.read n, parserResult := r, requestResult := request } := by
  apply if_neg
  rintro ⟨hreadable, hvaild⟩
  obtain ⟨-, hshort⟩ := hdry hvaild
  have hmore := Scan.consumed_le_scan (c.scan (p.userBuffer.unread.take k))
    (p.userBuffer.unread.drop k)
  rw [← Scan.scan_append, List.take_append_drop, hconsumed] at hmore
  rw [UserBuffer.length_unread] at hshort
  simp only [UserBuffer.readable, UserBuffer.read] at hreadable
  rw [sizeSub_of_le (by omega)] at hreadable
  omega

/-- How the bytes of a line that is out of sight can part the parser from the machine: the parser
halts before the head ends, or the machine does. -/
inductive HttpParser.Parted {α : Type} (p : HttpParser) (c : Scan)
    (result : EStateM.Result Fail HttpParser α) : Prop
  | halted (a : α) (q : HttpParser) (n : ℕ) (hresult : result = .ok a q) (hhalted : q.Halted)
      (hbuffer : q.userBuffer = p.userBuffer.read n) (hextra : q.extrabuffer = p.extrabuffer)
      (hpos : 0 < n) (hn : n ≤ p.userBuffer.unread.length)
      (hopen : ¬ (c.scan (p.userBuffer.unread.take n)).ended)
  | refused (hended : (c.scan p.userBuffer.unread).ended)
      (hfault : (c.scan p.userBuffer.unread).fault ≠ .hpfContent)

namespace Sees

variable {sight : Sight} {table : HeaderTable} {stale : List HeaderEntry}
  {known : List (List Byte)} {p : HttpParser} {c : Scan}

theorem lineStart_le (hsees : Sees sight table stale known p c) (hline : sight.line) :
    p.lineStart ≤ p.userBuffer.limit := by
  unfold lineStart
  cases hheader : p.parserResult.header with
  | none => exact le_rfl
  | some spot =>
    by_cases hname : c.name = []
    · have hview := hsees.name hline
      rw [hname] at hview
      have : p.parserResult.header = none := congrArg ParsedHeader.header hview.eq_none
      simp [this] at hheader
    · obtain ⟨start, hstart, hend⟩ := (hsees.name hline).header_isSome hname
      obtain rfl : spot = start := by simpa using hheader.symm.trans hstart
      exact (Nat.le_add_right _ _).trans hend

/-- Moving on without touching a text. -/
theorem move (hsees : Sees sight table stale known p c) {r : HttpParserContent} {c' : Scan} (n : ℕ)
    (hpaces : Paces r c') (hagrees : sight.line → Agrees r c') (hunsettled : c'.Unsettled)
    (hword : c'.word = []) (hshape : c'.Shape)
    (huri : r.uriView = p.parserResult.uriView ∧ c'.uri = c.uri)
    (hname : r.headerView = p.parserResult.headerView ∧ c'.name = c.name)
    (hvalue : r.valueView = p.parserResult.valueView ∧ c'.value = c.value)
    (hheaders : c'.headers = c.headers)
    (hclosed : c'.status ≠ .hpsUriParser ∧ c'.status ≠ .hpsHeader ∧ c'.status ≠ .hpsHeaderValue) :
    Sees sight table stale known { p with
      userBuffer := p.userBuffer.read n, parserResult := r } c' := by
  have hlimit := p.userBuffer.limit_le_limit_read n
  obtain ⟨hu, hh, hv⟩ := hclosed
  refine ⟨hpaces, hagrees, hunsettled, hword, hshape, fun hsight ↦ ?_, fun _ h ↦ absurd h hu,
    fun hsight ↦ ?_, fun _ h ↦ absurd h hh, fun hsight ↦ ?_, fun _ h ↦ absurd h hv,
    fun hsight ↦ ?_⟩
  · rw [huri.1, huri.2]
    exact (hsees.uri hsight).mono (fun _ _ ↦ rfl) hlimit
  · rw [hname.1, hname.2]
    exact (hsees.name hsight).mono (fun _ _ ↦ rfl) hlimit
  · rw [hvalue.1, hvalue.2]
    exact (hsees.value hsight).mono (fun _ _ ↦ rfl) hlimit
  · rw [hheaders]
    apply (hsees.stored hsight).mono (fun _ _ ↦ rfl)
    have hheader : r.header = p.parserResult.header := congrArg ParsedHeader.header hname.1
    unfold lineStart
    simp only [hheader]
    cases p.parserResult.header with
    | none => exact hlimit
    | some spot => exact le_rfl

/-- What one byte at `spot` does to a view and to its text; the flag says that the view now reaches
behind the byte. -/
inductive Follows (mem : ℕ → Byte) (spot : ℕ) (v : ParsedHeader) (text : List Byte) :
    Bool → ParsedHeader → List Byte → Prop
  | same : Follows mem spot v text false v text
  | opened : text = [] → Follows mem spot v text true ⟨some spot, 1⟩ [mem spot]
  | extended : v.EndsAt spot →
      Follows mem spot v text true ⟨v.header, v.length + 1⟩ (text ++ [mem spot])

theorem Follows.designates {mem : ℕ → Byte} {spot : ℕ} {v v' : ParsedHeader}
    {text text' : List Byte} {grows : Bool} (hfollows : Follows mem spot v text grows v' text')
    (hview : v.Designates mem spot text) : v'.Designates mem (spot + 1) text' := by
  cases hfollows with
  | same => exact hview.mono (fun _ _ ↦ rfl) (Nat.le_succ spot)
  | opened => exact ParsedHeader.designates_first mem spot
  | extended hend => exact hview.extend hend

theorem Follows.endsAt {mem : ℕ → Byte} {spot : ℕ} {v v' : ParsedHeader}
    {text text' : List Byte} (hfollows : Follows mem spot v text true v' text') :
    v'.EndsAt (spot + 1) := by
  cases hfollows with
  | opened => exact ⟨spot, rfl, rfl⟩
  | extended hend => exact hend.extend

theorem Follows.start_le {mem : ℕ → Byte} {spot : ℕ} {v v' : ParsedHeader}
    {text text' : List Byte} {grows : Bool} (hfollows : Follows mem spot v text grows v' text')
    (hview : v.Designates mem spot text) : v.header.getD spot ≤ v'.header.getD (spot + 1) := by
  cases hfollows with
  | same => cases v.header <;> simp
  | opened htext =>
    subst htext
    simp [hview.eq_none]
  | extended hend => cases v.header <;> simp

theorem follows_opened {mem : ℕ → Byte} {spot : ℕ} {v : ParsedHeader} {text : List Byte}
    {ch : Byte} (hch : mem spot = ch) (hview : v.Designates mem spot text) (htext : text = []) :
    Follows mem spot v text true ⟨some spot, v.length⟩ [ch] := by
  subst htext
  rw [← hch, hview.eq_none]
  exact .opened rfl

theorem follows_extended {mem : ℕ → Byte} {spot : ℕ} {v : ParsedHeader} {text : List Byte}
    {ch : Byte} (hch : mem spot = ch) (hend : v.EndsAt spot) :
    Follows mem spot v text true ⟨v.header, v.length + 1⟩ (text ++ [ch]) :=
  hch ▸ .extended hend

/-- The `switch` ends by `break`, and the parser follows the machine over the byte. -/
def Breaks (sight : Sight) (table : HeaderTable) (stale : List HeaderEntry)
    (known : List (List Byte)) (p : HttpParser) (c : Scan) (ch : Byte) : Prop :=
  ∃ r request,
    cases table ch p = .ok .break { p with parserResult := r, requestResult := request } ∧
    Sees sight table stale known
      { p with
        userBuffer := p.userBuffer.read 1, parserResult := r, requestResult := request }
      (c.step ch) ∧
    (c.step ch).consumed = c.consumed + 1

theorem breaks_of_follows (hsees : Sees sight table stale known p c) {ch : Byte}
    {r : HttpParserContent} (c' : Scan) (hstep : c.step ch = c')
    (hcases : cases table ch p = .ok .break { p with parserResult := r })
    (hlt : p.userBuffer.readSpot < p.userBuffer.writeSpot) (hpaces : Paces r c')
    (hagrees : sight.line → Agrees r c') (hword : c'.word = []) (hheaders : c'.headers = c.headers)
    (hconsumed : c'.consumed = c.consumed + 1)
    (huri : sight.uri → Follows p.userBuffer.buffer p.userBuffer.readSpot p.parserResult.uriView
      c.uri (c'.status = .hpsUriParser) r.uriView c'.uri)
    (hname : sight.line → Follows p.userBuffer.buffer p.userBuffer.readSpot
      p.parserResult.headerView c.name (c'.status = .hpsHeader) r.headerView c'.name)
    (hvalue : sight.line → Follows p.userBuffer.buffer p.userBuffer.readSpot
      p.parserResult.valueView c.value (c'.status = .hpsHeaderValue) r.valueView c'.value) :
    Breaks sight table stale known p c ch := by
  refine ⟨r, p.requestResult, hcases, ?_, hstep ▸ hconsumed⟩
  have hshape := Scan.shape_step hsees.shape ch
  have hunsettled := Scan.unsettled_step hsees.unsettled ch
  have hlimit : p.userBuffer.limit = p.userBuffer.readSpot := UserBuffer.limit_of_le hlt.le
  have hmoved := UserBuffer.limit_read_one hlt
  have huriView := hsees.uri
  have hnameView := hsees.name
  have hvalueView := hsees.value
  rw [hlimit] at huriView hnameView hvalueView
  rw [hstep] at hshape hunsettled ⊢
  refine ⟨hpaces, hagrees, hunsettled, hword, hshape, fun hsight ↦ ?_, fun hsight h ↦ ?_,
    fun hsight ↦ ?_, fun hsight h ↦ ?_, fun hsight ↦ ?_, fun hsight h ↦ ?_, fun hsight ↦ ?_⟩
  · rw [hmoved]
    exact (huri hsight).designates (huriView hsight)
  · have hgrows := huri hsight
    rw [decide_eq_true h] at hgrows
    exact hgrows.endsAt
  · rw [hmoved]
    exact (hname hsight).designates (hnameView hsight)
  · have hgrows := hname hsight
    rw [decide_eq_true h] at hgrows
    exact hgrows.endsAt
  · rw [hmoved]
    exact (hvalue hsight).designates (hvalueView hsight)
  · have hgrows := hvalue hsight
    rw [decide_eq_true h] at hgrows
    exact hgrows.endsAt
  · have hline := sight.line_of_entries hsight
    rw [hheaders]
    apply (hsees.stored hsight).mono (fun _ _ ↦ rfl)
    rw [lineStart, lineStart, hlimit, hmoved]
    exact (hname hline).start_le (hnameView hline)

theorem breaks_scalar (hsees : Sees sight table stale known p c) {ch : Byte}
    (hlt : p.userBuffer.readSpot < p.userBuffer.writeSpot)
    (hstatus : c.status ∈ [.hpsOK, .hpsBetweenMU, .hpsVersionMajor, .hpsVersionMinor,
      .hpsVersionEnd, .hpsCRLFCR]) : Breaks sight table stale known p c ch := by
  have hp := hsees.paces
  have hs := hp.status
  simp only [List.mem_cons, List.not_mem_nil, or_false] at hstatus
  rcases hstatus with h | h | h | h | h | h <;> rw [h] at hs
  all_goals
    have hcases := HttpParser.cases.eq_def table ch p
    have hstep := Scan.step.eq_def c ch
    simp only [h, hs, hp.vMajor, hp.vMinor] at hcases hstep
    split_ifs at hcases hstep
  all_goals
    refine hsees.breaks_of_follows _ hstep hcases hlt ?_ (fun hline ↦ ?_) hsees.word rfl rfl
      (fun _ ↦ .same) (fun _ ↦ .same) (fun _ ↦ .same)
    · constructor <;> simp [Scan.enter, Scan.stop, hp.vMajor, hp.vMinor, hp.content]
    · have hr := hsees.agrees hline
      constructor <;> simp [Scan.enter, Scan.stop, hr.fault, hr.method, hr.contentLength, hr.vMajor,
        hr.vMinor, hr.setKa]

theorem breaks_text (hsees : Sees sight table stale known p c) {ch : Byte}
    (hch : p.userBuffer.buffer p.userBuffer.readSpot = ch)
    (hlt : p.userBuffer.readSpot < p.userBuffer.writeSpot)
    (hstatus : c.status ∈ [.hpsUriStart, .hpsUriParser, .hpsLF, .hpsHeader, .hpsColon,
      .hpsHeaderValue]) : Breaks sight table stale known p c ch := by
  have huri := hsees.uri
  have hname := hsees.name
  have hvalue := hsees.value
  rw [UserBuffer.limit_of_le hlt.le] at huri hname hvalue
  have hp := hsees.paces
  have hs := hp.status
  simp only [List.mem_cons, List.not_mem_nil, or_false] at hstatus
  rcases hstatus with h | h | h | h | h | h <;> rw [h] at hs
  all_goals
    have hcases := HttpParser.cases.eq_def table ch p
    have hstep := Scan.step.eq_def c ch
    simp only [h, hs] at hcases hstep
    split_ifs at hcases hstep
  all_goals
    refine hsees.breaks_of_follows _ hstep hcases hlt ?_ (fun hline ↦ ?_) hsees.word rfl rfl
      (fun hsight ↦ ?_) (fun hsight ↦ ?_) (fun hsight ↦ ?_)
  all_goals first
    | exact .same
    | exact follows_opened hch (huri hsight) (hsees.shape.uriEarly (by rw [h]; rfl))
    | exact follows_extended hch (hsees.uriEnd hsight h)
    | exact follows_opened hch (hname hsight)
        (hsees.shape.nameIdle (by rw [h]; rfl) (by simp [Scan.ended, h]))
    | exact follows_extended hch (hsees.nameEnd hsight h)
    | exact follows_opened hch (hvalue hsight)
        (hsees.shape.valueIdle (by rw [h]; rfl) (by simp [Scan.ended, h]))
    | exact follows_extended hch (hsees.valueEnd hsight h)
    | (have hr := hsees.agrees hline
       constructor <;> simp [Scan.enter, Scan.stop, hr.fault, hr.method, hr.contentLength,
        hr.vMajor, hr.vMinor, hr.setKa])
    | (constructor <;> simp [Scan.enter, Scan.stop, hp.vMajor, hp.vMinor, hp.content])

theorem contentLengthLoop_eq (bytes : List Byte) (r : HttpParserContent) :
    contentLengthLoop bytes r = { r with
      contentLength := (bytes.takeWhile isDigit).foldl pushDigit r.contentLength
      status := if bytes.all isDigit then r.status else .hpsGameOver
      fault := if bytes.all isDigit then r.fault else .hpfContentLength } := by
  induction bytes generalizing r with
  | nil => rfl
  | cons ch rest ih =>
    rw [contentLengthLoop]
    by_cases hch : isDigit ch = true
    · rw [if_pos hch, ih]
      simp [hch]
    · rw [if_neg hch]
      simp [hch]

/-- A line is complete: its entry goes to the map and its views are set back. -/
theorem breaks_of_line (hsees : Sees sight table stale known p c) {ch : Byte}
    (hknown : sight.entries → Known p.userBuffer.buffer stale known)
    (hname : c.name ≠ []) {r : HttpParserContent} (c' : Scan) (hstep : c.step ch = c')
    (hcases : cases table ch p = .ok .break { p with
      parserResult := r
      requestResult := p.requestResult.storeHeader table p.userBuffer.buffer
        p.parserResult.headerView p.parserResult.valueView })
    (hagrees : Agrees r c') (hword : c'.word = []) (hconsumed : c'.consumed = c.consumed + 1)
    (hheaders : c'.headers = c.headers ++ [(c.name, c.value)])
    (huri : r.uriView = p.parserResult.uriView ∧ c'.uri = c.uri)
    (hheader : r.headerView = ⟨none, 1⟩ ∧ c'.name = [])
    (hvalue : r.valueView = ⟨none, 1⟩ ∧ c'.value = [])
    (hclosed : c'.status ≠ .hpsUriParser ∧ c'.status ≠ .hpsHeader ∧ c'.status ≠ .hpsHeaderValue) :
    Breaks sight table stale known p c ch := by
  have hnext := p.userBuffer.limit_le_limit_read 1
  have hsize : (p.userBuffer.read 1).limit ≤ p.userBuffer.bufferSize :=
    (min_le_right _ _).trans p.userBuffer.writeSpot_le
  have hshape := Scan.shape_step hsees.shape ch
  have hunsettled := Scan.unsettled_step hsees.unsettled ch
  obtain ⟨hu, hh, hv⟩ := hclosed
  refine ⟨r, _, hcases, ?_, hstep ▸ hconsumed⟩
  rw [hstep] at hshape hunsettled ⊢
  refine ⟨hagrees.paces, fun _ ↦ hagrees, hunsettled, hword, hshape, fun hsight ↦ ?_,
    fun _ h ↦ absurd h hu, fun _ ↦ ?_, fun _ h ↦ absurd h hh, fun _ ↦ ?_, fun _ h ↦ absurd h hv,
    fun hsight ↦ ?_⟩
  · rw [huri.1, huri.2]
    exact (hsees.uri hsight).mono (fun _ _ ↦ rfl) hnext
  · rw [hheader.1, hheader.2]
    exact ParsedHeader.designates_none _ _
  · rw [hvalue.1, hvalue.2]
    exact ParsedHeader.designates_none _ _
  · have hline := sight.line_of_entries hsight
    have hstart : p.parserResult.header = some p.lineStart := by
      obtain ⟨start, hstart, -⟩ := (hsees.name hline).header_isSome hname
      have hheader : p.parserResult.header = some start := hstart
      simp [lineStart, hheader]
    have hstored := (hsees.stored hsight).store (hknown hsight) hstart
      ((hsees.lineStart_le hline).trans hnext) hsize ((hsees.name hline).mono (fun _ _ ↦ rfl) hnext)
      ((hsees.value hline).mono (fun _ _ ↦ rfl) hnext) hname hsees.shape.nameChars
    have hnone : r.header = none := congrArg ParsedHeader.header hheader.1
    simp only [lineStart, hnone, hheaders]
    exact hstored

theorem breaks_store (hsees : Sees sight table stale known p c) {ch : Byte}
    (hknown : sight.entries → Known p.userBuffer.buffer stale known) (hline : sight.line)
    (hstatus : c.status = .hpsStoreHeader) : Breaks sight table stale known p c ch := by
  have hr := hsees.agrees hline
  have hs := hr.status
  rw [hstatus] at hs
  have hname : c.name ≠ [] := hsees.shape.nameOpen (by rw [hstatus]; rfl)
  have hvalue : c.value ≠ [] := hsees.shape.valueOpen (by rw [hstatus]; rfl)
  have hnameView := hsees.name hline
  have hvalueView := hsees.value hline
  have hnameIs (key : List Byte) : ParsedHeader.parsedHeaderIsEqual p.userBuffer.buffer
      ⟨p.parserResult.header, p.parserResult.headerLength⟩ key = true ↔ c.name = key := by
    rw [ParsedHeader.parsedHeaderIsEqual_iff, ← HttpParserContent.headerView,
      hnameView.bytes_eq]
    rw [← HttpParserContent.headerView, hnameView.bytes_eq, hnameView.length_eq hname]
  have hvalueIs (key : List Byte) : ParsedHeader.parsedHeaderIsEqual p.userBuffer.buffer
      ⟨p.parserResult.value, p.parserResult.valueLength⟩ key = true ↔ c.value = key := by
    rw [ParsedHeader.parsedHeaderIsEqual_iff, ← HttpParserContent.valueView,
      hvalueView.bytes_eq]
    rw [← HttpParserContent.valueView, hvalueView.bytes_eq, hvalueView.length_eq hvalue]
  have hvalueBytes : ParsedHeader.bytes p.userBuffer.buffer
      ⟨p.parserResult.value, p.parserResult.valueLength⟩ = c.value := hvalueView.bytes_eq
  have hcases := HttpParser.cases.eq_def table ch p
  have hstep := Scan.step.eq_def c ch
  simp only [hs, storeHeaderCase, hnameIs, hvalueIs, hvalueBytes, mapResult,
    contentLengthLoop_eq] at hcases
  simp only [hstatus, Scan.storeLine, Scan.readLength] at hstep
  split_ifs at hcases hstep
  all_goals
    refine hsees.breaks_of_line hknown hname _ hstep hcases ?_ hsees.word rfl rfl
      ⟨?_, rfl⟩ ⟨?_, rfl⟩ ⟨?_, rfl⟩ (by simp [Scan.enter, Scan.stop])
  all_goals first
    | rfl
    | constructor <;> simp [Scan.enter, Scan.stop, hr.fault, hr.method, hr.contentLength, hr.vMajor,
        hr.vMinor, hr.setKa]

/-- What storing a line does, whatever its pointers designate. -/
theorem cases_store {ch : Byte} (hstatus : p.parserResult.status = .hpsStoreHeader)
    (hfault : p.parserResult.fault ≠ .hpfContent) (table : HeaderTable) :
    ∃ r request, cases table ch p = .ok .break
        { p with parserResult := r, requestResult := request } ∧
      r.uriView = p.parserResult.uriView ∧ r.vMajor = p.parserResult.vMajor ∧
      r.vMinor = p.parserResult.vMinor ∧ r.fault ≠ .hpfContent ∧
      (r.status = .hpsLF ∨ r.status = .hpsGameOver) := by
  have hcases := HttpParser.cases.eq_def table ch p
  simp only [hstatus, storeHeaderCase, mapResult, contentLengthLoop_eq] at hcases
  split_ifs at hcases
  all_goals
    refine ⟨_, _, hcases, rfl, rfl, rfl, ?_, ?_⟩
    · first
        | exact hfault
        | exact HttpParserFault.noConfusion
    · first
        | exact .inl rfl
        | exact .inr rfl

theorem storeLine_cases (c : Scan) (ch : Byte) (hstatus : c.status = .hpsStoreHeader)
    (hfault : c.fault ≠ .hpfContent) :
    (c.step ch).consumed = c.consumed + 1 ∧ (c.step ch).word = c.word ∧
      (c.step ch).uri = c.uri ∧ (c.step ch).vMajor = c.vMajor ∧ (c.step ch).vMinor = c.vMinor ∧
      (c.step ch).fault ≠ .hpfContent ∧ ((c.step ch).status = .hpsLF ∨ (c.step ch).ended) := by
  simp only [Scan.step, hstatus, Scan.storeLine, Scan.readLength]
  split_ifs
  all_goals
    refine ⟨rfl, rfl, rfl, rfl, rfl, ?_, ?_⟩
    · first
        | exact hfault
        | exact HttpParserFault.noConfusion
    · first
        | exact .inl rfl
        | exact .inr rfl

/-- One turn of the loop follows the machine over one byte or one word, or throws where the
machine is left inside a word. A line out of sight may be refused by one of the two. -/
def TurnFollows (sight : Sight) (table : HeaderTable) (stale : List HeaderEntry)
    (known : List (List Byte)) (p : HttpParser) (c : Scan) : Prop :=
  (∃ k n q, turn table p = .ok () q ∧ 0 < k ∧
    Sees sight table stale known q (c.scan (p.userBuffer.unread.take k)) ∧
    q.userBuffer = p.userBuffer.read n ∧ q.extrabuffer = p.extrabuffer ∧
    (c.scan (p.userBuffer.unread.take k)).consumed = c.consumed + n ∧
    (n = k ∧ k ≤ p.userBuffer.unread.length ∨ (c.scan (p.userBuffer.unread.take k)).ended)) ∨
  (turn table p = .error .outOfRange p ∧ (c.scan p.userBuffer.unread).word ≠ []) ∨
  ¬ sight.line ∧ Parted p c (turn table p)

theorem turnFollows_of_breaks {ch : Byte} {rest : List Byte}
    (hunread : p.userBuffer.unread = ch :: rest) (hdry : p.Dry c)
    (hbreaks : Breaks sight table stale known p c ch) :
    TurnFollows sight table stale known p c := by
  obtain ⟨r, request, hcases, hsees, hconsumed⟩ := hbreaks
  have htake : p.userBuffer.unread.take 1 = [ch] := by rw [hunread]; rfl
  have hturn : turn table p = .ok () { p with
      userBuffer := p.userBuffer.read 1, parserResult := r, requestResult := request } := by
    rw [turn_eq hunread, hcases]
    apply refill_of_dry hdry (UserBuffer.unread_cons hunread).1.le (k := 1)
    rw [htake]
    exact hconsumed
  refine .inl ⟨1, 1, _, hturn, Nat.one_pos, ?_, rfl, rfl, ?_, .inl ⟨rfl, ?_⟩⟩
  · rw [htake]
    exact hsees
  · rw [htake]
    exact hconsumed
  · rw [hunread]
    simp

/-- A line that is out of sight. -/
theorem turnFollows_of_blind (hsees : Sees sight table stale known p c) {ch : Byte}
    {rest : List Byte} (hunread : p.userBuffer.unread = ch :: rest) (hdry : p.Dry c)
    (hline : ¬ sight.line) (hstatus : c.status = .hpsStoreHeader) :
    TurnFollows sight table stale known p c := by
  have hp := hsees.paces
  have hle := (UserBuffer.unread_cons hunread).1.le
  have hopen : ¬ c.ended := by
    rw [Scan.ended, hstatus]
    exact HttpParserStatus.noConfusion
  have hfault := hsees.unsettled hopen
  obtain ⟨r, request, hcases, huri, hmajor, hminor, hsome, hr⟩ :=
    @cases_store p ch (hp.status.trans hstatus) (mt hp.content.mp hfault) table
  obtain ⟨hconsumed, hword, huri', hmajor', hminor', hsome', hc⟩ :=
    storeLine_cases c ch hstatus hfault
  have htake : p.userBuffer.unread.take 1 = [ch] := by rw [hunread]; rfl
  have hturn : turn table p = .ok () { p with
      userBuffer := p.userBuffer.read 1, parserResult := r, requestResult := request } := by
    rw [turn_eq hunread, hcases]
    apply refill_of_dry hdry hle (k := 1)
    rw [htake]
    exact hconsumed
  rcases hc with hc | hc
  · rcases hr with hr | hr
    · left
      refine ⟨1, 1, _, hturn, Nat.one_pos, ?_, rfl, rfl, ?_, .inl ⟨rfl, ?_⟩⟩
      · rw [htake]
        refine ⟨⟨hr.trans hc.symm, ?_, ?_, ?_⟩, fun h ↦ absurd h hline,
          Scan.unsettled_step hsees.unsettled ch, hword.trans hsees.word,
          Scan.shape_step hsees.shape ch, fun hsight ↦ ?_, fun _ h ↦ ?_, fun h ↦ absurd h hline,
          fun h ↦ absurd h hline, fun h ↦ absurd h hline, fun h ↦ absurd h hline,
          fun h ↦ absurd (sight.line_of_entries h) hline⟩
        · exact hmajor.trans (hp.vMajor.trans hmajor'.symm)
        · exact hminor.trans (hp.vMinor.trans hminor'.symm)
        · exact iff_of_false hsome hsome'
        · have hview := (hsees.uri hsight).mono (fun _ _ ↦ rfl) (p.userBuffer.limit_le_limit_read 1)
          rw [← huri, ← huri'] at hview
          exact hview
        · exact absurd (hc.symm.trans h) HttpParserStatus.noConfusion
      · rw [htake]
        exact hconsumed
      · rw [hunread]
        simp
    · refine .inr (.inr ⟨hline, .halted () _ 1 hturn ⟨hr, hsome⟩ rfl rfl Nat.one_pos ?_ ?_⟩)
      · rw [hunread]
        simp
      · rw [htake, Scan.scan_cons, Scan.scan_nil, Scan.ended, hc]
        exact HttpParserStatus.noConfusion
  · refine .inr (.inr ⟨hline, .refused ?_ ?_⟩)
    all_goals
      rw [hunread, Scan.scan_cons, Scan.scan_of_ended hc]
      assumption

theorem readInto_of_lt {b : UserBuffer} {n : ℕ} (hle : b.readSpot ≤ b.writeSpot)
    (hlt : b.unread.length < n) : b.readInto n = .error .outOfRange b := by
  rw [UserBuffer.length_unread] at hlt
  exact if_pos (by omega)

theorem readInto_of_le {b : UserBuffer} {n : ℕ} (hle : n ≤ b.unread.length) (hn : 0 < n) :
    b.readInto n = .ok (b.unread.take n) (b.read n) := by
  rw [UserBuffer.length_unread] at hle
  have htake : b.unread.take n = load b.buffer b.readSpot n := by
    obtain ⟨k, hk⟩ := Nat.exists_eq_add_of_le hle
    rw [UserBuffer.unread, hk, load_add, List.take_left' (by simp)]
  rw [htake]
  exact if_neg (by omega)

theorem turnFollows_of_word (hsees : Sees sight table stale known p c) {ch : Byte}
    {rest : List Byte} (hunread : p.userBuffer.unread = ch :: rest) (hdry : p.Dry c)
    (g : HttpRequestMethod → HttpRequestMethod)
    {word : List Byte} {next : HttpParserStatus}
    {fault : HttpParserFault} (hne : word ≠ []) (hfault : fault ≠ .hpfContent)
    (hnext : next ≠ .hpsUriParser ∧ next ≠ .hpsHeader ∧ next ≠ .hpsHeaderValue)
    (hcases : cases table ch p =
      readWord word next (fun r ↦ { r with method := g r.method }) fault p)
    (hfirst : c.step ch =
      c.feedWord word next (fun c ↦ { c with method := g c.method }) fault ch)
    (hstep : ∀ seen k ch, seen ≠ [] → Scan.step { c with word := seen, consumed := k } ch =
      Scan.feedWord word next (fun c ↦ { c with method := g c.method }) fault
        { c with word := seen, consumed := k } ch) :
    TurnFollows sight table stale known p c := by
  have hp := hsees.paces
  have hlt := (UserBuffer.unread_cons hunread).1
  by_cases hshort : p.userBuffer.unread.length < word.length
  · refine .inr (.inl ⟨?_, ?_⟩)
    · rw [turn_eq hunread, hcases]
      simp only [readWord, readInto_of_lt hlt.le hshort]
    · rw [hunread] at hshort ⊢
      rw [Scan.scan_word hsees.word hfirst hstep hshort.le, if_pos hshort]
      exact List.cons_ne_nil _ _
  left
  have hlong : word.length ≤ p.userBuffer.unread.length := Nat.le_of_not_lt hshort
  have hpos : 0 < word.length := List.length_pos_of_ne_nil hne
  obtain ⟨seen, hseen, hlength⟩ : ∃ seen, p.userBuffer.unread.take word.length = ch :: seen ∧
      (ch :: seen).length = word.length := by
    obtain ⟨n, hn⟩ : ∃ n, word.length = n + 1 := ⟨word.length - 1, by omega⟩
    rw [hunread] at hlong ⊢
    refine ⟨rest.take n, by rw [hn, List.take_succ_cons], ?_⟩
    simp only [List.length_cons, List.length_take] at hlong ⊢
    omega
  have hscan := Scan.scan_word hsees.word hfirst hstep hlength.le
  rw [if_neg (by omega), ← hseen] at hscan
  have hshape : (c.scan (p.userBuffer.unread.take word.length)).Shape :=
    Online.feed_invariant hsees.shape (fun _ ch h ↦ Scan.shape_step h ch) _
  have hunsettled := Scan.unsettled_scan hsees.unsettled (p.userBuffer.unread.take word.length)
  rw [turn_eq hunread, hcases]
  simp only [readWord, readInto_of_le hlong hpos]
  obtain ⟨hu, hh, hv⟩ := hnext
  by_cases hword : p.userBuffer.unread.take word.length = word
  · rw [if_pos hword] at hscan ⊢
    refine ⟨word.length, word.length, _, rfl, hpos, ?_, rfl, rfl, ?_, .inl ⟨rfl, hlong⟩⟩
    · rw [hscan] at hshape hunsettled ⊢
      refine hsees.move word.length ?_ (fun hline ↦ ?_) hunsettled rfl hshape ⟨rfl, rfl⟩ ⟨rfl, rfl⟩
        ⟨rfl, rfl⟩ rfl ⟨hu, hh, hv⟩
      · constructor <;> simp [hp.vMajor, hp.vMinor, hp.content]
      · have hr := hsees.agrees hline
        constructor <;> simp [hr.fault, hr.method, hr.contentLength, hr.vMajor, hr.vMinor, hr.setKa]
    · rw [hscan, hword]
  · rw [if_neg hword] at hscan ⊢
    have hconsumed : (c.scan (p.userBuffer.unread.take word.length)).consumed =
        c.consumed + (word.length + 1) := by
      rw [hscan, hseen, hlength, Nat.add_assoc]
    refine ⟨word.length, word.length + 1, _, refill_of_dry hdry hlt.le hconsumed _ _, hpos, ?_, rfl,
      rfl, hconsumed, .inr (by rw [hscan]; rfl)⟩
    rw [hscan] at hshape hunsettled ⊢
    refine hsees.move (word.length + 1) ?_ (fun hline ↦ ?_) hunsettled rfl hshape ⟨rfl, rfl⟩
      ⟨rfl, rfl⟩ ⟨rfl, rfl⟩ rfl (by simp)
    · constructor <;> simp [mapResult, hp.vMajor, hp.vMinor, hfault]
    · have hr := hsees.agrees hline
      constructor <;> simp [mapResult, hr.method, hr.contentLength, hr.vMajor, hr.vMinor, hr.setKa]

theorem turnFollows_of_method (hsees : Sees sight table stale known p c) {ch : Byte}
    {rest : List Byte} (hunread : p.userBuffer.unread = ch :: rest) (hdry : p.Dry c)
    {word : String} {method : HttpRequestMethod} (hne : text word ≠ [])
    (hcases : cases table ch p = readMethod word method p)
    (hstep : ∀ seen k ch, Scan.step { c with word := seen, consumed := k } ch =
      Scan.feedMethod word method { c with word := seen, consumed := k } ch) :
    TurnFollows sight table stale known p c :=
  hsees.turnFollows_of_word hunread hdry (fun _ ↦ method) hne HttpParserFault.noConfusion
    (by decide) hcases (hstep c.word c.consumed ch) fun seen k ch _ ↦ hstep seen k ch

/-- Every turn of the running loop follows the machine. -/
theorem turnFollows (hsees : Sees sight table stale known p c) {ch : Byte} {rest : List Byte}
    (hunread : p.userBuffer.unread = ch :: rest) (hdry : p.Dry c)
    (hknown : sight.entries → Known p.userBuffer.buffer stale known) (hended : ¬ c.ended) :
    TurnFollows sight table stale known p c := by
  obtain ⟨hlt, hch, -⟩ := UserBuffer.unread_cons hunread
  have hp := hsees.paces
  have hs := hp.status
  have hword := hsees.word
  cases hstatus : c.status <;> rw [hstatus] at hs
  case hpsOK | hpsBetweenMU | hpsVersionMajor | hpsVersionMinor | hpsVersionEnd | hpsCRLFCR =>
    exact turnFollows_of_breaks hunread hdry (hsees.breaks_scalar hlt (by simp [hstatus]))
  case hpsUriStart | hpsUriParser | hpsLF | hpsHeader | hpsColon | hpsHeaderValue =>
    exact turnFollows_of_breaks hunread hdry (hsees.breaks_text hch hlt (by simp [hstatus]))
  case hpsStoreHeader =>
    by_cases hline : sight.line
    · exact turnFollows_of_breaks hunread hdry (hsees.breaks_store hknown hline hstatus)
    · exact hsees.turnFollows_of_blind hunread hdry hline hstatus
  case hpsGet | hpsPost | hpsOption | hpsHead | hpsDelete =>
    apply hsees.turnFollows_of_method hunread hdry
    case hcases => rw [cases, hs]
    case hstep =>
      intro seen k ch
      rw [Scan.step, hstatus]
    decide
  case hpsUriEnd =>
    by_cases hblank : ch = ascii ' '
    · have hcases := HttpParser.cases.eq_def table ch p
      have hstep := Scan.step.eq_def c ch
      simp only [hstatus, hs, if_pos hblank] at hcases hstep
      rw [if_pos ⟨hword, hblank⟩] at hstep
      apply turnFollows_of_breaks hunread hdry
      refine hsees.breaks_of_follows _ hstep hcases hlt ?_ (fun hline ↦ ?_) hword rfl rfl
        (fun _ ↦ .same) (fun _ ↦ .same) (fun _ ↦ .same)
      · constructor <;> simp [Scan.enter, hp.vMajor, hp.vMinor, hp.content]
      · have hr := hsees.agrees hline
        constructor <;> simp [Scan.enter, hr.fault, hr.method, hr.contentLength, hr.vMajor,
          hr.vMinor, hr.setKa]
    · apply hsees.turnFollows_of_word hunread hdry id
      case hcases => simp only [cases, hs, if_neg hblank]; rfl
      case hfirst => simp only [Scan.step, hstatus, hblank, and_false, if_false]; rfl
      case hstep =>
        intro seen k ch hseen
        simp only [Scan.step, hstatus, hseen, false_and, if_false]; rfl
      all_goals decide
  case hpsGameOver => exact absurd hstatus hended

end Sees

namespace HttpParser

theorem unread_of_running {p : HttpParser}
    (hle : p.userBuffer.readSpot ≤ p.userBuffer.writeSpot) (hrunning : p.running) :
    ∃ ch rest, p.userBuffer.unread = ch :: rest := by
  have hreadable := hrunning.2
  rw [UserBuffer.readable, sizeSub_of_le hle] at hreadable
  apply List.exists_cons_of_ne_nil
  intro hnil
  apply hreadable
  rw [← UserBuffer.length_unread, hnil, List.length_nil]

theorem ended_or_unread_of_stopped {p : HttpParser}
    (hle : p.userBuffer.readSpot ≤ p.userBuffer.writeSpot) (hstopped : ¬ p.running) :
    p.parserResult.status = .hpsGameOver ∨ p.userBuffer.unread = [] := by
  by_cases hended : p.parserResult.status = .hpsGameOver
  · exact .inl hended
  · right
    have hzero : p.userBuffer.readable = 0 := by
      by_contra hsome
      exact hstopped ⟨hended, hsome⟩
    rw [UserBuffer.readable, sizeSub_of_le hle] at hzero
    exact List.eq_nil_of_length_eq_zero ((UserBuffer.length_unread _).trans hzero)

theorem loop_stopped {table : HeaderTable} {p : HttpParser} (hstopped : ¬ p.running) (turns : ℕ) :
    loop table turns p = .ok () p := by
  cases turns with
  | zero => rfl
  | succ turns => exact if_neg hstopped

theorem loop_running {table : HeaderTable} {p q : HttpParser} (hrunning : p.running) (turns : ℕ)
    (hturn : turn table p = .ok () q) : loop table (turns + 1) p = loop table turns q := by
  simp only [loop, if_pos hrunning, hturn]

theorem loop_throwing {table : HeaderTable} {p q : HttpParser} {e : Fail} (hrunning : p.running)
    (turns : ℕ) (hturn : turn table p = .error e q) : loop table (turns + 1) p = .error e q := by
  simp only [loop, if_pos hrunning, hturn]

theorem loop_of_ended {table : HeaderTable} {p : HttpParser}
    (hended : p.parserResult.status = .hpsGameOver) (turns : ℕ) : loop table turns p = .ok () p :=
  loop_stopped (fun h ↦ h.1 hended) turns

end HttpParser

/-- What `q` is to `p` after a call that returned: it follows the machine over the readable bytes,
and the read position has moved by the bytes consumed. -/
structure Followed (sight : Sight) (table : HeaderTable) (stale : List HeaderEntry)
    (known : List (List Byte)) (p : HttpParser) (c : Scan) (q : HttpParser) : Prop where
  sees : Sees sight table stale known q (c.scan p.userBuffer.unread)
  extrabuffer : q.extrabuffer = p.extrabuffer
  moved : ∃ n, q.userBuffer = p.userBuffer.read n ∧
    (c.scan p.userBuffer.unread).consumed = c.consumed + n ∧
    (n = p.userBuffer.unread.length ∨ (c.scan p.userBuffer.unread).ended)

namespace Sees

variable {sight : Sight} {table : HeaderTable} {stale : List HeaderEntry}
  {known : List (List Byte)} {p q : HttpParser} {c : Scan} {n : ℕ}

/-- Behind a turn that took `n` bytes, the readable bytes are those that are left. -/
theorem unread_of_read (hbuffer : q.userBuffer = p.userBuffer.read n) :
    q.userBuffer.unread = p.userBuffer.unread.drop n := by
  rw [hbuffer, UserBuffer.unread_read]

theorem dry_of_read (hdry : p.Dry c) (hbuffer : q.userBuffer = p.userBuffer.read n)
    (hextra : q.extrabuffer = p.extrabuffer) (hn : n ≤ p.userBuffer.unread.length)
    (hconsumed : (c.scan (p.userBuffer.unread.take n)).consumed = c.consumed + n) :
    q.Dry (c.scan (p.userBuffer.unread.take n)) := by
  intro hvaild
  obtain ⟨hended, hshort⟩ := hdry (hextra ▸ hvaild)
  have hlength : (p.userBuffer.unread.drop n).length = p.userBuffer.unread.length - n :=
    List.length_drop
  rw [unread_of_read hbuffer, ← Scan.scan_append, List.take_append_drop, hlength, hconsumed]
  exact ⟨hended, by omega⟩

theorem followed_of_read (hbuffer : q.userBuffer = p.userBuffer.read n)
    (hextra : q.extrabuffer = p.extrabuffer) (hn : n ≤ p.userBuffer.unread.length)
    (hconsumed : (c.scan (p.userBuffer.unread.take n)).consumed = c.consumed + n)
    {q' : HttpParser}
    (hfollowed : Followed sight table stale known q (c.scan (p.userBuffer.unread.take n)) q') :
    Followed sight table stale known p c q' := by
  have hscan : (c.scan (p.userBuffer.unread.take n)).scan q.userBuffer.unread =
      c.scan p.userBuffer.unread := by
    rw [unread_of_read hbuffer, ← Scan.scan_append, List.take_append_drop]
  have hsees := hfollowed.sees
  obtain ⟨m, hmove, hcount, hend⟩ := hfollowed.moved
  rw [hscan] at hsees hcount hend
  refine ⟨hsees, hfollowed.extrabuffer.trans hextra, n + m, ?_, ?_, ?_⟩
  · rw [hmove, hbuffer]
    simp only [UserBuffer.read, Nat.add_assoc]
  · rw [hcount, hconsumed, Nat.add_assoc]
  · apply hend.imp_left
    intro hm
    rw [hm, unread_of_read hbuffer, List.length_drop]
    omega

theorem parted_of_read (hbuffer : q.userBuffer = p.userBuffer.read n)
    (hextra : q.extrabuffer = p.extrabuffer) (hn : n ≤ p.userBuffer.unread.length)
    {result : EStateM.Result Fail HttpParser Unit}
    (hparted : q.Parted (c.scan (p.userBuffer.unread.take n)) result) : p.Parted c result := by
  have hunread := unread_of_read hbuffer
  cases hparted with
  | halted a q' m hresult hhalted hbuffer' hextra' hpos hm hopen =>
    rw [hunread] at hm hopen
    rw [List.length_drop] at hm
    refine .halted a q' (n + m) hresult hhalted ?_ (hextra'.trans hextra) (by omega) (by omega) ?_
    · rw [hbuffer', hbuffer]
      simp only [UserBuffer.read, Nat.add_assoc]
    · rwa [List.take_add, Scan.scan_append]
  | refused hended hfault =>
    rw [hunread, ← Scan.scan_append, List.take_append_drop] at hended hfault
    exact .refused hended hfault

/-- The loop follows the machine over the readable bytes. It throws exactly where they leave the
machine inside a word. -/
theorem loop_follows (hsees : Sees sight table stale known p c) (hdry : p.Dry c)
    (hknown : sight.entries → Known p.userBuffer.buffer stale known)
    (hle : p.userBuffer.readSpot ≤ p.userBuffer.writeSpot) {turns : ℕ}
    (hturns : p.userBuffer.unread.length ≤ turns) :
    ((c.scan p.userBuffer.unread).word = [] ∧
      ∃ q, loop table turns p = .ok () q ∧ Followed sight table stale known p c q) ∨
    ((c.scan p.userBuffer.unread).word ≠ [] ∧
      ∃ q, loop table turns p = .error .outOfRange q) ∨
    ¬ sight.line ∧ p.Parted c (loop table turns p) := by
  induction turns generalizing p c with
  | zero =>
    have hnil : p.userBuffer.unread = [] := List.length_eq_zero_iff.mp (Nat.le_zero.mp hturns)
    left
    rw [hnil]
    refine ⟨hsees.word, p, rfl, ?_, rfl, 0, rfl, ?_⟩ <;> rw [hnil]
    · exact hsees
    · exact ⟨rfl, .inl rfl⟩
  | succ turns ih =>
    by_cases hended : c.ended
    · left
      have hgame : p.parserResult.status = .hpsGameOver := hsees.paces.status.trans hended
      have hscan := Scan.scan_of_ended hended p.userBuffer.unread
      rw [hscan]
      refine ⟨hsees.word, p, loop_of_ended hgame _, ?_, rfl, 0, rfl, ?_⟩ <;> rw [hscan]
      · exact hsees
      · exact ⟨rfl, .inr hended⟩
    cases hunread : p.userBuffer.unread with
    | nil =>
      left
      have hreadable : p.userBuffer.readable = 0 := by
        have hlength := congrArg List.length hunread
        rw [UserBuffer.length_unread] at hlength
        rwa [UserBuffer.readable, sizeSub_of_le hle]
      refine ⟨hsees.word, p, ?_, ?_, rfl, 0, rfl, ?_⟩
      · exact loop_stopped (fun h ↦ h.2 hreadable) _
      · rw [hunread]
        exact hsees
      · rw [hunread]
        exact ⟨rfl, .inl rfl⟩
    | cons ch rest =>
      have hlt := (UserBuffer.unread_cons hunread).1
      have hrunning : p.running := by
        constructor
        · rw [hsees.paces.status]
          exact hended
        · rw [UserBuffer.readable, sizeSub_of_le hle]
          omega
      rw [← hunread]
      rcases hsees.turnFollows hunread hdry hknown hended with
        ⟨k, n, q, hturn, hk, hq, hbuffer, hqextra, hconsumed, hn⟩ | ⟨hturn, hword⟩ |
        ⟨hline, hparted⟩
      · rw [loop_running hrunning turns hturn]
        rcases hn with ⟨rfl, hk'⟩ | hended'
        · have hqunread := unread_of_read hbuffer
          have hqle : q.userBuffer.readSpot ≤ q.userBuffer.writeSpot := by
            rw [hbuffer]
            rw [UserBuffer.length_unread] at hk'
            change p.userBuffer.readSpot + n ≤ p.userBuffer.writeSpot
            omega
          have hqturns : q.userBuffer.unread.length ≤ turns := by
            rw [hqunread, List.length_drop]
            omega
          have hscan : (c.scan (p.userBuffer.unread.take n)).scan q.userBuffer.unread =
              c.scan p.userBuffer.unread := by
            rw [hqunread, ← Scan.scan_append, List.take_append_drop]
          have hqdry := dry_of_read hdry hbuffer hqextra hk' hconsumed
          rcases ih hq hqdry (hbuffer ▸ hknown) hqle hqturns with
            ⟨hw, q', hloop, hfollowed⟩ | ⟨hw, hthrow⟩ | ⟨hline, hparted⟩
          · left
            rw [hscan] at hw
            exact ⟨hw, q', hloop, followed_of_read hbuffer hqextra hk' hconsumed hfollowed⟩
          · right
            left
            rw [hscan] at hw
            exact ⟨hw, hthrow⟩
          · exact .inr (.inr ⟨hline, parted_of_read hbuffer hqextra hk' hparted⟩)
        · left
          have hgame : q.parserResult.status = .hpsGameOver := hq.paces.status.trans hended'
          have hscan : c.scan p.userBuffer.unread = c.scan (p.userBuffer.unread.take k) := by
            conv_lhs => rw [← List.take_append_drop k p.userBuffer.unread]
            rw [Scan.scan_append, Scan.scan_of_ended hended']
          rw [hscan]
          refine ⟨hq.word, q, loop_of_ended hgame _, ?_, hqextra, n, hbuffer, ?_⟩ <;> rw [hscan]
          · exact hq
          · exact ⟨hconsumed, .inr hended'⟩
      · exact .inr (.inl ⟨hword, p, loop_throwing hrunning turns hturn⟩)
      · refine .inr (.inr ⟨hline, ?_⟩)
        cases hparted with
        | halted a q n hresult hhalted hbuffer hextra hpos hn hopen =>
          refine .halted () q n ?_ hhalted hbuffer hextra hpos hn hopen
          rw [loop_running hrunning turns hresult, loop_of_ended hhalted.1]
        | refused hended' hfault => exact .refused hended' hfault

/-- `Parsering` follows the machine. -/
theorem parsering_follows (hsees : Sees sight table stale known p c) (hdry : p.Dry c)
    (hknown : sight.entries → Known p.userBuffer.buffer stale known)
    (hle : p.userBuffer.readSpot ≤ p.userBuffer.writeSpot) :
    ((c.scan p.userBuffer.unread).word = [] ∧
      ∃ q, parsering table p = .ok () q ∧ Followed sight table stale known p c q) ∨
    ((c.scan p.userBuffer.unread).word ≠ [] ∧
      ∃ q, parsering table p = .error .outOfRange q) ∨
    ¬ sight.line ∧ p.Parted c (parsering table p) := by
  apply hsees.loop_follows hdry hknown hle
  rw [UserBuffer.length_unread]
  calc p.userBuffer.writeSpot - p.userBuffer.readSpot
      ≤ p.userBuffer.bufferSize := (Nat.sub_le _ _).trans p.userBuffer.writeSpot_le
    _ ≤ p.userBuffer.bufferSize + 2 := Nat.le_add_right _ _
    _ ≤ p.turnBound := Nat.le_mul_of_pos_right _ (Nat.succ_pos _)

end Sees

/-- `Parsering` follows the machine where nothing is out of sight and no refill is due. -/
theorem Tracks.parsering_follows {table : HeaderTable} {stale : List HeaderEntry}
    {known : List (List Byte)} {p : HttpParser} {c : Scan} (htracks : Tracks table stale known p c)
    (hextra : p.extrabuffer.isVaild = false) (hknown : Known p.userBuffer.buffer stale known)
    (hle : p.userBuffer.readSpot ≤ p.userBuffer.writeSpot) :
    ((c.scan p.userBuffer.unread).word = [] ∧
      ∃ q, parsering table p = .ok () q ∧ Followed .all table stale known p c q) ∨
    ((c.scan p.userBuffer.unread).word ≠ [] ∧ ∃ q, parsering table p = .error .outOfRange q) := by
  rcases Sees.parsering_follows htracks (dry_of_invalid hextra c) (fun _ ↦ hknown) hle with
    hok | hthrow | ⟨hline, -⟩
  · exact .inl hok
  · exact .inr hthrow
  · exact absurd trivial hline

end LWebServer
