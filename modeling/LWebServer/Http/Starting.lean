import LWebServer.Http.Tracking
import LWebServer.Http.Unambiguous

/-!
# A call of `Starting_Parser`

The call marks a short delivery, runs the loop and copies the result into the request. `Reported`
says what the request then holds of the machine's state.
-/

namespace LWebServer

open Memory HttpParser

/-- `Starting_Parser` on fewer than 16 readable bytes sets a fault before it parses. -/
def Scan.mark (able : Bool) (c : Scan) : Scan :=
  if able then c else { c with fault := .hpfToLittleMessage }

/-- The request holds the results of the parse. -/
structure Reported (q : HttpParser) (c : Scan) : Prop where
  versionMajor : q.requestResult.versionMajor = c.vMajor
  versionMinor : q.requestResult.versionMinor = c.vMinor
  contentLength : q.requestResult.contentLength = (c.contentLength % 2 ^ 64).toNat
  method : q.requestResult.method = c.method
  flag : q.requestResult.flag = c.setKa
  fault : q.requestResult.fault = c.fault
  uri : c.uri ≠ [] →
    q.requestResult.uri.Designates q.userBuffer.buffer q.userBuffer.limit c.uri
  requestBuffer : q.requestResult.requestBuffer = true

section

variable {sight : Sight} {table : HeaderTable} {stale : List HeaderEntry}
  {known : List (List Byte)} {p q : HttpParser} {c : Scan}

theorem Scan.consumed_mark (able : Bool) (c : Scan) : (c.mark able).consumed = c.consumed := by
  unfold Scan.mark
  split_ifs <;> rfl

theorem markShort_buffers (p : HttpParser) :
    p.markShort.userBuffer = p.userBuffer ∧ p.markShort.extrabuffer = p.extrabuffer ∧
      p.markShort.requestResult = p.requestResult := by
  unfold HttpParser.markShort
  split_ifs <;> exact ⟨rfl, rfl, rfl⟩

namespace Sees

theorem markShort (hsees : Sees sight table stale known p c) :
    Sees sight table stale known p.markShort (c.mark p.parserAble) := by
  unfold HttpParser.markShort Scan.mark
  split_ifs
  · exact hsees
  · have hpaces := hsees.paces
    have hshape := hsees.shape
    refine ⟨?_, fun hline ↦ ?_, fun _ ↦ HttpParserFault.noConfusion, hsees.word, ?_, hsees.uri,
      hsees.uriEnd, hsees.name, hsees.nameEnd, hsees.value, hsees.valueEnd, hsees.stored⟩
    · exact ⟨hpaces.status, hpaces.vMajor, hpaces.vMinor, Iff.rfl⟩
    · have hagrees := hsees.agrees hline
      exact ⟨hagrees.status, rfl, hagrees.method, hagrees.contentLength, hagrees.vMajor,
        hagrees.vMinor, hagrees.setKa⟩
    · exact ⟨hshape.uriEarly, hshape.uriOpen, hshape.nameOpen, hshape.nameIdle,
        hshape.valueOpen, hshape.valueIdle, hshape.nameChars⟩

theorem setRequesting (hsees : Sees sight table stale known q c) :
    Sees sight table stale known q.setRequesting c :=
  ⟨hsees.paces, hsees.agrees, hsees.unsettled, hsees.word, hsees.shape, hsees.uri, hsees.uriEnd,
    hsees.name, hsees.nameEnd, hsees.value, hsees.valueEnd, hsees.stored⟩

theorem reported (hsees : Sees sight table stale known q c) (huri : sight.uri)
    (hline : sight.line) : Reported q.setRequesting c := by
  have hagrees := hsees.agrees hline
  refine ⟨hagrees.vMajor, hagrees.vMinor, ?_, hagrees.method, hagrees.setKa, hagrees.fault, ?_,
    rfl⟩
  · simp only [HttpParser.setRequesting, hagrees.contentLength]
  · intro hne
    have hview := hsees.uri huri
    obtain ⟨spot, hspot, -⟩ := hview.header_isSome hne
    have hsome : q.parserResult.uri = some spot := hspot
    simp only [HttpParser.setRequesting, hsome, reduceCtorEq, if_false]
    rw [← hsome]
    exact hview

end Sees

/-- What a returning call did: it followed the machine and reported its results. -/
structure Started (sight : Sight) (table : HeaderTable) (stale : List HeaderEntry)
    (known : List (List Byte)) (p : HttpParser) (c : Scan) (q : HttpParser) : Prop where
  sees : Sees sight table stale known q ((c.mark p.parserAble).scan p.userBuffer.unread)
  reported : sight.uri → sight.line →
    Reported q ((c.mark p.parserAble).scan p.userBuffer.unread)
  extrabuffer : q.extrabuffer = p.extrabuffer
  moved : ∃ n, q.userBuffer = p.userBuffer.read n ∧
    ((c.mark p.parserAble).scan p.userBuffer.unread).consumed = c.consumed + n ∧
    (n = p.userBuffer.unread.length ∨ ((c.mark p.parserAble).scan p.userBuffer.unread).ended)

/-- A call of `Starting_Parser` follows the machine over the readable bytes. -/
theorem Sees.startingParser_follows (hsees : Sees sight table stale known p c)
    (hdry : p.Dry (c.mark p.parserAble))
    (hknown : sight.entries → Known p.userBuffer.buffer stale known)
    (hle : p.userBuffer.readSpot ≤ p.userBuffer.writeSpot) :
    (((c.mark p.parserAble).scan p.userBuffer.unread).word = [] ∧
      ∃ q, startingParser table p = .ok q.parserResult.fault q ∧
        Started sight table stale known p c q) ∨
    (((c.mark p.parserAble).scan p.userBuffer.unread).word ≠ [] ∧
      ∃ q, startingParser table p = .error .outOfRange q) ∨
    ¬ sight.line ∧ p.Parted (c.mark p.parserAble) (startingParser table p) := by
  obtain ⟨hbuffer, hextra, -⟩ := markShort_buffers p
  have hmarked := hsees.markShort
  have hdry' : p.markShort.Dry (c.mark p.parserAble) := by
    unfold HttpParser.Dry
    rwa [hbuffer, hextra]
  rcases hmarked.parsering_follows hdry' (hbuffer ▸ hknown) (hbuffer ▸ hle) with
    ⟨hword, q, hparse, hfollowed⟩ | ⟨hword, q, hparse⟩ | ⟨hline, hparted⟩
  · left
    rw [hbuffer] at hword
    have hsees' := hfollowed.sees
    have hmoved := hfollowed.moved
    rw [hbuffer] at hsees' hmoved
    rw [Scan.consumed_mark] at hmoved
    refine ⟨hword, q.setRequesting, ?_, hsees'.setRequesting, hsees'.reported,
      hfollowed.extrabuffer.trans hextra, hmoved⟩
    rw [startingParser, hparse]
    rfl
  · right
    left
    rw [hbuffer] at hword
    exact ⟨hword, q, by rw [startingParser, hparse]⟩
  · refine .inr (.inr ⟨hline, ?_⟩)
    cases hparted with
    | halted a q n hresult hhalted hbuffer' hextra' hpos hn hopen =>
      rw [hbuffer] at hbuffer' hn hopen
      refine .halted q.parserResult.fault q.setRequesting n ?_ hhalted hbuffer'
        (hextra'.trans hextra) hpos hn hopen
      rw [startingParser, hresult]
    | refused hended hfault =>
      rw [hbuffer] at hended hfault
      exact .refused hended hfault

theorem Tracks.startingParser_follows (htracks : Tracks table stale known p c)
    (hextra : p.extrabuffer.isVaild = false) (hknown : Known p.userBuffer.buffer stale known)
    (hle : p.userBuffer.readSpot ≤ p.userBuffer.writeSpot) :
    (((c.mark p.parserAble).scan p.userBuffer.unread).word = [] ∧
      ∃ q, startingParser table p =
        .ok ((c.mark p.parserAble).scan p.userBuffer.unread).fault q ∧
        Started .all table stale known p c q) ∨
    (((c.mark p.parserAble).scan p.userBuffer.unread).word ≠ [] ∧
      ∃ q, startingParser table p = .error .outOfRange q) := by
  rcases Sees.startingParser_follows htracks (dry_of_invalid hextra _) (fun _ ↦ hknown) hle with
    ⟨hword, q, hstart, hstarted⟩ | hthrow | ⟨hline, -⟩
  · rw [Tracks.agrees hstarted.sees |>.fault] at hstart
    exact .inl ⟨hword, q, hstart, hstarted⟩
  · exact .inr hthrow
  · exact absurd trivial hline

end

/-! ## Before a head -/

namespace HttpParser

/-- Nothing of a head has been read. -/
structure Ready (p : HttpParser) : Prop where
  parserResult : p.parserResult =
    { setKa := p.parserResult.setKa, fault := p.parserResult.fault }
  fault : p.parserResult.fault ≠ .hpfContent
  extrabuffer : p.extrabuffer.isVaild = false
  readSpot_le : p.userBuffer.readSpot ≤ p.userBuffer.writeSpot

/-- A parser that has parsed nothing yet. Its buffer may hold bytes at any place. -/
structure Fresh (p : HttpParser) : Prop where
  parserResult : p.parserResult = {}
  headerValue : p.requestResult.headerValue = []
  extrabuffer : p.extrabuffer.isVaild = false
  readSpot_le : p.userBuffer.readSpot ≤ p.userBuffer.writeSpot

theorem Fresh.ready {p : HttpParser} (hfresh : p.Fresh) : p.Ready where
  parserResult := by rw [hfresh.parserResult]
  fault := by rw [hfresh.parserResult]; decide
  extrabuffer := hfresh.extrabuffer
  readSpot_le := hfresh.readSpot_le

/-- A new parser whose buffer has received some bytes; `memory` is what the members of the request
that no constructor sets hold. -/
def holding (memory : HttpRequest) (input : List Byte) (hfits : input.length ≤ 4048) :
    HttpParser where
  userBuffer := { UserBuffer.new 4048 with
    buffer := store (UserBuffer.new 4048).buffer 0 input
    writeSpot := input.length
    writeSpot_le := hfits }
  parserResult := {}
  requestResult := HttpRequest.new memory
  extrabuffer := {}

theorem holding_fresh (memory : HttpRequest) {input : List Byte} (hfits : input.length ≤ 4048) :
    (holding memory input hfits).Fresh :=
  ⟨rfl, rfl, rfl, Nat.zero_le _⟩

@[simp]
theorem unread_holding (memory : HttpRequest) {input : List Byte} (hfits : input.length ≤ 4048) :
    (holding memory input hfits).userBuffer.unread = input :=
  load_store _ 0 input

/-- The state of the machine that a parser before a head stands for. -/
def scanStart (p : HttpParser) : Scan := Scan.start p.parserResult.setKa p.parserResult.fault

theorem sees_of_init {p : HttpParser}
    (hresult : p.parserResult = { setKa := p.parserResult.setKa, fault := p.parserResult.fault })
    (hfault : p.parserResult.fault ≠ .hpfContent) (sight : Sight) (table : HeaderTable)
    (known : List (List Byte)) :
    Sees sight table p.requestResult.headerValue known p p.scanStart := by
  have hview : p.parserResult.uriView = ⟨none, 1⟩ ∧ p.parserResult.headerView = ⟨none, 1⟩ ∧
      p.parserResult.valueView = ⟨none, 1⟩ := by
    rw [hresult]
    exact ⟨rfl, rfl, rfl⟩
  obtain ⟨huri, hheader, hvalue⟩ := hview
  have hagrees : Agrees p.parserResult p.scanStart := by
    unfold scanStart
    rw [hresult]
    exact ⟨rfl, rfl, rfl, rfl, rfl, rfl, rfl⟩
  refine ⟨hagrees.paces, fun _ ↦ hagrees, fun _ ↦ hfault, rfl, Scan.shape_start _ _,
    fun _ ↦ ?_, by simp [scanStart, Scan.start], fun _ ↦ ?_, by simp [scanStart, Scan.start],
    fun _ ↦ ?_, by simp [scanStart, Scan.start], fun _ ↦ stored_nil _ _⟩
  · rw [huri]
    exact ParsedHeader.designates_none _ _
  · rw [hheader]
    exact ParsedHeader.designates_none _ _
  · rw [hvalue]
    exact ParsedHeader.designates_none _ _

theorem Ready.tracks {p : HttpParser} (hready : p.Ready) (table : HeaderTable)
    (known : List (List Byte)) :
    Tracks table p.requestResult.headerValue known p p.scanStart :=
  sees_of_init hready.parserResult hready.fault .all table known

theorem Fresh.sees {p : HttpParser} (hfresh : p.Fresh) (sight : Sight) (table : HeaderTable) :
    Sees sight table [] [] p (Scan.start .keepAlive .hpfOK) := by
  have h := sees_of_init hfresh.ready.parserResult hfresh.ready.fault sight table []
  rwa [scanStart, hfresh.parserResult, hfresh.headerValue] at h

theorem Fresh.tracks {p : HttpParser} (hfresh : p.Fresh) (table : HeaderTable) :
    Tracks table [] [] p (Scan.start .keepAlive .hpfOK) := hfresh.sees .all table

/-- A call on a head and whatever follows it takes the head and nothing else. -/
theorem Ready.startingParser_head {p : HttpParser} (hready : p.Ready) (table : HeaderTable)
    {known : List (List Byte)}
    (hknown : Known p.userBuffer.buffer p.requestResult.headerValue known) {h : RequestHead}
    (haccepted : h.Accepted) {rest : List Byte}
    (hunread : p.userBuffer.unread = h.encode ++ rest) :
    ∃ q c, startingParser table p = .ok .hpfContent q ∧
      Scan.HeadRead h p.parserResult.setKa c ∧
      Tracks table p.requestResult.headerValue known q c ∧ Reported q c ∧
      q.userBuffer = p.userBuffer.read h.encode.length ∧ q.extrabuffer = p.extrabuffer := by
  have htracks := hready.tracks table known
  have hstart : ∃ fault, p.scanStart.mark p.parserAble = Scan.start p.parserResult.setKa fault := by
    unfold Scan.mark
    split_ifs
    · exact ⟨_, rfl⟩
    · exact ⟨_, rfl⟩
  obtain ⟨fault, hmark⟩ := hstart
  have hscan : (p.scanStart.mark p.parserAble).scan p.userBuffer.unread =
      (Scan.start p.parserResult.setKa fault).scan h.encode := by
    rw [hmark, hunread, Scan.scan_encode_append haccepted]
  have hread := Scan.headRead_scan haccepted p.parserResult.setKa fault
  rcases htracks.startingParser_follows hready.extrabuffer hknown hready.readSpot_le with
    ⟨-, q, hparse, hstarted⟩ | ⟨hword, -⟩
  · have htracks' := hstarted.sees
    have hreported := hstarted.reported trivial trivial
    obtain ⟨n, hbuffer, hconsumed, -⟩ := hstarted.moved
    rw [hscan] at hparse htracks' hreported hconsumed
    rw [hread.fault] at hparse
    rw [hread.consumed] at hconsumed
    have hn : n = h.encode.length := by
      have hzero : p.scanStart.consumed = 0 := rfl
      omega
    exact ⟨q, _, hparse, hread, htracks', hreported, hn ▸ hbuffer, hstarted.extrabuffer⟩
  · rw [hscan] at hword
    exact absurd hread.word hword

end HttpParser

end LWebServer
