import LWebServer.Server.Pieces

/-!
# Views at the time of the answer

The request holds pointers into an array whose bytes move. When `Provide` is called they designate
the URI and the header lines of the head, unless the buffer has been filled or shifted under it.
-/

namespace LWebServer

open Memory

namespace Member

/-- When `Provide` is called for a head of the stream, the request's URI and the entries stored
since the head began designate its texts. -/
def LiveViews (table : HeaderTable) (log : Log) (a : Arrival) (m : Member) : Prop :=
  ∀ m₁, scan table a m = .ok () m₁ → m₁.httpParser.finished = true →
    ∃ (h : RequestHead) (fresh : List HeaderEntry), h.Accepted ∧
      h.encode <+: (log.seen ++ streamed a.received).drop log.begun ∧
      m₁.httpParser.requestResult.uri.bytes m₁.httpParser.userBuffer.buffer = h.uri ∧
      m₁.httpParser.requestResult.headerValue = log.left ++ fresh ∧
      (contents m₁.httpParser.userBuffer.buffer fresh).Sublist h.headers

/-- No byte of a head that is being read is shifted once its URI has been recorded. -/
def Grounded (a : Arrival) (m : Member) : Prop :=
  m.Midway → streamed a.received ≠ [] → m.httpParser.Settled

variable {table : HeaderTable} {log : Log} {a : Arrival} {m : Member}

/-- A finished head is designated by its views. -/
theorem views_of_finished {stale : List HeaderEntry} {h : RequestHead} {t : List Byte}
    {p : HttpParser} (hfinished : p.Finished .all table stale h t) :
    p.requestResult.uri.bytes p.userBuffer.buffer = h.uri ∧ ∃ fresh,
      p.requestResult.headerValue = stale ++ fresh ∧
      (contents p.userBuffer.buffer fresh).Sublist h.headers := by
  obtain ⟨known, setKa, c, hread, hsees, hreported, -⟩ := hfinished.views
  have huri : c.uri ≠ [] := by
    rw [hread.uri]
    exact h.uri_ne
  obtain ⟨fresh, hentries, -, hkept, -⟩ := hsees.stored trivial
  rw [hread.headers] at hkept
  refine ⟨?_, fresh, hentries, hkept⟩
  rw [((hreported trivial trivial).uri huri).bytes_eq, hread.uri]

/-- A delivery that shifts nothing under a URI disturbs nothing. -/
theorem Grounded.undisturbed (hgrounded : Grounded a m) (hlogged : Logged .all table log m)
    (hmidway : m.Midway) : Undisturbed .all log.left a m := by
  refine ⟨fun hsome ↦ ?_, fun h ↦ absurd h id⟩
  cases hlogged with
  | standing t hstanding =>
    cases hstanding with
    | between hbetween => exact absurd (hbetween.finished.symm.trans hmidway.1) Bool.noConfusion
    | reading hreading => exact hreading.steady trivial (hgrounded hmidway hsome)
  | stopped hstopped => exact absurd hstopped hmidway.2

/-- One call. -/
theorem liveViews_of_logged (hlogged : Logged .all table log m) (hobeys : Obeys a m)
    (hspared : Spared log a m) (hgrounded : Grounded a m) : LiveViews table log a m := by
  intro m₁ hscan hfinished
  obtain ⟨m₀, h, -, hfinished', -⟩ :=
    hlogged.finished trivial hobeys hspared (hgrounded.undisturbed hlogged) hscan hfinished
  obtain ⟨huri, fresh, hentries, hkept⟩ := views_of_finished hfinished'
  exact ⟨h, fresh, hfinished'.accepted, hfinished'.head.trans (log.heard_stream a m₀), huri,
    hentries, hkept⟩

/-- The views are live whenever `Provide` is called, on every stream and however it is delivered, as
long as no delivery shifts the buffer under a URI and no parse comes to the end of a full one. -/
theorem liveViews_of_grounded {arrivals : List Arrival} (fd : ℕ) (memory : HttpRequest)
    (interval : ℕ)
    (hobeys : AlongReads table (fun _ ↦ Obeys) {} arrivals (new fd memory interval))
    (hspared : AlongReads table Spared {} arrivals (new fd memory interval))
    (hgrounded : AlongReads table (fun _ ↦ Grounded) {} arrivals (new fd memory interval)) :
    AlongReads table (LiveViews table) {} arrivals (new fd memory interval) := by
  apply alongReads_of_logged .all trivial _ _ fd memory interval hobeys hspared hgrounded
  · exact fun log a m hgrounded hlogged ↦ Grounded.undisturbed hgrounded hlogged
  · exact fun log a m hlogged hobeys hspared ↦ liveViews_of_logged hlogged hobeys hspared

/-- A request that reaches over the middle of the buffer, the next one in two pieces, of which the
first is shifted to the front and the second is read under a recorded URI; and a request that comes
with as many bytes as fill the buffer. -/
theorem liveViews_of_grounded_pieces :
    AlongReads .sample (LiveViews .sample) {} [inOnePiece (paddedHead 2010).encode,
        inOnePiece (HttpParser.plainHead.encode.take 18),
        inOnePiece (HttpParser.plainHead.encode.drop 18)] (new 5 .zero 0) ∧
      AlongReads .sample (LiveViews .sample) {} [inOnePiece brimful] (new 5 .zero 0) := by
  have hlength : (paddedHead 2010).encode.length = 2048 := length_paddedHead 2010
  have hrun : AlongReads .sample (fun log a m ↦ (Obeys a m ∧ Spared log a m) ∧ Grounded a m) {}
      [inOnePiece (paddedHead 2010).encode, inOnePiece (HttpParser.plainHead.encode.take 18),
        inOnePiece (HttpParser.plainHead.encode.drop 18)] (new 5 .zero 0) := by
    have hrests := rests_new .sample 5 .zero 0
    apply hrests.alongReads_whole (paddedHead_accepted 2010) (encode_ne_nil _) (by omega)
      (fun _ ↦ .inl (by decide)) rfl
    · exact ⟨⟨hrests.obeys (encode_ne_nil _) (by omega), hrests.spared (by omega) _⟩,
        fun _ _ h ↦ absurd rfl h⟩
    intro log m _ _ hbetween hrests
    rw [hlength] at hrests
    apply hrests.alongReads_within HttpParser.plainHead_wellFormed.accepted (by decide) (by decide)
      (fun hmidway ↦ absurd hmidway hbetween) (by decide) (by decide)
    · exact ⟨⟨hrests.obeys (by decide) (by decide), hrests.spared (by decide) _⟩,
        fun hmidway ↦ absurd hmidway hbetween⟩
    intro log' m' _ _ hrests'
    refine ⟨⟨⟨hrests'.obeys (by decide) (by decide), hrests'.spared (by decide) _⟩, fun _ _ _ ↦ ?_⟩,
      fun _ _ ↦ trivial⟩
    rw [hrests'.readSpot, hrests'.bufferSize]
    decide
  exact ⟨liveViews_of_grounded 5 .zero 0 (hrun.imp fun _ _ _ h ↦ h.1.1)
      (hrun.imp fun _ _ _ h ↦ h.1.2) (hrun.imp fun _ _ _ h ↦ h.2),
    liveViews_of_grounded 5 .zero 0 ⟨spared_brimful.1, fun _ _ ↦ trivial⟩
      ⟨spared_brimful.2, fun _ _ ↦ trivial⟩ ⟨fun _ _ h ↦ absurd rfl h, fun _ _ ↦ trivial⟩⟩

/-! ## A shift under a URI -/

/-- A head whose URI reaches over the middle of the buffer. -/
def longHead : RequestHead := { HttpParser.plainHead with
  uri := ascii '/' :: List.replicate 2030 (ascii 'a')
  lines := []
  uri_ne := List.cons_ne_nil _ _
  uri_chars := by
    intro ch hch
    rcases List.mem_cons.mp hch with rfl | hch
    · decide
    · rw [List.eq_of_mem_replicate hch]
      decide }

theorem longHead_accepted : longHead.Accepted :=
  ⟨⟨by decide, .inl (by decide)⟩, fun _ hl ↦ absurd hl List.not_mem_nil,
    fun _ hl ↦ absurd hl List.not_mem_nil⟩

/-- All of it but the last line feed. -/
def longStart : List Byte := longHead.startLine ++ [HttpParser.cr]

/-- The line feed and the next request. -/
def longRest : List Byte := HttpParser.lf :: HttpParser.plainHead.encode

theorem longStart_eq : longStart = text "GET " ++ (longHead.uri ++ text " HTTP/1.1\r\n\r") := by
  have hblank : blanks 1 = [ascii ' '] := rfl
  have h : longHead.startLine = blanks 0 ++ HttpRequestMethod.hrGet.word ++ blanks 1 ++
    longHead.uri ++ blanks 1 ++ text "HTTP/" ++ text "1" ++ [ascii '.'] ++ text "1" ++
      [HttpParser.cr, HttpParser.lf] := rfl
  rw [longStart, h]
  simp only [List.append_assoc]
  rfl

theorem length_longUri : longHead.uri.length = 2031 := by
  rw [show longHead.uri = ascii '/' :: List.replicate 2030 (ascii 'a') from rfl,
    List.length_cons, List.length_replicate]

theorem length_longStart : longStart.length = 2047 := by
  rw [longStart_eq, List.length_append, List.length_append, length_longUri]
  rfl

/-- The machine behind the first piece. -/
theorem scan_longStart : ((Scan.start .keepAlive .hpfOK).scan longStart).status = .hpsCRLFCR ∧
    ((Scan.start .keepAlive .hpfOK).scan longStart).fault = .hpfOK ∧
    ((Scan.start .keepAlive .hpfOK).scan longStart).word = [] ∧
    ((Scan.start .keepAlive .hpfOK).scan longStart).uri = longHead.uri := by
  rw [longStart, Scan.scan_append, Scan.scan_startLine longHead_accepted.supported]
  exact ⟨rfl, rfl, rfl, rfl⟩

/-- Of the places where the URI fits only one begins with a slash. -/
theorem slash_longStart {spot : ℕ} (hspot : spot < 17)
    (hslash : longStart[spot]? = some (ascii '/')) : spot = 4 := by
  have htake : longStart.take 17 = text "GET /aaaaaaaaaaaa" := by decide +kernel
  have hall : ∀ i < 17, (text "GET /aaaaaaaaaaaa")[i]? = some (ascii '/') → i = 4 := by
    decide +kernel
  apply hall spot hspot
  rw [← htake, List.getElem?_take_of_lt hspot, hslash]

/-- Only the last line feed is missing, and the URI is recorded at the front of the buffer. -/
structure Poised (p : HttpParser) : Prop where
  status : p.parserResult.status = .hpsCRLFCR
  fault : p.parserResult.fault = .hpfOK
  uri : p.parserResult.uri = some 4
  uriLength : p.parserResult.uriLength = 2031
  extrabuffer : p.extrabuffer.isVaild = false
  bufferSize : p.userBuffer.bufferSize = 4048
  readSpot : p.userBuffer.readSpot = 2047
  writeSpot : p.userBuffer.writeSpot = 2047

/-- A piece that leaves a new connection inside its first head. -/
theorem scan_piece (table : HeaderTable) {s : List Byte} (hlong : 16 ≤ s.length)
    (hroom : s.length < 4048) (hopen : ¬ ((Scan.start .keepAlive .hpfOK).scan s).ended)
    (hword : ((Scan.start .keepAlive .hpfOK).scan s).word = []) :
    ∃ q, scan table (inOnePiece s) (new 5 .zero 0) =
        .ok () { new 5 .zero 0 with httpParser := q } ∧
      Tracks table [] [] q ((Scan.start .keepAlive .hpfOK).scan s) ∧
      q.extrabuffer.isVaild = false ∧ q.userBuffer.bufferSize = 4048 ∧
      q.userBuffer.readSpot = s.length ∧ q.userBuffer.writeSpot = s.length ∧
      ∀ i, i < s.length → s[i]? = some (q.userBuffer.buffer i) := by
  have hfits : (UserBuffer.new 4048).writeSpot + s.length ≤ (UserBuffer.new 4048).bufferSize := by
    change 0 + s.length ≤ 4048
    omega
  obtain ⟨b, hb⟩ : ∃ b, b = (UserBuffer.new 4048).stored s hfits := ⟨_, rfl⟩
  have hreceive : (UserBuffer.new 4048).receive s = .ok s.length b := by
    rw [hb]
    exact UserBuffer.receive_of_lt hfits (by decide)
  have hwrite : b.writeSpot = s.length := by
    rw [hb]
    exact Nat.zero_add _
  have hread : b.readSpot = 0 := by rw [hb]; rfl
  have hsize : b.bufferSize = 4048 := by rw [hb]; rfl
  have hunread : b.unread = s := by
    rw [hb, UserBuffer.unread_stored]
    rfl
  have hbytes (i : ℕ) (hi : i < s.length) : s[i]? = some (b.buffer i) := by
    have h := getElem?_load b.buffer 0 s.length i hi
    rw [Nat.zero_add] at h
    rw [← h]
    conv_lhs => rw [← hunread, UserBuffer.unread, hread, hwrite, Nat.sub_zero]
  have hsome : b.writeable ≠ 0 := by
    rw [UserBuffer.writeable, hwrite, hsize]
    omega
  obtain ⟨p, hp⟩ : ∃ p, p = { (new 5 .zero 0).httpParser with userBuffer := b } := ⟨_, rfl⟩
  have hpb : p.userBuffer = b := by rw [hp]
  have hfresh : p.Fresh := by
    rw [hp]
    exact ⟨rfl, rfl, rfl, by rw [hread]; exact Nat.zero_le _⟩
  have hmark : (Scan.start .keepAlive .hpfOK).mark p.parserAble = Scan.start .keepAlive .hpfOK := by
    have hable : p.parserAble = true := by
      rw [HttpParser.parserAble, hpb, UserBuffer.readable, hread, hwrite,
        sizeSub_of_le (Nat.zero_le _)]
      exact decide_eq_true hlong
    rw [hable]
    rfl
  have hall := (hfresh.tracks table).startingParser_follows hfresh.extrabuffer
    (fun _ h ↦ absurd h List.not_mem_nil) hfresh.readSpot_le
  rw [hmark, hpb, hunread] at hall
  rcases hall with ⟨-, q, hcall, hstarted⟩ | ⟨hends, -⟩
  swap
  · exact absurd hword hends
  obtain ⟨htracks, -, hextra, n, hbuffer, -, hn⟩ := hstarted
  rw [hmark, hpb, hunread] at htracks hn
  obtain rfl : n = s.length := hn.resolve_right hopen
  rw [hpb] at hbuffer
  refine ⟨q, ?_, htracks, ?_, ?_, ?_, ?_, ?_⟩
  · refine scan_inOnePiece rfl ?_ hreceive hsome rfl hp hcall
    exact hroom.le
  · rw [hextra, hp]
    rfl
  · rw [hbuffer]
    exact hsize
  · rw [hbuffer]
    change b.readSpot + s.length = s.length
    rw [hread, Nat.zero_add]
  · rw [hbuffer]
    exact hwrite
  · rw [hbuffer]
    exact hbytes

theorem scan_longStart_poised : ∃ q, scan .sample (inOnePiece longStart) (new 5 .zero 0) =
    .ok () { new 5 .zero 0 with httpParser := q } ∧ Poised q := by
  have hlength := length_longStart
  obtain ⟨hstatus, hfault, hword, huri⟩ := scan_longStart
  have hopen : ¬ ((Scan.start .keepAlive .hpfOK).scan longStart).ended := by
    rw [Scan.ended, hstatus]
    exact HttpParserStatus.noConfusion
  obtain ⟨q, hscan, htracks, hextra, hsize, hread, hwrite, hbytes⟩ :=
    scan_piece .sample (by omega) (by omega) hopen hword
  rw [hlength] at hread hwrite hbytes
  have hview := htracks.uri
  rw [huri] at hview
  obtain ⟨spot, hspot, hend⟩ := hview.header_isSome longHead.uri_ne
  have hlong : q.parserResult.uriView.length = 2031 := by
    rw [hview.length_eq longHead.uri_ne, length_longUri]
  refine ⟨q, hscan, htracks.agrees.status.trans hstatus, htracks.agrees.fault.trans hfault,
    ?_, hlong, hextra, hsize, hread, hwrite⟩
  have hlimit : q.userBuffer.limit ≤ 2047 := (min_le_right _ _).trans hwrite.le
  have hload := hview.bytes_eq
  rw [ParsedHeader.bytes, hspot, hlong] at hload
  have hcons : load q.userBuffer.buffer spot 2031 =
      q.userBuffer.buffer spot :: load q.userBuffer.buffer (spot + 1) 2030 := load_succ _ _ _
  have hslash : q.userBuffer.buffer spot = ascii '/' :=
    (List.cons.inj (hcons.symm.trans hload)).1
  have hfour : spot = 4 := by
    apply slash_longStart (by omega)
    rw [hbytes spot (by omega), hslash]
  exact hfour ▸ hspot

/-- The last byte of a head. -/
theorem startingParser_lastByte (table : HeaderTable) {p : HttpParser} {rest : List Byte}
    (hstatus : p.parserResult.status = .hpsCRLFCR)
    (hunread : p.userBuffer.unread = HttpParser.lf :: rest)
    (hextra : p.extrabuffer.isVaild = false) (hable : p.parserAble = true) :
    HttpParser.startingParser table p = .ok .hpfContent (HttpParser.setRequesting { p with
      userBuffer := p.userBuffer.read 1
      parserResult := { p.parserResult with status := .hpsGameOver, fault := .hpfContent } }) := by
  have hlt := (UserBuffer.unread_cons hunread).1
  have hrunning : p.running := by
    constructor
    · rw [hstatus]
      exact HttpParserStatus.noConfusion
    · rw [UserBuffer.readable, sizeSub_of_le hlt.le]
      omega
  have hcases : HttpParser.cases table HttpParser.lf p = .ok .break (p.mapResult fun c ↦
      { c with status := .hpsGameOver, fault := .hpfContent }) := by
    rw [HttpParser.cases, hstatus]
    rfl
  have hturn : HttpParser.turn table p = .ok () { p with
      userBuffer := p.userBuffer.read 1
      parserResult := { p.parserResult with status := .hpsGameOver, fault := .hpfContent } } := by
    rw [HttpParser.turn_eq hunread, hcases]
    exact HttpParser.refill_of_invalid hextra
  have hbound : p.turnBound = p.turnBound - 1 + 1 := by
    have hpos : 0 < p.turnBound := Nat.mul_pos (Nat.succ_pos _) (Nat.succ_pos _)
    omega
  rw [HttpParser.startingParser, HttpParser.markShort, if_pos hable, HttpParser.parsering, hbound,
    HttpParser.loop_running hrunning _ hturn, HttpParser.loop_of_ended rfl]

/-- The shift puts the bytes received to the front. -/
theorem receive_longRest {b : UserBuffer} (hsize : b.bufferSize = 4048) (hread : b.readSpot = 2047)
    (hwrite : b.writeSpot = 2047) : ∃ b', b.receive longRest = .ok longRest.length b' ∧
      b'.unread = longRest ∧ b'.readSpot = 0 ∧ b'.writeSpot = 28 ∧ b'.bufferSize = 4048 ∧
      b'.buffer 4 = ascii ' ' := by
  have hlength : longRest.length = 28 := by decide
  have hfits : b.writeSpot + longRest.length ≤ b.bufferSize := by omega
  have hunread : (b.stored longRest hfits).moved.unread = longRest := by
    have hnone : b.unread = [] := by
      rw [UserBuffer.unread, hread, hwrite]
      rfl
    rw [UserBuffer.unread_moved, UserBuffer.unread_stored, hnone, hread, hwrite]
    rfl
  have hend : (b.stored longRest hfits).moved.writeSpot = 28 := by
    change b.writeSpot + longRest.length - b.readSpot = 28
    omega
  refine ⟨(b.stored longRest hfits).moved, UserBuffer.receive_of_ge hfits (by omega) (by omega),
    hunread, rfl, hend, hsize, ?_⟩
  have hload := getElem?_load (b.stored longRest hfits).moved.buffer 0 28 4 (by decide)
  rw [UserBuffer.unread, hend] at hunread
  have hfront : load (b.stored longRest hfits).moved.buffer 0 28 = longRest := hunread
  rw [hfront] at hload
  exact Option.some.inj (hload.symm.trans (by decide))

/-- The request is finished with a URI that is none. -/
theorem scan_longRest (table : HeaderTable) {m : Member} (hpoised : Poised m.httpParser) :
    ∃ m₁ rest, scan table (inOnePiece longRest) m = .ok () m₁ ∧ m₁.httpParser.finished = true ∧
      m₁.httpParser.requestResult.uri.bytes m₁.httpParser.userBuffer.buffer =
        ascii ' ' :: rest := by
  obtain ⟨hstatus, hfault, huri, huriLength, hextra, hsize, hread, hwrite⟩ := hpoised
  obtain ⟨b, hreceive, hunread, hread', hwrite', hsize', hblank⟩ :=
    receive_longRest hsize hread hwrite
  obtain ⟨p, hp⟩ : ∃ p, p = { m.httpParser with userBuffer := b } := ⟨_, rfl⟩
  have hbuffer : p.userBuffer = b := by rw [hp]
  have hresult : p.parserResult = m.httpParser.parserResult := by rw [hp]
  have hextra' : p.extrabuffer.isVaild = false := by
    rw [hp]
    exact hextra
  have hable : p.parserAble = true := by
    rw [HttpParser.parserAble, hbuffer, UserBuffer.readable, hread', hwrite']
    decide
  have hcall := startingParser_lastByte table (hresult ▸ hstatus) (hbuffer ▸ hunread)
    hextra' hable
  refine ⟨_, load b.buffer 5 2030, scan_inOnePiece hextra ?_ hreceive ?_ ?_ hp hcall, rfl, ?_⟩
  · rw [UserBuffer.writeable, hsize, hwrite]
    decide
  · rw [UserBuffer.writeable, hsize', hwrite']
    decide
  · simp [HttpParser.finished, hfault]
  · have hload : load b.buffer 4 2031 = ascii ' ' :: load b.buffer 5 2030 := by
      rw [← hblank]
      exact load_succ _ _ _
    rw [← hload]
    simp only [HttpParser.setRequesting, ParsedHeader.bytes, hresult, huri, huriLength, hbuffer,
      UserBuffer.read, reduceCtorEq, if_false]

theorem longHead_prefix : longHead.encode <+: longStart ++ longRest := by
  refine ⟨HttpParser.plainHead.encode, ?_⟩
  have hlines : longHead.lines = [] := rfl
  simp [longStart, longRest, RequestHead.encode, hlines]

/-- A URI that is recorded when the buffer is shifted designates other bytes afterwards. -/
theorem not_liveViews_longHead :
    AlongReads .sample (fun _ ↦ Obeys) {} [inOnePiece longStart, inOnePiece longRest]
        (new 5 .zero 0) ∧
      ¬ AlongReads .sample (LiveViews .sample) {} [inOnePiece longStart, inOnePiece longRest]
        (new 5 .zero 0) := by
  obtain ⟨q, hscan, hpoised⟩ := scan_longStart_poised
  have hunfinished : q.finished = false := by
    simp [HttpParser.finished, hpoised.fault]
  have hdo : ∃ result m₂, doAll [] ({ new 5 .zero 0 with httpParser := q } : Member) =
      .ok result m₂ := ⟨_, _, rfl⟩
  obtain ⟨result, m₂, hdo⟩ := hdo
  obtain ⟨m', hread, hsame⟩ := doRead_of_unfinished hscan hunfinished hdo
  have hpoised : Poised m'.httpParser := by
    rw [hsame]
    exact hpoised
  have hprovides : provides .sample (inOnePiece longStart) (new 5 .zero 0) = false :=
    (provides_eq hscan).trans hunfinished
  constructor
  · refine ⟨obeys_inOnePiece ?_ ?_, fun m'' hread' ↦ ?_⟩
    · exact List.ne_nil_of_length_pos (by rw [length_longStart]; decide)
    · rw [length_longStart]
      decide
    · rw [hread] at hread'
      cases hread'
      refine ⟨obeys_inOnePiece (List.cons_ne_nil _ _) ?_, fun _ _ ↦ trivial⟩
      rw [UserBuffer.writeable, hpoised.bufferSize, hpoised.writeSpot]
      decide
  · intro hlive
    obtain ⟨m₁, rest, hscan₁, hfinished, hbytes⟩ := scan_longRest .sample hpoised
    obtain ⟨h, fresh, haccepted, hhead, huri, -⟩ := (hlive.2 m' hread).1 m₁ hscan₁ hfinished
    rw [Log.next_of_unfinished hprovides] at hhead
    dsimp only at hhead
    rw [streamed_inOnePiece, streamed_inOnePiece, List.nil_append, List.drop_zero] at hhead
    have hencode := encode_eq_of_prefix haccepted longHead_accepted hhead longHead_prefix
    obtain ⟨-, hsameUri, -⟩ := RequestHead.encode_inj hencode
    rw [hbytes, hsameUri] at huri
    exact absurd (List.cons.inj huri).1 (by decide)

end Member

end LWebServer
