import LWebServer.Server.Probes

/-!
# The bytes that were left in a buffer

The bytes in the second half of the buffer are seen as well. A request comes in two pieces, and
between them an answer 0 of `recv` brings the positions back to the front: the URI stays where it is
and goes on over a byte that nothing has been put on.
-/

namespace LWebServer

open Lockstep

/-! ## The URI while it is read -/

namespace HttpParser

/-- The URI has ended, and this is the view of it. -/
def UriEnded (v : ParsedHeader) (p : HttpParser) : Prop :=
  p.parserResult.status.beforeUri = false ∧ p.parserResult.status ≠ .hpsUriParser ∧
    p.parserResult.uriView = v

variable (table : HeaderTable) {v : ParsedHeader}

theorem uriEnded_readWord (word : List Byte) {next : HttpParserStatus}
    (hnext : next.beforeUri = false ∧ next ≠ .hpsUriParser) (fault : HttpParserFault) :
    Op.Maintains (UriEnded v) (readWord word next id fault) := by
  intro p hended
  unfold readWord
  cases p.userBuffer.readInto word.length with
  | error e b => exact hended
  | ok buffer b =>
    dsimp only
    split_ifs
    · exact ⟨hnext.1, hnext.2, hended.2.2⟩
    · exact ⟨rfl, HttpParserStatus.noConfusion, hended.2.2⟩

theorem uriView_contentLengthLoop (bytes : List Byte) (r : HttpParserContent) :
    (contentLengthLoop bytes r).uriView = r.uriView := by
  rw [Sees.contentLengthLoop_eq]
  rfl

theorem uriEnded_storeHeaderCase : Op.Maintains (UriEnded v) (storeHeaderCase table) := by
  intro p hended
  have hview := hended.2.2
  unfold storeHeaderCase
  dsimp only
  split_ifs
  all_goals first
    | exact ⟨rfl, HttpParserStatus.noConfusion, hview⟩
    | exact ⟨rfl, HttpParserStatus.noConfusion, (uriView_contentLengthLoop _ _).trans hview⟩

theorem uriEnded_cases (ch : Byte) : Op.Maintains (UriEnded v) (cases table ch) := by
  intro p hended
  obtain ⟨hearly, hparser, hview⟩ := hended
  unfold cases
  cases hstatus : p.parserResult.status <;> rw [hstatus] at hearly hparser <;> dsimp only
  case hpsOK | hpsOption | hpsGet | hpsHead | hpsDelete | hpsPost | hpsBetweenMU | hpsUriStart =>
    exact absurd hearly (by decide)
  case hpsUriParser => exact absurd rfl hparser
  case hpsUriEnd =>
    split_ifs
    · exact ⟨rfl, HttpParserStatus.noConfusion, hview⟩
    · exact uriEnded_readWord _ ⟨rfl, HttpParserStatus.noConfusion⟩ _ p
        ⟨hstatus ▸ hearly, hstatus ▸ hparser, hview⟩
  case hpsStoreHeader =>
    exact uriEnded_storeHeaderCase table p ⟨hstatus ▸ hearly, hstatus ▸ hparser, hview⟩
  case hpsGameOver => exact ⟨hstatus ▸ hearly, hstatus ▸ hparser, hview⟩
  all_goals
    split_ifs
    all_goals exact ⟨rfl, HttpParserStatus.noConfusion, hview⟩

theorem uriEnded_refill : Op.Maintains (UriEnded v) refill := by
  intro p hended
  unfold refill
  dsimp only
  split_ifs
  · cases UserBuffer.writeBytes _ _ <;> exact hended
  · exact hended
  · exact hended

theorem uriEnded_turn : Op.Maintains (UriEnded v) (turn table) := by
  intro p hended
  unfold turn
  cases p.userBuffer.peek 0 with
  | none => exact hended
  | some ch =>
    have hcases := uriEnded_cases table ch p hended
    dsimp only
    cases hcall : cases table ch p with
    | error e q =>
      rw [hcall] at hcases
      exact hcases
    | ok jump q =>
      rw [hcall] at hcases
      cases jump with
      | «continue» => exact hcases
      | «break» => exact uriEnded_refill { q with userBuffer := q.userBuffer.read 1 } hcases

/-- Nothing changes the view of a URI that has ended. -/
theorem uriEnded_loop (turns : ℕ) : Op.Maintains (UriEnded v) (loop table turns) := by
  induction turns with
  | zero => exact fun _ hended ↦ hended
  | succ turns ih =>
    intro p hended
    unfold loop
    split_ifs
    · have hturn := uriEnded_turn table p hended
      cases hcall : turn table p with
      | error e q =>
        rw [hcall] at hturn
        exact hturn
      | ok _ q =>
        rw [hcall] at hturn
        exact ih q hturn
    · exact hended

/-- The parser behind one more character of the URI. -/
def lengthened (p : HttpParser) : HttpParser := { p with
  userBuffer := p.userBuffer.read 1
  parserResult := { p.parserResult with
    status := .hpsUriParser, uriLength := p.parserResult.uriLength + 1 } }

/-- The parser behind the blank that ends the URI. -/
def pastUri (p : HttpParser) : HttpParser := { p with
  userBuffer := p.userBuffer.read 1
  parserResult := { p.parserResult with status := .hpsUriEnd } }

/-- One more character, and the blank behind it, lengthen the view of the URI by one wherever the
character is. -/
theorem uriView_parsering {p q : HttpParser} {rest : List Byte}
    (hstatus : p.parserResult.status = .hpsUriParser)
    (hunread : p.userBuffer.unread = ascii 'a' :: ascii ' ' :: rest)
    (hextra : p.extrabuffer.isVaild = false) (hparse : parsering table p = .ok () q) :
    q.parserResult.uriView = ⟨p.parserResult.uri, p.parserResult.uriLength + 1⟩ := by
  have hblank : isUri (ascii ' ') = false := by decide
  obtain ⟨hlt, -, hrest⟩ := UserBuffer.unread_cons hunread
  obtain ⟨hlt', -, -⟩ := UserBuffer.unread_cons hrest
  -- the character
  have hfirst : turn table p = .ok () (lengthened p) := by
    rw [turn_eq hunread]
    have hcases : cases table (ascii 'a') p = .ok .break (p.mapResult fun c ↦
        { c with status := .hpsUriParser, uriLength := c.uriLength + 1 }) := by
      unfold cases
      rw [hstatus]
      exact if_pos (by decide)
    rw [hcases]
    exact refill_of_invalid hextra
  -- the blank
  have hsecond : turn table (lengthened p) = .ok () (lengthened p).pastUri := by
    rw [turn_eq hrest]
    have hcases : cases table (ascii ' ') (lengthened p) = .ok .break
        ((lengthened p).mapResult fun c ↦ { c with status := .hpsUriEnd }) := by
      unfold cases
      rw [show (lengthened p).parserResult.status = .hpsUriParser from rfl]
      dsimp only
      rw [hblank, if_neg Bool.false_ne_true]
      rfl
    rw [hcases]
    exact refill_of_invalid hextra
  have hrunning : p.running := by
    refine ⟨by rw [hstatus]; exact HttpParserStatus.noConfusion, ?_⟩
    rw [UserBuffer.readable, sizeSub_of_le hlt.le]
    omega
  have hrunning' : (lengthened p).running := by
    refine ⟨HttpParserStatus.noConfusion, ?_⟩
    change sizeSub p.userBuffer.writeSpot (p.userBuffer.readSpot + 1) ≠ 0
    rw [sizeSub_of_le hlt]
    change p.userBuffer.readSpot + 1 < p.userBuffer.writeSpot at hlt'
    omega
  obtain ⟨turns, hturns⟩ : ∃ turns, p.turnBound = turns + 2 := by
    have htwo : 2 ≤ p.turnBound := calc
      2 ≤ p.userBuffer.bufferSize + 2 := Nat.le_add_left _ _
      _ ≤ p.turnBound := Nat.le_mul_of_pos_right _ (Nat.succ_pos _)
    exact ⟨_, (Nat.sub_add_cancel htwo).symm⟩
  unfold parsering at hparse
  rw [hturns, loop_running hrunning _ hfirst, loop_running hrunning' _ hsecond] at hparse
  have hended := uriEnded_loop table turns (lengthened p).pastUri
    ⟨rfl, HttpParserStatus.noConfusion, rfl⟩
  rw [hparse] at hended
  exact hended.2.2

variable {table}

/-- What `Parsering` has left is reported. -/
theorem exists_parsering {p q : HttpParser} {fault : HttpParserFault}
    (hcall : startingParser table p = .ok fault q) :
    ∃ q', parsering table p.markShort = .ok () q' ∧ q = q'.setRequesting := by
  unfold startingParser at hcall
  cases hparse : parsering table p.markShort with
  | error e q' =>
    rw [hparse] at hcall
    cases hcall
  | ok _ q' =>
    rw [hparse] at hcall
    cases hcall
    exact ⟨q', rfl, rfl⟩

theorem uriView_markShort (p : HttpParser) :
    p.markShort.parserResult.uriView = p.parserResult.uriView := by
  unfold HttpParser.markShort
  split_ifs <;> rfl

/-- The URI that is reported is the one that has been lengthened. -/
theorem uri_startingParser {p q : HttpParser} {fault : HttpParserFault} {start length : ℕ}
    {rest : List Byte} (hstatus : p.parserResult.status = .hpsUriParser)
    (huri : p.parserResult.uriView = ⟨some start, length⟩)
    (hunread : p.userBuffer.unread = ascii 'a' :: ascii ' ' :: rest)
    (hextra : p.extrabuffer.isVaild = false) (hcall : startingParser table p = .ok fault q) :
    q.requestResult.uri = ⟨some start, length + 1⟩ := by
  obtain ⟨hbuffer, hextra', -⟩ := markShort_buffers p
  have hstatus' := (status_markShort p).trans hstatus
  have hview := (uriView_markShort p).trans huri
  have hinvalid : p.markShort.extrabuffer.isVaild = false := by
    rw [hextra']
    exact hextra
  obtain ⟨q', hparse, rfl⟩ := exists_parsering hcall
  have hlonger := uriView_parsering table hstatus' (hbuffer ▸ hunread) hinvalid hparse
  obtain ⟨hheader, hlength⟩ := ParsedHeader.mk.inj hview
  rw [hheader, hlength] at hlonger
  have hsome : q'.parserResult.uri = some start := congrArg ParsedHeader.header hlonger
  rw [← hlonger]
  simp only [setRequesting, hsome, reduceCtorEq, if_false, HttpParserContent.uriView]

/-- Where nothing has come there is nothing to parse. -/
theorem startingParser_of_nil {p : HttpParser} (hnone : p.userBuffer.unread = [])
    (hle : p.userBuffer.readSpot ≤ p.userBuffer.writeSpot) (table : HeaderTable) :
    startingParser table p =
      .ok p.markShort.parserResult.fault p.markShort.setRequesting := by
  have hlength := congrArg List.length hnone
  rw [UserBuffer.length_unread, List.length_nil] at hlength
  have hstopped : ¬ p.markShort.running := by
    rintro ⟨-, hreadable⟩
    apply hreadable
    rw [(markShort_buffers p).1, UserBuffer.readable, sizeSub_of_le hle, hlength]
  unfold startingParser parsering
  rw [loop_stopped hstopped]

end HttpParser

namespace Member

variable {table : HeaderTable} {m m' : Member}

/-! ## The bytes in the second half of the buffer -/

/-- All of the header lines, but not the URI. -/
def headersOnly : Sight := ⟨False, True, True, False, id⟩

/-- A `POST` as far as the first character of its URI, which is the last of `i` bytes. -/
def lead (i : ℕ) : List Byte := blanks (i - 6) ++ text "POST /"

theorem length_lead {i : ℕ} (hi : 6 ≤ i) : (lead i).length = i := by
  rw [lead, List.length_append, length_blanks]
  exact Nat.sub_add_cancel hi

theorem scan_lead (setKa : HttpFlag) (fault : HttpParserFault) {i : ℕ} (hi : 6 ≤ i) :
    (Scan.start setKa fault).scan (lead i) = {
      status := .hpsUriParser, fault := fault, method := .hrPost, uri := text "/"
      setKa := setKa, consumed := i } := by
  rw [lead, Scan.scan_append, Scan.scan_blanks fun _ ↦ rfl]
  have hconsumed : 0 + (i - 6) + 6 = i := by omega
  nth_rewrite 2 [← hconsumed]
  rfl

theorem within_lead (setKa : HttpFlag) (fault : HttpParserFault) {i : ℕ} (hi : 6 ≤ i)
    (hfault : fault ≠ .hpfContent) :
    Scan.Within setKa (lead i) ((Scan.start setKa fault).scan (lead i)) := by
  rw [scan_lead setKa fault hi]
  refine ⟨?_, hfault, HttpParserStatus.noConfusion⟩
  rw [scan_lead setKa .hpfOK hi]
  rfl

/-- The machine behind these bytes, whatever its fault. -/
theorem eq_of_within {setKa : HttpFlag} {i : ℕ} {c : Scan}
    (hwithin : Scan.Within setKa (lead i) c) (hi : 6 ≤ i) : c = {
      status := .hpsUriParser, fault := c.fault, method := .hrPost, uri := text "/"
      setKa := setKa, consumed := i } := by
  have hscans := hwithin.scans
  rw [scan_lead setKa .hpfOK hi] at hscans
  calc c = { c.forget with fault := c.fault } := rfl
    _ = _ := by rw [hscans]; rfl

/-- The first `i` bytes of a `POST` have come and have been parsed, so that its URI is the byte
before `i`. Both positions are at `spot`, and from `i` on the bytes are those of `mem`. -/
structure Parked (sight : Sight) (table : HeaderTable) (i spot : ℕ) (mem : ℕ → Byte) (m : Member) :
    Prop where
  sees : ∃ setKa c, Scan.Within setKa (lead i) c ∧ Sees sight table [] [] m.httpParser c
  uri : m.httpParser.parserResult.uriView = ⟨some (i - 1), 1⟩
  extrabuffer : m.httpParser.extrabuffer.isVaild = false
  bufferSize : m.httpParser.userBuffer.bufferSize = 4048
  readSpot : m.httpParser.userBuffer.readSpot = spot
  writeSpot : m.httpParser.userBuffer.writeSpot = spot
  cells : ∀ j, i ≤ j → m.httpParser.userBuffer.buffer j = mem j
  que : m.writeLoop.que = []

theorem unfinished_of_within {sight : Sight} {setKa : HttpFlag} {t : List Byte} {c : Scan}
    {q : HttpParser} (hwithin : Scan.Within setKa t c) (hsees : Sees sight table [] [] q c) :
    q.finished = false := by
  unfold HttpParser.finished
  exact decide_eq_false fun hcontent ↦ hwithin.fault (hsees.paces.content.mp hcontent)

/-- The URI is the byte before the read position. -/
theorem uriView_of_within {setKa : HttpFlag} {i : ℕ} {c : Scan} {q : HttpParser}
    (hwithin : Scan.Within setKa (lead i) c) (hi : 6 ≤ i) (htracks : Tracks table [] [] q c)
    (hread : q.userBuffer.readSpot = i) : q.parserResult.uriView = ⟨some (i - 1), 1⟩ := by
  have hview := htracks.uri
  have hend := Sees.uriEnd htracks trivial
  rw [eq_of_within hwithin hi] at hview hend
  obtain ⟨start, hheader, hstart⟩ := hend rfl
  have hone : q.parserResult.uriView.length = 1 := hview.length_eq (List.cons_ne_nil _ _)
  rw [hread, hone] at hstart
  generalize q.parserResult.uriView = view at hheader hone
  obtain ⟨header, length⟩ := view
  dsimp only at hheader hone
  rw [hheader, hone, ← hstart, Nat.add_sub_cancel]

/-- The beginning of a `POST` comes in one piece. -/
theorem Unused.parks (hunused : m.Unused) (table : HeaderTable) {i : ℕ} (hlow : 6 ≤ i)
    (hhigh : i < 4048) : ∃ shown m', step table (.doRead (inOnePiece (lead i))) m = (shown, some m') ∧
      Parked .all table i i m.httpParser.userBuffer.buffer m' := by
  have hreceived : (inOnePiece (lead i)).received = [.bytes (lead i), .eagain] := rfl
  have hlength := length_lead hlow
  obtain ⟨hfits, p, hreceive, hfed⟩ := hunused.exists_fed hreceived (hlength.trans_lt hhigh)
  have hready := hunused.ready_fed hfed
  have htracks := hready.tracks table []
  rw [hunused.headerValue_fed hfed] at htracks
  obtain ⟨fault, hfault, hmark⟩ : ∃ fault, fault ≠ HttpParserFault.hpfContent ∧
      p.scanStart.mark p.parserAble = Scan.start p.parserResult.setKa fault := by
    unfold Scan.mark
    split_ifs
    · exact ⟨_, hready.fault, rfl⟩
    · exact ⟨_, HttpParserFault.noConfusion, rfl⟩
  have hscanned := scan_lead p.parserResult.setKa fault hlow
  have hwithin := within_lead p.parserResult.setKa fault hlow hfault
  rw [← hmark] at hscanned hwithin
  rcases htracks.startingParser_follows hready.extrabuffer
    (fun entry hentry ↦ absurd hentry List.not_mem_nil) hready.readSpot_le with
    ⟨-, q, hcall, hstarted⟩ | ⟨hword, -⟩
  swap
  · rw [hunused.unread_fed hfed, hscanned] at hword
    exact absurd rfl hword
  have hsees := hstarted.sees
  obtain ⟨n, hbuffer, hconsumed, -⟩ := hstarted.moved
  rw [hunused.unread_fed hfed] at hsees hconsumed
  rw [hscanned] at hconsumed
  have hn : n = i := by
    change i = 0 + n at hconsumed
    omega
  have hunfinished := unfinished_of_within hwithin hsees
  have hscan : scan table (inOnePiece (lead i)) m = .ok () { m with httpParser := q } := by
    rw [scan_of_fed hreceive hfed hunused.unfinished, hcall]
  obtain ⟨shown, m', hstep, -, hparser, hque⟩ := step_of_unfinished hscan hunfinished hunused.que
  have hstored := hfed.userBuffer
  have hread : q.userBuffer.readSpot = i := by
    rw [hbuffer, hstored, hn]
    change m.httpParser.userBuffer.readSpot + i = i
    rw [hunused.readSpot, Nat.zero_add]
  have hwrite : q.userBuffer.writeSpot = i := by
    rw [hbuffer, hstored]
    change m.httpParser.userBuffer.writeSpot + (lead i).length = i
    rw [hunused.writeSpot, hlength, Nat.zero_add]
  refine ⟨shown, m', hstep, ⟨_, _, hwithin, hparser ▸ hsees⟩, ?_, ?_, ?_, ?_, ?_, fun j hj ↦ ?_,
    hque⟩
  · rw [hparser]
    exact uriView_of_within hwithin hlow hsees hread
  · rw [hparser, hstarted.extrabuffer]
    exact hready.extrabuffer
  · rw [hparser, hbuffer, hstored]
    exact hunused.bufferSize
  · rw [hparser, hread]
  · rw [hparser, hwrite]
  · rw [hparser, hbuffer, hstored]
    apply Memory.store_of_ge
    rw [hunused.writeSpot, hlength, Nat.zero_add]
    exact hj

/-- A `recv` that answers 0, which commits no bytes. -/
def silence : Arrival := { inOnePiece [] with received := [.zero, .eagain] }

/-- The answer 0 is taken for no bytes. -/
theorem read_zero (heap : ℕ → Byte) : Socket.read heap [.zero, .eagain] =
    Socket.read heap [.bytes [], .eagain] := by
  have hturn : Receiving.turn heap .zero = Receiving.turn heap (.bytes []) := by
    funext r
    unfold Receiving.turn
    dsimp only
    rw [Op.bind_get, List.take_nil]
  unfold Socket.read Receiving.drain
  rw [hturn]

/-- The read position has reached the second half, so that the committing of no bytes brings it to
the front. -/
theorem receive_silence {i : ℕ} (hextra : m.httpParser.extrabuffer.isVaild = false)
    (hsize : m.httpParser.userBuffer.bufferSize = 4048)
    (hread : m.httpParser.userBuffer.readSpot = i) (hwrite : m.httpParser.userBuffer.writeSpot = i)
    (hlow : 2024 ≤ i) :
    ∃ b p, receive silence m = .ok () { m with httpParser := p } ∧ Fed b m p ∧
      b.bufferSize = 4048 ∧ b.readSpot = 0 ∧ b.writeSpot = 0 ∧
      ∀ j, i ≤ j → b.buffer j = m.httpParser.userBuffer.buffer j := by
  have hfits : m.httpParser.userBuffer.writeSpot + ([] : List Byte).length ≤
      m.httpParser.userBuffer.bufferSize := m.httpParser.userBuffer.writeSpot_le
  have hreceive := UserBuffer.receive_of_ge hfits (by rw [hsize, hread]; exact hlow)
    (by rw [hread, hwrite]; exact Nat.le_add_right _ _)
  have hcount : (m.httpParser.userBuffer.stored [] hfits).writeSpot -
      (m.httpParser.userBuffer.stored [] hfits).readSpot = 0 := by
    change m.httpParser.userBuffer.writeSpot + 0 - m.httpParser.userBuffer.readSpot = 0
    omega
  have hsome : (m.httpParser.userBuffer.stored [] hfits).moved.writeable ≠ 0 := by
    change m.httpParser.userBuffer.bufferSize -
      (m.httpParser.userBuffer.writeSpot + 0 - m.httpParser.userBuffer.readSpot) ≠ 0
    omega
  obtain ⟨sum, hcall⟩ := @Socket.read_one silence.heap [] _ _ _ hextra (Nat.zero_le _) hreceive
    hsome
  refine ⟨_, _, ?_, fed (m.httpParser.userBuffer.stored [] hfits).moved m, hsize, rfl, hcount,
    fun j hj ↦ ?_⟩
  · unfold receive
    dsimp only
    rw [show silence.received = [.zero, .eagain] from rfl, read_zero, hcall]
  · unfold UserBuffer.moved
    dsimp only
    rw [hcount]
    exact (Memory.store_of_ge _ _ (by simp)).trans
      (Memory.store_of_ge _ _ (by rw [hwrite]; exact hj))

/-- The URI stays where it is while the positions go to the front. -/
theorem Parked.shifts {sight : Sight} {i : ℕ} {mem : ℕ → Byte}
    (hparked : Parked sight table i i mem m) (hline : sight.line) (hentries : sight.entries)
    (hlow : 2024 ≤ i) :
    ∃ shown m', step table (.doRead silence) m = (shown, some m') ∧
      Parked headersOnly table i 0 mem m' := by
  obtain ⟨⟨setKa, c, hwithin, hsees⟩, huri, hextra, hsize, hread, hwrite, hcells, hque⟩ := hparked
  obtain ⟨b, p, hreceive, hfed, hsize', hread', hwrite', hcells'⟩ :=
    receive_silence hextra hsize hread hwrite hlow
  have hbare : c.headers = [] ∧ c.name = [] ∧ c.value = [] := by
    rw [eq_of_within hwithin (by omega)]
    exact ⟨rfl, rfl, rfl⟩
  have hshifted : Sees headersOnly table [] [] p c :=
    hfed.shifted hsees not_false hline hentries hbare (hsize'.trans hsize.symm)
  have hsees' := hshifted.markShort.setRequesting
  have hwithin' := hwithin.mark p.parserAble
  have hnone : p.userBuffer.unread = [] := by
    rw [hfed.userBuffer, UserBuffer.unread, hread', hwrite']
    rfl
  have hcall := HttpParser.startingParser_of_nil hnone (by rw [hfed.userBuffer, hread', hwrite']) table
  have hunfinished := unfinished_of_within hwithin hsees
  have hscan : scan table silence m =
      .ok () { m with httpParser := p.markShort.setRequesting } := by
    rw [scan_of_fed hreceive hfed hunfinished, hcall]
  have hunfinished' := unfinished_of_within hwithin' hsees'
  obtain ⟨shown, m', hstep, -, hparser, hque'⟩ := step_of_unfinished hscan hunfinished' hque
  obtain ⟨hbuffer, hextra', -⟩ := markShort_buffers p
  have hbuffer' : m'.httpParser.userBuffer = b := by
    rw [hparser]
    exact hbuffer.trans hfed.userBuffer
  refine ⟨shown, m', hstep, ⟨_, _, hwithin', hparser ▸ hsees'⟩, ?_, ?_, ?_, ?_, ?_, fun j hj ↦ ?_,
    hque'⟩
  · rw [hparser, ← huri, ← hfed.parserResult]
    exact HttpParser.uriView_markShort p
  · rw [hparser]
    exact hextra'.symm ▸ hfed.extrabuffer ▸ hextra
  · rw [hbuffer', hsize']
  · rw [hbuffer', hread']
  · rw [hbuffer', hwrite']
  · rw [hbuffer', hcells' j hj, hcells j hj]

/-- The rest of the `POST`, with one more character of the URI. -/
def ending : List Byte := text "a HTTP/1.1\r\nHost: abc\r\n\r\n"

/-- A FastCGI server that fails in one way if the second character of the file name is NUL, and in
another way if it is not. -/
def telling : Site := { Site.bare with
  fastCgi := fun _ filename ↦
    .error (if filename[1]? = some 0 then .logicError else .outOfRange) }

def probing : Arrival := { inOnePiece ending with site := telling }

/-- All that comes of the `POST`. -/
def probe (i : ℕ) : RequestHead := { HttpParser.plainHead with
  leading := i - 6
  method := .hrPost
  uri := text "/a"
  lines := HttpParser.plainHead.lines.map fun l ↦ { l with
    value := text "abc", value_ne := by decide, value_chars := forall_mem_of_all rfl }
  method_known := by decide
  uri_ne := by decide
  uri_chars := forall_mem_of_all rfl }

theorem encode_probe (i : ℕ) : lead i ++ ending = (probe i).encode := by
  unfold lead RequestHead.encode RequestHead.startLine
  simp only [List.append_assoc]
  rfl

theorem probe_accepted (i : ℕ) : (probe i).Accepted := by
  have hone : Decimal.wrap 32 (numeral (text "1")) = 1 := by decide
  refine ⟨⟨hone, .inl hone⟩, ?_, ?_⟩
  · exact List.forall_mem_singleton.mpr fun hname ↦ absurd hname (by decide)
  · exact List.forall_mem_singleton.mpr (by unfold HeaderLine.Trimmed; decide)

/-- The FastCGI server is given the byte at `i` for the second character of the URI. -/
theorem respond_telling {mem : ℕ → Byte} {i : ℕ} (hi : 0 < i) {r : HttpRequest}
    (hpost : r.method = .hrPost) (huri : r.uri = ⟨some (i - 1), 2⟩) {host : ParsedHeader}
    (hfound : r.getValue table mem (text "Host") = some host) (hhost : host.length = 3) :
    REAProvider.respond table telling mem r =
      .error (if mem i = 0 then .logicError else .outOfRange) := by
  have hfilename : ParsedHeader.bytes mem ⟨some (i - 1), 3⟩ =
      [mem (i - 1), mem i, mem (i + 1)] := by
    rw [ParsedHeader.bytes_some]
    have hnext : i - 1 + 1 = i := Nat.sub_add_cancel hi
    have hlast : i - 1 + 2 = i + 1 := by omega
    simp [Memory.load, List.range_succ, hnext, hlast]
  have hcgi : REAProvider.cgiContent telling mem host r.uri =
      .error (if mem i = 0 then .logicError else .outOfRange) := by
    unfold REAProvider.cgiContent
    rw [huri]
    dsimp only
    rw [hfilename, hhost]
    simp [telling]
  unfold REAProvider.respond
  rw [if_pos hpost, hfound]
  dsimp only
  rw [hcgi]

/-- The rest of the `POST` is put at the front and lengthens the view of the URI, which is still at
the end of the bytes before: what the FastCGI server answers tells the byte at `i`. -/
theorem Parked.tells {i : ℕ} {mem : ℕ → Byte} (hparked : Parked headersOnly table i 0 mem m)
    (hi : 2024 ≤ i) : (step table (.doRead probing) m).1.failure =
      some (if mem i = 0 then .logicError else .outOfRange) := by
  obtain ⟨⟨setKa, c, hwithin, hsees⟩, huri, hextra, hsize, hread, hwrite, hcells, hque⟩ := hparked
  have hlength : ending.length = 25 := rfl
  have hreceived : probing.received = [.bytes ending, .eagain] := rfl
  obtain ⟨p, hreceive, hfed⟩ := exists_fed hreceived hextra (by rw [hwrite, hsize, hlength]; omega)
    (by rw [hread, hsize]; decide)
  have hclosed := eq_of_within hwithin (by omega)
  have hbare : c.headers = [] ∧ c.name = [] ∧ c.value = [] := by
    rw [hclosed]
    exact ⟨rfl, rfl, rfl⟩
  have hsees' : Sees headersOnly table [] [] p c :=
    hfed.shifted hsees not_false trivial trivial hbare rfl
  have hunread : p.userBuffer.unread = ending := by
    rw [hfed.userBuffer, UserBuffer.unread_stored, UserBuffer.unread, hread, hwrite]
    rfl
  have hextra' : p.extrabuffer.isVaild = false := hfed.extrabuffer ▸ hextra
  have hle : p.userBuffer.readSpot ≤ p.userBuffer.writeSpot := by
    rw [hfed.userBuffer]
    exact hread.trans_le (Nat.zero_le _)
  -- the machine has read the whole of the head
  have hwhole : lead i ++ p.userBuffer.unread = (probe i).encode ++ [] := by
    rw [hunread, List.append_nil, encode_probe]
  have hhead := Scan.headRead_scan (probe_accepted i) setKa .hpfOK
  rw [← (hwithin.mark p.parserAble).scan_of_head (probe_accepted i) hwhole] at hhead
  rcases hsees'.startingParser_follows (HttpParser.dry_of_invalid hextra' _)
    (fun _ entry hentry ↦ absurd hentry List.not_mem_nil) hle with
    ⟨-, q, hcall, hstarted⟩ | ⟨hword, -⟩ | ⟨hno, -⟩
  · have hagrees := hstarted.sees.agrees trivial
    have hstored := hstarted.sees.stored trivial
    rw [hhead.headers] at hstored
    obtain ⟨host, hfound, hhost⟩ := exists_host hstored (by decide)
    obtain ⟨n, hbuffer, -⟩ := hstarted.moved
    have hcell : q.userBuffer.buffer i = mem i := by
      rw [hbuffer, hfed.userBuffer]
      refine (Memory.store_of_ge _ _ ?_).trans (hcells i le_rfl)
      rw [hwrite, hlength]
      omega
    have hpost : q.requestResult.method = .hrPost := by
      obtain ⟨q', -, rfl⟩ := HttpParser.exists_parsering hcall
      exact hagrees.method.trans hhead.method
    have hstatus : p.parserResult.status = .hpsUriParser := by
      rw [hsees'.paces.status, hclosed]
    have hview := HttpParser.uri_startingParser hstatus
      (hfed.parserResult ▸ huri) (hunread.trans rfl) hextra' hcall
    have hfinished := finished_of_read hhead hagrees.fault
    have hrespond := respond_telling (by omega) hpost hview hfound hhost
    rw [hcell] at hrespond
    have hscan : scan table probing m = .ok () { m with httpParser := q } := by
      rw [scan_of_fed hreceive hfed (unfinished_of_within hwithin hsees), hcall]
    exact failure_of_error (doRead_of_answer_error hscan (answer_of_respond hfinished hrespond))
  · exact absurd hhead.word hword
  · exact absurd trivial hno

/-- The three calls that tell the byte at `i`. -/
def cellProbe (i : ℕ) : List Call :=
  [.doRead (inOnePiece (lead i)), .doRead silence, .doRead probing]

/-- How the last call fails is decided by the byte at `i`. -/
theorem Unused.trace_cellProbe (hunused : m.Unused) (table : HeaderTable) {i : ℕ} (hlow : 2024 ≤ i)
    (hhigh : i < 4048) : (trace (step table) (cellProbe i) m).getLast?.map Seen.failure =
      some (some (if m.httpParser.userBuffer.buffer i = 0 then .logicError else .outOfRange)) := by
  obtain ⟨first, m₁, hfirst, hparked⟩ := hunused.parks table (by omega) hhigh
  obtain ⟨second, m₂, hsecond, hparked'⟩ := hparked.shifts trivial trivial hlow
  rw [cellProbe, trace_cons hfirst, trace_cons hsecond, trace_singleton]
  exact congrArg some (hparked'.tells hlow)

end Member

end LWebServer
