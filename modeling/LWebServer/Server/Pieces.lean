import LWebServer.Http.Acceptance
import LWebServer.Server.Reads

/-!
# Deliveries in one piece

Where all that has come has been parsed, the next piece is alone in the `UserBuffer`, behind the
last one or at the front if the read position has reached the middle. What the pieces of a head do
to the positions is known without the bytes in memory.
-/

namespace LWebServer

/-- The lines of the head, but not its URI. -/
def Sight.lines : Sight := ⟨False, True, False, False, fun _ ↦ trivial⟩

namespace Member

variable {table : HeaderTable} {h : RequestHead} {t s : List Byte} {log : Log} {spot : ℕ}
  {m m₀ m₁ m' : Member}

/-- A delivery in one piece to a site with an index page. -/
def inOnePiece (bytes : List Byte) : Arrival where
  received := [.bytes bytes, .eagain]
  accepts := []
  site := { Site.bare with index := some ⟨text "<html></html>", false⟩ }

theorem streamed_inOnePiece (bytes : List Byte) :
    streamed (inOnePiece bytes).received = bytes := by
  simp [streamed, inOnePiece, Recv.chunk]

theorem obeys_inOnePiece {bytes : List Byte} (hne : bytes ≠ [])
    (hfits : bytes.length ≤ m.httpParser.userBuffer.writeable) : Obeys (inOnePiece bytes) m :=
  ⟨hne, hfits, fun _ _ ↦ trivial⟩

/-- `GET / HTTP/1.1` and nothing else. -/
def bareHead : RequestHead := { HttpParser.plainHead with lines := [] }

theorem bareHead_accepted : bareHead.Accepted :=
  ⟨⟨by decide, .inl (by decide)⟩, fun _ hl ↦ absurd hl List.not_mem_nil,
    fun _ hl ↦ absurd hl List.not_mem_nil⟩

/-- Receiving and parsing what comes in one piece while a head is being read. -/
theorem scan_inOnePiece {bytes : List Byte} {b : UserBuffer}
    (hextra : m.httpParser.extrabuffer.isVaild = false)
    (hfits : bytes.length ≤ m.httpParser.userBuffer.writeable)
    (hreceive : m.httpParser.userBuffer.receive bytes = .ok bytes.length b)
    (hsome : b.writeable ≠ 0) (hunfinished : m.httpParser.finished = false) {p : HttpParser}
    (hp : p = { m.httpParser with userBuffer := b }) {fault : HttpParserFault} {q : HttpParser}
    (hcall : HttpParser.startingParser table p = .ok fault q) :
    scan table (inOnePiece bytes) m = .ok () { m with httpParser := q } := by
  obtain ⟨sum, hread⟩ := Socket.read_one hextra hfits hreceive hsome
  have hreceived : Member.receive (inOnePiece bytes) m =
      .ok () { m with httpParser := { m.httpParser with userBuffer := b } } := by
    unfold Member.receive
    dsimp only
    rw [show (inOnePiece bytes).received = [.bytes bytes, .eagain] from rfl, hread]
  have hunfinished' : ({ m.httpParser with userBuffer := b } : HttpParser).finished = false :=
    hunfinished
  rw [scan_of_receive hreceived (if_neg (by rw [hunfinished']; exact Bool.false_ne_true)), ← hp,
    hcall]

/-- Where a piece comes to lie if both positions of the `UserBuffer` are at `spot`. -/
def landing (spot : ℕ) : ℕ := if spot < 2024 then spot else 0

/-- All that has come has been parsed, `t` being the bytes of the head that is being read, and both
positions of the `UserBuffer` are at `spot`. -/
structure Rests (table : HeaderTable) (log : Log) (t : List Byte) (spot : ℕ) (m : Member) :
    Prop where
  stands : ∃ stale, Standing .lines table stale t m
  placed : Placed log t m
  extrabuffer : m.httpParser.extrabuffer.isVaild = false
  bufferSize : m.httpParser.userBuffer.bufferSize = 4048
  readSpot : m.httpParser.userBuffer.readSpot = spot
  writeSpot : m.httpParser.userBuffer.writeSpot = spot

/-- The next piece shifts no header line that is being read. -/
def Still (spot : ℕ) (m : Member) : Prop :=
  m.Midway → spot < 2024 ∨ m.httpParser.parserResult.header = none

/-- The piece `s` has come and has not been parsed. -/
structure Landed (spot : ℕ) (s : List Byte) (m₀ : Member) : Prop where
  extrabuffer : m₀.httpParser.extrabuffer.isVaild = false
  bufferSize : m₀.httpParser.userBuffer.bufferSize = 4048
  readSpot : m₀.httpParser.userBuffer.readSpot = landing spot
  writeSpot : m₀.httpParser.userBuffer.writeSpot = landing spot + s.length
  unread : m₀.httpParser.userBuffer.unread = s

theorem rests_new (table : HeaderTable) (fd : ℕ) (memory : HttpRequest) (interval : ℕ) :
    Rests table {} [] 0 (new fd memory interval) :=
  ⟨⟨[], standing_new .lines table fd memory interval⟩, placed_new fd memory interval, rfl, rfl, rfl,
    rfl⟩

/-- A piece that there is room for. -/
theorem receive_landing {b : UserBuffer} (hsize : b.bufferSize = 4048) (hread : b.readSpot = spot)
    (hwrite : b.writeSpot = spot) (hroom : spot + s.length ≤ 4048) :
    ∃ b', b.receive s = .ok s.length b' ∧ b'.bufferSize = 4048 ∧ b'.readSpot = landing spot ∧
      b'.writeSpot = landing spot + s.length ∧ b'.unread = s := by
  have hfits : b.writeSpot + s.length ≤ b.bufferSize := by omega
  have hunread : (b.stored s hfits).unread = s := by
    rw [UserBuffer.unread_stored, hread, hwrite, Nat.sub_self, List.drop_zero, UserBuffer.unread,
      hread, hwrite, Nat.sub_self]
    rfl
  unfold landing
  by_cases hlow : spot < 2024
  · rw [if_pos hlow]
    refine ⟨b.stored s hfits, UserBuffer.receive_of_lt hfits (by omega), hsize, hread, ?_, hunread⟩
    exact congrArg (· + s.length) hwrite
  · rw [if_neg hlow]
    refine ⟨(b.stored s hfits).moved, UserBuffer.receive_of_ge hfits (by omega) (by omega), hsize,
      rfl, ?_, (UserBuffer.unread_moved _).trans hunread⟩
    change b.writeSpot + s.length - b.readSpot = 0 + s.length
    omega

namespace Landed

/-- The parse of a piece that is read to its end. -/
theorem read (hlanded : Landed spot s m₀) (hbehind : Behind m₀ m₁)
    (hnil : m₁.httpParser.userBuffer.unread = [])
    (hle : m₁.httpParser.userBuffer.readSpot ≤ m₁.httpParser.userBuffer.writeSpot) :
    m₁.httpParser.userBuffer.readSpot = landing spot + s.length ∧
      m₁.httpParser.userBuffer.writeSpot = landing spot + s.length := by
  obtain ⟨n, hbuffer⟩ := hbehind.userBuffer
  have hwrite : m₁.httpParser.userBuffer.writeSpot = landing spot + s.length := by
    rw [hbuffer]
    exact hlanded.writeSpot
  have hread : m₁.httpParser.userBuffer.readSpot = landing spot + n := by
    rw [hbuffer]
    exact congrArg (· + n) hlanded.readSpot
  rw [hbuffer, UserBuffer.unread_read, hlanded.unread, List.drop_eq_nil_iff] at hnil
  exact ⟨by omega, hwrite⟩

end Landed

namespace Rests

variable (hrests : Rests table log t spot m)
include hrests

theorem obeys (hs : s ≠ []) (hroom : spot + s.length ≤ 4048) : Obeys (inOnePiece s) m := by
  apply obeys_inOnePiece hs
  rw [UserBuffer.writeable, hrests.bufferSize, hrests.writeSpot]
  omega

theorem landed (hroom : spot + s.length < 4048) (hreceive : receive (inOnePiece s) m = .ok () m₀) :
    Landed spot s m₀ := by
  obtain ⟨b, hb, hsize, hread, hwrite, hunread⟩ :=
    receive_landing hrests.bufferSize hrests.readSpot hrests.writeSpot hroom.le
  have hfits : s.length ≤ m.httpParser.userBuffer.writeable := by
    rw [UserBuffer.writeable, hrests.bufferSize, hrests.writeSpot]
    omega
  have hsome : b.writeable ≠ 0 := by
    have hle : landing spot ≤ spot := by
      unfold landing
      split_ifs <;> omega
    rw [UserBuffer.writeable, hsize, hwrite]
    omega
  obtain ⟨sum, hcall⟩ := Socket.read_one hrests.extrabuffer hfits hb hsome
  unfold receive at hreceive
  dsimp only at hreceive
  rw [show (inOnePiece s).received = [.bytes s, .eagain] from rfl, hcall] at hreceive
  cases hreceive
  exact ⟨hrests.extrabuffer, hsize, hread, hwrite, hunread⟩

/-- There is no refill from an `Extrabuf` that is not in use. -/
theorem spared (hroom : spot + s.length < 4048) (log' : Log) : Spared log' (inOnePiece s) m := by
  intro _ m₀ hreceive hvaild
  rw [(hrests.landed hroom hreceive).extrabuffer] at hvaild
  cases hvaild

theorem heard (hunread : m₀.httpParser.userBuffer.unread.length = s.length) :
    log.heard (inOnePiece s) m₀ = t ++ s := by
  obtain ⟨before, rest, hseen, hbefore, hrest⟩ := hrests.placed.seen
  have hplace := hrests.placed.place
  have hle := hrests.placed.unread_le
  have hnone : m.httpParser.userBuffer.unread = [] := by
    rw [UserBuffer.unread, hrests.readSpot, hrests.writeSpot, Nat.sub_self]
    rfl
  rw [hnone, List.length_nil, Nat.add_zero] at hplace
  have hcount : log.place - log.begun + s.length = (t ++ s).length := by
    rw [List.length_append]
    omega
  unfold Log.heard
  rw [streamed_inOnePiece, hseen, hrest hrests.extrabuffer, List.append_nil, List.append_assoc,
    ← hbefore, List.drop_left, hbefore, hunread, hcount, List.take_length]

/-- A piece may fill the `UserBuffer` if it begins with a whole head and does not end there. -/
theorem spared_of_full (haccepted : h.Accepted) (ht : t = []) (hlow : spot < 2024)
    (hs : h.encode <+: s) (hshort : h.encode.length < s.length)
    (hroom : spot + s.length = 4048) : Spared log (inOnePiece s) m := by
  intro _ m₀ hreceive hvaild setKa
  obtain ⟨stale, hstanding⟩ := hrests.stands
  have hsome : s ≠ [] := List.ne_nil_of_length_pos (Nat.zero_lt_of_lt hshort)
  obtain ⟨extra, b, hreceive', harrived⟩ :=
    hstanding.receives hrests.placed (hrests.obeys hsome hroom.le)
  rw [hreceive] at hreceive'
  cases hreceive'
  obtain ⟨first, last, -, hreceived, -⟩ := harrived.received
  have hfull := harrived.full hvaild
  have hsize := hreceived.bufferSize.trans hrests.bufferSize
  have hstays := (hreceived.stays (by rw [hrests.readSpot, hrests.bufferSize]; exact hlow)).1
  have hunread : b.unread.length = s.length := by
    have hend := b.writeSpot_le
    rw [UserBuffer.writeable, hsize] at hfull
    rw [UserBuffer.unread, Memory.length_load, hstays.trans hrests.readSpot]
    omega
  rw [hrests.heard hunread, ht, List.nil_append]
  obtain ⟨rest, rfl⟩ := hs
  rw [Scan.scan_encode_append haccepted]
  exact ⟨Scan.ended_scan_encode haccepted setKa .hpfOK,
    (Scan.headRead_scan haccepted setKa .hpfOK).consumed.trans_lt hshort⟩

/-- The parse of a piece of a head. -/
theorem served (haccepted : h.Accepted) (hs : s ≠ []) (hroom : spot + s.length < 4048)
    (hstill : Still spot m) (hinside : t ++ s <+: h.encode)
    (hreceive : receive (inOnePiece s) m = .ok () m₀) : ∃ stale,
      Placed { log with seen := log.seen ++ streamed (inOnePiece s).received } (t ++ s) m₀ ∧
        Served .lines table stale h (t ++ s) m₀ := by
  obtain ⟨stale, hstanding⟩ := hrests.stands
  have hundisturbed (hmidway : m.Midway) : Undisturbed .lines stale (inOnePiece s) m := by
    refine ⟨fun _ ↦ ?_, fun h ↦ absurd h id⟩
    unfold HttpParser.Steady
    rw [hrests.readSpot, hrests.bufferSize]
    exact (hstill hmidway).imp_right fun hnone ↦
      ⟨fun h ↦ absurd h id, fun _ ↦ hnone, fun h ↦ absurd h id⟩
  obtain ⟨hplaced, -, hscanned⟩ := hstanding.scanned_of_receive hrests.placed
    (hrests.obeys hs hroom.le) (hrests.spared hroom log) hundisturbed hreceive
  rw [hrests.heard (congrArg List.length (hrests.landed hroom hreceive).unread)] at hplaced hscanned
  rw [← List.append_nil h.encode] at hinside
  exact ⟨stale, hplaced, hscanned.served haccepted hinside⟩

/-- A piece that ends inside a head. -/
theorem within (haccepted : h.Accepted) (hs : s ≠ []) (hroom : spot + s.length < 4048)
    (hstill : Still spot m) (hinside : t ++ s <+: h.encode)
    (hshort : (t ++ s).length < h.encode.length)
    (hread : doRead table (inOnePiece s) m = .ok () m') :
    provides table (inOnePiece s) m = false ∧
      Rests table (log.next table (inOnePiece s) m m') (t ++ s) (landing spot + s.length) m' := by
  obtain ⟨m₀, m₁, hreceive, hparse, hscan⟩ := receive_parse_of_doRead hread
  obtain ⟨stale, hplaced, hserved⟩ := hrests.served haccepted hs hroom hstill hinside hreceive
  have hlanded := hrests.landed hroom hreceive
  cases hserved with
  | finished k m₂ hhead => exact absurd hhead.length_le (Nat.not_le.mpr hshort)
  | reading m₂ hparse' hreading hbehind hnil =>
    rw [hparse] at hparse'
    cases hparse'
    have hparser := httpParser_of_unfinished hscan hreading.unfinished hread
    obtain ⟨hread', hwrite'⟩ := hlanded.read hbehind hnil hreading.readSpot_le
    refine ⟨(provides_eq hscan).trans hreading.unfinished,
      ⟨stale, standing_of_reading hscan hreading hread⟩,
      hplaced.next_reading hreceive hparse hreading.unfinished hbehind hread, ?_, ?_, ?_, ?_⟩
    · rw [hparser, hbehind.extrabuffer]
      exact hlanded.extrabuffer
    · obtain ⟨n, hbuffer⟩ := hbehind.userBuffer
      rw [hparser, hbuffer]
      exact hlanded.bufferSize
    · rw [hparser, hread']
    · rw [hparser, hwrite']
  | threw m₂ hparse' =>
    rw [hparse] at hparse'
    cases hparse'
  | severed hline => exact absurd trivial hline

/-- A piece that ends where the head does. -/
theorem whole (haccepted : h.Accepted) (hs : s ≠ []) (hroom : spot + s.length < 4048)
    (hstill : Still spot m) (hwhole : t ++ s = h.encode)
    (hread : doRead table (inOnePiece s) m = .ok () m') :
    provides table (inOnePiece s) m = true ∧ ¬ m'.Midway ∧
      Rests table (log.next table (inOnePiece s) m m') [] (landing spot + s.length) m' := by
  obtain ⟨m₀, m₁, hreceive, hparse, hscan⟩ := receive_parse_of_doRead hread
  obtain ⟨stale, hplaced, hserved⟩ := hrests.served haccepted hs hroom hstill
    (hwhole ▸ List.prefix_refl _) hreceive
  have hlanded := hrests.landed hroom hreceive
  cases hserved with
  | finished k m₂ hhead hsame hparse' hfinished hbehind =>
    rw [hparse] at hparse'
    cases hparse'
    obtain ⟨request, hparser, -⟩ := httpParser_doRead hscan hread
    have hrest : (t ++ s).drop k.encode.length = [] := by
      rw [hwhole, hsame, List.drop_length]
    obtain ⟨hread', hwrite'⟩ := hlanded.read hbehind (hfinished.between.unread.trans hrest)
      hfinished.between.readSpot_le
    have hplaced' := hplaced.next_finished hreceive hparse hfinished hbehind hread
    have hstanding := standing_of_finished hscan hfinished hread
    rw [hrest] at hplaced' hstanding
    refine ⟨(provides_eq hscan).trans hfinished.between.finished, fun hmidway ↦ ?_,
      ⟨_, hstanding⟩, hplaced', ?_, ?_, ?_, ?_⟩
    · have hunfinished := hmidway.1
      rw [hparser] at hunfinished
      exact Bool.noConfusion (hfinished.between.finished.symm.trans hunfinished)
    · rw [hparser]
      dsimp only
      rw [hbehind.extrabuffer]
      exact hlanded.extrabuffer
    · obtain ⟨n, hbuffer⟩ := hbehind.userBuffer
      rw [hparser]
      dsimp only
      rw [hbuffer]
      exact hlanded.bufferSize
    · rw [hparser]
      exact hread'
    · rw [hparser]
      exact hwrite'
  | reading m₂ hparse' hreading hbehind hnil hshort =>
    exact absurd (congrArg List.length hwhole) hshort.ne
  | threw m₂ hparse' =>
    rw [hparse] at hparse'
    cases hparse'
  | severed hline => exact absurd trivial hline

/-- Between two lines none is recorded. -/
theorem header_eq_none (hmidway : m.Midway)
    (hbetween : ∀ setKa, ((Scan.start setKa .hpfOK).scan t).name = []) :
    m.httpParser.parserResult.header = none := by
  obtain ⟨stale, hstanding⟩ := hrests.stands
  cases hstanding with
  | between hbetween' => exact Bool.noConfusion (hbetween'.finished.symm.trans hmidway.1)
  | reading hreading =>
    obtain ⟨pre, known, setKa, c, ht, hwithin, hsees, -⟩ := hreading.sees
    have hnone : m.httpParser.userBuffer.unread = [] := by
      rw [UserBuffer.unread, hrests.readSpot, hrests.writeSpot, Nat.sub_self]
      rfl
    rw [hnone, List.append_nil] at ht
    have hname : c.forget.name = ((Scan.start setKa .hpfOK).scan pre).forget.name := by
      rw [hwithin.scans]
    have hview := hsees.name trivial
    rw [show c.name = [] from hname.trans (ht ▸ hbetween setKa)] at hview
    exact congrArg ParsedHeader.header hview.eq_none

variable {P : Log → Arrival → Member → Prop} {arrivals : List Arrival}

theorem alongReads_within (haccepted : h.Accepted) (hs : s ≠ []) (hroom : spot + s.length < 4048)
    (hstill : Still spot m) (hinside : t ++ s <+: h.encode)
    (hshort : (t ++ s).length < h.encode.length) (hnow : P log (inOnePiece s) m)
    (hlater : ∀ log' m', log'.seen = log.seen ++ s → log'.answered = log.answered →
      Rests table log' (t ++ s) (landing spot + s.length) m' →
        AlongReads table P log' arrivals m') :
    AlongReads table P log (inOnePiece s :: arrivals) m := by
  refine ⟨hnow, fun m' hread ↦ ?_⟩
  obtain ⟨hprovides, hrests'⟩ := hrests.within haccepted hs hroom hstill hinside hshort hread
  refine hlater _ m' ?_ ?_ hrests'
  · rw [Log.next_seen, streamed_inOnePiece]
  · rw [Log.next_answered, hprovides]
    rfl

theorem alongReads_whole (haccepted : h.Accepted) (hs : s ≠ []) (hroom : spot + s.length < 4048)
    (hstill : Still spot m) (hwhole : t ++ s = h.encode) (hnow : P log (inOnePiece s) m)
    (hlater : ∀ log' m', log'.seen = log.seen ++ s → log'.answered = log.answered + 1 →
      ¬ m'.Midway → Rests table log' [] (landing spot + s.length) m' →
        AlongReads table P log' arrivals m') :
    AlongReads table P log (inOnePiece s :: arrivals) m := by
  refine ⟨hnow, fun m' hread ↦ ?_⟩
  obtain ⟨hprovides, hbetween, hrests'⟩ := hrests.whole haccepted hs hroom hstill hwhole hread
  refine hlater _ m' ?_ ?_ hbetween hrests'
  · rw [Log.next_seen, streamed_inOnePiece]
  · rw [Log.next_answered, hprovides]
    rfl

end Rests

/-- `plainHead` with a `Cookie` of `n + 1` characters. -/
def paddedHead (n : ℕ) : RequestHead := { HttpParser.plainHead with
  lines := HttpParser.plainHead.lines ++ [{
    name := text "Cookie", pad := 1, value := List.replicate (n + 1) (ascii 'a')
    lineEnd := HttpParser.lf
    name_ne := by decide, name_chars := forall_mem_of_all rfl, value_ne := List.cons_ne_nil _ _
    value_chars := by
      intro ch hch
      rw [List.eq_of_mem_replicate hch]
      decide }] }

theorem paddedHead_accepted (n : ℕ) : (paddedHead n).Accepted := by
  refine ⟨HttpParser.plainHead_wellFormed.accepted.supported, ?_, ?_⟩
  · intro l hl hname
    rcases List.mem_append.mp hl with hfirst | hlast
    · exact HttpParser.plainHead_wellFormed.legal l hfirst hname
    · rw [List.mem_singleton.mp hlast] at hname
      have hnot : text "Cookie" ≠ HttpParser.connectionKey := by decide
      exact absurd hname hnot
  · intro l hl
    rcases List.mem_append.mp hl with hfirst | hlast
    · exact HttpParser.plainHead_wellFormed.trimmed l hfirst
    · rw [List.mem_singleton.mp hlast]
      have hblank : some (ascii 'a') ≠ some (ascii ' ') := by decide
      exact hblank

theorem length_paddedHead (n : ℕ) : (paddedHead n).encode.length = n + 38 := by
  have hlines : (paddedHead n).lines.flatMap HeaderLine.encode =
      text "Host: a\r\nCookie: " ++ List.replicate (n + 1) (ascii 'a') ++ text "\r\n" := by
    simp [paddedHead, HttpParser.plainHead, HeaderLine.encode]
    rfl
  have hstart : (paddedHead n).startLine.length = 16 := rfl
  rw [RequestHead.encode, hlines]
  simp only [List.length_append, List.length_replicate, hstart]
  rw [show (text "Host: a\r\nCookie: ").length = 17 from rfl,
    show (text "\r\n").length = 2 from rfl]
  simp
  omega

/-- A request in one piece, and one whose last byte comes when the read position is behind the
middle of the buffer. -/
def withheld : List Arrival :=
  [inOnePiece (paddedHead 1964).encode, inOnePiece (HttpParser.plainHead.encode.take 26),
    inOnePiece [HttpParser.lf]]

theorem streamed_withheld : withheld.flatMap (fun a ↦ streamed a.received) =
    (paddedHead 1964).encode ++ (HttpParser.plainHead.encode ++ []) := by
  have hpieces : HttpParser.plainHead.encode.take 26 ++ [HttpParser.lf] =
      HttpParser.plainHead.encode := by decide
  simp only [withheld, List.flatMap_cons, List.flatMap_nil, streamed_inOnePiece, List.append_nil,
    hpieces]

/-- A request and as many bytes behind it as fill a new buffer to its end. -/
def brimful : List Byte := HttpParser.plainHead.encode ++ List.replicate 4021 (ascii 'x')

theorem length_brimful : brimful.length = 4048 := by
  rw [brimful, List.length_append, List.length_replicate]
  rfl

theorem brimful_ne_nil : brimful ≠ [] := List.ne_nil_of_length_pos (by rw [length_brimful]; decide)

/-- A new member takes it. -/
theorem spared_brimful : Obeys (inOnePiece brimful) (new 5 .zero 0) ∧
    Spared {} (inOnePiece brimful) (new 5 .zero 0) := by
  have hrests := rests_new .sample 5 .zero 0
  have hroom : 0 + brimful.length = 4048 := by rw [Nat.zero_add, length_brimful]
  have hshort : HttpParser.plainHead.encode.length < brimful.length := by
    rw [length_brimful]
    decide
  exact ⟨hrests.obeys brimful_ne_nil hroom.le,
    hrests.spared_of_full HttpParser.plainHead_wellFormed.accepted rfl (by decide)
      (List.prefix_append _ _) hshort hroom⟩

end Member

end LWebServer
