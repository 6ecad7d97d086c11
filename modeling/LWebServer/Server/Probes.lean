import LWebServer.Http.Answered
import LWebServer.Http.Following
import LWebServer.Server.Pieces
import LWebServer.Server.Recycling

/-!
# Probing a connection

What a connection on which nothing has come yet shows of the values that were left in it: the
default for keep-alive, the size of the `Extrabuf` and the sum that has not been reported each
decide what is seen of one call.
-/

namespace LWebServer

open Lockstep

namespace Member

variable {table : HeaderTable} {m m' : Member}

/-! ## Connections on which nothing has come -/

/-- Nothing has come and nothing is queued. The arrays may hold any bytes. -/
structure Unused (m : Member) : Prop where
  parserResult : m.httpParser.parserResult = { setKa := m.httpParser.parserResult.setKa }
  headerValue : m.httpParser.requestResult.headerValue = []
  extrabuffer : m.httpParser.extrabuffer.isVaild = false
  bufferSize : m.httpParser.userBuffer.bufferSize = 4048
  readSpot : m.httpParser.userBuffer.readSpot = 0
  writeSpot : m.httpParser.userBuffer.writeSpot = 0
  que : m.writeLoop.que = []
  outputSize : m.writeLoop.userBuffer.bufferSize = 4048
  outputRead : m.writeLoop.userBuffer.readSpot = 0
  outputWrite : m.writeLoop.userBuffer.writeSpot = 0

theorem unused_new (fd : ℕ) (memory : HttpRequest) (interval : ℕ) :
    Unused (new fd memory interval) :=
  ⟨rfl, rfl, rfl, rfl, rfl, rfl, rfl, rfl, rfl, rfl⟩

namespace Unused

theorem fault (hunused : m.Unused) : m.httpParser.parserResult.fault = .hpfOK := by
  rw [hunused.parserResult]

theorem ready (hunused : m.Unused) : m.httpParser.Ready where
  parserResult := by
    rw [hunused.fault]
    exact hunused.parserResult
  fault := by
    rw [hunused.fault]
    exact HttpParserFault.noConfusion
  extrabuffer := hunused.extrabuffer
  readSpot_le := by
    rw [hunused.readSpot]
    exact Nat.zero_le _

theorem unfinished (hunused : m.Unused) : m.httpParser.finished = false :=
  finished_of_fault hunused.ready.fault

theorem unread (hunused : m.Unused) : m.httpParser.userBuffer.unread = [] := by
  rw [UserBuffer.unread, hunused.readSpot, hunused.writeSpot]
  rfl

end Unused

/-- The parser of a connection when something has come and has not been parsed. -/
structure Fed (b : UserBuffer) (m : Member) (p : HttpParser) : Prop where
  userBuffer : p.userBuffer = b
  parserResult : p.parserResult = m.httpParser.parserResult
  requestResult : p.requestResult = m.httpParser.requestResult
  extrabuffer : p.extrabuffer = m.httpParser.extrabuffer

theorem fed (b : UserBuffer) (m : Member) : Fed b m ⟨b, m.httpParser.parserResult,
    m.httpParser.requestResult, m.httpParser.extrabuffer⟩ := ⟨rfl, rfl, rfl, rfl⟩

/-- What was in sight and does not depend on the place still is. -/
theorem Fed.shifted {b : UserBuffer} {p : HttpParser} (hfed : Fed b m p) {sight sight' : Sight}
    {c : Scan} (hsees : Sees sight table [] [] m.httpParser c) (huri : ¬ sight'.uri)
    (hline : sight.line) (hentries : sight.entries)
    (hbare : c.headers = [] ∧ c.name = [] ∧ c.value = [])
    (hsize : b.bufferSize = m.httpParser.userBuffer.bufferSize) :
    Sees sight' table [] [] p c := by
  obtain ⟨b', parserResult, requestResult, extrabuffer⟩ := p
  obtain ⟨rfl, rfl, rfl, rfl⟩ := hfed
  exact hsees.shifted (fun h ↦ absurd h huri) (fun _ ↦ ⟨hline, hbare.2⟩)
    (fun _ ↦ ⟨hentries, hsees.entries_eq_stale hentries hbare.1⟩) hsize

/-- A piece that leaves some room, in the lower half of the buffer. -/
theorem exists_fed {a : Arrival} {bytes : List Byte}
    (hreceived : a.received = [.bytes bytes, .eagain])
    (hextra : m.httpParser.extrabuffer.isVaild = false)
    (hroom : m.httpParser.userBuffer.writeSpot + bytes.length <
      m.httpParser.userBuffer.bufferSize)
    (hlow : m.httpParser.userBuffer.readSpot < m.httpParser.userBuffer.bufferSize / 2) :
    ∃ p, receive a m = .ok () { m with httpParser := p } ∧
      Fed (m.httpParser.userBuffer.stored bytes hroom.le) m p := by
  have hsome : (m.httpParser.userBuffer.stored bytes hroom.le).writeable ≠ 0 :=
    Nat.sub_ne_zero_of_lt hroom
  obtain ⟨sum, hread⟩ := @Socket.read_one a.heap bytes _ _ _ hextra
    (Nat.le_sub_of_add_le' hroom.le) (UserBuffer.receive_of_lt hroom.le hlow) hsome
  refine ⟨_, ?_, fed _ m⟩
  unfold receive
  dsimp only
  rw [hreceived, hread]

/-- Receiving and parsing while no request is finished. -/
theorem scan_of_fed {a : Arrival} {b : UserBuffer} {p : HttpParser}
    (hreceive : receive a m = .ok () { m with httpParser := p }) (hfed : Fed b m p)
    (hunfinished : m.httpParser.finished = false) (table : HeaderTable) :
    scan table a m = match HttpParser.startingParser table p with
      | .ok _ q => .ok () { m with httpParser := q }
      | .error e q => .error e { m with httpParser := q } := by
  have hunfinished' : p.finished = false := by
    unfold HttpParser.finished at hunfinished ⊢
    rwa [hfed.parserResult]
  apply scan_of_receive hreceive
  rw [if_neg]
  rw [hunfinished']
  exact Bool.false_ne_true

namespace Unused

theorem exists_fed (hunused : m.Unused) {a : Arrival} {bytes : List Byte}
    (hreceived : a.received = [.bytes bytes, .eagain]) (hlength : bytes.length < 4048) :
    ∃ hfits p, receive a m = .ok () { m with httpParser := p } ∧
      Fed (m.httpParser.userBuffer.stored bytes hfits) m p := by
  have hroom : m.httpParser.userBuffer.writeSpot + bytes.length <
      m.httpParser.userBuffer.bufferSize := by
    rw [hunused.writeSpot, hunused.bufferSize]
    omega
  have hlow : m.httpParser.userBuffer.readSpot < m.httpParser.userBuffer.bufferSize / 2 := by
    rw [hunused.readSpot, hunused.bufferSize]
    decide
  exact ⟨hroom.le, Member.exists_fed hreceived hunused.extrabuffer hroom hlow⟩

variable {bytes : List Byte}
  {hfits : m.httpParser.userBuffer.writeSpot + bytes.length ≤ m.httpParser.userBuffer.bufferSize}
  {p : HttpParser}

/-- The first piece lies at the front of the buffer. -/
theorem unread_fed (hunused : m.Unused)
    (hfed : Fed (m.httpParser.userBuffer.stored bytes hfits) m p) :
    p.userBuffer.unread = bytes := by
  rw [hfed.userBuffer, UserBuffer.unread_stored, hunused.unread, hunused.readSpot, Nat.zero_sub,
    List.drop_zero, List.nil_append]

theorem ready_fed (hunused : m.Unused)
    (hfed : Fed (m.httpParser.userBuffer.stored bytes hfits) m p) : p.Ready where
  parserResult := by
    rw [hfed.parserResult]
    exact hunused.ready.parserResult
  fault := by
    rw [hfed.parserResult]
    exact hunused.ready.fault
  extrabuffer := by
    rw [hfed.extrabuffer]
    exact hunused.extrabuffer
  readSpot_le := by
    rw [hfed.userBuffer]
    exact hunused.readSpot.trans_le (Nat.zero_le _)

theorem headerValue_fed (hunused : m.Unused)
    (hfed : Fed (m.httpParser.userBuffer.stored bytes hfits) m p) :
    p.requestResult.headerValue = [] := by
  rw [hfed.requestResult]
  exact hunused.headerValue

/-- A head that comes in one piece is read. -/
theorem scan_head (hunused : m.Unused) (table : HeaderTable) {a : Arrival} {h : RequestHead}
    (haccepted : h.Accepted) (hreceived : a.received = [.bytes h.encode, .eagain])
    (hlength : h.encode.length < 4048) :
    ∃ q c, scan table a m = .ok () { m with httpParser := q } ∧
      Scan.HeadRead h m.httpParser.parserResult.setKa c ∧ Tracks table [] [] q c ∧
      q.requestResult.Renders q.userBuffer.buffer h
        (h.lines.foldl HeaderLine.flag m.httpParser.parserResult.setKa) := by
  obtain ⟨hfits, p, hreceive, hfed⟩ := hunused.exists_fed hreceived hlength
  have hunread : p.userBuffer.unread = h.encode ++ [] := by
    rw [hunused.unread_fed hfed, List.append_nil]
  have hready := hunused.ready_fed hfed
  have hstale := hunused.headerValue_fed hfed
  have hwhole : Whole p.requestResult.headerValue := by
    rw [hstale]
    exact fun entry hentry ↦ absurd hentry List.not_mem_nil
  obtain ⟨q, c, hcall, hhead, htracks, hreported, -⟩ :=
    hready.startingParser_head table (hwhole.known _) haccepted hunread
  have hrenders := HttpParser.renders_of_read (hready.following hwhole table).fenced
    hready.extrabuffer hcall hhead htracks hreported
  rw [hstale] at htracks
  rw [hfed.parserResult] at hhead hrenders
  refine ⟨q, c, ?_, hhead, htracks, hrenders⟩
  rw [scan_of_fed hreceive hfed hunused.unfinished, hcall]

end Unused

theorem getValue_of_nil {r : HttpRequest} (hnone : r.headerValue = []) (table : HeaderTable)
    (mem : ℕ → Byte) (name : List Byte) : r.getValue table mem name = none := by
  have hperm := table.order_perm r.headerValue
  rw [hnone] at hperm
  unfold HttpRequest.getValue
  rw [hnone, hperm.eq_nil]
  rfl

/-- The `Host` is found where there is no other line. -/
theorem exists_host {size limit : ℕ} {mem : ℕ → Byte} {r : HttpRequest} {value : List Byte}
    (hstored : Stored table size [] [] mem limit r.headerValue [(text "Host", value)])
    (hvalue : value ≠ []) :
    ∃ host, r.getValue table mem (text "Host") = some host ∧ host.length = value.length := by
  have hdistinct : ([(text "Host", value)].map Prod.fst).Nodup := List.nodup_singleton _
  have hcontents := hstored.contents_eq hdistinct
  obtain ⟨hown, -⟩ := recalls_of_subset table (hstored.whole (by simp [Known])) hdistinct
    (by rw [hcontents]; exact List.Subset.refl _) (by rw [hcontents]; exact List.Subset.refl _)
  obtain ⟨host, hfound, hbytes⟩ := hown _ List.mem_cons_self
  refine ⟨host, hfound, ?_⟩
  obtain ⟨header, length⟩ := host
  cases header with
  | none => exact absurd hbytes.symm hvalue
  | some start =>
    have hcount := congrArg List.length hbytes
    rw [ParsedHeader.bytes_some, Memory.length_load] at hcount
    exact hcount

theorem finished_of_read {h : RequestHead} {setKa : HttpFlag} {c : Scan} {q : HttpParser}
    (hhead : Scan.HeadRead h setKa c) (hfault : q.parserResult.fault = c.fault) :
    q.finished = true := by
  unfold HttpParser.finished
  rw [hfault, hhead.fault]
  rfl

/-! ## Calls -/

/-- The steps of a `DoRead` that returns. -/
theorem doRead_of_doAll {a : Arrival} {m₁ m₂ m₃ : Member} {result : CompleteType}
    (hscan : scan table a m = .ok () m₁) (hanswer : answer table a m₁ = .ok () m₂)
    (hdo : doAll a.accepts m₂ = .ok result m₃) : doRead table a m =
      .ok () (if result ≠ .imcomplete then { m₃ with writeComplete := true } else m₃) := by
  obtain ⟨_, m₀, hreceive, hparse⟩ := Op.bind_ok hscan
  unfold doRead
  rw [Op.bind_of_ok hreceive, Op.bind_of_ok hparse, Op.bind_of_ok hanswer, Op.bind_of_ok hdo]
  split_ifs <;> rfl

theorem doRead_of_answer_error {a : Arrival} {m₁ : Member} {e : Fail}
    (hscan : scan table a m = .ok () m₁) (hanswer : answer table a m₁ = .error e m') :
    doRead table a m = .error e m' := by
  obtain ⟨_, m₀, hreceive, hparse⟩ := Op.bind_ok hscan
  unfold doRead
  rw [Op.bind_of_ok hreceive, Op.bind_of_ok hparse, Op.bind_of_error hanswer]

/-- A request for which there is no response leaves the request as it is. -/
theorem answer_of_respond {a : Arrival} {e : Fail} (hfinished : m.httpParser.finished = true)
    (hrespond : REAProvider.respond table a.site m.httpParser.userBuffer.buffer
      m.httpParser.requestResult = .error e) : answer table a m = .error e m := by
  unfold answer
  rw [if_pos hfinished]
  dsimp only
  rw [REAProvider.provide_eq]
  dsimp only
  rw [hrespond]

/-- A queue without tasks stays so. -/
theorem doAll_of_nil (hque : m.writeLoop.que = []) (accepts : List Accept) :
    ∃ m', doAll accepts m = .ok .empty m' ∧ m'.httpParser = m.httpParser ∧
      m'.writeLoop = WriteLoop.report { m.writeLoop with outlet.answers := accepts } := by
  have hall : WriteLoop.doAll { m.writeLoop with outlet.answers := accepts } =
      .ok .empty (WriteLoop.report { m.writeLoop with outlet.answers := accepts }) := by
    unfold WriteLoop.doAll WriteLoop.turns WriteLoop.doFirst
    dsimp only
    rw [hque]
  unfold doAll
  rw [hall]
  exact ⟨_, rfl, rfl, rfl⟩

theorem step_of_ok {call : Call} (hcall : call.run table m = .ok () m') :
    step table call m = (m.seen m' none (m'.told call), some m') := by
  unfold step
  rw [hcall]

theorem failure_of_error {call : Call} {e : Fail} (hcall : call.run table m = .error e m') :
    (step table call m).1.failure = some e := by
  unfold step
  rw [hcall]
  rfl

/-- A call that finishes no request and finds nothing to send. -/
theorem step_of_unfinished {a : Arrival} {q : HttpParser}
    (hscan : scan table a m = .ok () { m with httpParser := q }) (hunfinished : q.finished = false)
    (hque : m.writeLoop.que = []) : ∃ shown m', step table (.doRead a) m = (shown, some m') ∧
      shown.failure = none ∧ m'.httpParser = q ∧ m'.writeLoop.que = [] := by
  have hfault : q.parserResult.fault ≠ .hpfContent := by
    simpa [HttpParser.finished] using hunfinished
  have hanswer := answer_of_fault (m := { m with httpParser := q }) table a hfault
  obtain ⟨m₂, hdo, hparser, hloop⟩ := doAll_of_nil (m := { m with httpParser := q }) hque a.accepts
  have hread : doRead table a m = .ok () { m₂ with writeComplete := true } :=
    doRead_of_doAll hscan hanswer hdo
  refine ⟨_, _, step_of_ok hread, rfl, hparser, ?_⟩
  change m₂.writeLoop.que = []
  rw [hloop, (WriteLoop.report_eq _).1]
  exact hque

/-! ## The default for keep-alive -/

/-- Whether a request without `Host` is to close the connection is the default. -/
theorem Unused.closeAble_bareHead (hunused : m.Unused) (table : HeaderTable) :
    (step table (.doRead (inOnePiece bareHead.encode)) m).1.closeAble =
      decide (m.httpParser.parserResult.setKa ≠ .keepAlive) := by
  have hreceived : (inOnePiece bareHead.encode).received = [.bytes bareHead.encode, .eagain] := rfl
  obtain ⟨q, c, hscan, hhead, htracks, hrenders⟩ :=
    hunused.scan_head table bareHead_accepted hreceived (by decide)
  have hfinished := finished_of_read hhead htracks.agrees.fault
  have hnone : q.requestResult.headerValue = [] := by
    have hstored := htracks.stored
    rw [hhead.headers] at hstored
    exact List.map_eq_nil_iff.mp (hstored.contents_eq List.nodup_nil)
  have hrespond : REAProvider.respond table (inOnePiece bareHead.encode).site
      q.userBuffer.buffer q.requestResult = .error .invalidArgument :=
    hrenders.respond_of_none table _ (getValue_of_nil hnone table _ _)
  have hread := doRead_of_answer_error hscan (answer_of_respond hfinished hrespond)
  have hminor : q.requestResult.versionMinor = 1 := by
    rw [hrenders.versionMinor]
    decide
  have hflag : q.requestResult.flag = m.httpParser.parserResult.setKa := hrenders.flag
  unfold step
  rw [show (Call.doRead (inOnePiece bareHead.encode)).run table m = _ from hread]
  simp [seen, closeAble, hfinished, hminor, hflag]

end Member

/-! ## The size of the `Extrabuf` -/

namespace HttpParser

theorem status_markShort (p : HttpParser) :
    p.markShort.parserResult.status = p.parserResult.status := by
  unfold markShort
  split_ifs <;> rfl

/-- The parser behind a byte that no method begins with. -/
def refused (p : HttpParser) : HttpParser := { p with
  userBuffer := p.userBuffer.read 1
  parserResult := { p.parserResult with status := .hpsGameOver, fault := .hpfInvaildMethod } }

/-- The parser does not go beyond a byte that no method begins with. -/
theorem startingParser_unknown {p : HttpParser} {ch : Byte} {rest : List Byte}
    (hstatus : p.parserResult.status = .hpsOK)
    (hunread : p.userBuffer.unread = ascii 'X' :: ch :: rest) (table : HeaderTable) :
    ∃ q, startingParser table p = .ok .hpfInvaildMethod q ∧ q.finished = false := by
  obtain ⟨hbuffer, -, -⟩ := markShort_buffers p
  have hunread' : p.markShort.userBuffer.unread = ascii 'X' :: ch :: rest := by
    rw [hbuffer]
    exact hunread
  have hstatus' := (status_markShort p).trans hstatus
  unfold startingParser
  generalize p.markShort = p' at hunread' hstatus'
  obtain ⟨hlt, -, hrest⟩ := UserBuffer.unread_cons hunread'
  obtain ⟨hlt', -, -⟩ := UserBuffer.unread_cons hrest
  have hreadable : (p'.userBuffer.read 1).readable ≠ 0 := by
    rw [UserBuffer.readable, sizeSub_of_le hlt'.le]
    omega
  have hturn : turn table p' = .ok () (refused p') := by
    rw [turn_eq hunread']
    have hcases : cases table (ascii 'X') p' =
        .ok .break (p'.mapResult fun c ↦
          { c with status := .hpsGameOver, fault := .hpfInvaildMethod }) := by
      unfold cases
      rw [hstatus']
      rfl
    rw [hcases]
    exact if_neg fun h ↦ hreadable h.1
  have hrunning : p'.running := by
    refine ⟨by rw [hstatus']; exact HttpParserStatus.noConfusion, ?_⟩
    rw [UserBuffer.readable, sizeSub_of_le hlt.le]
    omega
  have hbound : p'.turnBound ≠ 0 := Nat.mul_ne_zero (Nat.succ_ne_zero _) (Nat.succ_ne_zero _)
  obtain ⟨turns, hturns⟩ := Nat.exists_eq_succ_of_ne_zero hbound
  have hparse : parsering table p' = .ok () (refused p') := by
    unfold parsering
    rw [hturns, loop_running hrunning _ hturn, loop_of_ended rfl]
  rw [hparse]
  exact ⟨_, rfl, rfl⟩

end HttpParser

namespace Member

variable {table : HeaderTable} {m m' : Member}

open Receiving

/-- Bytes that fill the buffer. -/
def flood : List Byte := List.replicate 4048 (ascii 'X')

/-- As many again and one more. -/
def flooding : Arrival :=
  { inOnePiece [] with received := [.bytes flood, .bytes (ascii 'X' :: flood), .eagain] }

theorem length_flood : flood.length = 4048 := List.length_replicate

/-- The buffers behind the loop in `Socket::Read`. -/
def taking (r : Receiving) (m : Member) : Member := { m with
  httpParser := ⟨r.userBuffer, m.httpParser.parserResult, m.httpParser.requestResult,
    r.extraBuffer⟩ }

theorem receive_eq (a : Arrival) (m : Member) : receive a m =
    match drain a.heap a.received (start m.httpParser.extrabuffer m.httpParser.userBuffer) with
      | .ok _ r => .ok () (m.taking r)
      | .error e r => .error e (m.taking r) := by
  unfold receive Socket.read start
  dsimp only
  cases drain a.heap a.received _ <;> rfl

namespace Unused

/-- The loop in `Socket::Read` behind the bytes that fill the buffer. -/
theorem exists_full (hunused : m.Unused) : ∃ r,
    turn flooding.heap (.bytes flood)
      (start m.httpParser.extrabuffer m.httpParser.userBuffer) = .ok true r ∧
    r.userBuffer.unread = flood ∧ r.extraBuffer = m.httpParser.extrabuffer.init ∧
    r.startBuffer = .extra 0 ∧ r.length = m.httpParser.extrabuffer.bufferSize := by
  have hwrite := hunused.writeSpot
  have hsize := hunused.bufferSize
  have hflood := length_flood
  have hfits : m.httpParser.userBuffer.writeSpot + flood.length ≤
      m.httpParser.userBuffer.bufferSize := by
    omega
  have hlength : flood.length ≤
      (start m.httpParser.extrabuffer m.httpParser.userBuffer).length := by
    change flood.length ≤ m.httpParser.userBuffer.bufferSize - m.httpParser.userBuffer.writeSpot
    omega
  have hlow : m.httpParser.userBuffer.readSpot < m.httpParser.userBuffer.bufferSize / 2 := by
    rw [hunused.readSpot, hsize]
    decide
  have hreceive := UserBuffer.receive_of_lt hfits hlow
  have hunread := UserBuffer.unread_stored hfits
  rw [hunused.unread, hunused.readSpot, Nat.zero_sub, List.drop_zero, List.nil_append] at hunread
  have hfull : (m.httpParser.userBuffer.stored flood hfits).writeable = 0 := by
    change m.httpParser.userBuffer.bufferSize -
      (m.httpParser.userBuffer.writeSpot + flood.length) = 0
    omega
  have hturn := @turn_bytes_eq flooding.heap _ _ hlength
  rw [@accept_received _ (start m.httpParser.extrabuffer m.httpParser.userBuffer) flood _ _
    hunused.extrabuffer rfl hfits hreceive] at hturn
  unfold committed at hturn
  rw [if_pos hfull] at hturn
  refine ⟨_, hturn, hunread, rfl, rfl, ?_⟩
  change (m.httpParser.extrabuffer.bufferSize - 0 : ℤ).toNat = m.httpParser.extrabuffer.bufferSize
  rw [Int.sub_zero, Int.toNat_natCast]

/-- An `Extrabuf` that has grown is told that it has more room than the array has. -/
theorem failure_flooding_of_lt (hunused : m.Unused) (table : HeaderTable)
    (hlarge : 4048 < m.httpParser.extrabuffer.bufferSize) :
    (step table (.doRead flooding) m).1.failure = some .undefinedBehaviour := by
  obtain ⟨r, hturn, -, hextra, hstart, hlength⟩ := hunused.exists_full
  have hcount : (ascii 'X' :: flood).length ≤ r.length := by
    rw [List.length_cons, length_flood, hlength]
    exact hlarge
  have hfill : fill (ascii 'X' :: flood) r = .error .undefinedBehaviour r := by
    have hallocated : r.extraBuffer.allocated = 4048 := by
      rw [hextra]
      rfl
    unfold fill
    rw [hstart]
    dsimp only
    rw [hallocated, List.length_cons, length_flood, if_neg (by decide)]
  have hnext : turn flooding.heap (.bytes (ascii 'X' :: flood)) r =
      .error .undefinedBehaviour r :=
    (turn_bytes_eq hcount).trans (Op.bind_of_error hfill)
  have hdrain : drain flooding.heap flooding.received
      (start m.httpParser.extrabuffer m.httpParser.userBuffer) = .error .undefinedBehaviour r :=
    (drain_cons_of_true hturn).trans (Op.bind_of_error hnext)
  have hreceive := receive_eq flooding m
  rw [hdrain] at hreceive
  exact @failure_of_error _ _ _ (.doRead flooding) _ (Op.bind_of_error hreceive)

/-- An `Extrabuf` that has not grown has room for the second block but for one byte, and the parser
does not go beyond the first byte. -/
theorem failure_flooding_of_eq (hunused : m.Unused) (table : HeaderTable)
    (hsize : m.httpParser.extrabuffer.bufferSize = 4048) :
    (step table (.doRead flooding) m).1.failure = none := by
  obtain ⟨r, hturn, hunread, hextra, hstart, hlength⟩ := hunused.exists_full
  have hspilling : Spilling r := by
    refine ⟨?_, 0, ?_, hstart, ?_⟩
    · rw [hextra]
      exact hsize.symm
    · rw [hextra]
      rfl
    · rw [hlength, hextra, Nat.zero_add]
      exact le_rfl
  have hshort : ((ascii 'X' :: flood).take r.length).length ≤ r.length := List.length_take_le _ _
  obtain ⟨more, r', hnext, -, hsame⟩ := @turn_spilling flooding.heap r _ hspilling hshort
  have htake : turn flooding.heap (.bytes (ascii 'X' :: flood)) r = .ok more r' := by
    rw [← hnext]
    simp only [turn, Op.bind_get, List.take_take, Nat.min_self]
  have hrest : drain flooding.heap [.bytes (ascii 'X' :: flood), .eagain] r = .ok () r' := by
    cases more with
    | true => exact drain_cons_of_true htake
    | false => exact drain_cons_of_false htake
  have hreceive := receive_eq flooding m
  rw [show drain flooding.heap flooding.received _ = _ from
    (drain_cons_of_true hturn).trans hrest] at hreceive
  have hstatus : (m.taking r').httpParser.parserResult.status = .hpsOK := by
    change m.httpParser.parserResult.status = .hpsOK
    rw [hunused.parserResult]
  have hunread' : (m.taking r').httpParser.userBuffer.unread =
      ascii 'X' :: ascii 'X' :: List.replicate 4046 (ascii 'X') := by
    change r'.userBuffer.unread = _
    rw [hsame, hunread]
    rfl
  obtain ⟨q, hcall, hunfinished⟩ := HttpParser.startingParser_unknown hstatus hunread' table
  have hscan : scan table flooding m = .ok () { m.taking r' with httpParser := q } := by
    rw [scan_of_receive hreceive (if_neg ?_), hcall]
    change ¬ m.httpParser.finished = true
    rw [hunused.unfinished]
    exact Bool.false_ne_true
  obtain ⟨shown, m', hstep, hnone, -⟩ := step_of_unfinished hscan hunfinished hunused.que
  rw [hstep]
  exact hnone

end Unused

end Member

/-! ## The sum that has not been reported -/

namespace WriteLoop

variable {w w' : WriteLoop}

/-- What is counted for the callback, and what it has been given. -/
def counted (w : WriteLoop) : ℕ × ℕ × List ℤ := (w.throughout, w.interval, w.reports)

theorem counted_onBuffer (f : Op UserBuffer ℕ) : Op.Keeps counted (onBuffer f) := by
  intro w
  unfold onBuffer
  cases f w.userBuffer <;> rfl

theorem counted_put (piece : Piece) : Op.Keeps counted (put piece) := by
  cases piece with
  | block bytes => exact counted_onBuffer _
  | formatted characters =>
    exact .bind (counted_onBuffer _) fun ret ↦ .bind (counted_onBuffer _) fun _ ↦ .pure ret

theorem counted_putAll (pieces : List Piece) : Op.Keeps counted (putAll pieces) := by
  induction pieces with
  | nil => exact .pure 0
  | cons piece pieces ih => exact .bind (counted_put piece) fun n ↦ .bind ih fun m ↦ .pure (n + m)

theorem reports_report (w : WriteLoop) : w.report.reports = w.reports ++
    if expectedInterval ≤ w.interval then [Decimal.wrap 32 w.throughout] else [] := by
  unfold report
  split_ifs
  · rfl
  · exact (List.append_nil _).symm

/-- The kernel takes one byte of those that are offered. -/
theorem sendLoop_accepts_zero {block : List Byte} {s : Sending} (hmore : s.sent < block.length)
    (answers : List Accept) : sendLoop block (.accepts 0 :: answers) s =
      sendLoop block answers { s with
        outlet.wire := s.outlet.wire ++ block.take 1
        sent := s.sent + 1
        throughout := (s.throughout + (s.sent + 1)) % 2 ^ 32
        interval := (s.interval + 1) % 2 ^ 32 } := by
  have hone : min (0 + 1) (block.length - s.sent) = 1 := by omega
  rw [sendLoop, if_neg hmore.ne]
  dsimp only
  rw [hone]

/-- Three bytes of one `Send` go out one by one. -/
theorem sendLoop_sipped {block : List Byte} {s : Sending} (hlength : 4 ≤ block.length)
    (hsent : s.sent = 0) (hinterval : s.interval < 3) :
    ∃ s', sendLoop block (List.replicate 3 (.accepts 0)) s = s' ∧ s'.sent = 3 ∧
      s'.throughout = (s.throughout + 6) % 2 ^ 32 ∧ 3 ≤ s'.interval ∧
      s'.faultError = s.faultError := by
  have hthree : List.replicate 3 (.accepts 0) =
      ([.accepts 0, .accepts 0, .accepts 0] : List Accept) := rfl
  rw [hthree, sendLoop_accepts_zero (by omega), sendLoop_accepts_zero (by dsimp only; omega),
    sendLoop_accepts_zero (by dsimp only; omega)]
  refine ⟨_, rfl, ?_⟩
  -- each turn adds all that has been sent: 1, 2 and 3
  dsimp only [sendLoop]
  exact ⟨by omega, by omega, by omega, rfl⟩

/-- This brings a report. -/
theorem doAll_sipped {length : ℕ} (hque : w.que = [.send length]) (hlength : 4 ≤ length)
    (hfits : w.userBuffer.readSpot + length ≤ w.userBuffer.bufferSize)
    (hanswers : w.outlet.answers = List.replicate 3 (.accepts 0)) (hinterval : w.interval < 3) :
    ∃ w', doAll w = .ok .imcomplete w' ∧
      w'.reports = w.reports ++ [Decimal.wrap 32 ((w.throughout + 6) % 2 ^ 32 : ℕ)] := by
  have hblock := Memory.length_load w.userBuffer.buffer w.userBuffer.readSpot length
  obtain ⟨s, hloop, hsent, hthroughout, hreport, halive⟩ := @sendLoop_sipped
    (Memory.load w.userBuffer.buffer w.userBuffer.readSpot length) w.starting
    (hlength.trans_eq hblock.symm) rfl hinterval
  have hsend := send_eq length { w with que := [] }
  rw [if_neg (by omega), if_neg (not_lt.mpr hfits), hanswers] at hsend
  change send length { w with que := [] } = settle length
    (sendLoop (Memory.load w.userBuffer.buffer w.userBuffer.readSpot length)
      (List.replicate 3 (.accepts 0)) w.starting) { w with que := [] } at hsend
  rw [hloop] at hsend
  have hdue : s.faultError = false ∧ 0 < length - s.sent := ⟨halive, by omega⟩
  unfold settle insertSend at hsend
  dsimp only at hsend
  rw [if_pos hdue] at hsend
  unfold doAll turns doFirst
  rw [hque]
  dsimp only [runTask]
  rw [hsend]
  refine ⟨_, rfl, (reports_report _).trans ?_⟩
  have hthree : expectedInterval ≤ s.interval := hreport
  rw [if_pos hthree]
  exact congrArg (fun n : ℕ ↦ w.reports ++ [Decimal.wrap 32 n]) hthroughout

end WriteLoop

namespace REAProvider

open WriteLoop Provider

/-- The error page and its head are longer than three bytes and fit into an empty buffer. -/
theorem length_error_pieces {r : HttpRequest} (hmajor : r.versionMajor = 1)
    (hminor : r.versionMinor = 1) :
    4 ≤ (characters (Response.error.pieces .bare (Response.error.requestOf r) defaultMIME)).length ∧
      (characters (Response.error.pieces .bare (Response.error.requestOf r) defaultMIME)).length ≤
        4048 := by
  unfold Response.pieces headPieces Response.requestOf
  dsimp only
  rw [hmajor, hminor]
  by_cases hflag : r.flag = .keepAlive
  · rw [if_pos hflag]
    decide +kernel
  · rw [if_neg hflag]
    decide +kernel

/-- The error page is put into an empty buffer, and nothing is counted. -/
theorem exists_provide_error {table : HeaderTable} {mem : ℕ → Byte} {a : Answering}
    (hrespond : respond table .bare mem a.request = .ok .error)
    (htype : autoAdapt mem a.request.uri = .ok defaultMIME)
    (hmajor : a.request.versionMajor = 1) (hminor : a.request.versionMinor = 1)
    (hread : a.writeLoop.userBuffer.readSpot = 0) (hwrite : a.writeLoop.userBuffer.writeSpot = 0)
    (hsize : a.writeLoop.userBuffer.bufferSize = 4048) (hque : a.writeLoop.que = []) :
    ∃ n a', provide table .bare mem a = .ok () a' ∧ 4 ≤ n ∧ n ≤ 4048 ∧
      a'.writeLoop.que = [.send n] ∧ a'.writeLoop.userBuffer.readSpot = 0 ∧
      a'.writeLoop.userBuffer.bufferSize = 4048 ∧
      a'.writeLoop.counted = a.writeLoop.counted := by
  obtain ⟨hmany, hfits⟩ := length_error_pieces hmajor hminor
  have hsend : Response.error.send .bare mem a = _ := Response.error.send_of_ok htype
  generalize Response.error.pieces .bare (Response.error.requestOf a.request) defaultMIME = pieces
    at hmany hfits hsend
  have hlow : a.writeLoop.userBuffer.readSpot < a.writeLoop.userBuffer.bufferSize / 2 := by
    rw [hread, hsize]
    decide
  have hprint := putAll_room hlow pieces
  rw [hwrite, hsize, Nat.zero_add, if_pos hfits] at hprint
  obtain ⟨w, hput, hgrown⟩ := hprint
  obtain ⟨bytes, -, hfilled⟩ := putAll_fills (hread.trans_le (Nat.zero_le _)) hput
  have hcounted : w.counted = a.writeLoop.counted := by
    have hkept := counted_putAll pieces a.writeLoop
    rw [hput] at hkept
    exact hkept
  rw [hput] at hsend
  dsimp only at hsend
  rw [Response.attach_none rfl] at hsend
  refine ⟨_, ⟨Response.error.requestOf a.request, w.addSend (characters pieces).length⟩, ?_, hmany,
    hfits, ?_, hgrown.readSpot.trans hread, hgrown.bufferSize.trans hsize, hcounted⟩
  · rw [provide_eq, hrespond]
    exact hsend
  · change w.que ++ [.send (characters pieces).length] = _
    rw [hfilled.que, hque]
    rfl

end REAProvider

namespace Member

variable {table : HeaderTable} {m m' : Member}

/-- A request for which there is no page, and a kernel that takes three bytes of the answer one by
one. -/
def sipping : Arrival where
  received := [.bytes HttpParser.plainHead.encode, .eagain]
  accepts := List.replicate 3 (.accepts 0)
  site := .bare

/-- Where fewer than three parts have been counted, they are reported with three more bytes, which
`Send` counts as six. -/
theorem Unused.reported_sipping (hunused : m.Unused) (table : HeaderTable)
    (hinterval : m.writeLoop.interval < 3) :
    (step table (.doRead sipping) m).1.reported =
      [Decimal.wrap 32 ((m.writeLoop.throughout + 6) % 2 ^ 32 : ℕ)] := by
  have hreceived : sipping.received = [.bytes HttpParser.plainHead.encode, .eagain] := rfl
  obtain ⟨q, c, hscan, hhead, htracks, hrenders⟩ := hunused.scan_head table
    HttpParser.plainHead_wellFormed.accepted hreceived (by decide)
  have hfinished := finished_of_read hhead htracks.agrees.fault
  have hstored := htracks.stored
  rw [hhead.headers] at hstored
  obtain ⟨host, hfound, -⟩ := exists_host hstored (by decide)
  -- there is no page
  have hrespond : REAProvider.respond table .bare q.userBuffer.buffer q.requestResult =
      .ok .error := by
    have hget : q.requestResult.method ≠ .hrPost := by
      rw [hrenders.method]
      decide
    unfold REAProvider.respond REAProvider.requested
    rw [if_neg hget, hrenders.good, if_neg (by decide), hfound]
    dsimp only
    rw [hrenders.uri_length, hrenders.uri_bytes]
    rfl
  have hmajor : q.requestResult.versionMajor = 1 := by
    rw [hrenders.versionMajor]
    decide
  have hminor : q.requestResult.versionMinor = 1 := by
    rw [hrenders.versionMinor]
    decide
  obtain ⟨n, a', hprovide, hmany, hfits, hque, hread, hsize, hcounted⟩ :=
    @REAProvider.exists_provide_error table q.userBuffer.buffer ⟨q.requestResult, m.writeLoop⟩
      hrespond hrenders.autoAdapt_eq hmajor hminor hunused.outputRead hunused.outputWrite
      hunused.outputSize hunused.que
  obtain ⟨request, w⟩ := a'
  dsimp only at hprovide hque hread hsize hcounted
  have hthroughout : w.throughout = m.writeLoop.throughout := congrArg Prod.fst hcounted
  have hsame : w.interval = m.writeLoop.interval := congrArg (·.2.1) hcounted
  have hreports : w.reports = m.writeLoop.reports := congrArg (·.2.2) hcounted
  have hanswer : answer table sipping { m with httpParser := q } = .ok () { m with
      httpParser := { q with requestResult := request }
      writeLoop := w } := by
    unfold answer
    rw [if_pos hfinished]
    dsimp only
    rw [show sipping.site = .bare from rfl, hprovide]
  -- three bytes go out
  have hroom : w.userBuffer.readSpot + n ≤ w.userBuffer.bufferSize := by
    rw [hread, hsize, Nat.zero_add]
    exact hfits
  obtain ⟨w', hall, hreported⟩ := WriteLoop.doAll_sipped
    (w := { w with outlet.answers := sipping.accepts }) hque hmany hroom rfl
    (hsame.trans_lt hinterval)
  have hdo : doAll sipping.accepts { m with
      httpParser := { q with requestResult := request }
      writeLoop := w } = .ok .imcomplete { m with
        httpParser := { q with requestResult := request }
        writeLoop := w' } := by
    unfold doAll
    dsimp only
    rw [hall]
  have hcall : doRead table sipping m = .ok () { m with
      httpParser := { q with requestResult := request }
      writeLoop := w' } := doRead_of_doAll hscan hanswer hdo
  rw [@step_of_ok _ _ _ (.doRead sipping) hcall]
  change w'.reports.drop m.writeLoop.reports.length = _
  rw [hreported]
  change (w.reports ++ _).drop _ = _
  rw [hreports, List.drop_left, ← hthroughout]

/-- Where three parts have been counted, they are reported as soon as there is nothing to send. -/
theorem reported_doWrite (table : HeaderTable) (hque : m.writeLoop.que = []) :
    (step table (.doWrite []) m).1.reported =
      if WriteLoop.expectedInterval ≤ m.writeLoop.interval then
        [Decimal.wrap 32 m.writeLoop.throughout] else [] := by
  obtain ⟨m', hdo, -, hloop⟩ := doAll_of_nil hque []
  have hwrite : doWrite [] m = .ok () { m' with writeComplete := true } := Op.bind_of_ok hdo
  rw [@step_of_ok _ _ _ (.doWrite []) hwrite]
  change m'.writeLoop.reports.drop m.writeLoop.reports.length = _
  rw [hloop, WriteLoop.reports_report]
  exact List.drop_left

end Member

end LWebServer
