import LWebServer.Server.Parking

/-!
# Cleared connections

The two arrays of a `Member` keep their size, and nothing is ever put outside of them. Where the
rest is as the constructors set it, a cleared `Member` is therefore in step with a new one. Where it
is not, some calls tell them apart.
-/

namespace LWebServer

open Memory Lockstep

/-! ## The size of an array -/

namespace UserBuffer

/-- The size of the array and what lies behind it. -/
def outside (b : UserBuffer) : ℕ × (ℕ → Byte) :=
  (b.bufferSize, fun i ↦ b.buffer (b.bufferSize + i))

theorem outside_eq {b b' : UserBuffer} (hsize : b'.bufferSize = b.bufferSize)
    (hcells : ∀ i, b.bufferSize ≤ i → b'.buffer i = b.buffer i) : b'.outside = b.outside := by
  unfold outside
  rw [hsize]
  exact congrArg _ (funext fun i ↦ hcells _ (Nat.le_add_right _ i))

theorem outside_store {b : UserBuffer} {spot : ℕ} {block : List Byte}
    (hfits : spot + block.length ≤ b.bufferSize) :
    outside { b with buffer := store b.buffer spot block } = b.outside :=
  outside_eq rfl fun _ hi ↦ store_of_ge _ _ (hfits.trans hi)

theorem keeps_moveBuffer : Op.Keeps outside moveBuffer := by
  intro b
  unfold moveBuffer
  split_ifs with hlow hle
  · rfl
  · have hwrite := b.writeSpot_le
    have hfits : 0 + (load b.buffer b.readSpot (b.writeSpot - b.readSpot)).length ≤
        b.bufferSize := by
      rw [length_load]
      omega
    exact outside_eq rfl fun _ hi ↦ store_of_ge _ _ (hfits.trans hi)
  · rfl

theorem keeps_write (bytes : ℕ) : Op.Keeps outside (write bytes) := by
  intro b
  unfold write
  split_ifs with hfits
  · exact Op.Keeps.bind keeps_moveBuffer (fun _ ↦ .pure bytes) { b with
      writeSpot := b.writeSpot + bytes
      writeSpot_le := hfits }
  · rfl

theorem keeps_append (block : List Byte) : Op.Keeps outside (append block) := by
  intro b
  unfold append
  split_ifs with hfits
  · exact outside_eq rfl fun _ hi ↦ store_of_ge _ _ (hfits.trans hi)
  · rfl

theorem keeps_writeBytes (block : List Byte) : Op.Keeps outside (writeBytes block) := by
  refine .bind .get fun b ↦ ?_
  split_ifs
  · exact .bind keeps_moveBuffer fun _ ↦ keeps_append block
  · exact keeps_append block

theorem keeps_sWrite (formatted : List Byte) : Op.Keeps outside (sWrite formatted) := by
  intro b
  refine outside_store ?_
  have hwrite := b.writeSpot_le
  unfold writeable
  split_ifs with hroom
  · simpa using hwrite
  · simp only [List.length_append, List.length_take, List.length_singleton]
    omega

end UserBuffer

/-! ## Receiving and parsing -/

namespace Receiving

/-- The array of the buffer keeps its size, and the `Extrabuf` is as large as at first, or larger. -/
structure Intact (o : ℕ × (ℕ → Byte)) (r : Receiving) : Prop where
  outside : r.userBuffer.outside = o
  bufferSize : 4048 ≤ r.extraBuffer.bufferSize

variable {o : ℕ × (ℕ → Byte)}

theorem intact_fill (block : List Byte) : Op.Maintains (Intact o) (fill block) := by
  intro r hintact
  unfold fill
  cases r.startBuffer with
  | user spot =>
    dsimp only
    split_ifs with hfits
    · exact ⟨(UserBuffer.outside_store hfits).trans hintact.outside, hintact.bufferSize⟩
    · exact hintact
  | extra spot =>
    dsimp only
    split_ifs
    · exact ⟨hintact.outside, hintact.bufferSize⟩
    · exact hintact

theorem intact_commitUser (ret : ℕ) : Op.Maintains (Intact o) (commitUser ret) := by
  intro r hintact
  have hwrite := (UserBuffer.keeps_write ret r.userBuffer).trans hintact.outside
  unfold commitUser
  cases hcall : r.userBuffer.write ret with
  | error e b =>
    rw [hcall] at hwrite
    exact ⟨hwrite, hintact.bufferSize⟩
  | ok n b =>
    rw [hcall] at hwrite
    dsimp only
    split_ifs <;> exact ⟨hwrite, hintact.bufferSize⟩

theorem intact_commitExtra (heap : ℕ → Byte) (ret : ℕ) :
    Op.Maintains (Intact o) (commitExtra heap ret) := by
  intro r hintact
  have hdoubled : 4048 ≤ r.extraBuffer.bufferSize * 2 :=
    hintact.bufferSize.trans (Nat.le_mul_of_pos_right _ Nat.two_pos)
  unfold commitExtra
  dsimp only
  split_ifs
  · exact ⟨hintact.outside, hintact.bufferSize⟩
  · exact ⟨hintact.outside, hdoubled⟩
  · exact ⟨hintact.outside, hintact.bufferSize⟩

theorem intact_accept (heap : ℕ → Byte) (block : List Byte) :
    Op.Maintains (Intact o) (accept heap block) := by
  refine .bind (intact_fill block) fun _ ↦ .bind .get fun r ↦ ?_
  split_ifs
  · exact intact_commitExtra heap _
  · exact intact_commitUser _

theorem intact_drain (heap : ℕ → Byte) (answers : List Recv) :
    Op.Maintains (Intact o) (drain heap answers) := by
  induction answers with
  | nil => exact .pure ()
  | cons answer answers ih =>
    refine .bind ?_ fun more ↦ ?_
    · cases answer with
      | bytes block => exact .bind .get fun _ ↦ intact_accept heap _
      | zero => exact intact_accept heap []
      | eintr | eagain | failed => exact .pure _
    · split_ifs
      · exact ih
      · exact .pure ()

end Receiving

namespace HttpParser

/-- The same of the buffers that the parser holds. -/
structure Intact (o : ℕ × (ℕ → Byte)) (p : HttpParser) : Prop where
  outside : p.userBuffer.outside = o
  bufferSize : 4048 ≤ p.extrabuffer.bufferSize

variable (table : HeaderTable) {o : ℕ × (ℕ → Byte)}

theorem intact_readWord (word : List Byte) (next : HttpParserStatus)
    (stm : HttpParserContent → HttpParserContent) (fault : HttpParserFault) :
    Op.Maintains (Intact o) (readWord word next stm fault) := by
  intro p hintact
  unfold readWord UserBuffer.readInto
  by_cases hshort : p.userBuffer.writeSpot < p.userBuffer.readSpot + word.length
  · simp only [if_pos hshort]
    exact ⟨hintact.outside, hintact.bufferSize⟩
  · simp only [if_neg hshort]
    split_ifs <;> exact ⟨hintact.outside, hintact.bufferSize⟩

theorem intact_cases (ch : Byte) : Op.Maintains (Intact o) (cases table ch) := by
  intro p hintact
  have hsame : p.userBuffer.outside = o ∧ 4048 ≤ p.extrabuffer.bufferSize :=
    ⟨hintact.outside, hintact.bufferSize⟩
  unfold cases
  cases p.parserResult.status <;> dsimp only
  case hpsOption | hpsGet | hpsHead | hpsDelete | hpsPost =>
    exact intact_readWord _ _ _ _ p hintact
  case hpsUriEnd =>
    split_ifs
    · exact ⟨hsame.1, hsame.2⟩
    · exact intact_readWord _ _ _ _ p hintact
  case hpsStoreHeader =>
    unfold storeHeaderCase
    dsimp only
    split_ifs <;> exact ⟨hsame.1, hsame.2⟩
  case hpsGameOver => exact hintact
  all_goals split_ifs <;> exact ⟨hsame.1, hsame.2⟩

theorem intact_refill : Op.Maintains (Intact o) refill := by
  intro p hintact
  have hsize := hintact.bufferSize
  unfold refill
  dsimp only
  split_ifs
  · generalize min p.extrabuffer.getLength.toNat p.userBuffer.clean.length = length
    have hwrite := (UserBuffer.keeps_writeBytes (load (p.extrabuffer.write length).extrabuf
      (p.extrabuffer.write length).getPtr length) p.userBuffer.clean).trans hintact.outside
    cases hcall : UserBuffer.writeBytes (load (p.extrabuffer.write length).extrabuf
        (p.extrabuffer.write length).getPtr length) p.userBuffer.clean with
    | ok n b =>
      rw [hcall] at hwrite
      exact ⟨hwrite, hsize⟩
    | error e b =>
      rw [hcall] at hwrite
      exact ⟨hwrite, hsize⟩
  · exact ⟨hintact.outside, hsize⟩
  · exact hintact

theorem intact_turn : Op.Maintains (Intact o) (turn table) := by
  intro p hintact
  unfold turn
  cases p.userBuffer.peek 0 with
  | none => exact hintact
  | some ch =>
    have hcases := intact_cases table ch p hintact
    dsimp only
    cases hcall : cases table ch p with
    | error e q =>
      rw [hcall] at hcases
      exact hcases
    | ok jump q =>
      rw [hcall] at hcases
      cases jump with
      | «continue» => exact hcases
      | «break» =>
        exact intact_refill { q with userBuffer := q.userBuffer.read 1 }
          ⟨hcases.outside, hcases.bufferSize⟩

theorem intact_loop (turns : ℕ) : Op.Maintains (Intact o) (loop table turns) := by
  induction turns with
  | zero => exact fun _ hintact ↦ hintact
  | succ turns ih =>
    intro p hintact
    unfold loop
    split_ifs
    · have hturn := intact_turn table p hintact
      cases hcall : turn table p with
      | error e q =>
        rw [hcall] at hturn
        exact hturn
      | ok _ q =>
        rw [hcall] at hturn
        exact ih q hturn
    · exact hintact

theorem intact_startingParser : Op.Maintains (Intact o) (startingParser table) := by
  intro p hintact
  obtain ⟨hbuffer, hextra, -⟩ := markShort_buffers p
  have hmarked : Intact o p.markShort :=
    ⟨hbuffer ▸ hintact.outside, hextra ▸ hintact.bufferSize⟩
  have hloop := intact_loop table p.markShort.turnBound p.markShort hmarked
  unfold startingParser parsering
  cases hcall : loop table p.markShort.turnBound p.markShort with
  | ok _ q =>
    rw [hcall] at hloop
    exact ⟨hloop.outside, hloop.bufferSize⟩
  | error e q =>
    rw [hcall] at hloop
    exact hloop

end HttpParser

/-! ## Sending and answering -/

namespace WriteLoop

/-- The array of the write loop keeps its size as well, and the sum is an `unsigned int`. -/
structure Intact (o : ℕ × (ℕ → Byte)) (w : WriteLoop) : Prop where
  outside : w.userBuffer.outside = o
  throughout : w.throughout < 2 ^ 32

variable {o : ℕ × (ℕ → Byte)}

theorem intact_onBuffer {f : Op UserBuffer ℕ} (hf : Op.Keeps UserBuffer.outside f) :
    Op.Maintains (Intact o) (onBuffer f) := by
  intro w hintact
  have hcall := (hf w.userBuffer).trans hintact.outside
  unfold onBuffer
  cases hresult : f w.userBuffer with
  | ok n b =>
    rw [hresult] at hcall
    exact ⟨hcall, hintact.throughout⟩
  | error e b =>
    rw [hresult] at hcall
    exact ⟨hcall, hintact.throughout⟩

theorem intact_put (piece : Piece) : Op.Maintains (Intact o) (put piece) := by
  cases piece with
  | block bytes => exact intact_onBuffer (UserBuffer.keeps_writeBytes bytes)
  | formatted characters =>
    exact .bind (intact_onBuffer (UserBuffer.keeps_sWrite characters)) fun ret ↦
      .bind (intact_onBuffer (UserBuffer.keeps_write ret)) fun _ ↦ .pure ret

theorem throughout_sendLoop_lt (block : List Byte) (answers : List Accept) {s : Sending}
    (hlt : s.throughout < 2 ^ 32) : (sendLoop block answers s).throughout < 2 ^ 32 := by
  induction answers generalizing s with
  | nil => exact hlt
  | cons answer answers ih =>
    unfold sendLoop
    split_ifs
    · exact hlt
    · cases answer with
      | accepts more => exact ih (Nat.mod_lt _ (Nat.two_pow_pos 32))
      | eagain | reset | failed => exact hlt

theorem intact_send (length : ℕ) : Op.Maintains (Intact o) (send length) := by
  intro w hintact
  have hsum := throughout_sendLoop_lt (load w.userBuffer.buffer w.userBuffer.readPtr length)
    w.outlet.answers (s := w.starting) hintact.throughout
  unfold send
  dsimp only
  split_ifs
  · exact hintact
  · exact hintact
  · exact ⟨hintact.outside, hsum⟩
  · exact ⟨hintact.outside, hsum⟩

theorem intact_doFirst : Op.Maintains (Intact o) doFirst := by
  intro w hintact
  have hsame (que : List Task) : Intact o { w with que := que } :=
    ⟨hintact.outside, hintact.throughout⟩
  unfold doFirst
  cases w.que with
  | nil => exact hintact
  | cons task que =>
    cases task with
    | send length => exact intact_send length _ (hsame que)
    | sendReadable => exact intact_send w.userBuffer.readable _ (hsame que)
    | sendFile ptr =>
      simp only [runTask, sendFile]
      split_ifs <;> exact ⟨hintact.outside, hintact.throughout⟩

theorem Intact.report {w : WriteLoop} (hintact : Intact o w) : Intact o w.report := by
  unfold WriteLoop.report
  split_ifs
  · exact ⟨hintact.outside, Nat.two_pow_pos 32⟩
  · exact hintact

theorem intact_turns (count : ℕ) : Op.Maintains (Intact o) (turns count) := by
  induction count with
  | zero => exact fun _ hintact ↦ hintact
  | succ count ih =>
    intro w hintact
    have hfirst := intact_doFirst w hintact
    unfold turns
    cases hcall : doFirst w with
    | error e w₁ =>
      rw [hcall] at hfirst
      exact hfirst
    | ok answer w₁ =>
      rw [hcall] at hfirst
      cases answer with
      | complete => exact ih w₁.report hfirst.report
      | imcomplete | empty => exact hfirst.report

end WriteLoop

namespace Provider

variable {o : ℕ × (ℕ → Byte)}

theorem intact_onLoop {f : Op WriteLoop ℕ} (hf : Op.Maintains (WriteLoop.Intact o) f) :
    Op.Maintains (fun a ↦ a.writeLoop.Intact o) (onLoop f) := by
  intro a hintact
  have hcall := hf a.writeLoop hintact
  unfold onLoop
  cases hresult : f a.writeLoop with
  | ok n w =>
    rw [hresult] at hcall
    exact hcall
  | error e w =>
    rw [hresult] at hcall
    exact hcall

theorem intact_onward (count : ℕ) (pieces : List WriteLoop.Piece) :
    Op.Maintains (fun a ↦ a.writeLoop.Intact o) (onward count pieces) := by
  induction pieces generalizing count with
  | nil => exact .pure count
  | cons piece pieces ih =>
    exact .bind (intact_onLoop (WriteLoop.intact_put piece)) fun n ↦ ih (count + n)

theorem intact_attach (response : Response) :
    Op.Maintains (fun a ↦ a.writeLoop.Intact o) response.attach := by
  unfold Response.attach
  cases response.file with
  | none => exact .pure ()
  | some file =>
    refine .bind (fun _ hintact ↦ ?_) fun _ ↦
      .bind (intact_onLoop (WriteLoop.intact_put crlfPiece)) fun _ _ hintact ↦ ?_
    · exact ⟨hintact.outside, hintact.throughout⟩
    · exact ⟨hintact.outside, hintact.throughout⟩

theorem intact_provide (table : HeaderTable) (site : Site) (mem : ℕ → Byte) :
    Op.Maintains (fun a ↦ a.writeLoop.Intact o) (REAProvider.provide table site mem) := by
  intro a hintact
  rw [REAProvider.provide_eq]
  cases REAProvider.respond table site mem a.request with
  | error e => exact hintact
  | ok response =>
    have hlift (mem : ℕ → Byte) (uri : ParsedHeader) :
        Op.Maintains (fun a ↦ a.writeLoop.Intact o) (lift (autoAdapt mem uri)) := by
      intro s hintact
      cases autoAdapt mem uri <;> exact hintact
    have hsend : Op.Maintains (fun a ↦ a.writeLoop.Intact o) (response.send site mem) :=
      .bind (fun _ hintact ↦ hintact) fun _ ↦ .bind .get fun _ ↦ .bind (hlift _ _) fun _ ↦
        .bind (intact_onward _ _) fun _ ↦
          .bind (fun _ hintact ↦ ⟨hintact.outside, hintact.throughout⟩) fun _ ↦
            intact_attach response
    exact hsend a hintact

end Provider

/-! ## Connections -/

namespace Member

/-- The same of both halves of a connection. -/
structure Intact (m : Member) : Prop where
  httpParser : m.httpParser.Intact (UserBuffer.new 4048).outside
  writeLoop : m.writeLoop.Intact (UserBuffer.new 4048).outside

theorem intact_receive (a : Arrival) : Op.Maintains Intact (receive a) := by
  intro m hintact
  have hdrain := Receiving.intact_drain a.heap a.received
    (Receiving.start m.httpParser.extrabuffer m.httpParser.userBuffer)
    ⟨hintact.httpParser.outside, hintact.httpParser.bufferSize⟩
  rw [receive_eq]
  generalize Receiving.drain a.heap a.received _ = result at hdrain
  cases result with
  | ok _ r => exact ⟨⟨hdrain.outside, hdrain.bufferSize⟩, hintact.writeLoop⟩
  | error e r => exact ⟨⟨hdrain.outside, hdrain.bufferSize⟩, hintact.writeLoop⟩

theorem intact_parse (table : HeaderTable) : Op.Maintains Intact (parse table) := by
  intro m hintact
  have hready : (if m.httpParser.finished then m.httpParser.againParser
      else m.httpParser).Intact (UserBuffer.new 4048).outside := by
    split_ifs
    · exact ⟨hintact.httpParser.outside, hintact.httpParser.bufferSize⟩
    · exact hintact.httpParser
  have hparsed := HttpParser.intact_startingParser table _ hready
  unfold parse
  dsimp only
  generalize HttpParser.startingParser table _ = result at hparsed
  cases result with
  | ok fault p => exact ⟨hparsed, hintact.writeLoop⟩
  | error e p => exact ⟨hparsed, hintact.writeLoop⟩

theorem intact_answer (table : HeaderTable) (a : Arrival) :
    Op.Maintains Intact (answer table a) := by
  intro m hintact
  unfold answer
  split_ifs
  · have hprovided := Provider.intact_provide table a.site m.httpParser.userBuffer.buffer
      ⟨m.httpParser.requestResult, m.writeLoop⟩ hintact.writeLoop
    dsimp only at hprovided ⊢
    generalize REAProvider.provide table a.site m.httpParser.userBuffer.buffer _ = result
      at hprovided
    cases result with
    | ok _ answering =>
      exact ⟨⟨hintact.httpParser.outside, hintact.httpParser.bufferSize⟩, hprovided⟩
    | error e answering =>
      exact ⟨⟨hintact.httpParser.outside, hintact.httpParser.bufferSize⟩, hprovided⟩
  · exact hintact

theorem intact_doAll (accepts : List Accept) : Op.Maintains Intact (doAll accepts) := by
  intro m hintact
  have hturns := WriteLoop.intact_turns (m.writeLoop.que.length + 1)
    { m.writeLoop with outlet.answers := accepts }
    ⟨hintact.writeLoop.outside, hintact.writeLoop.throughout⟩
  unfold doAll WriteLoop.doAll
  dsimp only at hturns ⊢
  generalize WriteLoop.turns (m.writeLoop.que.length + 1) _ = result at hturns
  cases result with
  | ok answer w => exact ⟨hintact.httpParser, hturns⟩
  | error e w => exact ⟨hintact.httpParser, hturns⟩

theorem intact_run (table : HeaderTable) (call : Call) :
    Op.Maintains Intact (call.run table) := by
  cases call with
  | doRead a =>
    refine .bind (intact_receive a) fun _ ↦ .bind (intact_parse table) fun _ ↦
      .bind (intact_answer table a) fun _ ↦ .bind (intact_doAll a.accepts) fun result ↦ ?_
    split_ifs
    · exact fun _ hintact ↦ ⟨hintact.httpParser, hintact.writeLoop⟩
    · exact .pure _
  | doWrite accepts =>
    exact .bind (intact_doAll accepts) fun _ _ hintact ↦ ⟨hintact.httpParser, hintact.writeLoop⟩

theorem intact_clear : Op.Maintains Intact clear := by
  intro m hintact
  have hparser : 4048 ≤ m.httpParser.extrabuffer.bufferSize := hintact.httpParser.bufferSize
  unfold clear HttpParser.clear
  dsimp only
  split_ifs
  · exact ⟨⟨hintact.httpParser.outside, hparser⟩,
      hintact.writeLoop.outside, hintact.writeLoop.throughout⟩
  · exact ⟨⟨hintact.httpParser.outside, hparser⟩, hintact.writeLoop⟩

/-- The states of a connection, however often it has been closed and cleared. -/
inductive Reached (table : HeaderTable) : Member → Prop
  | new (fd : ℕ) (memory : HttpRequest) (interval : ℕ) : Reached table (.new fd memory interval)
  | run {m : Member} (hreached : Reached table m) (call : Call) :
      Reached table (Op.finalState (call.run table m))
  | clear {m : Member} (hreached : Reached table m) : Reached table (Op.finalState (clear m))
  | initiativeClose {m : Member} (hreached : Reached table m) : Reached table m.initiativeClose

theorem Reached.intact {table : HeaderTable} {m : Member} (hreached : Reached table m) :
    m.Intact := by
  induction hreached with
  | new fd memory interval => exact ⟨⟨rfl, le_rfl⟩, rfl, Nat.two_pow_pos 32⟩
  | run _ call ih => exact intact_run table call _ ih
  | clear _ ih => exact intact_clear _ ih
  | initiativeClose _ ih => exact ⟨ih.httpParser, ih.writeLoop⟩

/-- `clear` returns, and what it leaves cannot be told apart from a new `Member` on the same
descriptor, constructed in some memory. -/
def Renews (table : HeaderTable) (m : Member) : Prop :=
  ∃ q memory interval, clear m = .ok () q ∧ ∀ calls,
    trace (step table) calls q =
      trace (step table) calls (.new m.socket.socketFd memory interval)

/-- What `clear` does not set again is as the constructors have set it: a call of `Starting_Parser`
has returned, no request has asked to close, nothing has been sent since the last report, the
`Extrabuf` has not grown, and no byte has come into the second half of the buffer. -/
structure Renewable (m : Member) : Prop where
  requestBuffer : m.httpParser.requestResult.requestBuffer = true
  setKa : m.httpParser.parserResult.setKa = .keepAlive
  throughout : m.writeLoop.throughout = 0
  extrabuffer : m.httpParser.extrabuffer.bufferSize = 4048
  buffer : ∀ i, 2024 ≤ i → i < 4048 → m.httpParser.userBuffer.buffer i = 0

/-- The state that `clear` leaves. -/
def cleared (m : Member) : Member where
  socket := { m.socket with haveClose := true }
  httpParser := {
    userBuffer := m.httpParser.userBuffer.clean
    parserResult := m.httpParser.parserResult.init
    requestResult := { m.httpParser.requestResult with headerValue := [] }
    extrabuffer := m.httpParser.extrabuffer.clear }
  writeLoop := m.writeLoop.clear
  writeComplete := false

theorem clear_of_requestBuffer {m : Member}
    (hset : m.httpParser.requestResult.requestBuffer = true) : clear m = .ok () m.cleared := by
  unfold clear HttpParser.clear
  dsimp only
  rw [if_pos hset, if_pos hset]
  rfl

/-- A new connection and a cleared one that is renewable are in step. -/
theorem apart_cleared {table : HeaderTable} {m : Member} (hreached : Reached table m)
    (hrenewable : Renewable m) :
    Apart m.writeLoop.outlet.wire m.writeLoop.reports
      (.new m.socket.socketFd m.cleared.httpParser.requestResult m.writeLoop.interval)
      m.cleared := by
  have hintact := hreached.intact
  obtain ⟨hsize, hbeyond⟩ := Prod.mk.inj hintact.httpParser.outside
  obtain ⟨hsize', -⟩ := Prod.mk.inj hintact.writeLoop.outside
  have hbehind (i : ℕ) : m.httpParser.userBuffer.buffer (m.httpParser.userBuffer.bufferSize + i) =
      0 := congrFun hbeyond i
  refine ⟨rfl, .inr ⟨⟨rfl, rfl, ?_⟩, ⟨rfl, rfl, hsize, fun i hi ↦ ?_⟩, ?_, ?_, ?_⟩,
    ⟨⟨rfl, rfl, hsize', rfl, le_rfl⟩, ?_, rfl, hrenewable.throughout, rfl, ?_, ?_⟩, rfl⟩
  · exact hrenewable.extrabuffer
  · -- nothing has been put into the second half, nor behind it
    have hhalf : 4048 / 2 ≤ i := hi.resolve_left (Nat.not_lt_zero i)
    by_cases hin : i < 4048
    · exact hrenewable.buffer i (by omega) hin
    · obtain ⟨k, rfl⟩ := Nat.exists_eq_add_of_le (Nat.le_of_not_lt hin)
      have hcell := hbehind k
      rw [hsize] at hcell
      exact hcell
  · have hinit : m.httpParser.parserResult.init = { setKa := .keepAlive } := by
      unfold HttpParserContent.init
      rw [hrenewable.setKa]
    exact hinit
  · rfl
  · refine ⟨⟨fun _ _ ↦ rfl, fun _ _ ↦ rfl, fun _ _ ↦ rfl, fun h ↦ HttpParserFault.noConfusion h,
      fun _ h ↦ HttpParserFault.noConfusion h⟩, fun _ entry hentry ↦ ?_, fun _ ↦ le_rfl⟩
    exact absurd hentry List.not_mem_nil
  · exact fun task htask ↦ absurd htask List.not_mem_nil
  · exact (List.append_nil _).symm
  · exact (List.append_nil _).symm

/-- A connection that is renewable behaves like a new one after it has been cleared. -/
theorem renews_of_renewable {table : HeaderTable} {m : Member} (hreached : Reached table m)
    (hrenewable : Renewable m) : Renews table m :=
  ⟨m.cleared, _, _, clear_of_requestBuffer hrenewable.requestBuffer, fun calls ↦
    (trace_congr (apart_cleared hreached hrenewable) table calls).symm⟩

/-- Nothing is in line and nothing is left to read. -/
theorem Reached.unused_cleared {table : HeaderTable} {m : Member} (hreached : Reached table m) :
    m.cleared.Unused where
  parserResult := rfl
  headerValue := rfl
  extrabuffer := rfl
  bufferSize := congrArg Prod.fst hreached.intact.httpParser.outside
  readSpot := rfl
  writeSpot := rfl
  que := rfl
  outputSize := congrArg Prod.fst hreached.intact.writeLoop.outside
  outputRead := rfl
  outputWrite := rfl

/-- Where `Request_Buffer_` is null, `clear` does not return. -/
theorem requestBuffer_of_clear {m q : Member} (hclear : clear m = .ok () q) :
    m.httpParser.requestResult.requestBuffer = true := by
  by_contra hnull
  unfold clear at hclear
  dsimp only at hclear
  rw [if_neg hnull] at hclear
  cases hclear

section

variable {table : HeaderTable} {m m' : Member}

/-- Of two connections in step the same is seen at the end of any calls. -/
theorem seen_eq_of_trace (htrace : ∀ calls, trace (step table) calls m = trace (step table) calls m')
    (call : Call) : (step table call m).1 = (step table call m').1 := by
  have hone := htrace [call]
  rw [trace_singleton, trace_singleton] at hone
  exact List.singleton_inj.mp hone

/-- A sum that has been left is seen in the next report. -/
theorem Unused.throughout_eq_zero (hunused : m.Unused) (hunused' : m'.Unused)
    (htrace : ∀ calls, trace (step table) calls m = trace (step table) calls m')
    (hlt : m.writeLoop.throughout < 2 ^ 32) (hzero : m'.writeLoop.throughout = 0) :
    m.writeLoop.throughout = 0 := by
  have hwrite := congrArg Seen.reported (seen_eq_of_trace htrace (.doWrite []))
  rw [reported_doWrite table hunused.que, reported_doWrite table hunused'.que, hzero] at hwrite
  by_cases hmany : WriteLoop.expectedInterval ≤ m.writeLoop.interval
  · rw [if_pos hmany] at hwrite
    split_ifs at hwrite
    exact Decimal.wrap_inj hlt (Nat.two_pow_pos 32) (List.singleton_inj.mp hwrite)
  · have hfew : ¬ WriteLoop.expectedInterval ≤ m'.writeLoop.interval := by
      intro hmany'
      rw [if_neg hmany, if_pos hmany'] at hwrite
      exact absurd hwrite.symm (List.cons_ne_nil _ _)
    have hread := congrArg Seen.reported (seen_eq_of_trace htrace (.doRead sipping))
    rw [hunused.reported_sipping table (Nat.lt_of_not_le hmany),
      hunused'.reported_sipping table (Nat.lt_of_not_le hfew), hzero] at hread
    have hsum := Decimal.wrap_inj (Nat.mod_lt _ (Nat.two_pow_pos 32))
      (Nat.mod_lt _ (Nat.two_pow_pos 32)) (List.singleton_inj.mp hread)
    omega

/-- An `Extrabuf` that has grown is seen by bytes that overflow the one of a new connection too. -/
theorem Unused.bufferSize_eq (hunused : m.Unused) (hunused' : m'.Unused)
    (htrace : ∀ calls, trace (step table) calls m = trace (step table) calls m')
    (hle : 4048 ≤ m.httpParser.extrabuffer.bufferSize)
    (hsize : m'.httpParser.extrabuffer.bufferSize = 4048) :
    m.httpParser.extrabuffer.bufferSize = 4048 := by
  by_contra hlarge
  have hfailure := congrArg Seen.failure (seen_eq_of_trace htrace (.doRead flooding))
  rw [hunused.failure_flooding_of_lt table (by omega), hunused'.failure_flooding_of_eq table hsize]
    at hfailure
  exact Option.some_ne_none _ hfailure

/-- A byte in the second half of the buffer is seen in the name of a file. -/
theorem Unused.buffer_eq_zero (hunused : m.Unused) (hunused' : m'.Unused)
    (htrace : ∀ calls, trace (step table) calls m = trace (step table) calls m') {i : ℕ}
    (hlow : 2024 ≤ i) (hhigh : i < 4048) (hzero : m'.httpParser.userBuffer.buffer i = 0) :
    m.httpParser.userBuffer.buffer i = 0 := by
  by_contra hother
  have hcell := hunused.trace_cellProbe table hlow hhigh
  rw [htrace, hunused'.trace_cellProbe table hlow hhigh, if_pos hzero, if_neg hother] at hcell
  simp at hcell

end

/-- A connection that behaves like a new one after it has been cleared is renewable. -/
theorem renewable_of_renews {table : HeaderTable} {m : Member} (hreached : Reached table m)
    (hrenews : Renews table m) : Renewable m := by
  obtain ⟨q, memory, interval, hclear, htrace⟩ := hrenews
  have hset := requestBuffer_of_clear hclear
  rw [clear_of_requestBuffer hset] at hclear
  cases hclear
  have hintact := hreached.intact
  have hunused := hreached.unused_cleared
  have hunused' := unused_new m.socket.socketFd memory interval
  refine ⟨hset, ?_, ?_, ?_, fun i hlow hhigh ↦ ?_⟩
  · have hclose := congrArg Seen.closeAble
      (seen_eq_of_trace htrace (.doRead (inOnePiece bareHead.encode)))
    rw [hunused.closeAble_bareHead, hunused'.closeAble_bareHead] at hclose
    by_contra hother
    have hkept : m.cleared.httpParser.parserResult.setKa ≠ .keepAlive := hother
    rw [decide_eq_true hkept] at hclose
    exact of_decide_eq_true hclose.symm rfl
  · exact hunused.throughout_eq_zero hunused' htrace hintact.writeLoop.throughout rfl
  · exact hunused.bufferSize_eq hunused' htrace hintact.httpParser.bufferSize rfl
  · exact hunused.buffer_eq_zero hunused' htrace hlow hhigh rfl

/-- Exactly a connection that is renewable behaves like a new one after it has been cleared. -/
theorem renews_iff {table : HeaderTable} {m : Member} (hreached : Reached table m) :
    Renews table m ↔ Renewable m :=
  ⟨renewable_of_renews hreached, renews_of_renewable hreached⟩

/-- `GET / HTTP/1.1` with a `Host`, for which there is a page, and what the kernel then takes. -/
def visit (accepts : List Accept) : Call := .doRead {
  received := [.bytes (text "GET / HTTP/1.1\r\nHost: a\r\n\r\n"), .eagain]
  accepts := accepts
  site := { Site.bare with index := some ⟨text "<html></html>", false⟩ } }

/-- What some calls leave of a connection. -/
def after (calls : List Call) (m : Member) : Member :=
  calls.foldl (fun m call ↦ Op.finalState (call.run .sample m)) m

theorem Reached.after {m : Member} (hreached : Reached .sample m) (calls : List Call) :
    Reached .sample (m.after calls) := by
  induction calls generalizing m with
  | nil => exact hreached
  | cons call calls ih => exact ih (hreached.run call)

/-- A connection whose answer has gone out in two calls is closed, and so is another one on the same
descriptor, with a report behind the last byte of its answer. -/
def revisited : Member :=
  let first := (new 5 .zero 0).after [visit [.accepts 9, .accepts 9],
    .doWrite [.accepts 9999, .accepts 9999, .accepts 9999]]
  (Op.finalState (clear first)).after [visit [.accepts 9999, .accepts 9999, .accepts 1,
    .accepts 9999]]

theorem reached_revisited : Reached .sample revisited :=
  (((Reached.new 5 .zero 0).after _).clear).after _

theorem renewable_revisited : Renewable revisited := by
  refine ⟨by decide +kernel, by decide +kernel, by decide +kernel, by decide +kernel, ?_⟩
  intro i hlow hhigh
  have hall : (List.range 2024).all (fun i ↦
      revisited.httpParser.userBuffer.buffer (2024 + i) = 0) = true := by
    decide +kernel
  have hcell := List.all_eq_true.mp hall (i - 2024) (List.mem_range.mpr (by omega))
  rw [Nat.add_sub_cancel' hlow] at hcell
  exact of_decide_eq_true hcell

theorem renews_revisited : Renews .sample revisited :=
  (renews_iff reached_revisited).mpr renewable_revisited

/-- A connection that is closed before anything has been parsed cannot be cleared. -/
theorem not_renews_new : ∃ m, Reached .sample m ∧ ¬ Renews .sample m := by
  refine ⟨new 5 .zero 0, .new 5 .zero 0, ?_⟩
  rintro ⟨q, memory, interval, hclear, -⟩
  have herror : clear (new 5 .zero 0) = .error .undefinedBehaviour _ := rfl
  rw [herror] at hclear
  cases hclear

end Member

end LWebServer
