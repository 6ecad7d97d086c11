import LWebServer.Http.Overrun
import LWebServer.Server.Pending
import LWebServer.Server.Pieces

/-!
# The positions of the `UserBuffer` along a connection

Of all that a connection does to its `UserBuffer` only `Starting_Parser` can put the read position
behind the write position, and it does so exactly if the bytes it is given end by a wrong word.
-/

namespace LWebServer

namespace UserBuffer

/-- The positions are in order, so neither `Readable` nor the length copied by `Move_Buffer`
wraps. -/
structure InBounds (b : UserBuffer) : Prop where
  readSpot_le : b.readSpot ≤ b.writeSpot
  writeSpot_le : b.writeSpot ≤ b.bufferSize
  readable : b.readable + b.readSpot = b.writeSpot
  moveBuffer : ∃ b', b.moveBuffer = .ok () b'

theorem inBounds_iff (b : UserBuffer) : b.InBounds ↔ b.readSpot ≤ b.writeSpot := by
  refine ⟨InBounds.readSpot_le, fun hle ↦ ⟨hle, b.writeSpot_le, ?_, ?_⟩⟩
  · rw [readable, sizeSub_of_le hle, Nat.sub_add_cancel hle]
  · unfold moveBuffer
    rw [if_pos hle]
    split_ifs
    · exact ⟨_, rfl⟩
    · exact ⟨_, rfl⟩

theorem readSpot_le_write (bytes : ℕ) :
    Op.Maintains (fun b : UserBuffer ↦ b.readSpot ≤ b.writeSpot) (write bytes) := by
  intro b hle
  unfold write
  split_ifs with hfits
  · obtain ⟨b₁, hb₁⟩ : ∃ b₁ : UserBuffer,
        b₁ = { b with writeSpot := b.writeSpot + bytes, writeSpot_le := hfits } := ⟨_, rfl⟩
    have hle₁ : b₁.readSpot ≤ b₁.writeSpot := by
      rw [hb₁]
      exact hle.trans (Nat.le_add_right _ _)
    rw [← hb₁]
    obtain ⟨b', hmove⟩ := ((inBounds_iff b₁).mpr hle₁).moveBuffer
    rw [Op.bind_of_ok hmove]
    change b'.readSpot ≤ b'.writeSpot
    unfold moveBuffer at hmove
    rw [if_pos hle₁] at hmove
    split_ifs at hmove
    · cases hmove
      exact hle₁
    · cases hmove
      exact Nat.zero_le _
  · exact hle

end UserBuffer

/-! ## Receiving -/

namespace Receiving

/-- The read position of the `UserBuffer` that is being filled has not passed the write position. -/
def InOrder (r : Receiving) : Prop := r.userBuffer.readSpot ≤ r.userBuffer.writeSpot

theorem inOrder_fill (block : List Byte) : Op.Maintains InOrder (fill block) := by
  intro r horder
  unfold fill
  split <;> split_ifs <;> exact horder

theorem inOrder_commitUser (ret : ℕ) : Op.Maintains InOrder (commitUser ret) := by
  intro r horder
  have hwrite := UserBuffer.readSpot_le_write ret r.userBuffer horder
  unfold commitUser
  cases hcall : r.userBuffer.write ret with
  | error e b =>
    rw [hcall] at hwrite
    exact hwrite
  | ok n b =>
    rw [hcall] at hwrite
    dsimp only
    split_ifs <;> exact hwrite

theorem inOrder_commitExtra (heap : ℕ → Byte) (ret : ℕ) :
    Op.Maintains InOrder (commitExtra heap ret) := by
  intro r horder
  unfold commitExtra
  dsimp only
  split_ifs <;> exact horder

theorem inOrder_accept (heap : ℕ → Byte) (block : List Byte) :
    Op.Maintains InOrder (accept heap block) := by
  refine (inOrder_fill block).bind fun _ ↦ Op.Maintains.get.bind fun r ↦ ?_
  split_ifs
  · exact inOrder_commitExtra heap _
  · exact inOrder_commitUser _

theorem inOrder_turn (heap : ℕ → Byte) (answer : Recv) :
    Op.Maintains InOrder (turn heap answer) := by
  cases answer with
  | bytes block => exact Op.Maintains.get.bind fun r ↦ inOrder_accept heap _
  | zero => exact inOrder_accept heap []
  | eintr | eagain | failed => exact Op.Maintains.pure _

theorem inOrder_drain (heap : ℕ → Byte) (answers : List Recv) :
    Op.Maintains InOrder (drain heap answers) := by
  induction answers with
  | nil => exact Op.Maintains.pure _
  | cons answer answers ih =>
    refine (inOrder_turn heap answer).bind fun goes ↦ ?_
    split_ifs
    · exact ih
    · exact Op.Maintains.pure _

end Receiving

namespace Member

/-- The read position has not passed the write position. -/
def InOrder (m : Member) : Prop := m.httpParser.InOrder

theorem inOrder_receive (a : Arrival) : Op.Maintains InOrder (receive a) := by
  intro m horder
  have hdrain := Receiving.inOrder_drain a.heap a.received
    { extraBuffer := m.httpParser.extrabuffer
      userBuffer := m.httpParser.userBuffer
      startBuffer := .user m.httpParser.userBuffer.writeSpot
      length := m.httpParser.userBuffer.writeable
      sum := 0 } horder
  unfold receive Socket.read
  dsimp only
  cases hcall : Receiving.drain a.heap a.received
    { extraBuffer := m.httpParser.extrabuffer
      userBuffer := m.httpParser.userBuffer
      startBuffer := .user m.httpParser.userBuffer.writeSpot
      length := m.httpParser.userBuffer.writeable
      sum := 0 } with
  | ok _ r =>
    rw [hcall] at hdrain
    exact hdrain
  | error e r =>
    rw [hcall] at hdrain
    exact hdrain

/-! ## A run -/

/-- A call of `Starting_Parser`: the parser it is given, and the one it leaves however it ends. -/
structure Parsing where
  before : HttpParser
  after : HttpParser

/-- The parser that `Starting_Parser` is called on, behind `Again_Parser` for a finished request. -/
def toParse (m : Member) : HttpParser :=
  if m.httpParser.finished then m.httpParser.againParser else m.httpParser

/-- The call of `Starting_Parser` in a call, unless receiving has thrown. -/
def Call.parsing (table : HeaderTable) : Call → Member → Option Parsing
  | .doRead a, m =>
    match receive a m with
    | .ok _ m₁ => some ⟨m₁.toParse, Op.finalState (HttpParser.startingParser table m₁.toParse)⟩
    | .error _ _ => none
  | .doWrite _, _ => none

/-- The calls of `Starting_Parser` along a sequence of calls. A call that throws leaves a state to
go on from, one whose behaviour is undefined does not. -/
def parsings (table : HeaderTable) : List Call → Member → List Parsing
  | [], _ => []
  | call :: calls, m => (call.parsing table m).toList ++
    match call.run table m with
    | .ok _ m' => parsings table calls m'
    | .error .undefinedBehaviour _ => []
    | .error _ m' => parsings table calls m'

variable {table : HeaderTable}

theorem userBuffer_toParse (m : Member) : m.toParse.userBuffer = m.httpParser.userBuffer := by
  unfold toParse
  split_ifs <;> rfl

theorem parse_of_ok {m : Member} {fault : HttpParserFault} {p : HttpParser}
    (hstarting : HttpParser.startingParser table m.toParse = .ok fault p) :
    parse table m = .ok () { m with httpParser := p } := by
  unfold toParse at hstarting
  unfold parse
  dsimp only
  rw [hstarting]

theorem parse_of_error {m : Member} {e : Fail} {p : HttpParser}
    (hstarting : HttpParser.startingParser table m.toParse = .error e p) :
    parse table m = .error e { m with httpParser := p } := by
  unfold toParse at hstarting
  unfold parse
  dsimp only
  rw [hstarting]

theorem inOrder_answer (a : Arrival) : Op.Maintains InOrder (answer table a) := by
  intro m horder
  unfold answer
  split_ifs
  · dsimp only
    split <;> exact horder
  · exact horder

theorem inOrder_doAll (accepts : List Accept) : Op.Maintains InOrder (doAll accepts) := by
  intro m horder
  unfold doAll
  split <;> exact horder

theorem inOrder_doWrite (accepts : List Accept) : Op.Maintains InOrder (doWrite accepts) :=
  (inOrder_doAll accepts).bind fun _ _ horder ↦ horder

/-- What `DoRead` does behind `Starting_Parser` leaves the positions alone. -/
theorem inOrder_afterParse (a : Arrival) : Op.Maintains InOrder (do
    answer table a
    let result ← doAll a.accepts
    if result ≠ .imcomplete then modify fun m ↦ { m with writeComplete := true }) := by
  refine (inOrder_answer a).bind fun _ ↦ (inOrder_doAll a.accepts).bind fun result ↦ ?_
  split_ifs
  · exact fun _ horder ↦ horder
  · exact Op.Maintains.pure _

/-- A call leaves the positions in order if its `Starting_Parser` does. -/
theorem inOrder_run {call : Call} {m : Member} (horder : m.InOrder)
    (hparsing : ∀ parsing, call.parsing table m = some parsing → parsing.after.InOrder) :
    (Op.finalState (call.run table m)).InOrder := by
  cases call with
  | doWrite accepts => exact inOrder_doWrite accepts m horder
  | doRead a =>
    have hreceive := inOrder_receive a m horder
    change (Op.finalState (doRead table a m)).InOrder
    unfold doRead
    cases hcall : receive a m with
    | error e m₁ =>
      rw [hcall] at hreceive
      rw [Op.bind_of_error hcall]
      exact hreceive
    | ok u m₁ =>
      rw [Op.bind_of_ok hcall]
      have hafter : (Op.finalState (HttpParser.startingParser table m₁.toParse)).InOrder := by
        apply hparsing ⟨m₁.toParse, _⟩
        rw [Call.parsing, hcall]
        rfl
      cases hstarting : HttpParser.startingParser table m₁.toParse with
      | error e p =>
        rw [hstarting] at hafter
        rw [Op.bind_of_error (parse_of_error hstarting)]
        exact hafter
      | ok fault p =>
        rw [hstarting] at hafter
        rw [Op.bind_of_ok (parse_of_ok hstarting)]
        exact inOrder_afterParse a _ hafter

theorem inOrder_parsing_before {call : Call} {m : Member} {parsing : Parsing} (horder : m.InOrder)
    (hparsing : call.parsing table m = some parsing) : parsing.before.InOrder ∧
      parsing.after = Op.finalState (HttpParser.startingParser table parsing.before) := by
  cases call with
  | doWrite accepts => cases hparsing
  | doRead a =>
    have hreceive := inOrder_receive a m horder
    cases hcall : receive a m with
    | error e m₁ =>
      rw [Call.parsing, hcall] at hparsing
      cases hparsing
    | ok u m₁ =>
      rw [hcall] at hreceive
      rw [Call.parsing, hcall] at hparsing
      cases hparsing
      refine ⟨?_, rfl⟩
      unfold HttpParser.InOrder
      rw [userBuffer_toParse]
      exact hreceive

/-- The bytes given to a call of `Starting_Parser` end by a wrong word. -/
def Parsing.EndsWrong (parsing : Parsing) : Prop :=
  parsing.before.parserResult.status.EndsWrong parsing.before.userBuffer.unread

/-- One call: its `Starting_Parser`, if it makes one, leaves the positions in order exactly if the
bytes given to it do not end by a wrong word. -/
theorem inOrder_parsing_iff {call : Call} {m : Member} {parsing : Parsing} (horder : m.InOrder)
    (hparsing : call.parsing table m = some parsing)
    (hunused : parsing.before.extrabuffer.isVaild = false) :
    parsing.after.InOrder ↔ ¬ parsing.EndsWrong := by
  obtain ⟨hbefore, hafter⟩ := inOrder_parsing_before horder hparsing
  rw [hafter]
  exact HttpParser.inOrder_startingParser_iff hunused hbefore

/-- All calls, from any state with the positions in order. -/
theorem inOrder_parsings_iff {calls : List Call} {m : Member} (horder : m.InOrder)
    (hunused : ∀ parsing ∈ parsings table calls m,
      parsing.before.extrabuffer.isVaild = false) :
    (∀ parsing ∈ parsings table calls m, parsing.after.InOrder) ↔
      ∀ parsing ∈ parsings table calls m, ¬ parsing.EndsWrong := by
  induction calls generalizing m with
  | nil => simp [parsings]
  | cons call calls ih =>
    unfold parsings at hunused ⊢
    simp only [List.mem_append, Option.mem_toList, or_imp, forall_and] at hunused ⊢
    obtain ⟨hunusedNow, hunusedLater⟩ := hunused
    have hnow : (∀ parsing, call.parsing table m = some parsing → parsing.after.InOrder) ↔
        ∀ parsing, call.parsing table m = some parsing → ¬ parsing.EndsWrong :=
      forall₂_congr fun parsing hparsing ↦
        inOrder_parsing_iff horder hparsing (hunusedNow parsing hparsing)
    rw [← hnow]
    refine and_congr_right fun hafter ↦ ?_
    have hrun := inOrder_run horder hafter
    cases hcall : call.run table m with
    | ok u m' =>
      rw [hcall] at hrun hunusedLater
      exact ih hrun hunusedLater
    | error e m' =>
      rw [hcall] at hrun hunusedLater
      cases e with
      | undefinedBehaviour => simp
      | outOfRange | invalidArgument | logicError => exact ih hrun hunusedLater

/-- On a new connection, whatever is delivered to it and in whatever pieces, the positions are in
order after every call of `Starting_Parser` exactly if none of these calls is given bytes that end
by a wrong word. -/
theorem inBounds_iff_of_new (table : HeaderTable) (calls : List Call) (fd : ℕ)
    (memory : HttpRequest) (interval : ℕ)
    (hunused : ∀ parsing ∈ parsings table calls (new fd memory interval),
      parsing.before.extrabuffer.isVaild = false) :
    (∀ parsing ∈ parsings table calls (new fd memory interval),
        parsing.after.userBuffer.InBounds) ↔
      ∀ parsing ∈ parsings table calls (new fd memory interval), ¬ parsing.EndsWrong := by
  simp only [UserBuffer.inBounds_iff]
  exact inOrder_parsings_iff (Nat.zero_le 0) hunused

theorem inBounds_iff_of_new_get :
    (∀ parsing ∈ parsings .sample [.doRead (inOnePiece (text "GET /"))] (new 5 .zero 0),
        parsing.after.userBuffer.InBounds) ↔
      ∀ parsing ∈ parsings .sample [.doRead (inOnePiece (text "GET /"))] (new 5 .zero 0),
        ¬ parsing.EndsWrong :=
  inBounds_iff_of_new .sample _ 5 .zero 0 (by decide +kernel)

/-- Three bytes that begin like `GET`: two of them are taken as the word, and then one more. -/
theorem not_inBounds_wrongWord :
    (∀ parsing ∈ parsings .sample [.doRead (inOnePiece (text "GXX"))] (new 5 .zero 0),
      parsing.before.extrabuffer.isVaild = false) ∧
    ¬ ∀ parsing ∈ parsings .sample [.doRead (inOnePiece (text "GXX"))] (new 5 .zero 0),
      parsing.after.userBuffer.InBounds := by
  constructor
  · decide +kernel
  · simp only [UserBuffer.inBounds_iff]
    decide +kernel

end Member

end LWebServer
