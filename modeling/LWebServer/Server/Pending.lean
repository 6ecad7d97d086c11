import LWebServer.Server.Manger

/-!
# Pending output

`WriteComplete` is meant to say that the write loop has nothing left to send; `JudgeToClose` goes
by it. `DoWrite` sets it to what the write loop reports, `DoRead` only ever sets it.
-/

namespace LWebServer

namespace WriteLoop

/-- What a `Send` of so many bytes leaves of the answers and of the bytes, unless it has to wait for
the socket. -/
def afterSend : List Accept → ℕ → Option (List Accept × ℕ)
  | answers, 0 => some (answers, 0)
  | .accepts more :: answers, rest + 1 => afterSend answers (rest - more)
  | .reset :: answers, rest + 1 => some (answers, rest + 1)
  | _, _ + 1 => none

/-- The socket takes all that the queue has to send, what is left of a file in one piece. -/
def Drains : List Task → UserBuffer → List Accept → Prop
  | [], _, _ => True
  | .send length :: que, b, answers => ∃ answers' left,
      afterSend answers length = some (answers', left) ∧
        Drains que (b.read (length - left)) answers'
  | .sendReadable :: que, b, answers => ∃ answers' left,
      afterSend answers b.readable = some (answers', left) ∧
        Drains que (b.read (b.readable - left)) answers'
  | .sendFile ptr :: que, b, answers =>
      (ptr.sendFile { answers := answers }).1.sendEnd = true ∧
        Drains que b (ptr.sendFile { answers := answers }).2.answers

/-- `DoAll` is given the chance to empty the queue. -/
def Drained (w : WriteLoop) : Prop := Drains w.que w.userBuffer w.outlet.answers

/-- A loop that has ended is one `afterSend` describes. -/
def Ended (length : ℕ) (s : Sending) (after : Option (List Accept × ℕ)) : Prop :=
  s.sent ≤ length ∧
    after = if s.faultError = false ∧ 0 < length - s.sent then none
      else some (s.outlet.answers, length - s.sent)

theorem ended_sendLoop (block : List Byte) (answers : List Accept) (s : Sending)
    (hle : s.sent ≤ block.length) (hfault : s.faultError = false) :
    Ended block.length (sendLoop block answers s) (afterSend answers (block.length - s.sent)) := by
  induction answers generalizing s with
  | nil =>
    refine ⟨hle, ?_⟩
    cases hrest : block.length - s.sent <;> simp [sendLoop, afterSend, hrest, hfault]
  | cons answer answers ih =>
    unfold sendLoop
    by_cases hall : s.sent = block.length
    · rw [if_pos hall]
      refine ⟨hle, ?_⟩
      simp [hall, afterSend]
    · rw [if_neg hall]
      obtain ⟨rest, hrest⟩ : ∃ rest, block.length - s.sent = rest + 1 :=
        Nat.exists_eq_add_one.mpr (by omega)
      rw [hrest]
      cases answer with
      | accepts more =>
        have hstep (t : Sending) (ht : t.sent = s.sent + min (more + 1) (rest + 1))
            (hfaultless : t.faultError = false) :
            Ended block.length (sendLoop block answers t) (afterSend answers (rest - more)) := by
          have hleft : rest - more = block.length - t.sent := by omega
          rw [hleft]
          exact ih t (by omega) hfaultless
        exact hstep _ rfl hfault
      | eagain =>
        refine ⟨hle, ?_⟩
        simp [afterSend, hrest, hfault]
      | failed =>
        refine ⟨hle, ?_⟩
        simp [afterSend, hrest, hfault]
      | reset =>
        refine ⟨hle, ?_⟩
        simp [afterSend, hrest]

theorem sendFile_answers (ptr : FileReader) (o : Outlet) :
    (ptr.sendFile { answers := o.answers }).1 = (ptr.sendFile o).1 ∧
      (ptr.sendFile { answers := o.answers }).2.answers = (ptr.sendFile o).2.answers := by
  unfold FileReader.sendFile
  split_ifs
  · exact ⟨rfl, rfl⟩
  · dsimp only
    split <;> exact ⟨rfl, rfl⟩

/-- What a turn does to the queue and what it tells of the socket. -/
def TurnsOut (w : WriteLoop) : EStateM.Result Fail WriteLoop CompleteType → Prop
  | .ok .empty w' => w.que = [] ∧ w'.que = []
  | .ok .complete w' => w.que.length = w'.que.length + 1 ∧ (w.Drained ↔ w'.Drained)
  | .ok .imcomplete w' => w'.que ≠ [] ∧ ¬ w.Drained
  | .error _ _ => True

/-- A task that sends bytes of the buffer. -/
theorem turnsOut_send {w : WriteLoop} {length : ℕ} {task : Task} {que : List Task}
    (hque : w.que = task :: que)
    (hdrains : w.Drained ↔ ∃ answers left,
      afterSend w.outlet.answers length = some (answers, left) ∧
        Drains que (w.userBuffer.read (length - left)) answers) :
    TurnsOut w (send length { w with que := que }) := by
  have hblock := Memory.length_load w.userBuffer.buffer w.userBuffer.readPtr length
  unfold send
  dsimp only
  split_ifs with hshort hlong hleft
  · trivial
  · trivial
  all_goals
    obtain ⟨hle, hafter⟩ := ended_sendLoop
      (Memory.load w.userBuffer.buffer w.userBuffer.readPtr length) w.outlet.answers
      { outlet := w.outlet, sent := 0, throughout := w.throughout, interval := w.interval
        faultError := false } (Nat.zero_le _) rfl
    rw [hblock] at hle hafter
    rw [Nat.sub_zero] at hafter
  · rw [if_pos hleft] at hafter
    refine ⟨List.cons_ne_nil _ _, ?_⟩
    rw [hdrains, hafter]
    rintro ⟨_, _, hnone, -⟩
    cases hnone
  · rw [if_neg hleft] at hafter
    refine ⟨congrArg List.length hque, ?_⟩
    rw [hdrains, hafter]
    constructor
    · rintro ⟨_, _, hsome, hrest⟩
      obtain ⟨rfl, rfl⟩ : _ ∧ _ := by simpa using hsome
      rw [Nat.sub_sub_self hle] at hrest
      exact hrest
    · intro hrest
      refine ⟨_, _, rfl, ?_⟩
      rw [Nat.sub_sub_self hle]
      exact hrest

theorem turnsOut_doFirst (w : WriteLoop) : TurnsOut w (doFirst w) := by
  unfold doFirst
  cases hque : w.que with
  | nil => exact ⟨hque, hque⟩
  | cons task que =>
    cases task with
    | send length =>
      apply turnsOut_send hque
      unfold Drained
      rw [hque]
      rfl
    | sendReadable =>
      apply turnsOut_send hque
      unfold Drained
      rw [hque]
      rfl
    | sendFile ptr =>
      have hdrained : w.Drained ↔ (ptr.sendFile w.outlet).1.sendEnd = true ∧
          Drains que w.userBuffer (ptr.sendFile w.outlet).2.answers := by
        obtain ⟨hptr, hanswers⟩ := sendFile_answers ptr w.outlet
        unfold Drained
        rw [hque, ← hptr, ← hanswers]
        rfl
      simp only [runTask, sendFile]
      split_ifs with hend
      · refine ⟨congrArg List.length hque, hdrained.trans ?_⟩
        exact and_iff_right hend
      · refine ⟨by simp [insertSendFile, addSendFile], fun h ↦ hend (hdrained.mp h).1⟩

/-- What `DoAll` says of the queue it leaves and of the socket. -/
def Reports (w : WriteLoop) : EStateM.Result Fail WriteLoop CompleteType → Prop
  | .ok .empty w' => w'.que = [] ∧ w.Drained
  | .ok .complete _ => False
  | .ok .imcomplete w' => w'.que ≠ [] ∧ ¬ w.Drained
  | .error _ _ => True

theorem report_keeps (w : WriteLoop) : w.report.que = w.que ∧ (w.report.Drained ↔ w.Drained) := by
  unfold report
  split_ifs <;> exact ⟨rfl, Iff.rfl⟩

theorem Reports.congr {w w' : WriteLoop} (hiff : w.Drained ↔ w'.Drained)
    {r : EStateM.Result Fail WriteLoop CompleteType} (hreports : Reports w' r) : Reports w r := by
  cases r with
  | error e s => trivial
  | ok result s =>
    cases result <;> simp only [Reports] at hreports ⊢
    · rwa [hiff]
    · rwa [hiff]

theorem reports_turns {count : ℕ} {w : WriteLoop} (hcount : w.que.length < count) :
    Reports w (turns count w) := by
  induction count generalizing w with
  | zero => exact absurd hcount (Nat.not_lt_zero _)
  | succ count ih =>
    have hturns := turnsOut_doFirst w
    unfold turns
    cases hturn : doFirst w with
    | error e w' => trivial
    | ok result w' =>
      rw [hturn] at hturns
      obtain ⟨hque, hsame⟩ := report_keeps w'
      cases result with
      | empty =>
        refine ⟨hque.trans hturns.2, ?_⟩
        unfold Drained
        rw [hturns.1]
        trivial
      | imcomplete => exact ⟨fun hnil ↦ hturns.1 (hque.symm.trans hnil), hturns.2⟩
      | complete =>
        have hlength : w.que.length = w'.que.length + 1 := hturns.1
        exact (ih (by rw [hque]; omega)).congr (hturns.2.trans hsame.symm)

/-- `DoAll` comes back with `EMPTY` or `IMCOMPLETE`, and the queue is as it says. -/
theorem reports_doAll (w : WriteLoop) : Reports w (doAll w) := reports_turns (Nat.lt_succ_self _)

end WriteLoop

namespace Member

/-- A call that a connection receives. -/
inductive Call where
  | doRead (a : Arrival)
  | doWrite (accepts : List Accept)

def Call.run (table : HeaderTable) : Call → Op Member Unit
  | .doRead a => Member.doRead table a
  | .doWrite accepts => Member.doWrite accepts

/-- A call that has returned, between two states. -/
structure Step where
  call : Call
  before : Member
  after : Member

/-- The calls of a sequence that return. One that throws leaves a state to go on from, one whose
behaviour is undefined does not. -/
def history (table : HeaderTable) : List Call → Member → List Step
  | [], _ => []
  | call :: calls, m =>
    match call.run table m with
    | .ok _ m' => ⟨call, m, m'⟩ :: history table calls m'
    | .error .undefinedBehaviour _ => []
    | .error _ m' => history table calls m'

theorem run_of_mem_history {table : HeaderTable} {calls : List Call} {m : Member} {step : Step}
    (hstep : step ∈ history table calls m) :
    step.call.run table step.before = .ok () step.after := by
  induction calls generalizing m with
  | nil => cases hstep
  | cons call calls ih =>
    unfold history at hstep
    cases hrun : call.run table m with
    | ok u m' =>
      rw [hrun] at hstep
      rcases List.mem_cons.mp hstep with rfl | hlater
      · exact hrun
      · exact ih hlater
    | error e m' =>
      rw [hrun] at hstep
      cases e with
      | undefinedBehaviour => cases hstep
      | outOfRange => exact ih hstep
      | invalidArgument => exact ih hstep
      | logicError => exact ih hstep

/-- `IsWriteComplete` tells whether anything is queued, and `JudgeToClose` neither closes nor waits
for input alone while something is. -/
structure Accounted (m : Member) : Prop where
  writeComplete : m.writeComplete = true ↔ m.writeLoop.que = []
  judge : m.judge ≠ .updateWrite → m.writeLoop.que = []

theorem accounted_iff (m : Member) :
    m.Accounted ↔ (m.writeComplete = true ↔ m.writeLoop.que = []) := by
  refine ⟨Accounted.writeComplete, fun hflag ↦ ⟨hflag, fun hjudge ↦ ?_⟩⟩
  apply hflag.mp
  by_contra hnot
  apply hjudge
  unfold judge
  rw [if_pos (by simpa using hnot)]

instance (m : Member) : Decidable m.Accounted := decidable_of_iff _ (accounted_iff m).symm

/-- The first three steps of `DoRead`, which queue the answer of a finished request. -/
def take (table : HeaderTable) (a : Arrival) : Op Member Unit := do
  receive a
  parse table
  answer table a

/-- The call is no `DoRead` that begins with `WriteComplete` set and is then kept from sending by
the socket. -/
def Careful (table : HeaderTable) : Call → Member → Prop
  | .doRead a, m => m.writeComplete = true → ∀ m₁, take table a m = .ok () m₁ →
      WriteLoop.Drains m₁.writeLoop.que m₁.writeLoop.userBuffer a.accepts
  | .doWrite _, _ => True

theorem doAll_ok {accepts : List Accept} {m m' : Member} {result : CompleteType}
    (hcall : doAll accepts m = .ok result m') :
    m'.writeComplete = m.writeComplete ∧
      (result = .imcomplete ∧ m'.writeLoop.que ≠ [] ∧
          ¬ WriteLoop.Drains m.writeLoop.que m.writeLoop.userBuffer accepts ∨
        result = .empty ∧ m'.writeLoop.que = [] ∧
          WriteLoop.Drains m.writeLoop.que m.writeLoop.userBuffer accepts) := by
  have hreports := WriteLoop.reports_doAll { m.writeLoop with outlet.answers := accepts }
  unfold doAll at hcall
  cases hall : WriteLoop.doAll { m.writeLoop with outlet.answers := accepts } with
  | error e w => simp [hall] at hcall
  | ok r w =>
    rw [hall] at hreports
    simp only [hall, EStateM.Result.ok.injEq] at hcall
    obtain ⟨rfl, rfl⟩ := hcall
    cases r with
    | imcomplete => exact ⟨rfl, .inl ⟨rfl, hreports⟩⟩
    | complete => exact absurd hreports id
    | empty => exact ⟨rfl, .inr ⟨rfl, hreports⟩⟩

/-- What `DoRead` does after it has queued the answer. -/
theorem doRead_ok {table : HeaderTable} {a : Arrival} {m m' : Member}
    (hcall : doRead table a m = .ok () m') :
    ∃ m₁ result m₂, take table a m = .ok () m₁ ∧ doAll a.accepts m₁ = .ok result m₂ ∧
      m' = if result = .imcomplete then m₂ else { m₂ with writeComplete := true } := by
  obtain ⟨_, t₁, hreceive, hcall⟩ := Op.bind_ok hcall
  obtain ⟨_, t₂, hparse, hcall⟩ := Op.bind_ok hcall
  obtain ⟨_, m₁, hanswer, hcall⟩ := Op.bind_ok hcall
  obtain ⟨result, m₂, hdo, hcall⟩ := Op.bind_ok hcall
  have htake : take table a m = .ok () m₁ := by
    unfold take
    rw [Op.bind_of_ok hreceive, Op.bind_of_ok hparse, hanswer]
  refine ⟨m₁, result, m₂, htake, hdo, ?_⟩
  by_cases hresult : result = .imcomplete
  · rw [if_neg (not_not.mpr hresult)] at hcall
    rw [if_pos hresult]
    cases hcall
    rfl
  · rw [if_pos hresult] at hcall
    rw [if_neg hresult]
    cases hcall
    rfl

theorem writeComplete_take {table : HeaderTable} {a : Arrival} {m m' : Member}
    (htake : take table a m = .ok () m') : m'.writeComplete = m.writeComplete := by
  obtain ⟨_, t₁, hreceive, htake⟩ := Op.bind_ok htake
  obtain ⟨_, t₂, hparse, hanswer⟩ := Op.bind_ok htake
  have h₁ : t₁.writeComplete = m.writeComplete := by
    unfold receive at hreceive
    dsimp only at hreceive
    split at hreceive <;> cases hreceive
    rfl
  have h₂ : t₂.writeComplete = t₁.writeComplete := by
    unfold parse at hparse
    dsimp only at hparse
    split at hparse <;> cases hparse
    rfl
  have h₃ : m'.writeComplete = t₂.writeComplete := by
    unfold answer at hanswer
    dsimp only at hanswer
    split_ifs at hanswer
    · split at hanswer <;> cases hanswer
      rfl
    · cases hanswer
      rfl
  rw [h₃, h₂, h₁]

/-- `DoRead` leaves its flag as it was when the socket holds it up. -/
theorem accounted_doRead {table : HeaderTable} {a : Arrival} {m m' : Member}
    (hcall : doRead table a m = .ok () m') : m'.Accounted ↔ Careful table (.doRead a) m := by
  obtain ⟨m₁, result, m₂, htake, hdo, rfl⟩ := doRead_ok hcall
  have hflag : m₁.writeComplete = m.writeComplete := writeComplete_take htake
  obtain ⟨hsame, hresult⟩ := doAll_ok hdo
  have hcareful : Careful table (.doRead a) m ↔ (m.writeComplete = true →
      WriteLoop.Drains m₁.writeLoop.que m₁.writeLoop.userBuffer a.accepts) := by
    refine ⟨fun h hset ↦ h hset m₁ htake, fun h hset t ht ↦ ?_⟩
    rw [htake] at ht
    cases ht
    exact h hset
  rw [accounted_iff, hcareful]
  rcases hresult with ⟨rfl, hque, hdrains⟩ | ⟨rfl, hque, hdrains⟩
  · rw [if_pos rfl, hsame, hflag]
    exact ⟨fun h hset ↦ absurd (h.mp hset) hque, fun h ↦ ⟨fun hset ↦ absurd (h hset) hdrains,
      fun hnil ↦ absurd hnil hque⟩⟩
  · rw [if_neg (by decide)]
    exact ⟨fun _ _ ↦ hdrains, fun _ ↦ ⟨fun _ ↦ hque, fun _ ↦ rfl⟩⟩

theorem accounted_doWrite {accepts : List Accept} {m m' : Member}
    (hcall : doWrite accepts m = .ok () m') : m'.Accounted := by
  obtain ⟨result, m₁, hdo, hcall⟩ := Op.bind_ok hcall
  cases hcall
  obtain ⟨-, hresult⟩ := doAll_ok hdo
  rw [accounted_iff]
  rcases hresult with ⟨rfl, hque, -⟩ | ⟨rfl, hque, -⟩ <;> simp [hque]

/-- Over any calls, what is queued is accounted for exactly if no `DoRead` begins with
`WriteComplete` set and is kept from sending everything. -/
theorem accounted_history_iff (table : HeaderTable) (calls : List Call) (m : Member) :
    (∀ step ∈ history table calls m, step.after.Accounted) ↔
      ∀ step ∈ history table calls m, Careful table step.call step.before := by
  apply forall₂_congr
  intro step hstep
  have hrun := run_of_mem_history hstep
  obtain ⟨call, m, m'⟩ := step
  cases call with
  | doRead a => exact accounted_doRead hrun
  | doWrite accepts => exact iff_of_true (accounted_doWrite hrun) trivial

/-- A request in two segments, whose answer the socket does not take at once. -/
def heldUp : List Call :=
  let site : Site := {
    index := some ⟨text "<html></html>", false⟩
    openAt := fun _ _ ↦ none
    fastCgi := fun _ _ ↦ .error .logicError
    date := text "Date: Thu, 01 Jan 1970 00:00:00\n"
    allotted := 24 }
  [.doRead ⟨[.bytes (text "GET / HTTP/1.1\r\n"), .eagain], [], site, fun _ ↦ 0⟩,
    .doRead ⟨[.bytes (text "Host: a\r\n\r\n"), .eagain], [.accepts 39, .eagain], site, fun _ ↦ 0⟩]

theorem not_accounted_heldUp :
    ¬ ∀ step ∈ history .sample heldUp (new 5 .zero 0), step.after.Accounted := by
  decide +kernel

end Member

end LWebServer
