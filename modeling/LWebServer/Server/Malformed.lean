import LWebServer.Server.Pending
import LWebServer.Server.Arming

/-!
# Malformed requests

A parser that has stopped at a fault stays as it is: no call answers the request, no call closes the
connection, and all bytes that follow are left unread.
-/

namespace LWebServer

namespace Member

/-- The parser has stopped at a fault. -/
structure Stopped (m : Member) : Prop where
  status : m.httpParser.parserResult.status = .hpsGameOver
  fault : m.httpParser.parserResult.fault ≠ .hpfContent

/-- The first two steps of `DoRead`. -/
def scan (table : HeaderTable) (a : Arrival) : Op Member Unit := do
  receive a
  parse table

theorem take_eq (table : HeaderTable) (a : Arrival) :
    take table a = scan table a >>= fun _ ↦ answer table a := by
  simp only [take, scan, bind_assoc]

variable {table : HeaderTable} {m m' : Member}

theorem finished_of_fault (hfault : m.httpParser.parserResult.fault ≠ .hpfContent) :
    m.httpParser.finished = false := by
  simpa [HttpParser.finished] using hfault

theorem judge_of_fault (hfault : m.httpParser.parserResult.fault ≠ .hpfContent) :
    m.judge ≠ .close := by
  unfold judge closeAble
  rw [finished_of_fault hfault]
  split_ifs <;> simp_all

theorem answer_of_fault (table : HeaderTable) (a : Arrival)
    (hfault : m.httpParser.parserResult.fault ≠ .hpfContent) : answer table a m = .ok () m := by
  unfold answer
  rw [if_neg (by rw [finished_of_fault hfault]; decide)]

/-- A stopped parser leaves all bytes where they are. -/
theorem parse_of_stopped (table : HeaderTable) (hstopped : m.Stopped) : ∃ m',
    parse table m = .ok () m' ∧ m'.Stopped ∧
      m'.httpParser.userBuffer = m.httpParser.userBuffer := by
  obtain ⟨hstatus, hfault⟩ := hstopped
  have hshort : m.httpParser.markShort.parserResult.status = .hpsGameOver ∧
      m.httpParser.markShort.parserResult.fault ≠ .hpfContent ∧
        m.httpParser.markShort.userBuffer = m.httpParser.userBuffer := by
    unfold HttpParser.markShort
    split_ifs
    · exact ⟨hstatus, hfault, rfl⟩
    · refine ⟨hstatus, ?_, rfl⟩
      simp [HttpParser.mapResult]
  obtain ⟨hstatus', hfault', hbuffer⟩ := hshort
  have hparsering : HttpParser.parsering table m.httpParser.markShort =
      .ok () m.httpParser.markShort := by
    unfold HttpParser.parsering
    cases m.httpParser.markShort.turnBound with
    | zero => rfl
    | succ turns => exact if_neg fun hrunning ↦ hrunning.1 hstatus'
  have hstarting : HttpParser.startingParser table m.httpParser =
      .ok m.httpParser.markShort.parserResult.fault m.httpParser.markShort.setRequesting := by
    unfold HttpParser.startingParser
    rw [hparsering]
  have hparse : parse table m =
      .ok () { m with httpParser := m.httpParser.markShort.setRequesting } := by
    unfold parse
    rw [finished_of_fault hfault, if_neg Bool.false_ne_true]
    dsimp only
    rw [hstarting]
  exact ⟨_, hparse, ⟨hstatus', hfault'⟩, hbuffer⟩

theorem httpParser_doAll (accepts : List Accept) (m : Member) :
    (Op.finalState (doAll accepts m)).httpParser = m.httpParser := by
  unfold doAll
  split <;> rfl

theorem parserResult_receive (a : Arrival) (m : Member) :
    (Op.finalState (receive a m)).httpParser.parserResult = m.httpParser.parserResult := by
  unfold receive
  dsimp only
  split <;> rfl

/-- What a `DoRead` whose parser has stopped at a fault has done. -/
theorem doRead_of_stopped {a : Arrival} {m₁ : Member} (hscan : scan table a m = .ok () m₁)
    (hstopped : m₁.Stopped) : (Op.finalState (doRead table a m)).httpParser = m₁.httpParser := by
  obtain ⟨_, m₀, hreceive, hparse⟩ := Op.bind_ok hscan
  have hanswer := answer_of_fault table a hstopped.fault
  have hrest : (Op.finalState ((do
      let result ← doAll a.accepts
      if result ≠ .imcomplete then modify fun m ↦ { m with writeComplete := true } : Op Member Unit)
        m₁)).httpParser = m₁.httpParser := by
    have hsame := httpParser_doAll a.accepts m₁
    cases hall : doAll a.accepts m₁ with
    | error e m₂ =>
      rw [Op.bind_of_error hall]
      rwa [hall] at hsame
    | ok result m₂ =>
      rw [Op.bind_of_ok hall]
      rw [hall] at hsame
      split_ifs
      · exact hsame
      · exact hsame
  unfold doRead
  rw [Op.bind_of_ok hreceive, Op.bind_of_ok hparse, Op.bind_of_ok hanswer]
  exact hrest

theorem Stopped.congr (hstopped : m.Stopped)
    (hsame : m'.httpParser.parserResult = m.httpParser.parserResult) : m'.Stopped :=
  ⟨hsame ▸ hstopped.status, hsame ▸ hstopped.fault⟩

/-- A call leaves a stopped parser stopped. -/
theorem stopped_run (table : HeaderTable) (call : Call) (hstopped : m.Stopped) :
    (Op.finalState (call.run table m)).Stopped := by
  cases call with
  | doWrite accepts =>
    have hsame := httpParser_doAll accepts m
    simp only [Call.run, doWrite]
    cases hall : doAll accepts m with
    | error e m₁ =>
      rw [hall] at hsame
      rw [Op.bind_of_error hall]
      exact hstopped.congr (congrArg HttpParser.parserResult hsame)
    | ok result m₁ =>
      rw [hall] at hsame
      rw [Op.bind_of_ok hall]
      exact hstopped.congr (congrArg HttpParser.parserResult hsame)
  | doRead a =>
    have hsame := parserResult_receive a m
    simp only [Call.run]
    cases hreceive : receive a m with
    | error e m₀ =>
      rw [hreceive] at hsame
      unfold doRead
      rw [Op.bind_of_error hreceive]
      exact hstopped.congr hsame
    | ok _ m₀ =>
      rw [hreceive] at hsame
      obtain ⟨m₁, hparse, hstopped₁, -⟩ := parse_of_stopped table (hstopped.congr hsame)
      have hscan : scan table a m = .ok () m₁ := (Op.bind_of_ok hreceive).trans hparse
      exact hstopped₁.congr (congrArg HttpParser.parserResult (doRead_of_stopped hscan hstopped₁))

/-- Stopped parsers stay stopped over any calls. -/
theorem stopped_history {calls : List Call} (hstopped : m.Stopped) {step : Step}
    (hstep : step ∈ history table calls m) : step.before.Stopped := by
  induction calls generalizing m with
  | nil => cases hstep
  | cons call calls ih =>
    have hafter := stopped_run table call hstopped
    unfold history at hstep
    cases hrun : call.run table m with
    | ok u m' =>
      rw [hrun] at hstep hafter
      rcases List.mem_cons.mp hstep with rfl | hlater
      · exact hstopped
      · exact ih hafter hlater
    | error e m' =>
      rw [hrun] at hstep hafter
      cases e with
      | undefinedBehaviour => cases hstep
      | outOfRange => exact ih hafter hstep
      | invalidArgument => exact ih hafter hstep
      | logicError => exact ih hafter hstep

/-- A call that does not lead to the connection being closed, and that leaves unread and unanswered
whatever it receives. -/
structure Ignoring (table : HeaderTable) (step : Step) : Prop where
  judge : step.after.judge ≠ .close
  unread : ∀ a, step.call = .doRead a → ∃ m₀ m₁, receive a step.before = .ok () m₀ ∧
    parse table m₀ = .ok () m₁ ∧ m₁.httpParser.userBuffer = m₀.httpParser.userBuffer ∧
    answer table a m₁ = .ok () m₁

theorem ignoring_of_mem_history {calls : List Call} (hstopped : m.Stopped) {step : Step}
    (hstep : step ∈ history table calls m) : Ignoring table step := by
  have hrun := run_of_mem_history hstep
  have hbefore := stopped_history hstopped hstep
  have hafter := stopped_run table step.call hbefore
  rw [hrun] at hafter
  refine ⟨judge_of_fault hafter.fault, fun a hcall ↦ ?_⟩
  rw [hcall] at hrun
  obtain ⟨_, m₀, hreceive, -⟩ := Op.bind_ok hrun
  have hsame := parserResult_receive a step.before
  rw [hreceive] at hsame
  obtain ⟨m₁, hparse, hstopped₁, hbuffer⟩ := parse_of_stopped table (hbefore.congr hsame)
  exact ⟨m₀, m₁, hreceive, hparse, hbuffer, answer_of_fault table a hstopped₁.fault⟩

/-- `DoRead` queues something for the request that it has parsed. -/
def Responds (table : HeaderTable) (a : Arrival) (m : Member) : Prop :=
  ∃ m₁ m₂, scan table a m = .ok () m₁ ∧ answer table a m₁ = .ok () m₂ ∧
    m₂.writeLoop.que ≠ m₁.writeLoop.que

/-- A `DoRead` followed by `JudgeToClose` returns, and it has queued a response or closed the
socket. -/
def Disposes (table : HeaderTable) (a : Arrival) (fd : ℕ) (g : Manger) : Prop :=
  ∃ m g', g.fdToMember fd = some m ∧
    (do
      Manger.reading table a fd
      Manger.judgeToClose fd) g = .ok () g' ∧
    (Responds table a m ∨ g'.closed fd = true)

/-- The socket is still open after `JudgeToClose` has gone by a parser with a fault. -/
theorem closed_judged_of_fault {g : Manger} {fd : ℕ}
    (hfault : m.httpParser.parserResult.fault ≠ .hpfContent) :
    (g.judged fd m).closed fd = g.closed fd := by
  have hnot := judge_of_fault hfault
  unfold Manger.judged
  cases hdecided : m.judge with
  | updateWrite => rfl
  | close => exact absurd hdecided hnot
  | update => rfl

theorem open_of_stopped {g g' : Manger} {fd : ℕ} {a : Arrival} {m₁ : Member}
    (hmember : g.fdToMember fd = some m) (hscan : scan table a m = .ok () m₁)
    (hstopped : m₁.Stopped)
    (hrun : (do
      Manger.reading table a fd
      Manger.judgeToClose fd) g = .ok () g') : g'.closed fd = g.closed fd := by
  have hparser := doRead_of_stopped hscan hstopped
  obtain ⟨_, g₁, hreading, hjudge⟩ := Op.bind_ok hrun
  unfold Manger.reading Manger.onMember Manger.withMember at hreading
  simp only [hmember] at hreading
  cases hread : doRead table a m with
  | error e m₂ => simp [hread] at hreading
  | ok _ m₂ =>
    rw [hread] at hparser
    obtain rfl : g.setMember fd m₂ = g₁ := by simpa [hread] using hreading
    have hmember₂ : (g.setMember fd m₂).fdToMember fd = some m₂ := Function.update_self ..
    have hfault : m₂.httpParser.parserResult.fault ≠ .hpfContent := by
      rw [show m₂.httpParser = m₁.httpParser from hparser]
      exact hstopped.fault
    rw [Manger.judgeToClose_eq hmember₂] at hjudge
    cases hjudge
    exact closed_judged_of_fault hfault

theorem not_responds {a : Arrival} {m₁ : Member} (hscan : scan table a m = .ok () m₁)
    (hstopped : m₁.Stopped) : ¬ Responds table a m := by
  rintro ⟨m₁', m₂, hscan', hanswer, hque⟩
  rw [hscan] at hscan'
  cases hscan'
  rw [answer_of_fault table a hstopped.fault] at hanswer
  cases hanswer
  exact hque rfl

theorem not_disposes_of_stopped {g : Manger} {fd : ℕ} {a : Arrival} {m₁ : Member}
    (hmember : g.fdToMember fd = some m) (hopen : g.closed fd = false)
    (hscan : scan table a m = .ok () m₁) (hstopped : m₁.Stopped) : ¬ Disposes table a fd g := by
  rintro ⟨m', g', hmember', hrun, hresponds | hclosed⟩
  · obtain rfl : m = m' := Option.some.inj (hmember.symm.trans hmember')
    exact not_responds hscan hstopped hresponds
  · rw [open_of_stopped hmember hscan hstopped hrun, hopen] at hclosed
    cases hclosed

/-- A request at which the parser stops is never disposed of, neither by the `DoRead` that receives
it nor by a later call. -/
theorem not_disposes {g : Manger} {fd : ℕ} {a : Arrival} {m₁ : Member}
    (hmember : g.fdToMember fd = some m) (hopen : g.closed fd = false)
    (hscan : scan table a m = .ok () m₁) (hstopped : m₁.Stopped) :
    ¬ Disposes table a fd g ∧
      ∀ calls, ∀ step ∈ history table calls (Op.finalState (doRead table a m)),
        Ignoring table step := by
  have hparser := doRead_of_stopped hscan hstopped
  have hlater : (Op.finalState (doRead table a m)).Stopped :=
    hstopped.congr (congrArg HttpParser.parserResult hparser)
  exact ⟨not_disposes_of_stopped hmember hopen hscan hstopped,
    fun calls step hstep ↦ ignoring_of_mem_history hlater hstep⟩

/-- A segment that comes whole. -/
def arriving (segment : List Byte) : Arrival where
  received := [.bytes segment, .eagain]
  accepts := []
  site := .bare

theorem stopped_arriving (segment : List Byte)
    (hstop : Op.returning (fun _ m ↦ decide (m.httpParser.parserResult.status = .hpsGameOver) &&
        decide (m.httpParser.parserResult.fault ≠ .hpfContent))
      (scan .sample (arriving segment) (new 7 .zero 0)) = true) :
    ∃ m₁, scan .sample (arriving segment) (new 7 .zero 0) = .ok () m₁ ∧ m₁.Stopped := by
  obtain ⟨_, m, hscan, htest⟩ := Op.of_returning hstop
  simp only [Bool.and_eq_true, decide_eq_true_eq] at htest
  exact ⟨m, hscan, htest.1, htest.2⟩

theorem not_disposes_noBlank :
    ¬ Disposes .sample (arriving (text "GET/ HTTP/1.1\r\n\r\n")) 7
        (Manger.new.setMember 7 (new 7 .zero 0)) ∧
      ∀ calls, ∀ step ∈ history .sample calls
          (Op.finalState (doRead .sample (arriving (text "GET/ HTTP/1.1\r\n\r\n"))
            (new 7 .zero 0))),
        Ignoring .sample step := by
  obtain ⟨m₁, hscan, hstopped⟩ :=
    stopped_arriving (text "GET/ HTTP/1.1\r\n\r\n") (by decide +kernel)
  exact not_disposes (by simp [Manger.setMember]) rfl hscan hstopped

/-- A request with an unknown method is neither answered nor is its connection closed. -/
theorem not_disposes_unknownMethod : ∃ m₁,
    scan .sample (arriving (text "XET / HTTP/1.1\r\n\r\n")) (new 7 .zero 0) = .ok () m₁ ∧
      m₁.Stopped ∧
      ¬ Disposes .sample (arriving (text "XET / HTTP/1.1\r\n\r\n")) 7
        (Manger.new.setMember 7 (new 7 .zero 0)) := by
  obtain ⟨m₁, hscan, hstopped⟩ :=
    stopped_arriving (text "XET / HTTP/1.1\r\n\r\n") (by decide +kernel)
  exact ⟨m₁, hscan, hstopped,
    not_disposes_of_stopped (by simp [Manger.setMember]) rfl hscan hstopped⟩

end Member

end LWebServer
