import LWebServer.Http.Provenance
import LWebServer.Server.Malformed
import LWebServer.Server.Sessions

/-!
# What goes over a connection

From the time a descriptor is entered its member answers requests. Nothing but bytes of these
responses is sent, whatever the kernel accepts, whatever is thrown, and whatever the other threads
and connections do; and as long as the kernel goes on only where it has been interrupted, the
responses are sent one behind the other.
-/

namespace LWebServer

open Schedule WriteLoop

/-! ## Calls -/

namespace Member

/-- The response that a call prints. -/
def Call.printing (table : HeaderTable) : Call → Member → List Printed
  | .doRead a, m => match scan table a m with
    | .ok _ m =>
      if m.httpParser.finished then
        REAProvider.printing table a.site m.httpParser.userBuffer.buffer m.httpParser.requestResult
      else []
    | .error _ _ => []
  | .doWrite _, _ => []

/-- What `DoRead` does behind the answer. -/
def conclude (accepts : List Accept) : Op Member Unit := do
  let result ← doAll accepts
  if result ≠ .imcomplete then modify fun m ↦ { m with writeComplete := true }

theorem doRead_eq (table : HeaderTable) (a : Arrival) :
    doRead table a = (do take table a; conclude a.accepts) := by
  unfold doRead take conclude
  simp only [bind_assoc]

/-- The first two steps of `DoRead` do not concern the write loop. -/
theorem keeps_writeLoop_scan (table : HeaderTable) (a : Arrival) :
    Op.Keeps Member.writeLoop (scan table a) := by
  refine .bind (fun m ↦ ?_) fun _ m ↦ ?_
  · unfold receive
    dsimp only
    cases Socket.read a.heap a.received (m.httpParser.extrabuffer, m.httpParser.userBuffer) <;> rfl
  · unfold parse
    dsimp only
    cases HttpParser.startingParser table
      (if m.httpParser.finished then m.httpParser.againParser else m.httpParser) <;> rfl

variable {table : HeaderTable} {a : Arrival} {m : Member} {before text : List Byte}
  {files : List (List Byte)} {excerpts : List (Excerpt Source)}

theorem writeLoop_answer (hfinished : m.httpParser.finished = true) :
    (Op.finalState (answer table a m)).writeLoop = (Op.finalState (REAProvider.provide table a.site
      m.httpParser.userBuffer.buffer ⟨m.httpParser.requestResult, m.writeLoop⟩)).writeLoop := by
  unfold answer
  rw [if_pos hfinished]
  dsimp only
  cases REAProvider.provide table a.site m.httpParser.userBuffer.buffer
    ⟨m.httpParser.requestResult, m.writeLoop⟩ <;> rfl

/-- What is queued by a `DoRead` comes from the response that it prints. -/
theorem supplied_take (hsupplied : Supplied before text files excerpts m.writeLoop) :
    ∃ texts, List.Forall₂ Printed.Begun ((Call.doRead a).printing table m) texts ∧
      Supplied before (text ++ texts.flatten)
        (files ++ ((Call.doRead a).printing table m).flatMap Printed.contents) excerpts
        (Op.finalState (take table a m)).writeLoop := by
  have hsame := keeps_writeLoop_scan table a m
  rw [take_eq]
  unfold Call.printing
  dsimp only
  cases hscan : scan table a m with
  | error e m₁ =>
    rw [hscan] at hsame
    have hloop : m₁.writeLoop = m.writeLoop := hsame
    rw [Op.bind_of_error hscan]
    refine ⟨[], .nil, ?_⟩
    simpa [Op.finalState, hloop] using hsupplied
  | ok u m₁ =>
    rw [hscan] at hsame
    have hloop : m₁.writeLoop = m.writeLoop := hsame
    rw [Op.bind_of_ok hscan]
    rw [← hloop] at hsupplied
    by_cases hfinished : m₁.httpParser.finished = true
    · simp only [if_pos hfinished]
      rw [writeLoop_answer hfinished]
      exact @REAProvider.supplied_provide ⟨m₁.httpParser.requestResult, m₁.writeLoop⟩ _ _ _ _ table
        a.site _ hsupplied
    · have hanswer : answer table a m₁ = .ok () m₁ := if_neg hfinished
      simp only [if_neg hfinished]
      rw [hanswer]
      refine ⟨[], .nil, ?_⟩
      simpa [Op.finalState] using hsupplied

theorem supplied_doAll (hsupplied : Supplied before text files excerpts m.writeLoop)
    (accepts : List Accept) :
    ∃ result m' excerpts', doAll accepts m = .ok result m' ∧
      Supplied before text files excerpts' m'.writeLoop ∧
        excerpts'.length ≤ excerpts.length + accepts.length := by
  obtain ⟨result, w, excerpts', hdo, hsupplied', hspends⟩ :=
    WriteLoop.supplied_doAll (hsupplied.facing accepts)
  have hrun : WriteLoop.doAll { m.writeLoop with outlet.answers := accepts } = .ok result w := hdo
  refine ⟨result, { m with writeLoop := w }, excerpts', ?_, hsupplied',
    (Nat.le_add_right _ _).trans hspends⟩
  unfold doAll
  rw [hrun]

theorem conclude_of_doAll {accepts : List Accept} {result : CompleteType} {m' : Member}
    (hdo : doAll accepts m = .ok result m') :
    ∃ m'', conclude accepts m = .ok () m'' ∧ m''.writeLoop = m'.writeLoop := by
  unfold conclude
  rw [Op.bind_of_ok hdo]
  by_cases hresult : result = .imcomplete
  · rw [if_neg (not_not_intro hresult)]
    exact ⟨m', rfl, rfl⟩
  · rw [if_pos hresult]
    exact ⟨_, rfl, rfl⟩

/-- The answers of the kernel to what a call sends. -/
def Call.accepts : Call → List Accept
  | .doRead a => a.accepts
  | .doWrite accepts => accepts

theorem supplied_run (hsupplied : Supplied before text files excerpts m.writeLoop) (call : Call) :
    ∃ texts excerpts', List.Forall₂ Printed.Begun (call.printing table m) texts ∧
      Supplied before (text ++ texts.flatten)
        (files ++ (call.printing table m).flatMap Printed.contents) excerpts'
        (Op.finalState (call.run table m)).writeLoop ∧
          excerpts'.length ≤ excerpts.length + call.accepts.length := by
  cases call with
  | doWrite accepts =>
    obtain ⟨result, m', excerpts', hdo, hsupplied', hfew⟩ := supplied_doAll hsupplied accepts
    have hrun : (Call.doWrite accepts).run table m =
        .ok () { m' with writeComplete := result ≠ .imcomplete } := Op.bind_of_ok hdo
    rw [hrun]
    refine ⟨[], excerpts', .nil, ?_, hfew⟩
    simpa [Call.printing, Op.finalState] using hsupplied'
  | doRead a =>
    obtain ⟨texts, htexts, htaken⟩ := @supplied_take table a _ _ _ _ _ hsupplied
    change ∃ texts excerpts', _ ∧ Supplied _ _ _ _ (Op.finalState (doRead table a m)).writeLoop ∧ _
    rw [doRead_eq]
    cases htake : take table a m with
    | error e m₁ =>
      rw [htake] at htaken
      rw [Op.bind_of_error htake]
      exact ⟨texts, excerpts, htexts, htaken, Nat.le_add_right _ _⟩
    | ok u m₁ =>
      rw [htake] at htaken
      obtain ⟨result, m₂, excerpts', hdo, hsupplied', hfew⟩ :=
        @supplied_doAll m₁ _ _ _ _ htaken a.accepts
      obtain ⟨m₃, hconclude, hloop⟩ := conclude_of_doAll hdo
      rw [Op.bind_of_ok htake, hconclude]
      rw [← hloop] at hsupplied'
      exact ⟨texts, excerpts', htexts, hsupplied', hfew⟩

end Member

/-! ## Connections -/

namespace Session

/-- The responses that have been printed in a session. -/
def printed (table : HeaderTable) (c : Session) : List Printed :=
  c.calls.flatMap fun entry ↦ entry.1.printing table entry.2

/-- The answers that the kernel has given in a session. -/
def answers (c : Session) : ℕ := (c.calls.map fun entry ↦ entry.1.accepts.length).sum

/-- What has been sent in a session are excerpts of what has been printed in it and of the files of
its responses, one for each answer of the kernel at most. Those of the print never go back, and
those of a file follow one another from its beginning on. -/
def SendsOwn (table : HeaderTable) (c : Session) : Prop :=
  ∃ texts excerpts, List.Forall₂ Printed.Begun (c.printed table) texts ∧
    Shipped c.before texts.flatten ((c.printed table).flatMap Printed.contents) excerpts
      c.member.writeLoop.outlet.wire ∧ excerpts.length ≤ c.answers

/-- The buffer and the queue of a session hold only what has been printed in it, too. -/
def Own (table : HeaderTable) (c : Session) : Prop :=
  ∃ texts excerpts, List.Forall₂ Printed.Begun (c.printed table) texts ∧
    Supplied c.before texts.flatten ((c.printed table).flatMap Printed.contents) excerpts
      c.member.writeLoop ∧ excerpts.length ≤ c.answers

theorem Own.sendsOwn {table : HeaderTable} {c : Session} (hown : c.Own table) :
    c.SendsOwn table := by
  obtain ⟨texts, excerpts, htexts, hsupplied, hfew⟩ := hown
  exact ⟨texts, excerpts, htexts, hsupplied.shipped, hfew⟩

theorem printed_add (table : HeaderTable) (m m' : Member) (before : List Byte)
    (calls : List (Member.Call × Member)) (call : Member.Call) :
    printed table ⟨m', before, calls ++ [(call, m)]⟩ =
      printed table ⟨m, before, calls⟩ ++ call.printing table m := by
  simp [printed]

theorem own_opened (table : HeaderTable) {m : Member} (hque : m.writeLoop.que = [])
    (hspots : m.writeLoop.userBuffer.writeSpot = 0 ∧ m.writeLoop.userBuffer.readSpot = 0) :
    (opened m).Own table := by
  obtain ⟨hwrite, hread⟩ := hspots
  have hunread : m.writeLoop.userBuffer.unread = [] := by simp [UserBuffer.unread, hwrite]
  have hpointers : pointers m.writeLoop.que = [] := by rw [hque]; rfl
  refine ⟨[], [], .nil, ⟨?_, ?_, ?_, ?_, ?_, ?_, ?_, [], List.nodup_nil, ?_⟩, Nat.zero_le _⟩
  · simp [opened, hunread]
  · simp [opened, hque, dueAll]
  · simp [opened, hque]
  · simp [opened, hread]
  · exact ⟨⟨[], (List.append_nil _).symm, .nil _⟩, .nil _, fun _ ↦ .nil _⟩
  · simp [opened, hunread, Excerpt.taken]
  · exact fun e he ↦ absurd he List.not_mem_nil
  · simp [opened, hpointers]

end Session

namespace Member

theorem writeLoop_served (table : HeaderTable) (call : Call) (m : Member) :
    (m.served table call).writeLoop = (Op.finalState (call.run table m)).writeLoop := by
  unfold served
  cases call.run table m with
  | ok u m =>
    dsimp only
    split_ifs <;> rfl
  | error e m => rfl

end Member

namespace Session

theorem own_lasting (table : HeaderTable) : Lasting table (Own table) where
  opened m hentered := own_opened table hentered.que hentered.spots
  served c call hown := by
    obtain ⟨texts, excerpts, htexts, hsupplied, hfew⟩ := hown
    obtain ⟨texts', excerpts', htexts', hsupplied', hfew'⟩ := Member.supplied_run hsupplied call
    refine ⟨texts ++ texts', excerpts', ?_, ?_, ?_⟩
    · rw [printed_add]
      exact List.rel_append htexts htexts'
    · dsimp only
      rw [printed_add, List.flatMap_append, List.flatten_append, Member.writeLoop_served]
      exact hsupplied'
    · unfold answers at hfew ⊢
      simp only [List.map_append, List.sum_append, List.map_cons, List.map_nil, List.sum_cons,
        List.sum_nil]
      omega
  closed c hown := hown

end Session

/-- In every run of the process, whatever the kernel accepts and whatever is thrown: a worker has
sent in a session nothing but excerpts of the responses to the requests of this session. -/
theorem Process.sendsOwn_run {n : ℕ} [NeZero n] {table : HeaderTable} {balance : LoadBalance n}
    {eventfds : Fin n → ℕ} {schedule : List (Process.Act n)} {s : Process n}
    (hrun : run (Process.step table) schedule (.new balance eventfds) = some s)
    (hrunning : s.halted = none) (index : Fin n) (fd : ℕ) :
    (Process.session table index fd schedule (.new balance eventfds)).map Session.member =
        s.member index fd ∧
      ∀ c, Process.session table index fd schedule (.new balance eventfds) = some c →
        c.SendsOwn table := by
  obtain ⟨hmember, hown⟩ :=
    Process.lasting_run (Session.own_lasting table) hrun hrunning index fd
  exact ⟨hmember, fun c hc ↦ (hown c hc).sendsOwn⟩

/-! ## Responses in order -/

namespace WriteLoop

instance (length : ℕ) : DecidablePred (Steady length)
  | .accepts more :: .accepts _ :: _ => inferInstanceAs (Decidable (length ≤ more + 1))
  | [] | [.accepts _] | .accepts _ :: .eagain :: _ | .accepts _ :: .reset :: _
  | .accepts _ :: .failed :: _ | .eagain :: _ | .reset :: _ | .failed :: _ => isTrue trivial

instance (ptr : FileReader) : DecidablePred (Finishing ptr)
  | .accepts more :: _ => inferInstanceAs (Decidable (ptr.length - ptr.offest ≤ more + 1))
  | [] | .eagain :: _ | .reset :: _ | .failed :: _ =>
    inferInstanceAs (Decidable (ptr.offest = ptr.length))

instance : DecidablePred Served
  | ⟨_, [], _, _, _, _⟩ => isTrue trivial
  | ⟨_, .send length :: _, _, _, o, _⟩ => inferInstanceAs (Decidable (Steady length o.answers))
  | ⟨b, .sendReadable :: que, _, _, o, _⟩ => inferInstanceAs
    (Decidable (Steady b.readable o.answers ∧ ∀ task ∈ que, task.buffered = false))
  | ⟨_, .sendFile ptr :: que, _, _, o, _⟩ =>
    inferInstanceAs (Decidable (que = [] ∨ Finishing ptr o.answers))

instance decidableAllServed : (count : ℕ) → DecidablePred (AllServed count)
  | 0, _ => isTrue trivial
  | count + 1, w =>
    have : Decidable (match doFirst w with
        | .ok .complete w' => AllServed count w'.report
        | _ => True) :=
      match doFirst w with
      | .ok .complete w' => decidableAllServed count w'.report
      | .ok .imcomplete _ | .ok .empty _ | .error _ _ => isTrue trivial
    inferInstanceAs (Decidable (_ ∧ _))

end WriteLoop

instance : DecidablePred REAProvider.Orderly := fun _ ↦ inferInstanceAs (Decidable (_ ∧ _))

namespace Member

/-- The first three steps of a call return, and its `DoAll` is orderly. -/
def Call.Orderly (table : HeaderTable) : Call → Member → Prop
  | .doRead a, m => match take table a m with
    | .ok _ m => REAProvider.Orderly (m.writeLoop.facing a.accepts)
    | .error _ _ => False
  | .doWrite accepts, m => REAProvider.Orderly (m.writeLoop.facing accepts)

variable {table : HeaderTable} {a : Arrival} {m m' : Member} {bytes before text : List Byte}
  {files : List (List Byte)} {excerpts : List (Excerpt Source)}

instance (table : HeaderTable) (call : Call) : DecidablePred (call.Orderly table) := fun m ↦
  match call with
  | .doRead a =>
    have : Decidable (match take table a m with
        | .ok _ m => REAProvider.Orderly (m.writeLoop.facing a.accepts)
        | .error _ _ => False) :=
      match take table a m with
      | .ok _ m => inferInstanceAs (Decidable (REAProvider.Orderly (m.writeLoop.facing a.accepts)))
      | .error _ _ => isFalse id
    this
  | .doWrite accepts =>
    inferInstanceAs (Decidable (REAProvider.Orderly (m.writeLoop.facing accepts)))

theorem Call.Orderly.doRead (horderly : (Call.doRead a).Orderly table m) :
    ∃ m₁, take table a m = .ok () m₁ ∧ REAProvider.Orderly (m₁.writeLoop.facing a.accepts) := by
  cases htake : take table a m with
  | ok u m₁ =>
    simp only [Call.Orderly, htake] at horderly
    exact ⟨m₁, rfl, horderly⟩
  | error e m₁ => simp [Call.Orderly, htake] at horderly

theorem sends_take (hsends : m.writeLoop.Sends bytes) (htake : take table a m = .ok () m') :
    ∃ texts, List.Forall₂ Printed.Texts ((Call.doRead a).printing table m) texts ∧
      m'.writeLoop.Sends (bytes ++ texts.flatten) := by
  rw [take_eq] at htake
  obtain ⟨u, m₁, hscan, hanswer⟩ := Op.bind_ok htake
  have hsame := keeps_writeLoop_scan table a m
  rw [hscan] at hsame
  have hloop : m₁.writeLoop = m.writeLoop := hsame
  rw [← hloop] at hsends
  unfold Call.printing
  dsimp only
  rw [hscan]
  dsimp only
  unfold answer at hanswer
  by_cases hfinished : m₁.httpParser.finished = true
  swap
  · rw [if_neg hfinished] at hanswer ⊢
    cases hanswer
    refine ⟨[], .nil, ?_⟩
    simpa using hsends
  rw [if_pos hfinished] at hanswer ⊢
  dsimp only at hanswer
  split at hanswer
  · rename_i request w hprovide
    cases hanswer
    exact REAProvider.sends_provide hsends hprovide
  · cases hanswer

/-- An orderly `DoAll` goes on with the same bytes. -/
theorem sends_doAll (hsends : m.writeLoop.Sends bytes) {accepts : List Accept}
    (horderly : REAProvider.Orderly (m.writeLoop.facing accepts)) {result : CompleteType}
    (hdo : doAll accepts m = .ok result m') : m'.writeLoop.Sends bytes := by
  obtain ⟨items, hrepresents, rfl⟩ := hsends
  have hfacing : Represents (m.writeLoop.facing accepts) items :=
    ⟨hrepresents.que, hrepresents.holds, hrepresents.unread, hrepresents.readSpot_le⟩
  have hkeeps := turns_keep hfacing horderly.1 horderly.2
  change KeepsWire _ _ (WriteLoop.doAll (m.writeLoop.facing accepts)) at hkeeps
  cases hturns : WriteLoop.doAll (m.writeLoop.facing accepts) with
  | ok answer w =>
    have hall : WriteLoop.doAll { m.writeLoop with outlet.answers := accepts } = .ok answer w :=
      hturns
    rw [hturns] at hkeeps
    simp only [doAll, hall, EStateM.Result.ok.injEq] at hdo
    obtain ⟨-, rfl⟩ := hdo
    exact hkeeps
  | error e w =>
    have hall : WriteLoop.doAll { m.writeLoop with outlet.answers := accepts } = .error e w :=
      hturns
    simp [doAll, hall] at hdo

theorem sends_run (hsends : m.writeLoop.Sends bytes)
    (hsupplied : Supplied before text files excerpts m.writeLoop) {call : Call}
    (horderly : call.Orderly table m) :
    ∃ texts, List.Forall₂ Printed.Texts (call.printing table m) texts ∧
      (Op.finalState (call.run table m)).writeLoop.Sends (bytes ++ texts.flatten) := by
  cases call with
  | doWrite accepts =>
    obtain ⟨result, m', -, hdo, -⟩ := supplied_doAll hsupplied accepts
    have hrun : (Call.doWrite accepts).run table m =
        .ok () { m' with writeComplete := result ≠ .imcomplete } := Op.bind_of_ok hdo
    have hsends' := sends_doAll hsends horderly hdo
    rw [hrun]
    refine ⟨[], .nil, ?_⟩
    simpa [Op.finalState] using hsends'
  | doRead a =>
    obtain ⟨m₁, htake, horderly⟩ := Call.Orderly.doRead horderly
    obtain ⟨texts, htexts, hsends₁⟩ := sends_take hsends htake
    obtain ⟨_, _, htaken⟩ := @supplied_take table a _ _ _ _ _ hsupplied
    rw [htake] at htaken
    obtain ⟨result, m₂, -, hdo, -⟩ := @supplied_doAll m₁ _ _ _ _ htaken a.accepts
    obtain ⟨m₃, hconclude, hloop⟩ := conclude_of_doAll hdo
    refine ⟨texts, htexts, ?_⟩
    change (Op.finalState (doRead table a m)).writeLoop.Sends _
    rw [doRead_eq, Op.bind_of_ok htake, hconclude]
    have hsends₂ := sends_doAll hsends₁ horderly hdo
    rwa [← hloop] at hsends₂

end Member

namespace Session

/-- All calls so far have been orderly. -/
def Orderly (table : HeaderTable) (c : Session) : Prop :=
  ∀ entry ∈ c.calls, Member.Call.Orderly table entry.1 entry.2

instance (table : HeaderTable) : DecidablePred (Orderly table) := fun c ↦
  inferInstanceAs (Decidable (∀ entry ∈ c.calls, Member.Call.Orderly table entry.1 entry.2))

/-- What has been sent and what is in line are the responses, one behind the other. -/
def Answers (table : HeaderTable) (c : Session) : Prop :=
  ∃ texts, List.Forall₂ Printed.Texts (c.printed table) texts ∧ ∃ pending,
    c.member.writeLoop.outlet.wire ++ pending = c.before ++ texts.flatten ∧
      pending.length = (c.member.writeLoop.que.map (Task.amount c.member.writeLoop)).sum

/-- The responses of an orderly session go out one behind the other. -/
def InOrder (table : HeaderTable) (c : Session) : Prop :=
  c.Own table ∧ (c.Orderly table → ∃ texts, List.Forall₂ Printed.Texts (c.printed table) texts ∧
    c.member.writeLoop.Sends (c.before ++ texts.flatten))

theorem InOrder.answers {table : HeaderTable} {c : Session} (hinOrder : c.InOrder table)
    (horderly : c.Orderly table) : c.Answers table := by
  obtain ⟨⟨_, _, _, hsupplied, -⟩, hresponses⟩ := hinOrder
  obtain ⟨texts, htexts, items, hrepresents, htotal⟩ := hresponses horderly
  exact ⟨texts, htexts, _, htotal, hrepresents.length_pending hsupplied.proper⟩

theorem inOrder_lasting (table : HeaderTable) : Lasting table (InOrder table) where
  opened m hentered := by
    obtain ⟨hque, hspots, -, -, -⟩ := hentered
    refine ⟨own_opened table hque hspots, fun _ ↦ ⟨[], .nil, [], ⟨hque, ?_, ?_, ?_⟩, rfl⟩⟩
    · exact fun item hitem ↦ absurd hitem List.not_mem_nil
    · simp [opened, UserBuffer.unread, hspots.1, bufferedBytes]
    · simp [opened, hspots.2]
  served c call hinOrder := by
    obtain ⟨hown, hresponses⟩ := hinOrder
    refine ⟨(own_lasting table).served c call hown, fun horderly ↦ ?_⟩
    obtain ⟨hbefore, hlast⟩ := List.forall_mem_append.mp horderly
    obtain ⟨texts, htexts, hsends⟩ := hresponses hbefore
    obtain ⟨_, _, _, hsupplied, -⟩ := hown
    obtain ⟨texts', htexts', hsends'⟩ :=
      Member.sends_run hsends hsupplied (hlast (call, c.member) (List.mem_singleton_self _))
    refine ⟨texts ++ texts', ?_, ?_⟩
    · rw [printed_add]
      exact List.rel_append htexts htexts'
    · dsimp only
      rw [Member.writeLoop_served, List.flatten_append, ← List.append_assoc]
      exact hsends'
  closed c hinOrder := hinOrder

end Session

/-- In every run of the process: what a worker has sent in a session whose calls have been
orderly, and what is in line for it, are the responses to its requests in order. -/
theorem Process.answers_run {n : ℕ} [NeZero n] {table : HeaderTable} {balance : LoadBalance n}
    {eventfds : Fin n → ℕ} {schedule : List (Process.Act n)} {s : Process n}
    (hrun : run (Process.step table) schedule (.new balance eventfds) = some s)
    (hrunning : s.halted = none) (index : Fin n) (fd : ℕ) :
    (Process.session table index fd schedule (.new balance eventfds)).map Session.member =
        s.member index fd ∧
      ∀ c, Process.session table index fd schedule (.new balance eventfds) = some c →
        c.Orderly table → c.Answers table := by
  obtain ⟨hmember, hinOrder⟩ :=
    Process.lasting_run (Session.inOrder_lasting table) hrun hrunning index fd
  exact ⟨hmember, fun c hc horderly ↦ (hinOrder c hc).answers horderly⟩

namespace Process

open EpollEventType

/-- The connection 7 asks for the index page, and the kernel gives these answers. -/
def asked (accepts : List Accept) : Event where
  fd := 7
  events := eetCouldRead
  arrival := {
    received := [.bytes (text "GET / HTTP/1.1\r\nHost: a\r\n\r\n"), .eagain]
    accepts := accepts
    site := REAProvider.indexSite }
  accepted := []

/-- A connection is answered and hung up; a second worker gets one, and a third connection has the
descriptor of the first one and can be sent ten bytes. -/
def visits : List (Act 2) :=
  welcome ++ [.work first (.wait [asked [.accepts 999, .accepts 999, .accepts 999]]),
    .work first .serve, .work first (.wait [Channel.segment eetRDHup []]), .work first .serve,
    .accept 8, .push, .write] ++
      welcome ++ [.work first (.wait [asked [.accepts 9]]), .work first .serve]

/-- What the visits have led to, in numbers. -/
theorem run_visits : ∃ s c, run (step .sample) visits (new Distributing.even ![5, 6]) = some s ∧
    s.halted = none ∧
      session .sample first 7 visits (new Distributing.even ![5, 6]) = some c ∧
        c.before.length = 156 ∧ c.member.writeLoop.outlet.wire.length = 166 ∧
          c.Orderly .sample := by
  have hrunning : ((run (step .sample) visits (new Distributing.even ![5, 6])).map
      Process.halted) = some none := by decide +kernel
  have hsession : (session .sample first 7 visits (new Distributing.even ![5, 6])).any
      (fun c ↦ c.before.length = 156 ∧ c.member.writeLoop.outlet.wire.length = 166 ∧
        c.Orderly .sample) = true := by decide +kernel
  obtain ⟨s, hrun, hhalted⟩ := Option.map_eq_some_iff.mp hrunning
  obtain ⟨c, hc, hfacts⟩ := (Option.any_eq_true _ _).mp hsession
  obtain ⟨hbefore, hwire, horderly⟩ := of_decide_eq_true hfacts
  exact ⟨s, c, hrun, hhalted, hc, hbefore, hwire, horderly⟩

theorem sendsOwn_run_visits : ∃ s, ∃ c : Session,
    run (step .sample) visits (new Distributing.even ![5, 6]) = some s ∧
      c.before.length = 156 ∧ c.member.writeLoop.outlet.wire.length = 166 ∧
        s.member first 7 = some c.member ∧ c.SendsOwn .sample := by
  obtain ⟨s, c, hrun, hrunning, hc, hbefore, hwire, -⟩ := run_visits
  obtain ⟨hmember, hown⟩ := sendsOwn_run hrun hrunning first 7
  rw [hc] at hmember
  exact ⟨s, c, hrun, hbefore, hwire, hmember.symm, hown c hc⟩

theorem answers_run_visits : ∃ s, ∃ c : Session,
    run (step .sample) visits (new Distributing.even ![5, 6]) = some s ∧
      c.before.length = 156 ∧ c.member.writeLoop.outlet.wire.length = 166 ∧
        s.member first 7 = some c.member ∧ c.Answers .sample := by
  obtain ⟨s, c, hrun, hrunning, hc, hbefore, hwire, horderly⟩ := run_visits
  obtain ⟨hmember, hanswers⟩ := answers_run hrun hrunning first 7
  rw [hc] at hmember
  exact ⟨s, c, hrun, hbefore, hwire, hmember.symm, hanswers c hc horderly⟩

end Process

end LWebServer
