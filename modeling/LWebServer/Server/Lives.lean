import LWebServer.Server.Process

/-!
# The life of a connection

A member is built or cleared when its descriptor is entered, called when an event of it is handled,
and closed. What it has become is what these deeds have made of it, one after the other: nothing
that is done for another connection, by its worker or by another thread, makes a difference.
-/

namespace LWebServer

open Schedule EpollEventType

/-- What is done to the member of a descriptor. -/
inductive Deed where
  | enter (memory : HttpRequest) (interval : ℕ)
  | serve (call : Member.Call)
  | hangUp

/-- A member that has been called for an event, and closed if `JudgeToClose` says so. -/
def Member.served (table : HeaderTable) (call : Call) (m : Member) : Member :=
  match call.run table m with
  | .ok _ m => if m.judge = .close then m.initiativeClose else m
  | .error _ m => m

namespace Deed

/-- A deed. There is a member from the first `enter` on. -/
def perform (table : HeaderTable) (fd : ℕ) (member : Option Member) : Deed → Option Member
  | .enter memory interval => match member with
    | none => some (.new fd memory interval)
    | some m => some (Op.finalState m.clear)
  | .serve call => member.map (Member.served table call)
  | .hangUp => member.map Member.initiativeClose

/-- All deeds to the member of a descriptor, from the first one on. -/
def life (table : HeaderTable) (fd : ℕ) (deeds : List Deed) (member : Option Member) :
    Option Member := deeds.foldl (perform table fd) member

end Deed

/-- What the event of a connection leads to. -/
def Event.deed (item : Event) : Option Deed :=
  if item.check eetRDHup then some .hangUp else item.call.map .serve

namespace Manger

/-- The members after something has been done, or nothing, to that of a descriptor. -/
def befallen (table : HeaderTable) (fd : ℕ) (deed : Option Deed) (fdToMember : ℕ → Option Member) :
    ℕ → Option Member := match deed with
  | some deed => Function.update fdToMember fd (deed.perform table fd (fdToMember fd))
  | none => fdToMember

theorem fdToMember_judged (fd : ℕ) (member : Member) (g : Manger) :
    (g.judged fd member).fdToMember = if member.judge = .close then
      Function.update g.fdToMember fd (some member.initiativeClose) else g.fdToMember := by
  unfold judged
  cases member.judge <;> rfl

theorem fdToMember_serve (table : HeaderTable) (item : Event) (g : Manger) :
    (Op.finalState (serve table item g)).fdToMember =
      befallen table item.fd item.deed g.fdToMember := by
  unfold serve Event.deed
  by_cases hshut : item.check eetRDHup = true
  · rw [if_pos hshut, if_pos hshut]
    unfold remove withMember befallen Deed.perform
    cases hmember : g.fdToMember item.fd with
    | none => exact (Function.update_eq_self_iff.mpr hmember.symm).symm
    | some member => rfl
  · rw [if_neg hshut, if_neg hshut]
    cases hcall : item.call with
    | none => rfl
    | some call =>
      simp only [Option.map_some, befallen, Deed.perform]
      cases hmember : g.fdToMember item.fd with
      | none =>
        have hmissing : onMember item.fd (call.run table) g = .error .invalidArgument g := by
          simp only [onMember, withMember, hmember]
        rw [Op.bind_of_error hmissing]
        exact (Function.update_eq_self_iff.mpr hmember.symm).symm
      | some member =>
        cases hrun : call.run table member with
        | ok u m =>
          have hcalled : onMember item.fd (call.run table) g =
              .ok () (g.setMember item.fd m) := by
            simp only [onMember, withMember, hmember, hrun]
          have hself : (g.setMember item.fd m).fdToMember item.fd = some m :=
            Function.update_self item.fd _ g.fdToMember
          rw [Op.bind_of_ok hcalled, judgeToClose_eq hself]
          refine (fdToMember_judged item.fd m _).trans ?_
          simp only [Option.map_some, Member.served, hrun, setMember]
          split_ifs
          · exact Function.update_idem _ _ _
          · rfl
        | error e m =>
          have hthrown : onMember item.fd (call.run table) g =
              .error e (g.setMember item.fd m) := by
            simp only [onMember, withMember, hmember, hrun]
          rw [Op.bind_of_error hthrown]
          simp only [Option.map_some, Member.served, hrun]
          rfl

theorem fdToMember_operaMember (table : HeaderTable) (one : Accepted) (g : Manger) :
    (Op.finalState (operaMember one.fd one.memory one.interval g)).fdToMember =
      befallen table one.fd (some (.enter one.memory one.interval)) g.fdToMember := by
  unfold operaMember befallen Deed.perform
  cases hmember : g.fdToMember one.fd with
  | none =>
    simp only [hmember]
    rfl
  | some member =>
    cases hclear : member.clear with
    | ok u m =>
      simp only [hmember, onMember, withMember, hclear]
      rfl
    | error e m =>
      simp only [hmember, onMember, withMember, hclear]
      rfl

end Manger

namespace Worker

/-- What a step does to a member, with the descriptor of this member. -/
def deed (act : Act) (w : Worker) : Option (ℕ × Deed) := match act, w.temp with
  | .enter memory interval, some (_ + 1) => w.queue.head?.map fun fd ↦ (fd, .enter memory interval)
  | .serve, none => w.batch.head?.bind fun item ↦ item.deed.map fun deed ↦ (item.fd, deed)
  | _, _ => none

/-- The deed of a step, if it is one to this descriptor. -/
def deedTo (fd : ℕ) (act : Act) (w : Worker) : Option Deed :=
  (w.deed act).bind fun entry ↦ if entry.1 = fd then some entry.2 else none

section

variable {table : HeaderTable} {w w' : Worker} {fd : ℕ}

/-- The member of a descriptor after a step, in terms of the deed of this step. -/
def Befalls (table : HeaderTable) (fd : ℕ) (act : Act) (w w' : Worker) : Prop :=
  w'.channel.manger.fdToMember fd =
    Deed.life table fd (w.deedTo fd act).toList (w.channel.manger.fdToMember fd)

theorem befalls_of_none {act : Act} (hdeed : w.deed act = none)
    (hsame : w'.channel.manger.fdToMember = w.channel.manger.fdToMember) :
    Befalls table fd act w w' := by
  unfold Befalls deedTo
  rw [hdeed, hsame]
  rfl

theorem befalls_of_befallen {act : Act} {own : ℕ} {deed : Option Deed}
    (hdeed : w.deed act = deed.map fun deed ↦ (own, deed))
    (hbefallen : w'.channel.manger.fdToMember =
      Manger.befallen table own deed w.channel.manger.fdToMember) : Befalls table fd act w w' := by
  cases deed with
  | none => exact befalls_of_none hdeed hbefallen
  | some deed =>
    unfold Befalls deedTo
    rw [hdeed, hbefallen]
    unfold Manger.befallen
    by_cases hown : own = fd
    · subst hown
      simp [Deed.life]
    · simp [Deed.life, hown, Function.update_of_ne (Ne.symm hown)]

theorem befalls_enter {memory : HttpRequest} {interval : ℕ}
    (hstep : w.enter memory interval = some (.ok w')) :
    Befalls table fd (.enter memory interval) w w' := by
  unfold enter at hstep
  cases htemp : w.temp with
  | none => simp [htemp] at hstep
  | some turns =>
    cases turns with
    | zero => simp [htemp] at hstep
    | succ turns =>
      cases hline : w.queue with
      | nil => simp [htemp, hline] at hstep
      | cons own queue =>
        have hdeed : w.deed (.enter memory interval) =
            (some (Deed.enter memory interval)).map fun deed ↦ (own, deed) := by
          simp [deed, htemp, hline]
        have hmember := Manger.fdToMember_operaMember table ⟨own, memory, interval⟩ w.channel.manger
        simp only [htemp, hline] at hstep
        cases hopera : Manger.operaMember own memory interval w.channel.manger with
        | ok u g =>
          simp only [hopera] at hstep hmember
          cases hstep
          exact befalls_of_befallen hdeed hmember
        | error e g =>
          simp only [hopera] at hstep hmember
          cases e with
          | undefinedBehaviour => cases hstep
          | outOfRange =>
            cases hstep
            exact befalls_of_befallen hdeed hmember
          | invalidArgument =>
            cases hstep
            exact befalls_of_befallen hdeed hmember
          | logicError =>
            cases hstep
            exact befalls_of_befallen hdeed hmember

theorem befalls_serve (hstep : w.serve table = some (.ok w')) :
    Befalls table fd .serve w w' := by
  unfold serve at hstep
  cases htemp : w.temp with
  | some turns => simp [htemp] at hstep
  | none =>
    cases hbatch : w.batch with
    | nil => simp [htemp, hbatch] at hstep
    | cons item batch =>
      simp only [htemp, hbatch] at hstep
      split_ifs at hstep with hfd
      have hdeed : w.deed .serve = item.deed.map fun deed ↦ (item.fd, deed) := by
        simp [deed, htemp, hbatch]
      have hmember := Manger.fdToMember_serve table item w.channel.manger
      rw [← Channel.manger_onManger, ← Channel.handle_connection table hfd] at hmember
      cases hhandle : Channel.handle table item w.channel with
      | ok u c =>
        rw [hhandle] at hstep hmember
        cases hstep
        exact befalls_of_befallen hdeed hmember
      | error e c =>
        rw [hhandle] at hstep hmember
        cases e with
        | undefinedBehaviour => cases hstep
        | outOfRange =>
          cases hstep
          exact befalls_of_befallen hdeed hmember
        | invalidArgument =>
          cases hstep
          exact befalls_of_befallen hdeed hmember
        | logicError =>
          cases hstep
          exact befalls_of_befallen hdeed hmember

theorem befalls_wait {batch : List Event} (hstep : w.wait batch = some (.ok w')) :
    Befalls table fd (.wait batch) w w' := by
  unfold wait at hstep
  split_ifs at hstep with hready
  cases hstep
  exact befalls_of_none rfl (Channel.epollWait_eq batch w.channel.manger).1

theorem befalls_read (hstep : w.read = some (.ok w')) : Befalls table fd .read w w' := by
  unfold read at hstep
  split_ifs at hstep with hready
  cases hstep
  exact befalls_of_none rfl rfl

theorem befalls_rearm (hstep : w.rearm = some (.ok w')) : Befalls table fd .rearm w w' := by
  unfold rearm at hstep
  split_ifs at hstep with htemp
  cases hstep
  exact befalls_of_none rfl rfl

theorem befalls_step {act : Act} (hstep : w.step table act = some (.ok w')) :
    Befalls table fd act w w' := by
  cases act with
  | wait batch => exact befalls_wait hstep
  | interrupt => exact (interrupt_ne_ok hstep).elim
  | read => exact befalls_read hstep
  | enter memory interval => exact befalls_enter hstep
  | rearm => exact befalls_rearm hstep
  | serve => exact befalls_serve hstep

end

end Worker

namespace Process

variable {n : ℕ} [NeZero n]

/-- The deed of a step, if it is one of this worker to this descriptor. -/
def deedTo (index : Fin n) (fd : ℕ) (act : Act n) (s : Process n) : Option Deed := match act with
  | .work other act => if other = index then (s.workers index).deedTo fd act else none
  | _ => none

/-- All that a worker does to the member of a descriptor in a run. -/
def deeds (table : HeaderTable) (index : Fin n) (fd : ℕ) : List (Act n) → Process n → List Deed
  | [], _ => []
  | act :: rest, s =>
    (s.deedTo index fd act).toList ++
      match step table act s with
      | some s' => deeds table index fd rest s'
      | none => []

variable {table : HeaderTable} {s s' : Process n} {index : Fin n} {fd : ℕ}

/-- The member that a worker has for a descriptor. -/
def member (s : Process n) (index : Fin n) (fd : ℕ) : Option Member :=
  (s.workers index).channel.manger.fdToMember fd

omit [NeZero n] in
theorem deedTo_of_ne {act : Act n} (hact : ∀ index own, act ≠ .work index own) :
    s.deedTo index fd act = none := by
  cases act with
  | work other own => exact absurd rfl (hact other own)
  | accept fd => rfl
  | exhaust left => rfl
  | push => rfl
  | write => rfl
  | extract items => rfl

theorem member_step {act : Act n} (hstep : step table act s = some s')
    (hrunning : s'.halted = none) :
    s'.member index fd =
      Deed.life table fd (s.deedTo index fd act).toList (s.member index fd) := by
  cases touches_of_step hstep with
  | nothing hact hworkers =>
    rw [deedTo_of_ne hact, member, hworkers]
    rfl
  | given hact other fds counter hworkers =>
    rw [deedTo_of_ne hact, member, hworkers]
    by_cases hindex : index = other
    · rw [hindex, Function.update_self]
      rfl
    · rw [Function.update_of_ne hindex]
      rfl
  | @worked other own w hworker hworked =>
    subst hworked
    unfold deedTo member
    by_cases hindex : other = index
    · subst hindex
      have hbefalls : Worker.Befalls table fd own (s.workers other) w :=
        Worker.befalls_step hworker
      unfold Worker.Befalls at hbefalls
      simpa [worked] using hbefalls
    · simp [worked, hindex, Ne.symm hindex, Deed.life]
  | halted halt hhalted =>
    subst hhalted
    cases hrunning

theorem running_of_step {act : Act n} (hstep : step table act s = some s') : s.halted = none := by
  unfold step at hstep
  split_ifs at hstep with hhalted
  exact Option.not_isSome_iff_eq_none.mp hhalted

/-- A process that runs on has not come to an end before. -/
theorem running_of_run {schedule : List (Act n)} (hrun : run (step table) schedule s = some s')
    (hrunning : s'.halted = none) : s.halted = none := by
  cases schedule with
  | nil =>
    cases hrun
    exact hrunning
  | cons act rest =>
    obtain ⟨t, hstep, -⟩ := Option.bind_eq_some_iff.mp hrun
    exact running_of_step hstep

/-- In every run, whatever the interleaving, the member that a worker has for a descriptor is what
the deeds of this worker to this descriptor make of the one it started with. -/
theorem member_run {schedule : List (Act n)} (hrun : run (step table) schedule s = some s')
    (hrunning : s'.halted = none) :
    s'.member index fd =
      Deed.life table fd (deeds table index fd schedule s) (s.member index fd) := by
  induction schedule generalizing s with
  | nil =>
    cases hrun
    rfl
  | cons act rest ih =>
    obtain ⟨t, hstep, hrest⟩ := Option.bind_eq_some_iff.mp hrun
    have hgoing : t.halted = none := running_of_run hrest hrunning
    unfold deeds
    rw [hstep, ih hrest, member_step hstep hgoing]
    exact (List.foldl_append ..).symm

theorem member_run_overlapping : ∃ s,
    run (step .sample) overlapping (new Distributing.even ![5, 6]) = some s ∧
      s.member 0 7 = Deed.life .sample 7
        (deeds .sample 0 7 overlapping (new Distributing.even ![5, 6])) none := by
  obtain ⟨s, hrun, hrunning⟩ := runs_overlapping
  exact ⟨s, hrun, member_run hrun hrunning⟩

example : deeds .sample 0 7 overlapping (new Distributing.even ![5, 6]) =
    [.enter .zero 0, .hangUp] := rfl

end Process

end LWebServer
