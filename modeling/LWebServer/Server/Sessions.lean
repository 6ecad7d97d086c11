import LWebServer.Server.Lives
import LWebServer.Server.Renewal

/-!
# Sessions

A descriptor that is entered starts a new session, with the wire as the earlier ones have left it. A
property of sessions holds throughout the process where it holds of a session that has just started
and is kept by the calls of its member.
-/

namespace LWebServer

open Schedule

/-- A session: its member, the wire when the descriptor was entered, and the calls since, each
with the member that it has found. -/
structure Session where
  member : Member
  before : List Byte
  calls : List (Member.Call × Member)

namespace Session

/-- A session whose descriptor has just been entered. -/
def opened (m : Member) : Session := ⟨m, m.writeLoop.outlet.wire, []⟩

end Session

namespace Deed

/-- What a deed makes of a session. -/
def proceed (table : HeaderTable) (fd : ℕ) (session : Option Session) (deed : Deed) :
    Option Session :=
  match deed, session with
  | .enter memory interval, none => some (.opened (.new fd memory interval))
  | .enter _ _, some c => some (.opened (Op.finalState c.member.clear))
  | .serve call, some c => some
      { c with member := c.member.served table call, calls := c.calls ++ [(call, c.member)] }
  | .hangUp, some c => some { c with member := c.member.initiativeClose }
  | _, none => none

/-- The present session of a descriptor after some deeds. -/
def session (table : HeaderTable) (fd : ℕ) (deeds : List Deed) : Option Session :=
  deeds.foldl (proceed table fd) none

variable {table : HeaderTable} {fd : ℕ}

theorem member_proceed (session : Option Session) (deed : Deed) :
    (proceed table fd session deed).map Session.member =
      perform table fd (session.map Session.member) deed := by
  cases session with
  | none => cases deed <;> rfl
  | some c => cases deed <;> rfl

end Deed

/-- A member whose descriptor has just been entered: nothing is in line or has been received, and
the next bytes begin a head. -/
structure Member.Entered (m : Member) : Prop where
  que : m.writeLoop.que = []
  spots : m.writeLoop.userBuffer.writeSpot = 0 ∧ m.writeLoop.userBuffer.readSpot = 0
  ready : m.httpParser.Ready
  headerValue : m.httpParser.requestResult.headerValue = []
  unread : m.httpParser.userBuffer.unread = []

theorem Member.entered_new (fd : ℕ) (memory : HttpRequest) (interval : ℕ) :
    (Member.new fd memory interval).Entered :=
  ⟨rfl, ⟨rfl, rfl⟩, ⟨rfl, HttpParserFault.noConfusion, rfl, le_rfl⟩, rfl, rfl⟩

theorem Member.entered_cleared (m : Member) : m.cleared.Entered :=
  ⟨rfl, ⟨rfl, rfl⟩, ⟨rfl, HttpParserFault.noConfusion, rfl, le_rfl⟩, rfl, rfl⟩

/-- A property of a session that its deeds keep. -/
structure Lasting (table : HeaderTable) (p : Session → Prop) : Prop where
  opened : ∀ m : Member, m.Entered → p (.opened m)
  served : ∀ c call, p c →
    p { c with member := c.member.served table call, calls := c.calls ++ [(call, c.member)] }
  closed : ∀ c, p c → p { c with member := c.member.initiativeClose }

variable {table : HeaderTable} {fd : ℕ}

theorem Lasting.proceed {p : Session → Prop} (hlasting : Lasting table p) {deed : Deed}
    {c c' : Session} (hclearable : c.member.httpParser.requestResult.requestBuffer = true ∨
      ∀ memory interval, deed ≠ .enter memory interval)
    (hp : p c) (hproceed : Deed.proceed table fd (some c) deed = some c') : p c' := by
  cases deed with
  | enter memory interval =>
    cases hproceed
    have hparsed := hclearable.resolve_right fun hnot ↦ hnot memory interval rfl
    rw [Member.clear_of_requestBuffer hparsed]
    exact hlasting.opened _ (Member.entered_cleared c.member)
  | serve call =>
    cases hproceed
    exact hlasting.served c call hp
  | hangUp =>
    cases hproceed
    exact hlasting.closed c hp

/-! ## The process -/

/-- A descriptor is entered without undefined behaviour only if its last member can be cleared. -/
theorem Worker.clearable_of_step {table : HeaderTable} {w w' : Worker} {act : Worker.Act} {fd : ℕ}
    {memory : HttpRequest} {interval : ℕ} (hstep : w.step table act = some (.ok w'))
    (hdeed : w.deedTo fd act = some (.enter memory interval)) :
    Manger.Clearable fd w.channel.manger := by
  obtain ⟨⟨own, deed⟩, hown, hsame⟩ := Option.bind_eq_some_iff.mp hdeed
  dsimp only at hsame
  split_ifs at hsame with heq
  subst heq
  cases hsame
  cases act with
  | wait batch => cases hown
  | interrupt => cases hown
  | read => cases hown
  | rearm => cases hown
  | serve =>
    unfold Worker.deed at hown
    cases htemp : w.temp with
    | some turns => simp [htemp] at hown
    | none =>
      simp only [htemp] at hown
      obtain ⟨item, -, hitem⟩ := Option.bind_eq_some_iff.mp hown
      obtain ⟨deed, hdeed, heq⟩ := Option.map_eq_some_iff.mp hitem
      cases heq
      unfold Event.deed at hdeed
      split_ifs at hdeed
      · cases hdeed
      · obtain ⟨call, -, hcall⟩ := Option.map_eq_some_iff.mp hdeed
        cases hcall
  | enter memory' interval' =>
    change w.enter memory' interval' = some (.ok w') at hstep
    unfold Worker.deed at hown
    unfold Worker.enter at hstep
    cases htemp : w.temp with
    | none => simp [htemp] at hstep
    | some turns =>
      cases turns with
      | zero => simp [htemp] at hstep
      | succ turns =>
        cases hline : w.queue with
        | nil => simp [htemp, hline] at hstep
        | cons first queue =>
          simp only [htemp, hline, List.head?_cons, Option.map_some, Option.some.injEq,
            Prod.mk.injEq] at hown
          obtain ⟨rfl, -⟩ := hown
          by_contra hclearable
          obtain ⟨g, hopera⟩ :=
            Manger.operaMember_not_clearable ⟨first, memory', interval'⟩ hclearable
          simp only [htemp, hline] at hstep
          simp only [hopera] at hstep
          cases hstep

namespace Process

variable {n : ℕ} [NeZero n] {table : HeaderTable} {s s' : Process n} {index : Fin n} {fd : ℕ}

theorem deeds_snoc {past : List (Act n)} {start : Process n} {act : Act n}
    (hrun : run (step table) past start = some s) :
    deeds table index fd (past ++ [act]) start =
      deeds table index fd past start ++ (s.deedTo index fd act).toList := by
  induction past generalizing start with
  | nil =>
    cases hrun
    rw [List.nil_append]
    simp only [deeds, List.nil_append]
    split <;> exact List.append_nil _
  | cons first past ih =>
    obtain ⟨t, hstep, hrest⟩ := Option.bind_eq_some_iff.mp hrun
    rw [List.cons_append]
    unfold deeds
    rw [hstep]
    dsimp only
    rw [ih hrest, List.append_assoc]

theorem clearable_of_step {act : Act n} {memory : HttpRequest} {interval : ℕ}
    (hstep : step table act s = some s') (hrunning : s'.halted = none)
    (hdeed : s.deedTo index fd act = some (.enter memory interval)) :
    Manger.Clearable fd (s.workers index).channel.manger := by
  unfold deedTo at hdeed
  split at hdeed
  · rename_i other act
    split_ifs at hdeed with hindex
    subst hindex
    unfold step at hstep
    split_ifs at hstep
    obtain ⟨r, hworker, rfl⟩ := Option.map_eq_some_iff.mp hstep
    cases r with
    | ok w => exact Worker.clearable_of_step hworker hdeed
    | error halt => cases hrunning
  · cases hdeed

/-- The session that a worker has for a descriptor after a run. -/
def session (table : HeaderTable) (index : Fin n) (fd : ℕ) (schedule : List (Act n))
    (start : Process n) : Option Session :=
  Deed.session table fd (deeds table index fd schedule start)

/-- The member that a worker has for a descriptor is that of the present session, and what its deeds
keep holds of this session. -/
theorem lasting_run {p : Session → Prop} (hlasting : Lasting table p) {balance : LoadBalance n}
    {eventfds : Fin n → ℕ} {schedule : List (Act n)}
    (hrun : run (step table) schedule (new balance eventfds) = some s) (hrunning : s.halted = none)
    (index : Fin n) (fd : ℕ) :
    (session table index fd schedule (new balance eventfds)).map Session.member =
        s.member index fd ∧
      ∀ c, session table index fd schedule (new balance eventfds) = some c → p c := by
  induction schedule using List.reverseRecOn generalizing s with
  | nil =>
    cases hrun
    exact ⟨rfl, fun c hnone ↦ absurd hnone.symm (Option.some_ne_none c)⟩
  | append_singleton past act ih =>
    obtain ⟨t, hpast, hstep⟩ := run_snoc.mp hrun
    obtain ⟨hmember, hold⟩ := ih hpast (running_of_step hstep)
    have hmember' : s.member index fd =
        Deed.life table fd (t.deedTo index fd act).toList (t.member index fd) :=
      member_step hstep hrunning
    have hsnoc : session table index fd (past ++ [act]) (new balance eventfds) =
        (t.deedTo index fd act).toList.foldl (Deed.proceed table fd)
          (session table index fd past (new balance eventfds)) := by
      unfold session Deed.session
      rw [deeds_snoc hpast, List.foldl_append]
    rw [hsnoc, hmember', ← hmember]
    generalize session table index fd past (new balance eventfds) = present at hmember hold ⊢
    cases hdeed : t.deedTo index fd act with
    | none => exact ⟨rfl, hold⟩
    | some deed =>
      refine ⟨Deed.member_proceed present deed, fun c hproceed ↦ ?_⟩
      cases present with
      | none =>
        cases deed with
        | enter memory interval =>
          cases hproceed
          exact hlasting.opened _ (Member.entered_new fd memory interval)
        | serve call => cases hproceed
        | hangUp => cases hproceed
      | some present =>
        refine @Lasting.proceed _ _ _ hlasting deed _ _ ?_ (hold present rfl) hproceed
        by_cases henter : ∃ memory interval, deed = .enter memory interval
        · obtain ⟨memory, interval, rfl⟩ := henter
          exact .inl (clearable_of_step hstep hrunning hdeed present.member hmember.symm)
        · exact .inr fun memory interval heq ↦ henter ⟨memory, interval, heq⟩

end Process

end LWebServer
