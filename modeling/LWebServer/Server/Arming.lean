import LWebServer.Server.Channel
import LWebServer.Server.Pending

/-!
# Arming

Every registration is for one event, so a connection whose event has been reported is served
again only after its handler has closed it or registered it anew. The handlers of a batch run one
after another and the first exception ends the batch.
-/

namespace LWebServer

open EpollEventType

namespace Member

theorem clear_of_parsed {m : Member} (hparsed : m.httpParser.requestResult.requestBuffer = true) :
    ∃ m', clear m = .ok () m' := by
  simp [clear, HttpParser.clear, hparsed]

theorem clear_of_not_parsed {m : Member}
    (hparsed : ¬ m.httpParser.requestResult.requestBuffer = true) :
    ∃ m', clear m = .error .undefinedBehaviour m' := by
  simp [clear, hparsed]

end Member

namespace Manger

/-- The connection will be served again, or is over. -/
def Attended (g : Manger) (fd : ℕ) : Prop :=
  g.closed fd = true ∨ ∃ events, g.epoll fd = .armed events

/-- The connection is open, and no event of it will be reported. -/
structure Stuck (g : Manger) (fd : ℕ) : Prop where
  epoll : g.epoll fd = .disarmed
  closed : g.closed fd = false

theorem Stuck.not_attended {g : Manger} {fd : ℕ} (hstuck : g.Stuck fd) : ¬ g.Attended fd := by
  rintro (hclosed | ⟨events, harmed⟩)
  · exact absurd (hstuck.closed.symm.trans hclosed) (by decide)
  · exact absurd (hstuck.epoll.symm.trans harmed) (by simp)

/-- What is registered, apart from the `eventfd`, is an open connection that has a member. -/
def Sound (eventfd : ℕ) (g : Manger) : Prop :=
  ∀ fd, fd ≠ eventfd → g.epoll fd ≠ .absent →
    (∃ member, g.fdToMember fd = some member) ∧ g.closed fd = false

/-- Nothing has happened to the other descriptors. -/
structure Frame (fd : ℕ) (g g' : Manger) : Prop where
  fdToMember : ∀ other ≠ fd, g'.fdToMember other = g.fdToMember other
  epoll : ∀ other ≠ fd, g'.epoll other = g.epoll other
  closed : ∀ other ≠ fd, g'.closed other = g.closed other

theorem Frame.trans {fd : ℕ} {g g' g'' : Manger} (h : Frame fd g g') (h' : Frame fd g' g'') :
    Frame fd g g'' where
  fdToMember other hne := (h'.fdToMember other hne).trans (h.fdToMember other hne)
  epoll other hne := (h'.epoll other hne).trans (h.epoll other hne)
  closed other hne := (h'.closed other hne).trans (h.closed other hne)

theorem Frame.attended {fd other : ℕ} {g g' : Manger} (h : Frame fd g g') (hne : other ≠ fd) :
    g'.Attended other ↔ g.Attended other := by
  unfold Attended
  rw [h.closed other hne, h.epoll other hne]

theorem Frame.stuck {fd other : ℕ} {g g' : Manger} (h : Frame fd g g') (hne : other ≠ fd)
    (hstuck : g.Stuck other) : g'.Stuck other where
  epoll := (h.epoll other hne).trans hstuck.epoll
  closed := (h.closed other hne).trans hstuck.closed

theorem Frame.sound {eventfd fd : ℕ} {g g' : Manger} (h : Frame fd g g') (hsound : g.Sound eventfd)
    (hfd : fd ≠ eventfd → g'.epoll fd ≠ .absent →
      (∃ member, g'.fdToMember fd = some member) ∧ g'.closed fd = false) : g'.Sound eventfd := by
  intro other hevent hregistered
  by_cases hne : other = fd
  · subst hne
    exact hfd hevent hregistered
  · rw [h.epoll other hne] at hregistered
    rw [h.fdToMember other hne, h.closed other hne]
    exact hsound other hevent hregistered

section

variable (fd : ℕ) (g : Manger)

theorem frame_setMember (member : Member) : Frame fd g (g.setMember fd member) :=
  ⟨fun _ hne ↦ Function.update_of_ne hne _ _, fun _ _ ↦ rfl, fun _ _ ↦ rfl⟩

theorem frame_setWatch (watch : Watch) : Frame fd g (g.setWatch fd watch) :=
  ⟨fun _ _ ↦ rfl, fun _ hne ↦ Function.update_of_ne hne _ _, fun _ _ ↦ rfl⟩

theorem frame_setClosed (closed : Bool) :
    Frame fd g { g with closed := Function.update g.closed fd closed } :=
  ⟨fun _ _ ↦ rfl, fun _ _ ↦ rfl, fun _ hne ↦ Function.update_of_ne hne _ _⟩

theorem frame_shut (member : Member) : Frame fd g (g.shut fd member) :=
  ((frame_setWatch fd g .absent).trans (frame_setMember fd _ _)).trans (frame_setClosed fd _ true)

theorem closed_shut (member : Member) : (g.shut fd member).closed fd = true := by simp [shut]

theorem epoll_shut (member : Member) : (g.shut fd member).epoll fd = .absent := by
  simp [shut, setMember, setWatch]

end

/-! ## A handler -/

/-- What `JudgeToClose` leaves. -/
def judged (fd : ℕ) (member : Member) (g : Manger) : Manger :=
  match member.judge with
  | .updateWrite => g.setWatch fd ((g.epoll fd).modify epollCanWite)
  | .close => g.shut fd member
  | .update => g.setWatch fd ((g.epoll fd).modify epollCanRead)

theorem judgeToClose_eq {fd : ℕ} {member : Member} {g : Manger}
    (hmember : g.fdToMember fd = some member) :
    judgeToClose fd g = .ok () (g.judged fd member) := by
  unfold judgeToClose withMember judged
  simp only [hmember]
  cases member.judge <;> simp [updateWrite, update, remove, withMember, hmember]

theorem frame_judged (fd : ℕ) (member : Member) (g : Manger) : Frame fd g (g.judged fd member) := by
  unfold judged
  cases member.judge with
  | updateWrite => exact frame_setWatch fd g _
  | close => exact frame_shut fd g member
  | update => exact frame_setWatch fd g _

/-- A registered connection is closed or armed by `JudgeToClose`. -/
theorem attended_judged {fd : ℕ} (member : Member) {g : Manger}
    (hregistered : g.epoll fd ≠ .absent) : (g.judged fd member).Attended fd := by
  have harmed (events : EpollEventType) :
      (g.setWatch fd ((g.epoll fd).modify events)).Attended fd := by
    refine .inr ⟨events, (Function.update_self fd _ g.epoll).trans ?_⟩
    cases hwatch : g.epoll fd with
    | absent => exact absurd hwatch hregistered
    | disarmed => rfl
    | armed events => rfl
  unfold judged
  cases member.judge with
  | updateWrite => exact harmed _
  | close => exact .inl (closed_shut fd g member)
  | update => exact harmed _

theorem sound_judged {eventfd fd : ℕ} {member : Member} {g : Manger} (hsound : g.Sound eventfd)
    (hmember : g.fdToMember fd = some member) (hclosed : g.closed fd = false) :
    (g.judged fd member).Sound eventfd := by
  apply (frame_judged fd member g).sound hsound
  unfold judged
  cases member.judge with
  | updateWrite => exact fun _ _ ↦ ⟨⟨member, hmember⟩, hclosed⟩
  | close => exact fun _ hregistered ↦ absurd (epoll_shut fd g member) hregistered
  | update => exact fun _ _ ↦ ⟨⟨member, hmember⟩, hclosed⟩

end Manger

/-- The call of the member that an event asks for, unless it reports a shutdown. -/
def Event.call (item : Event) : Option Member.Call :=
  if item.check eetCouldRead then some (.doRead item.arrival)
  else if item.check eetCouldWrite then some (.doWrite item.arrival.accepts)
  else none

/-- The event is one that the loop knows, and the call that it asks for returns. -/
def Event.Answerable (table : HeaderTable) (item : Event) (member : Member) : Prop :=
  item.check eetRDHup = true ∨
    ∃ call, item.call = some call ∧ ∃ member', call.run table member = .ok () member'

namespace Manger

/-- What a worker does for the event of a connection. -/
def serve (table : HeaderTable) (item : Event) : Op Manger Unit :=
  if item.check eetRDHup then remove item.fd
  else match item.call with
    | some call => do
      onMember item.fd (call.run table)
      judgeToClose item.fd
    | none => pure ()

/-- What the handler of a connection does to it. -/
structure Handled (table : HeaderTable) (eventfd : ℕ) (item : Event) (member : Member) (g : Manger)
    (r : EStateM.Result Fail Manger Unit) : Prop where
  frame : Frame item.fd g (Op.finalState r)
  sound : (Op.finalState r).Sound eventfd
  attended : item.Answerable table member → ∃ g', r = .ok () g' ∧ g'.Attended item.fd
  stuck : ¬ item.Answerable table member → (Op.finalState r).Stuck item.fd

theorem handled_serve (table : HeaderTable) {eventfd : ℕ} {item : Event} {member : Member}
    {g : Manger} (hsound : g.Sound eventfd) (hmember : g.fdToMember item.fd = some member)
    (hstuck : g.Stuck item.fd) : Handled table eventfd item member g (serve table item g) := by
  have hclosed := hstuck.closed
  have hregistered : g.epoll item.fd ≠ .absent := by simp [hstuck.epoll]
  unfold serve
  by_cases hshut : item.check eetRDHup = true
  · have hrun : remove item.fd g = .ok () (g.shut item.fd member) := by
      simp [remove, withMember, hmember]
    rw [if_pos hshut, hrun]
    refine ⟨frame_shut _ _ _, ?_, fun _ ↦ ⟨_, rfl, .inl (closed_shut _ _ _)⟩,
      fun hnot ↦ absurd (.inl hshut) hnot⟩
    apply (frame_shut item.fd g member).sound hsound
    exact fun _ hthere ↦ absurd (epoll_shut _ _ _) hthere
  · rw [if_neg hshut]
    cases hcall : item.call with
    | none =>
      refine ⟨⟨fun _ _ ↦ rfl, fun _ _ ↦ rfl, fun _ _ ↦ rfl⟩, hsound, ?_, fun _ ↦ hstuck⟩
      rintro (hshut' | ⟨call, hsome, -⟩)
      · exact absurd hshut' hshut
      · exact absurd (hcall.symm.trans hsome) (by simp)
    | some call =>
      dsimp only
      -- the member's entry is replaced in either case
      have hset (member' : Member) : Frame item.fd g (g.setMember item.fd member') ∧
          (g.setMember item.fd member').Sound eventfd ∧
          (g.setMember item.fd member').fdToMember item.fd = some member' := by
        have hself : (g.setMember item.fd member').fdToMember item.fd = some member' :=
          Function.update_self item.fd _ g.fdToMember
        refine ⟨frame_setMember _ _ _, ?_, hself⟩
        exact (frame_setMember _ _ _).sound hsound fun _ _ ↦ ⟨⟨_, hself⟩, hclosed⟩
      cases hrun : call.run table member with
      | ok u member' =>
        obtain ⟨hframe, hsound', hself⟩ := hset member'
        have hcalled : onMember item.fd (call.run table) g =
            .ok () (g.setMember item.fd member') := by
          simp [onMember, withMember, hmember, hrun]
        rw [Op.bind_of_ok hcalled, judgeToClose_eq hself]
        refine ⟨hframe.trans (frame_judged _ _ _), sound_judged hsound' hself hclosed,
          fun _ ↦ ⟨_, rfl, attended_judged member' hregistered⟩, fun hnot ↦ ?_⟩
        exact absurd (.inr ⟨call, hcall, member', hrun⟩) hnot
      | error e member' =>
        obtain ⟨hframe, hsound', -⟩ := hset member'
        have hcalled : onMember item.fd (call.run table) g =
            .error e (g.setMember item.fd member') := by
          simp [onMember, withMember, hmember, hrun]
        rw [Op.bind_of_error hcalled]
        refine ⟨hframe, hsound', ?_, fun _ ↦ ⟨hstuck.epoll, hclosed⟩⟩
        rintro (hshut' | ⟨call', hsome, m, hok⟩)
        · exact absurd hshut' hshut
        · rw [hcall] at hsome
          cases hsome
          rw [hrun] at hok
          cases hok

/-! ## New connections -/

/-- What a worker knows of a descriptor that it has been given. -/
structure Entered (fd : ℕ) (g g' : Manger) : Prop where
  frame : Frame fd g g'
  member : ∃ member, g'.fdToMember fd = some member
  closed : g'.closed fd = false
  epoll : g'.epoll fd = (g.epoll fd).add epollCanRead

/-- The member that a descriptor had before, if any, has parsed something. -/
def Clearable (fd : ℕ) (g : Manger) : Prop :=
  ∀ member, g.fdToMember fd = some member →
    member.httpParser.requestResult.requestBuffer = true

theorem entered_operaMember (one : Accepted) {g : Manger} (hclearable : Clearable one.fd g) :
    ∃ g', operaMember one.fd one.memory one.interval g = .ok () g' ∧ Entered one.fd g g' := by
  have hentered (member : Member) :
      Entered one.fd g ((({ g with closed := Function.update g.closed one.fd false }).setMember
        one.fd member).setWatch one.fd ((g.epoll one.fd).add epollCanRead)) := by
    refine ⟨((frame_setClosed _ _ _).trans (frame_setMember _ _ member)).trans
      (frame_setWatch _ _ _), ⟨member, ?_⟩, ?_, ?_⟩ <;> simp [setMember, setWatch]
  unfold operaMember
  cases hmember : g.fdToMember one.fd with
  | none =>
    refine ⟨_, ?_, hentered (.new one.fd one.memory one.interval)⟩
    simp [hmember, setMember, setWatch]
  | some member =>
    obtain ⟨member', hclear⟩ := Member.clear_of_parsed (hclearable member hmember)
    refine ⟨_, ?_, hentered member'⟩
    simp [onMember, withMember, hmember, hclear, setMember, setWatch]

theorem operaMember_not_clearable (one : Accepted) {g : Manger}
    (hclearable : ¬ Clearable one.fd g) :
    ∃ g', operaMember one.fd one.memory one.interval g = .error .undefinedBehaviour g' := by
  obtain ⟨member, hmember, hparsed⟩ : ∃ member, g.fdToMember one.fd = some member ∧
      ¬ member.httpParser.requestResult.requestBuffer = true := by
    by_contra hnone
    exact hclearable fun member hmember ↦ by_contra fun hparsed ↦ hnone ⟨member, hmember, hparsed⟩
  obtain ⟨member', hclear⟩ := Member.clear_of_not_parsed hparsed
  unfold operaMember
  simp [onMember, withMember, hmember, hclear]

/-- What is registered and what is closed stay taken care of, and what is stuck stays stuck. -/
structure Kept (eventfd : ℕ) (g g' : Manger) : Prop where
  sound : g'.Sound eventfd
  attended : ∀ fd ≠ eventfd, g.Attended fd → g'.Attended fd
  stuck : ∀ fd, g.Stuck fd → g'.Stuck fd

theorem Kept.trans {eventfd : ℕ} {g g' g'' : Manger} (h : Kept eventfd g g')
    (h' : Kept eventfd g' g'') : Kept eventfd g g'' where
  sound := h'.sound
  attended fd hne hattended := h'.attended fd hne (h.attended fd hne hattended)
  stuck fd hstuck := h'.stuck fd (h.stuck fd hstuck)

theorem kept_of_entered {eventfd fd : ℕ} {g g' : Manger} (hsound : g.Sound eventfd)
    (h : Entered fd g g') : Kept eventfd g g' where
  sound := h.frame.sound hsound fun _ _ ↦ ⟨h.member, h.closed⟩
  attended other hevent hattended := by
    by_cases hne : other = fd
    · subst hne
      refine .inr ?_
      rw [h.epoll]
      rcases hattended with hclosed | ⟨events, harmed⟩
      · have habsent : g.epoll other = .absent := by
          by_contra hregistered
          have hopen := (hsound other hevent hregistered).2
          rw [hclosed] at hopen
          cases hopen
        rw [habsent]
        exact ⟨_, rfl⟩
      · rw [harmed]
        exact ⟨_, rfl⟩
    · exact (h.frame.attended hne).mpr hattended
  stuck other hstuck := by
    by_cases hne : other = fd
    · subst hne
      refine ⟨?_, h.closed⟩
      rw [h.epoll, hstuck.epoll]
      rfl
    · exact h.frame.stuck hne hstuck

end Manger

namespace Channel

open Manger

/-- The descriptors in the queue can be entered one after another. -/
def Enterable : List Accepted → Manger → Prop
  | [], _ => True
  | one :: rest, g => Clearable one.fd g ∧
      Enterable rest (Op.finalState (operaMember one.fd one.memory one.interval g))

theorem kept_enter {eventfd : ℕ} {accepted : List Accepted} {g : Manger}
    (hsound : g.Sound eventfd) (henterable : Enterable accepted g) :
    ∃ g', enter accepted g = .ok () g' ∧ Kept eventfd g g' := by
  induction accepted generalizing g with
  | nil => exact ⟨g, rfl, hsound, fun _ _ h ↦ h, fun _ h ↦ h⟩
  | cons one rest ih =>
    obtain ⟨hclearable, hrest⟩ := henterable
    obtain ⟨g₁, hopera, hentered⟩ := entered_operaMember one hclearable
    have hkept := kept_of_entered hsound hentered
    rw [hopera] at hrest
    obtain ⟨g', henter, hkept'⟩ := ih hkept.sound hrest
    exact ⟨g', (Op.bind_of_ok hopera).trans henter, hkept.trans hkept'⟩

theorem enter_not_enterable {accepted : List Accepted} {g : Manger}
    (henterable : ¬ Enterable accepted g) :
    ∃ g', enter accepted g = .error .undefinedBehaviour g' := by
  induction accepted generalizing g with
  | nil => exact absurd trivial henterable
  | cons one rest ih =>
    by_cases hclearable : Clearable one.fd g
    · obtain ⟨g₁, hopera, -⟩ := entered_operaMember one hclearable
      have hrest : ¬ Enterable rest g₁ := by
        intro hrest
        apply henterable
        refine ⟨hclearable, ?_⟩
        rw [hopera]
        exact hrest
      obtain ⟨g', henter⟩ := ih hrest
      exact ⟨g', (Op.bind_of_ok hopera).trans henter⟩
    · obtain ⟨g', hopera⟩ := operaMember_not_clearable one hclearable
      exact ⟨g', Op.bind_of_error hopera⟩

/-! ## A batch -/

theorem handle_eventfd (table : HeaderTable) {item : Event} {c : Channel}
    (heventfd : item.fd = c.eventfd) : handle table item c = onManger (do
      enter item.accepted
      modify fun g ↦ g.setWatch c.eventfd ((g.epoll c.eventfd).modify epollCanRead)) c := by
  unfold handle
  rw [if_pos heventfd]

theorem handle_connection (table : HeaderTable) {item : Event} {c : Channel}
    (heventfd : item.fd ≠ c.eventfd) : handle table item c = onManger (serve table item) c := by
  unfold handle serve Event.call
  rw [if_neg heventfd]
  split_ifs <;> rfl

theorem eventfd_onManger (f : Op Manger Unit) (c : Channel) :
    (Op.finalState (onManger f c)).eventfd = c.eventfd := by
  unfold onManger
  split <;> rfl

theorem eventfd_handle (table : HeaderTable) (item : Event) (c : Channel) :
    (Op.finalState (handle table item c)).eventfd = c.eventfd := eventfd_onManger _ c

theorem manger_onManger (f : Op Manger Unit) (c : Channel) :
    (Op.finalState (onManger f c)).manger = Op.finalState (f c.manger) := by
  unfold onManger
  cases f c.manger <;> rfl

/-- Every event of the batch can be dealt with in the state that its handler meets: that of a
connection has `EPOLLRDHUP`, or `EPOLLIN` or `EPOLLOUT` and the call of the member returns; for
that of the `eventfd` no member is cleared that has never parsed anything. -/
def Manageable (table : HeaderTable) : List Event → Channel → Prop
  | [], _ => True
  | item :: batch, c =>
    (if item.fd = c.eventfd then Enterable item.accepted c.manger
      else ∃ member, c.manger.fdToMember item.fd = some member ∧ item.Answerable table member) ∧
    Manageable table batch (Op.finalState (handle table item c))

/-- The batch waits to be handled: its connections are open and have been disarmed. -/
structure Waiting (batch : List Event) (c : Channel) : Prop where
  sound : c.manger.Sound c.eventfd
  distinct : (batch.map Event.fd).Nodup
  stuck : ∀ item ∈ batch, item.fd ≠ c.eventfd → c.manger.Stuck item.fd

/-- The batch has been handled without undefined behaviour, and none of its connections is
stuck. -/
structure Through (table : HeaderTable) (batch : List Event) (c : Channel) : Prop where
  defined : ∀ c', handleAll table batch c ≠ .error .undefinedBehaviour c'
  attended : ∀ item ∈ batch, item.fd ≠ c.eventfd →
    (Op.finalState (handleAll table batch c)).manger.Attended item.fd

/-- A handler has run, and only its own connection may have got stuck or unstuck. -/
structure Passed (item : Event) (c c' : Channel) : Prop where
  eventfd : c'.eventfd = c.eventfd
  sound : c'.manger.Sound c'.eventfd
  attended : ∀ fd ≠ c.eventfd, fd ≠ item.fd → c.manger.Attended fd → c'.manger.Attended fd
  stuck : ∀ fd ≠ c.eventfd, fd ≠ item.fd → c.manger.Stuck fd → c'.manger.Stuck fd

section

variable {table : HeaderTable} {item : Event} {batch : List Event} {c c' : Channel}

theorem Waiting.next (hwaiting : Waiting (item :: batch) c) (hpassed : Passed item c c') :
    Waiting batch c' := by
  have hdistinct := List.nodup_cons.mp hwaiting.distinct
  refine ⟨hpassed.sound, hdistinct.2, fun other hother hne ↦ ?_⟩
  rw [hpassed.eventfd] at hne
  apply hpassed.stuck _ hne
  · intro hsame
    exact hdistinct.1 (hsame ▸ List.mem_map_of_mem hother)
  · exact hwaiting.stuck other (List.mem_cons_of_mem _ hother) hne

theorem Waiting.member (hwaiting : Waiting (item :: batch) c) (hevent : item.fd ≠ c.eventfd) :
    ∃ member, c.manger.fdToMember item.fd = some member := by
  have hstuck := hwaiting.stuck item List.mem_cons_self hevent
  exact (hwaiting.sound item.fd hevent (by simp [hstuck.epoll])).1

/-- The event of the `eventfd`. -/
theorem eventfd_cases (hwaiting : Waiting (item :: batch) c) (hevent : item.fd = c.eventfd) :
    (Enterable item.accepted c.manger ∧ ∃ c', handle table item c = .ok () c' ∧ Passed item c c') ∨
      (¬ Enterable item.accepted c.manger ∧
        ∃ c', handle table item c = .error .undefinedBehaviour c') := by
  rw [handle_eventfd table hevent]
  by_cases henterable : Enterable item.accepted c.manger
  · left
    obtain ⟨g, henter, hkept⟩ := kept_enter hwaiting.sound henterable
    have hframe := frame_setWatch c.eventfd g ((g.epoll c.eventfd).modify epollCanRead)
    refine ⟨henterable, ⟨g.setWatch c.eventfd ((g.epoll c.eventfd).modify epollCanRead), c.eventfd⟩,
      ?_, rfl, ?_, ?_, ?_⟩
    · unfold onManger
      rw [Op.bind_of_ok henter]
      rfl
    · exact hframe.sound hkept.sound fun hne ↦ absurd rfl hne
    · intro fd hne _ hattended
      exact (hframe.attended hne).mpr (hkept.attended fd hne hattended)
    · intro fd hne _ hstuck
      exact hframe.stuck hne (hkept.stuck fd hstuck)
  · right
    obtain ⟨g, henter⟩ := enter_not_enterable henterable
    refine ⟨henterable, { c with manger := g }, ?_⟩
    unfold onManger
    rw [Op.bind_of_error henter]

/-- The event of a connection. -/
theorem connection_cases (table : HeaderTable) (hwaiting : Waiting (item :: batch) c)
    (hevent : item.fd ≠ c.eventfd) {member : Member}
    (hmember : c.manger.fdToMember item.fd = some member) :
    Passed item c (Op.finalState (handle table item c)) ∧
      (item.Answerable table member →
        ∃ c', handle table item c = .ok () c' ∧ c'.manger.Attended item.fd) ∧
      (¬ item.Answerable table member →
        (Op.finalState (handle table item c)).manger.Stuck item.fd) := by
  have hhandled := handled_serve table hwaiting.sound hmember
    (hwaiting.stuck item List.mem_cons_self hevent)
  rw [handle_connection table hevent]
  refine ⟨⟨eventfd_onManger _ c, ?_, ?_, ?_⟩, ?_, ?_⟩
  · rw [manger_onManger, eventfd_onManger]
    exact hhandled.sound
  · intro fd _ hne hattended
    rw [manger_onManger]
    exact (hhandled.frame.attended hne).mpr hattended
  · intro fd _ hne hstuck
    rw [manger_onManger]
    exact hhandled.frame.stuck hne hstuck
  · intro hanswerable
    obtain ⟨g, hserve, hattended⟩ := hhandled.attended hanswerable
    refine ⟨{ c with manger := g }, ?_, hattended⟩
    unfold onManger
    rw [hserve]
  · intro hanswerable
    rw [manger_onManger]
    exact hhandled.stuck hanswerable

/-- A handler without undefined behaviour. -/
theorem passed_handle (hwaiting : Waiting (item :: batch) c)
    (hdefined : ∀ c', handle table item c ≠ .error .undefinedBehaviour c') :
    Passed item c (Op.finalState (handle table item c)) := by
  by_cases hevent : item.fd = c.eventfd
  · rcases eventfd_cases hwaiting hevent with ⟨-, c', hok, hpassed⟩ | ⟨-, c', hub⟩
    · rw [hok]
      exact hpassed
    · exact absurd hub (hdefined c')
  · obtain ⟨member, hmember⟩ := hwaiting.member hevent
    exact (connection_cases table hwaiting hevent hmember).1

theorem handleAll_of_ok (hok : handle table item c = .ok () c') :
    handleAll table (item :: batch) c = handleAll table batch c' := Op.bind_of_ok hok

theorem handleAll_of_error {e : Fail} (herror : handle table item c = .error e c') :
    handleAll table (item :: batch) c = .error e c' := Op.bind_of_error herror

/-- Other connections are as they were at the end of a batch. -/
theorem keeps_handleAll (hwaiting : Waiting batch c)
    (hdefined : ∀ c', handleAll table batch c ≠ .error .undefinedBehaviour c') {fd : ℕ}
    (hevent : fd ≠ c.eventfd) (hother : fd ∉ batch.map Event.fd) :
    (c.manger.Attended fd → (Op.finalState (handleAll table batch c)).manger.Attended fd) ∧
      (c.manger.Stuck fd → (Op.finalState (handleAll table batch c)).manger.Stuck fd) := by
  induction batch generalizing c with
  | nil => exact ⟨id, id⟩
  | cons item batch ih =>
    obtain ⟨hne, hlater⟩ := (List.mem_cons.not.trans not_or).mp hother
    cases hhandle : handle table item c with
    | ok u c₁ =>
      have hpassed : Passed item c c₁ := by
        have h : Passed item c (Op.finalState (handle table item c)) :=
          passed_handle hwaiting (by simp [hhandle])
        rwa [hhandle] at h
      rw [handleAll_of_ok hhandle] at hdefined ⊢
      have hevent' : fd ≠ c₁.eventfd := by rwa [hpassed.eventfd]
      obtain ⟨hattended, hstuck⟩ := ih (hwaiting.next hpassed) hdefined hevent' hlater
      exact ⟨fun h ↦ hattended (hpassed.attended fd hevent hne h),
        fun h ↦ hstuck (hpassed.stuck fd hevent hne h)⟩
    | error e c₁ =>
      rw [handleAll_of_error hhandle] at hdefined ⊢
      have hpassed : Passed item c (Op.finalState (handle table item c)) := by
        refine passed_handle hwaiting fun c' hub ↦ ?_
        rw [hhandle] at hub
        cases hub
        exact hdefined c₁ rfl
      rw [hhandle] at hpassed
      exact ⟨hpassed.attended fd hevent hne, hpassed.stuck fd hevent hne⟩

/-- A batch whose first handler returns. -/
theorem through_cons (hwaiting : Waiting (item :: batch) c)
    (hok : handle table item c = .ok () c') (hpassed : Passed item c c')
    (hfirst : item.fd ≠ c.eventfd → c'.manger.Attended item.fd) :
    Through table (item :: batch) c ↔ Through table batch c' := by
  have hlater : item.fd ∉ batch.map Event.fd := (List.nodup_cons.mp hwaiting.distinct).1
  constructor
  · intro hthrough
    obtain ⟨hdefined, hattended⟩ := hthrough
    rw [handleAll_of_ok hok] at hdefined hattended
    refine ⟨hdefined, fun other hother hne ↦ ?_⟩
    rw [hpassed.eventfd] at hne
    exact hattended other (List.mem_cons_of_mem _ hother) hne
  · rintro ⟨hdefined, hattended⟩
    refine ⟨by rwa [handleAll_of_ok hok], fun other hother hne ↦ ?_⟩
    rw [handleAll_of_ok hok]
    rcases List.mem_cons.mp hother with rfl | hother
    · have hne' : other.fd ≠ c'.eventfd := by rwa [hpassed.eventfd]
      exact (keeps_handleAll (hwaiting.next hpassed) hdefined hne' hlater).1 (hfirst hne)
    · apply hattended other hother
      rwa [hpassed.eventfd]

theorem through_iff (hwaiting : Waiting batch c) :
    Through table batch c ↔ Manageable table batch c := by
  induction batch generalizing c with
  | nil =>
    have hthrough : Through table [] c := {
      defined := fun c' hub ↦ by cases hub
      attended := fun item hitem ↦ by cases hitem }
    exact iff_of_true hthrough trivial
  | cons item batch ih =>
    unfold Manageable
    by_cases hevent : item.fd = c.eventfd
    · rw [if_pos hevent]
      rcases eventfd_cases hwaiting hevent with ⟨henterable, c', hok, hpassed⟩ |
        ⟨henterable, c', hub⟩
      · rw [through_cons hwaiting hok hpassed (absurd hevent), hok, ih (hwaiting.next hpassed)]
        exact (and_iff_right henterable).symm
      · refine iff_of_false (fun hthrough ↦ ?_) fun h ↦ henterable h.1
        exact hthrough.defined c' (handleAll_of_error hub)
    · rw [if_neg hevent]
      obtain ⟨member, hmember⟩ := hwaiting.member hevent
      obtain ⟨hpassed, hgood, hbad⟩ := connection_cases table hwaiting hevent hmember
      by_cases hanswerable : item.Answerable table member
      · obtain ⟨c', hok, hattended⟩ := hgood hanswerable
        have hpassed' : Passed item c c' := by rwa [hok] at hpassed
        rw [hok]
        rw [through_cons hwaiting hok hpassed' fun _ ↦ hattended, ih (hwaiting.next hpassed')]
        exact (and_iff_right ⟨member, hmember, hanswerable⟩).symm
      · refine iff_of_false (fun hthrough ↦ ?_) ?_
        · -- the connection of a handler that throws, or of an unknown event, stays as it is
          have hstuck := hbad hanswerable
          have hattended := hthrough.attended item List.mem_cons_self hevent
          cases hhandle : handle table item c with
          | ok u c₁ =>
            have hdefined := hthrough.defined
            rw [hhandle] at hstuck
            have hpassed' : Passed item c c₁ := by rwa [hhandle] at hpassed
            rw [handleAll_of_ok hhandle] at hdefined hattended
            have hevent' : item.fd ≠ c₁.eventfd := by rwa [hpassed'.eventfd]
            have hlater := (List.nodup_cons.mp hwaiting.distinct).1
            exact ((keeps_handleAll (hwaiting.next hpassed') hdefined hevent' hlater).2
              hstuck).not_attended hattended
          | error e c₁ =>
            rw [hhandle] at hstuck
            rw [handleAll_of_error hhandle] at hattended
            exact hstuck.not_attended hattended
        · rintro ⟨⟨member', hmember', hanswerable'⟩, -⟩
          rw [hmember] at hmember'
          cases hmember'
          exact hanswerable hanswerable'

end

/-! ## Runs of a worker -/

/-- What the kernel can report: each descriptor once, and only one that is armed. -/
structure Reported (batch : List Event) (c : Channel) : Prop where
  distinct : (batch.map Event.fd).Nodup
  armed : ∀ item ∈ batch, ∃ events, c.manger.epoll item.fd = .armed events

/-- The batch has been dealt with: there has been no undefined behaviour, and each connection that
had an event is closed or armed. -/
structure DealtWith (table : HeaderTable) (batch : List Event) (c : Channel) : Prop where
  defined : ∀ c', handleAll table batch (c.epollWait batch) ≠ .error .undefinedBehaviour c'
  attended : ∀ item ∈ batch, item.fd ≠ c.eventfd →
    (c.looping table batch).manger.Attended item.fd

/-- The states of a worker between two batches. -/
inductive Reachable (table : HeaderTable) : Channel → Prop
  | new (eventfd : ℕ) : Reachable table (new eventfd)
  | looping {c : Channel} {batch : List Event} (hreachable : Reachable table c)
      (hreported : Reported batch c)
      (hdefined : ∀ c', handleAll table batch (c.epollWait batch) ≠ .error .undefinedBehaviour c') :
      Reachable table (c.looping table batch)

theorem epollWait_eq (batch : List Event) (g : Manger) :
    let g' := batch.foldl (fun g item ↦ g.setWatch item.fd .disarmed) g
    g'.fdToMember = g.fdToMember ∧ g'.closed = g.closed ∧
      ∀ fd, g'.epoll fd = if fd ∈ batch.map Event.fd then .disarmed else g.epoll fd := by
  induction batch generalizing g with
  | nil => exact ⟨rfl, rfl, fun fd ↦ by simp⟩
  | cons item batch ih =>
    obtain ⟨hmember, hclosed, hepoll⟩ := ih (g.setWatch item.fd .disarmed)
    refine ⟨hmember, hclosed, fun fd ↦ (hepoll fd).trans ?_⟩
    by_cases hlater : fd ∈ batch.map Event.fd
    · simp [hlater]
    · by_cases hsame : fd = item.fd
      · simp [hsame, setWatch]
      · simp [hlater, hsame, setWatch]

theorem waiting_epollWait {batch : List Event} {c : Channel} (hsound : c.manger.Sound c.eventfd)
    (hreported : Reported batch c) : Waiting batch (c.epollWait batch) := by
  obtain ⟨hmember, hclosed, hepoll⟩ := epollWait_eq batch c.manger
  have hregistered (item : Event) (hitem : item ∈ batch) : c.manger.epoll item.fd ≠ .absent := by
    obtain ⟨events, harmed⟩ := hreported.armed item hitem
    simp [harmed]
  refine ⟨fun fd hevent hthere ↦ ?_, hreported.distinct, fun item hitem hevent ↦ ⟨?_, ?_⟩⟩
  · have hsame := hsound fd hevent
    unfold epollWait at hthere ⊢
    rw [hmember, hclosed]
    apply hsame
    by_cases hmem : fd ∈ batch.map Event.fd
    · obtain ⟨item, hitem, rfl⟩ := List.mem_map.mp hmem
      exact hregistered item hitem
    · dsimp only at hthere
      rwa [hepoll, if_neg hmem] at hthere
  · exact (hepoll item.fd).trans (if_pos (List.mem_map_of_mem hitem))
  · refine (congrFun hclosed item.fd).trans ?_
    exact (hsound item.fd hevent (hregistered item hitem)).2

theorem eventfd_looping (table : HeaderTable) (batch : List Event) (c : Channel) :
    (c.looping table batch).eventfd = c.eventfd := by
  have hall (c : Channel) : (Op.finalState (handleAll table batch c)).eventfd = c.eventfd := by
    induction batch generalizing c with
    | nil => rfl
    | cons item batch ih =>
      have hfirst := eventfd_handle table item c
      cases hhandle : handle table item c with
      | ok u c' =>
        rw [hhandle] at hfirst
        rw [handleAll_of_ok hhandle]
        exact (ih c').trans hfirst
      | error e c' =>
        rw [hhandle] at hfirst
        rw [handleAll_of_error hhandle]
        exact hfirst
  exact hall (c.epollWait batch)

/-- A batch leaves what is registered open and with a member. -/
theorem sound_handleAll {table : HeaderTable} {batch : List Event} {c : Channel}
    (hwaiting : Waiting batch c)
    (hdefined : ∀ c', handleAll table batch c ≠ .error .undefinedBehaviour c') :
    (Op.finalState (handleAll table batch c)).manger.Sound c.eventfd := by
  induction batch generalizing c with
  | nil => exact hwaiting.sound
  | cons item batch ih =>
    have hpassed : Passed item c (Op.finalState (handle table item c)) :=
      passed_handle hwaiting fun c' hub ↦ hdefined c' (handleAll_of_error hub)
    cases hhandle : handle table item c with
    | ok u c' =>
      have hpassed' : Passed item c c' := by rwa [hhandle] at hpassed
      rw [handleAll_of_ok hhandle] at hdefined ⊢
      rw [← hpassed'.eventfd]
      exact ih (hwaiting.next hpassed') hdefined
    | error e c' =>
      have hpassed' : Passed item c c' := by rwa [hhandle] at hpassed
      rw [handleAll_of_error hhandle, ← hpassed'.eventfd]
      exact hpassed'.sound

theorem Reachable.sound {table : HeaderTable} {c : Channel} (hreachable : Reachable table c) :
    c.manger.Sound c.eventfd := by
  induction hreachable with
  | new eventfd =>
    intro fd hevent hregistered
    exact absurd (Function.update_of_ne hevent _ _) hregistered
  | looping hreachable hreported hdefined ih =>
    rw [eventfd_looping]
    exact sound_handleAll (waiting_epollWait ih hreported) hdefined

/-- A batch of a reachable worker is dealt with exactly if every event can be. -/
theorem dealtWith_iff_manageable {table : HeaderTable} {c : Channel}
    (hreachable : Reachable table c) {batch : List Event} (hreported : Reported batch c) :
    DealtWith table batch c ↔ Manageable table batch (c.epollWait batch) := by
  rw [← through_iff (waiting_epollWait hreachable.sound hreported)]
  exact ⟨fun ⟨hdefined, hattended⟩ ↦ ⟨hdefined, hattended⟩,
    fun ⟨hdefined, hattended⟩ ↦ ⟨hdefined, hattended⟩⟩

/-- An event with one segment of the connection 7. -/
def segment (events : EpollEventType) (block : List Byte) : Event where
  fd := 7
  events := events
  arrival := {
    received := [.bytes block, .eagain]
    accepts := []
    site := {
      index := none
      openAt := fun _ _ ↦ none
      fastCgi := fun _ _ ↦ .error .logicError
      date := []
      allotted := 24 } }
  accepted := []

/-- The connection 7 has been given to the worker. -/
def opening : Event := { segment eetCouldRead [] with fd := 5, accepted := [⟨7, .zero, 0⟩] }

theorem reachable_opened :
    Reachable .sample ((new 5).looping .sample [opening]) := by
  refine .looping (.new 5) ⟨by decide, ?_⟩ ?_
  · intro item hitem
    rw [List.mem_singleton.mp hitem]
    exact ⟨epollCanRead, rfl⟩
  · intro c' hub
    cases hub

theorem reported_opened (events : EpollEventType) (block : List Byte) :
    Reported [segment events block] ((new 5).looping .sample [opening]) := by
  refine ⟨List.nodup_cons.mpr ⟨List.not_mem_nil, List.nodup_nil⟩, fun item hitem ↦ ?_⟩
  rw [List.mem_singleton.mp hitem]
  exact ⟨epollCanRead, rfl⟩

/-- The worker has read the first half of a request on the connection 7. -/
def busy : Channel := ((new 5).looping .sample [opening]).looping .sample
  [segment eetCouldRead (text "GET / HTTP/1.1\r\n")]

theorem reachable_busy : Reachable .sample busy := by
  refine .looping reachable_opened (reported_opened _ _) fun c' hub ↦ ?_
  have hreturns : Op.returning (fun _ _ ↦ true) (handleAll .sample
      [segment eetCouldRead (text "GET / HTTP/1.1\r\n")]
      (((new 5).looping .sample [opening]).epollWait
        [segment eetCouldRead (text "GET / HTTP/1.1\r\n")])) = true := by
    decide +kernel
  obtain ⟨_, c, hok, -⟩ := Op.of_returning hreturns
  rw [hok] at hub
  cases hub

/-- Another connection is given to it. -/
def joining : Event := { segment eetCouldRead [] with fd := 5, accepted := [⟨9, .zero, 0⟩] }

/-- The second half of the request comes. -/
def following : Event := segment eetCouldRead (text "Host: a\r\n\r\n")

def turnover : List Event := [joining, following]

theorem reported_turnover : Reported turnover busy := by
  refine ⟨by decide, fun item hitem ↦ ⟨epollCanRead, ?_⟩⟩
  have hitem' : item.fd = 5 ∨ item.fd = 7 := by
    have hall : ∀ fd ∈ turnover.map Event.fd, fd = 5 ∨ fd = 7 := by decide
    exact hall item.fd (List.mem_map_of_mem hitem)
  rcases hitem' with hfd | hfd
  · rw [hfd]
    decide +kernel
  · rw [hfd]
    decide +kernel

/-- A connection is given to the worker, and then another one is read from. -/
theorem manageable_join_read {table : HeaderTable} {first second : Event} {c : Channel}
    {one : Accepted} (hfirst : first.fd = c.eventfd) (hone : first.accepted = [one])
    (hnew : c.manger.fdToMember one.fd = none)
    (hsecond : second.fd ≠ (Op.finalState (handle table first c)).eventfd)
    (hcall : second.call = some (.doRead second.arrival))
    (hreturns : ((Op.finalState (handle table first c)).manger.fdToMember second.fd).any
      (fun member ↦ Op.returning (fun _ _ ↦ true)
        ((Member.Call.doRead second.arrival).run table member)) = true) :
    Manageable table [first, second] c := by
  have henterable : Enterable first.accepted c.manger := by
    rw [hone]
    refine ⟨fun member hmember ↦ ?_, trivial⟩
    rw [hnew] at hmember
    cases hmember
  obtain ⟨member, hmember, hreturns⟩ := (Option.any_eq_true _ _).mp hreturns
  have hanswerable : second.Answerable table member := by
    obtain ⟨_, member', hok, -⟩ := Op.of_returning hreturns
    exact .inr ⟨_, hcall, member', hok⟩
  refine ⟨by rwa [if_pos hfirst], ?_, trivial⟩
  rw [if_neg hsecond]
  exact ⟨member, hmember, hanswerable⟩

theorem manageable_turnover :
    Manageable .sample [joining, following] (busy.epollWait turnover) := by
  have hnew : (busy.epollWait turnover).manger.fdToMember 9 = none := by
    apply Option.isNone_iff_eq_none.mp
    decide +kernel
  have hsecond : following.fd ≠
      (Op.finalState (handle .sample joining (busy.epollWait turnover))).eventfd := by
    decide +kernel
  have hreturns : ((Op.finalState (handle .sample joining
      (busy.epollWait turnover))).manger.fdToMember following.fd).any (fun member ↦ Op.returning
        (fun _ _ ↦ true) ((Member.Call.doRead following.arrival).run .sample member)) = true := by
    decide +kernel
  have hfirst : joining.fd = (busy.epollWait turnover).eventfd := by decide +kernel
  generalize busy.epollWait turnover = c at *
  exact manageable_join_read hfirst rfl hnew hsecond rfl hreturns

theorem dealtWith_iff_manageable_turnover : DealtWith .sample turnover busy :=
  (dealtWith_iff_manageable reachable_busy reported_turnover).mpr manageable_turnover

/-- A segment that ends inside the method name leaves its connection disarmed. -/
theorem not_attended_splitWord : ∃ c batch, Reachable .sample c ∧ Reported batch c ∧
    ∃ item ∈ batch, item.fd ≠ c.eventfd ∧ ¬ (c.looping .sample batch).manger.Attended item.fd := by
  refine ⟨_, _, reachable_opened, reported_opened eetCouldRead (text "GE"), _,
    List.mem_singleton_self _, by decide, ?_⟩
  exact Stuck.not_attended ⟨by decide +kernel, by decide +kernel⟩

end Channel

end LWebServer
