import LWebServer.Server.Lives

/-!
# Abandoned descriptors

Every registration is for one event, and an exception ends the batch. The descriptors whose events
are still to be handled then stay disarmed, those of connections open, and the `eventfd` among them.
So it is with a connection whose event `looping` does not know. Nothing else is ever lost, and
nothing that is lost comes back.
-/

namespace LWebServer

open Schedule EpollEventType

/-- There is a handler for an event whose handler returns without leaving its connection stuck. -/
theorem Event.Answerable.deed {table : HeaderTable} {item : Event} {member : Member}
    (hanswerable : item.Answerable table member) : item.deed.isNone = false := by
  unfold Event.deed
  rcases hanswerable with hshut | ⟨call, hcall, -⟩
  · rw [if_pos hshut]
    rfl
  · rw [hcall]
    split <;> rfl

/-- A handler that is there and cannot answer throws. -/
theorem Manger.serve_throws {table : HeaderTable} {item : Event} {member : Member} {g : Manger}
    (hmember : g.fdToMember item.fd = some member) (hnot : ¬ item.Answerable table member)
    (hdeed : item.deed.isNone = false) : ∃ e g', serve table item g = .error e g' := by
  have hshut : ¬ item.check eetRDHup = true := fun hshut ↦ hnot (.inl hshut)
  unfold Event.deed at hdeed
  rw [if_neg hshut] at hdeed
  cases hcall : item.call with
  | none => simp [hcall] at hdeed
  | some call =>
    unfold serve
    rw [if_neg hshut, hcall]
    dsimp only
    cases hrun : call.run table member with
    | ok u member' => exact absurd (.inr ⟨call, hcall, member', hrun⟩) hnot
    | error e member' =>
      have hcalled : onMember item.fd (call.run table) g =
          .error e (g.setMember item.fd member') := by
        simp [onMember, withMember, hmember, hrun]
      exact ⟨e, _, Op.bind_of_error hcalled⟩

/-- What the handler of a connection leaves: it throws, and the connection is disarmed; or it
returns, and the connection is disarmed only if there is nothing that would have handled it. -/
inductive Manger.Served (item : Event) (g : Manger) : EStateM.Result Fail Manger Unit → Prop
  | thrown (e : Fail) (g' : Manger) (hframe : Frame item.fd g g')
      (hdisarmed : g'.epoll item.fd = .disarmed) : Served item g (.error e g')
  | returned (g' : Manger) (hframe : Frame item.fd g g')
      (hdisarmed : g'.epoll item.fd = .disarmed ↔ item.deed.isNone = true) :
      Served item g (.ok () g')

theorem Manger.served_serve (table : HeaderTable) {eventfd : ℕ} {item : Event} {member : Member}
    {g : Manger} (hsound : g.Sound eventfd) (hevent : item.fd ≠ eventfd)
    (hmember : g.fdToMember item.fd = some member) (hstuck : g.Stuck item.fd) :
    Served item g (serve table item g) := by
  obtain ⟨hframe, hsound', hattended, hstuck'⟩ := handled_serve table hsound hmember hstuck
  by_cases hanswerable : item.Answerable table member
  · obtain ⟨g', hreturn, hdone⟩ := hattended hanswerable
    rw [hreturn] at hframe hsound' ⊢
    refine .returned g' hframe (iff_of_false (fun hdisarmed ↦ ?_) ?_)
    · rcases hdone with hclosed | ⟨events, harmed⟩
      · have hopen := (hsound' item.fd hevent (by simp [Op.finalState, hdisarmed])).2
        exact absurd (hopen.symm.trans hclosed) Bool.false_ne_true
      · exact absurd (hdisarmed.symm.trans harmed) (by simp)
    · rw [hanswerable.deed]
      exact Bool.false_ne_true
  · have hdisarmed := (hstuck' hanswerable).epoll
    cases hserve : serve table item g with
    | error e g' =>
      rw [hserve] at hframe hdisarmed
      exact .thrown e g' hframe hdisarmed
    | ok u g' =>
      rw [hserve] at hframe hdisarmed
      refine .returned g' hframe (iff_of_true hdisarmed ?_)
      by_contra hdeed
      obtain ⟨e, g₁, hthrow⟩ :=
        serve_throws hmember hanswerable (Bool.eq_false_of_not_eq_true hdeed)
      rw [hserve] at hthrow
      cases hthrow

namespace Worker

open Manger

/-- The descriptor is registered, no event of it will be reported, and none waits to be handled. -/
def Silent (w : Worker) (fd : ℕ) : Prop :=
  w.channel.manger.epoll fd = .disarmed ∧ fd ∉ w.batch.map Event.fd

/-- What a step gives up: the rest of the batch, if the handler of the present event throws, and the
descriptor of this event, if there is no handler for it. -/
def abandons (table : HeaderTable) (act : Act) (w : Worker) : List ℕ :=
  match act, w.temp, w.batch with
  | .serve, none, item :: batch => match Channel.handle table item w.channel with
    | .ok _ _ => if item.deed.isNone then [item.fd] else []
    | .error _ _ => item.fd :: batch.map Event.fd
  | _, _, _ => []

/-- The descriptors of a batch have been disarmed. -/
def Paused (w : Worker) : Prop :=
  ∀ fd ∈ w.batch.map Event.fd, w.channel.manger.epoll fd = .disarmed

/-- These are the silent descriptors of a worker. -/
def Accounted (lost : List ℕ) (w : Worker) : Prop := (∀ fd, w.Silent fd ↔ fd ∈ lost) ∧ w.Paused

theorem Accounted.congr {lost : List ℕ} {w w' : Worker} (haccounted : w.Accounted lost)
    (hchannel : w'.channel = w.channel) (hbatch : w'.batch = w.batch) : w'.Accounted lost := by
  unfold Accounted Silent Paused at haccounted ⊢
  rw [hchannel, hbatch]
  exact haccounted

/-- What a step loses and leaves paused. -/
structure Loses (lost : List ℕ) (w w' : Worker) : Prop where
  silent : ∀ fd, w'.Silent fd ↔ w.Silent fd ∨ fd ∈ lost
  paused : w'.Paused

section

variable {table : HeaderTable} {w w' : Worker}

theorem loses_wait {batch : List Event} (hstep : w.wait batch = some (.ok w')) :
    Loses [] w w' := by
  unfold wait at hstep
  split_ifs at hstep with hready
  obtain ⟨-, hempty, hreported⟩ := hready
  cases hstep
  obtain ⟨-, -, hepoll⟩ := Channel.epollWait_eq batch w.channel.manger
  have hepoll' (fd : ℕ) : (w.channel.epollWait batch).manger.epoll fd =
      if fd ∈ batch.map Event.fd then .disarmed else w.channel.manger.epoll fd := hepoll fd
  constructor
  · intro fd
    unfold Silent
    dsimp only
    rw [hepoll', List.isEmpty_iff.mp hempty]
    by_cases hmem : fd ∈ batch.map Event.fd
    · obtain ⟨item, hitem, rfl⟩ := List.mem_map.mp hmem
      obtain ⟨events, harmed⟩ := hreported.armed item hitem
      simp [hmem, harmed]
    · simp [hmem]
  · intro fd hmem
    dsimp only at hmem ⊢
    rw [hepoll', if_pos hmem]

theorem loses_read (hpaused : w.Paused) (hstep : w.read = some (.ok w')) : Loses [] w w' := by
  unfold read at hstep
  split_ifs at hstep with hready
  cases hstep
  exact ⟨fun fd ↦ by simp [Silent], hpaused⟩

/-- The registration of a descriptor has changed to one that is not disarmed, and nothing else has
but for its event, which has been handled. -/
theorem loses_of_frame {fd : ℕ} (hframe : Frame fd w.channel.manger w'.channel.manger)
    (hself : w'.channel.manger.epoll fd ≠ .disarmed) (hbefore : ¬ w.Silent fd)
    (hbatch : ∀ other ≠ fd, other ∈ w'.batch.map Event.fd ↔ other ∈ w.batch.map Event.fd)
    (hfirst : fd ∉ w'.batch.map Event.fd) (hpaused : w.Paused) : Loses [] w w' := by
  constructor
  · intro other
    by_cases hne : other = fd
    · subst hne
      exact iff_of_false (fun hsilent ↦ hself hsilent.1) (by simpa using hbefore)
    · unfold Silent
      rw [hframe.epoll other hne, hbatch other hne]
      simp
  · intro other hmem
    have hne : other ≠ fd := fun heq ↦ hfirst (heq ▸ hmem)
    rw [hframe.epoll other hne]
    exact hpaused other ((hbatch other hne).mp hmem)

theorem loses_enter {memory : HttpRequest} {interval : ℕ} (hpaused : w.Paused)
    (hqueue : ∀ fd ∈ w.queue, fd ≠ w.channel.eventfd ∧ ¬ w.Registered fd)
    (hstep : w.enter memory interval = some (.ok w')) : Loses [] w w' := by
  unfold enter at hstep
  cases htemp : w.temp with
  | none => simp [htemp] at hstep
  | some turns =>
    cases turns with
    | zero => simp [htemp] at hstep
    | succ turns =>
      cases hline : w.queue with
      | nil => simp [htemp, hline] at hstep
      | cons fd queue =>
        simp only [htemp, hline] at hstep
        by_cases hclearable : Clearable fd w.channel.manger
        · obtain ⟨g, hopera, hentered⟩ := entered_operaMember ⟨fd, memory, interval⟩ hclearable
          simp only [hopera] at hstep
          cases hstep
          obtain ⟨hne, hnot⟩ := hqueue fd (hline ▸ List.mem_cons_self)
          have habsent : w.channel.manger.epoll fd = .absent := by
            by_contra hthere
            exact hnot ⟨hne, hthere⟩
          have hself : g.epoll fd = .armed epollCanRead := by
            rw [hentered.epoll, habsent]
            rfl
          have hunreported : fd ∉ w.batch.map Event.fd := by
            intro hmem
            rw [hpaused fd hmem] at habsent
            cases habsent
          refine loses_of_frame (hentered.frame) ?_ ?_ (fun _ _ ↦ Iff.rfl) hunreported hpaused
          · change g.epoll fd ≠ .disarmed
            rw [hself]
            simp
          · intro hsilent
            exact absurd (habsent.symm.trans hsilent.1) (by simp)
        · obtain ⟨g, hopera⟩ := operaMember_not_clearable ⟨fd, memory, interval⟩ hclearable
          simp only [hopera] at hstep
          cases hstep

theorem loses_rearm (hpaused : w.Paused) (hregular : w.Regular)
    (hstep : w.rearm = some (.ok w')) : Loses [] w w' := by
  unfold rearm at hstep
  split_ifs at hstep with htemp
  cases hstep
  obtain ⟨item, batch, hbatch, hitem⟩ := exists_item (hregular.turn (by rw [htemp]; rfl))
  have hdistinct := hregular.waiting.distinct
  rw [hbatch] at hdistinct
  obtain ⟨hfirst, -⟩ := List.nodup_cons.mp hdistinct
  rw [hitem] at hfirst
  refine @loses_of_frame w _ w.channel.eventfd (frame_setWatch _ _ _) ?_ ?_ ?_ ?_ hpaused
  · simp only [setManger, setWatch, Function.update_self]
    cases w.channel.manger.epoll w.channel.eventfd <;> simp [Watch.modify]
  · intro hsilent
    apply hsilent.2
    rw [hbatch, ← hitem]
    exact List.mem_cons_self
  · intro other hne
    rw [hbatch]
    simp [hitem, hne]
  · rw [hbatch]
    exact hfirst

theorem loses_serve (hpaused : w.Paused) (hregular : w.Regular)
    (hstep : w.serve table = some (.ok w')) : Loses (w.abandons table .serve) w w' := by
  unfold serve at hstep
  unfold abandons
  unfold Paused at hpaused
  cases htemp : w.temp with
  | some turns => simp [htemp] at hstep
  | none =>
    cases hbatch : w.batch with
    | nil => simp [htemp, hbatch] at hstep
    | cons item batch =>
      simp only [htemp, hbatch] at hstep ⊢
      split_ifs at hstep with hfd
      have hwaiting := hregular.waiting
      rw [hbatch] at hwaiting hpaused
      obtain ⟨hfirst, -⟩ := List.nodup_cons.mp hwaiting.distinct
      obtain ⟨member, hmember⟩ := hwaiting.member hfd
      have hserved := served_serve table hwaiting.sound hfd hmember
        (hwaiting.stuck item List.mem_cons_self hfd)
      rw [Channel.handle_connection table hfd] at hstep ⊢
      unfold Channel.onManger at hstep ⊢
      cases hserve : Manger.serve table item w.channel.manger with
      | ok u g =>
        rw [hserve] at hserved
        simp only [hserve] at hstep ⊢
        cases hstep
        cases hserved with | returned _ hframe hdisarmed => ?_
        constructor
        · intro fd
          unfold Silent
          rw [hbatch]
          by_cases hne : fd = item.fd
          · subst hne
            simp [hdisarmed, hfirst]
          · simp [hframe.epoll fd hne, hne]
        · intro fd hmem
          have hne : fd ≠ item.fd := fun heq ↦ hfirst (heq ▸ hmem)
          exact (hframe.epoll fd hne).trans (hpaused fd (List.mem_cons_of_mem _ hmem))
      | error e g =>
        rw [hserve] at hserved
        simp only [hserve] at hstep ⊢
        cases hserved with | thrown _ _ hframe hdisarmed => ?_
        have hcaught : w' = ⟨{ w.channel with manger := g }, w.queue, w.counter, none, []⟩ := by
          cases e with
          | undefinedBehaviour => cases hstep
          | outOfRange => exact (Except.ok.inj (Option.some.inj hstep)).symm
          | invalidArgument => exact (Except.ok.inj (Option.some.inj hstep)).symm
          | logicError => exact (Except.ok.inj (Option.some.inj hstep)).symm
        rw [hcaught]
        constructor
        · intro fd
          unfold Silent
          rw [hbatch]
          by_cases hne : fd = item.fd
          · subst hne
            simp [hdisarmed]
          · have hepoll : g.epoll fd = w.channel.manger.epoll fd := hframe.epoll fd hne
            by_cases hmem : fd ∈ batch.map Event.fd
            · have hbefore := hpaused fd (List.mem_cons_of_mem _ hmem)
              exact iff_of_true ⟨hepoll.trans hbefore, List.not_mem_nil⟩
                (.inr (List.mem_cons_of_mem _ hmem))
            · simp [hepoll, hne, hmem]
        · exact fun fd hmem ↦ absurd hmem List.not_mem_nil

theorem loses_step {act : Act} (hpaused : w.Paused) (hregular : w.Regular)
    (hqueue : ∀ fd ∈ w.queue, fd ≠ w.channel.eventfd ∧ ¬ w.Registered fd)
    (hstep : w.step table act = some (.ok w')) : Loses (w.abandons table act) w w' := by
  cases act with
  | wait batch => exact loses_wait hstep
  | interrupt => exact (interrupt_ne_ok hstep).elim
  | read => exact loses_read hpaused hstep
  | enter memory interval => exact loses_enter hpaused hqueue hstep
  | rearm => exact loses_rearm hpaused hregular hstep
  | serve => exact loses_serve hpaused hregular hstep

/-- Without its `eventfd` a worker takes nothing from its queue. -/
theorem queue_step {act : Act} (hregular : w.Regular) (hdeaf : w.Silent w.channel.eventfd)
    (hstep : w.step table act = some (.ok w')) :
    w'.queue = w.queue ∧ w'.channel.eventfd = w.channel.eventfd := by
  cases act with
  | wait batch =>
    change w.wait batch = some (.ok w') at hstep
    unfold wait at hstep
    split_ifs at hstep
    cases hstep
    exact ⟨rfl, rfl⟩
  | interrupt => exact (interrupt_ne_ok hstep).elim
  | read =>
    change w.read = some (.ok w') at hstep
    unfold read at hstep
    split_ifs at hstep
    cases hstep
    exact ⟨rfl, rfl⟩
  | enter memory interval =>
    change w.enter memory interval = some (.ok w') at hstep
    unfold enter at hstep
    cases htemp : w.temp with
    | none => simp [htemp] at hstep
    | some turns =>
      obtain ⟨item, batch, hbatch, hitem⟩ := exists_item (hregular.turn (by rw [htemp]; rfl))
      apply absurd hdeaf.2
      rw [not_not, hbatch, ← hitem]
      exact List.mem_cons_self
  | rearm =>
    change w.rearm = some (.ok w') at hstep
    unfold rearm at hstep
    split_ifs at hstep
    cases hstep
    exact ⟨rfl, rfl⟩
  | serve =>
    change w.serve table = some (.ok w') at hstep
    unfold serve at hstep
    cases htemp : w.temp with
    | some turns => simp [htemp] at hstep
    | none =>
      cases hbatch : w.batch with
      | nil => simp [htemp, hbatch] at hstep
      | cons item batch =>
        simp only [htemp, hbatch] at hstep
        split_ifs at hstep
        have heventfd := Channel.eventfd_handle table item w.channel
        cases hhandle : Channel.handle table item w.channel with
        | ok u c =>
          rw [hhandle] at heventfd hstep
          cases hstep
          exact ⟨rfl, heventfd⟩
        | error e c =>
          rw [hhandle] at heventfd hstep
          cases e with
          | undefinedBehaviour => cases hstep
          | outOfRange =>
            cases hstep
            exact ⟨rfl, heventfd⟩
          | invalidArgument =>
            cases hstep
            exact ⟨rfl, heventfd⟩
          | logicError =>
            cases hstep
            exact ⟨rfl, heventfd⟩

end

end Worker

namespace Process

variable {n : ℕ} {table : HeaderTable} {s s' : Process n} {index : Fin n}

/-- What a step of a worker gives up. -/
def abandons (table : HeaderTable) (index : Fin n) (act : Act n) (s : Process n) : List ℕ :=
  match act with
  | .work other act => if other = index then (s.workers index).abandons table act else []
  | _ => []

theorem abandons_of_ne {other : Fin n} (hne : other ≠ index) (act : Worker.Act) :
    s.abandons table index (.work other act) = [] := if_neg hne

theorem abandons_of_act {act : Act n} (hact : ∀ index own, act ≠ .work index own) :
    s.abandons table index act = [] := by
  cases act with
  | work other own => exact absurd rfl (hact other own)
  | accept fd => rfl
  | exhaust left => rfl
  | push => rfl
  | write => rfl
  | extract items => rfl

theorem abandons_self (act : Worker.Act) :
    s.abandons table index (.work index act) = (s.workers index).abandons table act := if_pos rfl

theorem accounted_new (balance : LoadBalance n) (eventfds : Fin n → ℕ) (index : Fin n) :
    ((new balance eventfds).workers index).Accounted [] := by
  refine ⟨fun fd ↦ iff_of_false (fun hsilent ↦ ?_) List.not_mem_nil, fun fd hmem ↦ ?_⟩
  · have hwatch : Function.update (fun _ ↦ Watch.absent) (eventfds index) (.armed epollCanRead) fd =
      .disarmed := hsilent.1
    by_cases hfd : fd = eventfds index
    · rw [hfd, Function.update_self] at hwatch
      cases hwatch
    · rw [Function.update_of_ne hfd] at hwatch
      cases hwatch
  · exact absurd hmem List.not_mem_nil

variable [NeZero n]

/-- All that a worker has given up in a run. -/
def abandoned (table : HeaderTable) (index : Fin n) (schedule : List (Act n)) (start : Process n) :
    List ℕ := notes (step table) (abandons table index) schedule start

/-- A worker has lost what it has given up so far. -/
theorem accounted_step {lost : List ℕ} {act : Act n} (hregular : s.Regular)
    (haccounted : (s.workers index).Accounted lost) (hstep : step table act s = some s')
    (hrunning : s'.halted = none) :
    (s'.workers index).Accounted (lost ++ s.abandons table index act) := by
  cases touches_of_step hstep with
  | nothing hact hworkers =>
    rw [abandons_of_act hact, List.append_nil, hworkers]
    exact haccounted
  | given hact other fds counter hworkers =>
    rw [abandons_of_act hact, List.append_nil, hworkers]
    by_cases hindex : index = other
    · subst hindex
      rw [Function.update_self]
      exact haccounted.congr rfl rfl
    · rw [Function.update_of_ne hindex]
      exact haccounted
  | @worked other own w hworker hworked =>
    subst hworked
    have hworkers : (s.worked other w).workers = Function.update s.workers other w := rfl
    rw [hworkers]
    by_cases hindex : other = index
    · subst hindex
      rw [abandons_self, Function.update_self]
      obtain ⟨hsilent, hpaused⟩ := haccounted
      have hkept := hregular.kept
      have hqueue (fd : ℕ) (hmem : fd ∈ (s.workers other).queue) :
          fd ≠ (s.workers other).channel.eventfd ∧ ¬ (s.workers other).Registered fd := by
        have hopen := hkept.real (.queue other) fd hmem
        refine ⟨hregular.apart fd other hopen, fun hregistered ↦ ?_⟩
        have hplaces : Place.queue other = Place.registered other :=
          (hkept.one fd hopen).unique hmem hregistered
        cases hplaces
      have hloses := Worker.loses_step hpaused (hregular.workers other) hqueue hworker
      refine ⟨fun fd ↦ ?_, hloses.paused⟩
      rw [hloses.silent, hsilent, List.mem_append]
    · rw [abandons_of_ne hindex, List.append_nil, Function.update_of_ne (Ne.symm hindex)]
      exact haccounted
  | halted halt hhalted =>
    subst hhalted
    cases hrunning

section

variable {balance : LoadBalance n} {eventfds : Fin n → ℕ} {schedule : List (Act n)}

theorem regular_run (hrun : run (step table) schedule (new balance eventfds) = some s) :
    s.Regular := invariant (regular_new balance eventfds) (fun _ _ _ ↦ regular_step) hrun

theorem accounted_run (hrun : run (step table) schedule (new balance eventfds) = some s)
    (hrunning : s.halted = none) (index : Fin n) : (s.workers index).Accounted
      (abandoned table index schedule (new balance eventfds)) := by
  induction schedule using List.reverseRecOn generalizing s with
  | nil =>
    cases hrun
    exact accounted_new balance eventfds index
  | append_singleton past act ih =>
    obtain ⟨t, hpast, hstep⟩ := run_snoc.mp hrun
    unfold abandoned
    rw [notes_snoc hpast]
    exact accounted_step (regular_run hpast) (ih hpast (running_of_step hstep)) hstep hrunning

/-- In every run of the process: the descriptors of which a worker hears nothing more are exactly
those that it has given up so far, and those of connections among them are still open. -/
theorem silent_run (hrun : run (step table) schedule (new balance eventfds) = some s)
    (hrunning : s.halted = none) (index : Fin n) (fd : ℕ) :
    ((s.workers index).Silent fd ↔ fd ∈ abandoned table index schedule (new balance eventfds)) ∧
      ((s.workers index).Silent fd → fd ≠ (s.workers index).channel.eventfd →
        s.files fd = true) := by
  refine ⟨(accounted_run hrun hrunning index).1 fd, fun hsilent hne ↦ ?_⟩
  exact (regular_run hrun).kept.real (.registered index) fd ⟨hne, by simp [hsilent.1]⟩

end

/-- A step does not take anything from the queue of a worker without its `eventfd`. -/
theorem deaf_step {act : Act n} (hregular : s.Regular)
    (hdeaf : (s.workers index).Silent (s.workers index).channel.eventfd)
    (hstep : step table act s = some s') (hrunning : s'.halted = none) :
    (s.workers index).queue <+: (s'.workers index).queue ∧
      (s'.workers index).channel.eventfd = (s.workers index).channel.eventfd := by
  cases touches_of_step hstep with
  | nothing hact hworkers =>
    rw [hworkers]
    exact ⟨List.prefix_rfl, rfl⟩
  | given hact other fds counter hworkers =>
    rw [hworkers]
    by_cases hindex : index = other
    · subst hindex
      rw [Function.update_self]
      exact ⟨List.prefix_append _ _, rfl⟩
    · rw [Function.update_of_ne hindex]
      exact ⟨List.prefix_rfl, rfl⟩
  | @worked other own w hworker hworked =>
    subst hworked
    have hworkers : (s.worked other w).workers = Function.update s.workers other w := rfl
    rw [hworkers]
    by_cases hindex : other = index
    · subst hindex
      obtain ⟨hqueue, heventfd⟩ := Worker.queue_step (hregular.workers other) hdeaf hworker
      rw [Function.update_self, hqueue]
      exact ⟨List.prefix_rfl, heventfd⟩
    · rw [Function.update_of_ne (Ne.symm hindex)]
      exact ⟨List.prefix_rfl, rfl⟩
  | halted halt hhalted =>
    subst hhalted
    cases hrunning

/-- From the time a worker has lost its `eventfd` it never takes anything from its queue: the
connections that are distributed to it stay there, and open, whatever happens. -/
theorem deaf_run {balance : LoadBalance n} {eventfds : Fin n → ℕ} {past rest : List (Act n)}
    (hpast : run (step table) past (new balance eventfds) = some s)
    (hdeaf : (s.workers index).Silent (s.workers index).channel.eventfd)
    (hrun : run (step table) rest s = some s') (hrunning : s'.halted = none) :
    (s'.workers index).Silent (s'.workers index).channel.eventfd ∧
      (s.workers index).queue <+: (s'.workers index).queue ∧
        ∀ fd ∈ (s'.workers index).queue, s'.files fd = true := by
  have hwhole {rest : List (Act n)} {t : Process n} (hrest : run (step table) rest s = some t) :
      run (step table) (past ++ rest) (new balance eventfds) = some t := by
    rw [run_append_of_run hpast]
    exact hrest
  have hboth : (s'.workers index).Silent (s'.workers index).channel.eventfd ∧
      (s.workers index).queue <+: (s'.workers index).queue := by
    induction rest using List.reverseRecOn generalizing s' with
    | nil =>
      cases hrun
      exact ⟨hdeaf, List.prefix_rfl⟩
    | append_singleton rest act ih =>
      obtain ⟨t, hrest, hstep⟩ := run_snoc.mp hrun
      have hgoing : t.halted = none := running_of_step hstep
      obtain ⟨hsilent, hqueue⟩ := ih hrest hgoing
      have hregular := regular_run (hwhole hrest)
      have haccounted := accounted_run (hwhole hrest) hgoing index
      obtain ⟨hkeeps, heventfd⟩ := deaf_step hregular hsilent hstep hrunning
      have haccounted' := accounted_step hregular haccounted hstep hrunning
      refine ⟨?_, hqueue.trans hkeeps⟩
      rw [heventfd]
      exact (haccounted'.1 _).mpr (List.mem_append_left _ ((haccounted.1 _).mp hsilent))
  exact ⟨hboth.1, hboth.2, fun fd hmem ↦
    (regular_run (hwhole hrun)).kept.real (.queue index) fd hmem⟩

/-- The connection 9 is on its way to the worker while a segment of the connection 7 is handled
that ends inside the method name. -/
def overheard : List (Act 2) :=
  welcome ++ [.accept 8, .push, .write, .accept 9, .push, .write,
    .work first (.wait [Channel.segment eetCouldRead (text "GE"), roused]), .work first .serve]

theorem abandoned_overheard :
    abandoned .sample first overheard (new Distributing.even ![5, 6]) = [7, 5] := by
  decide +kernel

/-- The connection and the `eventfd` are lost. -/
theorem silent_run_overheard : ∃ s,
    run (step .sample) overheard (new Distributing.even ![5, 6]) = some s ∧
      (s.workers first).Silent 7 ∧ s.files 7 = true ∧ (s.workers first).Silent 5 := by
  have hfacts : ((run (step .sample) overheard (new Distributing.even ![5, 6])).any fun s ↦
      s.halted = none ∧ 7 ≠ (s.workers first).channel.eventfd) = true := by decide +kernel
  obtain ⟨s, hrun, hholds⟩ := (Option.any_eq_true _ _).mp hfacts
  obtain ⟨hrunning, hne⟩ := of_decide_eq_true hholds
  obtain ⟨hseven, hopen⟩ := silent_run hrun hrunning first 7
  obtain ⟨hfive, -⟩ := silent_run hrun hrunning first 5
  rw [abandoned_overheard] at hseven hfive
  have hsilent := hseven.mpr (by decide)
  exact ⟨s, hrun, hsilent, hopen hsilent hne, hfive.mpr (by decide)⟩

/-- Two more connections, one of them for the same worker. -/
def later : List (Act 2) := [.accept 10, .push, .write, .accept 11, .push, .write]

theorem deaf_run_overheard : ∃ s s',
    run (step .sample) overheard (new Distributing.even ![5, 6]) = some s ∧
      run (step .sample) later s = some s' ∧ (s'.workers first).queue = [9, 11] ∧
        (s'.workers first).Silent (s'.workers first).channel.eventfd ∧ s'.files 9 = true := by
  have hfacts : ((run (step .sample) overheard (new Distributing.even ![5, 6])).any fun s ↦
      s.halted = none ∧ 5 = (s.workers first).channel.eventfd ∧
        (run (step .sample) later s).any fun s' ↦
          s'.halted = none ∧ (s'.workers first).queue = [9, 11]) = true := by decide +kernel
  obtain ⟨s, hpast, hholds⟩ := (Option.any_eq_true _ _).mp hfacts
  obtain ⟨hgoing, heventfd, hrest⟩ := of_decide_eq_true hholds
  obtain ⟨s', hrun, hholds'⟩ := (Option.any_eq_true _ _).mp hrest
  obtain ⟨hrunning, hqueue⟩ := of_decide_eq_true hholds'
  have hdeaf : (s.workers first).Silent (s.workers first).channel.eventfd := by
    rw [← heventfd, (accounted_run hpast hgoing first).1, abandoned_overheard]
    decide
  obtain ⟨hsilent, -, hopen⟩ := deaf_run hpast hdeaf hrun hrunning
  exact ⟨s, s', hpast, hrun, hqueue, hsilent, hopen 9 (by rw [hqueue]; decide)⟩

end Process

end LWebServer
