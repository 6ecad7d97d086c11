import LWebServer.Server.Process
import LWebServer.Server.Renewal

/-!
# Each worker and each connection by itself

The threads of the process get in each other's way nowhere but in the queues: between two batches
a worker is in a state that it could have reached alone, and what a connection has become is what
its own events have made of it.
-/

namespace LWebServer

open Schedule EpollEventType

/-! ## A worker -/

namespace Channel

theorem epollWait_congr {batch batch' : List Event}
    (hfds : batch'.map Event.fd = batch.map Event.fd) (c : Channel) :
    c.epollWait batch' = c.epollWait batch := by
  have hfold (batch : List Event) (g : Manger) :
      batch.foldl (fun g item ↦ g.setWatch item.fd .disarmed) g =
        (batch.map Event.fd).foldl (fun g fd ↦ g.setWatch fd .disarmed) g := by
    rw [List.foldl_map]
  unfold epollWait
  rw [hfold, hfold, hfds]

theorem Reported.congr {batch batch' : List Event} {c : Channel} (hreported : Reported batch c)
    (hfds : batch'.map Event.fd = batch.map Event.fd) : Reported batch' c where
  distinct := by
    rw [hfds]
    exact hreported.distinct
  armed item hitem := by
    have hmem : item.fd ∈ batch.map Event.fd := hfds ▸ List.mem_map_of_mem hitem
    obtain ⟨other, hother, hfd⟩ := List.mem_map.mp hmem
    rw [← hfd]
    exact hreported.armed other hother

theorem reported_nil (c : Channel) : Reported [] c where
  distinct := List.nodup_nil
  armed _ hitem := absurd hitem List.not_mem_nil

theorem enter_append (first second : List Accepted) :
    enter (first ++ second) = (do enter first; enter second) := by
  induction first with
  | nil => rfl
  | cons one first ih =>
    funext g
    simp only [List.cons_append, enter, ih]
    cases hopera : Manger.operaMember one.fd one.memory one.interval g with
    | ok u g' => simp only [bind, EStateM.bind, hopera]
    | error e g' => simp only [bind, EStateM.bind, hopera]

theorem handleAll_append (table : HeaderTable) (first second : List Event) :
    handleAll table (first ++ second) = (do handleAll table first; handleAll table second) := by
  induction first with
  | nil => rfl
  | cons item first ih =>
    funext c
    simp only [List.cons_append, handleAll, ih]
    cases hhandle : handle table item c with
    | ok u c' => simp only [bind, EStateM.bind, hhandle]
    | error e c' => simp only [bind, EStateM.bind, hhandle]

end Channel

namespace Worker

open Channel

/-- A worker in the middle of a batch: it has taken the batch in a state that it reaches alone, has
handled a part of it, and has entered some of its queue. -/
structure Follows (table : HeaderTable) (w : Worker) (start : Channel) (past : List Event)
    (present : Channel) (entered : List Accepted) : Prop where
  reachable : Reachable table start
  reported : Channel.Reported (past ++ w.batch) start
  handled : handleAll table past (start.epollWait (past ++ w.batch)) = .ok () present
  enters : Channel.enter entered present.manger = .ok () w.channel.manger
  eventfd : w.channel.eventfd = present.eventfd
  turn : w.temp = none → entered = []
  atEventfd : w.temp.isSome → w.atEventfd = true

/-- The worker could have got here alone. -/
def Alone (table : HeaderTable) (w : Worker) : Prop :=
  ∃ start past present entered, Follows table w start past present entered

section

variable {table : HeaderTable} {w w' : Worker} {start present : Channel} {past : List Event}
  {entered : List Accepted}

theorem Follows.channel (hfollows : Follows table w start past present entered)
    (htemp : w.temp = none) : w.channel = present := by
  have hentered := hfollows.enters
  have heventfd := hfollows.eventfd
  rw [hfollows.turn htemp] at hentered
  obtain ⟨channel, queue, counter, temp, batch⟩ := w
  obtain ⟨manger, eventfd⟩ := channel
  obtain ⟨manger', eventfd'⟩ := present
  cases hentered
  cases heventfd
  rfl

/-- A worker that has handled its batch. -/
theorem Follows.reachable_channel (hfollows : Follows table w start past present entered)
    (htemp : w.temp = none) (hbatch : w.batch = []) : Reachable table w.channel := by
  have hreported := hfollows.reported
  have hhandled := hfollows.handled
  rw [hbatch, List.append_nil] at hreported hhandled
  have hlooping : start.looping table past = w.channel := by
    unfold looping
    rw [hhandled, hfollows.channel htemp]
    rfl
  rw [← hlooping]
  refine .looping hfollows.reachable hreported fun c hundefined ↦ ?_
  rw [hhandled] at hundefined
  cases hundefined

theorem Alone.reachable_channel (halone : w.Alone table) (htemp : w.temp = none)
    (hbatch : w.batch = []) : Reachable table w.channel := by
  obtain ⟨start, past, present, entered, hfollows⟩ := halone
  exact hfollows.reachable_channel htemp hbatch

/-- A worker that has caught an exception, or has not taken a batch yet. -/
theorem alone_of_reachable (hreachable : Reachable table w.channel) (htemp : w.temp = none)
    (hbatch : w.batch = []) : w.Alone table := by
  refine ⟨w.channel, [], w.channel, [], hreachable, ?_, ?_, rfl, rfl, fun _ ↦ rfl, fun hturn ↦ ?_⟩
  · rw [hbatch]
    exact reported_nil _
  · rw [hbatch]
    rfl
  · rw [htemp] at hturn
    cases hturn

theorem alone_wait {batch : List Event} (halone : w.Alone table)
    (hstep : w.wait batch = some (.ok w')) : w'.Alone table := by
  unfold wait at hstep
  split_ifs at hstep with hready
  obtain ⟨htemp, hempty, hreported⟩ := hready
  cases hstep
  have hreachable := halone.reachable_channel htemp (List.isEmpty_iff.mp hempty)
  refine ⟨w.channel, [], w.channel.epollWait batch, [], hreachable, hreported, rfl, rfl, rfl,
    fun _ ↦ rfl, fun hturn ↦ ?_⟩
  rw [htemp] at hturn
  cases hturn

theorem alone_read (halone : w.Alone table) (hstep : w.read = some (.ok w')) :
    w'.Alone table := by
  unfold read at hstep
  split_ifs at hstep with hready
  cases hstep
  obtain ⟨start, past, present, entered, hfollows⟩ := halone
  refine ⟨start, past, present, entered, hfollows.reachable, hfollows.reported, hfollows.handled,
    hfollows.enters, hfollows.eventfd, fun hnone ↦ ?_, fun _ ↦ hready.2⟩
  cases hnone

theorem alone_enter {memory : HttpRequest} {interval : ℕ} (halone : w.Alone table)
    (hstep : w.enter memory interval = some (.ok w')) : w'.Alone table := by
  obtain ⟨start, past, present, entered, hfollows⟩ := halone
  unfold enter at hstep
  cases htemp : w.temp with
  | none => simp [htemp] at hstep
  | some turns =>
    cases turns with
    | zero => simp [htemp] at hstep
    | succ turns =>
      cases hline : w.queue with
      | nil => simp [htemp, hline] at hstep
      | cons fd queue =>
        simp only [htemp, hline] at hstep
        by_cases hclearable : Manger.Clearable fd w.channel.manger
        · obtain ⟨g, hopera, -⟩ := Manger.entered_operaMember ⟨fd, memory, interval⟩ hclearable
          simp only [hopera] at hstep
          cases hstep
          refine ⟨start, past, present, entered ++ [⟨fd, memory, interval⟩], hfollows.reachable,
            hfollows.reported, hfollows.handled, ?_, hfollows.eventfd, fun hnone ↦ ?_, fun _ ↦ ?_⟩
          · rw [enter_append, Op.bind_of_ok hfollows.enters]
            exact Op.bind_of_ok hopera
          · cases hnone
          · apply hfollows.atEventfd
            rw [htemp]
            rfl
        · obtain ⟨g, hopera⟩ :=
            Manger.operaMember_not_clearable ⟨fd, memory, interval⟩ hclearable
          simp only [hopera] at hstep
          cases hstep

theorem alone_rearm (halone : w.Alone table) (hstep : w.rearm = some (.ok w')) :
    w'.Alone table := by
  obtain ⟨start, past, present, entered, hfollows⟩ := halone
  unfold rearm at hstep
  split_ifs at hstep with htemp
  cases hstep
  obtain ⟨item, batch, hbatch, hitem⟩ := exists_item (hfollows.atEventfd (by rw [htemp]; rfl))
  -- the event as the worker alone is given it, with what has been entered
  have hfds : (past ++ [{ item with accepted := entered }] ++ batch).map Event.fd =
      (past ++ item :: batch).map Event.fd := by simp
  have hreported := hfollows.reported
  have hhandled := hfollows.handled
  rw [hbatch] at hreported hhandled
  refine ⟨start, past ++ [{ item with accepted := entered }], _, [], hfollows.reachable, ?_, ?_,
    rfl, rfl, fun _ ↦ rfl, fun hturn ↦ ?_⟩
  · rw [hbatch]
    exact hreported.congr hfds
  · rw [hbatch, List.tail_cons, epollWait_congr hfds, handleAll_append, Op.bind_of_ok hhandled]
    have hfd : ({ item with accepted := entered } : Event).fd = present.eventfd :=
      hitem.trans hfollows.eventfd
    have hhandle : handle table { item with accepted := entered } present =
        .ok () (w.setManger (w.channel.manger.setWatch w.channel.eventfd
          ((w.channel.manger.epoll w.channel.eventfd).modify epollCanRead))).channel := by
      rw [handle_eventfd table hfd]
      unfold onManger
      rw [Op.bind_of_ok hfollows.enters, ← hfollows.eventfd]
      rfl
    exact Op.bind_of_ok hhandle
  · cases hturn

theorem alone_serve (halone : w.Alone table) (hstep : w.serve table = some (.ok w')) :
    w'.Alone table := by
  obtain ⟨start, past, present, entered, hfollows⟩ := halone
  unfold serve at hstep
  cases htemp : w.temp with
  | some turns => simp [htemp] at hstep
  | none =>
    cases hbatch : w.batch with
    | nil => simp [htemp, hbatch] at hstep
    | cons item batch =>
      have hchannel := hfollows.channel htemp
      have hreported := hfollows.reported
      have hhandled := hfollows.handled
      rw [hbatch] at hreported hhandled
      simp only [htemp, hbatch, hchannel] at hstep
      split_ifs at hstep with hfd
      cases hhandle : handle table item present with
      | ok u c =>
        rw [hhandle] at hstep
        cases hstep
        refine ⟨start, past ++ [item], c, [], hfollows.reachable, ?_, ?_, rfl, rfl, fun _ ↦ rfl,
          fun hturn ↦ ?_⟩
        · rwa [List.append_assoc]
        · rw [List.append_assoc, handleAll_append]
          exact (Op.bind_of_ok hhandled).trans (Op.bind_of_ok hhandle)
        · cases hturn
      | error e c =>
        rw [hhandle] at hstep
        have herror : handleAll table (past ++ item :: batch)
            (start.epollWait (past ++ item :: batch)) = .error e c := by
          rw [handleAll_append]
          exact (Op.bind_of_ok hhandled).trans (Op.bind_of_error hhandle)
        have hlooping : start.looping table (past ++ item :: batch) = c := by
          unfold looping
          rw [herror]
          rfl
        have hcaught (hdefined : e ≠ .undefinedBehaviour) : Reachable table c := by
          rw [← hlooping]
          refine .looping hfollows.reachable hreported fun c' hundefined ↦ ?_
          rw [herror] at hundefined
          cases hundefined
          exact hdefined rfl
        cases e with
        | undefinedBehaviour => cases hstep
        | outOfRange =>
          cases hstep
          exact alone_of_reachable (hcaught (by decide)) rfl rfl
        | invalidArgument =>
          cases hstep
          exact alone_of_reachable (hcaught (by decide)) rfl rfl
        | logicError =>
          cases hstep
          exact alone_of_reachable (hcaught (by decide)) rfl rfl

theorem alone_step {act : Act} (halone : w.Alone table)
    (hstep : w.step table act = some (.ok w')) : w'.Alone table := by
  cases act with
  | wait batch => exact alone_wait halone hstep
  | interrupt => exact (interrupt_ne_ok hstep).elim
  | read => exact alone_read halone hstep
  | enter memory interval => exact alone_enter halone hstep
  | rearm => exact alone_rearm halone hstep
  | serve => exact alone_serve halone hstep

end

end Worker

namespace Process

variable {n : ℕ} [NeZero n] {table : HeaderTable} {s s' : Process n}

omit [NeZero n] in
/-- What the accept thread changes does not belong to the batch. -/
theorem alone_given {w : Worker} (halone : w.Alone table) (queue : List ℕ) (counter : ℕ) :
    Worker.Alone table { w with queue := queue, counter := counter } := by
  obtain ⟨start, past, present, entered, hfollows⟩ := halone
  exact ⟨start, past, present, entered, hfollows.reachable, hfollows.reported, hfollows.handled,
    hfollows.enters, hfollows.eventfd, hfollows.turn, hfollows.atEventfd⟩

omit [NeZero n] in
theorem alone_setWorker {index : Fin n} {w : Worker}
    (halone : ∀ other, (s.workers other).Alone table) (hw : w.Alone table) (other : Fin n) :
    ((s.setWorker index w).workers other).Alone table := by
  rw [workers_setWorker]
  by_cases hindex : other = index
  · rw [hindex, Function.update_self]
    exact hw
  · rw [Function.update_of_ne hindex]
    exact halone other

theorem alone_step {act : Act n} (halone : ∀ index, (s.workers index).Alone table)
    (hstep : step table act s = some s') : ∀ index, (s'.workers index).Alone table := by
  cases touches_of_step hstep with
  | nothing hact hworkers => rwa [hworkers]
  | given hact index fds counter hworkers =>
    rw [hworkers]
    exact alone_setWorker halone (alone_given (halone _) _ _)
  | worked w hworker hworked =>
    rw [hworked]
    exact alone_setWorker halone (Worker.alone_step (halone _) hworker)
  | halted halt hhalted => rwa [hhalted]

/-- Between two batches every worker of the process is in a state that it could have reached without
the others, whatever they and the accept thread have done. -/
theorem reachable_run (table : HeaderTable) (balance : LoadBalance n) (eventfds : Fin n → ℕ)
    (schedule : List (Act n)) : Along (step table) (new balance eventfds) (fun s ↦
      ∀ index, (s.workers index).temp = none → (s.workers index).batch = [] →
        Channel.Reachable table (s.workers index).channel) schedule := by
  have hnew (index : Fin n) : ((new balance eventfds).workers index).Alone table :=
    Worker.alone_of_reachable (.new (eventfds index)) rfl rfl
  exact (along_of_invariant hnew (fun _ _ _ ↦ alone_step) schedule).imp fun s halone index ↦
    (halone index).reachable_channel

theorem reachable_run_overlapping : ∃ s,
    run (step .sample) overlapping (new Distributing.even ![5, 6]) = some s ∧
      Channel.Reachable .sample (s.workers 0).channel := by
  obtain ⟨s, hrun, -⟩ := runs_overlapping
  have hbetween : (run (step .sample) overlapping (new Distributing.even ![5, 6])).all
      (fun s ↦ (s.workers 0).temp.isNone && (s.workers 0).batch.isEmpty) = true := by
    decide +kernel
  rw [hrun, Option.all_some, Bool.and_eq_true] at hbetween
  have hreachable := (reachable_run .sample Distributing.even ![5, 6] overlapping).last hrun
  exact ⟨s, hrun, hreachable 0 (Option.isNone_iff_eq_none.mp hbetween.1)
    (List.isEmpty_iff.mp hbetween.2)⟩

end Process

end LWebServer
