import LWebServer.Library.Custody
import LWebServer.Server.Arming
import LWebServer.Server.Distribution

/-!
# The process

The accept thread and the workers share the descriptors of the process. A descriptor that
`Server_Accept` has taken is pushed into the queue of a worker, entered into its manager and its
`epoll`, and closed by this worker; then the kernel may give the number to another connection, and
this one to another worker. Every thread takes one step at a time. When the process has run out of
descriptors, `Server_Accept` takes one more connection, keeps it open without handing it on, and
closes the listening socket.
-/

namespace LWebServer

open Schedule EpollEventType

/-- Why a process has come to an end. -/
inductive Halt where
  | assertion
  | undefinedBehaviour
  /-- `epoll_wait` has answered -1, and `looping` goes on over all that its array holds; what comes
  of this is not followed further. -/
  | interrupted
  deriving DecidableEq

/-- A worker thread. `counter` is that of its `eventfd`. `batch` are the events that `looping` has
still to handle, the present one first, and `temp` is the `Temp` of the branch for the `eventfd`,
while it is at this branch. -/
structure Worker where
  channel : Channel
  queue : List ℕ
  counter : ℕ
  temp : Option ℕ
  batch : List Event

def Watch.isArmed : Watch → Bool
  | armed _ => true
  | _ => false

theorem Watch.isArmed_iff {watch : Watch} :
    watch.isArmed = true ↔ ∃ events, watch = .armed events := by
  cases watch with
  | absent => simp [isArmed]
  | disarmed => simp [isArmed]
  | armed events => simp [isArmed]

instance (batch : List Event) (c : Channel) : Decidable (Channel.Reported batch c) :=
  decidable_of_iff ((batch.map Event.fd).Nodup ∧
      batch.all fun item ↦ (c.manger.epoll item.fd).isArmed) <| by
    simp only [List.all_eq_true, Watch.isArmed_iff]
    exact ⟨fun h ↦ ⟨h.1, h.2⟩, fun h ↦ ⟨h.distinct, h.armed⟩⟩

namespace Worker

/-- A step of `looping`. -/
inductive Act where
  | wait (batch : List Event)
  /-- A signal interrupts `epoll_wait`. -/
  | interrupt
  | read
  | enter (memory : HttpRequest) (interval : ℕ)
  | rearm
  | serve

/-- The present event is that of the `eventfd`. -/
def atEventfd (w : Worker) : Bool := (w.batch.head?.map Event.fd) = some w.channel.eventfd

def setManger (g : Manger) (w : Worker) : Worker := { w with channel.manger := g }

/-- `Epoll_Wait`, which is called when a batch has been handled. -/
def wait (batch : List Event) (w : Worker) : Option (Except Halt Worker) :=
  if w.temp = none ∧ w.batch.isEmpty ∧ Channel.Reported batch w.channel then
    some (.ok { w with channel := w.channel.epollWait batch, batch := batch })
  else none

def interrupt (w : Worker) : Option (Except Halt Worker) :=
  if w.temp = none ∧ w.batch.isEmpty then some (.error .interrupted) else none

/-- `read` of the `eventfd`, which resets it. -/
def read (w : Worker) : Option (Except Halt Worker) :=
  if w.temp = none ∧ w.atEventfd then
    some (.ok { w with temp := some w.counter, counter := 0 })
  else none

/-- The body of the loop over `Temp`. A new member finds `memory` and `interval` in the memory it is
built in. An exception ends the batch. -/
def enter (memory : HttpRequest) (interval : ℕ) (w : Worker) : Option (Except Halt Worker) :=
  match w.temp with
  | some (turns + 1) => match w.queue with
    | [] => some (.error .assertion)
    | fd :: queue => match Manger.operaMember fd memory interval w.channel.manger with
      | .ok _ g => some (.ok { w.setManger g with queue := queue, temp := some turns })
      | .error .undefinedBehaviour _ => some (.error .undefinedBehaviour)
      | .error _ g => some (.ok { w.setManger g with temp := none, batch := [] })
  | _ => none

/-- `Modify` behind the loop over `Temp`. -/
def rearm (w : Worker) : Option (Except Halt Worker) :=
  if w.temp = some 0 then
    let g := w.channel.manger
    let eventfd := w.channel.eventfd
    some (.ok { w.setManger (g.setWatch eventfd ((g.epoll eventfd).modify epollCanRead)) with
      temp := none
      batch := w.batch.tail })
  else none

/-- The event of a connection is handled. An exception ends the batch. -/
def serve (table : HeaderTable) (w : Worker) : Option (Except Halt Worker) :=
  match w.temp, w.batch with
  | none, item :: batch =>
    if item.fd = w.channel.eventfd then none
    else match Channel.handle table item w.channel with
      | .ok _ channel => some (.ok { w with channel := channel, batch := batch })
      | .error .undefinedBehaviour _ => some (.error .undefinedBehaviour)
      | .error _ channel => some (.ok { w with channel := channel, batch := [] })
  | _, _ => none

def step (table : HeaderTable) : Act → Worker → Option (Except Halt Worker)
  | .wait batch => wait batch
  | .interrupt => interrupt
  | .read => read
  | .enter memory interval => enter memory interval
  | .rearm => rearm
  | .serve => serve table

/-- A worker before its first batch. -/
def new (eventfd : ℕ) : Worker where
  channel := .new eventfd
  queue := []
  counter := 0
  temp := none
  batch := []

/-- The descriptor of a connection that this worker waits for or serves. -/
def Registered (w : Worker) (fd : ℕ) : Prop :=
  fd ≠ w.channel.eventfd ∧ w.channel.manger.epoll fd ≠ .absent

/-- The descriptor has been closed between the two states. -/
def closes (w w' : Worker) (fd : ℕ) : Bool :=
  !w.channel.manger.closed fd && w'.channel.manger.closed fd

end Worker

/-- What the accept thread is at: it waits, it holds a descriptor that `accept4` has given, it has
pushed one and not yet written to the `eventfd` of the worker, or it has closed the listening socket
and may have left a connection open. -/
inductive Acceptor (n : ℕ) where
  | idle
  | holding (fd : ℕ)
  | owing (index : Fin n)
  | closed (left : Option ℕ)
  deriving DecidableEq

/-- The accept thread and its `n` workers. `files` are the connections that are open. -/
structure Process (n : ℕ) where
  workers : Fin n → Worker
  balance : LoadBalance n
  acceptor : Acceptor n
  files : ℕ → Bool
  halted : Option Halt

namespace Process

variable {n : ℕ}

/-- A step of the accept thread or of a worker. -/
inductive Act (n : ℕ) where
  /-- `accept4` gives a descriptor. -/
  | accept (fd : ℕ)
  /-- `accept4` answers `EMFILE`, and the second one gives a descriptor or none. -/
  | exhaust (left : Option ℕ)
  /-- `Distribution` picks a worker and pushes the descriptor. -/
  | push
  /-- `Distribution` writes to the `eventfd`. -/
  | write
  /-- `ExtractDataDromLockFreeQueue`, which finds these items. -/
  | extract (items : List ThreadLoadData)
  | work (index : Fin n) (act : Worker.Act)

def setWorker (index : Fin n) (w : Worker) (s : Process n) : Process n :=
  { s with workers := Function.update s.workers index w }

@[simp]
theorem workers_setWorker (index : Fin n) (w : Worker) (s : Process n) :
    (s.setWorker index w).workers = Function.update s.workers index w := rfl

/-- A worker has taken a step; the kernel takes back what it has closed. -/
def worked (index : Fin n) (w : Worker) (s : Process n) : Process n :=
  { s.setWorker index w with files := fun fd ↦ s.files fd && !(s.workers index).closes w fd }

/-- The kernel can give the number to a connection. -/
def Unused (s : Process n) (fd : ℕ) : Prop :=
  s.files fd = false ∧ ∀ index, fd ≠ (s.workers index).channel.eventfd

instance (s : Process n) (fd : ℕ) : Decidable (s.Unused fd) :=
  inferInstanceAs (Decidable (_ ∧ _))

/-- A step of the process. -/
def step [NeZero n] (table : HeaderTable) (act : Act n) (s : Process n) : Option (Process n) :=
  if s.halted.isSome then none else match act, s.acceptor with
  | .accept fd, .idle =>
    if s.Unused fd then
      some { s with files := Function.update s.files fd true, acceptor := .holding fd }
    else none
  | .exhaust none, .idle => some { s with acceptor := .closed none }
  | .exhaust (some fd), .idle =>
    if s.Unused fd then
      some { s with files := Function.update s.files fd true, acceptor := .closed (some fd) }
    else none
  | .push, .holding fd =>
    let (index, balance) := s.balance.distribution
    let w := s.workers index
    some { s.setWorker index { w with queue := w.queue ++ [fd] } with
      balance := balance
      acceptor := .owing index }
  | .write, .owing index =>
    let w := s.workers index
    some { s.setWorker index { w with counter := w.counter + 1 } with acceptor := .idle }
  | .extract items, .idle | .extract items, .closed _ =>
    (items.foldlM (fun b item ↦ LoadBalance.account item b) s.balance.beginExtract).map
      fun balance ↦ { s with balance := balance.endExtract }
  | .work index act, _ => ((s.workers index).step table act).map fun
    | .ok w => s.worked index w
    | .error halt => { s with halted := some halt }
  | _, _ => none

/-- What a step does to the workers: the accept thread gives nothing, or something to one of them,
or one of them takes a step of its own, which may be the last one. -/
inductive Touches (table : HeaderTable) (s s' : Process n) : Act n → Prop
  | nothing {act : Act n} (hact : ∀ index own, act ≠ .work index own)
      (hworkers : s'.workers = s.workers) : Touches table s s' act
  | given {act : Act n} (hact : ∀ index own, act ≠ .work index own) (index : Fin n)
      (fds : List ℕ) (counter : ℕ)
      (hworkers : s'.workers = Function.update s.workers index
        { s.workers index with queue := (s.workers index).queue ++ fds, counter := counter }) :
      Touches table s s' act
  | worked {index : Fin n} {own : Worker.Act} (w : Worker)
      (hstep : (s.workers index).step table own = some (.ok w)) (hworked : s' = s.worked index w) :
      Touches table s s' (.work index own)
  | halted {index : Fin n} {own : Worker.Act} (halt : Halt)
      (hhalted : s' = { s with halted := some halt }) : Touches table s s' (.work index own)

theorem touches_of_step [NeZero n] {table : HeaderTable} {act : Act n} {s s' : Process n}
    (hstep : step table act s = some s') : Touches table s s' act := by
  unfold step at hstep
  split_ifs at hstep with hhalted
  split at hstep
  · split_ifs at hstep
    cases hstep
    exact .nothing (by simp) rfl
  · cases hstep
    exact .nothing (by simp) rfl
  · split_ifs at hstep
    cases hstep
    exact .nothing (by simp) rfl
  · cases hstep
    exact .given (by simp) s.balance.distribution.1 _ _ rfl
  · cases hstep
    exact .given (by simp) _ [] _ (by rw [List.append_nil]; rfl)
  · obtain ⟨balance, -, rfl⟩ := Option.map_eq_some_iff.mp hstep
    exact .nothing (by simp) rfl
  · obtain ⟨balance, -, rfl⟩ := Option.map_eq_some_iff.mp hstep
    exact .nothing (by simp) rfl
  · obtain ⟨r, hworker, rfl⟩ := Option.map_eq_some_iff.mp hstep
    cases r with
    | ok w => exact .worked w hworker rfl
    | error halt => exact .halted halt rfl
  · cases hstep

/-- No connection has been accepted. -/
def new (balance : LoadBalance n) (eventfds : Fin n → ℕ) : Process n where
  workers := fun index ↦ .new (eventfds index)
  balance := balance
  acceptor := .idle
  files := fun _ ↦ false
  halted := none

/-- Where a descriptor may be; `nowhere` is that of the connection for which no number was left. -/
inductive Place (n : ℕ) where
  | acceptor
  | nowhere
  | queue (index : Fin n)
  | registered (index : Fin n)

def Holds (s : Process n) : Place n → ℕ → Prop
  | .acceptor, fd => s.acceptor = .holding fd
  | .nowhere, fd => s.acceptor = .closed (some fd)
  | .queue index, fd => fd ∈ (s.workers index).queue
  | .registered index, fd => (s.workers index).Registered fd

theorem holds_queue {s : Process n} {index : Fin n} {fd : ℕ} :
    s.Holds (.queue index) fd ↔ fd ∈ (s.workers index).queue := Iff.rfl

theorem holds_registered {s : Process n} {index : Fin n} {fd : ℕ} :
    s.Holds (.registered index) fd ↔ (s.workers index).Registered fd := Iff.rfl

end Process

/-! ## What a worker does to its descriptors -/

namespace Channel

theorem Waiting.tail {item : Event} {batch : List Event} {c : Channel}
    (hwaiting : Waiting (item :: batch) c) : Waiting batch c where
  sound := hwaiting.sound
  distinct := (List.nodup_cons.mp hwaiting.distinct).2
  stuck other hother := hwaiting.stuck other (List.mem_cons_of_mem _ hother)

theorem Waiting.nil {c : Channel} (hsound : c.manger.Sound c.eventfd) : Waiting [] c where
  sound := hsound
  distinct := List.nodup_nil
  stuck _ hitem := absurd hitem List.not_mem_nil

end Channel

namespace Worker

open Manger

/-- The events of the batch are those of open connections, which have been disarmed; and the worker
is at the branch for the `eventfd` only with such an event. -/
structure Regular (w : Worker) : Prop where
  waiting : Channel.Waiting w.batch w.channel
  turn : w.temp.isSome → w.atEventfd = true

/-- The `eventfd`, the turns of the loop and what the accept thread owes cover the queue. -/
def Covered (owed : ℕ) (w : Worker) : Prop :=
  w.queue.length = w.counter + w.temp.getD 0 + owed

/-- What a step does to the descriptors of a worker. -/
inductive Moves (w w' : Worker) : Prop where
  | keep (hqueue : w'.queue = w.queue) (hregistered : ∀ fd, w'.Registered fd ↔ w.Registered fd)
      (hcloses : ∀ fd, w.closes w' fd = false)
  | enter (fd : ℕ) (hqueue : w.queue = fd :: w'.queue) (hself : w'.Registered fd)
      (hregistered : ∀ other ≠ fd, w'.Registered other ↔ w.Registered other)
      (hcloses : ∀ fd, w.closes w' fd = false)
  | close (fd : ℕ) (hqueue : w'.queue = w.queue) (hself : w.Registered fd)
      (hgone : ¬ w'.Registered fd) (hcloses : w.closes w' fd = true)
      (hregistered : ∀ other ≠ fd, w'.Registered other ↔ w.Registered other)
      (hkeeps : ∀ other ≠ fd, w.closes w' other = false)

/-- A step that returns. -/
structure Stepped (owed : ℕ) (w w' : Worker) : Prop where
  eventfd : w'.channel.eventfd = w.channel.eventfd
  regular : w'.Regular
  covered : w'.Covered owed
  moves : Moves w w'

theorem closes_of_eq {w w' : Worker} {fd : ℕ}
    (hclosed : w'.channel.manger.closed fd = w.channel.manger.closed fd) :
    w.closes w' fd = false := by
  unfold closes
  rw [hclosed]
  exact Bool.not_and_self _

theorem registered_of_frame {w w' : Worker} {fd other : ℕ}
    (heventfd : w'.channel.eventfd = w.channel.eventfd)
    (hframe : Frame fd w.channel.manger w'.channel.manger) (hne : other ≠ fd) :
    w'.Registered other ↔ w.Registered other := by
  unfold Registered
  rw [heventfd, hframe.epoll other hne]

section

variable {table : HeaderTable} {w : Worker} {owed : ℕ}

theorem stepped_wait {batch : List Event} {r : Except Halt Worker} (hregular : w.Regular)
    (hcovered : w.Covered owed) (hstep : w.wait batch = some r) :
    ∃ w', r = .ok w' ∧ Stepped owed w w' := by
  unfold wait at hstep
  split_ifs at hstep with hready
  obtain ⟨htemp, -, hreported⟩ := hready
  cases hstep
  obtain ⟨-, hclosed, hepoll⟩ := Channel.epollWait_eq batch w.channel.manger
  refine ⟨_, rfl, rfl, ⟨?_, ?_⟩, hcovered, .keep rfl (fun fd ↦ ?_) fun fd ↦ ?_⟩
  · exact Channel.waiting_epollWait hregular.waiting.sound hreported
  · intro hturn
    rw [htemp] at hturn
    cases hturn
  · refine and_congr_right fun _ ↦ not_congr ?_
    have hepollfd := hepoll fd
    unfold Channel.epollWait
    dsimp only
    rw [hepollfd]
    split_ifs with hmem
    · obtain ⟨item, hitem, rfl⟩ := List.mem_map.mp hmem
      obtain ⟨events, harmed⟩ := hreported.armed item hitem
      simp [harmed]
    · exact Iff.rfl
  · exact closes_of_eq (congrFun hclosed fd)

theorem stepped_read {r : Except Halt Worker} (hregular : w.Regular)
    (hcovered : w.Covered owed) (hstep : w.read = some r) :
    ∃ w', r = .ok w' ∧ Stepped owed w w' := by
  unfold read at hstep
  split_ifs at hstep with hready
  obtain ⟨htemp, heventfd⟩ := hready
  cases hstep
  refine ⟨_, rfl, rfl, ⟨hregular.waiting, fun _ ↦ heventfd⟩, ?_,
    .keep rfl (fun _ ↦ Iff.rfl) fun _ ↦ closes_of_eq rfl⟩
  unfold Covered at hcovered ⊢
  rw [htemp] at hcovered
  simp only [Option.getD_none, Option.getD_some] at hcovered ⊢
  omega

/-- The assertion of the loop over `Temp` holds. -/
theorem stepped_enter {memory : HttpRequest} {interval : ℕ} {r : Except Halt Worker}
    (hregular : w.Regular) (hcovered : w.Covered owed)
    (hqueue : ∀ fd ∈ w.queue, fd ≠ w.channel.eventfd)
    (hstep : w.enter memory interval = some r) :
    r = .error .undefinedBehaviour ∨ ∃ w', r = .ok w' ∧ Stepped owed w w' := by
  unfold enter at hstep
  cases htemp : w.temp with
  | none => simp [htemp] at hstep
  | some turns =>
    cases turns with
    | zero => simp [htemp] at hstep
    | succ turns =>
      unfold Covered at hcovered
      rw [htemp, Option.getD_some] at hcovered
      cases hline : w.queue with
      | nil =>
        rw [hline, List.length_nil] at hcovered
        omega
      | cons fd queue =>
        simp only [htemp, hline] at hstep
        by_cases hclearable : Clearable fd w.channel.manger
        · obtain ⟨g, hopera, hentered⟩ := entered_operaMember ⟨fd, memory, interval⟩ hclearable
          simp only [hopera] at hstep
          cases hstep
          right
          have hkept := kept_of_entered hregular.waiting.sound hentered
          have hframe : Frame fd w.channel.manger (w.setManger g).channel.manger := hentered.frame
          refine ⟨_, rfl, rfl, ⟨⟨hkept.sound, hregular.waiting.distinct, ?_⟩, fun _ ↦ ?_⟩, ?_,
            .enter fd hline ?_ (fun other hne ↦ ?_) fun other ↦ ?_⟩
          · exact fun item hitem hne ↦ hkept.stuck _ (hregular.waiting.stuck item hitem hne)
          · apply hregular.turn
            rw [htemp]
            rfl
          · unfold Covered
            rw [hline, List.length_cons] at hcovered
            simp only [Option.getD_some, setManger]
            omega
          · refine ⟨hqueue fd (hline ▸ List.mem_cons_self), ?_⟩
            have hepoll : (w.setManger g).channel.manger.epoll fd =
              (w.channel.manger.epoll fd).add epollCanRead := hentered.epoll
            intro habsent
            have hnone := hepoll.symm.trans habsent
            cases hwatch : w.channel.manger.epoll fd <;> simp [hwatch, Watch.add] at hnone
          · exact @registered_of_frame w (w.setManger g) fd other rfl hframe hne
          · unfold closes
            by_cases hother : other = fd
            · have hopen : g.closed other = false := hother ▸ hentered.closed
              simp [setManger, hopen]
            · have hsame := hentered.frame.closed other hother
              simp [setManger, hsame]
        · obtain ⟨g, hopera⟩ := operaMember_not_clearable ⟨fd, memory, interval⟩ hclearable
          simp only [hopera] at hstep
          cases hstep
          exact .inl rfl

theorem exists_item (heventfd : w.atEventfd = true) :
    ∃ item batch, w.batch = item :: batch ∧ item.fd = w.channel.eventfd := by
  unfold atEventfd at heventfd
  cases hbatch : w.batch with
  | nil => simp [hbatch] at heventfd
  | cons item batch => exact ⟨item, batch, rfl, by simpa [hbatch] using heventfd⟩

theorem stepped_rearm {r : Except Halt Worker} (hregular : w.Regular)
    (hcovered : w.Covered owed) (hstep : w.rearm = some r) :
    ∃ w', r = .ok w' ∧ Stepped owed w w' := by
  unfold rearm at hstep
  split_ifs at hstep with htemp
  cases hstep
  obtain ⟨item, batch, hbatch, hitem⟩ :=
    exists_item (hregular.turn (by rw [htemp]; rfl))
  have hframe := frame_setWatch w.channel.eventfd w.channel.manger
    ((w.channel.manger.epoll w.channel.eventfd).modify epollCanRead)
  have hwaiting := hregular.waiting
  rw [hbatch] at hwaiting ⊢
  have htail := hwaiting.tail
  refine ⟨_, rfl, rfl, ⟨⟨?_, htail.distinct, ?_⟩, ?_⟩, ?_,
    .keep rfl (fun fd ↦ ?_) fun _ ↦ closes_of_eq rfl⟩
  · exact hframe.sound htail.sound fun hne ↦ absurd rfl hne
  · exact fun other hother hne ↦ hframe.stuck hne (htail.stuck other hother hne)
  · intro hturn
    cases hturn
  · unfold Covered at hcovered ⊢
    rw [htemp] at hcovered
    exact hcovered
  · by_cases hfd : fd = w.channel.eventfd
    · exact iff_of_false (fun h ↦ h.1 hfd) fun h ↦ h.1 hfd
    · refine and_congr_right fun _ ↦ not_congr ?_
      exact iff_of_eq (congrArg (· = Watch.absent) (hframe.epoll fd hfd))

/-- The handler of a connection closes it or keeps it registered. -/
theorem moves_handled {item : Event} {member : Member} {r : EStateM.Result Fail Manger Unit}
    {w' : Worker} (hqueue : w'.queue = w.queue)
    (heventfd : w'.channel.eventfd = w.channel.eventfd)
    (hmanger : w'.channel.manger = Op.finalState r) (hfd : item.fd ≠ w.channel.eventfd)
    (hstuck : w.channel.manger.Stuck item.fd)
    (hhandled : Handled table w.channel.eventfd item member w.channel.manger r) : Moves w w' := by
  have hframe : Frame item.fd w.channel.manger w'.channel.manger := hmanger ▸ hhandled.frame
  have hsound : w'.channel.manger.Sound w.channel.eventfd := hmanger ▸ hhandled.sound
  have hself : w.Registered item.fd := ⟨hfd, by simp [hstuck.epoll]⟩
  have hothers (other : ℕ) (hne : other ≠ item.fd) : w'.Registered other ↔ w.Registered other :=
    registered_of_frame heventfd hframe hne
  have hkeeps (other : ℕ) (hne : other ≠ item.fd) : w.closes w' other = false :=
    closes_of_eq (hframe.closed other hne)
  cases hclosed : w'.channel.manger.closed item.fd with
  | true =>
    refine .close item.fd hqueue hself (fun hthere ↦ ?_) ?_ hothers hkeeps
    · have hopen := (hsound item.fd hfd hthere.2).2
      rw [hclosed] at hopen
      cases hopen
    · simp [closes, hclosed, hstuck.closed]
  | false =>
    have hthere : w'.channel.manger.epoll item.fd ≠ .absent := by
      by_cases hanswerable : item.Answerable table member
      · obtain ⟨g, hreturn, hattended⟩ := hhandled.attended hanswerable
        rw [hreturn] at hmanger
        rcases hattended with hgone | ⟨events, harmed⟩
        · rw [hmanger] at hclosed
          exact absurd (hclosed.symm.trans hgone) (by decide)
        · rw [hmanger]
          simp [Op.finalState, harmed]
      · have hdisarmed := (hhandled.stuck hanswerable).epoll
        rw [← hmanger] at hdisarmed
        simp [hdisarmed]
    refine .keep hqueue (fun fd ↦ ?_) fun fd ↦ ?_
    · by_cases hne : fd = item.fd
      · rw [hne]
        exact iff_of_true ⟨heventfd ▸ hfd, hthere⟩ hself
      · exact hothers fd hne
    · by_cases hne : fd = item.fd
      · rw [hne]
        simp [closes, hclosed]
      · exact hkeeps fd hne

theorem stepped_serve {r : Except Halt Worker} (hregular : w.Regular)
    (hcovered : w.Covered owed) (hstep : w.serve table = some r) :
    r = .error .undefinedBehaviour ∨ ∃ w', r = .ok w' ∧ Stepped owed w w' := by
  unfold serve at hstep
  cases htemp : w.temp with
  | some turns => simp [htemp] at hstep
  | none =>
    cases hbatch : w.batch with
    | nil => simp [htemp, hbatch] at hstep
    | cons item batch =>
      simp only [htemp, hbatch] at hstep
      split_ifs at hstep with hfd
      have hwaiting := hregular.waiting
      rw [hbatch] at hwaiting
      have hstuck := hwaiting.stuck item List.mem_cons_self hfd
      obtain ⟨member, hmember⟩ := hwaiting.member hfd
      have hhandled := handled_serve table hwaiting.sound hmember hstuck
      have hpassed := (Channel.connection_cases table hwaiting hfd hmember).1
      have hmanger := Channel.manger_onManger (Manger.serve table item) w.channel
      rw [← Channel.handle_connection table hfd] at hmanger
      have hlater (channel : Channel) (batch : List Event)
          (hwaiting : Channel.Waiting batch channel) :
          Regular ⟨channel, w.queue, w.counter, none, batch⟩ ∧
            Covered owed ⟨channel, w.queue, w.counter, none, batch⟩ := by
        unfold Covered at hcovered ⊢
        rw [htemp] at hcovered
        refine ⟨⟨hwaiting, fun hturn ↦ ?_⟩, hcovered⟩
        cases hturn
      cases hhandle : Channel.handle table item w.channel with
      | ok u c =>
        rw [hhandle] at hpassed hmanger hstep
        cases hstep
        obtain ⟨hregular', hcovered'⟩ := hlater c batch (hwaiting.next hpassed)
        exact .inr ⟨_, rfl, hpassed.eventfd, hregular', hcovered',
          moves_handled rfl hpassed.eventfd hmanger hfd hstuck hhandled⟩
      | error e c =>
        rw [hhandle] at hpassed hmanger hstep
        by_cases hdefined : e = .undefinedBehaviour
        · rw [hdefined] at hstep
          cases hstep
          exact .inl rfl
        · have hcaught : r = .ok ⟨c, w.queue, w.counter, none, []⟩ := by
            cases e with
            | undefinedBehaviour => exact absurd rfl hdefined
            | outOfRange => exact (Option.some.inj hstep).symm
            | invalidArgument => exact (Option.some.inj hstep).symm
            | logicError => exact (Option.some.inj hstep).symm
          obtain ⟨hregular', hcovered'⟩ := hlater c [] (.nil hpassed.sound)
          exact .inr ⟨_, hcaught, hpassed.eventfd, hregular', hcovered',
            moves_handled rfl hpassed.eventfd hmanger hfd hstuck hhandled⟩

theorem interrupt_ne_ok {w' : Worker} : w.interrupt ≠ some (.ok w') := by
  unfold interrupt
  split_ifs <;> simp

theorem stepped_step {act : Act} {r : Except Halt Worker} (hregular : w.Regular)
    (hcovered : w.Covered owed) (hqueue : ∀ fd ∈ w.queue, fd ≠ w.channel.eventfd)
    (hstep : w.step table act = some r) :
    (∃ halt, r = .error halt ∧ halt ≠ .assertion) ∨ ∃ w', r = .ok w' ∧ Stepped owed w w' := by
  have hundefined : r = .error .undefinedBehaviour → ∃ halt, r = .error halt ∧ halt ≠ .assertion :=
    fun hr ↦ ⟨_, hr, by decide⟩
  cases act with
  | wait batch => exact .inr (stepped_wait hregular hcovered hstep)
  | interrupt =>
    change w.interrupt = some r at hstep
    unfold interrupt at hstep
    split_ifs at hstep
    cases hstep
    exact .inl ⟨_, rfl, by decide⟩
  | read => exact .inr (stepped_read hregular hcovered hstep)
  | enter memory interval =>
    exact (stepped_enter hregular hcovered hqueue hstep).imp_left hundefined
  | rearm => exact .inr (stepped_rearm hregular hcovered hstep)
  | serve => exact (stepped_serve hregular hcovered hstep).imp_left hundefined

end

end Worker

/-! ## Runs of the process -/

namespace Process

open Custody

variable {n : ℕ}

/-- One if the accept thread has still to write to the `eventfd` of a worker. -/
def owed (s : Process n) (index : Fin n) : ℕ := if s.acceptor = .owing index then 1 else 0

/-- Every open connection is at exactly one place, in a queue once, and nothing else is at a place;
a worker handles only the connections that it has registered itself and that are still open; and the
assertion of `looping` has not failed. -/
structure Kept (s : Process n) : Prop where
  one : ∀ fd, s.files fd = true → ∃! place, s.Holds place fd
  real : ∀ place fd, s.Holds place fd → s.files fd = true
  once : ∀ index, (s.workers index).queue.Nodup
  pending : ∀ index, ∀ item ∈ (s.workers index).batch,
    item.fd = (s.workers index).channel.eventfd ∨
      (s.workers index).Registered item.fd ∧
        (s.workers index).channel.manger.closed item.fd = false ∧
        ∃ member, (s.workers index).channel.manger.fdToMember item.fd = some member
  asserts : s.halted ≠ some .assertion

/-- A state that the process reaches. -/
structure Regular (s : Process n) : Prop where
  workers : ∀ index, (s.workers index).Regular
  covered : ∀ index, (s.workers index).Covered (s.owed index)
  located : ∃ loc, Located (fun fd ↦ s.files fd = true) s.Holds loc
  once : ∀ index, (s.workers index).queue.Nodup
  apart : ∀ fd index, s.files fd = true → fd ≠ (s.workers index).channel.eventfd
  asserts : s.halted ≠ some .assertion

theorem Regular.kept {s : Process n} (hregular : s.Regular) : s.Kept where
  one fd hopen := by
    obtain ⟨loc, hlocated⟩ := hregular.located
    exact hlocated.existsUnique hopen
  real place fd hheld := by
    obtain ⟨loc, hlocated⟩ := hregular.located
    exact hlocated.there_of_holds hheld
  once := hregular.once
  pending index item hitem := by
    by_cases hfd : item.fd = (s.workers index).channel.eventfd
    · exact .inl hfd
    · have hwaiting := (hregular.workers index).waiting
      have hstuck := hwaiting.stuck item hitem hfd
      have hthere : (s.workers index).channel.manger.epoll item.fd ≠ .absent := by
        simp [hstuck.epoll]
      exact .inr ⟨⟨hfd, hthere⟩, hstuck.closed, (hwaiting.sound item.fd hfd hthere).1⟩
  asserts := hregular.asserts

theorem regular_new (balance : LoadBalance n) (eventfds : Fin n → ℕ) :
    (new balance eventfds).Regular where
  workers index := {
    waiting := .nil fun fd hevent hthere ↦ absurd (Function.update_of_ne hevent _ _) hthere
    turn := fun hturn ↦ absurd hturn Bool.false_ne_true }
  covered _ := rfl
  located := by
    refine ⟨fun _ ↦ none, fun _ ↦ iff_of_false Bool.false_ne_true Bool.false_ne_true, ?_⟩
    intro place fd
    refine iff_of_false (fun hheld ↦ ?_) (Option.some_ne_none place).symm
    cases place with
    | acceptor => cases hheld
    | nowhere => cases hheld
    | queue index => exact absurd hheld List.not_mem_nil
    | registered index => exact hheld.2 (Function.update_of_ne hheld.1 _ _)
  once _ := List.nodup_nil
  apart _ _ hopen := absurd hopen Bool.false_ne_true
  asserts := nofun

/-- The place is one of a worker. -/
def Place.Of (index : Fin n) : Place n → Prop
  | .acceptor | .nowhere => False
  | .queue other => other = index
  | .registered other => other = index

section

variable {s s' : Process n} {index : Fin n} {w : Worker}

/-- A descriptor of which neither the accept thread nor the worker has taken notice stays where it
is. -/
theorem holds_kept {fd : ℕ} (hworkers : s'.workers = Function.update s.workers index w)
    (hacceptor : (s'.acceptor = .holding fd ↔ s.acceptor = .holding fd) ∧
      (s'.acceptor = .closed (some fd) ↔ s.acceptor = .closed (some fd)))
    (hqueue : fd ∈ w.queue ↔ fd ∈ (s.workers index).queue)
    (hregistered : w.Registered fd ↔ (s.workers index).Registered fd) (place : Place n) :
    s'.Holds place fd ↔ s.Holds place fd := by
  cases place with
  | acceptor => exact hacceptor.1
  | nowhere => exact hacceptor.2
  | queue other =>
    rw [holds_queue, holds_queue, hworkers]
    by_cases hindex : other = index
    · rw [hindex, Function.update_self]
      exact hqueue
    · rw [Function.update_of_ne hindex]
  | registered other =>
    rw [holds_registered, holds_registered, hworkers]
    by_cases hindex : other = index
    · rw [hindex, Function.update_self]
      exact hregistered
    · rw [Function.update_of_ne hindex]

/-- A descriptor comes from the accept thread or a worker to this worker, or is closed by it. -/
theorem holds_moved {there : ℕ → Prop} {loc : ℕ → Option (Place n)} {fd : ℕ} {old : Place n}
    {new : Option (Place n)} (hlocated : Located there s.Holds loc)
    (hworkers : s'.workers = Function.update s.workers index w) (hold : s.Holds old fd)
    (hfrom : ∀ other ≠ index, ¬ old.Of other) (hto : ∀ place ∈ new, place.Of index)
    (hacceptor : s'.acceptor ≠ .holding fd ∧ s'.acceptor ≠ .closed (some fd))
    (hqueue : fd ∈ w.queue ↔ new = some (.queue index))
    (hregistered : w.Registered fd ↔ new = some (.registered index)) (place : Place n) :
    s'.Holds place fd ↔ new = some place := by
  have helsewhere (other : Fin n) (hne : other ≠ index) (place : Place n) (hof : place.Of other) :
      ¬ s.Holds place fd := by
    intro hheld
    rw [hlocated.eq_of_holds hheld hold] at hof
    exact hfrom other hne hof
  cases place with
  | acceptor => exact iff_of_false hacceptor.1 fun hplace ↦ hto .acceptor hplace
  | nowhere => exact iff_of_false hacceptor.2 fun hplace ↦ hto .nowhere hplace
  | queue other =>
    rw [holds_queue, hworkers]
    by_cases hindex : other = index
    · rw [hindex, Function.update_self]
      exact hqueue
    · rw [Function.update_of_ne hindex]
      exact iff_of_false (helsewhere other hindex (.queue other) rfl) fun hplace ↦
        hindex (hto (.queue other) hplace)
  | registered other =>
    rw [holds_registered, hworkers]
    by_cases hindex : other = index
    · rw [hindex, Function.update_self]
      exact hregistered
    · rw [Function.update_of_ne hindex]
      exact iff_of_false (helsewhere other hindex (.registered other) rfl) fun hplace ↦
        hindex (hto (.registered other) hplace)

/-- What a step does to one worker, to the places and to the open connections is enough. -/
theorem Regular.of_worker (hregular : s.Regular)
    (hworkers : s'.workers = Function.update s.workers index w) (hworker : w.Regular)
    (hcovered : w.Covered (s'.owed index)) (howed : ∀ other ≠ index, s'.owed other = s.owed other)
    (hlocated : ∃ loc, Located (fun fd ↦ s'.files fd = true) s'.Holds loc)
    (honce : w.queue.Nodup) (heventfd : w.channel.eventfd = (s.workers index).channel.eventfd)
    (hopen : ∀ fd, s'.files fd = true → s.files fd = true) (hhalted : s'.halted = s.halted) :
    s'.Regular := by
  refine ⟨fun other ↦ ?_, fun other ↦ ?_, hlocated, fun other ↦ ?_, fun fd other hfd ↦ ?_,
    hhalted ▸ hregular.asserts⟩
  all_goals
    rw [hworkers]
    by_cases hindex : other = index
    · rw [hindex, Function.update_self]
      first
        | exact hworker
        | exact hcovered
        | exact honce
        | exact heventfd ▸ hregular.apart fd index (hopen fd hfd)
    · rw [Function.update_of_ne hindex]
      first
        | exact hregular.workers other
        | exact howed other hindex ▸ hregular.covered other
        | exact hregular.once other
        | exact hregular.apart fd other (hopen fd hfd)

end

section

variable [NeZero n] {table : HeaderTable} {s s' : Process n}

omit [NeZero n] in
/-- A connection that comes to the accept thread. -/
theorem regular_accepted {fd : ℕ} {acceptor : Acceptor n} (hregular : s.Regular)
    (hidle : s.acceptor = .idle) (hunused : s.Unused fd)
    (hacceptor : acceptor = .holding fd ∨ acceptor = .closed (some fd)) :
    Regular { s with files := Function.update s.files fd true, acceptor := acceptor } := by
  obtain ⟨hclosed, heventfd⟩ := hunused
  obtain ⟨loc, hlocated⟩ := hregular.located
  have hnowhere := hlocated.not_holds (t := fd) (by simp [hclosed])
  have hplaces : ∃ new : Place n, ∀ place,
      Holds { s with files := Function.update s.files fd true, acceptor := acceptor } place fd ↔
        some new = some place := by
    rcases hacceptor with rfl | rfl
    · refine ⟨.acceptor, fun place ↦ ?_⟩
      cases place with
      | acceptor => exact iff_of_true rfl rfl
      | nowhere => simp [Holds]
      | queue index => exact iff_of_false (hnowhere (.queue index)) (by simp)
      | registered index => exact iff_of_false (hnowhere (.registered index)) (by simp)
    · refine ⟨.nowhere, fun place ↦ ?_⟩
      cases place with
      | acceptor => simp [Holds]
      | nowhere => exact iff_of_true rfl rfl
      | queue index => exact iff_of_false (hnowhere (.queue index)) (by simp)
      | registered index => exact iff_of_false (hnowhere (.registered index)) (by simp)
  obtain ⟨new, hplaces⟩ := hplaces
  refine ⟨hregular.workers, fun index ↦ ?_, ⟨_, hlocated.move fd (some new) ?_ hplaces ?_⟩,
    hregular.once, fun other index hopen ↦ ?_, hregular.asserts⟩
  · have hcovered := hregular.covered index
    rcases hacceptor with rfl | rfl <;> simpa [owed, hidle] using hcovered
  · simp
  · intro other hne
    refine ⟨by simp [hne], fun place ↦ ?_⟩
    cases place with
    | acceptor => rcases hacceptor with rfl | rfl <;> simp [Holds, hidle, hne.symm]
    | nowhere => rcases hacceptor with rfl | rfl <;> simp [Holds, hidle, hne.symm]
    | queue index => exact Iff.rfl
    | registered index => exact Iff.rfl
  · by_cases hne : other = fd
    · exact hne ▸ heventfd index
    · exact hregular.apart other index (by simpa [hne] using hopen)

omit [NeZero n] in
/-- The accept thread neither takes a connection nor hands one on. -/
theorem regular_apart {acceptor : Acceptor n} {balance : LoadBalance n} (hregular : s.Regular)
    (hbefore : ∀ index, s.acceptor ≠ .owing index) (hafter : ∀ index, acceptor ≠ .owing index)
    (hsame : ∀ fd, (acceptor = .holding fd ↔ s.acceptor = .holding fd) ∧
      (acceptor = .closed (some fd) ↔ s.acceptor = .closed (some fd))) :
    Regular { s with balance := balance, acceptor := acceptor } := by
  obtain ⟨loc, hlocated⟩ := hregular.located
  refine ⟨hregular.workers, fun index ↦ ?_, ⟨loc, hlocated.there, fun place fd ↦ ?_⟩,
    hregular.once, hregular.apart, hregular.asserts⟩
  · have hcovered := hregular.covered index
    simpa [owed, hbefore index, hafter index] using hcovered
  · rw [← hlocated.holds]
    cases place with
    | acceptor => exact (hsame fd).1
    | nowhere => exact (hsame fd).2
    | queue index => exact Iff.rfl
    | registered index => exact Iff.rfl

theorem regular_accept {fd : ℕ} (hregular : s.Regular)
    (hstep : step table (.accept fd) s = some s') : s'.Regular := by
  unfold step at hstep
  cases hacceptor : s.acceptor with
  | holding other => simp [hacceptor] at hstep
  | owing index => simp [hacceptor] at hstep
  | closed left => simp [hacceptor] at hstep
  | idle =>
    simp only [hacceptor] at hstep
    split_ifs at hstep with hhalted hunused
    cases hstep
    exact regular_accepted hregular hacceptor hunused (.inl rfl)

theorem regular_exhaust {left : Option ℕ} (hregular : s.Regular)
    (hstep : step table (.exhaust left) s = some s') : s'.Regular := by
  unfold step at hstep
  cases hacceptor : s.acceptor with
  | holding other => simp [hacceptor] at hstep
  | owing index => simp [hacceptor] at hstep
  | closed other => simp [hacceptor] at hstep
  | idle =>
    cases left with
    | none =>
      simp only [hacceptor] at hstep
      split_ifs at hstep with hhalted
      cases hstep
      exact regular_apart hregular (by simp [hacceptor]) (by simp) (by simp [hacceptor])
    | some fd =>
      simp only [hacceptor] at hstep
      split_ifs at hstep with hhalted hunused
      cases hstep
      exact regular_accepted hregular hacceptor hunused (.inr rfl)

theorem regular_push (hregular : s.Regular) (hstep : step table .push s = some s') :
    s'.Regular := by
  unfold step at hstep
  cases hacceptor : s.acceptor with
  | idle => simp [hacceptor] at hstep
  | owing index => simp [hacceptor] at hstep
  | closed left => simp [hacceptor] at hstep
  | holding fd =>
    simp only [hacceptor] at hstep
    split_ifs at hstep with hhalted
    generalize s.balance.distribution = picked at hstep
    obtain ⟨index, balance⟩ := picked
    cases hstep
    obtain ⟨loc, hlocated⟩ := hregular.located
    have hheld : s.Holds .acceptor fd := hacceptor
    have hfresh : fd ∉ (s.workers index).queue := by
      intro hmem
      cases hlocated.eq_of_holds hheld (holds_queue.mpr hmem)
    have hunregistered : ¬ (s.workers index).Registered fd := by
      intro hthere
      cases hlocated.eq_of_holds hheld (holds_registered.mpr hthere)
    have hworker := hregular.workers index
    have hcovered := hregular.covered index
    apply hregular.of_worker rfl
    · exact ⟨hworker.waiting, hworker.turn⟩
    · unfold Worker.Covered at hcovered ⊢
      simp only [owed, hacceptor, reduceCtorEq, if_true, if_false, List.length_append,
        List.length_singleton] at hcovered ⊢
      omega
    · intro other hne
      simp [owed, hacceptor, Ne.symm hne]
    · refine ⟨_, hlocated.move fd (some (.queue index)) ?_ ?_ fun other hne ↦ ⟨Iff.rfl, ?_⟩⟩
      · exact iff_of_true (hlocated.there_of_holds hheld) rfl
      · apply holds_moved hlocated rfl hheld
        · simp [Place.Of]
        · simp [Place.Of]
        · simp
        · simp
        · exact iff_of_false hunregistered (by simp)
      · apply holds_kept rfl
        · simp [hacceptor, hne.symm]
        · simp [hne]
        · exact Iff.rfl
    · apply List.nodup_append.mpr
      refine ⟨hregular.once index, List.nodup_singleton fd, fun a ha b hb hab ↦ ?_⟩
      rw [List.mem_singleton.mp hb] at hab
      exact hfresh (hab ▸ ha)
    · rfl
    · exact fun _ hopen ↦ hopen
    · rfl

theorem regular_write (hregular : s.Regular) (hstep : step table .write s = some s') :
    s'.Regular := by
  unfold step at hstep
  cases hacceptor : s.acceptor with
  | idle => simp [hacceptor] at hstep
  | holding fd => simp [hacceptor] at hstep
  | closed left => simp [hacceptor] at hstep
  | owing index =>
    simp only [hacceptor] at hstep
    split_ifs at hstep with hhalted
    cases hstep
    obtain ⟨loc, hlocated⟩ := hregular.located
    have hworker := hregular.workers index
    have hcovered := hregular.covered index
    apply hregular.of_worker rfl
    · exact ⟨hworker.waiting, hworker.turn⟩
    · unfold Worker.Covered at hcovered ⊢
      simp only [owed, hacceptor, reduceCtorEq, if_true, if_false] at hcovered ⊢
      omega
    · intro other hne
      simp [owed, hacceptor, Ne.symm hne]
    · refine ⟨loc, hlocated.stay (fun _ ↦ Iff.rfl) fun place fd ↦ ?_⟩
      apply holds_kept rfl
      · simp [hacceptor]
      · exact Iff.rfl
      · exact Iff.rfl
    · exact hregular.once index
    · rfl
    · exact fun _ hopen ↦ hopen
    · rfl

theorem regular_extract {items : List ThreadLoadData} (hregular : s.Regular)
    (hstep : step table (.extract items) s = some s') : s'.Regular := by
  unfold step at hstep
  cases hacceptor : s.acceptor with
  | holding fd => simp [hacceptor] at hstep
  | owing index => simp [hacceptor] at hstep
  | idle =>
    simp only [hacceptor] at hstep
    split_ifs at hstep with hhalted
    obtain ⟨balance, -, rfl⟩ := Option.map_eq_some_iff.mp hstep
    exact regular_apart hregular (by simp [hacceptor]) (by simp) (by simp [hacceptor])
  | closed left =>
    simp only [hacceptor] at hstep
    split_ifs at hstep with hhalted
    obtain ⟨balance, -, rfl⟩ := Option.map_eq_some_iff.mp hstep
    exact regular_apart hregular (by simp [hacceptor]) (by simp) (by simp [hacceptor])

omit [NeZero n] in
theorem regular_worked {index : Fin n} {w : Worker} (hregular : s.Regular)
    (hstepped : Worker.Stepped (s.owed index) (s.workers index) w) :
    (s.worked index w).Regular := by
  obtain ⟨loc, hlocated⟩ := hregular.located
  have hopen (fd : ℕ) (hfd : (s.worked index w).files fd = true) : s.files fd = true :=
    (Bool.and_eq_true_iff.mp hfd).1
  have hkept (fd : ℕ) (hcloses : (s.workers index).closes w fd = false) :
      (s.worked index w).files fd = true ↔ s.files fd = true := by
    simp [worked, setWorker, hcloses]
  have haside {fd : ℕ} {place : Place n} (hheld : s.Holds place fd) (hne : .acceptor ≠ place)
      (hne' : .nowhere ≠ place) : (s.worked index w).acceptor ≠ .holding fd ∧
        (s.worked index w).acceptor ≠ .closed (some fd) := by
    constructor
    · intro hholding
      have hthere : s.Holds .acceptor fd := hholding
      exact hne (hlocated.eq_of_holds hthere hheld)
    · intro hleft
      have hthere : s.Holds .nowhere fd := hleft
      exact hne' (hlocated.eq_of_holds hthere hheld)
  have hnodup := hregular.once index
  have hworkers : (s.worked index w).workers = Function.update s.workers index w := rfl
  apply hregular.of_worker hworkers hstepped.regular hstepped.covered (fun _ _ ↦ rfl)
  · cases hstepped.moves with
    | keep hqueue hregistered hcloses =>
      refine ⟨loc, hlocated.stay (fun fd ↦ hkept fd (hcloses fd)) fun place fd ↦ ?_⟩
      refine holds_kept hworkers ⟨Iff.rfl, Iff.rfl⟩ ?_ (hregistered fd) place
      rw [hqueue]
    | enter fd hqueue hself hregistered hcloses =>
      rw [hqueue] at hnodup
      have hheld : s.Holds (.queue index) fd := by
        rw [holds_queue, hqueue]
        exact List.mem_cons_self
      refine ⟨_, hlocated.move fd (some (.registered index)) ?_ ?_ fun other hne ↦
        ⟨hkept other (hcloses other), fun place ↦ ?_⟩⟩
      · exact iff_of_true ((hkept fd (hcloses fd)).mpr (hlocated.there_of_holds hheld)) rfl
      · apply holds_moved hlocated rfl hheld
        · exact fun other hne hof ↦ hne hof.symm
        · simp [Place.Of]
        · exact haside hheld (by simp) (by simp)
        · exact iff_of_false (List.nodup_cons.mp hnodup).1 (by simp)
        · exact iff_of_true hself rfl
      · refine holds_kept hworkers ⟨Iff.rfl, Iff.rfl⟩ ?_ (hregistered other hne) place
        rw [hqueue, List.mem_cons]
        exact (or_iff_right hne).symm
    | close fd hqueue hself hgone hcloses hregistered hkeeps =>
      have hheld : s.Holds (.registered index) fd := hself
      refine ⟨_, hlocated.move fd none ?_ ?_ fun other hne ↦
        ⟨hkept other (hkeeps other hne), fun place ↦ ?_⟩⟩
      · simp [worked, setWorker, hcloses]
      · apply holds_moved hlocated rfl hheld
        · exact fun other hne hof ↦ hne hof.symm
        · simp
        · exact haside hheld (by simp) (by simp)
        · refine iff_of_false (fun hmem ↦ ?_) (by simp)
          rw [hqueue] at hmem
          cases hlocated.eq_of_holds (holds_queue.mpr hmem) hheld
        · exact iff_of_false hgone (by simp)
      · refine holds_kept hworkers ⟨Iff.rfl, Iff.rfl⟩ ?_ (hregistered other hne) place
        rw [hqueue]
  · cases hstepped.moves with
    | keep hqueue hregistered hcloses => rwa [hqueue]
    | enter fd hqueue hself hregistered hcloses =>
      rw [hqueue] at hnodup
      exact (List.nodup_cons.mp hnodup).2
    | close fd hqueue hself hgone hcloses hregistered hkeeps => rwa [hqueue]
  · exact hstepped.eventfd
  · exact hopen
  · rfl

theorem regular_work {index : Fin n} {act : Worker.Act} (hregular : s.Regular)
    (hstep : step table (.work index act) s = some s') : s'.Regular := by
  unfold step at hstep
  split_ifs at hstep with hhalted
  obtain ⟨r, hworker, rfl⟩ := Option.map_eq_some_iff.mp hstep
  have hqueue (fd : ℕ) (hmem : fd ∈ (s.workers index).queue) :
      fd ≠ (s.workers index).channel.eventfd :=
    hregular.apart fd index (hregular.kept.real (.queue index) fd hmem)
  rcases Worker.stepped_step (hregular.workers index) (hregular.covered index) hqueue hworker with
    ⟨halt, rfl, hhalt⟩ | ⟨w, rfl, hstepped⟩
  · obtain ⟨loc, hlocated⟩ := hregular.located
    refine ⟨hregular.workers, hregular.covered, ⟨loc, hlocated.there, fun place fd ↦ ?_⟩,
      hregular.once, hregular.apart, ?_⟩
    · rw [← hlocated.holds]
      cases place <;> exact Iff.rfl
    · exact fun hasserts ↦ hhalt (Option.some.inj hasserts)
  · exact regular_worked hregular hstepped

theorem regular_step {act : Act n} (hregular : s.Regular) (hstep : step table act s = some s') :
    s'.Regular := by
  cases act with
  | accept fd => exact regular_accept hregular hstep
  | exhaust left => exact regular_exhaust hregular hstep
  | push => exact regular_push hregular hstep
  | write => exact regular_write hregular hstep
  | extract items => exact regular_extract hregular hstep
  | work index act => exact regular_work hregular hstep

/-- Along every run of the accept thread and the workers, however their steps are interleaved, each
open connection is at exactly one place, and a worker handles only what it holds. -/
theorem custody_run (table : HeaderTable) (balance : LoadBalance n) (eventfds : Fin n → ℕ)
    (schedule : List (Act n)) : Along (step table) (new balance eventfds) Kept schedule :=
  (along_of_invariant (regular_new balance eventfds) (fun _ _ _ ↦ regular_step) schedule).imp
    fun _ ↦ Regular.kept

/-- An event of the `eventfd` of the first worker. -/
def roused : Event := { Channel.segment eetCouldRead [] with fd := 5 }

/-- A connection is entered and hung up while the next one is on its way, and for the third one no
number is left. -/
def overlapping : List (Act 2) :=
  [.accept 7, .push, .write, .work 0 (.wait [roused]), .accept 8, .work 0 .read,
    .work 0 (.enter .zero 0), .push, .work 0 .rearm,
    .work 0 (.wait [Channel.segment eetRDHup []]), .work 0 .serve, .write, .exhaust (some 7),
    .extract []]

theorem runs_overlapping : ∃ s,
    run (step .sample) overlapping (new Distributing.even ![5, 6]) = some s ∧
      s.halted = none := by
  have hsome : ((run (step .sample) overlapping (new Distributing.even ![5, 6])).map
      Process.halted) = some none := by decide +kernel
  obtain ⟨s, hrun, hrunning⟩ := Option.map_eq_some_iff.mp hsome
  exact ⟨s, hrun, hrunning⟩

theorem custody_run_overlapping : ∃ s,
    run (step .sample) overlapping (new Distributing.even ![5, 6]) = some s ∧ s.Kept := by
  obtain ⟨s, hrun, -⟩ := runs_overlapping
  exact ⟨s, hrun, (custody_run .sample Distributing.even ![5, 6] overlapping).last hrun⟩

/-- The first of two workers. -/
def first : Fin 2 := ⟨0, Nat.two_pos⟩

/-- A connection is accepted and entered by the first worker. -/
def welcome : List (Act 2) :=
  [.accept 7, .push, .write, .work first (.wait [roused]), .work first .read,
    .work first (.enter .zero 0), .work first .rearm]

end

end Process

end LWebServer
