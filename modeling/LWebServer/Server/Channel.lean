import LWebServer.Server.Manger

/-!
# The loop of a worker

`looping` takes batches of events from `epoll` and handles them one by one. An exception that a
handler throws is caught outside the loop over the batch.
-/

namespace LWebServer

open EpollEventType

/-- A descriptor that waits in the queue of a worker, with the memory its member may be built
in. -/
structure Accepted where
  fd : ℕ
  memory : HttpRequest
  interval : ℕ

/-- One event of a batch. For a connection, `arrival` is what its handler meets; for the `eventfd`,
`accepted` are the descriptors at the front of the queue, as many as have been counted. -/
structure Event where
  fd : ℕ
  events : EpollEventType
  arrival : Arrival
  accepted : List Accepted

/-- `EpollEvent::check` -/
def Event.check (item : Event) (type : EpollEventType) : Bool := item.events &&& type ≠ 0

/-- A worker: its manager and the descriptor that wakes it. -/
structure Channel where
  manger : Manger
  eventfd : ℕ

namespace Channel

/-- An operation of the manager. -/
def onManger (f : Op Manger Unit) : Op Channel Unit := fun c ↦
  match f c.manger with
  | .ok _ g => .ok () { c with manger := g }
  | .error e g => .error e { c with manger := g }

/-- The members for the descriptors in the queue. -/
def enter : List Accepted → Op Manger Unit
  | [] => pure ()
  | one :: rest => do
    Manger.operaMember one.fd one.memory one.interval
    enter rest

/-- The body of the loop over a batch. -/
def handle (table : HeaderTable) (item : Event) : Op Channel Unit := fun c ↦
  onManger (
    if item.fd = c.eventfd then do
      enter item.accepted
      modify fun g ↦ g.setWatch c.eventfd ((g.epoll c.eventfd).modify epollCanRead)
    else if item.check eetRDHup then Manger.remove item.fd
    else if item.check eetCouldRead then do
      Manger.reading table item.arrival item.fd
      Manger.judgeToClose item.fd
    else if item.check eetCouldWrite then do
      Manger.writing item.arrival.accepts item.fd
      Manger.judgeToClose item.fd
    else pure ()) c

/-- The loop over a batch. -/
def handleAll (table : HeaderTable) : List Event → Op Channel Unit
  | [] => pure ()
  | item :: batch => do
    handle table item
    handleAll table batch

/-- `Epoll_Wait`: the kernel disarms what it reports. -/
def epollWait (batch : List Event) (c : Channel) : Channel :=
  { c with manger := batch.foldl (fun g item ↦ g.setWatch item.fd .disarmed) c.manger }

/-- One turn of the inner loop of `looping`. After an exception the outer loop goes on with the
next batch. -/
def looping (table : HeaderTable) (batch : List Event) (c : Channel) : Channel :=
  Op.finalState (handleAll table batch (c.epollWait batch))

/-- A worker before its first batch. -/
def new (eventfd : ℕ) : Channel where
  manger := Manger.new.setWatch eventfd (.armed epollCanRead)
  eventfd := eventfd

end Channel

end LWebServer
