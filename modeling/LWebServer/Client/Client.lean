import LWebServer.Server.Manger
import LWebServer.Tool.TimingWheel

/-!
# The client

`Connection` tries to connect and asks for another try after a delay; `Client` puts that try into
the timing wheel, arms a `timerfd`, and lets the wheel tick once for each event of the `timerfd`.
The `timerfd` is never read, so that the kernel may report it again after `EPOLL_CTL_MOD`.
-/

namespace LWebServer

open EpollEventType

/-- `ConnectionState` -/
inductive ConnectionState where
  | kDisconnected | kConnecting | kConnected
  deriving DecidableEq

/-- What `connect` answers, by the branch that `Connection::Connect` takes. -/
inductive ConnectAnswer where
  /-- `0`, `EINPROGRESS`, `EINTR`, `EISCONN` -/
  | connecting
  /-- `EAGAIN`, `EADDRINUSE`, `EADDRNOTAVAIL`, `ECONNREFUSED`, `ENETUNREACH` -/
  | retry
  /-- any other `errno` -/
  | close
  deriving DecidableEq

/-- The one-shot `timerfd`, with the delay that it was armed with last. -/
inductive Timerfd where
  | idle
  | armed (delay : ℕ)
  /-- It has expired, and no event of this has been handled. -/
  | due (delay : ℕ)
  /-- It has expired, and an event of this has been handled. -/
  | spent
  deriving DecidableEq

/-- `ws::Connection` and what belongs to it in `ws::Client` apart from the wheel: the `timerfd`,
`Suit_TimingWheel_oneparameter`, the sockets of `Sockers_`, whether `epoll` will report the socket
that is being connected, and the arguments of the calls of `Connect` so far. -/
structure Connection where
  retryDelayMs : ℕ
  states : ConnectionState
  timerfd : Timerfd
  oneparameter : ℤ
  sockers : List ℕ
  watched : Bool
  connects : List ℤ

/-- `ws::Client`. The callbacks in the wheel are all `Connection::Connect`. -/
abbrev Client := TimerWheel Unit × Connection

namespace Client

def kMaxRetryDelayMs : ℕ := 48
def kInitRetryDelayMs : ℕ := 1

def new : Client := (.new, {
  retryDelayMs := kInitRetryDelayMs
  states := .kDisconnected
  timerfd := .idle
  oneparameter := 0
  sockers := []
  watched := false
  connects := [] })

/-- Change the connection. -/
def mapConnection (f : Connection → Connection) (c : Client) : Client := (c.1, f c.2)

/-- `ResetEventfd` -/
def resetEventfd (delay : ℕ) : Op Client Unit := do
  modify (mapConnection fun k ↦ { k with oneparameter := k.oneparameter + 1 })
  let c ← get
  TimerWheel.within (TimerWheel.twAdd c.2.oneparameter () delay)
  modify (mapConnection fun k ↦ { k with timerfd := .armed delay })

/-- `Connection::retry`, whose callback is `ResetEventfd`. -/
def retry : Op Client Unit := do
  modify (mapConnection fun k ↦ { k with states := .kDisconnected, watched := false })
  let c ← get
  if c.2.retryDelayMs ≠ kMaxRetryDelayMs then
    resetEventfd c.2.retryDelayMs
    modify (mapConnection fun k ↦
      { k with retryDelayMs := min (k.retryDelayMs * 2) kMaxRetryDelayMs })

/-- `Connection::Connect`, where `net` answers the calls of `connect` one after another. -/
def connect (net : ℕ → ConnectAnswer) (padding : ℤ) : Op Client Unit := do
  let c ← get
  modify (mapConnection fun k ↦ { k with connects := k.connects ++ [padding] })
  match net c.2.connects.length with
  | .connecting => modify (mapConnection fun k ↦ { k with states := .kConnecting, watched := true })
  | .retry => retry
  | .close => pure ()

/-- `HandleWrite`. `failed` tells whether there is an error on the socket or it is connected to
itself. -/
def handleWrite (fd : ℕ) (failed : Bool) : Op Client Unit := do
  let c ← get
  if c.2.states = .kConnecting then
    if failed then retry
    else
      modify (mapConnection fun k ↦ { k with
        states := .kConnected
        sockers := fd :: k.sockers
        retryDelayMs := kInitRetryDelayMs })

/-- `Remove`, which throws for a socket that is not connected. -/
def remove (fd : ℕ) : Op Client Unit := fun c ↦
  if fd ∈ c.2.sockers then
    .ok () (mapConnection (fun k ↦ { k with sockers := k.sockers.filter (· ≠ fd) }) c)
  else .error .logicError c

/-- `Sockers_[id]->Read(...)`, which goes through a null pointer for a socket that is not
connected. What is read is only printed. -/
def readSocker (fd : ℕ) : Op Client Unit := fun c ↦
  if fd ∈ c.2.sockers then .ok () c else .error .undefinedBehaviour c

/-- What can happen to a client while its attempts to connect fail. -/
inductive Happening where
  /-- The `timerfd` expires. -/
  | expire
  /-- `epoll` reports the `timerfd`. -/
  | timer
  /-- `epoll` reports the socket that is being connected. -/
  | socket (fd : ℕ) (events : EpollEventType)

/-- The kernel can do this. -/
def Happening.enabled (c : Client) : Happening → Bool
  | .expire => match c.2.timerfd with
    | .armed _ => true
    | _ => false
  | .timer => match c.2.timerfd with
    | .due _ => true
    | .spent => true
    | _ => false
  | .socket fd _ => c.2.watched && !c.2.sockers.contains fd

/-- The body of the loop in `Run`. -/
def handle (net : ℕ → ConnectAnswer) : Happening → Op Client Unit
  | .expire => modify (mapConnection fun k ↦ { k with timerfd := match k.timerfd with
      | .armed delay => .due delay
      | timerfd => timerfd })
  | .timer => do
    modify (mapConnection fun k ↦ { k with timerfd := .spent })
    TimerWheel.twTick (fun _ fd ↦ connect net fd)
  | .socket fd events => do
    modify (mapConnection fun k ↦ { k with watched := false })
    if events &&& eetRDHup ≠ 0 then remove fd
    else if events &&& eetCouldRead ≠ 0 then readSocker fd
    else if events &&& eetCouldWrite ≠ 0 then handleWrite fd true

end Client

end LWebServer
