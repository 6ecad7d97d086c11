import LWebServer.Server.Member

/-!
# The connections of a worker

`Manger` keeps the members of one worker thread and tells `epoll` what to wait for. Every
registration is for one event: the kernel disarms a descriptor when it reports it.
-/

namespace LWebServer

/-- `ws::EpollEventType`, a mask of the bits of `epoll`. -/
abbrev EpollEventType := UInt32

namespace EpollEventType

def eetCouldRead : EpollEventType := 0x1
def eetCouldWrite : EpollEventType := 0x4
def eetRDHup : EpollEventType := 0x2000
def eetOnlyOne : EpollEventType := 0x40000000
def eetEdgeTrigger : EpollEventType := 0x80000000

def epollTypeBase : EpollEventType := eetEdgeTrigger ||| eetOnlyOne ||| eetRDHup
def epollCanRead : EpollEventType := epollTypeBase ||| eetCouldRead
def epollCanWite : EpollEventType := epollTypeBase ||| eetCouldWrite

end EpollEventType

open EpollEventType

/-- What `epoll` knows of a descriptor. -/
inductive Watch where
  | absent
  | disarmed
  | armed (events : EpollEventType)
  deriving DecidableEq

/-- `EPOLL_CTL_ADD`, which fails on a descriptor that is registered already. -/
def Watch.add (events : EpollEventType) : Watch → Watch
  | absent => armed events
  | watch => watch

/-- `EPOLL_CTL_MOD`, which fails on a descriptor that is not registered. -/
def Watch.modify (events : EpollEventType) : Watch → Watch
  | absent => absent
  | _ => armed events

/-- What `JudgeToClose` decides. -/
inductive Judgement where
  | updateWrite | close | update
  deriving DecidableEq

/-- The branch that `JudgeToClose` takes. -/
def Member.judge (m : Member) : Judgement :=
  if m.writeComplete = false then .updateWrite
  else if m.closeAble then .close
  else .update

/-- `ws::Manger` with its `epoll`, and the descriptors that have been closed. -/
structure Manger where
  fdToMember : ℕ → Option Member
  epoll : ℕ → Watch
  closed : ℕ → Bool

namespace Manger

/-- No member, nothing registered. -/
def new : Manger where
  fdToMember := fun _ ↦ none
  epoll := fun _ ↦ .absent
  closed := fun _ ↦ false

def setMember (fd : ℕ) (member : Member) (g : Manger) : Manger :=
  { g with fdToMember := Function.update g.fdToMember fd (some member) }

def setWatch (fd : ℕ) (watch : Watch) (g : Manger) : Manger :=
  { g with epoll := Function.update g.epoll fd watch }

/-- `Exist`: the member of a descriptor, or the exception of a caller that finds none. -/
def withMember {α : Type} (fd : ℕ) (f : Member → Op Manger α) : Op Manger α := fun g ↦
  match g.fdToMember fd with
  | some member => f member g
  | none => .error .invalidArgument g

/-- A call of a member. -/
def onMember (fd : ℕ) (f : Op Member Unit) : Op Manger Unit := withMember fd fun member g ↦
  match f member with
  | .ok _ member => .ok () (g.setMember fd member)
  | .error e member => .error e (g.setMember fd member)

/-- Deregister and close: `_Epoll_.Remove` and `InitiativeClose`. -/
def shut (fd : ℕ) (member : Member) (g : Manger) : Manger :=
  { (g.setWatch fd .absent).setMember fd member.initiativeClose with
    closed := Function.update g.closed fd true }

/-- `Remove` -/
def remove (fd : ℕ) : Op Manger Unit := withMember fd fun member g ↦ .ok () (g.shut fd member)

/-- `Update` -/
def update (fd : ℕ) : Op Manger Unit := withMember fd fun _ g ↦
  .ok () (g.setWatch fd ((g.epoll fd).modify epollCanRead))

/-- `UpdateWrite` -/
def updateWrite (fd : ℕ) : Op Manger Unit := withMember fd fun _ g ↦
  .ok () (g.setWatch fd ((g.epoll fd).modify epollCanWite))

/-- `JudgeToClose`, which closes as `Remove` does. -/
def judgeToClose (fd : ℕ) : Op Manger Unit := withMember fd fun member ↦
  match member.judge with
  | .updateWrite => updateWrite fd
  | .close => remove fd
  | .update => update fd

/-- `Reading` -/
def reading (table : HeaderTable) (a : Arrival) (fd : ℕ) : Op Manger Unit :=
  onMember fd (Member.doRead table a)

/-- `Writing` -/
def writing (accepts : List Accept) (fd : ℕ) : Op Manger Unit :=
  onMember fd (Member.doWrite accepts)

/-- `Opera_Member(int, ...)` for a descriptor that has been accepted: a new member, or the one
that had the descriptor before, cleared. `memory` and `interval` are what a new member finds in
the memory it is built in. -/
def operaMember (fd : ℕ) (memory : HttpRequest) (interval : ℕ) : Op Manger Unit := fun g ↦
  let g := { g with closed := Function.update g.closed fd false }
  let entered : EStateM.Result Fail Manger Unit := match g.fdToMember fd with
    | none => .ok () (g.setMember fd (.new fd memory interval))
    | some _ => onMember fd Member.clear g
  match entered with
  | .ok _ g => .ok () (g.setWatch fd ((g.epoll fd).add epollCanRead))
  | .error e g => .error e g

end Manger

end LWebServer
