import LWebServer.Library.Chain
import LWebServer.Library.Schedule
import Mathlib.Algebra.Group.Int.Defs
import Mathlib.Algebra.Group.Nat.Defs

/-!
# The lock-free queue

`LockFreeQueue` is a list of nodes between `head_` and `tail_`; the node at `head_` is a dummy.
Every load, every check and every compare-and-swap of `push` and `pop` is one step, and the steps of
any number of calls come in any order. The address of a node is never used again, and a node that
has been deleted can still be read.
-/

namespace LWebServer

variable {ι T : Type}

/-- Where a thread is in a call of `pop` or `push`, with the local variables that it will still
use. -/
inductive QueueCall (T : Type) where
  /-- It has not called anything, or a call of `push` has returned. -/
  | idle
  /-- A call of `pop` has returned; there is no item if it has returned `false`. -/
  | popped (item : Option T)
  /-- `old_head = head_` -/
  | popHead
  /-- `old_tail = tail_` -/
  | popTail (oldHead : ℕ)
  /-- `first_node = old_head->next_` -/
  | popNext (oldHead oldTail : ℕ)
  /-- `old_head != head_`, and the comparison with `old_tail` and `nullptr` -/
  | popCheck (oldHead oldTail : ℕ) (firstNode : Option ℕ)
  /-- The swap of `tail_` -/
  | popHelp (oldTail firstNode : ℕ)
  /-- `data = first_node->data_` -/
  | popData (oldHead : ℕ) (firstNode : Option ℕ)
  /-- The swap of `head_` -/
  | popSwap (oldHead firstNode : ℕ) (data : T)
  /-- `delete old_head` -/
  | popDelete (oldHead : ℕ) (data : T)
  /-- `count--` -/
  | popCount (data : T)
  /-- `pop` has gone through a null pointer. -/
  | undefined
  /-- `new Node(data)` -/
  | pushNew (data : T)
  /-- `old_tail = tail_` -/
  | pushTail (enqueueNode : ℕ)
  /-- `old_tail_next = old_tail->next_` -/
  | pushNext (enqueueNode oldTail : ℕ)
  /-- `old_tail != tail_`, and the comparison with `nullptr` -/
  | pushCheck (enqueueNode oldTail : ℕ) (oldTailNext : Option ℕ)
  /-- The swap of `old_tail->next_` -/
  | pushLink (enqueueNode oldTail : ℕ)
  /-- The swap of `tail_` by a call that has not linked its node -/
  | pushHelp (enqueueNode oldTail oldTailNext : ℕ)
  /-- The swap of `tail_` by a call that has linked its node -/
  | pushSwing (enqueueNode oldTail : ℕ)
  /-- `count++` -/
  | pushCount

namespace QueueCall

/-- A thread that can make a call. -/
def Over : QueueCall T → Prop
  | idle => True
  | popped _ => True
  | _ => False

instance (call : QueueCall T) : Decidable call.Over := by
  cases call <;> unfold Over <;> infer_instance

/-- A call of `pop` that has not returned. -/
def InPop : QueueCall T → Prop
  | popHead => True
  | popTail _ => True
  | popNext _ _ => True
  | popCheck _ _ _ => True
  | popHelp _ _ => True
  | popData _ _ => True
  | popSwap _ _ _ => True
  | popDelete _ _ => True
  | popCount _ => True
  | _ => False

/-- The node of a call of `push` that has not been linked. -/
def node : QueueCall T → Option ℕ
  | pushTail enqueueNode => some enqueueNode
  | pushNext enqueueNode _ => some enqueueNode
  | pushCheck enqueueNode _ _ => some enqueueNode
  | pushLink enqueueNode _ => some enqueueNode
  | pushHelp enqueueNode _ _ => some enqueueNode
  | _ => none

end QueueCall

/-- `ws::LockFreeQueue` with its nodes and the threads that use it. Nodes are numbered in the order
in which they are built, from zero. `pushed` and `popped` are the items in the order in which their
nodes have been linked by the swap of `next_` and unlinked by the swap of `head_`. -/
structure LockFreeQueue (ι T : Type) where
  data : ℕ → T
  next : ℕ → Option ℕ
  built : ℕ
  deleted : List ℕ
  head : ℕ
  tail : ℕ
  count : ℤ
  calls : ι → QueueCall T
  pushed : List T
  popped : List T

namespace LockFreeQueue

/-- A value of an `int`. -/
def toInt (count : ℤ) : ℤ := Int.bmod count (2 ^ 32)

/-- An `int` as a `size_t`, which is what `size` returns. -/
def toSize (count : ℤ) : ℕ := (count % 2 ^ 64).toNat

/-- A thread calls `push` or `pop`, or takes the next step of its call. -/
inductive Act (ι T : Type) where
  | push (thread : ι) (data : T)
  | pop (thread : ι)
  | step (thread : ι)

/-- A queue that has just been built. -/
def new [Inhabited T] : LockFreeQueue ι T where
  data := fun _ ↦ default
  next := fun _ ↦ none
  built := 1
  deleted := []
  head := 0
  tail := 0
  count := 0
  calls := fun _ ↦ .idle
  pushed := []
  popped := []

variable [DecidableEq ι]

/-- A thread goes on to another step. -/
def go (thread : ι) (call : QueueCall T) (s : LockFreeQueue ι T) : LockFreeQueue ι T :=
  { s with calls := Function.update s.calls thread call }

/-- `__sync_bool_compare_and_swap` on `tail_`, of which the result is not used. -/
def swapTail (expected new : ℕ) (s : LockFreeQueue ι T) : LockFreeQueue ι T :=
  { s with tail := if s.tail = expected then new else s.tail }

/-- The swap of `head_` that unlinks a node. -/
def unlink (firstNode : ℕ) (item : T) (s : LockFreeQueue ι T) : LockFreeQueue ι T :=
  { s with head := firstNode, popped := s.popped ++ [item] }

/-- The swap of `next_` that links a node. -/
def link (enqueueNode oldTail : ℕ) (s : LockFreeQueue ι T) : LockFreeQueue ι T :=
  { s with
    next := Function.update s.next oldTail (some enqueueNode)
    pushed := s.pushed ++ [s.data enqueueNode] }

/-- `new Node(data)` -/
def build (item : T) (s : LockFreeQueue ι T) : LockFreeQueue ι T :=
  { s with
    data := Function.update s.data s.built item
    next := Function.update s.next s.built none
    built := s.built + 1 }

/-- The next step of the call of a thread. -/
def advance (thread : ι) (s : LockFreeQueue ι T) : Option (LockFreeQueue ι T) :=
  match s.calls thread with
  | .idle => none
  | .popped _ => none
  | .undefined => none
  | .popHead => some (s.go thread (.popTail s.head))
  | .popTail oldHead => some (s.go thread (.popNext oldHead s.tail))
  | .popNext oldHead oldTail => some (s.go thread (.popCheck oldHead oldTail (s.next oldHead)))
  | .popCheck oldHead oldTail firstNode =>
    if oldHead ≠ s.head then some (s.go thread .popHead)
    else if oldHead = oldTail then
      match firstNode with
      | none => some (s.go thread (.popped none))
      | some firstNode => some (s.go thread (.popHelp oldTail firstNode))
    else some (s.go thread (.popData oldHead firstNode))
  | .popHelp oldTail firstNode => some ((s.swapTail oldTail firstNode).go thread .popHead)
  | .popData oldHead firstNode =>
    match firstNode with
    | none => some (s.go thread .undefined)
    | some firstNode => some (s.go thread (.popSwap oldHead firstNode (s.data firstNode)))
  | .popSwap oldHead firstNode data =>
    if s.head = oldHead then some ((s.unlink firstNode data).go thread (.popDelete oldHead data))
    else some (s.go thread .popHead)
  | .popDelete oldHead data =>
    some ({ s with deleted := oldHead :: s.deleted }.go thread (.popCount data))
  | .popCount data =>
    some ({ s with count := toInt (s.count - 1) }.go thread (.popped (some data)))
  | .pushNew data => some ((s.build data).go thread (.pushTail s.built))
  | .pushTail enqueueNode => some (s.go thread (.pushNext enqueueNode s.tail))
  | .pushNext enqueueNode oldTail =>
    some (s.go thread (.pushCheck enqueueNode oldTail (s.next oldTail)))
  | .pushCheck enqueueNode oldTail oldTailNext =>
    if oldTail ≠ s.tail then some (s.go thread (.pushTail enqueueNode))
    else
      match oldTailNext with
      | none => some (s.go thread (.pushLink enqueueNode oldTail))
      | some oldTailNext => some (s.go thread (.pushHelp enqueueNode oldTail oldTailNext))
  | .pushLink enqueueNode oldTail =>
    if s.next oldTail = none then
      some ((s.link enqueueNode oldTail).go thread (.pushSwing enqueueNode oldTail))
    else some (s.go thread (.pushTail enqueueNode))
  | .pushHelp enqueueNode oldTail oldTailNext =>
    some ((s.swapTail oldTail oldTailNext).go thread (.pushTail enqueueNode))
  | .pushSwing enqueueNode oldTail =>
    some ((s.swapTail oldTail enqueueNode).go thread .pushCount)
  | .pushCount => some ({ s with count := toInt (s.count + 1) }.go thread .idle)

def step : Act ι T → LockFreeQueue ι T → Option (LockFreeQueue ι T)
  | .push thread data, s =>
    if (s.calls thread).Over then some (s.go thread (.pushNew data)) else none
  | .pop thread, s => if (s.calls thread).Over then some (s.go thread .popHead) else none
  | .step thread, s => s.advance thread

end LockFreeQueue

end LWebServer
