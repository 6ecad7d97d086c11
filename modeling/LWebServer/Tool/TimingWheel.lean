import LWebServer.Tool.UserBuffer
import Mathlib.Logic.Function.Basic

/-!
# The timing wheel

`TimerWheel` keeps its timers in lists: 256 for the ticks that come next, and four coarser wheels
of 64. `mp` maps a descriptor to the iterator of its node. A node is known by a number, which
stands for its address; an iterator is the number of its node.
-/

namespace LWebServer

/-- `TimerWheel::timernode`. `timeWheel` is not set by the constructor. -/
structure TimerNode (F : Type) where
  node : ℕ
  timeSolt : ℕ
  timeWheel : Option ℕ
  fd : ℤ
  expire : ℕ
  f : F

/-- `ws::TimerWheel`, and the number that the next node gets. -/
structure TimerWheel (F : Type) where
  mp : ℤ → Option ℕ
  currenttime : ℕ
  tvroot : ℕ → List (TimerNode F)
  tv : ℕ → ℕ → List (TimerNode F)
  fresh : ℕ

namespace TimerWheel

variable {F : Type}

def tvrBits : ℕ := 8
def tvrSize : ℕ := 1 <<< tvrBits
def tvnBits : ℕ := 6
def tvnSize : ℕ := 1 <<< tvnBits
def tvrMask : ℕ := tvrSize - 1
def tvnMask : ℕ := tvnSize - 1

/-- `FIRST_INDEX` -/
def firstIndex (v : ℕ) : ℕ := v &&& tvrMask

/-- `NTH_INDEX`. Of an `int` the macro takes the same bits as of the `uint32_t`. -/
def nthIndex (v n : ℕ) : ℕ := (v >>> (tvrBits + n * tvnBits)) &&& tvnMask

def new : TimerWheel F where
  mp := fun _ ↦ none
  currenttime := 0
  tvroot := fun _ ↦ []
  tv := fun _ _ ↦ []
  fresh := 0

/-- `tvroot[index].emplace_back(ptr); mp[fd] = --tvroot[index].end();` -/
def pushRoot (index : ℕ) (ptr : TimerNode F) (w : TimerWheel F) : TimerWheel F :=
  { w with
    tvroot := Function.update w.tvroot index (w.tvroot index ++ [ptr])
    mp := Function.update w.mp ptr.fd (some ptr.node) }

/-- The same for `tv[level][index]`. -/
def pushLevel (level index : ℕ) (ptr : TimerNode F) (w : TimerWheel F) : TimerWheel F :=
  { w with
    tv := Function.update w.tv level
      (Function.update (w.tv level) index (w.tv level index ++ [ptr]))
    mp := Function.update w.mp ptr.fd (some ptr.node) }

/-- The loop over the coarser wheels, from `level` on. `ptr` has been moved from when its wheel is
set. -/
def addLevel (idx ex : ℕ) (ptr : TimerNode F) : ℕ → ℕ → Op (TimerWheel F) Unit
  | 0, _ => pure ()
  | count + 1, level => fun w ↦
    if idx < 1 <<< (tvrBits + (level + 1) * tvnBits) then
      .error .undefinedBehaviour (w.pushLevel level (nthIndex ex level) ptr)
    else addLevel idx ex ptr count (level + 1) w

/-- `_TW_Add_`; `ex` is given as the `uint32_t` that it is cast to. -/
def twAddAt (fd : ℤ) (ex : ℕ) (para : F) : Op (TimerWheel F) Unit := fun w ↦
  if w.mp fd ≠ none then .error .invalidArgument w
  else
    let idx := (ex + 2 ^ 32 - w.currenttime) % 2 ^ 32
    let ptr : TimerNode F :=
      { node := w.fresh, timeSolt := firstIndex ex, timeWheel := none, fd := fd, expire := ex
        f := para }
    let w := { w with fresh := w.fresh + 1 }
    if idx < tvrSize then
      .ok () (w.pushRoot (firstIndex ex) { ptr with timeWheel := some 0 })
    else addLevel idx ex ptr 4 0 w

/-- `TW_Add` -/
def twAdd (fd : ℤ) (fn : F) (ticks : ℤ) : Op (TimerWheel F) Unit := fun w ↦
  if ticks < 0 then .error .invalidArgument w
  else twAddAt fd ((w.currenttime + ticks.toNat) % 2 ^ 32) fn w

/-- The loop over a list of a coarser wheel. -/
def cascadeList : List (TimerNode F) → Op (TimerWheel F) Unit
  | [] => pure ()
  | x :: rest => do
    let w ← get
    twAdd x.fd x.f (((w.currenttime : ℤ) - x.expire).bmod (2 ^ 32))
    cascadeList rest

/-- The `do` loop of `TW_Tick`, from `level` on. -/
def cascade : ℕ → ℕ → Op (TimerWheel F) Unit
  | 0, _ => pure ()
  | count + 1, level => do
    let w ← get
    let idx := nthIndex w.currenttime level
    cascadeList (w.tv level idx)
    modify fun w ↦ { w with tv := Function.update w.tv level (Function.update (w.tv level) idx []) }
    if idx = 0 then cascade count (level + 1)

/-- `TW_Tick` up to its loop over the timers that have expired. -/
def advance : Op (TimerWheel F) Unit := do
  modify fun w ↦ { w with currenttime := (w.currenttime + 1) % 2 ^ 32 }
  let w ← get
  if w.currenttime &&& tvrMask = 0 then cascade 4 0

/-- An operation of a wheel that is part of a larger state. -/
def within {σ α : Type} (f : Op (TimerWheel F) α) : Op (TimerWheel F × σ) α := fun s ↦
  match f s.1 with
  | .ok a w => .ok a (w, s.2)
  | .error e w => .error e (w, s.2)

section

variable {σ : Type} (call : F → ℤ → Op (TimerWheel F × σ) Unit)

/-- The loop over the timers that have expired. -/
def expireAll : List (TimerNode F) → Op (TimerWheel F × σ) Unit
  | [] => pure ()
  | x :: rest => do
    call x.f x.fd
    expireAll rest

/-- `TW_Tick`, where `call` runs a callback. -/
def twTick : Op (TimerWheel F × σ) Unit := do
  within advance
  let s ← get
  let index := s.1.currenttime &&& tvrMask
  expireAll call (s.1.tvroot index)
  modify fun s ↦ ({ s.1 with tvroot := Function.update s.1.tvroot index [] }, s.2)

end

/-! ## Updating -/

/-- The lists of the wheel in one. -/
def nodes (w : TimerWheel F) : List (TimerNode F) :=
  (List.range tvrSize).flatMap w.tvroot ++
    (List.range 4).flatMap fun level ↦ (List.range tvnSize).flatMap (w.tv level)

/-- `*mp[fd]`: an iterator whose node is gone, or one that `mp` has just made up, does not refer to
anything. -/
def deref (fd : ℤ) (w : TimerWheel F) : Option (TimerNode F) :=
  (w.mp fd).bind fun node ↦ w.nodes.find? fun x ↦ x.node = node

/-- `TW_Update`. Erasing a node from a list that it is not in is undefined. -/
def twUpdate (fd : ℤ) : Op (TimerWheel F) Unit := fun w ↦
  match w.deref fd with
  | none => .error .undefinedBehaviour w
  | some para =>
    match twAdd fd para.f 2 w with
    | .error e w => .error e w
    | .ok _ w =>
      match w.deref fd with
      | none => .error .undefinedBehaviour w
      | some x =>
        match x.timeSolt, x.timeWheel with
        | 0, some wheel =>
          if (w.tvroot wheel).any (·.node = x.node) then
            .ok () { w with
              tvroot := Function.update w.tvroot wheel ((w.tvroot wheel).filter (·.node ≠ x.node)) }
          else .error .undefinedBehaviour w
        | solt + 1, some wheel =>
          if (w.tv solt wheel).any (·.node = x.node) then
            .ok () { w with tv := Function.update w.tv solt (Function.update (w.tv solt) wheel
              ((w.tv solt wheel).filter (·.node ≠ x.node))) }
          else .error .undefinedBehaviour w
        | _, none => .error .undefinedBehaviour w

end TimerWheel

end LWebServer
