import LWebServer.Tool.TimerIndex

/-!
# Where timers are placed

`_TW_Add_` chooses the list of a timer by its expiry. `TW_Update` sets a pending timer again and
goes through `TW_Add`, which refuses a descriptor that `mp` has.
-/

namespace LWebServer.TimerWheel

variable {F : Type} {w : TimerWheel F}

/-- A list of the wheel. -/
inductive Place where
  | root (index : ℕ)
  | level (level index : ℕ)
  deriving DecidableEq, Repr

/-- The list at a place. -/
def listAt (w : TimerWheel F) : Place → List (TimerNode F)
  | .root index => w.tvroot index
  | .level level index => w.tv level index

/-- How many ticks there are to a time. -/
def distance (now ex : ℕ) : ℕ := (ex + 2 ^ 32 - now) % 2 ^ 32

/-- The place that `_TW_Add_` chooses for an expiry. -/
def place (now ex : ℕ) : Place :=
  if distance now ex < tvrSize then .root (firstIndex ex)
  else if distance now ex < 1 <<< (tvrBits + 1 * tvnBits) then .level 0 (nthIndex ex 0)
  else if distance now ex < 1 <<< (tvrBits + 2 * tvnBits) then .level 1 (nthIndex ex 1)
  else if distance now ex < 1 <<< (tvrBits + 3 * tvnBits) then .level 2 (nthIndex ex 2)
  else .level 3 (nthIndex ex 3)

/-! ## Setting a timer again -/

/-- Each node lies in the list that its expiry calls for, and `mp` has an iterator to it. -/
structure Indexes (w : TimerWheel F) : Prop where
  placed : ∀ p, ∀ x ∈ w.listAt p, place w.currenttime x.expire = p
  distinct : (w.nodes.map TimerNode.node).Nodup
  mp : ∀ x ∈ w.nodes, w.mp x.fd = some x.node

/-- `TW_Update` returns, the descriptor has one node, with the callback that it had and two ticks to
go, and the nodes of other descriptors are where they were. -/
def Refreshes (fd : ℤ) (w : TimerWheel F) : Prop :=
  ∃ x w', w.nodesOf fd = [x] ∧ twUpdate fd w = .ok () w' ∧
    (∃ y, w'.nodesOf fd = [y] ∧ y.f = x.f ∧ y.expire = (w.currenttime + 2) % 2 ^ 32) ∧
    ∀ p, (w'.listAt p).filter (·.fd ≠ fd) = (w.listAt p).filter (·.fd ≠ fd)

theorem deref_of_mem (hdistinct : (w.nodes.map TimerNode.node).Nodup) {x : TimerNode F}
    (hx : x ∈ w.nodes) (hmp : w.mp x.fd = some x.node) : w.deref x.fd = some x := by
  unfold deref
  rw [hmp, Option.bind_some]
  cases hfind : w.nodes.find? fun y ↦ y.node = x.node with
  | none => exact absurd (decide_eq_true rfl) (List.find?_eq_none.mp hfind x hx)
  | some y =>
    have hnode := List.find?_some hfind
    exact congrArg some (List.inj_on_of_nodup_map hdistinct (List.mem_of_find?_eq_some hfind) hx
      (of_decide_eq_true hnode))

/-- `TW_Update` throws, because it adds the timer while `mp` still has the descriptor. -/
theorem not_refreshes (hindexes : Indexes w) {x : TimerNode F} (hx : x ∈ w.nodes) :
    twUpdate x.fd w = .error .invalidArgument w ∧ ¬ Refreshes x.fd w := by
  have hmp := hindexes.mp x hx
  have hthrows : twUpdate x.fd w = .error .invalidArgument w := by
    have hadd : twAdd x.fd x.f 2 w = .error .invalidArgument w :=
      twAdd_used (by rw [hmp]; exact Option.some_ne_none _) x.f 2
    unfold twUpdate
    rw [deref_of_mem hindexes.distinct hx hmp]
    simp only [hadd]
  refine ⟨hthrows, fun ⟨_, _, _, hok, _⟩ ↦ ?_⟩
  rw [hthrows] at hok
  cases hok

/-- One timer that is due in two ticks. -/
def pending : TimerWheel Unit := new.pushRoot 2 ⟨0, 2, some 0, 1, 2, ()⟩

theorem nodes_pending : pending.nodes = [⟨0, 2, some 0, 1, 2, ()⟩] := by
  have hmem : 2 ∈ List.range 256 := List.mem_range.mpr (by decide)
  have hperm := flatMap_update_perm List.nodup_range hmem (fun _ ↦ ([] : List (TimerNode Unit)))
    [⟨0, 2, some 0, 1, 2, ()⟩]
  have hempty : Function.update (fun _ ↦ ([] : List (TimerNode Unit))) 2 [] = fun _ ↦ [] :=
    Function.update_eq_self 2 _
  have hrest : (List.range 256).flatMap (fun _ ↦ ([] : List (TimerNode Unit))) = [] :=
    List.flatMap_eq_nil_iff.mpr fun _ _ ↦ rfl
  rw [hempty, hrest] at hperm
  rw [nodes_eq fun _ _ ↦ rfl]
  exact List.perm_singleton.mp hperm

theorem indexes_pending : Indexes pending where
  placed p x hx := by
    cases p with
    | level level index => cases hx
    | root index =>
      by_cases hindex : index = 2
      · subst hindex
        obtain rfl := List.mem_singleton.mp hx
        decide
      · change x ∈ Function.update (fun _ ↦ []) 2 _ index at hx
        rw [Function.update_of_ne hindex] at hx
        cases hx
  distinct := by
    rw [nodes_pending]
    decide
  mp x hx := by
    rw [nodes_pending] at hx
    obtain rfl := List.mem_singleton.mp hx
    rfl

theorem not_refreshes_one :
    twUpdate 1 pending = .error .invalidArgument pending ∧ ¬ Refreshes 1 pending :=
  not_refreshes indexes_pending (nodes_pending ▸ List.mem_singleton_self _)

/-- A timer that is set again before it fires. -/
theorem not_refreshes_pending : ¬ Refreshes 1 pending := by
  rintro ⟨x, w', -, hok, -⟩
  have hthrows : twUpdate 1 pending = .error .invalidArgument pending := by
    unfold twUpdate deref
    rw [nodes_pending]
    rfl
  rw [hthrows] at hok
  cases hok

end LWebServer.TimerWheel
