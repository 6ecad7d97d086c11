import LWebServer.Tool.TimerAccuracy
import Mathlib.Data.List.Nodup
import Mathlib.Data.List.Flatten

/-!
# The index of the timers

`mp` should have a descriptor exactly while a node of it is in one of the lists. It gets an entry
with each node and never loses one.
-/

namespace LWebServer

/-- The state after a call whose behaviour is defined, whether it returned or threw. -/
def Op.reached {σ α : Type} : EStateM.Result Fail σ α → Option σ
  | .ok _ s => some s
  | .error .undefinedBehaviour _ => none
  | .error _ s => some s

/-! ## Families of lists -/

section

variable {α ι : Type} [DecidableEq ι]

/-- One list of a family, put in front of the others. -/
theorem flatMap_update_perm {indices : List ι} (hnodup : indices.Nodup) {index : ι}
    (hmem : index ∈ indices) (lists : ι → List α) (list : List α) :
    (indices.flatMap (Function.update lists index list)).Perm
      (list ++ indices.flatMap (Function.update lists index [])) := by
  induction indices with
  | nil => cases hmem
  | cons first rest ih =>
    obtain ⟨hfirst, hrest⟩ := List.nodup_cons.mp hnodup
    by_cases hsame : index = first
    · subst hsame
      have hothers : rest.flatMap (Function.update lists index list) =
          rest.flatMap (Function.update lists index []) := by
        apply List.flatMap_congr
        intro other hother
        have hne : other ≠ index := fun h ↦ hfirst (h ▸ hother)
        rw [Function.update_of_ne hne, Function.update_of_ne hne]
      simp [hothers]
    · have hlater : index ∈ rest := (List.mem_cons.mp hmem).resolve_left hsame
      have hne : first ≠ index := Ne.symm hsame
      simp only [List.flatMap_cons, Function.update_of_ne hne]
      refine ((ih hrest hlater).append_left (lists first)).trans ?_
      exact List.perm_append_comm_assoc _ _ _

end

namespace TimerWheel

variable {F : Type} {w : TimerWheel F}

/-- A call of the wheel. -/
inductive Request (F : Type) where
  | twAdd (fd : ℤ) (f : F) (ticks : Int32)
  | twUpdate (fd : ℤ)
  | twTick

/-- The callbacks do nothing to the wheel. -/
def silent (_ : F) (_ : ℤ) : Op (TimerWheel F × Unit) Unit := pure ()

def Request.run : Request F → Op (TimerWheel F) Unit
  | .twAdd fd f ticks => TimerWheel.twAdd fd f ticks.toInt
  | .twUpdate fd => TimerWheel.twUpdate fd
  | .twTick => fun w ↦ match TimerWheel.twTick silent (w, ()) with
    | .ok _ (w, _) => .ok () w
    | .error e (w, _) => .error e w

/-- A call, the state before it, and the state after it if there is one. -/
structure Step (F : Type) where
  request : Request F
  before : TimerWheel F
  after : Option (TimerWheel F)

/-- The calls of a sequence, up to one whose behaviour is undefined. -/
def history : List (Request F) → TimerWheel F → List (Step F)
  | [], _ => []
  | request :: requests, w =>
    let after := Op.reached (request.run w)
    ⟨request, w, after⟩ :: match after with
      | some w => history requests w
      | none => []

/-- The nodes of a descriptor. -/
def nodesOf (fd : ℤ) (w : TimerWheel F) : List (TimerNode F) := w.nodes.filter (·.fd = fd)

/-- A descriptor is a key exactly if it has one node, and then its iterator refers to it. -/
structure Consistent (w : TimerWheel F) : Prop where
  key : ∀ fd, w.mp fd ≠ none ↔ ∃ x, w.nodesOf fd = [x]
  refers : ∀ fd x, w.nodesOf fd = [x] → w.mp fd = some x.node

/-- A call that the index survives: no timer that goes to a coarser wheel, no update of a descriptor
without an entry, and no tick in which a timer fires. -/
def Careful (w : TimerWheel F) : Request F → Prop
  | .twAdd fd _ ticks => ticks.toInt < 0 ∨ w.mp fd ≠ none ∨ ticks.toInt < 256
  | .twUpdate fd => w.mp fd ≠ none
  | .twTick => w.tvroot (firstIndex ((w.currenttime + 1) % 2 ^ 32)) = []

/-- The coarser wheels are empty, and the index is as it should be. -/
structure Indexed (w : TimerWheel F) : Prop where
  currenttime : w.currenttime < 2 ^ 32
  tv : ∀ level index, w.tv level index = []
  present : ∀ fd node, w.mp fd = some node → ∃ x, w.nodesOf fd = [x] ∧ x.node = node
  missing : ∀ fd, w.mp fd = none → w.nodesOf fd = []

theorem Indexed.consistent (hindexed : Indexed w) : Consistent w := by
  have hentry (fd : ℤ) (x : TimerNode F) (hnodes : w.nodesOf fd = [x]) : w.mp fd = some x.node := by
    cases hmp : w.mp fd with
    | none =>
      rw [hindexed.missing fd hmp] at hnodes
      cases hnodes
    | some node =>
      obtain ⟨y, hy, hnode⟩ := hindexed.present fd node hmp
      rw [hnodes] at hy
      cases hy
      rw [hnode]
  refine ⟨fun fd ↦ ⟨fun hne ↦ ?_, fun ⟨x, hnodes⟩ ↦ ?_⟩, hentry⟩
  · obtain ⟨node, hnode⟩ := Option.ne_none_iff_exists'.mp hne
    obtain ⟨x, hx, -⟩ := hindexed.present fd node hnode
    exact ⟨x, hx⟩
  · rw [hentry fd x hnodes]
    exact Option.some_ne_none _

theorem nodes_eq (htv : ∀ level index, w.tv level index = []) :
    w.nodes = (List.range 256).flatMap w.tvroot := by
  have hempty : ((List.range 4).flatMap fun level ↦
      (List.range tvnSize).flatMap (w.tv level)) = [] := by
    simp [List.flatMap_eq_nil_iff, htv]
  unfold nodes
  rw [hempty, List.append_nil]
  rfl

theorem indexed_new : Indexed (new : TimerWheel F) where
  currenttime := Nat.two_pow_pos 32
  tv _ _ := rfl
  present _ _ hsome := by cases hsome
  missing _ _ := by
    unfold nodesOf
    rw [nodes_eq fun _ _ ↦ rfl]
    simp [new]

/-- A new node is the only one of its descriptor. -/
theorem Indexed.pushRoot (hindexed : Indexed w) {ptr : TimerNode F} (hmp : w.mp ptr.fd = none)
    {index : ℕ} (hindex : index < 256) (fresh : ℕ) :
    Indexed ({ w with fresh := fresh }.pushRoot index ptr) := by
  have hperm : (({ w with fresh := fresh }.pushRoot index ptr).nodes).Perm (ptr :: w.nodes) := by
    have hmem : index ∈ List.range 256 := List.mem_range.mpr hindex
    have htv : ∀ level index',
        ({ w with fresh := fresh }.pushRoot index ptr).tv level index' = [] := hindexed.tv
    rw [nodes_eq hindexed.tv, nodes_eq htv]
    have hnew := flatMap_update_perm List.nodup_range hmem w.tvroot (w.tvroot index ++ [ptr])
    have hold := flatMap_update_perm List.nodup_range hmem w.tvroot (w.tvroot index)
    rw [Function.update_eq_self] at hold
    refine hnew.trans ?_
    rw [List.append_assoc]
    exact List.perm_middle.trans (hold.symm.cons ptr)
  have hself : w.nodesOf ptr.fd = [] := hindexed.missing _ hmp
  have hof (fd : ℤ) : (({ w with fresh := fresh }.pushRoot index ptr).nodesOf fd).Perm
      (if ptr.fd = fd then [ptr] else w.nodesOf fd) := by
    refine (hperm.filter _).trans ?_
    by_cases hsame : ptr.fd = fd
    · subst hsame
      rw [if_pos rfl, List.filter_cons_of_pos (by simp)]
      exact List.Perm.of_eq (congrArg (ptr :: ·) hself)
    · rw [if_neg hsame, List.filter_cons_of_neg (by simpa using hsame)]
      exact List.Perm.refl _
  refine ⟨hindexed.currenttime, hindexed.tv, fun fd node hsome ↦ ?_, fun fd hnone ↦ ?_⟩
  · have hperm := hof fd
    by_cases hsame : fd = ptr.fd
    · subst hsame
      rw [if_pos rfl] at hperm
      refine ⟨ptr, List.perm_singleton.mp hperm, ?_⟩
      have hupdated : some ptr.node = some node := (Function.update_self _ _ w.mp).symm.trans hsome
      exact Option.some.inj hupdated
    · rw [if_neg (Ne.symm hsame)] at hperm
      have hkept : w.mp fd = some node := (Function.update_of_ne hsame _ w.mp).symm.trans hsome
      obtain ⟨x, hx, hnode⟩ := hindexed.present fd node hkept
      rw [hx] at hperm
      exact ⟨x, List.perm_singleton.mp hperm, hnode⟩
  · have hperm := hof fd
    by_cases hsame : fd = ptr.fd
    · subst hsame
      have hupdated : some ptr.node = none := (Function.update_self _ _ w.mp).symm.trans hnone
      cases hupdated
    · rw [if_neg (Ne.symm hsame)] at hperm
      have hkept : w.mp fd = none := (Function.update_of_ne hsame _ w.mp).symm.trans hnone
      rw [hindexed.missing fd hkept] at hperm
      exact List.perm_nil.mp hperm

theorem twTick_silent (htv : ∀ level index, w.tv level index = []) :
    Request.run .twTick w = .ok () w.ticked := by
  have hcalls (xs : List (TimerNode F)) (s : TimerWheel F × Unit) :
      expireAll silent xs s = .ok () s := by
    induction xs with
    | nil => rfl
    | cons x xs ih => exact ih
  unfold Request.run
  dsimp only
  rw [twTick_eq htv (hcalls _ _)]

/-- A tick in which nothing fires. -/
theorem Indexed.ticked (hindexed : Indexed w)
    (hquiet : w.tvroot ((w.currenttime + 1) % 2 ^ 32 % 256) = []) : Indexed w.ticked := by
  have hroot : w.ticked.tvroot = w.tvroot := by
    unfold TimerWheel.ticked
    dsimp only
    rw [← hquiet, Function.update_eq_self]
  have hnodes : w.ticked.nodes = w.nodes := by
    rw [nodes_eq hindexed.tv, ← hroot]
    exact nodes_eq hindexed.tv
  have hof (fd : ℤ) : w.ticked.nodesOf fd = w.nodesOf fd :=
    congrArg (List.filter fun x : TimerNode F ↦ decide (x.fd = fd)) hnodes
  refine ⟨Nat.mod_lt _ (Nat.two_pow_pos 32), hindexed.tv, fun fd node hsome ↦ ?_, fun fd hnone ↦ ?_⟩
  · rw [hof]
    exact hindexed.present fd node hsome
  · rw [hof]
    exact hindexed.missing fd hnone

/-- The descriptor of a timer that fires stays a key. -/
theorem not_consistent_ticked (hindexed : Indexed w)
    (hloud : w.tvroot ((w.currenttime + 1) % 2 ^ 32 % 256) ≠ []) : ¬ Consistent w.ticked := by
  obtain ⟨x, xs, hlist⟩ := List.exists_cons_of_ne_nil hloud
  have hmem : (w.currenttime + 1) % 2 ^ 32 % 256 ∈ List.range 256 :=
    List.mem_range.mpr (Nat.mod_lt _ (by decide))
  have hall := flatMap_update_perm List.nodup_range hmem w.tvroot
    (w.tvroot ((w.currenttime + 1) % 2 ^ 32 % 256))
  rw [Function.update_eq_self, hlist, ← nodes_eq hindexed.tv] at hall
  have hleft : (List.range 256).flatMap
      (Function.update w.tvroot ((w.currenttime + 1) % 2 ^ 32 % 256) []) = w.ticked.nodes :=
    (nodes_eq (show ∀ level index, w.ticked.tv level index = [] from hindexed.tv)).symm
  rw [hleft] at hall
  -- all nodes are `x`, what fires with it, and what is left
  have hof : (w.nodesOf x.fd).Perm (x :: (xs.filter (·.fd = x.fd) ++ w.ticked.nodesOf x.fd)) := by
    have hfilter := hall.filter fun y ↦ decide (y.fd = x.fd)
    rw [List.cons_append, List.filter_cons_of_pos (by simp), List.filter_append] at hfilter
    exact hfilter
  have hkey : w.mp x.fd ≠ none := by
    intro hnone
    rw [hindexed.missing x.fd hnone] at hof
    exact absurd hof (List.not_perm_nil_cons _ _)
  obtain ⟨node, hnode⟩ := Option.ne_none_iff_exists'.mp hkey
  obtain ⟨y, hy, -⟩ := hindexed.present x.fd node hnode
  have hlength := hof.length_eq
  rw [hy, List.length_singleton, List.length_cons, List.length_append] at hlength
  have hgone : w.ticked.nodesOf x.fd = [] := List.eq_nil_of_length_eq_zero (by omega)
  intro hconsistent
  obtain ⟨z, hz⟩ := (hconsistent.key x.fd).mp hkey
  rw [hgone] at hz
  cases hz

/-- A call that the index survives, and one that it does not survive. -/
theorem indexed_run (hindexed : Indexed w) (request : Request F) :
    (Careful w request → ∃ w', Op.reached (request.run w) = some w' ∧ Indexed w') ∧
      (¬ Careful w request → ∀ w', Op.reached (request.run w) = some w' → ¬ Consistent w') := by
  cases request with
  | twAdd fd f ticks =>
    unfold Request.run Careful
    dsimp only
    have hlt : ticks.toInt < 2 ^ 31 := ticks.toInt_lt
    generalize ticks.toInt = ticks at hlt ⊢
    by_cases hneg : ticks < 0
    · have hthrows : twAdd fd f ticks w = .error .invalidArgument w := if_pos hneg
      rw [hthrows]
      exact ⟨fun _ ↦ ⟨w, rfl, hindexed⟩, fun hnot ↦ absurd (.inl hneg) hnot⟩
    obtain ⟨count, rfl⟩ : ∃ count : ℕ, ticks = count := ⟨ticks.toNat, by omega⟩
    by_cases hmp : w.mp fd = none
    · have hadd := twAdd_unused hmp hindexed.currenttime f count (by omega)
      by_cases hshort : count < 256
      · rw [if_pos hshort] at hadd
        obtain ⟨ptr, rfl, -, hadd⟩ := hadd
        rw [hadd]
        refine ⟨fun _ ↦ ⟨_, rfl, hindexed.pushRoot hmp (Nat.mod_lt _ (by decide)) _⟩, ?_⟩
        exact fun hnot ↦ absurd (.inr (.inr (by omega))) hnot
      · rw [if_neg hshort] at hadd
        obtain ⟨w', hadd⟩ := hadd
        rw [hadd]
        refine ⟨fun hcareful ↦ ?_, fun _ _ hreached ↦ by cases hreached⟩
        rcases hcareful with h | h | h
        · exact absurd h hneg
        · exact absurd hmp h
        · exact absurd h (by omega)
    · rw [twAdd_used hmp]
      exact ⟨fun _ ↦ ⟨w, rfl, hindexed⟩, fun hnot ↦ absurd (.inr (.inl hmp)) hnot⟩
  | twUpdate fd =>
    unfold Request.run Careful
    dsimp only
    cases hmp : w.mp fd with
    | none =>
      have hundefined : twUpdate fd w = .error .undefinedBehaviour w := by
        simp [twUpdate, deref, hmp]
      rw [hundefined]
      exact ⟨fun h ↦ absurd rfl h, fun _ w' hreached ↦ by cases hreached⟩
    | some node =>
      obtain ⟨x, hx, hnode⟩ := hindexed.present fd node hmp
      have hfound : w.deref fd ≠ none := by
        have hmem : x ∈ w.nodesOf fd := hx ▸ List.mem_singleton_self x
        have hnodes : x ∈ w.nodes := (List.mem_filter.mp hmem).1
        unfold deref
        rw [hmp, Option.bind_some]
        intro hnone
        exact absurd (decide_eq_true hnode) (List.find?_eq_none.mp hnone x hnodes)
      obtain ⟨para, hpara⟩ := Option.ne_none_iff_exists'.mp hfound
      have hthrows : twUpdate fd w = .error .invalidArgument w := by
        have hne : w.mp fd ≠ none := by simp [hmp]
        have hadd : twAdd fd para.f 2 w = .error .invalidArgument w := twAdd_used hne para.f 2
        simp only [twUpdate, hpara, hadd]
      rw [hthrows]
      exact ⟨fun _ ↦ ⟨w, rfl, hindexed⟩, fun h ↦ absurd (Option.some_ne_none node) h⟩
  | twTick =>
    rw [twTick_silent hindexed.tv]
    unfold Careful
    rw [firstIndex_eq]
    refine ⟨fun hquiet ↦ ⟨_, rfl, hindexed.ticked hquiet⟩, fun hloud w' hreached ↦ ?_⟩
    cases hreached
    exact not_consistent_ticked hindexed hloud

/-- In every run, all calls are defined and leave the index consistent exactly if each of them is
one that the index survives. -/
theorem consistent_history_iff (requests : List (Request F)) :
    (∀ step ∈ history requests (new : TimerWheel F),
        ∃ w', step.after = some w' ∧ Consistent w') ↔
      ∀ step ∈ history requests (new : TimerWheel F), Careful step.before step.request := by
  have hall (w : TimerWheel F) (hindexed : Indexed w) :
      (∀ step ∈ history requests w, ∃ w', step.after = some w' ∧ Consistent w') ↔
        ∀ step ∈ history requests w, Careful step.before step.request := by
    induction requests generalizing w with
    | nil => simp [history]
    | cons request requests ih =>
      obtain ⟨hgood, hbad⟩ := indexed_run hindexed request
      unfold history
      simp only [List.forall_mem_cons]
      by_cases hcareful : Careful w request
      · obtain ⟨w', hreached, hindexed'⟩ := hgood hcareful
        rw [hreached]
        exact and_congr (iff_of_true ⟨w', rfl, hindexed'.consistent⟩ hcareful) (ih w' hindexed')
      · refine iff_of_false (fun h ↦ ?_) fun h ↦ hcareful h.1
        obtain ⟨w', hreached, hconsistent⟩ := h.1
        exact hbad hcareful w' hreached hconsistent
  exact hall new indexed_new

/-- After its only timer has fired, a descriptor is still a key. -/
theorem not_consistent_fired : ¬ ∀ step ∈ history [.twAdd 1 () 1, .twTick] (new : TimerWheel Unit),
    ∃ w', step.after = some w' ∧ Consistent w' := by
  intro hall
  obtain ⟨w', hafter, hconsistent⟩ := hall _ (List.mem_cons_of_mem _ List.mem_cons_self)
  cases hafter
  obtain ⟨x, hx⟩ := (hconsistent.key 1).mp (by decide)
  have hgone : nodesOf 1 (Op.finalState (Request.run .twTick
      (Op.finalState (Request.run (.twAdd 1 () 1) (new : TimerWheel Unit))))) = [] := by
    decide +kernel
  exact List.cons_ne_nil _ _ (hx.symm.trans hgone)

end TimerWheel

end LWebServer
