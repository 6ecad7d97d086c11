import LWebServer.Tool.LockFreeQueue

/-!
# The order of the lock-free queue

The nodes that have ever been linked form one chain that starts with the first dummy. `head_` is as
far along the chain as there have been pops, `tail_` is not behind it, and what a suspended call has
in its local variables are places of the chain that `head_` or `tail_` had reached when it read
them.
-/

namespace LWebServer

open Schedule

variable {ι T : Type}

/-- The local variables of a call, as places of the chain: `head_` is at place `h` and `tail_` at
place `t`. -/
def QueueCall.Holds (chain : List ℕ) (h t : ℕ) (data : ℕ → T) : QueueCall T → Prop
  | popTail oldHead => ∃ i : ℕ, chain[i]? = some oldHead ∧ i ≤ h
  | popNext oldHead oldTail => ∃ i j : ℕ, chain[i]? = some oldHead ∧ chain[j]? = some oldTail ∧
      i ≤ h ∧ i ≤ j ∧ j ≤ t
  | popCheck oldHead oldTail firstNode => ∃ i j : ℕ, chain[i]? = some oldHead ∧
      chain[j]? = some oldTail ∧ i ≤ j ∧ j ≤ t ∧
      (∀ a, firstNode = some a → chain[i + 1]? = some a) ∧ (firstNode = none → i = j)
  | popHelp oldTail firstNode => ∃ j : ℕ, chain[j]? = some oldTail ∧
      chain[j + 1]? = some firstNode
  | popData oldHead firstNode => ∃ i a, firstNode = some a ∧ chain[i]? = some oldHead ∧
      chain[i + 1]? = some a ∧ i + 1 ≤ t
  | popSwap oldHead firstNode item => ∃ i : ℕ, chain[i]? = some oldHead ∧
      chain[i + 1]? = some firstNode ∧ i + 1 ≤ t ∧ data firstNode = item
  | undefined => False
  | pushNext _ oldTail => ∃ j : ℕ, chain[j]? = some oldTail
  | pushCheck _ oldTail oldTailNext => ∃ j : ℕ, chain[j]? = some oldTail ∧
      ∀ a, oldTailNext = some a → chain[j + 1]? = some a
  | pushLink _ oldTail => ∃ j : ℕ, chain[j]? = some oldTail
  | pushHelp _ oldTail oldTailNext => ∃ j : ℕ, chain[j]? = some oldTail ∧
      chain[j + 1]? = some oldTailNext
  | pushSwing enqueueNode oldTail => ∃ j : ℕ, chain[j]? = some oldTail ∧
      chain[j + 1]? = some enqueueNode
  | _ => True

theorem getElem?_of_prefix {chain chain' : List ℕ} {i a : ℕ} (hinit : chain <+: chain')
    (ha : chain[i]? = some a) : chain'[i]? = some a := by
  obtain ⟨rest, rfl⟩ := hinit
  rw [List.getElem?_append_left (List.getElem?_eq_some_iff.mp ha).1, ha]

/-- What a suspended call holds stays valid while the others go on. -/
theorem QueueCall.Holds.mono {chain chain' : List ℕ} {h h' t t' : ℕ} {data data' : ℕ → T}
    {call : QueueCall T} (hholds : call.Holds chain h t data) (hchain : chain <+: chain')
    (hh : h ≤ h') (ht : t ≤ t') (hdata : ∀ a ∈ chain, data' a = data a) :
    call.Holds chain' h' t' data' := by
  have hat {i a : ℕ} (ha : chain[i]? = some a) : chain'[i]? = some a := getElem?_of_prefix hchain ha
  cases call with
  | popTail oldHead =>
    obtain ⟨i, hi, hle⟩ := hholds
    exact ⟨i, hat hi, hle.trans hh⟩
  | popNext oldHead oldTail =>
    obtain ⟨i, j, hi, hj, hle, hij, hjt⟩ := hholds
    exact ⟨i, j, hat hi, hat hj, hle.trans hh, hij, hjt.trans ht⟩
  | popCheck oldHead oldTail firstNode =>
    obtain ⟨i, j, hi, hj, hij, hjt, hnext, hnone⟩ := hholds
    exact ⟨i, j, hat hi, hat hj, hij, hjt.trans ht, fun a ha ↦ hat (hnext a ha), hnone⟩
  | popHelp oldTail firstNode =>
    obtain ⟨j, hj, hnext⟩ := hholds
    exact ⟨j, hat hj, hat hnext⟩
  | popData oldHead firstNode =>
    obtain ⟨i, a, hfirst, hi, hnext, hit⟩ := hholds
    exact ⟨i, a, hfirst, hat hi, hat hnext, hit.trans ht⟩
  | popSwap oldHead firstNode item =>
    obtain ⟨i, hi, hnext, hit, hitem⟩ := hholds
    exact ⟨i, hat hi, hat hnext, hit.trans ht,
      (hdata firstNode (List.mem_of_getElem? hnext)).trans hitem⟩
  | undefined => exact hholds
  | pushNext _ oldTail =>
    obtain ⟨j, hj⟩ := hholds
    exact ⟨j, hat hj⟩
  | pushCheck _ oldTail oldTailNext =>
    obtain ⟨j, hj, hnext⟩ := hholds
    exact ⟨j, hat hj, fun a ha ↦ hat (hnext a ha)⟩
  | pushLink _ oldTail =>
    obtain ⟨j, hj⟩ := hholds
    exact ⟨j, hat hj⟩
  | pushHelp _ oldTail oldTailNext =>
    obtain ⟨j, hj, hnext⟩ := hholds
    exact ⟨j, hat hj, hat hnext⟩
  | pushSwing enqueueNode oldTail =>
    obtain ⟨j, hj, hnext⟩ := hholds
    exact ⟨j, hat hj, hat hnext⟩
  | _ => trivial

namespace LockFreeQueue

/-- The nodes that have been linked, in order, and the place of `tail_` among them. -/
structure Shape (s : LockFreeQueue ι T) (chain : List ℕ) (t : ℕ) : Prop where
  linked : Linked s.next chain
  nodup : chain.Nodup
  built : ∀ a ∈ chain, a < s.built
  head : chain[s.popped.length]? = some s.head
  tail : chain[t]? = some s.tail
  le : s.popped.length ≤ t
  data : chain.tail.map s.data = s.pushed
  order : s.popped <+: s.pushed
  owned : ∀ thread a, (s.calls thread).node = some a →
    a < s.built ∧ a ∉ chain ∧ s.next a = none
  distinct : ∀ thread thread' a, (s.calls thread).node = some a →
    (s.calls thread').node = some a → thread = thread'
  holds : ∀ thread, (s.calls thread).Holds chain s.popped.length t s.data

theorem shape_new [Inhabited T] : (new : LockFreeQueue ι T).Shape [0] 0 where
  linked := Linked.singleton rfl
  nodup := List.nodup_singleton 0
  built := by simp [new]
  head := rfl
  tail := rfl
  le := le_rfl
  data := rfl
  order := List.prefix_refl []
  owned := fun _ _ hnode ↦ by cases hnode
  distinct := fun _ _ _ hnode ↦ by cases hnode
  holds := fun _ ↦ trivial

/-- The queue has a shape. -/
def Regular (s : LockFreeQueue ι T) : Prop := ∃ chain t, s.Shape chain t

theorem regular_new [Inhabited T] : (new : LockFreeQueue ι T).Regular := ⟨[0], 0, shape_new⟩

variable {s : LockFreeQueue ι T} {chain : List ℕ} {t : ℕ} {thread : ι} {call : QueueCall T}

/-- `tail_` is moved from a place to the next one, or stays. -/
theorem Shape.swapTail {j expected new : ℕ} (hshape : s.Shape chain t)
    (hexpected : chain[j]? = some expected) (hnew : chain[j + 1]? = some new) :
    ∃ t', t ≤ t' ∧ (s.swapTail expected new).Shape chain t' := by
  unfold LockFreeQueue.swapTail
  by_cases htail : s.tail = expected
  · have hj : t = j := index_unique hshape.nodup hshape.tail (htail ▸ hexpected)
    refine ⟨t + 1, Nat.le_succ t, ?_⟩
    rw [if_pos htail]
    exact { hshape with
      tail := hj ▸ hnew
      le := hshape.le.trans (Nat.le_succ t)
      holds := fun thread ↦ (hshape.holds thread).mono (List.prefix_refl chain) le_rfl
        (Nat.le_succ t) fun _ _ ↦ rfl }
  · refine ⟨t, le_rfl, ?_⟩
    rw [if_neg htail]
    exact hshape

/-- What comes after the items popped so far. -/
theorem prefix_snoc {items popped : List T} {item : T} (hinit : popped <+: items)
    (hitem : items[popped.length]? = some item) : popped ++ [item] <+: items := by
  obtain ⟨rest, rfl⟩ := hinit
  rw [List.getElem?_append_right le_rfl, Nat.sub_self] at hitem
  cases rest with
  | nil => cases hitem
  | cons first rest =>
    cases hitem
    exact ⟨rest, by simp⟩

/-- `head_` is moved to the next place. -/
theorem Shape.unlink {firstNode : ℕ} {item : T} (hshape : s.Shape chain t)
    (hnext : chain[s.popped.length + 1]? = some firstNode) (hle : s.popped.length + 1 ≤ t)
    (hitem : s.data firstNode = item) : (s.unlink firstNode item).Shape chain t := by
  have hlength : (s.popped ++ [item]).length = s.popped.length + 1 := by simp
  have hpushed : s.pushed[s.popped.length]? = some item := by
    rw [← hshape.data, List.getElem?_map, List.getElem?_tail, hnext, Option.map_some, hitem]
  exact { hshape with
    head := hlength ▸ hnext
    le := hlength ▸ hle
    order := prefix_snoc hshape.order hpushed
    holds := fun thread ↦ (hshape.holds thread).mono (List.prefix_refl chain)
      (hlength ▸ Nat.le_succ _) le_rfl fun _ _ ↦ rfl }

variable [DecidableEq ι]

theorem calls_go_self (thread : ι) (call : QueueCall T) (s : LockFreeQueue ι T) :
    (s.go thread call).calls thread = call := by
  simp only [go, Function.update_self]

theorem calls_go_of_ne {other : ι} (hne : other ≠ thread) (call : QueueCall T)
    (s : LockFreeQueue ι T) : (s.go thread call).calls other = s.calls other := by
  simp only [go, Function.update_of_ne hne]

/-- A step that changes nothing but the local variables of a call. -/
theorem Shape.go (hshape : s.Shape chain t)
    (hholds : call.Holds chain s.popped.length t s.data)
    (hnode : ∀ a, call.node = some a → (s.calls thread).node = some a) :
    (s.go thread call).Shape chain t := by
  have hcall (other : ι) (a : ℕ) (ha : ((s.go thread call).calls other).node = some a) :
      (s.calls other).node = some a := by
    by_cases hother : other = thread
    · rw [hother, calls_go_self] at ha
      exact hother ▸ hnode a ha
    · rw [calls_go_of_ne hother] at ha
      exact ha
  refine { hshape with owned := ?_, distinct := ?_, holds := ?_ }
  · exact fun other a ha ↦ hshape.owned other a (hcall other a ha)
  · exact fun other other' a ha ha' ↦
      hshape.distinct other other' a (hcall other a ha) (hcall other' a ha')
  · intro other
    by_cases hother : other = thread
    · rw [hother, calls_go_self]
      exact hholds
    · rw [calls_go_of_ne hother]
      exact hshape.holds other

/-- A node is linked after the last one. -/
theorem Shape.link {enqueueNode oldTail j : ℕ} (hshape : s.Shape chain t)
    (hnode : (s.calls thread).node = some enqueueNode) (hoccurs : chain[j]? = some oldTail)
    (hlast : s.next oldTail = none) :
    ((s.link enqueueNode oldTail).go thread (.pushSwing enqueueNode oldTail)).Shape
      (chain ++ [enqueueNode]) t := by
  obtain ⟨hbuilt, hfresh, hnone⟩ := hshape.owned thread enqueueNode hnode
  have hinit : chain <+: chain ++ [enqueueNode] := List.prefix_append _ _
  have hcall {other : ι} {a : ℕ} (ha : (((s.link enqueueNode oldTail).go thread
      (.pushSwing enqueueNode oldTail)).calls other).node = some a) :
      other ≠ thread ∧ (s.calls other).node = some a := by
    by_cases hother : other = thread
    · rw [hother, calls_go_self] at ha
      cases ha
    · rw [calls_go_of_ne hother] at ha
      exact ⟨hother, ha⟩
  refine
    { linked := hshape.linked.snoc hshape.nodup hoccurs hlast hfresh hnone
      nodup := ?_
      built := ?_
      head := getElem?_of_prefix hinit hshape.head
      tail := getElem?_of_prefix hinit hshape.tail
      le := hshape.le
      data := ?_
      order := hshape.order.trans (List.prefix_append _ _)
      owned := ?_
      distinct := fun other other' a ha ha' ↦
        hshape.distinct other other' a (hcall ha).2 (hcall ha').2
      holds := ?_ }
  · exact List.nodup_append.mpr ⟨hshape.nodup, List.nodup_singleton _,
      fun a ha b hb hab ↦ hfresh (List.mem_singleton.mp hb ▸ hab ▸ ha)⟩
  · exact List.forall_mem_append.mpr ⟨hshape.built, List.forall_mem_singleton.mpr hbuilt⟩
  · have hne : chain ≠ [] := List.ne_nil_of_mem (List.mem_of_getElem? hoccurs)
    rw [List.tail_append_of_ne_nil hne, List.map_append]
    exact congrArg (· ++ [s.data enqueueNode]) hshape.data
  · intro other a ha
    obtain ⟨hother, ha'⟩ := hcall ha
    obtain ⟨hbuilt', hfresh', hnone'⟩ := hshape.owned other a ha'
    have hne : a ≠ enqueueNode := fun h ↦ hother (hshape.distinct other thread a ha' (h ▸ hnode))
    have hne' : a ≠ oldTail := fun h ↦ hfresh' (h ▸ List.mem_of_getElem? hoccurs)
    refine ⟨hbuilt', ?_, ?_⟩
    · rw [List.mem_append, List.mem_singleton]
      exact not_or.mpr ⟨hfresh', hne⟩
    · exact (Function.update_of_ne hne' _ _).trans hnone'
  · intro other
    by_cases hother : other = thread
    · rw [hother, calls_go_self]
      have hlength := hshape.linked.length_eq hoccurs hlast
      refine ⟨j, getElem?_of_prefix hinit hoccurs, ?_⟩
      rw [← hlength, List.getElem?_concat_length]
    · rw [calls_go_of_ne hother]
      exact (hshape.holds other).mono hinit le_rfl le_rfl fun _ _ ↦ rfl

/-- A node is built that nobody else has. -/
theorem Shape.build {item : T} (hshape : s.Shape chain t) :
    ((s.build item).go thread (.pushTail s.built)).Shape chain t := by
  have hold {a : ℕ} (ha : a < s.built) : a ≠ s.built := ha.ne
  have hcall {other : ι} {a : ℕ}
      (ha : (((s.build item).go thread (.pushTail s.built)).calls other).node = some a) :
      other = thread ∧ a = s.built ∨ other ≠ thread ∧ (s.calls other).node = some a := by
    by_cases hother : other = thread
    · rw [hother, calls_go_self] at ha
      cases ha
      exact .inl ⟨hother, rfl⟩
    · rw [calls_go_of_ne hother] at ha
      exact .inr ⟨hother, ha⟩
  have hdata (a : ℕ) (ha : a ∈ chain) : Function.update s.data s.built item a = s.data a :=
    Function.update_of_ne (hold (hshape.built a ha)) _ _
  refine
    { linked := hshape.linked.congr fun a ha ↦
        Function.update_of_ne (hold (hshape.built a ha)) _ _
      nodup := hshape.nodup
      built := fun a ha ↦ (hshape.built a ha).trans (Nat.lt_succ_self _)
      head := hshape.head
      tail := hshape.tail
      le := hshape.le
      data := ?_
      order := hshape.order
      owned := ?_
      distinct := ?_
      holds := ?_ }
  · refine Eq.trans ?_ hshape.data
    exact List.map_congr_left fun a ha ↦ hdata a (List.mem_of_mem_tail ha)
  · intro other a ha
    rcases hcall ha with ⟨-, rfl⟩ | ⟨-, ha'⟩
    · exact ⟨Nat.lt_succ_self _, fun hmem ↦ hold (hshape.built _ hmem) rfl,
        Function.update_self _ _ _⟩
    · obtain ⟨hbuilt, hfresh, hnone⟩ := hshape.owned other a ha'
      exact ⟨hbuilt.trans (Nat.lt_succ_self _), hfresh,
        (Function.update_of_ne (hold hbuilt) _ _).trans hnone⟩
  · intro other other' a ha ha'
    rcases hcall ha with ⟨hthread, rfl⟩ | ⟨-, hother⟩
    · rcases hcall ha' with ⟨hthread', -⟩ | ⟨-, hother'⟩
      · exact hthread.trans hthread'.symm
      · exact absurd rfl (hold (hshape.owned other' _ hother').1)
    · rcases hcall ha' with ⟨-, rfl⟩ | ⟨-, hother'⟩
      · exact absurd rfl (hold (hshape.owned other _ hother).1)
      · exact hshape.distinct other other' a hother hother'
  · intro other
    by_cases hother : other = thread
    · rw [hother, calls_go_self]
      trivial
    · rw [calls_go_of_ne hother]
      exact (hshape.holds other).mono (List.prefix_refl chain) le_rfl le_rfl hdata

/-- A step of a call of `pop`. -/
theorem Shape.advance_pop {s' : LockFreeQueue ι T} (hshape : s.Shape chain t)
    (hpop : (s.calls thread).InPop) (hstep : s.advance thread = some s') :
    ∃ chain' t', chain <+: chain' ∧ s'.Shape chain' t' := by
  have hinit : chain <+: chain := List.prefix_refl chain
  have hholds := hshape.holds thread
  unfold advance at hstep
  cases hcall : s.calls thread <;> rw [hcall] at hholds hpop hstep <;> dsimp only at hstep
  case popHead =>
    cases hstep
    exact ⟨chain, t, hinit, hshape.go ⟨_, hshape.head, le_rfl⟩ (by simp [QueueCall.node])⟩
  case popTail oldHead =>
    cases hstep
    obtain ⟨i, hi, hle⟩ := hholds
    exact ⟨chain, t, hinit, hshape.go ⟨i, t, hi, hshape.tail, hle, hle.trans hshape.le, le_rfl⟩
      (by simp [QueueCall.node])⟩
  case popNext oldHead oldTail =>
    cases hstep
    obtain ⟨i, j, hi, hj, hle, hij, hjt⟩ := hholds
    refine ⟨chain, t, hinit, hshape.go ⟨i, j, hi, hj, hij, hjt,
      fun a ha ↦ hshape.linked.next_eq_some hi ha, fun hnone ↦ ?_⟩ (by simp [QueueCall.node])⟩
    have hlength := hshape.linked.length_eq hi hnone
    have hlt := (List.getElem?_eq_some_iff.mp hj).1
    omega
  case popCheck oldHead oldTail firstNode =>
    obtain ⟨i, j, hi, hj, hij, hjt, hnext, hnone⟩ := hholds
    split_ifs at hstep with hhead htail
    · cases hstep
      exact ⟨chain, t, hinit, hshape.go trivial (by simp [QueueCall.node])⟩
    · cases firstNode with
      | none =>
        cases hstep
        exact ⟨chain, t, hinit, hshape.go trivial (by simp [QueueCall.node])⟩
      | some a =>
        cases hstep
        exact ⟨chain, t, hinit, hshape.go ⟨i, htail ▸ hi, hnext a rfl⟩ (by simp [QueueCall.node])⟩
    · cases hstep
      have hne : i ≠ j := fun h ↦ htail (Option.some.inj ((h ▸ hi).symm.trans hj))
      cases firstNode with
      | none => exact absurd (hnone rfl) hne
      | some a =>
        exact ⟨chain, t, hinit, hshape.go ⟨i, a, rfl, hi, hnext a rfl, by omega⟩
          (by simp [QueueCall.node])⟩
  case popHelp oldTail firstNode =>
    cases hstep
    obtain ⟨j, hj, hnext⟩ := hholds
    obtain ⟨t', -, hshape'⟩ := hshape.swapTail hj hnext
    exact ⟨chain, t', hinit, hshape'.go trivial (by simp [QueueCall.node])⟩
  case popData oldHead firstNode =>
    obtain ⟨i, a, rfl, hi, hnext, hit⟩ := hholds
    cases hstep
    exact ⟨chain, t, hinit, hshape.go ⟨i, hi, hnext, hit, rfl⟩ (by simp [QueueCall.node])⟩
  case popSwap oldHead firstNode item =>
    obtain ⟨i, hi, hnext, hit, hitem⟩ := hholds
    split_ifs at hstep with hhead
    · cases hstep
      have hplace : s.popped.length = i := index_unique hshape.nodup hshape.head (hhead ▸ hi)
      have hshape' := hshape.unlink (hplace ▸ hnext) (hplace ▸ hit) hitem
      exact ⟨chain, t, hinit, hshape'.go trivial (by simp [QueueCall.node])⟩
    · cases hstep
      exact ⟨chain, t, hinit, hshape.go trivial (by simp [QueueCall.node])⟩
  case popDelete oldHead item =>
    cases hstep
    have hshape' : ({ s with deleted := oldHead :: s.deleted } : LockFreeQueue ι T).Shape chain t :=
      { hshape with }
    exact ⟨chain, t, hinit, hshape'.go trivial (by simp [QueueCall.node])⟩
  case popCount item =>
    cases hstep
    have hshape' : ({ s with count := toInt (s.count - 1) } : LockFreeQueue ι T).Shape chain t :=
      { hshape with }
    exact ⟨chain, t, hinit, hshape'.go trivial (by simp [QueueCall.node])⟩
  all_goals exact absurd hpop id

/-- A step of a call of `push`, or of none. -/
theorem Shape.advance_push {s' : LockFreeQueue ι T} (hshape : s.Shape chain t)
    (hpush : ¬ (s.calls thread).InPop) (hstep : s.advance thread = some s') :
    ∃ chain' t', chain <+: chain' ∧ s'.Shape chain' t' := by
  have hinit : chain <+: chain := List.prefix_refl chain
  have hholds := hshape.holds thread
  have hkeep {call : QueueCall T} (hnode : call.node = (s.calls thread).node) (a : ℕ)
      (ha : call.node = some a) : (s.calls thread).node = some a := hnode ▸ ha
  unfold advance at hstep
  cases hcall : s.calls thread <;> rw [hcall] at hholds hpush hstep hkeep <;>
    dsimp only at hstep
  case idle => cases hstep
  case popped item => cases hstep
  case undefined => cases hstep
  case pushNew item =>
    cases hstep
    exact ⟨chain, t, hinit, hshape.build⟩
  case pushTail enqueueNode =>
    cases hstep
    exact ⟨chain, t, hinit, hshape.go ⟨t, hshape.tail⟩ (hcall ▸ hkeep rfl)⟩
  case pushNext enqueueNode oldTail =>
    cases hstep
    obtain ⟨j, hj⟩ := hholds
    exact ⟨chain, t, hinit, hshape.go ⟨j, hj, fun a ha ↦ hshape.linked.next_eq_some hj ha⟩
      (hcall ▸ hkeep rfl)⟩
  case pushCheck enqueueNode oldTail oldTailNext =>
    obtain ⟨j, hj, hnext⟩ := hholds
    split_ifs at hstep with htail
    · cases hstep
      exact ⟨chain, t, hinit, hshape.go trivial (hcall ▸ hkeep rfl)⟩
    · cases oldTailNext with
      | none =>
        cases hstep
        exact ⟨chain, t, hinit, hshape.go ⟨j, hj⟩ (hcall ▸ hkeep rfl)⟩
      | some a =>
        cases hstep
        exact ⟨chain, t, hinit, hshape.go ⟨j, hj, hnext a rfl⟩ (hcall ▸ hkeep rfl)⟩
  case pushLink enqueueNode oldTail =>
    obtain ⟨j, hj⟩ := hholds
    split_ifs at hstep with hlast
    · cases hstep
      have hnode : (s.calls thread).node = some enqueueNode := by rw [hcall]; rfl
      exact ⟨_, t, List.prefix_append _ _, hshape.link hnode hj hlast⟩
    · cases hstep
      exact ⟨chain, t, hinit, hshape.go trivial (hcall ▸ hkeep rfl)⟩
  case pushHelp enqueueNode oldTail oldTailNext =>
    cases hstep
    obtain ⟨j, hj, hnext⟩ := hholds
    obtain ⟨t', -, hshape'⟩ := hshape.swapTail hj hnext
    exact ⟨chain, t', hinit, hshape'.go trivial (hcall ▸ hkeep rfl)⟩
  case pushSwing enqueueNode oldTail =>
    cases hstep
    obtain ⟨j, hj, hnext⟩ := hholds
    obtain ⟨t', -, hshape'⟩ := hshape.swapTail hj hnext
    exact ⟨chain, t', hinit, hshape'.go trivial (by simp [QueueCall.node])⟩
  case pushCount =>
    cases hstep
    have hshape' : ({ s with count := toInt (s.count + 1) } : LockFreeQueue ι T).Shape chain t :=
      { hshape with }
    exact ⟨chain, t, hinit, hshape'.go trivial (by simp [QueueCall.node])⟩
  all_goals exact absurd trivial hpush

/-- A step extends the chain, if it changes it. -/
theorem Shape.step {act : Act ι T} {s' : LockFreeQueue ι T} (hshape : s.Shape chain t)
    (hstep : step act s = some s') : ∃ chain' t', chain <+: chain' ∧ s'.Shape chain' t' := by
  cases act with
  | push thread item =>
    simp only [LockFreeQueue.step] at hstep
    split_ifs at hstep
    cases hstep
    exact ⟨chain, t, List.prefix_refl chain, hshape.go trivial (by simp [QueueCall.node])⟩
  | pop thread =>
    simp only [LockFreeQueue.step] at hstep
    split_ifs at hstep
    cases hstep
    exact ⟨chain, t, List.prefix_refl chain, hshape.go trivial (by simp [QueueCall.node])⟩
  | step thread =>
    by_cases hpop : (s.calls thread).InPop
    · exact hshape.advance_pop hpop hstep
    · exact hshape.advance_push hpop hstep

theorem regular_step {act : Act ι T} {s' : LockFreeQueue ι T} (hregular : s.Regular)
    (hstep : step act s = some s') : s'.Regular := by
  obtain ⟨chain, t, hshape⟩ := hregular
  obtain ⟨chain', t', -, hshape'⟩ := hshape.step hstep
  exact ⟨chain', t', hshape'⟩

/-! ## Calls that find nothing -/

/-- Nothing is linked behind the dummy. -/
def Empty (s : LockFreeQueue ι T) : Prop := s.next s.head = none

/-- A thread is in a call of `pop`. -/
def Popping (thread : ι) (s : LockFreeQueue ι T) : Prop := (s.calls thread).InPop

omit [DecidableEq ι] in
/-- A call of `pop` reads a null pointer only from an empty list. -/
theorem empty_of_popNext {oldHead oldTail : ℕ} (hregular : s.Regular)
    (hcall : s.calls thread = .popNext oldHead oldTail) (hnone : s.next oldHead = none) :
    s.Empty := by
  obtain ⟨chain, t, hshape⟩ := hregular
  have hholds := hshape.holds thread
  rw [hcall] at hholds
  obtain ⟨i, j, hi, hj, hle, hij, hjt⟩ := hholds
  have hlength := hshape.linked.length_eq hi hnone
  have hlt := (List.getElem?_eq_some_iff.mp hshape.head).1
  have hplace : s.popped.length = i := by omega
  have hhead : s.head = oldHead := Option.some.inj (hshape.head.symm.trans (hplace ▸ hi))
  unfold Empty
  rw [hhead, hnone]

/-- The thread that an act belongs to. -/
def Act.caller : Act ι T → ι
  | push thread _ => thread
  | pop thread => thread
  | step thread => thread

/-- A step changes the call of its own thread only. -/
theorem calls_step_of_ne {act : Act ι T} {s' : LockFreeQueue ι T} (hstep : step act s = some s')
    (hne : thread ≠ act.caller) : s'.calls thread = s.calls thread := by
  cases act with
  | push other item =>
    simp only [step] at hstep
    split_ifs at hstep
    cases hstep
    exact calls_go_of_ne hne _ s
  | pop other =>
    simp only [step] at hstep
    split_ifs at hstep
    cases hstep
    exact calls_go_of_ne hne _ s
  | step other =>
    simp only [step, advance] at hstep
    split at hstep
    all_goals try split_ifs at hstep
    all_goals try split at hstep
    all_goals cases hstep
    all_goals exact calls_go_of_ne hne _ _

/-- Where a step of a call of `pop` leads that ends with a null pointer in `first_node`, or with
`false`. -/
theorem advance_popNull {s' : LockFreeQueue ι T} (hstep : s.advance thread = some s') :
    (∀ oldHead oldTail, s'.calls thread = .popCheck oldHead oldTail none →
      s.calls thread = .popNext oldHead oldTail ∧ s.next oldHead = none) ∧
    (s'.calls thread = .popped none → ∃ oldHead oldTail,
      s.calls thread = .popCheck oldHead oldTail none) := by
  unfold advance at hstep
  cases hcall : s.calls thread <;> rw [hcall] at hstep <;> dsimp only at hstep
  case popNext oldHead oldTail =>
    cases hstep
    rw [calls_go_self]
    refine ⟨fun oldHead' oldTail' hcheck ↦ ?_, nofun⟩
    injection hcheck with hhead htail hnext
    exact ⟨by rw [hhead, htail], hhead ▸ hnext⟩
  case popCheck oldHead oldTail firstNode =>
    refine ⟨fun _ _ hcheck ↦ ?_, fun hreturn ↦ ⟨oldHead, oldTail, ?_⟩⟩
    · split_ifs at hstep
      · cases hstep
        rw [calls_go_self] at hcheck
        cases hcheck
      · cases firstNode <;> cases hstep <;> rw [calls_go_self] at hcheck <;> cases hcheck
      · cases hstep
        rw [calls_go_self] at hcheck
        cases hcheck
    · cases firstNode with
      | none => rfl
      | some a =>
        split_ifs at hstep <;> cases hstep <;> rw [calls_go_self] at hreturn <;> cases hreturn
  case idle => cases hstep
  case popped item => cases hstep
  case undefined => cases hstep
  all_goals
    try split_ifs at hstep
    all_goals try split at hstep
    all_goals
      cases hstep
      rw [calls_go_self]
      exact ⟨nofun, nofun⟩

/-- A call that holds a null pointer in `first_node` has seen the list empty. -/
def Witnessed [Inhabited T] (schedule : List (Act ι T)) (s : LockFreeQueue ι T) : Prop :=
  ∀ thread oldHead oldTail, s.calls thread = .popCheck oldHead oldTail none →
    Since step new Empty (Popping thread) schedule

theorem witnessed_step [Inhabited T] {past : List (Act ι T)} {act : Act ι T}
    {s' : LockFreeQueue ι T} (hrun : run step past new = some s) (hregular : s.Regular)
    (hwitnessed : Witnessed past s) (hstep : step act s = some s') :
    Witnessed (past ++ [act]) s' := by
  intro thread oldHead oldTail hcall
  have hpopping : ∀ r, run step (past ++ [act]) new = some r → Popping thread r := by
    intro r hr
    have hreached : run step (past ++ [act]) new = some s' := run_snoc.mpr ⟨s, hrun, hstep⟩
    cases hreached.symm.trans hr
    rw [Popping, hcall]
    trivial
  by_cases hsame : s.calls thread = s'.calls thread
  · exact (hwitnessed thread oldHead oldTail (hsame.trans hcall)).snoc hpopping
  · have hcaller : thread = act.caller := by
      by_contra hne
      exact hsame (calls_step_of_ne hstep hne).symm
    cases act with
    | push other item =>
      simp only [step] at hstep
      split_ifs at hstep
      cases hstep
      rw [hcaller, Act.caller, calls_go_self] at hcall
      cases hcall
    | pop other =>
      simp only [step] at hstep
      split_ifs at hstep
      cases hstep
      rw [hcaller, Act.caller, calls_go_self] at hcall
      cases hcall
    | step other =>
      cases hcaller
      obtain ⟨hnext, hnone⟩ := (advance_popNull hstep).1 oldHead oldTail hcall
      have hempty : s.Empty := empty_of_popNext hregular hnext hnone
      have hnow : Popping other s := by
        rw [Popping, hnext]
        trivial
      exact (since_of_now hrun hempty hnow).snoc hpopping

/-- What the history of a run has led to. -/
structure Reached [Inhabited T] (schedule : List (Act ι T)) (s : LockFreeQueue ι T) : Prop where
  regular : s.Regular
  witnessed : Witnessed schedule s

theorem reached_run [Inhabited T] {schedule : List (Act ι T)}
    (hrun : run step schedule new = some s) : Reached schedule s :=
  history ⟨regular_new, fun _ _ _ hcall ↦ by cases hcall⟩
    (fun _ _ _ _ hpast hreached hstep ↦ ⟨regular_step hreached.regular hstep,
      witnessed_step hpast hreached.regular hreached.witnessed hstep⟩) hrun

/-- In every run of calls of `push` and `pop`, what has been popped is the beginning of what has
been pushed, `head_` reaches `tail_`, no call goes through a null pointer, and a call of `pop` that
returns `false` was in the middle of an empty list at one of its steps. -/
theorem fifo_run [Inhabited T] (schedule : List (Act ι T)) (s : LockFreeQueue ι T)
    (hrun : run step schedule new = some s) :
    s.popped <+: s.pushed ∧
      Relation.ReflTransGen (fun a b ↦ s.next a = some b) s.head s.tail ∧
      (∀ thread, s.calls thread ≠ .undefined) ∧
      ∀ act s' thread, step act s = some s' → (s.calls thread).InPop →
        s'.calls thread = .popped none →
        Since step new Empty (fun r ↦ (r.calls thread).InPop) schedule := by
  obtain ⟨⟨chain, t, hshape⟩, hwitnessed⟩ := reached_run hrun
  refine ⟨hshape.order, hshape.linked.reaches hshape.head hshape.tail hshape.le,
    fun thread hcall ↦ ?_, fun act s' thread hstep hpop hreturn ↦ ?_⟩
  · have hholds := hshape.holds thread
    rw [hcall] at hholds
    exact hholds
  · have hchanged : s.calls thread ≠ s'.calls thread := by
      intro hsame
      rw [hsame, hreturn] at hpop
      exact hpop
    have hcaller : thread = act.caller := by
      by_contra hne
      exact hchanged (calls_step_of_ne hstep hne).symm
    cases act with
    | push other item =>
      cases hcaller
      simp only [step] at hstep
      split_ifs at hstep with hover
      cases hstep
      rw [Act.caller, calls_go_self] at hreturn
      cases hreturn
    | pop other =>
      cases hcaller
      simp only [step] at hstep
      split_ifs at hstep
      cases hstep
      rw [Act.caller, calls_go_self] at hreturn
      cases hreturn
    | step other =>
      cases hcaller
      obtain ⟨oldHead, oldTail, hcheck⟩ := (advance_popNull hstep).2 hreturn
      exact hwitnessed other oldHead oldTail hcheck

/-- Another thread starts to push before the first item is popped. -/
def overlap : List (Act Bool ℕ) :=
  .push true 5 :: List.replicate 7 (.step true) ++ .pop false :: .push true 6 ::
    List.replicate 4 (.step true) ++ List.replicate 8 (.step false)

theorem fifo_overlap : ∃ s, run step overlap (new : LockFreeQueue Bool ℕ) = some s ∧
    s.popped = [5] ∧ s.popped <+: s.pushed :=
  ⟨_, rfl, rfl, (fifo_run overlap _ rfl).1⟩

end LockFreeQueue

end LWebServer
