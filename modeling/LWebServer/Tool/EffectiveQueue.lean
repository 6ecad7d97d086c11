import LWebServer.Tool.QueueOrder

/-!
# The queue with two locks

`EffectiveQueue` is a list of nodes from `head` to `tail`, of which the last one is a dummy. A call
of `push` takes the mutex `tm` only, and a call of `pop` holds `hm` and takes `tm` to read `tail`;
what is done under `tm` is one step, and the steps of any number of calls come in any order. The
number of a node is never used again.
-/

namespace LWebServer

open Schedule

variable {ι T : Type}

/-- Where a thread is in a call of `pop` or `push`, with the local variables that it will still
use. `place` counts the nodes that were taken before. -/
inductive EffectiveCall (T : Type) where
  /-- It has not called anything, or a call of `push` has returned. -/
  | idle
  /-- A call of `pop` has returned a pointer, or a null pointer. -/
  | popped (val : Option T)
  /-- The lock of `hm` -/
  | popLock
  /-- `head.get() == get_tail()` -/
  | popTail
  /-- `head = std::move(oldHead->next)` -/
  | popMove
  /-- `count--` -/
  | popCount (oldHead place : ℕ)
  /-- `return oldHead->val` -/
  | popReturn (oldHead place : ℕ)
  /-- `pop` has gone through a null pointer. -/
  | undefined
  /-- What `push` does under `tm` -/
  | pushLink (newVal : T)
  /-- `count++` -/
  | pushCount

namespace EffectiveCall

/-- A thread that can make a call. -/
def Over : EffectiveCall T → Prop
  | idle => True
  | popped _ => True
  | _ => False

instance (call : EffectiveCall T) : Decidable call.Over := by
  cases call <;> unfold Over <;> infer_instance

/-- A call that holds `hm`. -/
def Locked : EffectiveCall T → Prop
  | popTail => True
  | popMove => True
  | _ => False

/-- The node that a call has taken, and its place. -/
def taken : EffectiveCall T → Option (ℕ × ℕ)
  | popCount oldHead place => some (oldHead, place)
  | popReturn oldHead place => some (oldHead, place)
  | _ => none

end EffectiveCall

/-- `ws::EffectiveQueue` with its nodes and the threads that use it. Nodes are numbered in the order
in which they are linked, from zero. `pushed` and `popped` are the values in the order of the
sections of `push` under `tm` and of the moves of `head`, and `returned` what calls of `pop` have
returned, with the places of their nodes. -/
structure EffectiveQueue (ι T : Type) where
  val : ℕ → Option T
  next : ℕ → Option ℕ
  built : ℕ
  head : Option ℕ
  tail : ℕ
  hm : Option ι
  count : ℤ
  calls : ι → EffectiveCall T
  pushed : List T
  popped : List (Option T)
  returned : List (ℕ × Option T)

namespace EffectiveQueue

/-- A thread calls `push` or `pop`, or takes the next step of its call. -/
inductive Act (ι T : Type) where
  | push (thread : ι) (x : T)
  | pop (thread : ι)
  | step (thread : ι)

/-- A queue that has just been built. -/
def new : EffectiveQueue ι T where
  val := fun _ ↦ none
  next := fun _ ↦ none
  built := 1
  head := some 0
  tail := 0
  hm := none
  count := 0
  calls := fun _ ↦ .idle
  pushed := []
  popped := []
  returned := []

/-- What `push` does under `tm`, with the new node `p`. -/
def link (newVal : T) (s : EffectiveQueue ι T) : EffectiveQueue ι T :=
  let p := s.built
  { s with
    val := Function.update (Function.update s.val p none) s.tail (some newVal)
    next := Function.update (Function.update s.next p none) s.tail (some p)
    tail := p
    built := p + 1
    pushed := s.pushed ++ [newVal] }

/-- What `pop_head` does if the list is not empty, up to the release of `hm`. -/
def moveHead (oldHead : ℕ) (s : EffectiveQueue ι T) : EffectiveQueue ι T :=
  { s with
    head := s.next oldHead
    next := Function.update s.next oldHead none
    hm := none
    popped := s.popped ++ [s.val oldHead] }

/-- `pop` returns the value of the node that it has taken. -/
def record (oldHead place : ℕ) (s : EffectiveQueue ι T) : EffectiveQueue ι T :=
  { s with returned := s.returned ++ [(place, s.val oldHead)] }

variable [DecidableEq ι]

/-- A thread goes on to another step. -/
def go (thread : ι) (call : EffectiveCall T) (s : EffectiveQueue ι T) : EffectiveQueue ι T :=
  { s with calls := Function.update s.calls thread call }

/-- The next step of the call of a thread. -/
def advance (thread : ι) (s : EffectiveQueue ι T) : Option (EffectiveQueue ι T) :=
  match s.calls thread with
  | .idle => none
  | .popped _ => none
  | .undefined => none
  | .popLock => if s.hm = none then some ({ s with hm := some thread }.go thread .popTail) else none
  | .popTail =>
    if s.head = some s.tail then some ({ s with hm := none }.go thread (.popped none))
    else some (s.go thread .popMove)
  | .popMove =>
    match s.head with
    | none => some (s.go thread .undefined)
    | some oldHead =>
      some ((s.moveHead oldHead).go thread (.popCount oldHead s.popped.length))
  | .popCount oldHead place =>
    some ({ s with count := LockFreeQueue.toInt (s.count - 1) }.go thread
      (.popReturn oldHead place))
  | .popReturn oldHead place =>
    some ((s.record oldHead place).go thread (.popped (s.val oldHead)))
  | .pushLink newVal => some ((s.link newVal).go thread .pushCount)
  | .pushCount => some ({ s with count := LockFreeQueue.toInt (s.count + 1) }.go thread .idle)

def step : Act ι T → EffectiveQueue ι T → Option (EffectiveQueue ι T)
  | .push thread x, s =>
    if (s.calls thread).Over then some (s.go thread (.pushLink x)) else none
  | .pop thread, s => if (s.calls thread).Over then some (s.go thread .popLock) else none
  | .step thread, s => s.advance thread

end EffectiveQueue

/-! ## The list -/

namespace EffectiveQueue

/-- The nodes from `head` to `tail`: all but the last one hold what has been pushed and not been
taken, in order. -/
structure Content (s : EffectiveQueue ι T) (chain : List ℕ) : Prop where
  linked : Linked s.next chain
  nodup : chain.Nodup
  built : ∀ a ∈ chain, a < s.built
  head : s.head = chain.head?
  tail : chain.getLast? = some s.tail
  values : chain.dropLast.map s.val = (s.pushed.drop s.popped.length).map some
  order : s.popped <+: s.pushed.map some

theorem content_new : (new : EffectiveQueue ι T).Content [0] where
  linked := Linked.singleton rfl
  nodup := List.nodup_singleton 0
  built := by simp [new]
  head := rfl
  tail := rfl
  values := rfl
  order := List.nil_prefix

variable {s : EffectiveQueue ι T} {chain : List ℕ}

theorem Content.length_le (hcontent : s.Content chain) : s.popped.length ≤ s.pushed.length := by
  have hle := hcontent.order.length_le
  rwa [List.length_map] at hle

/-- The last node points to nothing. -/
theorem Content.next_tail (hcontent : s.Content chain) :
    chain[chain.length - 1]? = some s.tail ∧ s.next s.tail = none := by
  have htail := hcontent.tail
  rw [List.getLast?_eq_getElem?] at htail
  have hlt := (List.getElem?_eq_some_iff.1 htail).1
  refine ⟨htail, ?_⟩
  rw [hcontent.linked _ _ htail]
  apply List.getElem?_eq_none
  omega

theorem Content.built_notMem (hcontent : s.Content chain) : s.built ∉ chain :=
  fun hmem ↦ lt_irrefl _ (hcontent.built _ hmem)

theorem Content.ne_nil (hcontent : s.Content chain) : chain ≠ [] := by
  rintro rfl
  cases hcontent.tail

theorem Content.dropLast_append_tail (hcontent : s.Content chain) :
    chain.dropLast ++ [s.tail] = chain := by
  have hlast := List.getLast?_eq_some_getLast hcontent.ne_nil
  rw [hcontent.tail] at hlast
  rw [Option.some.inj hlast]
  exact List.dropLast_append_getLast hcontent.ne_nil

/-- A section of `push` writes into the last node and the new one, and leaves the values of the
others alone. -/
theorem Content.map_val_link (hcontent : s.Content chain) (newVal : T) :
    chain.dropLast.map (s.link newVal).val = chain.dropLast.map s.val := by
  have hdrop : s.tail ∉ chain.dropLast := by
    have hnodup := hcontent.nodup
    rw [← hcontent.dropLast_append_tail] at hnodup
    exact fun hmem ↦ List.disjoint_of_nodup_append hnodup hmem List.mem_cons_self
  apply List.map_congr_left
  intro a hmem
  have hbuilt : a ≠ s.built := fun heq ↦ hcontent.built_notMem (heq ▸ List.dropLast_subset _ hmem)
  have htail : a ≠ s.tail := fun heq ↦ hdrop (heq ▸ hmem)
  calc (s.link newVal).val a
    _ = Function.update s.val s.built none a := Function.update_of_ne htail _ _
    _ = s.val a := Function.update_of_ne hbuilt _ _

/-- A section of `push` appends a node. -/
theorem Content.link (hcontent : s.Content chain) (newVal : T) :
    (s.link newVal).Content (chain ++ [s.built]) := by
  obtain ⟨hlast, hnext⟩ := hcontent.next_tail
  have hfresh := hcontent.built_notMem
  have hother : s.tail ≠ s.built := fun heq ↦ hfresh (heq ▸ List.mem_of_getElem? hlast)
  have hlinked : Linked (Function.update s.next s.built none) chain := by
    apply hcontent.linked.congr
    intro a hmem
    have ha : a ≠ s.built := fun heq ↦ hfresh (heq ▸ hmem)
    exact Function.update_of_ne ha _ _
  exact {
    linked := by
      refine hlinked.snoc hcontent.nodup hlast ?_ hfresh (Function.update_self _ _ _)
      exact (Function.update_of_ne hother _ _).trans hnext
    nodup := List.nodup_append.2 ⟨hcontent.nodup, List.nodup_singleton _, by
      intro a hmem b hb heq
      rw [List.mem_singleton.1 hb] at heq
      exact hfresh (heq ▸ hmem)⟩
    built := by
      intro a hmem
      rcases List.mem_append.1 hmem with hmem | hmem
      · exact Nat.lt_succ_of_lt (hcontent.built a hmem)
      · rw [List.mem_singleton.1 hmem]
        exact Nat.lt_succ_self _
    head := by
      rw [List.head?_append_of_ne_nil _ hcontent.ne_nil]
      exact hcontent.head
    tail := List.getLast?_concat
    values := by
      have hself : (s.link newVal).val s.tail = some newVal := Function.update_self _ _ _
      have hpushed : (s.link newVal).pushed.drop s.popped.length =
          s.pushed.drop s.popped.length ++ [newVal] :=
        List.drop_append_of_le_length hcontent.length_le
      have hpopped : (s.link newVal).popped = s.popped := rfl
      rw [List.dropLast_concat, ← hcontent.dropLast_append_tail, List.map_append,
        hcontent.map_val_link, hcontent.values, hpopped, hpushed, List.map_append,
        List.map_singleton, hself]
      rfl
    order := by
      have hpushed : (s.link newVal).pushed.map some = s.pushed.map some ++ [some newVal] :=
        List.map_append
      rw [hpushed]
      exact hcontent.order.trans (List.prefix_append _ _) }

/-- The move of `head` takes the first node away. -/
theorem Content.moveHead {oldHead : ℕ} (hcontent : s.Content (oldHead :: chain))
    (hmore : chain ≠ []) : (s.moveHead oldHead).Content chain := by
  obtain ⟨hfirst, hnodup⟩ := List.nodup_cons.1 hcontent.nodup
  have hvalues := hcontent.values
  rw [List.dropLast_cons_of_ne_nil hmore, List.map_cons] at hvalues
  have hlength : (s.moveHead oldHead).popped.length = s.popped.length + 1 := by
    simp [EffectiveQueue.moveHead]
  exact {
    linked := by
      intro i a ha
      have hne : a ≠ oldHead := fun heq ↦ hfirst (heq ▸ List.mem_of_getElem? ha)
      exact (Function.update_of_ne hne _ _).trans (hcontent.linked (i + 1) a ha)
    nodup := hnodup
    built := fun a hmem ↦ hcontent.built a (List.mem_cons_of_mem _ hmem)
    head := by
      rw [List.head?_eq_getElem?]
      exact hcontent.linked 0 oldHead rfl
    tail := by
      have htail := hcontent.tail
      rwa [List.getLast?_cons_of_ne_nil hmore] at htail
    values := by
      have htail := congrArg List.tail hvalues
      rw [List.tail_cons, ← List.map_tail, List.tail_drop, ← hlength] at htail
      exact htail
    order := by
      apply LockFreeQueue.prefix_snoc hcontent.order
      have hhead := congrArg List.head? hvalues
      rw [List.head?_cons, List.map_drop, List.head?_drop] at hhead
      exact hhead.symm }

/-! ## The mutex of `head` -/

/-- Only the thread that has `hm` is in a section under it, and the list is not empty where `head`
is about to be moved. -/
structure Guarded (s : EffectiveQueue ι T) : Prop where
  locked : ∀ thread, (s.calls thread).Locked → s.hm = some thread
  more : ∀ thread, s.calls thread = .popMove → s.head ≠ some s.tail
  defined : ∀ thread, s.calls thread ≠ .undefined

theorem guarded_new : (new : EffectiveQueue ι T).Guarded where
  locked := fun _ hlocked ↦ hlocked.elim
  more := fun _ hcall ↦ by cases hcall
  defined := fun _ hcall ↦ by cases hcall

theorem Guarded.link (hguarded : s.Guarded) (hcontent : s.Content chain) (newVal : T) :
    (s.link newVal).Guarded where
  locked := hguarded.locked
  more := by
    intro thread _ hempty
    have hbuilt : chain.head? = some s.built := hcontent.head.symm.trans hempty
    exact lt_irrefl _ (hcontent.built _ (List.mem_of_mem_head? hbuilt))
  defined := hguarded.defined

variable [DecidableEq ι] {thread : ι} {call : EffectiveCall T}

theorem calls_go_self (thread : ι) (call : EffectiveCall T) (s : EffectiveQueue ι T) :
    (s.go thread call).calls thread = call := Function.update_self _ _ _

theorem calls_go_of_ne {other : ι} (hne : other ≠ thread) (call : EffectiveCall T)
    (s : EffectiveQueue ι T) : (s.go thread call).calls other = s.calls other :=
  Function.update_of_ne hne _ _

theorem Guarded.go (hguarded : s.Guarded) (hlocked : call.Locked → s.hm = some thread)
    (hmore : call = .popMove → s.head ≠ some s.tail) (hdefined : call ≠ .undefined) :
    (s.go thread call).Guarded := by
  constructor <;> intro other <;> by_cases hother : other = thread
  · rw [hother, calls_go_self]
    exact hlocked
  · rw [calls_go_of_ne hother]
    exact hguarded.locked other
  · rw [hother, calls_go_self]
    exact hmore
  · rw [calls_go_of_ne hother]
    exact hguarded.more other
  · rw [hother, calls_go_self]
    exact hdefined
  · rw [calls_go_of_ne hother]
    exact hguarded.defined other

/-- A thread goes on to a step outside of the section. -/
theorem Guarded.goFree (hguarded : s.Guarded) (hfree : ¬ call.Locked)
    (hdefined : call ≠ .undefined) : (s.go thread call).Guarded := by
  apply hguarded.go (fun hlocked ↦ absurd hlocked hfree) ?_ hdefined
  rintro rfl
  exact absurd trivial hfree

/-- `hm` is free, and one thread takes it. -/
theorem Guarded.acquire (hguarded : s.Guarded) (hfree : s.hm = none) (thread : ι) :
    ({ s with hm := some thread }.go thread .popTail).Guarded := by
  have hnone (other : ι) : ¬ (s.calls other).Locked := by
    intro hlocked
    have hhm := hguarded.locked other hlocked
    rw [hfree] at hhm
    cases hhm
  constructor <;> intro other <;> by_cases hother : other = thread
  · intro _
    rw [hother]
    rfl
  · rw [calls_go_of_ne hother]
    exact fun hlocked ↦ absurd hlocked (hnone other)
  · rw [hother, calls_go_self]
    intro hcall
    cases hcall
  · rw [calls_go_of_ne hother]
    exact hguarded.more other
  · rw [hother, calls_go_self]
    intro hcall
    cases hcall
  · rw [calls_go_of_ne hother]
    exact hguarded.defined other

/-- The thread that has `hm` leaves its section. What has become of the list does not matter to the
others. -/
theorem Guarded.release (hguarded : s.Guarded) (hself : (s.calls thread).Locked)
    {s' : EffectiveQueue ι T} (hcalls : s'.calls = s.calls) (hfree : ¬ call.Locked)
    (hdefined : call ≠ .undefined) : (s'.go thread call).Guarded := by
  have hothers {other : ι} (hother : other ≠ thread) : ¬ (s.calls other).Locked := by
    intro hlocked
    have hhm := hguarded.locked other hlocked
    rw [hguarded.locked thread hself] at hhm
    exact hother (Option.some.inj hhm).symm
  constructor <;> intro other <;> by_cases hother : other = thread
  · rw [hother, calls_go_self]
    exact fun hlocked ↦ absurd hlocked hfree
  · rw [calls_go_of_ne hother, hcalls]
    exact fun hlocked ↦ absurd hlocked (hothers hother)
  · rw [hother, calls_go_self]
    rintro rfl
    exact absurd trivial hfree
  · rw [calls_go_of_ne hother, hcalls]
    intro hcall
    exact absurd (by rw [hcall]; trivial) (hothers hother)
  · rw [hother, calls_go_self]
    exact hdefined
  · rw [calls_go_of_ne hother, hcalls]
    exact hguarded.defined other

/-! ## What is returned -/

/-- A node that a call has taken is not in the list any more and keeps its value; the places of what
has been returned and of what has been taken are those of all that has been popped, each once. -/
structure Receipts (s : EffectiveQueue ι T) (chain : List ℕ) : Prop where
  taken : ∀ thread oldHead place, (s.calls thread).taken = some (oldHead, place) →
    oldHead ∉ chain ∧ oldHead < s.built ∧ s.popped[place]? = some (s.val oldHead)
  distinct : ∀ thread thread' oldHead oldHead' place,
    (s.calls thread).taken = some (oldHead, place) →
    (s.calls thread').taken = some (oldHead', place) → thread = thread'
  unreturned : ∀ thread oldHead place, (s.calls thread).taken = some (oldHead, place) →
    place ∉ s.returned.map Prod.fst
  returned : ∀ r ∈ s.returned, s.popped[r.1]? = some r.2
  once : (s.returned.map Prod.fst).Nodup
  complete : ∀ place < s.popped.length, place ∈ s.returned.map Prod.fst ∨
    ∃ thread oldHead, (s.calls thread).taken = some (oldHead, place)

omit [DecidableEq ι] in
theorem receipts_new : (new : EffectiveQueue ι T).Receipts [0] where
  taken := fun _ _ _ htaken ↦ by cases htaken
  distinct := fun _ _ _ _ _ htaken ↦ by cases htaken
  unreturned := fun _ _ _ htaken ↦ by cases htaken
  returned := fun _ hmem ↦ by cases hmem
  once := List.nodup_nil
  complete := fun _ hplace ↦ absurd hplace (Nat.not_lt_zero _)

omit [DecidableEq ι] in
/-- The places are those of what has been popped. -/
theorem Receipts.lt_of_returned (hreceipts : s.Receipts chain) {place : ℕ}
    (hmem : place ∈ s.returned.map Prod.fst) : place < s.popped.length := by
  obtain ⟨r, hr, rfl⟩ := List.mem_map.1 hmem
  exact (List.getElem?_eq_some_iff.1 (hreceipts.returned r hr)).1

omit [DecidableEq ι] in
/-- A section of `push` leaves the nodes that have been taken alone. -/
theorem Receipts.link (hreceipts : s.Receipts chain) (hcontent : s.Content chain) (newVal : T) :
    (s.link newVal).Receipts (chain ++ [s.built]) := by
  refine { hreceipts with taken := ?_ }
  intro thread oldHead place htaken
  obtain ⟨hgone, hbuilt, hval⟩ := hreceipts.taken thread oldHead place htaken
  have htail : oldHead ≠ s.tail := fun heq ↦
    hgone (heq ▸ List.mem_of_getElem? hcontent.next_tail.1)
  have hsame : (s.link newVal).val oldHead = s.val oldHead :=
    (Function.update_of_ne htail _ _).trans (Function.update_of_ne hbuilt.ne _ _)
  refine ⟨?_, Nat.lt_succ_of_lt hbuilt, hval.trans (congrArg some hsame.symm)⟩
  intro hmem
  rcases List.mem_append.1 hmem with hmem | hmem
  · exact hgone hmem
  · exact hbuilt.ne (List.mem_singleton.1 hmem)

theorem taken_go (htaken : call.taken = (s.calls thread).taken) (other : ι) :
    ((s.go thread call).calls other).taken = (s.calls other).taken := by
  by_cases hother : other = thread
  · rw [hother, calls_go_self, htaken]
  · rw [calls_go_of_ne hother]

theorem Receipts.go (hreceipts : s.Receipts chain) (htaken : call.taken = (s.calls thread).taken) :
    (s.go thread call).Receipts chain := by
  have hsame := taken_go htaken
  exact {
    taken := fun other ↦ by rw [hsame]; exact hreceipts.taken other
    distinct := fun other other' ↦ by rw [hsame, hsame]; exact hreceipts.distinct other other'
    unreturned := fun other ↦ by rw [hsame]; exact hreceipts.unreturned other
    returned := hreceipts.returned
    once := hreceipts.once
    complete := by
      intro place hplace
      apply (hreceipts.complete place hplace).imp_right
      intro ⟨other, oldHead, hother⟩
      exact ⟨other, oldHead, (hsame other).trans hother⟩ }

/-- The thread that moves `head` has taken the next node. -/
theorem Receipts.moveHead {oldHead : ℕ} (hreceipts : s.Receipts (oldHead :: chain))
    (hcontent : s.Content (oldHead :: chain)) (hnone : (s.calls thread).taken = none) :
    ((s.moveHead oldHead).go thread (.popCount oldHead s.popped.length)).Receipts chain := by
  have hself := calls_go_self thread (.popCount oldHead s.popped.length) (s.moveHead oldHead)
  have hother {other : ι} (hne : other ≠ thread) :
      ((s.moveHead oldHead).go thread (.popCount oldHead s.popped.length)).calls other =
        s.calls other := calls_go_of_ne hne _ _
  have hkept {place : ℕ} {val : Option T} (hval : s.popped[place]? = some val) :
      (s.popped ++ [s.val oldHead])[place]? = some val := by
    rw [List.getElem?_append_left (List.getElem?_eq_some_iff.1 hval).1, hval]
  have hlt {other : ι} {node place : ℕ} (htaken : (s.calls other).taken = some (node, place)) :
      place < s.popped.length :=
    (List.getElem?_eq_some_iff.1 (hreceipts.taken other node place htaken).2.2).1
  have hcases {other : ι} {node place : ℕ} (htaken : (((s.moveHead oldHead).go thread
      (.popCount oldHead s.popped.length)).calls other).taken = some (node, place)) :
      (other = thread ∧ node = oldHead ∧ place = s.popped.length) ∨
        (other ≠ thread ∧ (s.calls other).taken = some (node, place)) := by
    by_cases hne : other = thread
    · rw [hne, hself] at htaken
      cases htaken
      exact .inl ⟨hne, rfl, rfl⟩
    · rw [hother hne] at htaken
      exact .inr ⟨hne, htaken⟩
  exact {
    taken := by
      intro other node place htaken
      rcases hcases htaken with ⟨-, rfl, rfl⟩ | ⟨-, hbefore⟩
      · exact ⟨(List.nodup_cons.1 hcontent.nodup).1, hcontent.built _ List.mem_cons_self,
          List.getElem?_concat_length⟩
      · obtain ⟨hgone, hbuilt, hval⟩ := hreceipts.taken other node place hbefore
        exact ⟨fun hmem ↦ hgone (List.mem_cons_of_mem _ hmem), hbuilt, hkept hval⟩
    distinct := by
      intro other other' node node' place htaken htaken'
      rcases hcases htaken with ⟨rfl, -, rfl⟩ | ⟨-, hbefore⟩
      · rcases hcases htaken' with ⟨rfl, -, -⟩ | ⟨-, hbefore'⟩
        · rfl
        · exact absurd (hlt hbefore') (lt_irrefl _)
      · rcases hcases htaken' with ⟨rfl, -, rfl⟩ | ⟨-, hbefore'⟩
        · exact absurd (hlt hbefore) (lt_irrefl _)
        · exact hreceipts.distinct other other' node node' place hbefore hbefore'
    unreturned := by
      intro other node place htaken hmem
      rcases hcases htaken with ⟨-, -, rfl⟩ | ⟨-, hbefore⟩
      · exact lt_irrefl _ (hreceipts.lt_of_returned hmem)
      · exact hreceipts.unreturned other node place hbefore hmem
    returned := fun r hr ↦ hkept (hreceipts.returned r hr)
    once := hreceipts.once
    complete := by
      intro place hplace
      have hlength : (s.popped ++ [s.val oldHead]).length = s.popped.length + 1 :=
        List.length_append
      rcases Nat.lt_succ_iff_lt_or_eq.1 (hplace.trans_eq hlength) with hbefore | rfl
      · apply (hreceipts.complete place hbefore).imp_right
        intro ⟨other, node, htaken⟩
        have hne : other ≠ thread := by
          rintro rfl
          rw [hnone] at htaken
          cases htaken
        exact ⟨other, node, by rw [hother hne, htaken]⟩
      · exact .inr ⟨thread, oldHead, by rw [hself]; rfl⟩ }

omit [DecidableEq ι] in
theorem places_record (oldHead place : ℕ) (s : EffectiveQueue ι T) :
    (s.record oldHead place).returned.map Prod.fst = s.returned.map Prod.fst ++ [place] :=
  List.map_append

/-- The call returns the value of its node. -/
theorem Receipts.record {oldHead place : ℕ} (hreceipts : s.Receipts chain)
    (htaken : (s.calls thread).taken = some (oldHead, place)) (val : Option T) :
    ((s.record oldHead place).go thread (.popped val)).Receipts chain := by
  have hself := calls_go_self thread (.popped val) (s.record oldHead place)
  have hother {other : ι} (hne : other ≠ thread) :
      ((s.record oldHead place).go thread (.popped val)).calls other = s.calls other :=
    calls_go_of_ne hne _ _
  have hplaces := places_record oldHead place s
  have hcases {other : ι} {node place' : ℕ} (htaken' : (((s.record oldHead place).go thread
      (.popped val)).calls other).taken = some (node, place')) :
      other ≠ thread ∧ (s.calls other).taken = some (node, place') := by
    by_cases hne : other = thread
    · rw [hne, hself] at htaken'
      cases htaken'
    · rw [hother hne] at htaken'
      exact ⟨hne, htaken'⟩
  exact {
    taken := fun other node place' htaken' ↦ hreceipts.taken other node place' (hcases htaken').2
    distinct := fun other other' node node' place' hfirst hsecond ↦
      hreceipts.distinct other other' node node' place' (hcases hfirst).2 (hcases hsecond).2
    unreturned := by
      intro other node place' htaken'
      obtain ⟨hne, hbefore⟩ := hcases htaken'
      change place' ∉ (s.record oldHead place).returned.map Prod.fst
      rw [hplaces]
      intro hmem
      rcases List.mem_append.1 hmem with hmem | hmem
      · exact hreceipts.unreturned other node place' hbefore hmem
      · rw [List.mem_singleton.1 hmem] at hbefore
        exact hne (hreceipts.distinct other thread node oldHead place hbefore htaken)
    returned := by
      intro r hr
      rcases List.mem_append.1 hr with hr | hr
      · exact hreceipts.returned r hr
      · rw [List.mem_singleton.1 hr]
        exact (hreceipts.taken thread oldHead place htaken).2.2
    once := by
      change ((s.record oldHead place).returned.map Prod.fst).Nodup
      rw [hplaces, List.nodup_append]
      refine ⟨hreceipts.once, List.nodup_singleton _, ?_⟩
      intro place' hmem last hlast heq
      rw [List.mem_singleton.1 hlast] at heq
      exact hreceipts.unreturned thread oldHead place htaken (heq ▸ hmem)
    complete := by
      intro place' hplace
      change place' ∈ (s.record oldHead place).returned.map Prod.fst ∨ _
      rw [hplaces]
      rcases hreceipts.complete place' hplace with hmem | ⟨other, node, hbefore⟩
      · exact .inl (List.mem_append_left _ hmem)
      · by_cases hne : other = thread
        · rw [hne, htaken] at hbefore
          cases hbefore
          exact .inl (List.mem_append_right _ List.mem_cons_self)
        · exact .inr ⟨other, node, by rw [hother hne, hbefore]⟩ }

/-! ## Runs -/

/-- The queue has a list of nodes in order, and its calls are as they should be. -/
structure Regular (s : EffectiveQueue ι T) : Prop where
  guarded : s.Guarded
  list : ∃ chain, s.Content chain ∧ s.Receipts chain

omit [DecidableEq ι] in
theorem regular_new : (new : EffectiveQueue ι T).Regular :=
  ⟨guarded_new, [0], content_new, receipts_new⟩

/-- A call that has taken nothing goes on to another step without taking a node. -/
theorem Receipts.goNone (hreceipts : s.Receipts chain) (hbefore : (s.calls thread).taken = none)
    (hafter : call.taken = none) : (s.go thread call).Receipts chain :=
  hreceipts.go (hafter.trans hbefore.symm)

/-- A thread goes on to a step outside of the section, with the node that it has taken. -/
theorem Regular.go (hregular : s.Regular) (hfree : ¬ call.Locked) (hdefined : call ≠ .undefined)
    (htaken : call.taken = (s.calls thread).taken) : (s.go thread call).Regular := by
  obtain ⟨hguarded, chain, hcontent, hreceipts⟩ := hregular
  exact ⟨hguarded.goFree hfree hdefined, chain, { hcontent with }, hreceipts.go htaken⟩

omit [DecidableEq ι] in
/-- Nothing depends on `count`. -/
theorem Regular.recount (hregular : s.Regular) (count : ℤ) :
    ({ s with count := count } : EffectiveQueue ι T).Regular := by
  obtain ⟨hguarded, chain, hcontent, hreceipts⟩ := hregular
  exact ⟨{ hguarded with }, chain, { hcontent with }, { hreceipts with }⟩

theorem Regular.acquire (hregular : s.Regular) (hcall : s.calls thread = .popLock)
    (hfree : s.hm = none) : ({ s with hm := some thread }.go thread .popTail).Regular := by
  obtain ⟨hguarded, chain, hcontent, hreceipts⟩ := hregular
  have hreceipts' : ({ s with hm := some thread } : EffectiveQueue ι T).Receipts chain :=
    { hreceipts with }
  exact ⟨hguarded.acquire hfree thread, chain, { hcontent with },
    hreceipts'.goNone (congrArg EffectiveCall.taken hcall) rfl⟩

/-- `pop` has found the list empty. -/
theorem Regular.giveUp (hregular : s.Regular) (hcall : s.calls thread = .popTail) :
    ({ s with hm := none }.go thread (.popped none)).Regular := by
  obtain ⟨hguarded, chain, hcontent, hreceipts⟩ := hregular
  have hreceipts' : ({ s with hm := none } : EffectiveQueue ι T).Receipts chain :=
    { hreceipts with }
  refine ⟨hguarded.release (by rw [hcall]; trivial) rfl id ?_, chain, { hcontent with },
    hreceipts'.goNone (congrArg EffectiveCall.taken hcall) rfl⟩
  intro hundefined
  cases hundefined

/-- `pop` has found the list not empty. -/
theorem Regular.goOn (hregular : s.Regular) (hcall : s.calls thread = .popTail)
    (hmore : s.head ≠ some s.tail) : (s.go thread .popMove).Regular := by
  obtain ⟨hguarded, chain, hcontent, hreceipts⟩ := hregular
  have hlocked : (s.calls thread).Locked := by
    rw [hcall]
    trivial
  refine ⟨hguarded.go (fun _ ↦ hguarded.locked thread hlocked) (fun _ ↦ hmore) ?_, chain,
    { hcontent with }, hreceipts.goNone (congrArg EffectiveCall.taken hcall) rfl⟩
  intro hundefined
  cases hundefined

/-- Where `head` is moved there is a node, and it is not the last one. -/
theorem Regular.moveHead (hregular : s.Regular) (hcall : s.calls thread = .popMove) :
    ∃ oldHead, s.head = some oldHead ∧
      ((s.moveHead oldHead).go thread (.popCount oldHead s.popped.length)).Regular := by
  obtain ⟨hguarded, chain, hcontent, hreceipts⟩ := hregular
  have hmore := hguarded.more thread hcall
  cases chain with
  | nil => cases hcontent.tail
  | cons oldHead rest =>
    have hhead : s.head = some oldHead := hcontent.head
    have hrest : rest ≠ [] := by
      rintro rfl
      exact hmore (hhead.trans hcontent.tail)
    refine ⟨oldHead, hhead, hguarded.release (by rw [hcall]; trivial) rfl id ?_, rest,
      { hcontent.moveHead hrest with },
      hreceipts.moveHead hcontent (congrArg EffectiveCall.taken hcall)⟩
    intro hundefined
    cases hundefined

theorem Regular.record {oldHead place : ℕ} (hregular : s.Regular)
    (hcall : s.calls thread = .popReturn oldHead place) :
    ((s.record oldHead place).go thread (.popped (s.val oldHead))).Regular := by
  obtain ⟨hguarded, chain, hcontent, hreceipts⟩ := hregular
  have hguarded' : (s.record oldHead place).Guarded := { hguarded with }
  refine ⟨hguarded'.goFree id ?_, chain, { hcontent with },
    hreceipts.record (congrArg EffectiveCall.taken hcall) _⟩
  intro hundefined
  cases hundefined

theorem Regular.link {newVal : T} (hregular : s.Regular)
    (hcall : s.calls thread = .pushLink newVal) :
    ((s.link newVal).go thread .pushCount).Regular := by
  obtain ⟨hguarded, chain, hcontent, hreceipts⟩ := hregular
  refine ⟨(hguarded.link hcontent newVal).goFree id ?_, _, { hcontent.link newVal with },
    (hreceipts.link hcontent newVal).goNone (congrArg EffectiveCall.taken hcall) rfl⟩
  intro hundefined
  cases hundefined

theorem regular_advance {s' : EffectiveQueue ι T} (hregular : s.Regular)
    (hstep : s.advance thread = some s') : s'.Regular := by
  unfold advance at hstep
  cases hcall : s.calls thread <;> rw [hcall] at hstep <;> dsimp only at hstep
  case idle => cases hstep
  case popped => cases hstep
  case undefined => cases hstep
  case popLock =>
    split_ifs at hstep with hfree
    cases hstep
    exact hregular.acquire hcall hfree
  case popTail =>
    split_ifs at hstep with hempty
    · cases hstep
      exact hregular.giveUp hcall
    · cases hstep
      exact hregular.goOn hcall hempty
  case popMove =>
    obtain ⟨oldHead, hhead, hmoved⟩ := hregular.moveHead hcall
    rw [hhead] at hstep
    cases hstep
    exact hmoved
  case popCount oldHead place =>
    cases hstep
    exact (hregular.recount _).go id (fun hundefined ↦ by cases hundefined)
      (congrArg EffectiveCall.taken hcall).symm
  case popReturn oldHead place =>
    cases hstep
    exact hregular.record hcall
  case pushLink newVal =>
    cases hstep
    exact hregular.link hcall
  case pushCount =>
    cases hstep
    exact (hregular.recount _).go id (fun hundefined ↦ by cases hundefined)
      (congrArg EffectiveCall.taken hcall).symm

omit [DecidableEq ι] in
theorem taken_of_over (hover : (s.calls thread).Over) : (s.calls thread).taken = none := by
  cases hcall : s.calls thread <;> rw [hcall] at hover <;> first | rfl | exact hover.elim

theorem Regular.start (hregular : s.Regular) (hover : (s.calls thread).Over)
    (hnone : call.taken = none) (hfree : ¬ call.Locked) (hdefined : call ≠ .undefined) :
    (s.go thread call).Regular :=
  hregular.go hfree hdefined (hnone.trans (taken_of_over hover).symm)

theorem regular_step {act : Act ι T} {s' : EffectiveQueue ι T} (hregular : s.Regular)
    (hstep : step act s = some s') : s'.Regular := by
  cases act with
  | push thread x =>
    simp only [step] at hstep
    split_ifs at hstep with hover
    cases hstep
    exact hregular.start hover rfl id (fun hundefined ↦ by cases hundefined)
  | pop thread =>
    simp only [step] at hstep
    split_ifs at hstep with hover
    cases hstep
    exact hregular.start hover rfl id (fun hundefined ↦ by cases hundefined)
  | step thread => exact regular_advance hregular hstep

theorem regular_run {schedule : List (Act ι T)} (hrun : run step schedule new = some s) :
    s.Regular :=
  invariant regular_new (fun _ _ _ ↦ regular_step) hrun

/-! ## What calls return -/

omit [DecidableEq ι] in
/-- With `head` at `tail`, all that has been pushed has been popped. -/
theorem Content.all_popped (hcontent : s.Content chain) (hempty : s.head = some s.tail) :
    s.popped = s.pushed.map some := by
  have hdrop : chain.dropLast = [] := by
    cases chain with
    | nil => rfl
    | cons first rest =>
      cases rest with
      | nil => rfl
      | cons second rest =>
        have hfirst : first = s.tail := Option.some.inj (hcontent.head.symm.trans hempty)
        have htail := hcontent.tail
        rw [List.getLast?_cons_cons] at htail
        have hmem : first ∈ second :: rest := hfirst ▸ List.mem_of_getLast? htail
        exact absurd hmem (List.nodup_cons.1 hcontent.nodup).1
  have hvalues := hcontent.values
  rw [hdrop, List.map_nil] at hvalues
  have hle : s.pushed.length ≤ s.popped.length :=
    List.drop_eq_nil_iff.1 (List.map_eq_nil_iff.1 hvalues.symm)
  apply hcontent.order.eq_of_length
  rw [List.length_map]
  exact le_antisymm hcontent.length_le hle

omit [DecidableEq ι] in
/-- What has been popped at a place is what has been pushed there. -/
theorem Content.popped_eq (hcontent : s.Content chain) {place : ℕ} {val : Option T}
    (hval : s.popped[place]? = some val) : ∃ x, val = some x ∧ s.pushed[place]? = some x := by
  obtain ⟨rest, heq⟩ := hcontent.order
  have hpushed : (s.pushed.map some)[place]? = some val := by
    rw [← heq, List.getElem?_append_left (List.getElem?_eq_some_iff.1 hval).1, hval]
  rw [List.getElem?_map, Option.map_eq_some_iff] at hpushed
  obtain ⟨x, hx, rfl⟩ := hpushed
  exact ⟨x, rfl, hx⟩

/-- The thread that an act belongs to. -/
def Act.caller : Act ι T → ι
  | push thread _ => thread
  | pop thread => thread
  | step thread => thread

/-- A step changes the call of its own thread only. -/
theorem calls_step_of_ne {act : Act ι T} {s' : EffectiveQueue ι T} (hstep : step act s = some s')
    (hne : thread ≠ act.caller) : s'.calls thread = s.calls thread := by
  cases act with
  | push other x =>
    simp only [step] at hstep
    split_ifs at hstep
    cases hstep
    exact calls_go_of_ne hne _ s
  | pop other =>
    simp only [step] at hstep
    split_ifs at hstep
    cases hstep
    exact calls_go_of_ne hne _ s
  | step other =>
    simp only [step, advance] at hstep
    split at hstep
    all_goals try split_ifs at hstep
    all_goals try split at hstep
    all_goals cases hstep
    all_goals exact calls_go_of_ne hne _ _

/-- Where a step leads that ends with a null pointer. -/
theorem advance_null {s' : EffectiveQueue ι T} (hstep : s.advance thread = some s')
    (hnull : s'.calls thread = .popped none) :
    (s.calls thread = .popTail ∧ s.head = some s.tail) ∨
      ∃ oldHead place, s.calls thread = .popReturn oldHead place ∧ s.val oldHead = none := by
  unfold advance at hstep
  cases hcall : s.calls thread <;> rw [hcall] at hstep <;> dsimp only at hstep
  case popTail =>
    split_ifs at hstep with hempty
    · exact .inl ⟨rfl, hempty⟩
    · cases hstep
      rw [calls_go_self] at hnull
      cases hnull
  case popReturn oldHead place =>
    cases hstep
    rw [calls_go_self] at hnull
    injection hnull with hval
    exact .inr ⟨oldHead, place, rfl, hval⟩
  all_goals
    try split_ifs at hstep
    all_goals try split at hstep
    all_goals
      cases hstep
      try rw [calls_go_self] at hnull
      try cases hnull

/-- A call of `pop` that returns a null pointer does so where it has read `tail` and found that the
list is empty. -/
theorem empty_of_null {act : Act ι T} {s' : EffectiveQueue ι T} (hregular : s.Regular)
    (hstep : step act s = some s') (hchanged : s'.calls thread ≠ s.calls thread)
    (hnull : s'.calls thread = .popped none) :
    s.calls thread = .popTail ∧ s.head = some s.tail ∧ s.popped = s.pushed.map some := by
  have hcaller : thread = act.caller := by
    by_contra hne
    exact hchanged (calls_step_of_ne hstep hne)
  obtain ⟨hguarded, chain, hcontent, hreceipts⟩ := hregular
  cases act with
  | push other x =>
    cases hcaller
    simp only [step] at hstep
    split_ifs at hstep
    cases hstep
    rw [Act.caller, calls_go_self] at hnull
    cases hnull
  | pop other =>
    cases hcaller
    simp only [step] at hstep
    split_ifs at hstep
    cases hstep
    rw [Act.caller, calls_go_self] at hnull
    cases hnull
  | step other =>
    cases hcaller
    rcases advance_null hstep hnull with ⟨hcall, hempty⟩ | ⟨oldHead, place, hcall, hval⟩
    · exact ⟨hcall, hempty, hcontent.all_popped hempty⟩
    · have htaken := (hreceipts.taken other oldHead place (by rw [hcall]; rfl)).2.2
      obtain ⟨x, hx, -⟩ := hcontent.popped_eq htaken
      rw [hval] at hx
      cases hx

/-- What a run of calls has led to: the values that have been popped are the first ones that have
been pushed, what is returned is the value of its place, every place is returned once, or is about
to be, and `head` reaches `tail`. -/
structure Fifo (s : EffectiveQueue ι T) : Prop where
  order : s.popped <+: s.pushed.map some
  returned : ∀ r ∈ s.returned, ∃ x, r.2 = some x ∧ s.pushed[r.1]? = some x
  once : (s.returned.map Prod.fst).Nodup
  complete : ∀ place < s.popped.length, place ∈ s.returned.map Prod.fst ∨
    ∃ thread oldHead, (s.calls thread).taken = some (oldHead, place)
  reaches : ∃ first, s.head = some first ∧
    Relation.ReflTransGen (fun a b ↦ s.next a = some b) first s.tail
  defined : ∀ thread, s.calls thread ≠ .undefined

omit [DecidableEq ι] in
theorem Regular.fifo (hregular : s.Regular) : s.Fifo := by
  obtain ⟨hguarded, chain, hcontent, hreceipts⟩ := hregular
  exact {
    order := hcontent.order
    returned := fun r hr ↦ hcontent.popped_eq (hreceipts.returned r hr)
    once := hreceipts.once
    complete := hreceipts.complete
    reaches := by
      cases chain with
      | nil => cases hcontent.tail
      | cons first rest =>
        refine ⟨first, hcontent.head, ?_⟩
        exact hcontent.linked.reaches rfl hcontent.next_tail.1 (Nat.zero_le _)
    defined := hguarded.defined }

/-- In every run of calls of `push` and `pop`, what is popped is the beginning of what has been
pushed, each value is returned once, `head` reaches `tail`, and a null pointer is returned only
where the list has been found empty. -/
theorem twoLock_fifo {schedule : List (Act ι T)} (hrun : run step schedule new = some s) :
    s.Fifo ∧
      ∀ act s' thread, step act s = some s' → s'.calls thread ≠ s.calls thread →
        s'.calls thread = .popped none →
        s.calls thread = .popTail ∧ s.head = some s.tail ∧ s.popped = s.pushed.map some := by
  have hregular := regular_run hrun
  refine ⟨hregular.fifo, ?_⟩
  intro act s' thread hstep hchanged hnull
  exact empty_of_null hregular hstep hchanged hnull

/-- A thread pushes while another one is between the look at `tail` and the move of `head`. -/
def betweenLocks : List (Act Bool ℕ) :=
  [.push true 5, .step true, .step true, .pop false, .step false, .step false, .push true 6,
    .step true, .step false, .step false, .step false]

theorem twoLock_fifo_between :
    ∃ s, run step betweenLocks (new : EffectiveQueue Bool ℕ) = some s ∧
      s.returned = [(0, some 5)] ∧ s.Fifo := by
  obtain ⟨s, hrun, hreturned⟩ : ∃ s, run step betweenLocks (new : EffectiveQueue Bool ℕ) = some s ∧
      s.returned = [(0, some 5)] := ⟨_, rfl, rfl⟩
  exact ⟨s, hrun, hreturned, (twoLock_fifo hrun).1⟩

end EffectiveQueue

end LWebServer
