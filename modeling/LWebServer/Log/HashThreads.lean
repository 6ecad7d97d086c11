import LWebServer.Library.Locks
import LWebServer.Library.Schedule
import LWebServer.Log.HashMap

/-!
# Threads that share the bucketed map

Every list of `Threadsafe_unordered_map` has a mutex. `add_or_update` and `remove` hold that of
their list while they look for the key and write; `get_standard_map` locks all of them, one after
the other, before it copies. Whatever the interleaving, the calls are as if each had been made at
one moment, and they do not block each other for good.
-/

namespace LWebServer

open Schedule

variable {ι Key Value : Type}

namespace BuketType

/-- The rest of `add_or_update`, behind `find_entry`. -/
def addOrUpdateAt (key : Key) (value : Value) (valueIterator : Option ℕ)
    (buket : BuketType Key Value) : BuketType Key Value :=
  match valueIterator with
  | none => ⟨buket.data ++ [(key, value)]⟩
  | some valueIterator => ⟨buket.data.modify valueIterator fun entry ↦ (entry.1, value)⟩

/-- The rest of `remove`, behind `find_entry`. -/
def removeAt (valueIterator : Option ℕ) (buket : BuketType Key Value) : BuketType Key Value :=
  match valueIterator with
  | none => buket
  | some valueIterator => ⟨buket.data.eraseIdx valueIterator⟩

end BuketType

namespace ThreadsafeUnorderedMap

def Update.key : Update Key Value → Key
  | .addOrUpdate key _ => key
  | .remove key => key

/-- What the call writes to its list, at the place that `find_entry` has found. -/
def Update.writeAt (valueIterator : Option ℕ) :
    Update Key Value → BuketType Key Value → BuketType Key Value
  | .addOrUpdate key value => BuketType.addOrUpdateAt key value valueIterator
  | .remove _ => BuketType.removeAt valueIterator

/-- Where a thread is: at what it does next. -/
inductive Stage (Key Value : Type) where
  | idle
  /-- `add_or_update` or `remove`: lock the mutex, find the entry, write, unlock. -/
  | lock (update : Update Key Value)
  | find (update : Update Key Value)
  | write (update : Update Key Value) (valueIterator : Option ℕ)
  | unlock (update : Update Key Value)
  /-- `get_standard_map`: lock the `i`-th mutex, copy the `i`-th list, unlock the `i`-th mutex. -/
  | gather (i : ℕ)
  | copy (i : ℕ) (standardMap : Key → Option Value)
  | release (i : ℕ) (standardMap : Key → Option Value)

/-- The map with its mutexes and threads. `called` are the calls of `add_or_update` and `remove`,
and `made` those of them that have written, each with its thread. -/
structure Threads (ι Key Value : Type) where
  map : ThreadsafeUnorderedMap Key Value
  mutex : ℕ → Option ι
  stage : ι → Stage Key Value
  called : List (ι × Update Key Value)
  made : List (ι × Update Key Value)

namespace Threads

/-- A thread calls a member function, or takes the next step of its call. -/
inductive Act (ι Key Value : Type) where
  | update (t : ι) (update : Update Key Value)
  | getStandardMap (t : ι)
  | advance (t : ι)

variable [DecidableEq ι] [DecidableEq Key]

def setStage (t : ι) (stage : Stage Key Value) (s : Threads ι Key Value) : Threads ι Key Value :=
  { s with stage := Function.update s.stage t stage }

def setMutex (i : ℕ) (owner : Option ι) (s : Threads ι Key Value) : Threads ι Key Value :=
  { s with mutex := Function.update s.mutex i owner }

/-- The next step of a call, unless it waits for a mutex. -/
def advance (t : ι) (s : Threads ι Key Value) : Option (Threads ι Key Value) :=
  match s.stage t with
  | .idle => none
  | .lock update =>
    if s.mutex (s.map.index update.key) = none then
      some ((s.setMutex (s.map.index update.key) (some t)).setStage t (.find update))
    else none
  | .find update =>
    some (s.setStage t (.write update ((s.map.getBuket update.key).findEntry update.key)))
  | .write update valueIterator =>
    some { s.setStage t (.unlock update) with
      map := s.map.onBuket update.key (update.writeAt valueIterator)
      made := s.made ++ [(t, update)] }
  | .unlock update => some ((s.setMutex (s.map.index update.key) none).setStage t .idle)
  | .gather i =>
    if i < s.map.bukets.length then
      if s.mutex i = none then some ((s.setMutex i (some t)).setStage t (.gather (i + 1)))
      else none
    else some (s.setStage t (.copy 0 fun _ ↦ none))
  | .copy i standardMap => match s.map.bukets[i]? with
    | some buket => some (s.setStage t (.copy (i + 1) (buket.data.foldl insert standardMap)))
    | none => some (s.setStage t (.release 0 standardMap))
  | .release i standardMap =>
    if i < s.map.bukets.length then
      some ((s.setMutex i none).setStage t (.release (i + 1) standardMap))
    else some (s.setStage t .idle)

def step : Act ι Key Value → Threads ι Key Value → Option (Threads ι Key Value)
  | .update t update, s => match s.stage t with
    | .idle => some { s.setStage t (.lock update) with called := s.called ++ [(t, update)] }
    | _ => none
  | .getStandardMap t, s => match s.stage t with
    | .idle => some (s.setStage t (.gather 0))
    | _ => none
  | .advance t, s => s.advance t

/-- An empty map, and no call. -/
def new (numBukets : ℕ) (hnum : 0 < numBukets) (hasher : Key → ℕ) : Threads ι Key Value where
  map := .new numBukets hnum hasher
  mutex := fun _ ↦ none
  stage := fun _ ↦ .idle
  called := []
  made := []

/-- What a finite map has become by the calls. -/
def meaning (made : List (ι × Update Key Value)) : Key → Option Value :=
  (made.map Prod.snd).foldl Update.meaning fun _ ↦ none

/-- The calls of a thread. -/
def callsOf (t : ι) (calls : List (ι × Update Key Value)) : List (Update Key Value) :=
  (calls.filter fun call ↦ call.1 = t).map Prod.snd

end Threads

/-- The thread holds the `i`-th mutex of the map. -/
def Stage.Holds (m : ThreadsafeUnorderedMap Key Value) (i : ℕ) : Stage Key Value → Prop
  | .idle => False
  | .lock _ => False
  | .find update => i = m.index update.key
  | .write update _ => i = m.index update.key
  | .unlock update => i = m.index update.key
  | .gather j => i < j
  | .copy _ _ => i < m.bukets.length
  | .release j _ => j ≤ i ∧ i < m.bukets.length

/-- The mutex that the thread waits for. -/
def Stage.wants (m : ThreadsafeUnorderedMap Key Value) : Stage Key Value → Option ℕ
  | .lock update => some (m.index update.key)
  | .gather i => if i < m.bukets.length then some i else none
  | _ => none

/-- A call that has not written yet. -/
def Stage.pending : Stage Key Value → List (Update Key Value)
  | .lock update => [update]
  | .find update => [update]
  | .write update _ => [update]
  | _ => []

namespace Threads

variable [DecidableEq ι] [DecidableEq Key]

/-- The map is what the calls that have written amount to, in the order in which they have; a
thread's own calls have written in the order in which it has made them; a `get_standard_map` that
has copied all lists has the map as it is at this moment; no two threads hold one mutex; and as long
as a thread is at a call, some thread that is at a call can take a step. -/
structure Atomic (s : Threads ι Key Value) : Prop where
  map : s.map.getStandardMap = meaning s.made
  order : ∀ t, callsOf t s.made ++ (s.stage t).pending = callsOf t s.called
  snapshot : ∀ t standardMap, s.stage t = .release 0 standardMap → standardMap = meaning s.made
  exclusive : ∀ t t' i, (s.stage t).Holds s.map i → (s.stage t').Holds s.map i → t = t'
  progress : ∀ t, s.stage t ≠ .idle → ∃ t', s.stage t' ≠ .idle ∧ (s.advance t').isSome

end Threads

/-! ## Locking -/

theorem Stage.holds_onBuket {m : ThreadsafeUnorderedMap Key Value} (key : Key)
    (f : BuketType Key Value → BuketType Key Value) (i : ℕ) (stage : Stage Key Value) :
    stage.Holds (m.onBuket key f) i ↔ stage.Holds m i := by
  have hlength : (m.onBuket key f).bukets.length = m.bukets.length := List.length_modify ..
  cases stage <;> simp [Holds, hlength]

theorem onBuket_congr {m : ThreadsafeUnorderedMap Key Value} {key : Key}
    {f g : BuketType Key Value → BuketType Key Value}
    (hsame : f (m.getBuket key) = g (m.getBuket key)) : m.onBuket key f = m.onBuket key g := by
  have hbukets : m.bukets.modify (m.index key) f = m.bukets.modify (m.index key) g := by
    apply List.ext_getElem?
    intro i
    rw [List.getElem?_modify, List.getElem?_modify]
    by_cases hi : m.index key = i
    · rw [← hi, getElem?_index]
      simpa using hsame
    · simp [hi]
  unfold onBuket
  simp only [hbukets]

section

variable [DecidableEq Key]

/-- Writing where the key has just been found is the whole call. -/
theorem onBuket_writeAt (m : ThreadsafeUnorderedMap Key Value) (update : Update Key Value) :
    m.onBuket update.key
      (update.writeAt ((m.getBuket update.key).findEntry update.key)) = m.apply update := by
  cases update with
  | addOrUpdate key value => exact onBuket_congr rfl
  | remove key => exact onBuket_congr rfl

/-- What a call has found out still holds. -/
def Stage.Fits (m : ThreadsafeUnorderedMap Key Value) : Stage Key Value → Prop
  | .write update valueIterator =>
    valueIterator = (m.getBuket update.key).findEntry update.key
  | .gather i => i ≤ m.bukets.length
  | .copy i standardMap =>
    standardMap = ((m.bukets.take i).flatMap BuketType.data).foldl insert fun _ ↦ none
  | .release i standardMap => i = 0 → standardMap = m.getStandardMap
  | _ => True

/-- A call that another thread makes on a list does not concern who does not hold its mutex. -/
theorem Stage.fits_onBuket {m : ThreadsafeUnorderedMap Key Value} {key : Key}
    {f : BuketType Key Value → BuketType Key Value} {stage : Stage Key Value}
    (hfits : stage.Fits m) (hholds : ¬ stage.Holds m (m.index key)) :
    stage.Fits (m.onBuket key f) := by
  have hlength : (m.onBuket key f).bukets.length = m.bukets.length := List.length_modify ..
  cases stage with
  | idle => trivial
  | lock update => trivial
  | find update => trivial
  | write update valueIterator =>
    change valueIterator = ((m.onBuket key f).getBuket update.key).findEntry update.key
    have hother : m.index key ≠ m.index update.key := hholds
    rw [getBuket_onBuket, if_neg hother]
    exact hfits
  | unlock update => trivial
  | gather i =>
    change i ≤ (m.onBuket key f).bukets.length
    rw [hlength]
    exact hfits
  | copy i standardMap => exact absurd (m.index_lt key) hholds
  | release i standardMap =>
    intro hi
    exact absurd ⟨hi ▸ Nat.zero_le _, m.index_lt key⟩ hholds

end

namespace Threads

variable [DecidableEq ι] [DecidableEq Key] {s s' : Threads ι Key Value} {t : ι}

omit [DecidableEq Key] in
theorem callsOf_self (t : ι) (calls : List (ι × Update Key Value)) (update : Update Key Value) :
    callsOf t (calls ++ [(t, update)]) = callsOf t calls ++ [update] := by
  simp [callsOf]

omit [DecidableEq Key] in
theorem callsOf_other {t t' : ι} (ht : t' ≠ t) (calls : List (ι × Update Key Value))
    (update : Update Key Value) : callsOf t' (calls ++ [(t, update)]) = callsOf t' calls := by
  simp [callsOf, ht.symm]

/-- A state that the threads reach. -/
structure Regular (s : Threads ι Key Value) : Prop where
  placed : s.map.Placed
  content : s.map.content = meaning s.made
  mutex : ∀ t i, s.mutex i = some t ↔ (s.stage t).Holds s.map i
  fits : ∀ t, (s.stage t).Fits s.map
  order : ∀ t, callsOf t s.made ++ (s.stage t).pending = callsOf t s.called

theorem Regular.ordered (hregular : s.Regular) :
    Locks.Ordered s.map.bukets.length s.mutex fun t ↦ (s.stage t).wants s.map where
  lt_count := by
    intro t l hwants
    cases hstage : s.stage t with
    | lock update =>
      simp only [hstage, Stage.wants, Option.some.injEq] at hwants
      exact hwants ▸ index_lt _ _
    | gather i =>
      simp only [hstage, Stage.wants, Option.ite_none_right_eq_some, Option.some.injEq] at hwants
      exact hwants.2 ▸ hwants.1
    | idle => simp [hstage, Stage.wants] at hwants
    | find update => simp [hstage, Stage.wants] at hwants
    | write update valueIterator => simp [hstage, Stage.wants] at hwants
    | unlock update => simp [hstage, Stage.wants] at hwants
    | copy i standardMap => simp [hstage, Stage.wants] at hwants
    | release i standardMap => simp [hstage, Stage.wants] at hwants
  below := by
    intro t l m howner hwants
    have hholds := (hregular.mutex t l).mp howner
    cases hstage : s.stage t with
    | lock update => simp [hstage, Stage.Holds] at hholds
    | gather i =>
      simp only [hstage, Stage.wants, Option.ite_none_right_eq_some, Option.some.injEq] at hwants
      simp only [hstage, Stage.Holds] at hholds
      omega
    | idle => simp [hstage, Stage.wants] at hwants
    | find update => simp [hstage, Stage.wants] at hwants
    | write update valueIterator => simp [hstage, Stage.wants] at hwants
    | unlock update => simp [hstage, Stage.wants] at hwants
    | copy i standardMap => simp [hstage, Stage.wants] at hwants
    | release i standardMap => simp [hstage, Stage.wants] at hwants

/-- A thread at a call that waits for no mutex that is taken has a next step. -/
theorem isSome_advance (hstage : s.stage t ≠ .idle)
    (hfree : Locks.Free s.mutex (fun t ↦ (s.stage t).wants s.map) t) : (s.advance t).isSome := by
  unfold Locks.Free at hfree
  unfold advance
  cases hat : s.stage t with
  | idle => exact absurd hat hstage
  | lock update =>
    simp only [hat, Stage.wants, Option.some.injEq, forall_eq'] at hfree
    simp [hfree]
  | find update => rfl
  | write update valueIterator => rfl
  | unlock update => rfl
  | gather i =>
    by_cases hi : i < s.map.bukets.length
    · simp only [hat, Stage.wants, if_pos hi, Option.some.injEq, forall_eq'] at hfree
      simp [hi, hfree]
    · simp [hi]
  | copy i standardMap => cases hbuket : s.map.bukets[i]? <;> simp [hbuket]
  | release i standardMap => by_cases hi : i < s.map.bukets.length <;> simp [hi]

theorem Regular.progress (hregular : s.Regular) (hstage : s.stage t ≠ .idle) :
    ∃ t', s.stage t' ≠ .idle ∧ (s.advance t').isSome := by
  rcases hregular.ordered.exists_free t with hfree | ⟨l, t', howner, hfree⟩
  · exact ⟨t, hstage, isSome_advance hstage hfree⟩
  · have hbusy : s.stage t' ≠ .idle := by
      intro hidle
      have hholds := (hregular.mutex t' l).mp howner
      rw [hidle] at hholds
      exact hholds
    exact ⟨t', hbusy, isSome_advance hbusy hfree⟩

theorem Regular.atomic (hregular : s.Regular) : s.Atomic where
  map := (getStandardMap_eq hregular.placed).trans hregular.content
  order := hregular.order
  snapshot t standardMap hstage := by
    have hfits := hregular.fits t
    rw [hstage] at hfits
    calc standardMap
      _ = s.map.getStandardMap := hfits rfl
      _ = s.map.content := getStandardMap_eq hregular.placed
      _ = meaning s.made := hregular.content
  exclusive t t' i hholds hholds' := by
    rw [← hregular.mutex] at hholds hholds'
    exact Option.some.inj (hholds.symm.trans hholds')
  progress t hstage := hregular.progress hstage

/-! ## Steps -/

/-- A step in which one thread goes on, with or without a mutex, and the map stays as it is. -/
theorem Regular.of_stage {stage : Stage Key Value} (hregular : s.Regular)
    (hmap : s'.map = s.map) (hmade : s'.made = s.made) (hcalled : s'.called = s.called)
    (hstage : s'.stage = Function.update s.stage t stage)
    (hown : ∀ i, s'.mutex i = some t ↔ stage.Holds s.map i)
    (hothers : ∀ t' ≠ t, ∀ i, s'.mutex i = some t' ↔ s.mutex i = some t')
    (hfits : stage.Fits s.map) (hpending : stage.pending = (s.stage t).pending) : s'.Regular := by
  refine ⟨hmap ▸ hregular.placed, ?_, fun t' i ↦ ?_, fun t' ↦ ?_, fun t' ↦ ?_⟩
  · rw [hmap, hmade]
    exact hregular.content
  · rw [hmap, hstage]
    by_cases ht : t' = t
    · rw [ht, Function.update_self]
      exact hown i
    · rw [Function.update_of_ne ht, hothers t' ht]
      exact hregular.mutex t' i
  · rw [hmap, hstage]
    by_cases ht : t' = t
    · rw [ht, Function.update_self]
      exact hfits
    · rw [Function.update_of_ne ht]
      exact hregular.fits t'
  · rw [hmade, hcalled, hstage, ← hregular.order]
    by_cases ht : t' = t
    · rw [ht, Function.update_self, hpending]
    · rw [Function.update_of_ne ht]

/-- A step without a mutex. -/
theorem Regular.setStage {stage : Stage Key Value} (hregular : s.Regular)
    (hholds : ∀ i, stage.Holds s.map i ↔ (s.stage t).Holds s.map i) (hfits : stage.Fits s.map)
    (hpending : stage.pending = (s.stage t).pending) : (s.setStage t stage).Regular :=
  hregular.of_stage rfl rfl rfl rfl (fun i ↦ (hregular.mutex t i).trans (hholds i).symm)
    (fun _ _ _ ↦ Iff.rfl) hfits hpending

/-- A step that takes or gives back a mutex. -/
theorem Regular.setMutex {stage : Stage Key Value} {i : ℕ} {owner : Option ι}
    (hregular : s.Regular) (hbefore : s.mutex i = none ∨ s.mutex i = some t)
    (howner : owner = none ∨ owner = some t)
    (hself : owner = some t ↔ stage.Holds s.map i)
    (hholds : ∀ j ≠ i, stage.Holds s.map j ↔ (s.stage t).Holds s.map j)
    (hfits : stage.Fits s.map) (hpending : stage.pending = (s.stage t).pending) :
    ((s.setMutex i owner).setStage t stage).Regular := by
  refine hregular.of_stage rfl rfl rfl rfl ?_ ?_ hfits hpending
  · intro j
    change Function.update s.mutex i owner j = some t ↔ _
    by_cases hj : j = i
    · rw [hj, Function.update_self]
      exact hself
    · rw [Function.update_of_ne hj, hholds j hj]
      exact hregular.mutex t j
  · intro t' ht j
    change Function.update s.mutex i owner j = some t' ↔ _
    by_cases hj : j = i
    · rw [hj, Function.update_self]
      have hnot (o : Option ι) (ho : o = none ∨ o = some t) : o ≠ some t' := by
        rcases ho with rfl | rfl
        · exact (Option.some_ne_none t').symm
        · exact fun hsame ↦ ht (Option.some.inj hsame).symm
      exact iff_of_false (hnot owner howner) (hnot _ hbefore)
    · rw [Function.update_of_ne hj]

/-- A call writes. -/
theorem Regular.write {update : Update Key Value} {valueIterator : Option ℕ}
    (hregular : s.Regular) (hstage : s.stage t = .write update valueIterator) :
    Regular { s.setStage t (.unlock update) with
      map := s.map.onBuket update.key (update.writeAt valueIterator)
      made := s.made ++ [(t, update)] } := by
  have hfound : valueIterator = (s.map.getBuket update.key).findEntry update.key := by
    have hfits := hregular.fits t
    rw [hstage] at hfits
    exact hfits
  have howner : s.mutex (s.map.index update.key) = some t := by
    rw [hregular.mutex, hstage]
    rfl
  have hmap : s.map.onBuket update.key (update.writeAt valueIterator) = s.map.apply update := by
    rw [hfound]
    exact onBuket_writeAt s.map update
  refine ⟨?_, ?_, fun t' i ↦ ?_, fun t' ↦ ?_, fun t' ↦ ?_⟩
  · dsimp only
    rw [hmap]
    exact hregular.placed.apply update
  · dsimp only
    rw [hmap, content_apply hregular.placed, hregular.content]
    unfold meaning
    rw [List.map_append, List.foldl_append]
    rfl
  · change s.mutex i = some t' ↔ (Function.update s.stage t (.unlock update) t').Holds _ i
    rw [Stage.holds_onBuket]
    by_cases ht : t' = t
    · rw [ht, Function.update_self, hregular.mutex, hstage]
      rfl
    · rw [Function.update_of_ne ht]
      exact hregular.mutex t' i
  · change (Function.update s.stage t (.unlock update) t').Fits _
    by_cases ht : t' = t
    · rw [ht, Function.update_self]
      trivial
    · rw [Function.update_of_ne ht]
      apply Stage.fits_onBuket (hregular.fits t')
      rw [← hregular.mutex, howner]
      exact fun hsame ↦ ht (Option.some.inj hsame).symm
  · change callsOf t' (s.made ++ [(t, update)]) ++
      (Function.update s.stage t (.unlock update) t').pending = callsOf t' s.called
    rw [← hregular.order]
    by_cases ht : t' = t
    · rw [ht, Function.update_self, hstage, callsOf_self]
      exact List.append_nil _
    · rw [Function.update_of_ne ht, callsOf_other ht]

theorem regular_advance (hregular : s.Regular) (hstep : s.advance t = some s') : s'.Regular := by
  have hfits := hregular.fits t
  have hmutex := hregular.mutex t
  unfold advance at hstep
  cases hat : s.stage t with
  | idle => simp [hat] at hstep
  | lock update =>
    simp only [hat] at hstep
    split_ifs at hstep with hfree
    cases hstep
    refine hregular.setMutex (.inl hfree) (.inr rfl) (iff_of_true rfl rfl) ?_ trivial ?_
    · intro j hj
      rw [hat]
      exact iff_of_false hj id
    · rw [hat]
      rfl
  | find update =>
    simp only [hat] at hstep
    cases hstep
    refine hregular.setStage (fun j ↦ ?_) rfl ?_
    · rw [hat]
      exact Iff.rfl
    · rw [hat]
      rfl
  | write update valueIterator =>
    simp only [hat] at hstep
    cases hstep
    exact hregular.write hat
  | unlock update =>
    simp only [hat] at hstep
    cases hstep
    rw [hat] at hmutex
    refine hregular.setMutex (.inr ((hmutex _).mpr rfl)) (.inl rfl)
      (iff_of_false (Option.some_ne_none t).symm id) ?_ trivial ?_
    · intro j hj
      rw [hat]
      exact iff_of_false id hj
    · rw [hat]
      rfl
  | gather i =>
    simp only [hat] at hstep
    split_ifs at hstep with hi hfree
    · cases hstep
      refine hregular.setMutex (.inl hfree) (.inr rfl)
        (iff_of_true rfl (Nat.lt_succ_self i)) ?_ hi ?_
      · intro j hj
        rw [hat]
        simp only [Stage.Holds]
        omega
      · rw [hat]
        rfl
    · cases hstep
      rw [hat] at hfits
      have hall : i = s.map.bukets.length := Nat.le_antisymm hfits (Nat.le_of_not_lt hi)
      refine hregular.setStage (fun j ↦ ?_) rfl ?_
      · rw [hat]
        simp only [Stage.Holds, hall]
      · rw [hat]
        rfl
  | copy i standardMap =>
    rw [hat] at hfits
    simp only [hat] at hstep
    cases hbuket : s.map.bukets[i]? with
    | some buket =>
      simp only [hbuket] at hstep
      cases hstep
      refine hregular.setStage (fun j ↦ ?_) ?_ ?_
      · rw [hat]
        exact Iff.rfl
      · have htake : s.map.bukets.take (i + 1) = s.map.bukets.take i ++ [buket] := by
          rw [List.take_add_one, hbuket]
          rfl
        change _ = ((s.map.bukets.take (i + 1)).flatMap BuketType.data).foldl insert _
        rw [htake, List.flatMap_append, List.foldl_append, ← hfits]
        simp
      · rw [hat]
        rfl
    | none =>
      simp only [hbuket] at hstep
      cases hstep
      have hall : s.map.bukets.take i = s.map.bukets :=
        List.take_of_length_le (List.getElem?_eq_none_iff.mp hbuket)
      refine hregular.setStage (fun j ↦ ?_) ?_ ?_
      · rw [hat]
        simp [Stage.Holds]
      · intro _
        rw [hfits, hall]
        rfl
      · rw [hat]
        rfl
  | release i standardMap =>
    simp only [hat] at hstep
    rw [hat] at hmutex
    split_ifs at hstep with hi
    · cases hstep
      refine hregular.setMutex (.inr ((hmutex i).mpr ⟨le_rfl, hi⟩)) (.inl rfl) ?_ ?_ ?_ ?_
      · refine iff_of_false (Option.some_ne_none t).symm fun hholds ↦ ?_
        exact absurd hholds.1 (Nat.not_succ_le_self i)
      · intro j hj
        rw [hat]
        simp only [Stage.Holds]
        omega
      · intro hzero
        cases hzero
      · rw [hat]
        rfl
    · cases hstep
      refine hregular.setStage (fun j ↦ ?_) trivial ?_
      · rw [hat]
        exact iff_of_false id fun hheld ↦ hi (Nat.lt_of_le_of_lt hheld.1 hheld.2)
      · rw [hat]
        rfl

theorem regular_step {act : Act ι Key Value} (hregular : s.Regular)
    (hstep : step act s = some s') : s'.Regular := by
  unfold step at hstep
  cases act with
  | update t update =>
    dsimp only at hstep
    split at hstep
    · rename_i hidle
      cases hstep
      refine ⟨hregular.placed, hregular.content, fun t' i ↦ ?_, fun t' ↦ ?_, fun t' ↦ ?_⟩
      · change s.mutex i = some t' ↔ (Function.update s.stage t (.lock update) t').Holds s.map i
        rw [hregular.mutex]
        by_cases ht : t' = t
        · rw [ht, Function.update_self, hidle]
          exact Iff.rfl
        · rw [Function.update_of_ne ht]
      · change (Function.update s.stage t (.lock update) t').Fits s.map
        by_cases ht : t' = t
        · rw [ht, Function.update_self]
          trivial
        · rw [Function.update_of_ne ht]
          exact hregular.fits t'
      · change callsOf t' s.made ++ (Function.update s.stage t (.lock update) t').pending =
          callsOf t' (s.called ++ [(t, update)])
        have horder := hregular.order t'
        by_cases ht : t' = t
        · rw [ht, hidle] at horder
          rw [ht, Function.update_self, callsOf_self, ← horder]
          exact congrArg (· ++ [update]) (List.append_nil _).symm
        · rw [Function.update_of_ne ht, horder, callsOf_other ht]
    · cases hstep
  | getStandardMap t =>
    dsimp only at hstep
    split at hstep
    · rename_i hidle
      cases hstep
      refine hregular.setStage (fun i ↦ ?_) (Nat.zero_le _) ?_
      · rw [hidle]
        exact iff_of_false (Nat.not_lt_zero i) id
      · rw [hidle]
        rfl
    · cases hstep
  | advance t => exact regular_advance hregular hstep

theorem regular_new {numBukets : ℕ} (hnum : 0 < numBukets) (hasher : Key → ℕ) :
    (new numBukets hnum hasher : Threads ι Key Value).Regular where
  placed := placed_new hnum hasher
  content := content_new hnum hasher
  mutex _ _ := iff_of_false (Option.some_ne_none _).symm id
  fits _ := trivial
  order _ := rfl

/-- Whatever the threads call and however their steps are interleaved, the calls are atomic and some
call always goes on. -/
theorem atomic_run (numBukets : ℕ) (hnum : 0 < numBukets) (hasher : Key → ℕ)
    (schedule : List (Act ι Key Value)) :
    Along step (new numBukets hnum hasher) Atomic schedule :=
  (along_of_invariant (regular_new hnum hasher) (fun _ _ _ ↦ regular_step) schedule).imp
    fun _ ↦ Regular.atomic

/-- Two threads write to one list while a third one takes a snapshot. -/
theorem atomic_run_three : Along step
    (new 2 (by decide) id : Threads (Fin 3) ℕ Char) Atomic
    [.update 0 (.addOrUpdate 1 'a'), .update 1 (.addOrUpdate 3 'b'), .getStandardMap 2,
      .advance 0, .advance 2, .advance 0, .advance 0, .advance 0, .advance 2, .advance 2] :=
  atomic_run 2 (by decide) id _

end Threads

end ThreadsafeUnorderedMap

end LWebServer
