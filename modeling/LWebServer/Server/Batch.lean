import LWebServer.Server.Channel

/-!
# Batches of events

`Epoll_Wait` fills the front of an array and notes how many events there are. `epoll_wait` answers
-1 if a signal comes, and the number of events is a `size_t`.
-/

namespace LWebServer

/-- An answer of `epoll_wait` for an array of `maxevents` elements: -1, or events, no more than
fit. -/
inductive EpollWait (α : Type) (maxevents : ℕ) where
  | failed
  | ready (events : List α) (hroom : events.length ≤ maxevents)

namespace EpollWait

variable {α : Type} {maxevents : ℕ}

/-- The value that is returned. -/
def returned : EpollWait α maxevents → ℤ
  | failed => -1
  | ready events _ => events.length

/-- The events that are reported. -/
def reported : EpollWait α maxevents → List α
  | failed => []
  | ready events _ => events

theorem length_reported_le (wait : EpollWait α maxevents) : wait.reported.length ≤ maxevents := by
  cases wait with
  | failed => exact Nat.zero_le _
  | ready events hroom => exact hroom

end EpollWait

/-- An `int` as a `size_t`. -/
def sizeOfInt (n : ℤ) : ℕ := (n % 18446744073709551616).toNat

/-- `ws::EpollEvent_Result`. The length of the array is given by an `int`. -/
structure EpollEventResult (α : Type) where
  array : List α
  availableLength : ℕ
  length_lt : array.length < 2147483648

namespace EpollEventResult

variable {α σ : Type}

/-- `size` -/
def size (result : EpollEventResult α) : ℕ := result.availableLength

/-- `array[i]` behind the check that `at` and `operator[]` have in common. -/
def checked (i : ℕ) (result : EpollEventResult α) : Op σ α :=
  if i > result.availableLength then throw .outOfRange
  else
    match result.array[i]? with
    | some item => pure item
    | none => throw .undefinedBehaviour

/-- `at` -/
def elementAt (i : ℕ) (result : EpollEventResult α) : Op σ α := checked i result

/-- `operator[]` -/
def subscript (i : ℕ) (result : EpollEventResult α) : Op σ α := checked i result

/-- `Epoll::Epoll_Wait` -/
def epollWait (result : EpollEventResult α) (wait : EpollWait α result.array.length) :
    EpollEventResult α where
  array := wait.reported ++ result.array.drop wait.reported.length
  availableLength := sizeOfInt wait.returned
  length_lt := by
    have hroom := wait.length_reported_le
    have hlength := result.length_lt
    rw [List.length_append, List.length_drop]
    omega

/-- The loop over the events from `i` on. There are no more turns than elements in the array, and
one more, in which the access is undefined. -/
def loopFrom (handle : α → Op σ Unit) (result : EpollEventResult α) :
    (turns : ℕ) → (i : ℕ) → Op σ Unit
  | 0, _ => throw .undefinedBehaviour
  | turns + 1, i =>
    if i < result.size then do
      let item ← result.subscript i
      handle item
      loopFrom handle result turns (i + 1)
    else pure ()

/-- `for (int i = 0; i < Event_Reault.size(); ++i)` -/
def loop (handle : α → Op σ Unit) (result : EpollEventResult α) : Op σ Unit :=
  loopFrom handle result (result.array.length + 1) 0

/-- The same in `Web_Server::Running`, where -1 is looked for. -/
def guardedLoop (handle : α → Op σ Unit) (result : EpollEventResult α) : Op σ Unit :=
  if result.size = sizeOfInt (-1) then pure () else result.loop handle

/-! ## The loop -/

variable {handle : α → Op σ Unit} {result : EpollEventResult α}

theorem sizeOfInt_natCast {n : ℕ} (hn : n < 2147483648) : sizeOfInt n = n := by
  unfold sizeOfInt
  omega

theorem subscript_of_lt {i : ℕ} (hi : i < result.array.length) (havailable : i ≤ result.size) :
    (result.subscript i : Op σ α) = pure result.array[i] := by
  have hchecked : ¬ i > result.availableLength := not_lt.2 havailable
  rw [subscript, checked, if_neg hchecked, List.getElem?_eq_getElem hi]

theorem subscript_of_ge {i : ℕ} (hi : result.array.length ≤ i) (havailable : i ≤ result.size) :
    (result.subscript i : Op σ α) = throw .undefinedBehaviour := by
  have hchecked : ¬ i > result.availableLength := not_lt.2 havailable
  rw [subscript, checked, if_neg hchecked, List.getElem?_eq_none hi]

/-- As long as no more are counted than the array has, the loop handles the first ones in order. -/
theorem loopFrom_eq (hsize : result.size ≤ result.array.length) {turns i : ℕ} (hi : i ≤ result.size)
    (hturns : result.size < turns + i) :
    loopFrom handle result turns i = ((result.array.take result.size).drop i).forM handle := by
  induction turns generalizing i with
  | zero => omega
  | succ turns ih =>
    rw [loopFrom]
    by_cases hmore : i < result.size
    · have hlength : (result.array.take result.size).length = result.size :=
        List.length_take_of_le hsize
      have hinside : i < (result.array.take result.size).length := hmore.trans_eq hlength.symm
      have hitem : (result.array.take result.size)[i] = result.array[i] := List.getElem_take
      rw [if_pos hmore, subscript_of_lt (hmore.trans_le hsize) hi, pure_bind, ih hmore (by omega),
        List.drop_eq_getElem_cons hinside, hitem]
      rfl
    · have hend : (result.array.take result.size).drop i = [] := by
        apply List.drop_eq_nil_of_le
        rw [List.length_take_of_le hsize]
        exact not_lt.1 hmore
      rw [if_neg hmore, hend]
      rfl

/-- A count behind the array takes the loop out of the array, unless a handler throws before. -/
theorem loopFrom_ne_ok (hsize : result.array.length < result.size) (turns : ℕ) {i : ℕ}
    (hi : i ≤ result.array.length) (s s' : σ) :
    loopFrom handle result turns i s ≠ .ok () s' := by
  induction turns generalizing i s with
  | zero =>
    intro hok
    cases hok
  | succ turns ih =>
    intro hok
    have hmore : i < result.size := lt_of_le_of_lt hi hsize
    rw [loopFrom, if_pos hmore] at hok
    rcases lt_or_eq_of_le hi with hinside | hend
    · rw [subscript_of_lt hinside hmore.le, pure_bind] at hok
      obtain ⟨_, t, -, hrest⟩ := Op.bind_ok hok
      exact ih hinside t hrest
    · rw [subscript_of_ge hend.ge hmore.le] at hok
      cases hok

/-- An index is rejected exactly if it is above the count. -/
theorem checked_eq_outOfRange_iff {i : ℕ} {s : σ} :
    (result.checked i : Op σ α) s = .error .outOfRange s ↔ result.availableLength < i := by
  by_cases hbeyond : i > result.availableLength
  · have hchecked : (result.checked i : Op σ α) = throw .outOfRange := if_pos hbeyond
    rw [hchecked]
    exact iff_of_true rfl hbeyond
  · refine iff_of_false ?_ hbeyond
    intro hrejected
    rcases lt_or_ge i result.array.length with hinside | hend
    · have hitem : (result.checked i : Op σ α) = pure result.array[i] :=
        subscript_of_lt hinside (not_lt.1 hbeyond)
      rw [hitem] at hrejected
      cases hrejected
    · have hundefined : (result.checked i : Op σ α) = throw .undefinedBehaviour :=
        subscript_of_ge hend (not_lt.1 hbeyond)
      rw [hundefined] at hrejected
      cases hrejected

variable (result)

/-- The worker handles the events that are reported, in order, if there is no signal. -/
theorem loop_ready (events : List α) (hroom : events.length ≤ result.array.length) :
    (result.epollWait (.ready events hroom)).loop handle = events.forM handle := by
  have hlength := result.length_lt
  have hcount : (result.epollWait (.ready events hroom)).size = events.length :=
    sizeOfInt_natCast (lt_of_le_of_lt hroom hlength)
  have harray : (result.epollWait (.ready events hroom)).array =
    events ++ result.array.drop events.length := rfl
  rw [loop, loopFrom_eq (by rw [hcount, harray, List.length_append]; omega) (Nat.zero_le _)
    (by rw [hcount, harray, List.length_append]; omega), hcount, harray, List.take_left,
    List.drop_zero]

/-- Behind a signal there is no end to the events. -/
theorem loop_failed_ne_ok (s s' : σ) :
    (result.epollWait .failed).loop handle s ≠ .ok () s' := by
  have hlength := (result.epollWait .failed).length_lt
  have hsize : (result.epollWait .failed).size = 18446744073709551615 := rfl
  exact loopFrom_ne_ok (by omega) _ (Nat.zero_le _) s s'

/-- With the look at -1 the loop handles the events that are reported in any case. -/
theorem guardedLoop_eq (wait : EpollWait α result.array.length) :
    (result.epollWait wait).guardedLoop handle = wait.reported.forM handle := by
  have hlength := result.length_lt
  unfold guardedLoop
  cases wait with
  | failed =>
    have hcount : (result.epollWait .failed).size = sizeOfInt (-1) := rfl
    rw [if_pos hcount]
    rfl
  | ready events hroom =>
    have hcount : (result.epollWait (.ready events hroom)).size = events.length :=
      sizeOfInt_natCast (lt_of_le_of_lt hroom hlength)
    have hfailed : sizeOfInt (-1) = 18446744073709551615 := rfl
    rw [if_neg (by omega)]
    exact loop_ready result events hroom

end EpollEventResult

/-! ## The loop of a worker -/

namespace Channel

open EpollEventResult

variable (table : HeaderTable) (result : EpollEventResult Event)
  (wait : EpollWait Event result.array.length) (c : Channel)

theorem handleAll_eq_forM (batch : List Event) :
    handleAll table batch = batch.forM (handle table) := by
  induction batch with
  | nil => rfl
  | cons item batch ih =>
    rw [handleAll, ih]
    rfl

/-- What is expected of a batch: the worker handles the events that are reported, and no index from
their number on is admitted. -/
structure ReadWithin : Prop where
  worker : (result.epollWait wait).loop (handle table) c = handleAll table wait.reported c
  elementAt : ∀ i, wait.reported.length ≤ i → i < 18446744073709551616 →
    (result.epollWait wait).elementAt i c = .error .outOfRange c
  subscript : ∀ i, wait.reported.length ≤ i → i < 18446744073709551616 →
    (result.epollWait wait).subscript i c = .error .outOfRange c

/-- The worker handles the reported events exactly if `epoll_wait` has not answered -1. -/
theorem loop_eq_handleAll_iff :
    (result.epollWait wait).loop (handle table) c = handleAll table wait.reported c ↔
      wait.returned ≠ -1 := by
  cases wait with
  | failed =>
    refine iff_of_false ?_ (fun h ↦ h rfl)
    exact loop_failed_ne_ok result c c
  | ready events hroom =>
    have hreturned : (EpollWait.ready events hroom).returned ≠ -1 :=
      (lt_of_lt_of_le (by decide) (Int.natCast_nonneg events.length)).ne'
    refine iff_of_true ?_ hreturned
    rw [loop_ready, handleAll_eq_forM]
    rfl

/-- An index is rejected exactly if it is above the number of reported events and `epoll_wait` has
not answered -1. -/
theorem subscript_rejected_iff {i : ℕ} (hi : i < 18446744073709551616) :
    (result.epollWait wait).subscript i c = .error .outOfRange c ↔
      wait.returned ≠ -1 ∧ wait.reported.length < i := by
  apply checked_eq_outOfRange_iff.trans
  cases wait with
  | failed =>
    have hcount : (result.epollWait .failed).availableLength = 18446744073709551615 := rfl
    rw [hcount]
    refine iff_of_false (by omega) (fun h ↦ h.1 rfl)
  | ready events hroom =>
    have hreturned : (EpollWait.ready events hroom).returned ≠ -1 :=
      (lt_of_lt_of_le (by decide) (Int.natCast_nonneg events.length)).ne'
    have hcount : (result.epollWait (.ready events hroom)).availableLength = events.length :=
      sizeOfInt_natCast (lt_of_le_of_lt hroom result.length_lt)
    rw [hcount]
    exact (and_iff_right hreturned).symm

/-- The worker handles the reported events exactly if `epoll_wait` has not answered -1, and
whatever it has answered, the index that is their number is not rejected. -/
theorem not_readWithin :
    ((result.epollWait wait).loop (handle table) c = handleAll table wait.reported c ↔
      wait.returned ≠ -1) ∧
    (result.epollWait wait).elementAt wait.reported.length c ≠ .error .outOfRange c ∧
    (result.epollWait wait).subscript wait.reported.length c ≠ .error .outOfRange c ∧
    ¬ ReadWithin table result wait c := by
  have hshort : wait.reported.length < 18446744073709551616 := by
    have hroom := wait.length_reported_le
    have hlength := result.length_lt
    omega
  have hadmitted : (result.epollWait wait).subscript wait.reported.length c ≠
      .error .outOfRange c := by
    intro hrejected
    exact absurd ((subscript_rejected_iff result wait c hshort).1 hrejected).2 (lt_irrefl _)
  refine ⟨loop_eq_handleAll_iff table result wait c, hadmitted, hadmitted, ?_⟩
  intro hwithin
  exact hadmitted (hwithin.subscript _ le_rfl hshort)

/-- An array with an event of an earlier batch. -/
def staleResult : EpollEventResult Event where
  array := [{
    fd := 7
    events := EpollEventType.epollCanRead
    arrival := { received := [], accepts := [], site := .bare }
    accepted := [] }]
  availableLength := 1
  length_lt := by decide

/-- After a signal the worker does not end with the empty batch but goes on with the event of the
earlier one. -/
theorem readWithin_signal_false :
    ¬ ReadWithin .sample staleResult .failed (.new 5) := by
  intro hwithin
  exact loop_failed_ne_ok staleResult _ _ hwithin.worker

end Channel

end LWebServer
