import LWebServer.Library.Bisection
import LWebServer.Log.TimeZone

/-!
# The data of a time zone

The moments at which the local time changes, each with the kind of local time from then on, and the
conversions that look them up. `gmtime_r` and `timegm` are those of the C library. Where an element
outside of a vector or string is accessed, a lookup has no result.
-/

namespace LWebServer

/-- `detail::Transition` -/
structure Transition where
  gmttime : ℤ
  localtime : ℤ
  localtimeIdx : ℤ
  deriving DecidableEq

/-- `detail::Comp` -/
structure Comp where
  compareGmt : Bool

namespace Comp

/-- `operator()` -/
def less (comp : Comp) (lhs rhs : Transition) : Bool :=
  if comp.compareGmt then lhs.gmttime < rhs.gmttime else lhs.localtime < rhs.localtime

def equal (comp : Comp) (lhs rhs : Transition) : Bool :=
  if comp.compareGmt then lhs.gmttime = rhs.gmttime else lhs.localtime = rhs.localtime

end Comp

/-- `detail::Localtime` -/
structure Localtime where
  gmtOffset : ℤ
  isDst : Bool
  arrbIdx : ℤ
  deriving DecidableEq

/-- `TimeZone::Data` -/
structure ZoneData where
  transitions : List Transition
  localtimes : List Localtime
  abbreviation : List Byte
  deriving DecidableEq

namespace ZoneData

/-- The data that `TimeZone::Data` starts with. -/
def new : ZoneData := ⟨[], [], []⟩

/-- `localtimes[idx]` -/
def localtime (data : ZoneData) (idx : ℤ) : Option Localtime :=
  if 0 ≤ idx then data.localtimes[idx.toNat]? else none

/-- The text at `&abbreviation[idx]`. -/
def zoneName (data : ZoneData) (idx : ℤ) : Option (List Byte) :=
  if 0 ≤ idx ∧ idx ≤ data.abbreviation.length then
    some ((data.abbreviation.drop idx.toNat).takeWhile (· ≠ 0))
  else none

/-- `findLocaltime` -/
def findLocaltime (data : ZoneData) (sentry : Transition) (comp : Comp) : Option Localtime :=
  match data.transitions with
  | [] => data.localtimes.head?
  | front :: rest =>
    if comp.less sentry front then data.localtimes.head?
    else
      let transI := lowerBoundOf (comp.less · sentry) (front :: rest)
      match (front :: rest)[transI]? with
      | some found =>
        if comp.equal sentry found then data.localtime found.localtimeIdx
        else if transI = 0 then none
        else ((front :: rest)[transI - 1]?).bind fun before ↦ data.localtime before.localtimeIdx
      | none => data.localtime ((front :: rest).getLast (List.cons_ne_nil _ _)).localtimeIdx

end ZoneData

/-- `ws::detail::TimeZone` -/
structure TimeZone where
  data : Option ZoneData

namespace TimeZone

variable (gmtime : ℤ → Tm) (timegm : Tm → ℤ)

def valid (zone : TimeZone) : Bool := zone.data.isSome

/-- `TimeZone::toLocalTime` -/
def toLocalTime (zone : TimeZone) (seconds : ℤ) : Option Tm := do
  let data ← zone.data
  let found ← data.findLocaltime ⟨seconds, 0, 0⟩ ⟨true⟩
  let zoneName ← data.zoneName found.arrbIdx
  return { gmtime (seconds + found.gmtOffset) with
    tmIsdst := found.isDst.toInt
    tmGmtoff := found.gmtOffset
    tmZone := zoneName }

/-- `TimeZone::fromLocalTime` -/
def fromLocalTime (zone : TimeZone) (localTm : Tm) : Option ℤ := do
  let data ← zone.data
  let seconds := timegm localTm
  let found ← data.findLocaltime ⟨0, seconds, 0⟩ ⟨false⟩
  if localTm.tmIsdst ≠ 0 then
    let tryTm ← toLocalTime gmtime zone (seconds - found.gmtOffset)
    if tryTm.tmIsdst = 0 ∧ tryTm.tmHour = localTm.tmHour ∧ tryTm.tmMin = localTm.tmMin then
      return seconds - 3600 - found.gmtOffset
  return seconds - found.gmtOffset

end TimeZone

/-! ## Lookups -/

namespace ZoneData

/-- Every index is one of an element. -/
structure Indexed (data : ZoneData) : Prop where
  localtimes : data.localtimes ≠ []
  localtimeIdx : ∀ transition ∈ data.transitions,
    0 ≤ transition.localtimeIdx ∧ transition.localtimeIdx < data.localtimes.length
  arrbIdx : ∀ found ∈ data.localtimes,
    0 ≤ found.arrbIdx ∧ found.arrbIdx < data.abbreviation.length


/-- The kind of local time from the last transition on whose time is reached, and the first one
before all of them. -/
def inForce (data : ZoneData) (time : Transition → ℤ) (now : ℤ) : Option Localtime :=
  match (data.transitions.filter fun transition ↦ time transition ≤ now).getLast? with
  | some transition => data.localtime transition.localtimeIdx
  | none => data.localtimes.head?

end ZoneData

/-- The time of a transition that is compared. -/
def Comp.time (comp : Comp) (transition : Transition) : ℤ :=
  if comp.compareGmt then transition.gmttime else transition.localtime

@[simp]
theorem Comp.less_iff {comp : Comp} {lhs rhs : Transition} :
    comp.less lhs rhs = true ↔ comp.time lhs < comp.time rhs := by
  unfold Comp.less Comp.time
  split_ifs <;> exact decide_eq_true_iff

@[simp]
theorem Comp.equal_iff {comp : Comp} {lhs rhs : Transition} :
    comp.equal lhs rhs = true ↔ comp.time lhs = comp.time rhs := by
  unfold Comp.equal Comp.time
  split_ifs <;> exact decide_eq_true_iff

namespace ZoneData

section

variable {comp : Comp} {sentry : Transition} {transitions : List Transition}

theorem le_of_lowerBoundOf {found : Transition}
    (hfound : transitions[lowerBoundOf (comp.less · sentry) transitions]? = some found) :
    comp.time sentry ≤ comp.time found := by
  have hnot := not_below_of_lowerBoundOf hfound
  rw [← Bool.not_eq_true, Comp.less_iff] at hnot
  exact le_of_not_gt hnot

theorem exists_lt_of_lowerBoundOf (hpos : 0 < lowerBoundOf (comp.less · sentry) transitions) :
    ∃ before, transitions[lowerBoundOf (comp.less · sentry) transitions - 1]? = some before ∧
      comp.time before < comp.time sentry := by
  obtain ⟨before, hbefore, hless⟩ := exists_below_of_lowerBoundOf hpos
  exact ⟨before, hbefore, Comp.less_iff.1 hless⟩

/-- Where the search ends behind the last transition, that one is before. -/
theorem getLast_of_lowerBoundOf (hne : transitions ≠ []) {before : Transition}
    (hend : lowerBoundOf (comp.less · sentry) transitions = transitions.length)
    (hbefore : transitions[lowerBoundOf (comp.less · sentry) transitions - 1]? = some before) :
    transitions.getLast hne = before := by
  rw [hend, ← List.getLast?_eq_getElem?, List.getLast?_eq_some_getLast hne] at hbefore
  exact Option.some.inj hbefore

theorem lt_of_next {time : Transition → ℤ} {i : ℕ} {transition next : Transition}
    (hsorted : transitions.Pairwise fun t u ↦ time t < time u)
    (hat : transitions[i]? = some transition) (hnext : transitions[i + 1]? = some next) :
    time transition < time next := by
  obtain ⟨hin, rfl⟩ := List.getElem?_eq_some_iff.1 hat
  obtain ⟨hnextIn, rfl⟩ := List.getElem?_eq_some_iff.1 hnext
  exact List.pairwise_iff_getElem.1 hsorted _ _ hin hnextIn (Nat.lt_succ_self i)

end

/-- A lookup gives the first kind of local time before the first transition, and otherwise that of a
transition whose time is reached, and if they are in order, of the last one. -/
theorem findLocaltime_cases (data : ZoneData) (sentry : Transition) (comp : Comp) :
    (data.findLocaltime sentry comp = data.localtimes.head? ∧
      ∀ front, data.transitions.head? = some front → comp.time sentry < comp.time front) ∨
    ∃ i transition, data.transitions[i]? = some transition ∧
      comp.time transition ≤ comp.time sentry ∧
      (data.transitions.Pairwise (fun t u ↦ comp.time t < comp.time u) →
        ∀ next, data.transitions[i + 1]? = some next → comp.time sentry < comp.time next) ∧
      data.findLocaltime sentry comp = data.localtime transition.localtimeIdx := by
  obtain ⟨transitions, localtimes, abbreviation⟩ := data
  cases transitions with
  | nil => exact .inl ⟨rfl, fun _ hnone ↦ by cases hnone⟩
  | cons front rest =>
    unfold findLocaltime
    dsimp only
    by_cases hfront : comp.less sentry front = true
    · rw [if_pos hfront]
      left
      refine ⟨rfl, fun first hfirst ↦ ?_⟩
      obtain rfl := Option.some.inj hfirst
      exact Comp.less_iff.1 hfront
    · rw [if_neg hfront]
      right
      cases hfound : (front :: rest)[lowerBoundOf (comp.less · sentry) (front :: rest)]? with
      | some found =>
        have hle := le_of_lowerBoundOf hfound
        dsimp only
        by_cases hequal : comp.equal sentry found = true
        · rw [if_pos hequal]
          have htime := Comp.equal_iff.1 hequal
          refine ⟨_, found, hfound, htime.ge, fun hsorted next hnext ↦ ?_, rfl⟩
          rw [htime]
          exact lt_of_next hsorted hfound hnext
        · rw [if_neg hequal]
          have hne : comp.time sentry ≠ comp.time found :=
            fun htime ↦ hequal (Comp.equal_iff.2 htime)
          -- The first transition is not behind `sentry`, so the search does not end there.
          have hpos : lowerBoundOf (comp.less · sentry) (front :: rest) ≠ 0 := by
            intro hzero
            rw [hzero] at hfound
            obtain rfl := Option.some.inj hfound
            exact hfront (Comp.less_iff.2 (lt_of_le_of_ne hle hne))
          rw [if_neg hpos]
          obtain ⟨before, hbefore, hlt⟩ := exists_lt_of_lowerBoundOf (Nat.pos_of_ne_zero hpos)
          rw [hbefore, Option.bind_some]
          refine ⟨_, before, hbefore, hlt.le, fun _ next hnext ↦ ?_, rfl⟩
          rw [Nat.sub_add_cancel (Nat.pos_of_ne_zero hpos), hfound] at hnext
          obtain rfl := Option.some.inj hnext
          exact lt_of_le_of_ne hle hne
      | none =>
        have hend : lowerBoundOf (comp.less · sentry) (front :: rest) = (front :: rest).length :=
          le_antisymm (lowerBoundOf_le _ _) (List.getElem?_eq_none_iff.1 hfound)
        have hpos : 0 < lowerBoundOf (comp.less · sentry) (front :: rest) := by
          rw [hend]
          exact Nat.succ_pos _
        obtain ⟨before, hbefore, hlt⟩ := exists_lt_of_lowerBoundOf hpos
        rw [getLast_of_lowerBoundOf (List.cons_ne_nil _ _) hend hbefore]
        refine ⟨_, before, hbefore, hlt.le, fun _ next hnext ↦ ?_, rfl⟩
        obtain ⟨hin, -⟩ := List.getElem?_eq_some_iff.1 hnext
        omega

/-- With every index in range, a lookup finds a kind of local time, in whatever order the
transitions are. -/
theorem Indexed.exists_findLocaltime {data : ZoneData} (hindexed : data.Indexed)
    (sentry : Transition) (comp : Comp) :
    ∃ found ∈ data.localtimes, data.findLocaltime sentry comp = some found := by
  rcases data.findLocaltime_cases sentry comp with ⟨hfound, -⟩ | ⟨i, transition, hat, -, -, hfound⟩
  · obtain ⟨first, others, hlocaltimes⟩ := List.exists_cons_of_ne_nil hindexed.localtimes
    rw [hfound, hlocaltimes]
    exact ⟨first, List.mem_cons_self, rfl⟩
  · obtain ⟨hlower, hupper⟩ := hindexed.localtimeIdx transition (List.mem_of_getElem? hat)
    have hin : transition.localtimeIdx.toNat < data.localtimes.length := by omega
    rw [hfound, localtime, if_pos hlower, List.getElem?_eq_getElem hin]
    exact ⟨_, List.getElem_mem hin, rfl⟩

/-- With the transitions in order, a lookup finds the kind of local time that is in force. -/
theorem findLocaltime_eq {data : ZoneData} {comp : Comp}
    (hsorted : data.transitions.Pairwise fun t u ↦ comp.time t < comp.time u)
    (sentry : Transition) :
    data.findLocaltime sentry comp = data.inForce comp.time (comp.time sentry) := by
  rcases data.findLocaltime_cases sentry comp with ⟨hfound, hfront⟩ | ⟨i, transition, hat, hle,
    hnext, hfound⟩
  · rw [hfound, inForce, filter_eq_nil_of_head hsorted hfront]
    rfl
  · rw [hfound, inForce, getLast?_filter_of_next hsorted hat hle (hnext hsorted)]

end ZoneData

namespace TimeZone

variable (gmtime : ℤ → Tm) (timegm : Tm → ℤ)

/-- With every index in range, every time has a local time. -/
theorem exists_toLocalTime {data : ZoneData} (hindexed : data.Indexed) (seconds : ℤ) :
    ∃ tm, toLocalTime gmtime ⟨some data⟩ seconds = some tm := by
  obtain ⟨found, hmem, hfound⟩ := hindexed.exists_findLocaltime ⟨seconds, 0, 0⟩ ⟨true⟩
  obtain ⟨hlower, hupper⟩ := hindexed.arrbIdx found hmem
  have hname : data.zoneName found.arrbIdx = some _ := if_pos ⟨hlower, hupper.le⟩
  exact ⟨_, by rw [toLocalTime, Option.bind_eq_bind, Option.bind_some, hfound,
    Option.bind_eq_bind, Option.bind_some, hname]; rfl⟩

/-- And every local time a time. -/
theorem exists_fromLocalTime {data : ZoneData} (hindexed : data.Indexed) (localTm : Tm) :
    ∃ seconds, fromLocalTime gmtime timegm ⟨some data⟩ localTm = some seconds := by
  obtain ⟨found, -, hfound⟩ := hindexed.exists_findLocaltime ⟨0, timegm localTm, 0⟩ ⟨false⟩
  obtain ⟨tryTm, htry⟩ := exists_toLocalTime gmtime hindexed (timegm localTm - found.gmtOffset)
  simp only [fromLocalTime, Option.bind_eq_bind, Option.bind_some, hfound, htry]
  split_ifs
  · exact ⟨_, rfl⟩
  · exact ⟨_, rfl⟩
  · exact ⟨_, rfl⟩

end TimeZone

end LWebServer
