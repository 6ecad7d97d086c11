import LWebServer.Log.ZoneFile
import Mathlib.Data.List.Pairwise

/-!
# Local time and back

`fromLocalTime` looks up the local time among the local times of the transitions. In a span that is
repeated it finds the second run. The first run is told from it only if daylight saving time ends
with it and the clock goes back by one hour.
-/

namespace LWebServer

open Calendar

/-- `timegm` gives back the time that `gmtime_r` has broken down, whatever the fields are that it
does not read. -/
def Inverse (gmtime : ℤ → Tm) (timegm : Tm → ℤ) : Prop :=
  ∀ seconds isdst gmtoff zone, timegm { gmtime seconds with
    tmIsdst := isdst
    tmGmtoff := gmtoff
    tmZone := zone } = seconds

namespace ZoneData

/-- Usable data with the transitions in order. -/
structure Ordered (data : ZoneData) : Prop extends data.Indexed where
  gmttime : data.transitions.Pairwise fun t u ↦ t.gmttime < u.gmttime
  localtime : data.transitions.Pairwise fun t u ↦ t.localtime < u.localtime

theorem Ordered.findLocaltime_gmt {data : ZoneData} (hordered : data.Ordered) (seconds : ℤ) :
    data.findLocaltime ⟨seconds, 0, 0⟩ ⟨true⟩ = data.inForce Transition.gmttime seconds :=
  @findLocaltime_eq data ⟨true⟩ hordered.gmttime ⟨seconds, 0, 0⟩

theorem Ordered.findLocaltime_local {data : ZoneData} (hordered : data.Ordered) (seconds : ℤ) :
    data.findLocaltime ⟨0, seconds, 0⟩ ⟨false⟩ = data.inForce Transition.localtime seconds :=
  @findLocaltime_eq data ⟨false⟩ hordered.localtime ⟨0, seconds, 0⟩

theorem Ordered.exists_inForce_gmt {data : ZoneData} (hordered : data.Ordered) (now : ℤ) :
    ∃ found ∈ data.localtimes, data.inForce Transition.gmttime now = some found := by
  rw [← hordered.findLocaltime_gmt]
  exact hordered.exists_findLocaltime _ _

theorem Ordered.exists_inForce_local {data : ZoneData} (hordered : data.Ordered) (now : ℤ) :
    ∃ found ∈ data.localtimes, data.inForce Transition.localtime now = some found := by
  rw [← hordered.findLocaltime_local]
  exact hordered.exists_findLocaltime _ _

/-- The local time of `seconds` leads back to it: the kind of local time that is found from it has
the offset in force, or daylight saving time is in force and has ended one hour later, where the
clock shows the same hour and minute again. -/
def LeadsBack (gmtime : ℤ → Tm) (data : ZoneData) (seconds : ℤ) : Prop :=
  ∃ now, data.inForce Transition.gmttime seconds = some now ∧
  ∃ found, data.inForce Transition.localtime (seconds + now.gmtOffset) = some found ∧
    (found.gmtOffset = now.gmtOffset ∨
      found.gmtOffset = now.gmtOffset - 3600 ∧ now.isDst = true ∧
      ∃ later, data.inForce Transition.gmttime (seconds + 3600) = some later ∧
        later.isDst = false ∧
        (gmtime (seconds + 3600 + later.gmtOffset)).tmHour =
          (gmtime (seconds + now.gmtOffset)).tmHour ∧
        (gmtime (seconds + 3600 + later.gmtOffset)).tmMin =
          (gmtime (seconds + now.gmtOffset)).tmMin)

end ZoneData

/-! ## Zones as they are read -/

namespace ZoneData

/-- The local time of a transition is that from then on. -/
def Consistent (data : ZoneData) : Prop :=
  ∀ transition ∈ data.transitions, ∃ found, data.localtime transition.localtimeIdx = some found ∧
    transition.localtime = transition.gmttime + found.gmtOffset

theorem consistent_of_transitionOf {pairs : List (ℤ × ℕ)} {kinds : List Localtime}
    (abbreviation : List Byte) (hidx : ∀ pair ∈ pairs, pair.2 < kinds.length) :
    Consistent ⟨pairs.map (ZoneReader.transitionOf kinds), kinds, abbreviation⟩ := by
  intro transition hmem
  obtain ⟨pair, hpair, rfl⟩ := List.mem_map.1 hmem
  have hfound := List.getElem?_eq_getElem (hidx pair hpair)
  refine ⟨_, (if_pos (Int.natCast_nonneg pair.2)).trans hfound, ?_⟩
  rw [ZoneReader.transitionOf, hfound]
  rfl

/-- So it is in the data of a file. -/
theorem consistent_dataOf {bytes : List Byte} (hcomplete : ZoneReader.Complete bytes) :
    (ZoneReader.dataOf bytes).Consistent := by
  unfold ZoneReader.dataOf
  apply consistent_of_transitionOf
  intro pair hpair
  rw [ZoneReader.length_localtimesIn]
  exact hcomplete.localtimeIdx pair.2
    (ZoneReader.map_snd_pairsOf bytes ▸ List.mem_map_of_mem hpair)

/-- No transition of some that are in order comes after the last of them. -/
theorem le_getLast {transitions : List Transition}
    (hgmttime : transitions.Pairwise fun t u ↦ t.gmttime < u.gmttime)
    (hlocaltime : transitions.Pairwise fun t u ↦ t.localtime < u.localtime) {last t : Transition}
    (hlast : transitions.getLast? = some last) (hmem : t ∈ transitions) :
    t.gmttime ≤ last.gmttime ∧ t.localtime ≤ last.localtime := by
  have hne := List.ne_nil_of_mem hmem
  rw [List.getLast?_eq_some_getLast hne] at hlast
  obtain rfl := Option.some.inj hlast
  have hordered : transitions.Pairwise fun t u ↦
      t.gmttime ≤ u.gmttime ∧ t.localtime ≤ u.localtime :=
    (hgmttime.and hlocaltime).imp fun h ↦ ⟨h.1.le, h.2.le⟩
  exact hordered.rel_getLast_of_rel_getLast_getLast hmem ⟨le_rfl, le_rfl⟩

/-- The last transition up to a time, if there is one. -/
theorem inForce_cases (data : ZoneData) (time : Transition → ℤ) (now : ℤ) :
    (∃ last, (data.transitions.filter fun t ↦ time t ≤ now).getLast? = some last ∧
      last ∈ data.transitions ∧ time last ≤ now ∧
      data.inForce time now = data.localtime last.localtimeIdx) ∨
    (data.transitions.filter fun t ↦ time t ≤ now) = [] := by
  cases hlast : (data.transitions.filter fun t ↦ time t ≤ now).getLast? with
  | none => exact .inr (List.getLast?_eq_none_iff.1 hlast)
  | some last =>
    obtain ⟨hmem, hle⟩ := List.mem_filter.1 (List.mem_of_getLast? hlast)
    exact .inl ⟨last, rfl, hmem, by simpa using hle, by rw [inForce, hlast]⟩

/-- In a zone as it is read, the local time leads to the offset in force unless it is that of a
later transition already, or after it. -/
theorem sameOffset_iff {data : ZoneData} (hordered : data.Ordered) (hconsistent : data.Consistent)
    {seconds : ℤ} {now found : Localtime}
    (hnow : data.inForce Transition.gmttime seconds = some now)
    (hfound : data.inForce Transition.localtime (seconds + now.gmtOffset) = some found) :
    found.gmtOffset = now.gmtOffset ↔ ∀ t ∈ data.transitions,
      seconds < t.gmttime → seconds + now.gmtOffset < t.localtime := by
  constructor
  · intro hsame t hmem hafter
    by_contra hreached
    have hin : t ∈ data.transitions.filter fun t ↦ t.localtime ≤ seconds + now.gmtOffset :=
      List.mem_filter.2 ⟨hmem, by simpa using hreached⟩
    rcases data.inForce_cases Transition.localtime (seconds + now.gmtOffset) with
      ⟨last, hlast, hlastMem, hle, hforce⟩ | hnone
    · have hlater := le_getLast (hordered.gmttime.filter _) (hordered.localtime.filter _) hlast hin
      obtain ⟨kind, hkind, hlocal⟩ := hconsistent last hlastMem
      rw [hfound, hkind] at hforce
      obtain rfl := Option.some.inj hforce
      omega
    · rw [hnone] at hin
      cases hin
  · intro hbefore
    have hsame : data.transitions.filter (fun t ↦ t.localtime ≤ seconds + now.gmtOffset) =
        data.transitions.filter fun t ↦ t.gmttime ≤ seconds := by
      apply List.filter_congr
      intro t hmem
      rw [decide_eq_decide]
      constructor
      · intro hreached
        by_contra hafter
        have := hbefore t hmem (not_le.1 hafter)
        omega
      · intro hle
        have hin : t ∈ data.transitions.filter fun t ↦ t.gmttime ≤ seconds :=
          List.mem_filter.2 ⟨hmem, by simpa using hle⟩
        rcases data.inForce_cases Transition.gmttime seconds with
          ⟨last, hlast, hlastMem, hlastLe, hforce⟩ | hnone
        · have hlater := le_getLast (hordered.gmttime.filter _) (hordered.localtime.filter _) hlast
            hin
          obtain ⟨kind, hkind, hlocal⟩ := hconsistent last hlastMem
          rw [hnow, hkind] at hforce
          obtain rfl := Option.some.inj hforce
          omega
        · rw [hnone] at hin
          cases hin
    rw [inForce, hsame] at hfound
    rw [inForce, hfound] at hnow
    rw [Option.some.inj hnow]

end ZoneData

namespace TimeZone

variable {gmtime : ℤ → Tm} {timegm : Tm → ℤ} {data : ZoneData}

/-- The broken-down time of a time with a kind of local time in force. -/
def brokenDown (gmtime : ℤ → Tm) (data : ZoneData) (found : Localtime) (seconds : ℤ) : Tm :=
  { gmtime (seconds + found.gmtOffset) with
    tmIsdst := found.isDst.toInt
    tmGmtoff := found.gmtOffset
    tmZone := (data.abbreviation.drop found.arrbIdx.toNat).takeWhile (· ≠ 0) }

theorem toLocalTime_eq (hordered : data.Ordered) {seconds : ℤ} {now : Localtime}
    (hnow : data.inForce Transition.gmttime seconds = some now) :
    toLocalTime gmtime ⟨some data⟩ seconds = some (brokenDown gmtime data now seconds) := by
  obtain ⟨found, hmem, hfound⟩ := hordered.exists_inForce_gmt seconds
  rw [hnow] at hfound
  obtain rfl := Option.some.inj hfound
  obtain ⟨hlower, hupper⟩ := hordered.arrbIdx now hmem
  have hname : data.zoneName now.arrbIdx = some _ := if_pos ⟨hlower, hupper.le⟩
  rw [toLocalTime, Option.bind_eq_bind, Option.bind_some, hordered.findLocaltime_gmt, hnow,
    Option.bind_eq_bind, Option.bind_some, hname]
  rfl

theorem isDst_toInt (flag : Bool) : flag.toInt = 0 ↔ flag = false := by
  cases flag <;> decide

/-- What `fromLocalTime` makes of a local time. -/
theorem fromLocalTime_eq (hordered : data.Ordered) (hinverse : Inverse gmtime timegm)
    {seconds : ℤ} {now found later : Localtime}
    (hfound : data.inForce Transition.localtime (seconds + now.gmtOffset) = some found)
    (hlater : data.inForce Transition.gmttime (seconds + now.gmtOffset - found.gmtOffset) =
      some later) :
    fromLocalTime gmtime timegm ⟨some data⟩ (brokenDown gmtime data now seconds) =
      some (seconds + now.gmtOffset - found.gmtOffset -
        if now.isDst = true ∧ later.isDst = false ∧
          (gmtime (seconds + now.gmtOffset - found.gmtOffset + later.gmtOffset)).tmHour =
            (gmtime (seconds + now.gmtOffset)).tmHour ∧
          (gmtime (seconds + now.gmtOffset - found.gmtOffset + later.gmtOffset)).tmMin =
            (gmtime (seconds + now.gmtOffset)).tmMin then 3600 else 0) := by
  have hseconds : timegm (brokenDown gmtime data now seconds) = seconds + now.gmtOffset :=
    hinverse _ _ _ _
  have hisdst : (brokenDown gmtime data now seconds).tmIsdst ≠ 0 ↔ now.isDst = true := by
    rw [Ne, brokenDown, isDst_toInt, Bool.not_eq_false]
  have htry : (brokenDown gmtime data later
      (seconds + now.gmtOffset - found.gmtOffset)).tmIsdst = 0 ↔ later.isDst = false :=
    isDst_toInt _
  simp only [fromLocalTime, Option.bind_eq_bind, Option.bind_some, hseconds,
    hordered.findLocaltime_local, hfound, toLocalTime_eq hordered hlater]
  by_cases hdst : now.isDst = true
  · rw [if_pos (hisdst.2 hdst)]
    by_cases hagain : later.isDst = false ∧
        (gmtime (seconds + now.gmtOffset - found.gmtOffset + later.gmtOffset)).tmHour =
          (gmtime (seconds + now.gmtOffset)).tmHour ∧
        (gmtime (seconds + now.gmtOffset - found.gmtOffset + later.gmtOffset)).tmMin =
          (gmtime (seconds + now.gmtOffset)).tmMin
    · rw [if_pos ⟨htry.2 hagain.1, hagain.2⟩, if_pos ⟨hdst, hagain⟩]
      exact congrArg some (by omega)
    · rw [if_neg (fun h ↦ hagain ⟨htry.1 h.1, h.2⟩), if_neg (fun h ↦ hagain h.2), sub_zero]
      rfl
  · rw [if_neg (fun h ↦ hdst (hisdst.1 h)), if_neg (fun h ↦ hdst h.1), sub_zero]
    rfl

/-- A time comes back from its local time exactly if the local time leads back to it. -/
theorem fromLocalTime_toLocalTime_iff (hordered : data.Ordered) (hinverse : Inverse gmtime timegm)
    (seconds : ℤ) :
    (toLocalTime gmtime ⟨some data⟩ seconds).bind (fromLocalTime gmtime timegm ⟨some data⟩) =
      some seconds ↔ data.LeadsBack gmtime seconds := by
  obtain ⟨now, -, hnow⟩ := hordered.exists_inForce_gmt seconds
  obtain ⟨found, -, hfound⟩ := hordered.exists_inForce_local (seconds + now.gmtOffset)
  obtain ⟨later, -, hlater⟩ :=
    hordered.exists_inForce_gmt (seconds + now.gmtOffset - found.gmtOffset)
  rw [toLocalTime_eq hordered hnow, Option.bind_some,
    fromLocalTime_eq hordered hinverse hfound hlater, Option.some.injEq]
  unfold ZoneData.LeadsBack
  simp only [hnow, hfound, Option.some.injEq, exists_eq_left']
  by_cases hsame : found.gmtOffset = now.gmtOffset
  · -- the time tried is the time itself, with the same flag
    have hback : seconds + now.gmtOffset - found.gmtOffset = seconds := by omega
    rw [hback, hnow] at hlater
    obtain rfl := Option.some.inj hlater
    rw [hback, if_neg (fun h ↦ by rw [h.1] at h; cases h.2.1), sub_zero]
    exact iff_of_true rfl (.inl hsame)
  by_cases hhour : found.gmtOffset = now.gmtOffset - 3600
  · have hnext : seconds + now.gmtOffset - found.gmtOffset = seconds + 3600 := by omega
    rw [hnext] at hlater ⊢
    rw [or_iff_right hsame]
    simp only [hlater, Option.some.injEq, exists_eq_left', hhour, true_and]
    split_ifs with hagain
    · exact iff_of_true (by omega) hagain
    · exact iff_of_false (by omega) hagain
  · simp only [hsame, hhour, false_and, or_false]
    split_ifs <;> exact iff_of_false (by omega) id

/-! ## Zones where a time does not come back -/

/-- Two times that show the same on the clock, with the same flag for daylight saving time. -/
def Shared (gmtime : ℤ → Tm) (data : ZoneData) (seconds other : ℤ) : Prop :=
  ∃ tm tm', toLocalTime gmtime ⟨some data⟩ seconds = some tm ∧
    toLocalTime gmtime ⟨some data⟩ other = some tm' ∧
    { tm with tmGmtoff := 0, tmZone := [] } = { tm' with tmGmtoff := 0, tmZone := [] }

/-- Times that show the same have the same local seconds and the same flag. -/
theorem Shared.same (hordered : data.Ordered) (hinverse : Inverse gmtime timegm)
    {seconds other : ℤ} (hshared : Shared gmtime data seconds other) {now then' : Localtime}
    (hnow : data.inForce Transition.gmttime seconds = some now)
    (hthen : data.inForce Transition.gmttime other = some then') :
    seconds + now.gmtOffset = other + then'.gmtOffset ∧ now.isDst = then'.isDst := by
  obtain ⟨tm, tm', htm, htm', hsame⟩ := hshared
  rw [toLocalTime_eq hordered hnow] at htm
  rw [toLocalTime_eq hordered hthen] at htm'
  obtain rfl := Option.some.inj htm
  obtain rfl := Option.some.inj htm'
  constructor
  · have hleft := hinverse (seconds + now.gmtOffset) now.isDst.toInt 0 []
    have hright := hinverse (other + then'.gmtOffset) then'.isDst.toInt 0 []
    calc seconds + now.gmtOffset = _ := hleft.symm
      _ = _ := congrArg timegm hsame
      _ = other + then'.gmtOffset := hright
  · have hflag := congrArg Tm.tmIsdst hsame
    change now.isDst.toInt = then'.isDst.toInt at hflag
    rw [Bool.eq_iff_iff, ← not_iff_not, Bool.not_eq_true, Bool.not_eq_true, ← isDst_toInt,
      ← isDst_toInt, hflag]

/-- A `gmtime_r` that knows every time. -/
def civilTime (seconds : ℤ) : Tm :=
  let d := Day.ofNumber (seconds / 86400 + 719163)
  { tmSec := seconds % 60
    tmMin := seconds / 60 % 60
    tmHour := seconds / 3600 % 24
    tmMday := d.day
    tmMon := d.month - 1
    tmYear := d.year - 1900
    tmWday := d.weekday
    tmYday := d.dayOfYear
    tmIsdst := 0
    tmGmtoff := 0
    tmZone := text "GMT" }

/-- The `timegm` that belongs to it. -/
def secondsOf (tm : Tm) : ℤ :=
  (daysBeforeYear (tm.tmYear + 1900) + daysOfMonths (tm.tmYear + 1900) tm.tmMon.toNat + tm.tmMday -
    719163) * 86400 + tm.tmHour * 3600 + tm.tmMin * 60 + tm.tmSec

theorem inverse_civilTime : Inverse civilTime secondsOf := by
  intro seconds isdst gmtoff zone
  have hnumber := Day.number_ofNumber (seconds / 86400 + 719163)
  unfold Day.number Day.dayOfYear at hnumber
  simp only [secondsOf, civilTime, sub_add_cancel]
  omega

/-- A zone in which daylight saving time is half an hour. -/
def halfHourZone : ZoneData where
  transitions := [⟨1601739000, 1601778600, 1⟩, ⟨1617462000, 1617499800, 0⟩]
  localtimes := [⟨37800, false, 0⟩, ⟨39600, true, 5⟩]
  abbreviation := text "+1030+11"

theorem ordered_halfHourZone : halfHourZone.Ordered where
  localtimes := by decide
  localtimeIdx := by decide
  arrbIdx := by decide
  gmttime := by decide
  localtime := by decide

/-- In the last half hour of daylight saving time the clock shows what no other time shows with the
flag, and still another time comes back. -/
theorem localTime_halfHour_false :
    ¬ ∀ (gmtime : ℤ → Tm) (timegm : Tm → ℤ) (data : ZoneData) (seconds : ℤ),
      Inverse gmtime timegm → data.Ordered →
      (∀ other, other ≠ seconds → ¬ Shared gmtime data seconds other) →
      (toLocalTime gmtime ⟨some data⟩ seconds).bind (fromLocalTime gmtime timegm ⟨some data⟩) =
        some seconds := by
  intro hall
  have hback := hall civilTime secondsOf halfHourZone 1617461999 inverse_civilTime
    ordered_halfHourZone fun other hother hshared ↦ ?_
  · revert hback
    decide +kernel
  · obtain ⟨found, hmem, hfound⟩ := ordered_halfHourZone.exists_inForce_gmt other
    have hnow : halfHourZone.inForce Transition.gmttime 1617461999 = some ⟨39600, true, 5⟩ := by
      decide
    obtain ⟨hsame, hflag⟩ := hshared.same ordered_halfHourZone inverse_civilTime hnow hfound
    rcases List.mem_cons.1 hmem with rfl | hmem
    · cases hflag
    · obtain rfl := List.mem_singleton.1 hmem
      exact hother (by omega)

/-- A zone in which it is one hour. -/
def hourZone : ZoneData where
  transitions := [⟨1583650800, 1583636400, 1⟩, ⟨1604210400, 1604192400, 0⟩]
  localtimes := [⟨-18000, false, 0⟩, ⟨-14400, true, 4⟩]
  abbreviation := text "EST" ++ [0] ++ text "EDT" ++ [0]

/-- There a time of the last hour comes back. -/
theorem localTime_hour :
    (toLocalTime civilTime ⟨some hourZone⟩ 1604208600).bind
      (fromLocalTime civilTime secondsOf ⟨some hourZone⟩) = some 1604208600 := by
  have hordered : hourZone.Ordered := {
    localtimes := by decide
    localtimeIdx := by decide
    arrbIdx := by decide
    gmttime := by decide
    localtime := by decide }
  refine (fromLocalTime_toLocalTime_iff hordered inverse_civilTime 1604208600).2 ?_
  exact ⟨⟨-14400, true, 4⟩, by decide, ⟨-18000, false, 0⟩, by decide, .inr ⟨by decide, rfl,
    ⟨-18000, false, 0⟩, by decide, rfl, by decide, by decide⟩⟩

end TimeZone

end LWebServer
