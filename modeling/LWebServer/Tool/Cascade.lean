import LWebServer.Tool.Placement

/-!
# Moving timers to finer wheels

A tick that completes a round of the first wheel empties the next slot of a coarser wheel and adds
its timers again. The number of ticks that it gives to `TW_Add` is the current time minus the
expiry, which is not above zero, and `TW_Add` refuses one below zero.
-/

namespace LWebServer.TimerWheel

variable {F : Type} {w w' : TimerWheel F}

/-! ## The slots that a tick empties -/

/-- The slots of the coarser wheels that a tick to a time empties, from a wheel on. -/
def slots (now : ℕ) : ℕ → ℕ → List (ℕ × ℕ)
  | 0, _ => []
  | count + 1, level =>
    (level, nthIndex now level) ::
      if nthIndex now level = 0 then slots now count (level + 1) else []

/-- The nodes in these slots. -/
def nodesIn (slots : List (ℕ × ℕ)) (w : TimerWheel F) : List (TimerNode F) :=
  slots.flatMap fun slot ↦ w.tv slot.1 slot.2

theorem nodesIn_cons (slot : ℕ × ℕ) (slots : List (ℕ × ℕ)) (w : TimerWheel F) :
    w.nodesIn (slot :: slots) = w.tv slot.1 slot.2 ++ w.nodesIn slots :=
  rfl

/-- The time after the next tick. -/
def nextTime (w : TimerWheel F) : ℕ := (w.currenttime + 1) % 2 ^ 32

/-- Every node of a coarser wheel expires later, at a distance that fits its wheel, and lies in the
slot of its expiry. -/
structure Ahead (w : TimerWheel F) : Prop where
  currenttime_lt : w.currenttime < 2 ^ 32
  expire_lt : ∀ level < 4, ∀ index < tvnSize, ∀ x ∈ w.tv level index, x.expire < 2 ^ 32
  later : ∀ level < 4, ∀ index < tvnSize, ∀ x ∈ w.tv level index,
    0 < distance w.currenttime x.expire
  fits : ∀ level < 4, ∀ index < tvnSize, ∀ x ∈ w.tv level index,
    distance w.currenttime x.expire < 1 <<< (tvrBits + (level + 1) * tvnBits)
  slot : ∀ level < 4, ∀ index < tvnSize, ∀ x ∈ w.tv level index, nthIndex x.expire level = index

theorem nthIndex_eq (v n : ℕ) : nthIndex v n = v / 2 ^ (8 + n * 6) % 64 := by
  unfold nthIndex
  rw [Nat.shiftRight_eq_div_pow]
  exact Nat.and_two_pow_sub_one_eq_mod _ 6

/-- A finer wheel that has gone round is at its first slot again. -/
theorem next_round {now level : ℕ} (hround : now % 2 ^ (8 + level * 6) = 0)
    (hzero : nthIndex now level = 0) : now % 2 ^ (8 + (level + 1) * 6) = 0 := by
  have hpow : 2 ^ (8 + (level + 1) * 6) = 2 ^ (8 + level * 6) * 64 := by
    rw [show 8 + (level + 1) * 6 = 8 + level * 6 + 6 by ring, pow_add]
    norm_num
  rw [nthIndex_eq] at hzero
  rw [hpow, Nat.mod_mul, hround, hzero, Nat.mul_zero]

theorem mem_slots {now count level : ℕ} {slot : ℕ × ℕ} (hround : now % 2 ^ (8 + level * 6) = 0)
    (hslot : slot ∈ slots now count level) :
    level ≤ slot.1 ∧ slot.1 < level + count ∧ slot.2 = nthIndex now slot.1 ∧
      now % 2 ^ (8 + slot.1 * 6) = 0 := by
  induction count generalizing level with
  | zero => cases hslot
  | succ count ih =>
    unfold slots at hslot
    rcases List.mem_cons.mp hslot with rfl | hrest
    · exact ⟨le_rfl, by omega, rfl, hround⟩
    · split_ifs at hrest with hzero
      · obtain ⟨hle, hlt, hrest⟩ := ih (next_round hround hzero) hrest
        exact ⟨by omega, by omega, hrest⟩
      · cases hrest

/-- A node in a slot that a tick empties expires within the ticks of the wheel below. -/
theorem distance_lt (hahead : Ahead w) (hround : w.nextTime % 256 = 0) {x : TimerNode F}
    (hx : x ∈ w.nodesIn (slots w.nextTime 4 0)) :
    x.expire < 2 ^ 32 ∧ distance w.nextTime x.expire < 2 ^ 31 := by
  obtain ⟨⟨level, index⟩, hslot, hx⟩ := List.mem_flatMap.mp hx
  obtain ⟨-, hlevel, hindex, hzero⟩ := mem_slots (by simpa using hround) hslot
  dsimp only at hx hlevel hindex hzero
  have hsize : index < tvnSize := by
    rw [hindex, nthIndex_eq]
    exact Nat.mod_lt _ (by decide)
  have hexpire := hahead.expire_lt level (by omega) index hsize x hx
  have hlater := hahead.later level (by omega) index hsize x hx
  have hfits := hahead.fits level (by omega) index hsize x hx
  have hsame := hahead.slot level (by omega) index hsize x hx
  have htime := hahead.currenttime_lt
  refine ⟨hexpire, ?_⟩
  rw [hindex, nthIndex_eq, nthIndex_eq] at hsame
  unfold distance nextTime at *
  have hcases : level = 0 ∨ level = 1 ∨ level = 2 ∨ level = 3 := by omega
  rcases hcases with rfl | rfl | rfl | rfl
  all_goals
    norm_num [tvrBits, tvnBits] at hfits hsame hzero
    omega

/-! ## Adding their timers again -/

/-- Adding the timers of some nodes succeeds: each of them is due now, and its descriptor has no
entry and no other node among them. -/
structure Due (xs : List (TimerNode F)) (w : TimerWheel F) : Prop where
  expire : ∀ x ∈ xs, x.expire = w.currenttime
  unused : ∀ x ∈ xs, w.mp x.fd = none
  distinct : (xs.map TimerNode.fd).Nodup

/-- What a user sees of a timer. -/
def timer (x : TimerNode F) : ℤ × ℕ × F := (x.fd, x.expire, x.f)

/-- The timers of some nodes have been added to the list of the current time, some slots of the
coarser wheels have been emptied, and nothing else has changed. -/
structure Poured (xs : List (TimerNode F)) (emptied : List (ℕ × ℕ)) (w w' : TimerWheel F) :
    Prop where
  currenttime : w'.currenttime = w.currenttime
  root : (w'.tvroot 0).map timer = (w.tvroot 0).map timer ++ xs.map timer
  others : ∀ index ≠ 0, w'.tvroot index = w.tvroot index
  tv : ∀ level index, w'.tv level index =
    if (level, index) ∈ emptied then [] else w.tv level index
  mp : ∀ fd, w'.mp fd = none ↔ w.mp fd = none ∧ fd ∉ xs.map TimerNode.fd

theorem poured_refl (w : TimerWheel F) : Poured [] [] w w where
  currenttime := rfl
  root := (List.append_nil _).symm
  others _ _ := rfl
  tv _ _ := (if_neg List.not_mem_nil).symm
  mp _ := (and_iff_left List.not_mem_nil).symm

theorem Poured.trans {xs ys : List (TimerNode F)} {before after : List (ℕ × ℕ)}
    {w'' : TimerWheel F} (hfirst : Poured xs before w w') (hsecond : Poured ys after w' w'') :
    Poured (xs ++ ys) (before ++ after) w w'' where
  currenttime := hsecond.currenttime.trans hfirst.currenttime
  root := by rw [hsecond.root, hfirst.root, List.append_assoc, List.map_append]
  others index hindex := (hsecond.others index hindex).trans (hfirst.others index hindex)
  tv level index := by
    rw [hsecond.tv, hfirst.tv]
    by_cases hafter : (level, index) ∈ after
    · rw [if_pos hafter, if_pos (List.mem_append_right _ hafter)]
    · simp only [List.mem_append, hafter, or_false, if_false]
  mp fd := by
    rw [hsecond.mp, hfirst.mp, List.map_append, List.mem_append, not_or, and_assoc]

/-- Timers that are added after others. -/
theorem due_append {xs ys : List (TimerNode F)} {emptied : List (ℕ × ℕ)}
    (hpoured : Poured xs emptied w w') : Due (xs ++ ys) w ↔ Due xs w ∧ Due ys w' := by
  constructor
  · rintro ⟨hexpire, hunused, hdistinct⟩
    obtain ⟨hexpire, hexpire'⟩ := List.forall_mem_append.mp hexpire
    obtain ⟨hunused, hunused'⟩ := List.forall_mem_append.mp hunused
    rw [List.map_append] at hdistinct
    obtain ⟨hxs, hys, hapart⟩ := List.nodup_append.mp hdistinct
    refine ⟨⟨hexpire, hunused, hxs⟩, fun y hy ↦ ?_, fun y hy ↦ ?_, hys⟩
    · exact (hexpire' y hy).trans hpoured.currenttime.symm
    · refine (hpoured.mp y.fd).mpr ⟨hunused' y hy, fun hmem ↦ ?_⟩
      exact hapart _ hmem _ (List.mem_map_of_mem hy) rfl
  · rintro ⟨⟨hexpire, hunused, hxs⟩, hexpire', hunused', hys⟩
    refine ⟨List.forall_mem_append.mpr ⟨hexpire, fun y hy ↦ ?_⟩,
      List.forall_mem_append.mpr ⟨hunused, fun y hy ↦ ?_⟩, ?_⟩
    · exact (hexpire' y hy).trans hpoured.currenttime
    · exact ((hpoured.mp y.fd).mp (hunused' y hy)).1
    · rw [List.map_append]
      refine List.nodup_append.mpr ⟨hxs, hys, fun fd hfd fd' hfd' heq ↦ ?_⟩
      obtain ⟨y, hy, rfl⟩ := List.mem_map.mp hfd'
      exact ((hpoured.mp y.fd).mp (hunused' y hy)).2 (heq ▸ hfd)

/-- The number of ticks that `TW_Tick` adds a timer with. -/
theorem ticks_eq {now ex : ℕ} (hnow : now < 2 ^ 32) (hex : ex < 2 ^ 32)
    (hnear : distance now ex < 2 ^ 31) :
    ((now : ℤ) - ex).bmod (2 ^ 32) = -(distance now ex : ℤ) := by
  refine (Int.bmod_eq_iff (by decide)).mpr ⟨?_, ?_, ?_⟩ <;> unfold distance at * <;> omega

theorem distance_eq_zero {now ex : ℕ} (hnow : now < 2 ^ 32) (hex : ex < 2 ^ 32) :
    distance now ex = 0 ↔ ex = now := by
  unfold distance
  omega

theorem poured_twAdd {x : TimerNode F} (hround : firstIndex w.currenttime = 0)
    (hlt : w.currenttime < 2 ^ 32) (hexpire : x.expire = w.currenttime)
    (hunused : w.mp x.fd = none) :
    ∃ w', twAdd x.fd x.f 0 w = .ok () w' ∧ Poured [x] [] w w' := by
  have hdistance : (w.currenttime + 2 ^ 32 - w.currenttime) % 2 ^ 32 < tvrSize := by
    rw [Nat.add_sub_cancel_left]
    decide
  unfold twAdd twAddAt
  rw [if_neg (lt_irrefl _), if_neg (not_not.mpr hunused), Int.toNat_zero, add_zero,
    Nat.mod_eq_of_lt hlt, hround]
  dsimp only
  rw [if_pos hdistance]
  refine ⟨_, rfl, rfl, ?_, fun index hindex ↦ ?_, fun _ _ ↦ (if_neg List.not_mem_nil).symm,
    fun fd ↦ ?_⟩
  · unfold pushRoot
    dsimp only
    rw [Function.update_self, List.map_append, ← hexpire]
    rfl
  · exact Function.update_of_ne hindex ..
  · change Function.update w.mp x.fd _ fd = none ↔ _
    rw [List.map_singleton, List.mem_singleton]
    by_cases hfd : fd = x.fd
    · simp [hfd]
    · simp [hfd]

theorem twAdd_refused {x : TimerNode F} (hlt : w.currenttime < 2 ^ 32) (hex : x.expire < 2 ^ 32)
    (hfirst : ¬ (x.expire = w.currenttime ∧ w.mp x.fd = none)) :
    twAdd x.fd x.f (-(distance w.currenttime x.expire : ℤ)) w = .error .invalidArgument w := by
  by_cases hexpire : x.expire = w.currenttime
  · rw [(distance_eq_zero hlt hex).mpr hexpire]
    exact twAdd_used (fun hunused ↦ hfirst ⟨hexpire, hunused⟩) x.f 0
  · have hpos : distance w.currenttime x.expire ≠ 0 := fun hzero ↦
      hexpire ((distance_eq_zero hlt hex).mp hzero)
    exact if_pos (by omega)

/-- An operation adds the timers of some nodes and empties some slots, or one of its calls of
`TW_Add` throws. -/
def Pours (f : Op (TimerWheel F) Unit) (xs : List (TimerNode F)) (emptied : List (ℕ × ℕ))
    (w : TimerWheel F) : Prop :=
  (Due xs w → ∃ w', f w = .ok () w' ∧ Poured xs emptied w w') ∧
    (¬ Due xs w → ∃ w', f w = .error .invalidArgument w')

theorem due_nil (w : TimerWheel F) : Due [] w where
  expire _ hx := absurd hx List.not_mem_nil
  unused _ hx := absurd hx List.not_mem_nil
  distinct := List.nodup_nil

theorem pours_of_poured {f : Op (TimerWheel F) Unit} {emptied : List (ℕ × ℕ)} (hf : f w = .ok () w')
    (hpoured : Poured [] emptied w w') : Pours f [] emptied w :=
  ⟨fun _ ↦ ⟨w', hf, hpoured⟩, fun hdue ↦ absurd (due_nil w) hdue⟩

theorem Pours.bind {f : Op (TimerWheel F) Unit} {g : Unit → Op (TimerWheel F) Unit}
    {xs ys : List (TimerNode F)} {before after : List (ℕ × ℕ)} (hf : Pours f xs before w)
    (hg : ∀ w', Poured xs before w w' → Pours (g ()) ys after w') :
    Pours (f >>= g) (xs ++ ys) (before ++ after) w := by
  obtain ⟨hgood, hbad⟩ := hf
  by_cases hdue : Due xs w
  · obtain ⟨w₁, hok, hpoured⟩ := hgood hdue
    obtain ⟨hgood', hbad'⟩ := hg w₁ hpoured
    rw [Pours, due_append hpoured, and_iff_right hdue, Op.bind_of_ok hok]
    refine ⟨fun hdue' ↦ ?_, hbad'⟩
    obtain ⟨w', hok', hpoured'⟩ := hgood' hdue'
    exact ⟨w', hok', hpoured.trans hpoured'⟩
  · obtain ⟨w', herror⟩ := hbad hdue
    refine ⟨fun hall ↦ absurd ⟨fun x hx ↦ ?_, fun x hx ↦ ?_, ?_⟩ hdue,
      fun _ ↦ ⟨w', Op.bind_of_error herror⟩⟩
    · exact hall.expire x (List.mem_append_left _ hx)
    · exact hall.unused x (List.mem_append_left _ hx)
    · have hdistinct := hall.distinct
      rw [List.map_append] at hdistinct
      exact (List.nodup_append.mp hdistinct).1

theorem Pours.get_bind {g : TimerWheel F → Op (TimerWheel F) Unit} {xs : List (TimerNode F)}
    {emptied : List (ℕ × ℕ)} (hg : Pours (g w) xs emptied w) :
    Pours (get >>= g) xs emptied w := by
  rw [Pours, Op.bind_get]
  exact hg

theorem due_singleton {x : TimerNode F} :
    Due [x] w ↔ x.expire = w.currenttime ∧ w.mp x.fd = none := by
  constructor
  · intro hdue
    exact ⟨hdue.expire x (List.mem_singleton_self x), hdue.unused x (List.mem_singleton_self x)⟩
  · rintro ⟨hexpire, hunused⟩
    exact ⟨List.forall_mem_singleton.mpr hexpire, List.forall_mem_singleton.mpr hunused,
      List.nodup_singleton _⟩

theorem pours_twAdd {x : TimerNode F} (hround : firstIndex w.currenttime = 0)
    (hlt : w.currenttime < 2 ^ 32) (hex : x.expire < 2 ^ 32) :
    Pours (twAdd x.fd x.f (-(distance w.currenttime x.expire : ℤ))) [x] [] w := by
  rw [Pours, due_singleton]
  constructor
  · rintro ⟨hexpire, hunused⟩
    rw [(distance_eq_zero hlt hex).mpr hexpire, Nat.cast_zero, neg_zero]
    exact poured_twAdd hround hlt hexpire hunused
  · exact fun hfirst ↦ ⟨w, twAdd_refused hlt hex hfirst⟩

theorem pours_cascadeList {xs : List (TimerNode F)} (hround : firstIndex w.currenttime = 0)
    (hlt : w.currenttime < 2 ^ 32)
    (hnear : ∀ x ∈ xs, x.expire < 2 ^ 32 ∧ distance w.currenttime x.expire < 2 ^ 31) :
    Pours (cascadeList xs) xs [] w := by
  induction xs generalizing w with
  | nil => exact pours_of_poured rfl (poured_refl w)
  | cons x xs ih =>
    obtain ⟨⟨hex, hdistance⟩, hnear⟩ := List.forall_mem_cons.mp hnear
    unfold cascadeList
    refine Pours.get_bind ?_
    rw [ticks_eq hlt hex hdistance]
    refine (pours_twAdd hround hlt hex).bind fun w₁ hpoured ↦ ?_
    rw [← hpoured.currenttime] at hround hlt hnear
    exact ih hround hlt hnear

/-- The slots from a wheel on are not touched where a slot of a finer wheel is emptied. -/
theorem nodesIn_slots (count : ℕ) {now level index : ℕ} {xs : List (TimerNode F)}
    (hround : now % 2 ^ (8 + (level + 1) * 6) = 0) (hpoured : Poured xs [(level, index)] w w') :
    w'.nodesIn (slots now count (level + 1)) = w.nodesIn (slots now count (level + 1)) := by
  refine List.flatMap_congr fun slot hslot ↦ ?_
  obtain ⟨hle, -⟩ := mem_slots hround hslot
  rw [hpoured.tv, if_neg]
  intro hmem
  have hsame := congrArg Prod.fst (List.mem_singleton.mp hmem)
  dsimp only at hsame
  omega

theorem poured_clear (level index : ℕ) (w : TimerWheel F) :
    Poured [] [(level, index)] w
      { w with tv := Function.update w.tv level (Function.update (w.tv level) index []) } where
  currenttime := rfl
  root := (List.append_nil _).symm
  others _ _ := rfl
  tv level' index' := by
    by_cases hlevel : level' = level
    · subst hlevel
      by_cases hindex : index' = index
      · simp [hindex]
      · simp [hindex]
    · simp [hlevel]
  mp _ := (and_iff_left List.not_mem_nil).symm

theorem pours_clear (level index : ℕ) (w : TimerWheel F) :
    Pours (modify fun w ↦
      { w with tv := Function.update w.tv level (Function.update (w.tv level) index []) }) []
      [(level, index)] w :=
  pours_of_poured rfl (poured_clear level index w)

theorem pours_cascade {count level : ℕ} (hround : w.currenttime % 2 ^ (8 + level * 6) = 0)
    (hlt : w.currenttime < 2 ^ 32)
    (hnear : ∀ x ∈ w.nodesIn (slots w.currenttime count level),
      x.expire < 2 ^ 32 ∧ distance w.currenttime x.expire < 2 ^ 31) :
    Pours (cascade count level) (w.nodesIn (slots w.currenttime count level))
      (slots w.currenttime count level) w := by
  induction count generalizing level w with
  | zero => exact pours_of_poured rfl (poured_refl w)
  | succ count ih =>
    have hfirst : firstIndex w.currenttime = 0 := by
      rw [firstIndex_eq]
      exact Nat.mod_eq_zero_of_dvd ((Nat.pow_dvd_pow 2 (Nat.le_add_right 8 _)).trans
        (Nat.dvd_of_mod_eq_zero hround))
    unfold slots at hnear ⊢
    rw [nodesIn_cons] at hnear ⊢
    obtain ⟨hnear, hnear'⟩ := List.forall_mem_append.mp hnear
    unfold cascade
    refine Pours.get_bind ?_
    change Pours (cascadeList (w.tv level (nthIndex w.currenttime level)) >>= _)
      (w.tv level (nthIndex w.currenttime level) ++ ([] ++ w.nodesIn
        (if nthIndex w.currenttime level = 0 then slots w.currenttime count (level + 1) else [])))
      ([] ++ ([(level, nthIndex w.currenttime level)] ++
        if nthIndex w.currenttime level = 0 then slots w.currenttime count (level + 1) else [])) w
    refine (pours_cascadeList hfirst hlt hnear).bind fun w₁ hpoured ↦ ?_
    refine (pours_clear level _ w₁).bind fun w₂ hpoured' ↦ ?_
    have hboth := hpoured.trans hpoured'
    rw [List.append_nil, List.nil_append] at hboth
    split_ifs at hnear' ⊢ with hzero
    · have hnext := next_round hround hzero
      have hnodes := nodesIn_slots count hnext hboth
      rw [← hnodes, ← hboth.currenttime] at hnear'
      rw [← hnodes, ← hboth.currenttime]
      rw [← hboth.currenttime] at hlt hnext
      exact ih hnext hlt hnear'
    · exact pours_of_poured rfl (poured_refl w₂)

/-! ## Ticks -/

/-- Whether a tick to a time empties a list, by moving its nodes or by running their callbacks. -/
def emptied (now : ℕ) : Place → Bool
  | .root index => index = 0
  | .level level index => (level, index) ∈ slots now 4 0

/-- A tick throws nothing, runs the callbacks of the list that is due and of the moved timers that
are due, and leaves in each list, in some order, what was there, if it is not one that the tick
empties, and the other moved timers whose expiry calls for this list. -/
def Cascades (w : TimerWheel F) : Prop :=
  ∃ w' called, twTick record (w, []) = .ok () (w', called) ∧
    called.Perm ((w.tvroot 0 ++ (w.nodesIn (slots w.nextTime 4 0)).filter
      (·.expire = w.nextTime)).map fun x ↦ (x.fd, x.f)) ∧
    ∀ p, ((w'.listAt p).map timer).Perm (((if emptied w.nextTime p then [] else w.listAt p) ++
      (w.nodesIn (slots w.nextTime 4 0)).filter fun x ↦
        x.expire ≠ w.nextTime ∧ place w.nextTime x.expire = p).map timer)

/-- The nodes that a tick moves can all be added at its time. -/
theorem due_iff {xs : List (TimerNode F)} :
    Due xs w ↔ (∀ x ∈ xs, x.expire = w.currenttime ∧ w.mp x.fd = none) ∧
      (xs.map TimerNode.fd).Nodup := by
  constructor
  · exact fun hdue ↦ ⟨fun x hx ↦ ⟨hdue.expire x hx, hdue.unused x hx⟩, hdue.distinct⟩
  · exact fun ⟨hall, hdistinct⟩ ↦ ⟨fun x hx ↦ (hall x hx).1, fun x hx ↦ (hall x hx).2, hdistinct⟩

/-- The wheel at the beginning of the `do` loop of `TW_Tick`. -/
def atNextTime (w : TimerWheel F) : TimerWheel F := { w with currenttime := w.nextTime }

theorem pours_advance (hahead : Ahead w) (hround : w.nextTime % 256 = 0) :
    advance w = cascade 4 0 w.atNextTime ∧
      Pours (cascade 4 0) (w.nodesIn (slots w.nextTime 4 0)) (slots w.nextTime 4 0)
        w.atNextTime := by
  have hmask : w.nextTime &&& tvrMask = 0 := (firstIndex_eq _).trans hround
  constructor
  · unfold advance
    rw [Op.bind_modify, Op.bind_get]
    exact congrFun (if_pos hmask) w.atNextTime
  · exact pours_cascade (w := w.atNextTime) hround (Nat.mod_lt _ (by decide))
      fun x hx ↦ distance_lt hahead hround hx

/-- The wheel after a tick whose cascade has succeeded. -/
theorem twTick_of_advance (hround : w.nextTime % 256 = 0) (hadvance : advance w = .ok () w')
    (htime : w'.currenttime = w.nextTime) :
    twTick record (w, []) = .ok () ({ w' with tvroot := Function.update w'.tvroot 0 [] },
      (w'.tvroot 0).map fun x ↦ (x.fd, x.f)) := by
  have hindex : w'.currenttime &&& tvrMask = 0 := by
    rw [htime]
    exact (firstIndex_eq _).trans hround
  have hwithin : within advance (w, ([] : List (ℤ × F))) = .ok () (w', []) := by
    unfold within
    rw [hadvance]
  unfold twTick
  rw [Op.bind_of_ok hwithin, Op.bind_get]
  dsimp only
  rw [hindex, Op.bind_of_ok (expireAll_record _ _)]
  rfl

theorem twTick_of_advance_error {e : Fail} (hadvance : advance w = .error e w') :
    twTick record (w, []) = .error e (w', []) := by
  have hwithin : within advance (w, ([] : List (ℤ × F))) = .error e (w', []) := by
    unfold within
    rw [hadvance]
  unfold twTick
  exact Op.bind_of_error hwithin

/-- A tick whose cascade has succeeded does what it is to do. -/
theorem cascades_of_poured (hround : w.nextTime % 256 = 0) (hadvance : advance w = .ok () w')
    (hexpire : ∀ x ∈ w.nodesIn (slots w.nextTime 4 0), x.expire = w.nextTime)
    (hpoured : Poured (w.nodesIn (slots w.nextTime 4 0)) (slots w.nextTime 4 0) w.atNextTime w') :
    Cascades w := by
  refine ⟨_, _, twTick_of_advance hround hadvance hpoured.currenttime, ?_, fun p ↦ ?_⟩
  · rw [List.filter_eq_self.mpr fun x hx ↦ decide_eq_true (hexpire x hx)]
    have hcalled := congrArg (List.map fun t : ℤ × ℕ × F ↦ (t.1, t.2.2)) hpoured.root
    rw [← List.map_append, List.map_map, List.map_map] at hcalled
    exact List.Perm.of_eq hcalled
  · have hstay : (w.nodesIn (slots w.nextTime 4 0)).filter (fun x ↦
        x.expire ≠ w.nextTime ∧ place w.nextTime x.expire = p) = [] := by
      refine List.filter_eq_nil_iff.mpr fun x hx hmoved ↦ ?_
      exact (of_decide_eq_true hmoved).1 (hexpire x hx)
    rw [hstay, List.append_nil]
    refine List.Perm.of_eq (congrArg (List.map timer) ?_)
    cases p with
    | root index =>
      change Function.update w'.tvroot 0 [] index = _
      by_cases hindex : index = 0
      · simp [hindex, emptied]
      · rw [Function.update_of_ne hindex, hpoured.others index hindex]
        simp [hindex, emptied, listAt, atNextTime]
    | level level index =>
      change w'.tv level index = _
      rw [hpoured.tv]
      simp [emptied, listAt, atNextTime]

theorem not_cascades (hahead : Ahead w) (hround : w.nextTime % 256 = 0)
    (hdue : ¬ Due (w.nodesIn (slots w.nextTime 4 0)) w.atNextTime) : ¬ Cascades w := by
  rintro ⟨w', called, hok, -⟩
  obtain ⟨hadvance, -, hbad⟩ := pours_advance hahead hround
  obtain ⟨w₁, herror⟩ := hbad hdue
  rw [twTick_of_advance_error (hadvance.trans herror)] at hok
  cases hok

/-- A tick at which the first wheel has gone round moves its timers exactly if all of them expire at
this tick, on different descriptors that have no entry. -/
theorem cascades_iff (hahead : Ahead w) (hround : w.nextTime % 256 = 0) :
    Cascades w ↔ (∀ x ∈ w.nodesIn (slots w.nextTime 4 0),
        x.expire = w.nextTime ∧ w.mp x.fd = none) ∧
      ((w.nodesIn (slots w.nextTime 4 0)).map TimerNode.fd).Nodup := by
  have hdue := @due_iff F w.atNextTime (w.nodesIn (slots w.nextTime 4 0))
  refine Iff.trans ⟨fun hcascades ↦ ?_, fun hdue ↦ ?_⟩ hdue
  · by_contra hnot
    exact not_cascades hahead hround hnot hcascades
  · obtain ⟨hadvance, hgood, -⟩ := pours_advance hahead hround
    obtain ⟨w', hok, hpoured⟩ := hgood hdue
    exact cascades_of_poured hround (hadvance.trans hok) hdue.expire hpoured

/-- A wheel with one timer, in the slot that the next tick empties. -/
def lone (x : TimerNode Unit) : TimerWheel Unit :=
  { new with
    currenttime := 255
    tv := Function.update (fun _ _ ↦ []) 0 (Function.update (fun _ ↦ []) 1 [x]) }

theorem mem_lone {x y : TimerNode Unit} {level index : ℕ} (hy : y ∈ (lone x).tv level index) :
    level = 0 ∧ index = 1 ∧ y = x := by
  unfold lone at hy
  by_cases hlevel : level = 0
  · subst hlevel
    by_cases hindex : index = 1
    · subst hindex
      exact ⟨rfl, rfl, by simpa using hy⟩
    · simp [hindex] at hy
  · simp [hlevel] at hy

theorem ahead_lone {x : TimerNode Unit} (hlow : 256 ≤ x.expire) (hhigh : x.expire < 512) :
    Ahead (lone x) := by
  have htime : 255 < 2 ^ 32 := by decide
  refine ⟨htime, fun _ _ _ _ y hy ↦ ?_, fun _ _ _ _ y hy ↦ ?_, fun _ _ _ _ y hy ↦ ?_,
    fun _ _ _ _ y hy ↦ ?_⟩
  all_goals obtain ⟨rfl, rfl, rfl⟩ := mem_lone hy
  · omega
  · change 0 < (y.expire + 2 ^ 32 - 255) % 2 ^ 32
    omega
  · change (y.expire + 2 ^ 32 - 255) % 2 ^ 32 < 16384
    omega
  · rw [nthIndex_eq]
    omega

theorem cascades_lone :
    Cascades (lone ⟨0, 0, some 1, 1, 256, ()⟩) ↔
      (∀ x ∈ (lone ⟨0, 0, some 1, 1, 256, ()⟩).nodesIn
          (slots (lone ⟨0, 0, some 1, 1, 256, ()⟩).nextTime 4 0),
        x.expire = (lone ⟨0, 0, some 1, 1, 256, ()⟩).nextTime ∧
          (lone ⟨0, 0, some 1, 1, 256, ()⟩).mp x.fd = none) ∧
      (((lone ⟨0, 0, some 1, 1, 256, ()⟩).nodesIn
        (slots (lone ⟨0, 0, some 1, 1, 256, ()⟩).nextTime 4 0)).map TimerNode.fd).Nodup :=
  cascades_iff (ahead_lone (by decide) (by decide)) (by decide)

/-- A timer that is due in the next round of the first wheel, and not at its first tick. -/
theorem not_cascades_lone : ¬ Cascades (lone ⟨0, 1, some 1, 1, 257, ()⟩) := by
  refine not_cascades (ahead_lone (by decide) (by decide)) (by decide) fun hdue ↦ ?_
  have hexpire := hdue.expire ⟨0, 1, some 1, 1, 257, ()⟩ (List.mem_append_left _ ?_)
  · exact absurd hexpire (by decide)
  · exact List.mem_singleton_self _

end LWebServer.TimerWheel
