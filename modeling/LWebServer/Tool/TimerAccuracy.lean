import LWebServer.Library.Alarm
import LWebServer.Tool.TimingWheel

/-!
# When timers fire

While no timer is set 256 or more ticks ahead and no descriptor is used twice, the first wheel is
an alarm clock: its list at an index holds what is due at the next tick with this index.
-/

namespace LWebServer.TimerWheel

open Alarm

variable {F : Type}

/-- A callback that only makes itself known. -/
def record (f : F) (fd : ℤ) : Op (TimerWheel F × List (ℤ × F)) Unit :=
  modify fun s ↦ (s.1, s.2 ++ [(fd, f)])

/-- The callbacks that are invoked in each `TW_Tick` of a run, if none of its calls fails. -/
def calls : List (Command (ℤ × F)) → TimerWheel F → Option (List (List (ℤ × F)))
  | [], _ => some []
  | .add ticks (fd, f) :: commands, w =>
    match twAdd fd f ticks w with
    | .ok _ w => calls commands w
    | .error _ _ => none
  | .tick :: commands, w =>
    match twTick record (w, []) with
    | .ok _ (w, called) => (calls commands w).map (called :: ·)
    | .error _ _ => none

/-- No call of the run fails, and each callback is invoked in the tick that it is due at and in no
other one. -/
def Accurate (commands : List (Command (ℤ × F))) : Prop :=
  calls commands (new : TimerWheel F) =
    some ((List.range' 1 (tickCount commands)).map fun t ↦ dueAt t (dues 0 commands))

/-! ## The first wheel -/

theorem firstIndex_eq (v : ℕ) : firstIndex v = v % 256 := Nat.and_two_pow_sub_one_eq_mod v 8

/-- The wheel is the clock, for descriptors that have been used. -/
structure Represents (w : TimerWheel F) (c : Clock (ℤ × F)) (used : List ℤ) : Prop where
  currenttime : w.currenttime = c.time % 2 ^ 32
  tv : ∀ level index, w.tv level index = []
  tvroot : ∀ index < 256, (w.tvroot index).map (fun x ↦ (x.fd, x.f)) =
    (c.pending.filter fun alarm ↦ alarm.1 % 256 = index).map Prod.snd
  ahead : ∀ alarm ∈ c.pending, c.time < alarm.1 ∧ alarm.1 < c.time + 256
  mp : ∀ fd, w.mp fd ≠ none ↔ fd ∈ used

theorem represents_new : Represents (new : TimerWheel F) ⟨0, []⟩ [] where
  currenttime := rfl
  tv _ _ := rfl
  tvroot _ _ := rfl
  ahead _ halarm := by cases halarm
  mp _ := by simp [new]

variable {w : TimerWheel F} {c : Clock (ℤ × F)} {used : List ℤ}

theorem twAdd_used {fd : ℤ} (hused : w.mp fd ≠ none) (f : F) (ticks : ℕ) :
    twAdd fd f ticks w = .error .invalidArgument w := by
  unfold twAdd twAddAt
  rw [if_neg (by omega), if_pos hused]

theorem addLevel_ne_ok (idx ex : ℕ) (ptr : TimerNode F) (hidx : idx < 2 ^ 32) (w : TimerWheel F) :
    ∃ w', addLevel idx ex ptr 4 0 w = .error .undefinedBehaviour w' := by
  unfold addLevel
  split_ifs
  · exact ⟨_, rfl⟩
  unfold addLevel
  split_ifs
  · exact ⟨_, rfl⟩
  unfold addLevel
  split_ifs
  · exact ⟨_, rfl⟩
  unfold addLevel
  exact ⟨_, if_pos hidx⟩

/-- A descriptor without an entry gets a node. -/
theorem twAdd_unused {fd : ℤ} (hmp : w.mp fd = none) (hlt : w.currenttime < 2 ^ 32) (f : F)
    (ticks : ℕ) (hticks : ticks < 2 ^ 32) :
    if ticks < 256 then ∃ ptr : TimerNode F, ptr.fd = fd ∧ ptr.f = f ∧
      twAdd fd f ticks w = .ok () ({ w with fresh := w.fresh + 1 }.pushRoot
        ((w.currenttime + ticks) % 2 ^ 32 % 256) ptr)
    else ∃ w', twAdd fd f ticks w = .error .undefinedBehaviour w' := by
  have hidx : ((w.currenttime + ticks) % 2 ^ 32 + 2 ^ 32 - w.currenttime) % 2 ^ 32 = ticks := by
    omega
  have hadd : twAdd fd f ticks w = twAddAt fd ((w.currenttime + ticks) % 2 ^ 32) f w := by
    unfold twAdd
    rw [if_neg (by omega), Int.toNat_natCast]
  rw [hadd]
  unfold twAddAt
  rw [if_neg (not_not.mpr hmp), hidx, firstIndex_eq]
  by_cases hshort : ticks < 256
  · have hsize : ticks < tvrSize := hshort
    rw [if_pos hshort]
    refine ⟨⟨w.fresh, (w.currenttime + ticks) % 2 ^ 32 % 256, some 0, fd,
      (w.currenttime + ticks) % 2 ^ 32, f⟩, rfl, rfl, ?_⟩
    exact if_pos hsize
  · have hsize : ¬ ticks < tvrSize := hshort
    rw [if_neg hshort]
    obtain ⟨w', herror⟩ := addLevel_ne_ok ticks ((w.currenttime + ticks) % 2 ^ 32)
      ⟨w.fresh, (w.currenttime + ticks) % 2 ^ 32 % 256, none, fd,
        (w.currenttime + ticks) % 2 ^ 32, f⟩ hticks { w with fresh := w.fresh + 1 }
    exact ⟨w', (if_neg hsize).trans herror⟩

/-- A descriptor that has not been used. -/
theorem twAdd_fresh (hrepresents : Represents w c used) {fd : ℤ} (hfresh : fd ∉ used) (f : F)
    (ticks : ℕ) (hticks : ticks < 2 ^ 32) :
    if ticks < 256 then ∃ ptr : TimerNode F, ptr.fd = fd ∧ ptr.f = f ∧
      twAdd fd f ticks w =
        .ok () ({ w with fresh := w.fresh + 1 }.pushRoot ((c.time + ticks) % 256) ptr)
    else ∃ w', twAdd fd f ticks w = .error .undefinedBehaviour w' := by
  have hmp : w.mp fd = none := by
    by_contra hne
    exact hfresh ((hrepresents.mp fd).mp hne)
  have htime := hrepresents.currenttime
  have hindex : (w.currenttime + ticks) % 2 ^ 32 % 256 = (c.time + ticks) % 256 := by omega
  rw [← hindex]
  exact twAdd_unused hmp (by omega) f ticks hticks

theorem Represents.add (hrepresents : Represents w c used) {fd : ℤ} {f : F} {ticks : ℕ}
    (hpos : 0 < ticks) (hshort : ticks < 256) {ptr : TimerNode F} (hfd : ptr.fd = fd)
    (hf : ptr.f = f) :
    Represents ({ w with fresh := w.fresh + 1 }.pushRoot ((c.time + ticks) % 256) ptr)
      (c.add ticks (fd, f)) (fd :: used) where
  currenttime := hrepresents.currenttime
  tv := hrepresents.tv
  tvroot index hindex := by
    have hold := hrepresents.tvroot index hindex
    unfold pushRoot Clock.add
    dsimp only
    by_cases hsame : index = (c.time + ticks) % 256
    · subst hsame
      rw [Function.update_self, List.map_append, hold]
      simp [hfd, hf]
    · rw [Function.update_of_ne hsame, hold]
      simp [Ne.symm hsame]
  ahead := by
    refine List.forall_mem_append.mpr ⟨hrepresents.ahead, List.forall_mem_singleton.mpr ?_⟩
    exact ⟨Nat.lt_add_of_pos_right hpos, Nat.add_lt_add_left hshort _⟩
  mp other := by
    unfold pushRoot
    dsimp only
    rw [hfd]
    by_cases hsame : other = fd
    · simp [hsame]
    · rw [Function.update_of_ne hsame]
      simpa [hsame] using hrepresents.mp other

/-! ## A tick -/

/-- Empty lists are emptied. -/
theorem cascade_eq {w : TimerWheel F} (htv : ∀ level index, w.tv level index = [])
    (count level : ℕ) : cascade count level w = .ok () w := by
  induction count generalizing level with
  | zero => rfl
  | succ count ih =>
    have hlevel : Function.update (w.tv level) (nthIndex w.currenttime level) [] = w.tv level := by
      rw [← htv level (nthIndex w.currenttime level), Function.update_eq_self]
    have hlist : cascadeList (w.tv level (nthIndex w.currenttime level)) w = .ok () w := by
      rw [htv]
      rfl
    unfold cascade
    rw [Op.bind_get, Op.bind_of_ok hlist, Op.bind_modify, hlevel, Function.update_eq_self]
    split_ifs
    · exact ih (level + 1)
    · rfl

theorem advance_eq (htv : ∀ level index, w.tv level index = []) :
    advance w = .ok () { w with currenttime := (w.currenttime + 1) % 2 ^ 32 } := by
  unfold advance
  rw [Op.bind_modify, Op.bind_get]
  have htv' : ∀ level index,
      ({ w with currenttime := (w.currenttime + 1) % 2 ^ 32 } : TimerWheel F).tv level index =
        [] := htv
  split_ifs
  · exact cascade_eq htv' 4 0
  · rfl

theorem expireAll_record (xs : List (TimerNode F)) (s : TimerWheel F × List (ℤ × F)) :
    expireAll record xs s = .ok () (s.1, s.2 ++ xs.map fun x ↦ (x.fd, x.f)) := by
  induction xs generalizing s with
  | nil => simp [expireAll, pure, EStateM.pure]
  | cons x xs ih =>
    have hrecord : record x.f x.fd s = .ok () (s.1, s.2 ++ [(x.fd, x.f)]) := rfl
    unfold expireAll
    rw [Op.bind_of_ok hrecord, ih]
    simp

/-- The wheel after a tick that has found nothing in the coarser wheels. -/
def ticked (w : TimerWheel F) : TimerWheel F :=
  { w with
    currenttime := (w.currenttime + 1) % 2 ^ 32
    tvroot := Function.update w.tvroot ((w.currenttime + 1) % 2 ^ 32 % 256) [] }

/-- A tick whose callbacks do nothing to the wheel. -/
theorem twTick_eq {σ : Type} {call : F → ℤ → Op (TimerWheel F × σ) Unit} {s s' : σ}
    (htv : ∀ level index, w.tv level index = [])
    (hcalls : expireAll call (w.tvroot ((w.currenttime + 1) % 2 ^ 32 % 256))
      ({ w with currenttime := (w.currenttime + 1) % 2 ^ 32 }, s) =
        .ok () ({ w with currenttime := (w.currenttime + 1) % 2 ^ 32 }, s')) :
    twTick call (w, s) = .ok () (w.ticked, s') := by
  have hindex : (w.currenttime + 1) % 2 ^ 32 &&& tvrMask = (w.currenttime + 1) % 2 ^ 32 % 256 :=
    firstIndex_eq _
  have hwithin : within advance (w, s) =
      .ok () ({ w with currenttime := (w.currenttime + 1) % 2 ^ 32 }, s) := by
    unfold within
    rw [advance_eq htv]
  unfold twTick
  rw [Op.bind_of_ok hwithin, Op.bind_get]
  dsimp only
  rw [hindex, Op.bind_of_ok hcalls]
  rfl

theorem twTick_record (htv : ∀ level index, w.tv level index = []) :
    twTick record (w, []) = .ok () (w.ticked,
      (w.tvroot ((w.currenttime + 1) % 2 ^ 32 % 256)).map fun x ↦ (x.fd, x.f)) :=
  twTick_eq htv (expireAll_record _ _)

theorem Represents.tick (hrepresents : Represents w c used) :
    (w.tvroot ((w.currenttime + 1) % 2 ^ 32 % 256)).map (fun x ↦ (x.fd, x.f)) = c.ringing ∧
      Represents w.ticked c.tick used := by
  have hindex : (w.currenttime + 1) % 2 ^ 32 % 256 = (c.time + 1) % 256 := by
    rw [hrepresents.currenttime]
    omega
  have hnext (alarm : ℕ × ℤ × F) (halarm : alarm ∈ c.pending) :
      alarm.1 % 256 = (c.time + 1) % 256 ↔ alarm.1 = c.time + 1 := by
    obtain ⟨hlow, hhigh⟩ := hrepresents.ahead alarm halarm
    omega
  refine ⟨?_, ?_, hrepresents.tv, ?_, ?_, hrepresents.mp⟩
  · rw [hindex, hrepresents.tvroot _ (Nat.mod_lt _ (by decide))]
    unfold Clock.ringing dueAt
    congr 1
    apply List.filter_congr
    intro alarm halarm
    simp [hnext alarm halarm]
  · have htime := hrepresents.currenttime
    unfold ticked Clock.tick
    dsimp only
    omega
  · intro index hlt
    unfold ticked Clock.tick
    dsimp only
    rw [hindex, List.filter_filter]
    by_cases hsame : index = (c.time + 1) % 256
    · subst hsame
      rw [Function.update_self, List.map_nil, eq_comm, List.map_eq_nil_iff,
        List.filter_eq_nil_iff]
      intro alarm halarm
      simp [hnext alarm halarm]
    · rw [Function.update_of_ne hsame, hrepresents.tvroot index hlt]
      congr 1
      apply List.filter_congr
      intro alarm halarm
      have hiff := hnext alarm halarm
      by_cases hdue : alarm.1 % 256 = index
      · have hne : alarm.1 ≠ c.time + 1 := fun h ↦ hsame (hdue ▸ hiff.mpr h)
        simp [hdue, hne]
      · simp [hdue]
  · intro alarm halarm
    obtain ⟨hmem, hne⟩ := List.mem_filter.mp halarm
    obtain ⟨hlow, hhigh⟩ := hrepresents.ahead alarm hmem
    have hne' : alarm.1 ≠ c.time + 1 := by simpa using hne
    unfold Clock.tick
    dsimp only
    omega

/-! ## Runs -/

/-- The timers of a run fit the first wheel, and none of them uses a descriptor that has been used
before. -/
structure Modest (used : List ℤ) (commands : List (Command (ℤ × F))) : Prop where
  short : ∀ alarm ∈ adds commands, alarm.1 < 256
  distinct : (used ++ (adds commands).map fun alarm ↦ alarm.2.1).Nodup

theorem modest_nil (hused : used.Nodup) : Modest used ([] : List (Command (ℤ × F))) where
  short _ halarm := by cases halarm
  distinct := by simpa [adds] using hused

theorem modest_add_iff {ticks : ℕ} {fd : ℤ} {f : F} {commands : List (Command (ℤ × F))} :
    Modest used (.add ticks (fd, f) :: commands) ↔
      ticks < 256 ∧ fd ∉ used ∧ Modest (fd :: used) commands := by
  constructor
  · rintro ⟨hshort, hdistinct⟩
    have hmiddle := List.perm_middle.nodup_iff.mp hdistinct
    refine ⟨hshort (ticks, fd, f) List.mem_cons_self, ?_, ?_, hmiddle⟩
    · intro hmem
      exact (List.nodup_cons.mp hmiddle).1 (List.mem_append_left _ hmem)
    · exact fun alarm h ↦ hshort alarm (List.mem_cons_of_mem _ h)
  · rintro ⟨hticks, -, hshort, hdistinct⟩
    refine ⟨fun alarm halarm ↦ ?_, List.perm_middle.nodup_iff.mpr hdistinct⟩
    rcases List.mem_cons.mp halarm with rfl | hlater
    · exact hticks
    · exact hshort alarm hlater

theorem calls_add {ticks : ℕ} {fd : ℤ} {f : F} {commands : List (Command (ℤ × F))}
    {w' : TimerWheel F} (hadd : twAdd fd f ticks w = .ok () w') :
    calls (.add ticks (fd, f) :: commands) w = calls commands w' := by
  simp only [calls, hadd]

theorem calls_add_error {ticks : ℕ} {fd : ℤ} {f : F} (commands : List (Command (ℤ × F)))
    {e : Fail} {w' : TimerWheel F} (hadd : twAdd fd f ticks w = .error e w') :
    calls (.add ticks (fd, f) :: commands) w = none := by
  simp only [calls, hadd]

/-- A run is that of the alarm clock, or one of its calls fails. -/
theorem calls_eq_rings {commands : List (Command (ℤ × F))} (hrepresents : Represents w c used)
    (hticks : ∀ alarm ∈ adds commands, 0 < alarm.1 ∧ alarm.1 < 2 ^ 31) :
    (Modest used commands → calls commands w = some (c.rings commands)) ∧
      (calls commands w ≠ none → used.Nodup → Modest used commands) := by
  induction commands generalizing w c used with
  | nil => exact ⟨fun _ ↦ rfl, fun _ hused ↦ modest_nil hused⟩
  | cons command commands ih =>
    cases command with
    | tick =>
      obtain ⟨hcalled, hnext⟩ := hrepresents.tick
      obtain ⟨hgood, hbad⟩ := ih hnext hticks
      have hcalls : calls (.tick :: commands) w =
          (calls commands w.ticked).map (c.ringing :: ·) := by
        simp only [calls, twTick_record hrepresents.tv, hcalled]
      constructor
      · intro hmodest
        rw [hcalls, hgood ⟨hmodest.short, hmodest.distinct⟩]
        rfl
      · intro hdefined hused
        rw [hcalls] at hdefined
        have hmodest := hbad (fun hnone ↦ hdefined (by rw [hnone]; rfl)) hused
        exact ⟨hmodest.short, hmodest.distinct⟩
    | add ticks timer =>
      obtain ⟨fd, f⟩ := timer
      obtain ⟨hpos, hlt⟩ := hticks (ticks, fd, f) List.mem_cons_self
      have hlater (alarm) (h : alarm ∈ adds commands) := hticks alarm (List.mem_cons_of_mem _ h)
      rw [modest_add_iff]
      by_cases hused : fd ∈ used
      · have hfails := calls_add_error commands
          (twAdd_used ((hrepresents.mp fd).mpr hused) f ticks)
        exact ⟨fun hmodest ↦ absurd hused hmodest.2.1, fun hdefined ↦ absurd hfails hdefined⟩
      have hadd := twAdd_fresh hrepresents hused f ticks (by omega)
      by_cases hshort : ticks < 256
      · rw [if_pos hshort] at hadd
        obtain ⟨ptr, hfd, hf, hadd⟩ := hadd
        obtain ⟨hgood, hbad⟩ := ih (hrepresents.add hpos hshort hfd hf) hlater
        rw [calls_add hadd]
        exact ⟨fun hmodest ↦ hgood hmodest.2.2, fun hdefined hnodup ↦
          ⟨hshort, hused, hbad hdefined (List.nodup_cons.mpr ⟨hused, hnodup⟩)⟩⟩
      · rw [if_neg hshort] at hadd
        obtain ⟨w', hadd⟩ := hadd
        exact ⟨fun hmodest ↦ absurd hmodest.1 hshort,
          fun hdefined ↦ absurd (calls_add_error commands hadd) hdefined⟩

/-- Timers fire when they should exactly if each is set less than 256 ticks ahead, on a descriptor
that has had no timer before. -/
theorem accurate_iff_modest {commands : List (Command (ℤ × F))}
    (hticks : ∀ alarm ∈ adds commands, 0 < alarm.1 ∧ alarm.1 < 2 ^ 31) :
    Accurate commands ↔ Modest [] commands := by
  have hrings : (⟨0, []⟩ : Clock (ℤ × F)).rings commands =
      (List.range' 1 (tickCount commands)).map fun t ↦ dueAt t (dues 0 commands) :=
    rings_eq (fun _ halarm ↦ by cases halarm) fun alarm halarm ↦ (hticks alarm halarm).1
  obtain ⟨hgood, hbad⟩ := calls_eq_rings represents_new hticks
  unfold Accurate
  rw [← hrings]
  refine ⟨fun haccurate ↦ hbad ?_ List.nodup_nil, hgood⟩
  rw [haccurate]
  exact Option.some_ne_none _

theorem accurate_iff_modest_twoTimers :
    Accurate [.add 2 (1, ()), .tick, .add 1 (2, ()), .tick] ↔
      Modest [] [.add 2 (1, ()), .tick, .add 1 (2, ()), .tick] :=
  accurate_iff_modest (by decide)

/-- A descriptor whose timer has fired cannot be given another one. -/
theorem not_accurate_again : ¬ Accurate [.add 1 (1, ()), .tick, .add 1 (1, ()), .tick] := by
  unfold Accurate
  decide

end LWebServer.TimerWheel
