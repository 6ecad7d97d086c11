import Mathlib.Data.List.Range
import Mathlib.Data.Nat.Notation

/-!
# Alarms

A clock that counts ticks and a list of alarms, each with the tick at which it is due. What rings
in a tick is what is due then, in the order in which it was set.
-/

namespace LWebServer.Alarm

variable {α : Type}

/-- A clock is told to set an alarm some ticks ahead, or ticks. -/
inductive Command (α : Type) where
  | add (ticks : ℕ) (a : α)
  | tick

/-- A clock and the alarms that have not rung, each with its tick. -/
structure Clock (α : Type) where
  time : ℕ
  pending : List (ℕ × α)

/-- What is due at a tick. -/
def dueAt (t : ℕ) (alarms : List (ℕ × α)) : List α :=
  (alarms.filter fun alarm ↦ alarm.1 = t).map Prod.snd

/-- The ticks in a sequence of commands. -/
def tickCount : List (Command α) → ℕ
  | [] => 0
  | .add _ _ :: commands => tickCount commands
  | .tick :: commands => tickCount commands + 1

/-- The alarms that are set, with the ticks they are set ahead. -/
def adds : List (Command α) → List (ℕ × α)
  | [] => []
  | .add ticks a :: commands => (ticks, a) :: adds commands
  | .tick :: commands => adds commands

/-- The alarms that are set from a time on, with the ticks at which they are due. -/
def dues : ℕ → List (Command α) → List (ℕ × α)
  | _, [] => []
  | time, .add ticks a :: commands => (time + ticks, a) :: dues time commands
  | time, .tick :: commands => dues (time + 1) commands

namespace Clock

def add (ticks : ℕ) (a : α) (c : Clock α) : Clock α :=
  { c with pending := c.pending ++ [(c.time + ticks, a)] }

/-- What rings in the next tick. -/
def ringing (c : Clock α) : List α := dueAt (c.time + 1) c.pending

def tick (c : Clock α) : Clock α where
  time := c.time + 1
  pending := c.pending.filter fun alarm ↦ alarm.1 ≠ c.time + 1

/-- What rings in the ticks of a sequence of commands. -/
def rings : List (Command α) → Clock α → List (List α)
  | [], _ => []
  | .add ticks a :: commands, c => rings commands (c.add ticks a)
  | .tick :: commands, c => c.ringing :: rings commands c.tick

end Clock

theorem dueAt_append (t : ℕ) (alarms alarms' : List (ℕ × α)) :
    dueAt t (alarms ++ alarms') = dueAt t alarms ++ dueAt t alarms' := by
  simp [dueAt]

theorem dueAt_eq_nil {t : ℕ} {alarms : List (ℕ × α)} (hlate : ∀ alarm ∈ alarms, t < alarm.1) :
    dueAt t alarms = [] := by
  unfold dueAt
  rw [List.map_eq_nil_iff, List.filter_eq_nil_iff]
  intro alarm halarm
  have hlt := hlate alarm halarm
  simpa using hlt.ne'

/-- An alarm that has rung does not ring again. -/
theorem dueAt_filter {t t' : ℕ} (hne : t' ≠ t) (alarms : List (ℕ × α)) :
    dueAt t' (alarms.filter fun alarm ↦ alarm.1 ≠ t) = dueAt t' alarms := by
  unfold dueAt
  rw [List.filter_filter]
  congr 1
  apply List.filter_congr
  intro alarm _
  by_cases hdue : alarm.1 = t' <;> simp [hdue, hne]

theorem lt_of_mem_dues {commands : List (Command α)} {time : ℕ}
    (hahead : ∀ alarm ∈ adds commands, 0 < alarm.1) :
    ∀ alarm ∈ dues time commands, time < alarm.1 := by
  induction commands generalizing time with
  | nil => exact fun alarm halarm ↦ by cases halarm
  | cons command commands ih =>
    cases command with
    | add ticks a =>
      have hfirst := hahead (ticks, a) List.mem_cons_self
      intro alarm halarm
      rcases List.mem_cons.mp halarm with rfl | hlater
      · exact Nat.lt_add_of_pos_right hfirst
      · exact ih (fun alarm h ↦ hahead alarm (List.mem_cons_of_mem _ h)) alarm hlater
    | tick =>
      intro alarm halarm
      exact (Nat.lt_succ_self time).trans (ih hahead alarm halarm)

/-- In every tick of a run, exactly the alarms ring that are due then. -/
theorem rings_eq {commands : List (Command α)} {c : Clock α}
    (hpending : ∀ alarm ∈ c.pending, c.time < alarm.1)
    (hahead : ∀ alarm ∈ adds commands, 0 < alarm.1) :
    c.rings commands = (List.range' (c.time + 1) (tickCount commands)).map fun t ↦
      dueAt t (c.pending ++ dues c.time commands) := by
  induction commands generalizing c with
  | nil => rfl
  | cons command commands ih =>
    cases command with
    | add ticks a =>
      have hfirst : 0 < ticks := hahead (ticks, a) List.mem_cons_self
      have hpending' : ∀ alarm ∈ (c.add ticks a).pending, (c.add ticks a).time < alarm.1 := by
        refine List.forall_mem_append.mpr ⟨hpending, List.forall_mem_singleton.mpr ?_⟩
        exact Nat.lt_add_of_pos_right hfirst
      refine (ih hpending' fun alarm h ↦ hahead alarm (List.mem_cons_of_mem _ h)).trans ?_
      simp [Clock.add, tickCount, dues]
    | tick =>
      have hpending' : ∀ alarm ∈ c.tick.pending, c.tick.time < alarm.1 := by
        intro alarm halarm
        obtain ⟨hmem, hne⟩ := List.mem_filter.mp halarm
        have hlt := hpending alarm hmem
        have hne' : alarm.1 ≠ c.time + 1 := by simpa using hne
        exact lt_of_le_of_ne hlt hne'.symm
      have hlate : ∀ alarm ∈ dues (c.time + 1) commands, c.time + 1 < alarm.1 :=
        lt_of_mem_dues hahead
      simp only [Clock.rings, ih hpending' hahead, tickCount, dues, List.range'_succ, List.map_cons]
      congr 1
      · rw [dueAt_append, dueAt_eq_nil hlate, List.append_nil]
        rfl
      · apply List.map_congr_left
        intro t ht
        have hlt : c.time + 2 ≤ t := (List.mem_range'_1.mp ht).1
        rw [dueAt_append, dueAt_append]
        congr 1
        exact dueAt_filter (by omega) c.pending

end LWebServer.Alarm
