import Mathlib.Data.List.Basic

/-!
# Bounded queues

A queue with a capacity, as seen from what happens to it: items are put in at one end, taken out at
the other, and it can be emptied. What has been put in since it was last emptied is what has been
taken out since, followed by what it holds.
-/

namespace LWebServer.Queue

variable {α : Type*}

/-- What happens to a queue. -/
inductive Event (α : Type*) where
  | put (items : List α)
  | take (items : List α)
  | clear
  | idle

/-- One event, from the contents before it to those after it. -/
inductive Step (capacity : ℕ) : List α → Event α → List α → Prop
  | put {contents items : List α} (hroom : (contents ++ items).length ≤ capacity) :
      Step capacity contents (.put items) (contents ++ items)
  | take (items rest : List α) : Step capacity (items ++ rest) (.take items) rest
  | clear (contents : List α) : Step capacity contents .clear []
  | idle (contents : List α) : Step capacity contents .idle contents

/-- Events from the empty queue on, the newest one first. -/
inductive Runs (capacity : ℕ) : List (Event α) → List α → Prop
  | nil : Runs capacity [] []
  | step {events : List (Event α)} {event : Event α} {contents contents' : List α}
      (hruns : Runs capacity events contents) (hstep : Step capacity contents event contents') :
      Runs capacity (event :: events) contents'

/-- The items put in since the queue was last emptied. -/
def written : List (Event α) → List α
  | [] => []
  | .put items :: events => written events ++ items
  | .take _ :: events => written events
  | .clear :: _ => []
  | .idle :: events => written events

/-- The items taken out since the queue was last emptied. -/
def taken : List (Event α) → List α
  | [] => []
  | .put _ :: events => taken events
  | .take items :: events => taken events ++ items
  | .clear :: _ => []
  | .idle :: events => taken events

/-- Nothing is lost, and nothing changes its place. -/
theorem Runs.conservation {capacity : ℕ} {events : List (Event α)} {contents : List α}
    (hruns : Runs capacity events contents) : written events = taken events ++ contents := by
  induction hruns with
  | nil => rfl
  | step hruns hstep ih =>
    cases hstep with
    | put hroom => rw [written, taken, ih, List.append_assoc]
    | take items rest => rw [written, taken, ih, List.append_assoc]
    | clear contents => rfl
    | idle contents => exact ih

theorem Step.length_le {capacity : ℕ} {event : Event α} {contents contents' : List α}
    (hstep : Step capacity contents event contents') (hle : contents.length ≤ capacity) :
    contents'.length ≤ capacity := by
  cases hstep with
  | put hroom => exact hroom
  | take items rest =>
    rw [List.length_append] at hle
    exact Nat.le_trans (Nat.le_add_left _ _) hle
  | clear contents => exact Nat.zero_le _
  | idle contents => exact hle

theorem Runs.length_le {capacity : ℕ} {events : List (Event α)} {contents : List α}
    (hruns : Runs capacity events contents) : contents.length ≤ capacity := by
  induction hruns with
  | nil => exact Nat.zero_le _
  | step hruns hstep ih => exact hstep.length_le ih

end LWebServer.Queue
