import Mathlib.Data.List.Basic

/-!
# Handing over through a line and a counter

Givers put items in a line and announce them on a counter; a taker collects what has been
announced and then takes one item for each unit it has collected. Line and counter change one
after the other, so an item may be in line before it is announced, or be announced before it is in
line.
-/

namespace LWebServer

variable {α : Type*}

/-- A line of items and the counter that goes with it. -/
structure Handover (α : Type*) where
  /-- The items in line. -/
  line : List α
  /-- The items that have been taken. -/
  taken : List α
  /-- Items that have been put in line and are not yet announced. -/
  owed : ℕ
  /-- Items that have been announced and are not yet in line. -/
  early : ℕ
  /-- The counter: units that have been announced and not collected. -/
  units : ℕ
  /-- Units that have been collected, for which no item has been taken yet. -/
  claims : ℕ

namespace Handover

def empty : Handover α := ⟨[], [], 0, 0, 0, 0⟩

/-- Everything that was ever put in line. -/
def items (h : Handover α) : List α := h.taken ++ h.line

/-- An item comes in line before it is announced. -/
def put (a : α) (h : Handover α) : Handover α :=
  { h with line := h.line ++ [a], owed := h.owed + 1 }

/-- An item in line is announced. -/
def announce (h : Handover α) : Handover α :=
  { h with owed := h.owed - 1, units := h.units + 1 }

/-- An item is announced before it comes in line. -/
def promise (h : Handover α) : Handover α :=
  { h with early := h.early + 1, units := h.units + 1 }

/-- An item that has been announced comes in line. -/
def keep (a : α) (h : Handover α) : Handover α :=
  { h with line := h.line ++ [a], early := h.early - 1 }

/-- The taker collects the counter, which starts again at zero. -/
def collect (h : Handover α) : Handover α :=
  { h with claims := h.claims + h.units, units := 0 }

/-- The taker takes the first item for one of its units. -/
def take (h : Handover α) : Handover α :=
  { h with line := h.line.tail, taken := h.taken ++ h.line.take 1, claims := h.claims - 1 }

/-- The line and the counter agree up to the givers between their two steps. -/
def Balanced (h : Handover α) : Prop :=
  h.line.length + h.early = h.units + h.claims + h.owed

variable {h : Handover α}

theorem balanced_empty : (empty : Handover α).Balanced := rfl

theorem Balanced.put (hbalanced : h.Balanced) (a : α) : (h.put a).Balanced := by
  unfold Balanced at hbalanced ⊢
  simp only [Handover.put, List.length_append, List.length_singleton]
  omega

theorem Balanced.announce (hbalanced : h.Balanced) (howed : 0 < h.owed) :
    h.announce.Balanced := by
  unfold Balanced at hbalanced ⊢
  simp only [Handover.announce]
  omega

theorem Balanced.promise (hbalanced : h.Balanced) : h.promise.Balanced := by
  unfold Balanced at hbalanced ⊢
  simp only [Handover.promise]
  omega

theorem Balanced.keep (hbalanced : h.Balanced) (a : α) (hearly : 0 < h.early) :
    (h.keep a).Balanced := by
  unfold Balanced at hbalanced ⊢
  simp only [Handover.keep, List.length_append, List.length_singleton]
  omega

theorem Balanced.collect (hbalanced : h.Balanced) : h.collect.Balanced := by
  unfold Balanced at hbalanced ⊢
  simp only [Handover.collect]
  omega

theorem Balanced.take (hbalanced : h.Balanced) (hclaims : 0 < h.claims) (hline : h.line ≠ []) :
    h.take.Balanced := by
  have hlength := List.length_pos_of_ne_nil hline
  unfold Balanced at hbalanced ⊢
  simp only [Handover.take, List.length_tail]
  omega

@[simp]
theorem items_put (a : α) (h : Handover α) : (h.put a).items = h.items ++ [a] :=
  (List.append_assoc h.taken h.line [a]).symm

@[simp]
theorem items_announce (h : Handover α) : h.announce.items = h.items := rfl

@[simp]
theorem items_promise (h : Handover α) : h.promise.items = h.items := rfl

@[simp]
theorem items_keep (a : α) (h : Handover α) : (h.keep a).items = h.items ++ [a] :=
  (List.append_assoc h.taken h.line [a]).symm

@[simp]
theorem items_collect (h : Handover α) : h.collect.items = h.items := rfl

@[simp]
theorem items_take (h : Handover α) : h.take.items = h.items := by
  simp only [items, take, List.append_assoc]
  rw [← List.drop_one, List.take_append_drop]

/-- The line is empty exactly if all that has been announced is still to come in line. -/
theorem Balanced.line_eq_nil_iff (hbalanced : h.Balanced) :
    h.line = [] ↔ h.units + h.claims + h.owed ≤ h.early := by
  unfold Balanced at hbalanced
  rw [← List.length_eq_zero_iff]
  omega

/-- The counter and the units of the taker cover all items in line but those not announced. -/
theorem Balanced.length_le (hbalanced : h.Balanced) :
    h.line.length ≤ h.units + h.claims + h.owed := by
  unfold Balanced at hbalanced
  omega

/-- If no item is announced early, the line holds an item for every unit of the taker. -/
theorem Balanced.claims_le (hbalanced : h.Balanced) (hearly : h.early ≤ h.units) :
    h.claims ≤ h.line.length := by
  unfold Balanced at hbalanced
  omega

theorem Balanced.line_ne_nil (hbalanced : h.Balanced) (hearly : h.early ≤ h.units)
    (hclaims : 0 < h.claims) : h.line ≠ [] :=
  List.ne_nil_of_length_pos (Nat.lt_of_lt_of_le hclaims (hbalanced.claims_le hearly))

end Handover

end LWebServer
