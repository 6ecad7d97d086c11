import Mathlib.Data.Nat.Notation
import Mathlib.Order.Lattice
import Mathlib.Tactic.SplitIfs

/-!
# Bisection

A search for the first position that is not below a value. It halves the positions that are left,
and where it ends, the position before is below the value and the position itself is not. This holds
in any order of the positions; if those below come first, it determines the place.
-/

namespace LWebServer

/-- The steps of the search among `len` positions from `first` on. The first argument bounds their
number. -/
def lowerBoundFrom (less : ℕ → Bool) : ℕ → ℕ → ℕ → ℕ
  | 0, first, _ => first
  | steps + 1, first, len =>
    if len = 0 then first
    else if less (first + len / 2) then
      lowerBoundFrom less steps (first + len / 2 + 1) (len - len / 2 - 1)
    else lowerBoundFrom less steps first (len / 2)

/-- `std::lower_bound` among `size` positions. -/
def lowerBound (less : ℕ → Bool) (size : ℕ) : ℕ := lowerBoundFrom less size 0 size

/-- The search stays in its range, and it has compared the position where it ends and the one
before. -/
theorem lowerBoundFrom_spec (less : ℕ → Bool) {steps len : ℕ} (hsteps : len ≤ steps) (first : ℕ) :
    first ≤ lowerBoundFrom less steps first len ∧
    lowerBoundFrom less steps first len ≤ first + len ∧
    (lowerBoundFrom less steps first len < first + len →
      less (lowerBoundFrom less steps first len) = false) ∧
    (first < lowerBoundFrom less steps first len →
      less (lowerBoundFrom less steps first len - 1) = true) := by
  induction steps generalizing first len with
  | zero =>
    rw [lowerBoundFrom]
    exact ⟨by omega, by omega, fun _ ↦ by omega, fun _ ↦ by omega⟩
  | succ steps ih =>
    rw [lowerBoundFrom]
    by_cases hempty : len = 0
    · rw [if_pos hempty]
      exact ⟨by omega, by omega, fun _ ↦ by omega, fun _ ↦ by omega⟩
    rw [if_neg hempty]
    by_cases hless : less (first + len / 2) = true
    · rw [if_pos hless]
      obtain ⟨hlower, hupper, hend, hbefore⟩ :=
        @ih (len - len / 2 - 1) (by omega) (first + len / 2 + 1)
      generalize lowerBoundFrom less steps (first + len / 2 + 1) (len - len / 2 - 1) = place at *
      refine ⟨by omega, by omega, fun _ ↦ hend (by omega), fun _ ↦ ?_⟩
      by_cases hplace : place = first + len / 2 + 1
      · rwa [hplace, Nat.add_sub_cancel]
      · exact hbefore (by omega)
    · rw [if_neg hless]
      obtain ⟨hlower, hupper, hend, hbefore⟩ := @ih (len / 2) (by omega) first
      generalize lowerBoundFrom less steps first (len / 2) = place at *
      refine ⟨hlower, by omega, fun _ ↦ ?_, hbefore⟩
      by_cases hplace : place = first + len / 2
      · rw [hplace]
        exact Bool.eq_false_iff.2 hless
      · exact hend (by omega)

/-! ## Searching a list -/

variable {α : Type*}

/-- `std::lower_bound` of a list: a place, behind the last element if all are below. -/
def lowerBoundOf (below : α → Bool) (l : List α) : ℕ :=
  lowerBound (fun i ↦ l[i]?.any below) l.length

theorem lowerBoundOf_le (below : α → Bool) (l : List α) : lowerBoundOf below l ≤ l.length := by
  have hupper := (lowerBoundFrom_spec (fun i ↦ l[i]?.any below) (Nat.le_refl l.length) 0).2.1
  rwa [Nat.zero_add] at hupper

/-- The element where the search ends is not below. -/
theorem not_below_of_lowerBoundOf {below : α → Bool} {l : List α} {x : α}
    (hx : l[lowerBoundOf below l]? = some x) : below x = false := by
  obtain ⟨hin, -⟩ := List.getElem?_eq_some_iff.1 hx
  have hend := (lowerBoundFrom_spec (fun i ↦ l[i]?.any below) (Nat.le_refl l.length) 0).2.2.1
    (by rwa [Nat.zero_add])
  change l[lowerBoundOf below l]?.any below = false at hend
  rwa [hx, Option.any_some] at hend

/-- The element before is. -/
theorem exists_below_of_lowerBoundOf {below : α → Bool} {l : List α}
    (hpos : 0 < lowerBoundOf below l) :
    ∃ x, l[lowerBoundOf below l - 1]? = some x ∧ below x = true := by
  have hstart := (lowerBoundFrom_spec (fun i ↦ l[i]?.any below) (Nat.le_refl l.length) 0).2.2.2 hpos
  exact (Option.any_eq_true _ _).1 hstart

/-! ## Sorted lists -/

variable {β : Type*} [LinearOrder β] {key : α → β} {l : List α} {bound : β}

theorem filter_eq_nil_of_head (hsorted : l.Pairwise fun x y ↦ key x < key y)
    (hhead : ∀ x, l.head? = some x → bound < key x) :
    l.filter (fun x ↦ key x ≤ bound) = [] := by
  cases l with
  | nil => rfl
  | cons x l =>
    obtain ⟨hlarger, -⟩ := List.pairwise_cons.1 hsorted
    have hx := hhead x rfl
    rw [List.filter_eq_nil_iff]
    intro y hy
    rcases List.mem_cons.1 hy with rfl | hmem
    · simpa using hx
    · simpa using hx.trans (hlarger y hmem)

/-- An element up to the bound with a larger one behind it is the last one up to the bound. -/
theorem getLast?_filter_of_next (hsorted : l.Pairwise fun x y ↦ key x < key y) {i : ℕ} {x : α}
    (hx : l[i]? = some x) (hle : key x ≤ bound) (hnext : ∀ y, l[i + 1]? = some y → bound < key y) :
    (l.filter fun x ↦ key x ≤ bound).getLast? = some x := by
  induction l generalizing i with
  | nil => cases hx
  | cons y l ih =>
    obtain ⟨hlarger, hrest⟩ := List.pairwise_cons.1 hsorted
    cases i with
    | zero =>
      obtain rfl := Option.some.inj hx
      have hnone := filter_eq_nil_of_head hrest fun z hz ↦
        hnext z (by rwa [List.head?_eq_getElem?] at hz)
      rw [List.filter_cons_of_pos (by simpa using hle), hnone]
      rfl
    | succ i =>
      have hlast := ih hrest hx hnext
      have hy : key y ≤ bound := (hlarger x (List.mem_of_getElem? hx)).le.trans hle
      rw [List.filter_cons_of_pos (by simpa using hy), List.getLast?_cons, hlast]
      rfl

end LWebServer
