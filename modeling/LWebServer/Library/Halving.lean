import Mathlib.Data.Nat.Notation
import Mathlib.Logic.Function.Basic
import Mathlib.Tactic.SplitIfs

/-!
# Counters that are halved together

A family of counters has one bound. When a summand does not fit into its counter, all counters are
halved first. A summand that is not above half of the bound then fits, and the order among the
other counters stays what it was, but for ties.
-/

namespace Halving

variable {ι : Type*} {bound summand : ℕ} {i j k : ι} {counters : ι → ℕ}

/-- The counters before the addition. -/
def scaled (bound summand : ℕ) (i : ι) (counters : ι → ℕ) : ι → ℕ :=
  if bound - summand < counters i then fun j ↦ counters j / 2 else counters

theorem scaled_le_scaled (hle : counters j ≤ counters k) :
    scaled bound summand i counters j ≤ scaled bound summand i counters k := by
  unfold scaled
  split_ifs
  · exact Nat.div_le_div_right hle
  · exact hle

theorem scaled_add_le (hcounter : counters i ≤ bound) (hsummand : summand ≤ (bound + 1) / 2) :
    scaled bound summand i counters i + summand ≤ bound := by
  unfold scaled
  split_ifs with hfull
  · calc counters i / 2 + summand
      _ ≤ bound / 2 + (bound + 1) / 2 :=
        Nat.add_le_add (Nat.div_le_div_right hcounter) hsummand
      _ = bound := by omega
  · omega

variable [DecidableEq ι]

/-- The counters after the addition. -/
def add (bound summand : ℕ) (i : ι) (counters : ι → ℕ) : ι → ℕ :=
  Function.update (scaled bound summand i counters) i (scaled bound summand i counters i + summand)

@[simp]
theorem add_self : add bound summand i counters i = scaled bound summand i counters i + summand :=
  Function.update_self ..

@[simp]
theorem add_of_ne (hne : j ≠ i) :
    add bound summand i counters j = scaled bound summand i counters j :=
  Function.update_of_ne hne ..

theorem add_le_add (hj : j ≠ i) (hk : k ≠ i) (hle : counters j ≤ counters k) :
    add bound summand i counters j ≤ add bound summand i counters k := by
  rw [add_of_ne hj, add_of_ne hk]
  exact scaled_le_scaled hle

end Halving
