import Mathlib.Algebra.BigOperators.Group.Finset.Piecewise
import Mathlib.Algebra.Order.BigOperators.Group.Finset
import Mathlib.Data.Fintype.BigOperators

/-!
# Tallies

Each of finitely many parties is in a state, and a state counts for so much. When one party goes on
to another state, the tally changes by what these two count for.
-/

namespace LWebServer

variable {ι σ : Type*} [Fintype ι] (weight : σ → ℕ) (parties : ι → σ)

def tally : ℕ := ∑ i, weight (parties i)

namespace Tally

theorem tally_eq_zero (hnone : ∀ i, weight (parties i) = 0) : tally weight parties = 0 :=
  Finset.sum_eq_zero fun i _ ↦ hnone i

/-- Where no other party counts for anything, the tally is that of one party. -/
theorem tally_eq_single {i : ι} (hothers : ∀ j, j ≠ i → weight (parties j) = 0) :
    tally weight parties = weight (parties i) :=
  Finset.sum_eq_single i (fun j _ hj ↦ hothers j hj) fun hi ↦ absurd (Finset.mem_univ i) hi

theorem tally_update [DecidableEq ι] (i : ι) (state : σ) :
    tally weight (Function.update parties i state) + weight (parties i) =
      tally weight parties + weight state := by
  have hweights : (fun j ↦ weight (Function.update parties i state j)) =
      Function.update (fun j ↦ weight (parties j)) i (weight state) := by
    funext j
    by_cases hj : j = i
    · rw [hj, Function.update_self, Function.update_self]
    · rw [Function.update_of_ne hj, Function.update_of_ne hj]
  have hothers := Finset.sum_update_of_mem (Finset.mem_univ i) (fun j ↦ weight (parties j))
    (weight state)
  have hall := Finset.sum_sdiff (f := fun j ↦ weight (parties j)) (Finset.subset_univ {i})
  rw [Finset.sum_singleton] at hall
  unfold tally
  rw [hweights, hothers, ← hall]
  omega

/-- A step after which a party counts for as much as before. -/
theorem tally_update_of_eq [DecidableEq ι] {i : ι} {state : σ}
    (hsame : weight state = weight (parties i)) :
    tally weight (Function.update parties i state) = tally weight parties := by
  have hupdate := tally_update weight parties i state
  rw [hsame] at hupdate
  exact Nat.add_right_cancel hupdate

end Tally

end LWebServer
