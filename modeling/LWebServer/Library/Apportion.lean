import Mathlib.Algebra.BigOperators.Group.Finset.Piecewise
import Mathlib.Algebra.BigOperators.Ring.Finset
import Mathlib.Algebra.Order.BigOperators.Group.Finset
import Mathlib.Data.Fintype.BigOperators
import Mathlib.Tactic.Linarith
import Mathlib.Tactic.Ring

/-!
# Apportioning turns by weights

Each turn credits everyone with a weight, and one whose balance is then greatest is served and pays
the total of the weights. The balances always add up to zero and stay above minus the total, which
fixes how often each has been served once there were as many turns as the total.
-/

namespace LWebServer.Apportion

variable {ι : Type*} [Fintype ι] [DecidableEq ι]

/-- The balances after a turn in which one is served. -/
def serve (w : ι → ℤ) (total : ℤ) (served : ι) (balance : ι → ℤ) : ι → ℤ :=
  fun i ↦ balance i + w i - if i = served then total else 0

/-- The balances after some turns. -/
def serveAll (w : ι → ℤ) (total : ℤ) (served : List ι) (balance : ι → ℤ) : ι → ℤ :=
  served.foldl (fun balance i ↦ serve w total i balance) balance

/-- Nobody is behind by as much as the total. -/
structure Level (total : ℤ) (balance : ι → ℤ) : Prop where
  sum : ∑ i, balance i = 0
  above : ∀ i, -total < balance i

variable {w balance : ι → ℤ} {total : ℤ}

omit [DecidableEq ι] in
theorem level_zero (hpos : 0 < total) : Level total (0 : ι → ℤ) where
  sum := Finset.sum_const_zero
  above := fun _ ↦ neg_neg_of_pos hpos

omit [DecidableEq ι] in
/-- The greatest credited balance is positive. -/
theorem pos_of_greatest {served : ι} (htotal : ∑ i, w i = total) (hpos : 0 < total)
    (hsum : ∑ i, balance i = 0) (hgreatest : ∀ i, balance i + w i ≤ balance served + w served) :
    0 < balance served + w served := by
  have hcredited : ∑ i, (balance i + w i) = total := by
    rw [Finset.sum_add_distrib, hsum, htotal, zero_add]
  have hless : ∑ _i : ι, (0 : ℤ) < ∑ i, (balance i + w i) := by
    rw [hcredited, Finset.sum_const_zero]
    exact hpos
  obtain ⟨i, -, hi⟩ := Finset.exists_lt_of_sum_lt hless
  exact hi.trans_le (hgreatest i)

omit [DecidableEq ι] in
theorem Level.le (hlevel : Level total balance) (i : ι) :
    balance i + total ≤ Fintype.card ι * total := by
  have hnonneg (j : ι) (_ : j ∈ Finset.univ) : 0 ≤ balance j + total := by
    linarith [hlevel.above j]
  calc balance i + total
      ≤ ∑ j, (balance j + total) := Finset.single_le_sum hnonneg (Finset.mem_univ i)
    _ = Fintype.card ι * total := by
      rw [Finset.sum_add_distrib, hlevel.sum, zero_add, Finset.sum_const, Finset.card_univ,
        nsmul_eq_mul]

theorem sum_serve (w : ι → ℤ) (total : ℤ) (served : ι) (balance : ι → ℤ) :
    ∑ i, serve w total served balance i = ∑ i, balance i + ∑ i, w i - total := by
  simp [serve, Finset.sum_sub_distrib, Finset.sum_add_distrib]

/-- Serving one who has the greatest balance keeps the balances level. -/
theorem Level.serve {served : ι} (hlevel : Level total balance) (hw : ∀ i, 0 ≤ w i)
    (htotal : ∑ i, w i = total) (hpos : 0 < total)
    (hgreatest : ∀ i, balance i + w i ≤ balance served + w served) :
    Level total (serve w total served balance) where
  sum := by
    rw [sum_serve, hlevel.sum, htotal]
    ring
  above := by
    intro i
    unfold Apportion.serve
    by_cases hi : i = served
    · have hserved := pos_of_greatest htotal hpos hlevel.sum hgreatest
      rw [if_pos hi, hi]
      linarith
    · have habove := hlevel.above i
      have hcredit := hw i
      rw [if_neg hi]
      linarith

omit [Fintype ι] in
/-- What the turns so far have credited and taken. -/
theorem serveAll_apply (served : List ι) (balance : ι → ℤ) (i : ι) :
    serveAll w total served balance i =
      balance i + served.length * w i - served.count i * total := by
  induction served generalizing balance with
  | nil => simp [serveAll]
  | cons j served ih =>
    rw [serveAll, List.foldl_cons, ← serveAll, ih, serve, List.length_cons, List.count_cons]
    by_cases hi : j = i
    · rw [if_pos hi.symm, if_pos (beq_iff_eq.mpr hi)]
      push_cast
      ring
    · rw [if_neg (Ne.symm hi), if_neg (by simpa using hi)]
      push_cast
      ring

theorem sum_count (served : List ι) : ∑ i, (served.count i : ℤ) = served.length := by
  have hcount : ∑ i, (served : Multiset ι).count i = Multiset.card (served : Multiset ι) :=
    Multiset.sum_count_eq_card fun i _ ↦ Finset.mem_univ i
  simp only [Multiset.coe_count, Multiset.coe_card] at hcount
  exact_mod_cast hcount

/-- After as many turns as the total, from balances of zero, everyone has been served as often as
their weight says. -/
theorem count_eq {served : List ι} (hlength : (served.length : ℤ) = total)
    (htotal : ∑ i, w i = total) (hpos : 0 < total)
    (hlevel : Level total (serveAll w total served (0 : ι → ℤ))) (i : ι) :
    (served.count i : ℤ) = w i := by
  have hle (i : ι) : (served.count i : ℤ) ≤ w i := by
    have habove := hlevel.above i
    rw [serveAll_apply, hlength, Pi.zero_apply, zero_add] at habove
    have hfactor : 0 < total * (w i + 1 - served.count i) := by
      calc 0 < total * w i - served.count i * total + total := by linarith
        _ = total * (w i + 1 - served.count i) := by ring
    have hrest := (mul_pos_iff_of_pos_left hpos).mp hfactor
    linarith
  have hsum : ∑ i, (served.count i : ℤ) = ∑ i, w i := by
    rw [sum_count, hlength, htotal]
  exact (Finset.sum_eq_sum_iff_of_le fun i _ ↦ hle i).mp hsum i (Finset.mem_univ i)

/-- And the balances are back at zero. -/
theorem serveAll_eq_zero {served : List ι} (hlength : (served.length : ℤ) = total)
    (htotal : ∑ i, w i = total) (hpos : 0 < total)
    (hlevel : Level total (serveAll w total served (0 : ι → ℤ))) :
    serveAll w total served (0 : ι → ℤ) = 0 := by
  funext i
  rw [serveAll_apply, count_eq hlength htotal hpos hlevel, hlength, Pi.zero_apply, zero_add,
    mul_comm, sub_self]

/-- Nobody is ahead of what they have been credited by a turn. -/
theorem Level.count_lt {served : List ι} (hlevel : Level total (serveAll w total served balance))
    (i : ι) : served.count i * total < balance i + served.length * w i + total := by
  have habove := hlevel.above i
  rw [serveAll_apply] at habove
  linarith

/-- Nobody is behind by as many turns as there are others. -/
theorem Level.le_count {served : List ι} (hlevel : Level total (serveAll w total served balance))
    (i : ι) : balance i + served.length * w i + total ≤
      served.count i * total + Fintype.card ι * total := by
  have hle := hlevel.le i
  rw [serveAll_apply] at hle
  linarith

omit [Fintype ι] in
theorem serveAll_append (first second : List ι) (balance : ι → ℤ) :
    serveAll w total (first ++ second) balance =
      serveAll w total second (serveAll w total first balance) :=
  List.foldl_append

end LWebServer.Apportion
