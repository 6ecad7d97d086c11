import Mathlib.Data.Int.DivMod
import Mathlib.Tactic.Ring

/-!
# Decimal accumulation on a fixed width

Reading a digit string by `x = x * 10 + digit` on signed integers of a fixed width gives the
exact value of the string reduced to that width.
-/

namespace LWebServer.Decimal

/-- The exact value of a string of decimal digits, given by their numeric values. -/
def value (digits : List ℕ) : ℕ := digits.foldl (fun x d ↦ x * 10 + d) 0

/-- Signed wrap-around to `width` bits. -/
def wrap (width : ℕ) (x : ℤ) : ℤ := Int.bmod x (2 ^ width)

/-- One step of the accumulation, with the two assignments wrapping separately. -/
def push (width : ℕ) (x : ℤ) (digit : ℕ) : ℤ := wrap width (wrap width (x * 10) + digit)

@[simp]
theorem value_nil : value [] = 0 := rfl

theorem foldl_push_eq (width : ℕ) (digits : List ℕ) (x : ℕ) :
    digits.foldl (push width) (wrap width x) =
      wrap width (digits.foldl (fun x d ↦ x * 10 + d) x : ℕ) := by
  induction digits generalizing x with
  | nil => rfl
  | cons d digits ih =>
    have hstep : push width (wrap width x) d = wrap width ((x * 10 + d : ℕ) : ℤ) := by
      simp only [push, wrap, Int.bmod_add_bmod]
      push_cast
      rw [← Int.bmod_add_bmod, Int.bmod_mul_bmod, Int.bmod_add_bmod]
    rw [List.foldl_cons, List.foldl_cons, hstep, ih]

/-- The accumulator holds the value of the digits read, reduced to the width. -/
theorem foldl_push (width : ℕ) (digits : List ℕ) :
    digits.foldl (push width) 0 = wrap width (value digits) := by
  have h := foldl_push_eq width digits 0
  simpa [wrap, value] using h

/-- Below half the range nothing is lost. -/
theorem wrap_of_lt {width : ℕ} (hwidth : 0 < width) {x : ℕ} (hx : x < 2 ^ (width - 1)) :
    wrap width x = x := by
  have hpow : 2 ^ width = 2 * 2 ^ (width - 1) := by
    rw [← Nat.pow_succ']
    congr 1
    omega
  unfold wrap
  apply Int.bmod_eq_of_le
  · omega
  · rw [hpow]
    omega

/-- Numbers that fit into the width without a sign are told apart. -/
theorem wrap_inj {width x y : ℕ} (hx : x < 2 ^ width) (hy : y < 2 ^ width)
    (heq : wrap width x = wrap width y) : x = y := by
  have hmod : ((x : ℤ) % (2 ^ width : ℕ)) = (y : ℤ) % (2 ^ width : ℕ) := by
    rw [← Int.bmod_emod, ← @Int.bmod_emod y]
    exact congrArg (· % ((2 ^ width : ℕ) : ℤ)) heq
  rw [← Int.natCast_mod, ← Int.natCast_mod, Nat.mod_eq_of_lt hx, Nat.mod_eq_of_lt hy] at hmod
  exact Int.ofNat_inj.mp hmod

end LWebServer.Decimal
