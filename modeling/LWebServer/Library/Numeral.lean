import Mathlib.Data.Nat.Digits.Lemmas

/-!
# Numerals

The numeral of a number in a base has no leading zeros. A loop that divides by the base as long as
something is left finds its digits, the last one first.
-/

namespace LWebServer.Numeral

/-- The digits that the loop finds. The second argument bounds the number of turns. -/
def lastFirst (base : ℕ) : ℕ → ℕ → List ℕ
  | 0, _ => []
  | turns + 1, n => n % base :: if n / base = 0 then [] else lastFirst base turns (n / base)

/-- The digits of a number, the first one first, without leading zeros. -/
structure Canonical (base : ℕ) (digits : List ℕ) (n : ℕ) : Prop where
  nonempty : digits ≠ []
  lt_base : ∀ d ∈ digits, d < base
  leading : digits.head? = some 0 → digits = [0]
  value : Nat.ofDigits base digits.reverse = n

variable {base n turns : ℕ}

theorem lastFirst_pos (hbase : 1 < base) (hpos : 0 < n) (hturns : n < turns) :
    lastFirst base turns n = Nat.digits base n := by
  induction turns generalizing n with
  | zero => exact absurd hturns (Nat.not_lt_zero n)
  | succ turns ih =>
    rw [lastFirst, Nat.digits_def' hbase hpos]
    split_ifs with hlast
    · rw [hlast, Nat.digits_zero]
    · have hless : n / base < n := Nat.div_lt_self hpos hbase
      rw [ih (Nat.pos_of_ne_zero hlast) (by omega)]

theorem lastFirst_zero (base : ℕ) (hturns : 0 < turns) : lastFirst base turns 0 = [0] := by
  cases turns with
  | zero => exact absurd hturns (lt_irrefl 0)
  | succ turns => rw [lastFirst, Nat.zero_div, Nat.zero_mod, if_pos rfl]

/-- With enough turns the loop finds the numeral. -/
theorem canonical_lastFirst (hbase : 1 < base) (hturns : n < turns) :
    Canonical base (lastFirst base turns n).reverse n := by
  rcases Nat.eq_zero_or_pos n with rfl | hpos
  · rw [lastFirst_zero base hturns]
    exact {
      nonempty := List.cons_ne_nil 0 []
      lt_base := by
        intro d hmem
        rw [List.mem_singleton.1 hmem]
        omega
      leading := fun _ ↦ rfl
      value := rfl }
  · have hne : Nat.digits base n ≠ [] := Nat.digits_ne_nil_iff_ne_zero.2 hpos.ne'
    rw [lastFirst_pos hbase hpos hturns]
    exact {
      nonempty := List.reverse_ne_nil_iff.2 hne
      lt_base := fun d hmem ↦ Nat.digits_lt_base hbase (List.mem_reverse.1 hmem)
      leading := by
        intro hzero
        rw [List.head?_reverse, List.getLast?_eq_some_getLast hne] at hzero
        exact absurd (Option.some.inj hzero) (Nat.getLast_digit_ne_zero base hpos.ne')
      value := by rw [List.reverse_reverse, Nat.ofDigits_digits] }

/-- A number below a power of the base has no more digits than the exponent. -/
theorem length_lastFirst_le {count : ℕ} (hsmall : n < base ^ (count + 1)) (turns : ℕ) :
    (lastFirst base turns n).length ≤ count + 1 := by
  induction turns generalizing n count with
  | zero => exact Nat.zero_le _
  | succ turns ih =>
    rw [lastFirst, List.length_cons]
    apply Nat.succ_le_succ
    split_ifs with hlast
    · exact Nat.zero_le _
    · cases count with
      | zero =>
        rw [zero_add, pow_one] at hsmall
        exact absurd (Nat.div_eq_of_lt hsmall) hlast
      | succ count =>
        apply ih
        exact Nat.div_lt_of_lt_mul (by rwa [pow_succ, mul_comm] at hsmall)

end LWebServer.Numeral
