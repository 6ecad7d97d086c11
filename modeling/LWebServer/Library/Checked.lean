import Mathlib.Tactic.NormNum

/-!
# Checked arithmetic

An expression over signed integers of a fixed width, together with whether every operation in it has
stayed within their range. As long as it has, the value is that of the same expression over `ℤ`.
-/

namespace LWebServer

/-- The signed integers of `width` bits. -/
def InRange (width : ℕ) (x : ℤ) : Prop := -2 ^ (width - 1) ≤ x ∧ x < 2 ^ (width - 1)

instance (width : ℕ) (x : ℤ) : Decidable (InRange width x) :=
  inferInstanceAs (Decidable (_ ∧ _))

theorem inRange_32 (x : ℤ) : InRange 32 x ↔ -2147483648 ≤ x ∧ x ≤ 2147483647 := by
  unfold InRange
  norm_num
  omega

/-- The value of an expression over integers of `width` bits. It means nothing unless `defined`. -/
structure Checked (width : ℕ) where
  value : ℤ
  defined : Bool
  deriving DecidableEq, Repr

namespace Checked

variable {width : ℕ}

/-- A value that is the result of an operation. -/
def of (x : ℤ) : Checked width := ⟨x, InRange width x⟩

/-- An operation on two values. -/
def lift (f : ℤ → ℤ → ℤ) (a b : Checked width) : Checked width :=
  ⟨f a.value b.value, a.defined && b.defined && decide (InRange width (f a.value b.value))⟩

instance (n : ℕ) : OfNat (Checked width) n := ⟨of n⟩

instance : Add (Checked width) := ⟨lift (· + ·)⟩

instance : Sub (Checked width) := ⟨lift (· - ·)⟩

instance : Mul (Checked width) := ⟨lift (· * ·)⟩

/-- Division truncates; there is none by zero. -/
instance : Div (Checked width) where
  div a b := ⟨a.value.tdiv b.value, (lift Int.tdiv a b).defined && decide (b.value ≠ 0)⟩

instance : Mod (Checked width) where
  mod a b := ⟨a.value.tmod b.value, (a / b).defined⟩

/-- The conversion to another width, for values that it represents. -/
def cast (other : ℕ) (a : Checked width) : Checked other :=
  ⟨a.value, a.defined && decide (InRange other a.value)⟩

/-- The value if there has been no overflow. -/
def result (a : Checked width) : Option ℤ := if a.defined then some a.value else none

@[simp]
theorem value_of (x : ℤ) : (of x : Checked width).value = x := rfl

@[simp]
theorem value_ofNat (n : ℕ) : (ofNat(n) : Checked width).value = ofNat(n) := rfl

@[simp]
theorem value_add (a b : Checked width) : (a + b).value = a.value + b.value := rfl

@[simp]
theorem value_sub (a b : Checked width) : (a - b).value = a.value - b.value := rfl

@[simp]
theorem value_mul (a b : Checked width) : (a * b).value = a.value * b.value := rfl

@[simp]
theorem value_div (a b : Checked width) : (a / b).value = a.value.tdiv b.value := rfl

@[simp]
theorem value_mod (a b : Checked width) : (a % b).value = a.value.tmod b.value := rfl

@[simp]
theorem value_cast (other : ℕ) (a : Checked width) : (a.cast other).value = a.value := rfl

@[simp]
theorem defined_of (x : ℤ) : (of x : Checked width).defined ↔ InRange width x :=
  decide_eq_true_iff

@[simp]
theorem defined_ofNat (n : ℕ) :
    (ofNat(n) : Checked width).defined ↔ InRange width ofNat(n) :=
  decide_eq_true_iff

theorem defined_lift (f : ℤ → ℤ → ℤ) (a b : Checked width) :
    (lift f a b).defined ↔
      a.defined ∧ b.defined ∧ InRange width (f a.value b.value) := by
  simp [lift, and_assoc]

@[simp]
theorem defined_add (a b : Checked width) :
    (a + b).defined ↔ a.defined ∧ b.defined ∧ InRange width (a.value + b.value) :=
  defined_lift _ a b

@[simp]
theorem defined_sub (a b : Checked width) :
    (a - b).defined ↔ a.defined ∧ b.defined ∧ InRange width (a.value - b.value) :=
  defined_lift _ a b

@[simp]
theorem defined_mul (a b : Checked width) :
    (a * b).defined ↔ a.defined ∧ b.defined ∧ InRange width (a.value * b.value) :=
  defined_lift _ a b

@[simp]
theorem defined_div (a b : Checked width) :
    (a / b).defined ↔ a.defined ∧ b.defined ∧ InRange width (a.value.tdiv b.value) ∧
      b.value ≠ 0 := by
  change ((lift Int.tdiv a b).defined && decide (b.value ≠ 0)) = true ↔ _
  rw [Bool.and_eq_true, defined_lift, decide_eq_true_iff]
  simp only [and_assoc]

@[simp]
theorem defined_mod (a b : Checked width) :
    (a % b).defined ↔ a.defined ∧ b.defined ∧ InRange width (a.value.tdiv b.value) ∧
      b.value ≠ 0 :=
  defined_div a b

@[simp]
theorem defined_cast (other : ℕ) (a : Checked width) :
    (a.cast other).defined ↔ a.defined ∧ InRange other a.value := by
  simp [cast]

theorem result_eq_some {a : Checked width} {x : ℤ} :
    a.result = some x ↔ a.defined ∧ a.value = x := by
  unfold result
  split_ifs with hdefined
  · simp [hdefined]
  · simp [hdefined]

end Checked

end LWebServer
