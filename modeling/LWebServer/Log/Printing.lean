import LWebServer.Base.Bytes
import Mathlib.Data.Int.Notation

/-!
# Printed numbers

The text of a number as `%d` prints it, and what can be read back from it.
-/

namespace LWebServer

/-- The decimal digits of a number. -/
def decimals (n : ℕ) : List Byte := (Nat.toDigits 10 n).map ascii

/-- `%d` with a width; with the flag `0`, zeros behind the sign fill it up, else blanks before
it. -/
def printInt (zeros : Bool) (width : ℕ) (n : ℤ) : List Byte :=
  let sign := if n < 0 then [ascii '-'] else []
  let digits := decimals n.natAbs
  let fill := width - (sign.length + digits.length)
  if zeros then sign ++ List.replicate fill (ascii '0') ++ digits
  else List.replicate fill (ascii ' ') ++ sign ++ digits

/-- The number that a text of digits stands for. -/
def readDigits (bytes : List Byte) : ℕ :=
  Nat.ofDigitChars 10 (bytes.map fun b ↦ Char.ofNat b.toNat) 0

theorem ofNat_ascii {c : Char} (hc : c.isDigit = true) :
    Char.ofNat (ascii c).toNat = c := by
  simp only [Char.isDigit, Bool.and_eq_true, decide_eq_true_eq, UInt32.le_iff_toNat_le] at hc
  have hupper : c.toNat ≤ 57 := hc.2
  have hbyte : (ascii c).toNat = c.toNat := by
    simp only [ascii, UInt8.toNat_ofNat']
    omega
  rw [hbyte, Char.ofNat_toNat]

theorem map_ofNat_decimals (n : ℕ) :
    (decimals n).map (fun b ↦ Char.ofNat b.toNat) = Nat.toDigits 10 n := by
  rw [decimals, List.map_map]
  refine (List.map_congr_left fun c hmem ↦ ?_).trans (List.map_id _)
  exact ofNat_ascii (Nat.isDigit_of_mem_toDigits (by decide) (by decide) hmem)

theorem readDigits_decimals (n : ℕ) : readDigits (decimals n) = n := by
  rw [readDigits, map_ofNat_decimals]
  exact Nat.ofDigitChars_ten_toDigits

/-- Zeros before a number do not change it. -/
theorem readDigits_zeros (fill n : ℕ) :
    readDigits (List.replicate fill (ascii '0') ++ decimals n) = n := by
  have hzero : Char.ofNat (ascii '0').toNat = '0' := by decide
  rw [readDigits, List.map_append, List.map_replicate, hzero, map_ofNat_decimals,
    Nat.ofDigitChars_append, Nat.ofDigitChars_replicate_zero, Nat.mul_zero]
  exact Nat.ofDigitChars_ten_toDigits

theorem length_decimals_le_iff {n width : ℕ} (hwidth : 0 < width) :
    (decimals n).length ≤ width ↔ n < 10 ^ width := by
  rw [decimals, List.length_map]
  exact Nat.length_toDigits_le_iff (by decide) hwidth

theorem printInt_zeros {width : ℕ} {n : ℤ} (hn : 0 ≤ n) :
    printInt true width n =
      List.replicate (width - (decimals n.natAbs).length) (ascii '0') ++ decimals n.natAbs := by
  rw [printInt, if_pos rfl, if_neg (by omega), List.nil_append, List.length_nil, Nat.zero_add]

/-- A number that fits fills its width exactly. -/
theorem length_printInt_zeros {width : ℕ} {n : ℤ} (hn : 0 ≤ n) (hwidth : 0 < width)
    (hfits : n.natAbs < 10 ^ width) : (printInt true width n).length = width := by
  have hle := (length_decimals_le_iff hwidth).2 hfits
  rw [printInt_zeros hn, List.length_append, List.length_replicate]
  omega

theorem readDigits_printInt_zeros {width : ℕ} {n : ℤ} (hn : 0 ≤ n) :
    (readDigits (printInt true width n) : ℤ) = n := by
  rw [printInt_zeros hn, readDigits_zeros]
  omega

/-- Numbers of one width are told apart by their texts. -/
theorem printInt_zeros_inj {width : ℕ} {m n : ℤ} (hm : 0 ≤ m) (hn : 0 ≤ n)
    (heq : printInt true width m = printInt true width n) : m = n :=
  calc m = readDigits (printInt true width m) := (readDigits_printInt_zeros hm).symm
    _ = readDigits (printInt true width n) := by rw [heq]
    _ = n := readDigits_printInt_zeros hn

theorem isDigit_of_mem_decimals {n : ℕ} {b : Byte} (hmem : b ∈ decimals n) :
    (Char.ofNat b.toNat).isDigit = true := by
  obtain ⟨c, hc, rfl⟩ := List.mem_map.1 hmem
  have hdigit := Nat.isDigit_of_mem_toDigits (by decide) (by decide) hc
  rwa [ofNat_ascii hdigit]

theorem dash_notMem_decimals (n : ℕ) : ascii '-' ∉ decimals n :=
  fun hmem ↦ absurd (isDigit_of_mem_decimals hmem) (by decide)

/-- There is no NUL in a printed number. -/
theorem zero_notMem_printInt (zeros : Bool) (width : ℕ) (n : ℤ) : 0 ∉ printInt zeros width n := by
  have hdigits : 0 ∉ decimals n.natAbs :=
    fun hmem ↦ absurd (isDigit_of_mem_decimals hmem) (by decide)
  have hdash : 0 ≠ ascii '-' := by decide
  have hzero : 0 ≠ ascii '0' := by decide
  have hblank : 0 ≠ ascii ' ' := by decide
  unfold printInt
  split_ifs <;> simp [hdigits, hdash, hzero, hblank]

/-- A number with a sign has one place less. -/
theorem length_printInt_neg_iff {width : ℕ} {n : ℤ} (hn : n < 0) (hwidth : 0 < width) :
    (printInt true (width + 1) n).length = width + 1 ↔ n.natAbs < 10 ^ width := by
  rw [← length_decimals_le_iff hwidth, printInt, if_pos rfl, if_pos hn, List.length_append,
    List.length_append, List.length_replicate, List.length_singleton]
  omega

theorem decimals_inj {m n : ℕ} (heq : decimals m = decimals n) : m = n :=
  calc m = readDigits (decimals m) := (readDigits_decimals m).symm
    _ = readDigits (decimals n) := by rw [heq]
    _ = n := readDigits_decimals n

/-- `%d` without a width tells all numbers apart. -/
theorem printInt_plain_inj {m n : ℤ} (heq : printInt false 0 m = printInt false 0 n) : m = n := by
  have hplain (k : ℤ) :
      printInt false 0 k = (if k < 0 then [ascii '-'] else []) ++ decimals k.natAbs := by
    rw [printInt, if_neg Bool.false_ne_true, Nat.zero_sub]
    rfl
  rw [hplain, hplain] at heq
  by_cases hm : m < 0
  · by_cases hn : n < 0
    · rw [if_pos hm, if_pos hn] at heq
      have habs := decimals_inj (List.append_cancel_left heq)
      omega
    · rw [if_pos hm, if_neg hn] at heq
      have hdash : ascii '-' ∈ decimals n.natAbs := by
        rw [← List.nil_append (decimals n.natAbs), ← heq]
        exact List.mem_cons_self
      exact absurd hdash (dash_notMem_decimals _)
  · by_cases hn : n < 0
    · rw [if_neg hm, if_pos hn] at heq
      have hdash : ascii '-' ∈ decimals m.natAbs := by
        rw [← List.nil_append (decimals m.natAbs), heq]
        exact List.mem_cons_self
      exact absurd hdash (dash_notMem_decimals _)
    · rw [if_neg hm, if_neg hn] at heq
      have habs := decimals_inj heq
      omega

/-- A number of four digits needs no blanks. -/
theorem printInt_year {n : ℤ} (hlower : 1000 ≤ n) (hupper : n ≤ 9999) :
    printInt false 4 n = decimals n.natAbs ∧ (decimals n.natAbs).length = 4 := by
  have hle : (decimals n.natAbs).length ≤ 4 := (length_decimals_le_iff (by decide)).2 (by omega)
  have hgt : ¬ (decimals n.natAbs).length ≤ 3 := fun hshort ↦ by
    have hsmall := (length_decimals_le_iff (by decide)).1 hshort
    omega
  have hlength : (decimals n.natAbs).length = 4 := by omega
  refine ⟨?_, hlength⟩
  rw [printInt, if_neg (by decide), if_neg (by omega), hlength]
  rfl

end LWebServer
