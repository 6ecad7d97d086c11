import Mathlib.Algebra.Group.Nat.Defs
import Mathlib.Data.List.TakeWhile
import Mathlib.Data.Nat.Notation
import Mathlib.Tactic.SplitIfs

/-!
# Bytes and failures

The server works on `char` arrays. A `Byte` is one `char`; where the source tests `c >= 0`, the
byte is below 128. A call can end by one of the standard exceptions the source throws, or by
behaviour the C++ standard leaves undefined.
-/

namespace LWebServer

/-- One `char` of the source. -/
abbrev Byte := UInt8

/-- A character constant of the source. -/
def ascii (c : Char) : Byte := UInt8.ofNat c.toNat

/-- The characters of a string literal of the source, without the terminating NUL. -/
def text (s : String) : List Byte := s.toList.map ascii

/-- A property of the characters of a literal, tested one by one. -/
theorem forall_mem_of_all {p : Byte → Prop} [DecidablePred p] {bytes : List Byte}
    (hall : (bytes.all fun ch ↦ decide (p ch)) = true) : ∀ ch ∈ bytes, p ch := by
  simpa using hall

/-! ## C strings -/

/-- The bytes before the first NUL. -/
def cString (s : List Byte) : List Byte := s.takeWhile (· ≠ 0)

theorem length_cString_le (s : List Byte) : (cString s).length ≤ s.length :=
  (List.takeWhile_prefix _).length_le

theorem cString_eq_self {s : List Byte} (hs : 0 ∉ s) : cString s = s := by
  refine List.takeWhile_eq_self_iff.mpr fun ch hch ↦ ?_
  have hne : ch ≠ 0 := fun hzero ↦ hs (hzero ▸ hch)
  exact decide_eq_true hne

theorem zero_notMem_cString (s : List Byte) : 0 ∉ cString s := by
  intro hzero
  simpa using List.mem_takeWhile_imp hzero

theorem cString_append {first : List Byte} (hfirst : 0 ∉ first) (second : List Byte) :
    cString (first ++ second) = first ++ cString second := by
  refine List.takeWhile_append_of_pos fun ch hch ↦ ?_
  have hne : ch ≠ 0 := fun hzero ↦ hfirst (hzero ▸ hch)
  exact decide_eq_true hne

theorem cString_append_zero (s rest : List Byte) : cString (s ++ 0 :: rest) = cString s := by
  induction s with
  | nil => rfl
  | cons ch s ih =>
    unfold cString at ih ⊢
    rw [List.cons_append, List.takeWhile_cons, List.takeWhile_cons, ih]

/-! ## Literals as they are encoded -/

/-- The bytes of the UTF-8 encoding of a literal. -/
def encoded (s : String) : List Byte := s.toByteArray.data.toList

theorem encoded_eq (s : String) : encoded s = s.toList.flatMap String.utf8EncodeChar := by
  rw [encoded, ← String.utf8Encode_toList, List.utf8Encode, List.toList_data_toByteArray]

/-- A character is encoded by itself if its encoding begins with a byte below 128. -/
theorem utf8EncodeChar_of_lt {c : Char} {b : Byte} {rest : List Byte}
    (hencode : String.utf8EncodeChar c = b :: rest) (hsmall : b < 128) :
    b = ascii c ∧ rest = [] := by
  have hbyte : b.toNat < 128 := hsmall
  unfold String.utf8EncodeChar at hencode
  dsimp only at hencode
  split_ifs at hencode with hone htwo hthree
  · obtain ⟨rfl, rfl⟩ := List.cons.inj hencode
    exact ⟨rfl, rfl⟩
  all_goals
    obtain ⟨rfl, -⟩ := List.cons.inj hencode
    rw [UInt8.toNat_ofNat'] at hbyte
    omega

/-- Where the first bytes of the encoding are below 128, they are the first characters. -/
theorem take_text_of_lt {s : String} {count : ℕ}
    (hsmall : ∀ b ∈ (encoded s).take count, b < 128) :
    (text s).take count = (encoded s).take count := by
  rw [encoded_eq] at hsmall ⊢
  unfold text
  generalize s.toList = chars at hsmall ⊢
  induction chars generalizing count with
  | nil => rfl
  | cons c chars ih =>
    cases count with
    | zero => rfl
    | succ count =>
      rw [List.flatMap_cons] at hsmall ⊢
      obtain ⟨b, rest, hencode⟩ := List.exists_cons_of_ne_nil (@String.utf8EncodeChar_ne_nil c)
      rw [hencode] at hsmall ⊢
      have hfirst : b < 128 := hsmall b List.mem_cons_self
      obtain ⟨rfl, rfl⟩ := utf8EncodeChar_of_lt hencode hfirst
      have hothers := ih fun b hb ↦ hsmall b (List.mem_cons_of_mem _ hb)
      rw [List.map_cons, List.singleton_append, List.take_succ_cons, List.take_succ_cons, hothers]

theorem text_of_lt {s : String} (hsmall : ∀ b ∈ encoded s, b < 128) : text s = encoded s := by
  have htake := @take_text_of_lt s (max (text s).length (encoded s).length)
    fun b hb ↦ hsmall b (List.mem_of_mem_take hb)
  rwa [List.take_of_length_le (Nat.le_max_left _ _),
    List.take_of_length_le (Nat.le_max_right _ _)] at htake

/-! ## Failures -/

/-- How a call leaves without returning. -/
inductive Fail where
  /-- `std::out_of_range` -/
  | outOfRange
  /-- `std::invalid_argument` -/
  | invalidArgument
  /-- `std::logic_error`, thrown by a `std::string` built from a null pointer -/
  | logicError
  /-- A null dereference or a copy outside its object. -/
  | undefinedBehaviour
  deriving DecidableEq, Repr

/-- Subtraction on `size_t`, which wraps below zero. -/
def sizeSub (a b : ℕ) : ℕ := if b ≤ a then a - b else 2 ^ 64 - (b - a)

@[simp]
theorem sizeSub_of_le {a b : ℕ} (hle : b ≤ a) : sizeSub a b = a - b := if_pos hle

end LWebServer
