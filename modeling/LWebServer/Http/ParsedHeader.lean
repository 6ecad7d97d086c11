import LWebServer.Http.Status
import LWebServer.Library.Memory

/-!
# Views into the request buffer

A `ParsedHeader` is a pointer and a length; it owns no bytes. What it designates depends on the
memory it is read in. The two comparisons of the source are followed step by step and shown to be
equality of the designated bytes.
-/

namespace LWebServer

open Memory

/-- `ws::ParsedHeader`: a pointer into the `UserBuffer` array, as an offset, and a length. -/
structure ParsedHeader where
  header : Option ℕ
  length : ℕ
  deriving DecidableEq, Repr

namespace ParsedHeader

/-- The bytes that a view designates in a memory. -/
def bytes (mem : ℕ → Byte) (v : ParsedHeader) : List Byte :=
  match v.header with
  | some spot => load mem spot v.length
  | none => []

@[simp]
theorem bytes_some (mem : ℕ → Byte) (spot length : ℕ) :
    bytes mem ⟨some spot, length⟩ = load mem spot length := rfl

/-- `my_memcmp` on two blocks of `count` bytes, where `count` is the length of the first. -/
def myMemcmp : List Byte → List Byte → ℤ
  | [], _ => 0
  | a :: as, b :: bs =>
    if as ≠ [] ∧ a = b then myMemcmp as bs else (a.toNat : ℤ) - b.toNat
  | _ :: _, [] => 1

/-- `ParsedHeaderIsEqual` against a view or a string with the given bytes. -/
def parsedHeaderIsEqual (mem : ℕ → Byte) (v : ParsedHeader) (para : List Byte) : Bool :=
  v.length = para.length && myMemcmp (v.bytes mem) para = 0

/-- `strncmp(...) == 0` on two blocks of one length: a NUL in both ends the comparison. -/
def strncmpIsZero : List Byte → List Byte → Bool
  | [], _ => true
  | a :: as, b :: bs => a = b && (a = 0 || strncmpIsZero as bs)
  | _ :: _, [] => false

/-- `operator==`. -/
def equal (mem : ℕ → Byte) (v para : ParsedHeader) : Bool :=
  v.length = para.length && strncmpIsZero (v.bytes mem) (para.bytes mem)

theorem myMemcmp_eq_zero {xs ys : List Byte} (hlength : xs.length = ys.length) :
    myMemcmp xs ys = 0 ↔ xs = ys := by
  induction xs generalizing ys with
  | nil =>
    have hnil : ys = [] := List.length_eq_zero_iff.mp hlength.symm
    simp [myMemcmp, hnil]
  | cons a as ih =>
    obtain ⟨b, bs, rfl⟩ : ∃ b bs, ys = b :: bs := by
      cases ys with
      | nil => simp at hlength
      | cons b bs => exact ⟨b, bs, rfl⟩
    have htail : as.length = bs.length := by simpa using hlength
    have hbyte : (a.toNat : ℤ) - b.toNat = 0 ↔ a = b := by
      rw [← UInt8.toNat_inj]
      omega
    by_cases hcase : as ≠ [] ∧ a = b
    · rw [myMemcmp, if_pos hcase, ih htail, List.cons.injEq]
      simp [hcase.2]
    · rw [myMemcmp, if_neg hcase, hbyte, List.cons.injEq]
      constructor
      · intro hab
        have has : as = [] := by
          by_contra hne
          exact hcase ⟨hne, hab⟩
        subst has
        exact ⟨hab, (List.length_eq_zero_iff.mp htail.symm).symm⟩
      · exact fun h ↦ h.1

/-- The content comparison is equality of the designated bytes. -/
theorem parsedHeaderIsEqual_iff (mem : ℕ → Byte) {v : ParsedHeader} {para : List Byte}
    (hlength : (v.bytes mem).length = v.length) :
    v.parsedHeaderIsEqual mem para = true ↔ v.bytes mem = para := by
  unfold parsedHeaderIsEqual
  rw [Bool.and_eq_true, decide_eq_true_eq, decide_eq_true_eq]
  constructor
  · rintro ⟨hlen, hcmp⟩
    exact (myMemcmp_eq_zero (hlength.trans hlen)).mp hcmp
  · intro hbytes
    have hlen : v.length = para.length := by rw [← hlength, hbytes]
    exact ⟨hlen, (myMemcmp_eq_zero (hlength.trans hlen)).mpr hbytes⟩

/-- On blocks without a NUL, `strncmp` decides equality. -/
theorem strncmpIsZero_iff {xs ys : List Byte} (hlength : xs.length = ys.length)
    (hnul : ∀ c ∈ ys, c ≠ 0) : strncmpIsZero xs ys = true ↔ xs = ys := by
  induction xs generalizing ys with
  | nil =>
    have hnil : ys = [] := List.length_eq_zero_iff.mp hlength.symm
    simp [strncmpIsZero, hnil]
  | cons a as ih =>
    obtain ⟨b, bs, rfl⟩ : ∃ b bs, ys = b :: bs := by
      cases ys with
      | nil => simp at hlength
      | cons b bs => exact ⟨b, bs, rfl⟩
    have hrest : ∀ c ∈ bs, c ≠ 0 := fun c hc ↦ hnul c (List.mem_cons_of_mem b hc)
    have hb : b ≠ 0 := hnul b List.mem_cons_self
    have htail : as.length = bs.length := by simpa using hlength
    rw [strncmpIsZero, Bool.and_eq_true, decide_eq_true_eq, List.cons.injEq]
    apply and_congr_right
    rintro rfl
    simp [hb, ih htail hrest]

/-- Views of different length or content are never taken for one key. -/
theorem bytes_eq_of_equal {mem : ℕ → Byte} {v para : ParsedHeader}
    (hv : (v.bytes mem).length = v.length) (hpara : (para.bytes mem).length = para.length)
    (hnul : ∀ c ∈ para.bytes mem, c ≠ 0) (hequal : v.equal mem para = true) :
    v.bytes mem = para.bytes mem := by
  unfold equal at hequal
  rw [Bool.and_eq_true, decide_eq_true_eq] at hequal
  have hlen : (v.bytes mem).length = (para.bytes mem).length := by rw [hv, hpara, hequal.1]
  exact (strncmpIsZero_iff hlen hnul).mp hequal.2

/-! ## Designated texts -/

/-- The view designates a text that lies below `limit`. The empty text belongs to the view that
has not been set, a null pointer with length 1. -/
def Designates (mem : ℕ → Byte) (limit : ℕ) (v : ParsedHeader) (text : List Byte) : Prop :=
  match v.header with
  | none => text = [] ∧ v.length = 1
  | some spot => text ≠ [] ∧ spot + v.length ≤ limit ∧ load mem spot v.length = text

/-- The view reaches up to a position. -/
def EndsAt (v : ParsedHeader) (spot : ℕ) : Prop := ∃ start, v.header = some start ∧
  start + v.length = spot

theorem designates_none (mem : ℕ → Byte) (limit : ℕ) : Designates mem limit ⟨none, 1⟩ [] :=
  ⟨rfl, rfl⟩

theorem designates_first (mem : ℕ → Byte) (spot : ℕ) :
    Designates mem (spot + 1) ⟨some spot, 1⟩ [mem spot] :=
  ⟨List.cons_ne_nil _ _, le_rfl, by simp [load]⟩

namespace Designates

variable {mem : ℕ → Byte} {limit : ℕ} {v : ParsedHeader} {text : List Byte}

theorem bytes_eq (hview : Designates mem limit v text) : v.bytes mem = text := by
  obtain ⟨header, length⟩ := v
  cases header with
  | none => exact hview.1.symm
  | some spot => exact hview.2.2

theorem length_eq (hview : Designates mem limit v text) (htext : text ≠ []) :
    v.length = text.length := by
  obtain ⟨header, length⟩ := v
  cases header with
  | none => exact absurd hview.1 htext
  | some spot => rw [← hview.2.2, length_load]

theorem header_isSome (hview : Designates mem limit v text) (htext : text ≠ []) :
    ∃ spot, v.header = some spot ∧ spot + v.length ≤ limit := by
  obtain ⟨header, length⟩ := v
  cases header with
  | none => exact absurd hview.1 htext
  | some spot => exact ⟨spot, rfl, hview.2.1⟩

theorem eq_none (hview : Designates mem limit v []) : v = ⟨none, 1⟩ := by
  obtain ⟨header, length⟩ := v
  cases header with
  | none => rw [show length = 1 from hview.2]
  | some spot => exact absurd rfl hview.1

/-- A text stays in place while the memory below the limit does. -/
theorem mono {mem' : ℕ → Byte} {limit' : ℕ} (hview : Designates mem limit v text)
    (hagree : ∀ i, i < limit → mem i = mem' i) (hlimit : limit ≤ limit') :
    Designates mem' limit' v text := by
  obtain ⟨header, length⟩ := v
  cases header with
  | none => exact hview
  | some spot =>
    obtain ⟨htext, hbelow, hload⟩ := hview
    have hbelow' : spot + length ≤ limit := hbelow
    refine ⟨htext, hbelow'.trans hlimit, ?_⟩
    rw [← hload]
    exact load_congr fun i _ hi ↦ (hagree i (by omega)).symm

/-- The byte after a text that reaches up to the limit extends it. -/
theorem extend (hview : Designates mem limit v text) (hend : v.EndsAt limit) :
    Designates mem (limit + 1) ⟨v.header, v.length + 1⟩ (text ++ [mem limit]) := by
  obtain ⟨header, length⟩ := v
  obtain ⟨start, rfl, hstart⟩ := hend
  obtain ⟨-, -, hload⟩ := hview
  have hlimit : start + length = limit := hstart
  refine ⟨by simp, by simp only [← hlimit]; omega, ?_⟩
  rw [load_succ_last, hlimit, hload]

end Designates

theorem EndsAt.extend {v : ParsedHeader} {spot : ℕ} (hend : v.EndsAt spot) :
    EndsAt ⟨v.header, v.length + 1⟩ (spot + 1) := by
  obtain ⟨start, hheader, hstart⟩ := hend
  exact ⟨start, hheader, by rw [← hstart, Nat.add_assoc]⟩

end ParsedHeader

end LWebServer
