import LWebServer.Log.FixedBuffer
import Mathlib.Tactic.NormNum

/-!
# Streaming into a buffer of the log

An `operator<<` appends its characters if there is more room than they need. A number asks for 32
free bytes, whatever it needs.
-/

namespace LWebServer

/-- `ws::detail::SmallBuffer` -/
def smallBuffer : ℕ := 4048

/-! ## Numbers -/

namespace LogStream

/-- `digits` -/
def digits : List Byte := text "9876543210123456789"

/-- `zero[lsd]`, where `zero` points to the middle of `digits`. -/
def zero (lsd : ℤ) : Byte := digits.getD (9 + lsd).toNat 0

/-- The `do` loop of `convert`: the digits of `i`, the last one first. The divisions truncate; the
first argument bounds the number of turns. -/
def convertLoop : ℕ → ℤ → List Byte
  | 0, _ => []
  | turns + 1, i =>
    zero (i.tmod 10) :: if i.tdiv 10 = 0 then [] else convertLoop turns (i.tdiv 10)

/-- `convert`: the characters before the NUL. -/
def convert (value : ℤ) : List Byte :=
  (convertLoop (value.natAbs + 1) value ++ if value < 0 then [ascii '-'] else []).reverse

theorem length_convertLoop_le {count : ℕ} {i : ℤ} (hsmall : i.natAbs < 10 ^ (count + 1))
    (turns : ℕ) : (convertLoop turns i).length ≤ count + 1 := by
  induction count generalizing turns i with
  | zero =>
    cases turns with
    | zero => exact Nat.zero_le _
    | succ turns =>
      have hlast : i.tdiv 10 = 0 := by
        rw [← Int.natAbs_eq_zero, Int.natAbs_tdiv]
        exact Nat.div_eq_of_lt hsmall
      rw [convertLoop, if_pos hlast]
      exact le_rfl
  | succ count ih =>
    cases turns with
    | zero => exact Nat.zero_le _
    | succ turns =>
      rw [convertLoop, List.length_cons]
      apply Nat.succ_le_succ
      split_ifs
      · exact Nat.zero_le _
      · apply ih
        rw [Int.natAbs_tdiv]
        exact Nat.div_lt_of_lt_mul (by rwa [pow_succ, mul_comm] at hsmall)

end LogStream

/-- A value of one of the types that numbers have: a signed or unsigned one of at most 64 bits. -/
structure Integral where
  value : ℤ
  lower : -2 ^ 63 ≤ value
  upper : value < 2 ^ 64

theorem LogStream.length_convert_le (v : Integral) : (convert v.value).length ≤ 20 := by
  have hlower := v.lower
  have hupper := v.upper
  rw [convert, List.length_reverse, List.length_append]
  by_cases hneg : v.value < 0
  · have hdigits := @length_convertLoop_le 18 v.value (by norm_num; omega) (v.value.natAbs + 1)
    rw [if_pos hneg, List.length_singleton]
    omega
  · have hdigits := @length_convertLoop_le 19 v.value (by norm_num; omega) (v.value.natAbs + 1)
    rw [if_neg hneg, List.length_nil]
    omega

/-! ## The stream -/

namespace FixedBuffer

variable {bufferSize : ℕ}

def reset (_ : FixedBuffer bufferSize) : FixedBuffer bufferSize := new

/-- `formatInteger` -/
def formatInteger (v : Integral) (b : FixedBuffer bufferSize) : FixedBuffer bufferSize :=
  if hroom : 32 ≤ b.avail then
    ⟨b.content ++ LogStream.convert v.value, by
      have hshort := LogStream.length_convert_le v
      unfold avail at hroom
      rw [List.length_append]
      omega⟩
  else b

end FixedBuffer

/-- The buffer of a `logstream`. -/
abbrev LogStream := FixedBuffer smallBuffer

/-- What is given to an `operator<<`. -/
inductive Streamed where
  /-- A string, a file name, a character or a flag. -/
  | characters (bytes : List Byte)
  /-- A number. -/
  | integer (v : Integral)

namespace Streamed

/-- The characters that belong into the log. -/
def shown : Streamed → List Byte
  | .characters bytes => bytes
  | .integer v => LogStream.convert v.value

/-- The room that `operator<<` asks for. -/
def room : Streamed → ℕ
  | .characters bytes => bytes.length + 1
  | .integer _ => 32

end Streamed

namespace LogStream

/-- `operator<<` -/
def put : Streamed → LogStream → LogStream
  | .characters bytes, b => b.append bytes
  | .integer v, b => b.formatInteger v

/-- One `operator<<` after the other. -/
def putAll (pieces : List Streamed) (b : LogStream) : LogStream :=
  pieces.foldl (fun b piece ↦ put piece b) b

/-- The characters of several pieces. -/
def shownAll (pieces : List Streamed) : List Byte := pieces.flatMap Streamed.shown

/-- The pieces fit into a buffer that holds so many bytes already. -/
def Fits : ℕ → List Streamed → Prop
  | _, [] => True
  | used, piece :: pieces =>
    used + piece.room ≤ smallBuffer ∧ Fits (used + piece.shown.length) pieces

instance decidableFits : (used : ℕ) → (pieces : List Streamed) → Decidable (Fits used pieces)
  | _, [] => .isTrue trivial
  | used, piece :: pieces =>
    @instDecidableAnd _ _ inferInstance (decidableFits (used + piece.shown.length) pieces)

theorem content_put {piece : Streamed} {b : LogStream}
    (hroom : b.content.length + piece.room ≤ smallBuffer) :
    (put piece b).content = b.content ++ piece.shown := by
  cases piece with
  | characters bytes =>
    apply FixedBuffer.content_append
    have hroom' : b.content.length + (bytes.length + 1) ≤ smallBuffer := hroom
    unfold FixedBuffer.avail
    omega
  | integer v =>
    have hroom' : b.content.length + 32 ≤ smallBuffer := hroom
    have havail : 32 ≤ b.avail := by
      unfold FixedBuffer.avail
      omega
    change (b.formatInteger v).content = b.content ++ convert v.value
    rw [FixedBuffer.formatInteger, dif_pos havail]

/-- Pieces that fit are all there. -/
theorem content_putAll {pieces : List Streamed} {b : LogStream}
    (hfits : Fits b.content.length pieces) :
    (putAll pieces b).content = b.content ++ shownAll pieces := by
  induction pieces generalizing b with
  | nil => simp [putAll, shownAll]
  | cons piece pieces ih =>
    obtain ⟨hroom, hrest⟩ := hfits
    have hput := content_put hroom
    have hnext : (putAll pieces (put piece b)).content =
        (put piece b).content ++ shownAll pieces := by
      apply ih
      rw [hput, List.length_append]
      exact hrest
    rw [hput, List.append_assoc] at hnext
    exact hnext

end LogStream

end LWebServer
