import LWebServer.Library.Cells
import LWebServer.Library.Numeral
import LWebServer.Log.LogStream
import Mathlib.Tactic.IntervalCases

/-!
# Formatting numbers in the buffer of a log statement

A number is written straight into the buffer, its last digit first, and turned round there. Here the
buffer is the array itself, and a write behind its end is undefined.
-/

namespace LWebServer

/-! ## The functions -/

namespace LogStream

/-- `digitsHex[lsd]` -/
def digitsHex (lsd : ℤ) : Byte := (text "0123456789ABCDEF").getD lsd.toNat 0

/-- The `do` loop of `convert` and of `convertHex`: `*p++` becomes one digit after the other. The
divisions truncate; `turns` bounds the number of turns. -/
def digitLoop (digit : ℤ → Byte) (base : ℤ) :
    (turns : ℕ) → (i : ℤ) → (p : ℕ) → List Byte → Option (ℕ × List Byte)
  | 0, _, p, cells => some (p, cells)
  | turns + 1, i, p, cells =>
    (Cells.poke cells p (digit (i.tmod base))).bind fun cells ↦
      if i.tdiv base = 0 then some (p + 1, cells)
      else digitLoop digit base turns (i.tdiv base) (p + 1) cells

/-- `convert` from the cell `buf` on, with the number of characters before the NUL. -/
def convertAt (buf : ℕ) (value : ℤ) (cells : List Byte) : Option (ℕ × List Byte) := do
  let (p, cells) ← digitLoop zero 10 (value.natAbs + 1) value buf cells
  let (p, cells) ← if value < 0 then (Cells.poke cells p (ascii '-')).map (p + 1, ·)
    else some (p, cells)
  let cells ← Cells.poke cells p 0
  return (p - buf, Cells.reverse buf p cells)

/-- `convertHex` -/
def convertHex (buf : ℕ) (value : ℕ) (cells : List Byte) : Option (ℕ × List Byte) := do
  let (p, cells) ← digitLoop digitsHex 16 (value + 1) value buf cells
  let cells ← Cells.poke cells p 0
  return (p - buf, Cells.reverse buf p cells)

end LogStream

/-- `ws::detail::FixedBuffer` with its array. -/
structure CharBuffer (bufferSize : ℕ) where
  buffer : List Byte
  spot : ℕ

namespace CharBuffer

variable {bufferSize : ℕ}

/-- `avail`; the difference is unsigned. -/
def avail (b : CharBuffer bufferSize) : ℕ := (bufferSize + 2 ^ 32 - b.spot) % 2 ^ 32

/-- `add` -/
def add (len : ℕ) (b : CharBuffer bufferSize) : CharBuffer bufferSize :=
  { b with spot := (b.spot + len) % 2 ^ 32 }

/-- `toString` -/
def content (b : CharBuffer bufferSize) : List Byte := b.buffer.take b.spot

/-- `append` -/
def append (buf : List Byte) (b : CharBuffer bufferSize) : Option (CharBuffer bufferSize) :=
  if b.avail > buf.length then
    (Cells.copy b.buffer b.spot buf).map fun cells ↦ add buf.length { b with buffer := cells }
  else some b

/-- `kMaxNumericSize` -/
def kMaxNumericSize : ℕ := 32

/-- `logstream::formatInteger` -/
def formatInteger (v : ℤ) (b : CharBuffer bufferSize) : Option (CharBuffer bufferSize) :=
  if b.avail ≥ kMaxNumericSize then
    (LogStream.convertAt b.spot v b.buffer).map fun (len, cells) ↦
      add len { b with buffer := cells }
  else some b

/-- `operator<<` for a pointer. -/
def formatPointer (v : ℕ) (b : CharBuffer bufferSize) : Option (CharBuffer bufferSize) :=
  if b.avail ≥ kMaxNumericSize then do
    let buf := b.spot
    let cells ← Cells.poke b.buffer buf (ascii '0')
    let cells ← Cells.poke cells (buf + 1) (ascii 'x')
    let (len, cells) ← LogStream.convertHex (buf + 2) v cells
    return add (len + 2) { b with buffer := cells }
  else some b

end CharBuffer

/-- What is given to an `operator<<` of `logstream`. -/
inductive Insertion where
  | flag (flag : Bool)
  | integer (v : Integral)
  | pointer (p : UInt64)
  | character (v : Byte)
  /-- A `const char*`: null, or the characters with what follows the NUL. -/
  | cString (str : Option (List Byte))
  | string (v : List Byte)
  | buffer (v : CharBuffer smallBuffer)

namespace CharBuffer

/-- `operator<<` -/
def insert : Insertion → CharBuffer smallBuffer → Option (CharBuffer smallBuffer)
  | .flag flag, b => b.append (if flag then text "1" else text "0")
  | .integer v, b => b.formatInteger v.value
  | .pointer p, b => b.formatPointer p.toNat
  | .character v, b => b.append [v]
  | .cString (some str), b => b.append (str.takeWhile (· ≠ 0))
  | .cString none, b => b.append (text "(null)")
  | .string v, b => b.append v
  | .buffer v, b => b.append v.content

/-- One `operator<<` after the other. -/
def insertAll (insertions : List Insertion) (b : CharBuffer smallBuffer) :
    Option (CharBuffer smallBuffer) :=
  insertions.foldlM (fun b insertion ↦ insert insertion b) b

/-- The buffer of a new `logstream`. -/
def new : CharBuffer smallBuffer := ⟨List.replicate smallBuffer 0, 0⟩

/-- The array has its size and `Spot` is in it or at its end. -/
structure Sound {bufferSize : ℕ} (b : CharBuffer bufferSize) : Prop where
  size : b.buffer.length = bufferSize
  spot : b.spot ≤ bufferSize

end CharBuffer

/-! ## Numerals -/

/-- The digits up to `F`. -/
def upperDigit (d : ℕ) : Byte :=
  if d < 10 then ascii '0' + UInt8.ofNat d else ascii 'A' + UInt8.ofNat (d - 10)

/-- The text of a number in a base, without leading zeros. -/
def IsNumeral (base : ℕ) (bytes : List Byte) (n : ℕ) : Prop :=
  ∃ digits, Numeral.Canonical base digits n ∧ bytes = digits.map upperDigit

/-- The decimal text of an integer. -/
def IsDecimal (bytes : List Byte) (v : ℤ) : Prop :=
  ∃ digits, IsNumeral 10 digits v.natAbs ∧
    bytes = if v < 0 then ascii '-' :: digits else digits

namespace LogStream

theorem zero_of_abs_lt {lsd : ℤ} (hlower : -10 < lsd) (hupper : lsd < 10) :
    zero lsd = upperDigit lsd.natAbs := by
  interval_cases lsd <;> decide

theorem digitsHex_of_lt {lsd : ℤ} (hlower : 0 ≤ lsd) (hupper : lsd < 16) :
    digitsHex lsd = upperDigit lsd.natAbs := by
  interval_cases lsd <;> decide

/-- The digits of a number as the loop writes them. -/
def written (base turns n : ℕ) : List Byte := (Numeral.lastFirst base turns n).map upperDigit

theorem natAbs_tdiv_natCast (i : ℤ) (base : ℕ) : (i.tdiv base).natAbs = i.natAbs / base :=
  (Int.natAbs_tdiv i base).trans (by rw [Int.natAbs_natCast]; rfl)

/-- The loop writes the digits of the number without its sign. -/
theorem digitLoop_eq {digit : ℤ → Byte} {base : ℕ} {admitted : ℤ → Prop}
    (hdigit : ∀ i, admitted i → digit (i.tmod base) = upperDigit (i.natAbs % base))
    (hnext : ∀ i, admitted i → admitted (i.tdiv base)) (turns : ℕ) {i : ℤ} (hi : admitted i)
    (p : ℕ) (cells : List Byte) :
    digitLoop digit base turns i p cells =
      (Cells.copy cells p (written base turns i.natAbs)).map fun cells ↦
        (p + (written base turns i.natAbs).length, cells) := by
  induction turns generalizing i p cells with
  | zero => rfl
  | succ turns ih =>
    have hlast : i.tdiv base = 0 ↔ i.natAbs / base = 0 := by
      rw [← Int.natAbs_eq_zero, natAbs_tdiv_natCast]
    have hwritten : written base (turns + 1) i.natAbs = upperDigit (i.natAbs % base) ::
        if i.natAbs / base = 0 then [] else written base turns (i.natAbs / base) := by
      rw [written, Numeral.lastFirst, List.map_cons]
      split_ifs <;> rfl
    rw [digitLoop, hdigit i hi, hwritten, Cells.copy, Option.map_bind]
    congr 1
    funext cells
    by_cases hzero : i.natAbs / base = 0
    · rw [if_pos (hlast.2 hzero), if_pos hzero]
      rfl
    · rw [if_neg (hzero ∘ hlast.1), ih (hnext i hi), natAbs_tdiv_natCast]
      simp only [Function.comp_apply, if_neg hzero, List.length_cons]
      rw [Nat.add_assoc, Nat.add_comm 1]

theorem digitLoop_decimal (turns : ℕ) (i : ℤ) (p : ℕ) (cells : List Byte) :
    digitLoop zero 10 turns i p cells =
      (Cells.copy cells p (written 10 turns i.natAbs)).map fun cells ↦
        (p + (written 10 turns i.natAbs).length, cells) := by
  refine @digitLoop_eq zero 10 (fun _ ↦ True) ?_ (fun _ _ ↦ trivial) turns i trivial p cells
  intro i _
  have hlower : -10 < i.tmod (10 : ℕ) := Int.lt_tmod_of_pos i (by decide)
  have hupper : i.tmod (10 : ℕ) < 10 := Int.tmod_lt_of_pos i (by decide)
  rw [zero_of_abs_lt hlower hupper, Int.natAbs_tmod, Int.natAbs_natCast]

theorem digitLoop_hex (turns : ℕ) (n : ℕ) (p : ℕ) (cells : List Byte) :
    digitLoop digitsHex 16 turns n p cells =
      (Cells.copy cells p (written 16 turns n)).map fun cells ↦
        (p + (written 16 turns n).length, cells) := by
  refine @digitLoop_eq digitsHex 16 (fun i ↦ 0 ≤ i) ?_ ?_ turns n (Int.natCast_nonneg n) p cells
  · intro i hi
    have hlower : 0 ≤ i.tmod (16 : ℕ) := Int.tmod_nonneg _ hi
    have hupper : i.tmod (16 : ℕ) < 16 := Int.tmod_lt_of_pos i (by decide)
    rw [digitsHex_of_lt hlower hupper, Int.natAbs_tmod, Int.natAbs_natCast]
  · intro i hi
    exact Int.tdiv_nonneg hi (by decide)

theorem convertLoop_eq (turns : ℕ) (i : ℤ) : convertLoop turns i = written 10 turns i.natAbs := by
  induction turns generalizing i with
  | zero => rfl
  | succ turns ih =>
    have hlower : -10 < i.tmod (10 : ℕ) := Int.lt_tmod_of_pos i (by decide)
    have hupper : i.tmod (10 : ℕ) < 10 := Int.tmod_lt_of_pos i (by decide)
    have hrest : (i.tdiv 10).natAbs = i.natAbs / 10 := natAbs_tdiv_natCast i 10
    have hlast : i.tdiv 10 = 0 ↔ i.natAbs / 10 = 0 := by rw [← Int.natAbs_eq_zero, hrest]
    have hdigit : zero (i.tmod 10) = upperDigit (i.natAbs % 10) := by
      rw [← Int.natAbs_natCast 10, ← Int.natAbs_tmod]
      exact zero_of_abs_lt hlower hupper
    rw [convertLoop, written, Numeral.lastFirst, List.map_cons, hdigit]
    congr 1
    by_cases hzero : i.natAbs / 10 = 0
    · rw [if_pos (hlast.2 hzero), if_pos hzero, List.map_nil]
    · rw [if_neg (hzero ∘ hlast.1), if_neg hzero, ih, hrest]
      rfl

/-- What `convert` writes before it turns the characters round, with the NUL behind them. -/
theorem convertAt_eq (buf : ℕ) (value : ℤ) (cells : List Byte) :
    convertAt buf value cells =
      (Cells.copy cells buf ((convert value).reverse ++ [0])).map fun cells ↦
        ((convert value).length, Cells.reverse buf (buf + (convert value).length) cells) := by
  have hreverse : (convert value).reverse = written 10 (value.natAbs + 1) value.natAbs ++
      if value < 0 then [ascii '-'] else [] := by
    rw [convert, List.reverse_reverse, convertLoop_eq]
  have hlength := congrArg List.length hreverse
  rw [List.length_reverse] at hlength
  rw [convertAt, digitLoop_decimal, hreverse, hlength]
  generalize written 10 (value.natAbs + 1) value.natAbs = digits
  by_cases hneg : value < 0
  · simp only [if_pos hneg, Cells.copy_append, Cells.copy, Option.bind_eq_bind, Option.bind_map,
      Option.map_bind, Option.bind_assoc, Option.bind_some, Function.comp_def, List.length_append,
      List.length_singleton, Nat.add_assoc, Nat.add_sub_cancel_left]
    rfl
  · simp only [if_neg hneg, Cells.copy_append, Cells.copy, Option.bind_eq_bind, Option.bind_map,
      Option.map_bind, Option.bind_some, Function.comp_def, List.append_nil,
      Nat.add_sub_cancel_left]
    rfl

theorem convertHex_eq (buf value : ℕ) (cells : List Byte) :
    convertHex buf value cells =
      (Cells.copy cells buf (written 16 (value + 1) value ++ [0])).map fun cells ↦
        ((written 16 (value + 1) value).length,
          Cells.reverse buf (buf + (written 16 (value + 1) value).length) cells) := by
  rw [convertHex, digitLoop_hex]
  simp only [Cells.copy_append, Cells.copy, Option.bind_eq_bind, Option.bind_map, Option.map_bind,
    Function.comp_def, Nat.add_sub_cancel_left]
  rfl

/-- A text with room for the NUL is converted in place. -/
theorem convertAt_eq_some {buf : ℕ} {value : ℤ} {cells : List Byte}
    (hroom : buf + ((convert value).length + 1) ≤ cells.length) :
    convertAt buf value cells = some ((convert value).length,
      cells.take buf ++ convert value ++ 0 :: cells.drop (buf + ((convert value).length + 1))) := by
  have hcopy := @Cells.copy_reverse Byte cells buf _ 0 hroom
  obtain ⟨copied, hcopied, hreversed⟩ := Option.map_eq_some_iff.1 hcopy
  rw [convertAt_eq, hcopied, Option.map_some, hreversed]

/-- The hexadecimal digits of a pointer. -/
def hexOf (value : ℕ) : List Byte := (written 16 (value + 1) value).reverse

theorem convertHex_eq_some {buf value : ℕ} {cells : List Byte}
    (hroom : buf + ((hexOf value).length + 1) ≤ cells.length) :
    convertHex buf value cells = some ((hexOf value).length,
      cells.take buf ++ hexOf value ++ 0 :: cells.drop (buf + ((hexOf value).length + 1))) := by
  have hcopy := @Cells.copy_reverse Byte cells buf _ 0 hroom
  obtain ⟨copied, hcopied, hreversed⟩ := Option.map_eq_some_iff.1 hcopy
  have hlength : (written 16 (value + 1) value).length = (hexOf value).length :=
    List.length_reverse.symm
  have hwritten : written 16 (value + 1) value = (hexOf value).reverse := by
    rw [hexOf, List.reverse_reverse]
  rw [convertHex_eq, hlength, hwritten, hcopied, Option.map_some, hreversed]

/-! ## What is written -/

theorem isNumeral_written {base : ℕ} (hbase : 1 < base) (n : ℕ) :
    IsNumeral base (written base (n + 1) n).reverse n :=
  ⟨_, Numeral.canonical_lastFirst hbase (Nat.lt_succ_self n), List.map_reverse.symm⟩

theorem isDecimal_convert (value : ℤ) : IsDecimal (convert value) value := by
  refine ⟨_, isNumeral_written (by decide) value.natAbs, ?_⟩
  rw [convert, convertLoop_eq]
  split_ifs
  · rw [List.reverse_append]
    rfl
  · rw [List.append_nil]

theorem isNumeral_hexOf (value : ℕ) : IsNumeral 16 (hexOf value) value :=
  isNumeral_written (by decide) value

theorem length_hexOf_le {value : ℕ} (hvalue : value < 2 ^ 64) : (hexOf value).length ≤ 16 := by
  rw [hexOf, List.length_reverse, written, List.length_map]
  exact Numeral.length_lastFirst_le (lt_of_lt_of_eq hvalue (by norm_num)) _

end LogStream

/-! ## The buffer -/

namespace CharBuffer

variable {bufferSize : ℕ}

/-- A text is appended, and the array and `Spot` stay in order. -/
structure Appends (bytes : List Byte) (b b' : CharBuffer bufferSize) : Prop where
  sound : b'.Sound
  content : b'.content = b.content ++ bytes

/-- The terminating NUL lies behind the content and in the array. -/
def Terminated (b : CharBuffer bufferSize) : Prop :=
  b.spot < bufferSize ∧ b.buffer[b.spot]? = some 0

theorem avail_of_sound {b : CharBuffer bufferSize} (hsound : b.Sound)
    (hsize : bufferSize < 2 ^ 32) : b.avail = bufferSize - b.spot := by
  have hspot := hsound.spot
  unfold avail
  omega

/-- `Spot` moves behind what has been written at it. -/
theorem appends_add {b : CharBuffer bufferSize} (hsound : b.Sound) (hsize : bufferSize < 2 ^ 32)
    {bytes rest : List Byte} (hrest : b.spot + (bytes.length + rest.length) = bufferSize) :
    Appends bytes b
      (add bytes.length { b with buffer := b.buffer.take b.spot ++ bytes ++ rest }) := by
  have htake : (b.buffer.take b.spot).length = b.spot :=
    List.length_take_of_le (hsound.spot.trans_eq hsound.size.symm)
  have hfront : (b.buffer.take b.spot ++ bytes).length = b.spot + bytes.length := by
    rw [List.length_append, htake]
  have hspot : (b.spot + bytes.length) % 2 ^ 32 = b.spot + bytes.length :=
    Nat.mod_eq_of_lt (by omega)
  have hbehind : b.spot + bytes.length ≤ bufferSize := by omega
  constructor
  · constructor
    · change (b.buffer.take b.spot ++ bytes ++ rest).length = bufferSize
      rw [List.length_append, hfront, Nat.add_assoc, hrest]
    · exact hspot.trans_le hbehind
  · change (b.buffer.take b.spot ++ bytes ++ rest).take ((b.spot + bytes.length) % 2 ^ 32) =
      b.buffer.take b.spot ++ bytes
    rw [hspot, ← hfront, List.take_left]

/-- So it does with a NUL behind that. -/
theorem terminated_add {b : CharBuffer bufferSize} (hsound : b.Sound) (hsize : bufferSize < 2 ^ 32)
    {bytes rest : List Byte} (hrest : b.spot + (bytes.length + (rest.length + 1)) = bufferSize)
    {b' : CharBuffer bufferSize}
    (hb' : b' = add bytes.length
      { b with buffer := b.buffer.take b.spot ++ bytes ++ 0 :: rest }) :
    Appends bytes b b' ∧ b'.Terminated := by
  have htake : (b.buffer.take b.spot).length = b.spot :=
    List.length_take_of_le (hsound.spot.trans_eq hsound.size.symm)
  have hfront : (b.buffer.take b.spot ++ bytes).length = b.spot + bytes.length := by
    rw [List.length_append, htake]
  have hspot : (b.spot + bytes.length) % 2 ^ 32 = b.spot + bytes.length :=
    Nat.mod_eq_of_lt (by omega)
  subst hb'
  refine ⟨@appends_add bufferSize b hsound hsize bytes (0 :: rest) hrest, ?_⟩
  unfold Terminated add
  rw [hspot]
  constructor
  · change b.spot + bytes.length < bufferSize
    omega
  · change (b.buffer.take b.spot ++ bytes ++ 0 :: rest)[b.spot + bytes.length]? = some 0
    rw [← hfront, List.getElem?_append_right le_rfl, Nat.sub_self]
    rfl

/-- A number gets its canonical text, or nothing if there is not enough room. -/
theorem formatInteger_spec {b : CharBuffer bufferSize} (hsound : b.Sound)
    (hsize : bufferSize < 2 ^ 32) (v : Integral) :
    (b.avail < kMaxNumericSize ∧ b.formatInteger v.value = some b) ∨
    (kMaxNumericSize ≤ b.avail ∧ ∃ b', b.formatInteger v.value = some b' ∧
      Appends (LogStream.convert v.value) b b' ∧ b'.Terminated) := by
  rcases lt_or_ge b.avail kMaxNumericSize with hfull | hroom
  · exact .inl ⟨hfull, if_neg (not_le.2 hfull)⟩
  · have hshort := LogStream.length_convert_le v
    have havail := avail_of_sound hsound hsize
    have hbuffer := hsound.size
    have hwide : 32 ≤ b.avail := hroom
    have hfits : b.spot + ((LogStream.convert v.value).length + 1) ≤ b.buffer.length := by omega
    have hrest : b.spot + ((LogStream.convert v.value).length +
        ((b.buffer.drop (b.spot + ((LogStream.convert v.value).length + 1))).length + 1)) =
          bufferSize := by
      rw [List.length_drop]
      omega
    refine .inr ⟨hroom, _, ?_, terminated_add hsound hsize hrest rfl⟩
    rw [formatInteger, if_pos hroom, LogStream.convertAt_eq_some hfits, Option.map_some]

/-- The text for a pointer. -/
def pointerText (value : ℕ) : List Byte := text "0x" ++ LogStream.hexOf value

theorem formatPointer_of_room {b : CharBuffer bufferSize} (hroom : kMaxNumericSize ≤ b.avail)
    (value : ℕ) :
    b.formatPointer value = (Cells.copy b.buffer b.spot (text "0x")).bind fun cells ↦
      (LogStream.convertHex (b.spot + 2) value cells).map fun (len, cells) ↦
        add (len + 2) { b with buffer := cells } := by
  have hcopy : Cells.copy b.buffer b.spot (text "0x") =
      (Cells.poke b.buffer b.spot (ascii '0')).bind fun cells ↦
        (Cells.poke cells (b.spot + 1) (ascii 'x')).bind some := rfl
  rw [formatPointer, if_pos hroom, hcopy, Option.bind_assoc]
  simp only [Option.bind_assoc, Option.bind_some, Option.bind_eq_bind]
  congr 1
  funext cells
  congr 1
  funext cells
  rw [Option.map_eq_bind]
  rfl

/-- So does a pointer. -/
theorem formatPointer_spec {b : CharBuffer bufferSize} (hsound : b.Sound)
    (hsize : bufferSize < 2 ^ 32) {value : ℕ} (hvalue : value < 2 ^ 64) :
    (b.avail < kMaxNumericSize ∧ b.formatPointer value = some b) ∨
    (kMaxNumericSize ≤ b.avail ∧ ∃ b', b.formatPointer value = some b' ∧
      Appends (pointerText value) b b' ∧ b'.Terminated) := by
  rcases lt_or_ge b.avail kMaxNumericSize with hfull | hroom
  · exact .inl ⟨hfull, if_neg (not_le.2 hfull)⟩
  · have hshort := LogStream.length_hexOf_le hvalue
    have havail := avail_of_sound hsound hsize
    have hbuffer := hsound.size
    have hwide : 32 ≤ b.avail := hroom
    have htake : (b.buffer.take b.spot).length = b.spot := List.length_take_of_le (by omega)
    let marked := b.buffer.take b.spot ++ text "0x" ++ b.buffer.drop (b.spot + 2)
    have hmark : Cells.copy b.buffer b.spot (text "0x") = some marked :=
      Cells.copy_eq_some (show b.spot + 2 ≤ b.buffer.length by omega)
    have hfront : (b.buffer.take b.spot ++ text "0x").length = b.spot + 2 := by
      rw [List.length_append, htake]
      rfl
    have hlength : marked.length = bufferSize := by
      rw [List.length_append, hfront, List.length_drop]
      omega
    have hmarked : marked.take (b.spot + 2) = b.buffer.take b.spot ++ text "0x" := by
      rw [← hfront, List.take_left]
    have hfits : b.spot + 2 + ((LogStream.hexOf value).length + 1) ≤ marked.length := by omega
    have hhex := LogStream.convertHex_eq_some hfits
    have hpointer : (pointerText value).length = (LogStream.hexOf value).length + 2 := by
      rw [pointerText, List.length_append, Nat.add_comm]
      rfl
    rw [hmarked, List.append_assoc (b.buffer.take b.spot)] at hhex
    have hrest : b.spot + ((pointerText value).length + ((marked.drop
        (b.spot + 2 + ((LogStream.hexOf value).length + 1))).length + 1)) = bufferSize := by
      rw [hpointer, List.length_drop]
      omega
    refine .inr ⟨hroom, _, ?_, terminated_add hsound hsize hrest rfl⟩
    rw [formatPointer_of_room hroom, hmark, Option.bind_some, hhex, Option.map_some, hpointer]
    rfl

/-- Characters are appended if there is more room than they need. -/
theorem append_spec {b : CharBuffer bufferSize} (hsound : b.Sound) (hsize : bufferSize < 2 ^ 32)
    (buf : List Byte) :
    (b.avail < buf.length + 1 ∧ b.append buf = some b) ∨
    (buf.length + 1 ≤ b.avail ∧ ∃ b', b.append buf = some b' ∧ Appends buf b b') := by
  rcases lt_or_ge b.avail (buf.length + 1) with hfull | hroom
  · exact .inl ⟨hfull, if_neg (by omega)⟩
  · have havail := avail_of_sound hsound hsize
    have hbuffer := hsound.size
    have hfits : b.spot + buf.length ≤ b.buffer.length := by omega
    have hrest : b.spot + (buf.length + (b.buffer.drop (b.spot + buf.length)).length) =
        bufferSize := by
      rw [List.length_drop]
      omega
    refine .inr ⟨hroom, _, ?_, appends_add hsound hsize hrest⟩
    rw [append, if_pos (Nat.lt_of_succ_le hroom), Cells.copy_eq_some hfits, Option.map_some]

end CharBuffer

/-! ## Sequences of insertions -/

namespace Insertion

/-- The characters of an insertion. -/
def shown : Insertion → List Byte
  | .flag set => if set then text "1" else text "0"
  | .integer v => LogStream.convert v.value
  | .pointer p => CharBuffer.pointerText p.toNat
  | .character v => [v]
  | .cString (some str) => str.takeWhile (· ≠ 0)
  | .cString none => text "(null)"
  | .string v => v
  | .buffer v => v.content

/-- The room that it asks for. -/
def room : Insertion → ℕ
  | .integer _ => CharBuffer.kMaxNumericSize
  | .pointer _ => CharBuffer.kMaxNumericSize
  | insertion => insertion.shown.length + 1

/-- What the rest of the log sees in an insertion that is not a pointer. -/
def piece : Insertion → Option Streamed
  | .integer v => some (.integer v)
  | .pointer _ => none
  | insertion => some (.characters insertion.shown)

end Insertion

namespace CharBuffer

theorem smallBuffer_lt : smallBuffer < 2 ^ 32 := by decide

/-- An insertion is there as a whole, or there was not enough room and nothing happens. -/
theorem insert_spec {b : CharBuffer smallBuffer} (hsound : b.Sound) (insertion : Insertion) :
    (b.avail < insertion.room ∧ insert insertion b = some b) ∨
    (insertion.room ≤ b.avail ∧ ∃ b', insert insertion b = some b' ∧
      Appends insertion.shown b b') := by
  cases insertion with
  | flag flag => exact append_spec hsound smallBuffer_lt _
  | integer v =>
    apply (formatInteger_spec hsound smallBuffer_lt v).imp_right
    intro ⟨hroom, b', hinsert, happends, _⟩
    exact ⟨hroom, b', hinsert, happends⟩
  | pointer p =>
    apply (formatPointer_spec hsound smallBuffer_lt p.toNat_lt).imp_right
    intro ⟨hroom, b', hinsert, happends, _⟩
    exact ⟨hroom, b', hinsert, happends⟩
  | character v => exact append_spec hsound smallBuffer_lt _
  | cString str =>
    cases str with
    | none => exact append_spec hsound smallBuffer_lt _
    | some str => exact append_spec hsound smallBuffer_lt _
  | string v => exact append_spec hsound smallBuffer_lt _
  | buffer v => exact append_spec hsound smallBuffer_lt _

/-- After any insertions the buffer holds the characters of some of them. -/
theorem insertAll_spec {b : CharBuffer smallBuffer} (hsound : b.Sound)
    (insertions : List Insertion) :
    ∃ b', ∃ kept : List Insertion, insertAll insertions b = some b' ∧ b'.Sound ∧
      kept.Sublist insertions ∧ b'.content = b.content ++ kept.flatMap Insertion.shown := by
  induction insertions generalizing b with
  | nil => exact ⟨b, [], rfl, hsound, List.Sublist.slnil, (List.append_nil _).symm⟩
  | cons insertion insertions ih =>
    rcases insert_spec hsound insertion with ⟨-, hinsert⟩ | ⟨-, next, hinsert, happends⟩
    · obtain ⟨b', kept, hall, hsound', hkept, hcontent⟩ := ih hsound
      refine ⟨b', kept, ?_, hsound', hkept.cons insertion, hcontent⟩
      rw [insertAll, List.foldlM_cons, hinsert]
      exact hall
    · obtain ⟨b', kept, hall, hsound', hkept, hcontent⟩ := ih happends.sound
      refine ⟨b', insertion :: kept, ?_, hsound', hkept.cons_cons insertion, ?_⟩
      · rw [insertAll, List.foldlM_cons, hinsert]
        exact hall
      · rw [hcontent, happends.content, List.append_assoc, List.flatMap_cons]

theorem content_put_of_full {piece : Streamed} {stream : LogStream}
    (hfull : smallBuffer < stream.content.length + piece.room) :
    (LogStream.put piece stream).content = stream.content := by
  have havail : stream.avail < piece.room := by
    unfold FixedBuffer.avail
    have hle := stream.length_le
    omega
  cases piece with
  | characters bytes =>
    have hnone : ¬ bytes.length < stream.avail := not_lt.2 (Nat.le_of_lt_succ havail)
    exact congrArg FixedBuffer.content (dif_neg hnone)
  | integer v => exact congrArg FixedBuffer.content (dif_neg (not_le.2 havail))

/-- What the rest of the log sees of an insertion is what is in the array. -/
theorem content_put_piece {b : CharBuffer smallBuffer} (hsound : b.Sound) {insertion : Insertion}
    {piece : Streamed} (hpiece : insertion.piece = some piece) {stream : LogStream}
    (hstream : stream.content = b.content) :
    ∃ b', insert insertion b = some b' ∧ (LogStream.put piece stream).content = b'.content := by
  have hsame : piece.room = insertion.room ∧ piece.shown = insertion.shown := by
    cases insertion with
    | pointer p => cases hpiece
    | integer v => exact Option.some.inj hpiece ▸ ⟨rfl, rfl⟩
    | flag set => exact Option.some.inj hpiece ▸ ⟨rfl, rfl⟩
    | character v => exact Option.some.inj hpiece ▸ ⟨rfl, rfl⟩
    | cString str => exact Option.some.inj hpiece ▸ ⟨rfl, rfl⟩
    | string v => exact Option.some.inj hpiece ▸ ⟨rfl, rfl⟩
    | buffer v => exact Option.some.inj hpiece ▸ ⟨rfl, rfl⟩
  have havail := avail_of_sound hsound smallBuffer_lt
  have hspot := hsound.spot
  have hlength : stream.content.length = b.spot := by
    rw [hstream]
    exact List.length_take_of_le (hspot.trans_eq hsound.size.symm)
  rcases insert_spec hsound insertion with ⟨hfull, hinsert⟩ | ⟨hroom, b', hinsert, happends⟩
  · refine ⟨b, hinsert, (content_put_of_full ?_).trans hstream⟩
    rw [hlength, hsame.1]
    omega
  · refine ⟨b', hinsert, ?_⟩
    rw [LogStream.content_put (by rw [hlength, hsame.1]; omega), hstream, hsame.2,
      happends.content]

/-- In every state of the buffer, an integer appends nothing or its canonical decimal text, and a
pointer nothing or "0x" and its canonical hexadecimal text, with the NUL behind the text and in the
array, and any insertions leave the buffer with the characters of those that had room. -/
theorem insertions_canonical {b : CharBuffer smallBuffer} (hsound : b.Sound) :
    (∀ v : Integral,
      (b.avail < kMaxNumericSize ∧ b.formatInteger v.value = some b) ∨
      (kMaxNumericSize ≤ b.avail ∧ ∃ b', b.formatInteger v.value = some b' ∧
        IsDecimal (Insertion.integer v).shown v.value ∧
        Appends (Insertion.integer v).shown b b' ∧ b'.Terminated)) ∧
    (∀ p : UInt64,
      (b.avail < kMaxNumericSize ∧ b.formatPointer p.toNat = some b) ∨
      (kMaxNumericSize ≤ b.avail ∧ ∃ b', b.formatPointer p.toNat = some b' ∧
        (∃ digits, IsNumeral 16 digits p.toNat ∧
          (Insertion.pointer p).shown = text "0x" ++ digits) ∧
        Appends (Insertion.pointer p).shown b b' ∧ b'.Terminated)) ∧
    ∀ insertions, ∃ b', ∃ kept : List Insertion, insertAll insertions b = some b' ∧
      b'.spot ≤ smallBuffer ∧ kept.Sublist insertions ∧
      b'.content = b.content ++ kept.flatMap Insertion.shown := by
  refine ⟨?_, ?_, ?_⟩
  · intro v
    apply (formatInteger_spec hsound smallBuffer_lt v).imp_right
    intro ⟨hroom, b', hformat, happends, hterminated⟩
    exact ⟨hroom, b', hformat, LogStream.isDecimal_convert v.value, happends, hterminated⟩
  · intro p
    apply (formatPointer_spec hsound smallBuffer_lt p.toNat_lt).imp_right
    intro ⟨hroom, b', hformat, happends, hterminated⟩
    exact ⟨hroom, b', hformat, ⟨_, LogStream.isNumeral_hexOf p.toNat, rfl⟩, happends, hterminated⟩
  · intro insertions
    obtain ⟨b', kept, hall, hsound', hkept, hcontent⟩ := insertAll_spec hsound insertions
    exact ⟨b', kept, hall, hsound'.spot, hkept, hcontent⟩

theorem sound_new : new.Sound := ⟨List.length_replicate, Nat.zero_le _⟩

/-- A new buffer takes the smallest number. -/
theorem insertions_canonical_smallest :
    ∃ b', new.formatInteger (-9223372036854775808) = some b' ∧
      Appends (LogStream.convert (-9223372036854775808)) new b' ∧ b'.Terminated := by
  rcases (insertions_canonical sound_new).1 ⟨-9223372036854775808, by decide, by decide⟩ with
    ⟨hfull, -⟩ | ⟨-, b', hformat, -, happends, hterminated⟩
  · exact absurd hfull (by decide)
  · exact ⟨b', hformat, happends, hterminated⟩

end CharBuffer

end LWebServer
