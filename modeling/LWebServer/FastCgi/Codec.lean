import LWebServer.FastCgi.FastCgi
import LWebServer.FastCgi.Format
import Mathlib.Data.List.Forall2

/-!
# The codec of the pairs

`CreateContentValue` writes a name and a value to a buffer that its caller chooses, and counts what
it has written in an `int`. A receiver reads the pair and nothing else, and a sequence of pairs in
one way only.
-/

namespace LWebServer.FastCgi

open Frames

/-- `*ContentBuffPtr++ = ch`, where `buffer` is what lies before `ContentBuffPtr` in a buffer with
room for `room` bytes. -/
def putInto (room : ℕ) (buffer : List Byte) (ch : Byte) : Except Fault (List Byte) :=
  if buffer.length < room then .ok (buffer ++ [ch]) else .error .undefinedBehaviour

def putLengthInto (room : ℕ) (buffer : List Byte) (len : ℤ) : Except Fault (List Byte) :=
  if len < 128 then putInto room buffer (uchar len)
  else do
    let buffer ← putInto room buffer (uchar (len.shiftRight 24) ||| 0x80)
    let buffer ← putInto room buffer (uchar (len.shiftRight 16))
    let buffer ← putInto room buffer (uchar (len.shiftRight 8))
    putInto room buffer (uchar len)

/-- `CreateContentValue` on a buffer with room for `room` bytes: what it writes there, and
`*ContentLen`. -/
def createContentValueInto (room : ℕ) (name : List Byte) (nameLen : ℤ) (value : List Byte)
    (valueLen : ℤ) : Except Fault (List Byte × ℤ) := do
  let buffer ← putLengthInto room [] nameLen
  let buffer ← putLengthInto room buffer valueLen
  let buffer ← name.foldlM (putInto room) buffer
  let buffer ← value.foldlM (putInto room) buffer
  return (buffer, toInt buffer.length)

/-- `SendContent` calls it with `bodyBuffer`. -/
theorem createContentValueInto_contentBufferLen (name : List Byte) (nameLen : ℤ)
    (value : List Byte) (valueLen : ℤ) :
    createContentValueInto contentBufferLen name nameLen value valueLen =
      (createContentValue name nameLen value valueLen).map fun buffer ↦
        (buffer, toInt buffer.length) := by
  have hbind {α : Type} (x : Except Fault α) (g : α → Except Fault (List Byte)) :
      (x >>= g).map (fun buffer ↦ (buffer, toInt buffer.length)) =
        x >>= fun a ↦ (g a).map fun buffer ↦ (buffer, toInt buffer.length) := by
    cases x <;> rfl
  unfold createContentValue
  simp only [hbind]
  rfl

/-! ## What is written -/

theorem uchar_natCast (n : ℕ) : uchar n = UInt8.ofNat n := by
  have hcast : ((n : ℤ) % 256).toNat = n % 256 := by omega
  rw [uchar, hcast]
  exact UInt8.ofNat_mod_size

theorem uchar_shiftRight (n shift : ℕ) :
    uchar ((n : ℤ).shiftRight shift) = UInt8.ofNat (n / 2 ^ shift) := by
  rw [← uchar_natCast, ← Int.shiftRight_eq, Int.shiftRight_eq_div_pow]
  norm_cast

theorem toInt_of_lt {n : ℕ} (hn : n < 2 ^ 31) : toInt n = n :=
  Decimal.wrap_of_lt (by decide) hn

/-- Bytes are written to a buffer if there is room for all of them. -/
theorem foldlM_putInto {room : ℕ} (chars : List Byte) {buffer : List Byte}
    (hbuffer : buffer.length ≤ room) :
    chars.foldlM (putInto room) buffer =
      if buffer.length + chars.length ≤ room then .ok (buffer ++ chars)
      else .error .undefinedBehaviour := by
  induction chars generalizing buffer with
  | nil =>
    rw [List.length_nil, Nat.add_zero, if_pos hbuffer, List.append_nil]
    rfl
  | cons ch chars ih =>
    rw [List.foldlM_cons, putInto]
    split
    next hroom =>
      have hlength : (buffer ++ [ch]).length = buffer.length + 1 := List.length_append
      change chars.foldlM (putInto room) (buffer ++ [ch]) = _
      rw [ih (by omega), hlength, List.length_cons, List.append_assoc, List.singleton_append,
        Nat.add_assoc, Nat.add_comm 1]
    next hfull =>
      rw [if_neg (by rw [List.length_cons]; omega)]
      rfl

theorem uchar_flag {n : ℕ} (hn : n < 2 ^ 31) :
    uchar ((n : ℤ).shiftRight 24) ||| 0x80 = UInt8.ofNat (n / 2 ^ 24 + 128) := by
  have hsmall : n / 2 ^ 24 < 2 ^ 7 := by omega
  rw [uchar_shiftRight]
  apply UInt8.toNat_inj.mp
  calc (UInt8.ofNat (n / 2 ^ 24) ||| 0x80).toNat = n / 2 ^ 24 ||| 2 ^ 7 * 1 := by
        rw [UInt8.toNat_or, UInt8.toNat_ofNat', Nat.mod_eq_of_lt (by omega)]
        rfl
    _ = n / 2 ^ 24 + 128 := by
        rw [Nat.or_comm, ← Nat.two_pow_add_eq_or_of_lt hsmall, Nat.add_comm]
    _ = (UInt8.ofNat (n / 2 ^ 24 + 128)).toNat := by
        rw [UInt8.toNat_ofNat', Nat.mod_eq_of_lt (by omega)]

theorem putLengthInto_eq (room : ℕ) {n : ℕ} (hn : n < 2 ^ 31) (buffer : List Byte) :
    putLengthInto room buffer n = (lengthBytes n).foldlM (putInto room) buffer := by
  unfold putLengthInto lengthBytes
  by_cases hsmall : n < 128
  · rw [if_pos (by omega), if_pos hsmall, uchar_natCast]
    simp
  · rw [if_neg (by omega), if_neg hsmall, uchar_flag hn, uchar_shiftRight, uchar_shiftRight,
      uchar_natCast]
    simp

/-- A pair is put together if it fits in the buffer. -/
theorem createContentValueInto_eq (room : ℕ) {name value : List Byte}
    (hname : name.length < 2 ^ 31) (hvalue : value.length < 2 ^ 31) :
    createContentValueInto room name name.length value value.length =
      if (pairBytes name value).length ≤ room then
        .ok (pairBytes name value, toInt (pairBytes name value).length)
      else .error .undefinedBehaviour := by
  have hfold : createContentValueInto room name name.length value value.length =
      (pairBytes name value).foldlM (putInto room) [] >>= fun buffer ↦
        pure (buffer, toInt buffer.length) := by
    unfold createContentValueInto pairBytes
    rw [putLengthInto_eq room hname]
    simp only [List.foldlM_append, putLengthInto_eq room hvalue, bind_assoc]
  rw [hfold, foldlM_putInto _ (Nat.zero_le _), List.length_nil, Nat.zero_add, List.nil_append]
  split <;> rfl

/-! ## What is read -/

/-- The pairs of a stream of pairs that are sent. -/
theorem splits_pairBytes {pairs : List (List Byte × List Byte)}
    (hpairs : ∀ pair ∈ pairs, pair.1.length < 2 ^ 31 ∧ pair.2.length < 2 ^ 31) :
    Splits pair? (pairs.flatMap fun pair ↦ pairBytes pair.1 pair.2) pairs := by
  have hall : Splits pair? (pairs.flatMap fun pair ↦ pairBytes pair.1 pair.2) (pairs.map id) :=
    splits_flatMap (fun pair _ ↦ pairBytes_ne_nil pair.1 pair.2)
      fun pair hmem ↦ pair?_pairBytes (hpairs pair hmem).1 (hpairs pair hmem).2
  rwa [List.map_id] at hall

/-- The bytes that a pair takes. -/
def encodedLength (pair : List Byte × List Byte) : ℕ :=
  (if pair.1.length < 128 then 1 else 4) + (if pair.2.length < 128 then 1 else 4) +
    pair.1.length + pair.2.length

theorem length_pairBytes (pair : List Byte × List Byte) :
    (pairBytes pair.1 pair.2).length = encodedLength pair := by
  have hlength (n : ℕ) : (lengthBytes n).length = if n < 128 then 1 else 4 := by
    unfold lengthBytes
    split <;> rfl
  simp only [pairBytes, List.length_append, hlength, encodedLength]

/-- A call on a buffer writes what decodes to the pair, and counts it in an `int`. -/
structure Encodes (room : ℕ) (pair : List Byte × List Byte) (encoding : List Byte × ℤ) : Prop where
  returns : createContentValueInto room pair.1 pair.1.length pair.2 pair.2.length = .ok encoding
  decodes : pair? encoding.1 = some (pair, [])
  converted : encoding.2 = toInt encoding.1.length
  counted : encoding.1.length < 2 ^ 31 → encoding.2 = encoding.1.length

theorem encodes_pairBytes {room : ℕ} {pair : List Byte × List Byte}
    (hname : pair.1.length < 2 ^ 31) (hvalue : pair.2.length < 2 ^ 31)
    (hroom : encodedLength pair ≤ room) :
    Encodes room pair
      (pairBytes pair.1 pair.2, toInt (pairBytes pair.1 pair.2).length) where
  returns := by rw [createContentValueInto_eq room hname hvalue, length_pairBytes, if_pos hroom]
  decodes := by
    have hread := pair?_pairBytes hname hvalue []
    rwa [List.append_nil] at hread
  converted := by dsimp only
  counted hlength := by
    dsimp only at hlength ⊢
    exact toInt_of_lt hlength

/-- The calls for a list of pairs write what decodes to exactly this list. -/
theorem exists_encodes {room : ℕ} {pairs : List (List Byte × List Byte)}
    (hsmall : ∀ pair ∈ pairs, pair.1.length < 2 ^ 31 ∧ pair.2.length < 2 ^ 31)
    (hroom : ∀ pair ∈ pairs, encodedLength pair ≤ room) :
    ∃ encodings, List.Forall₂ (Encodes room) pairs encodings ∧
      ∀ decoded, Splits pair? (encodings.flatMap Prod.fst) decoded ↔ decoded = pairs := by
  refine ⟨pairs.map fun pair ↦ (pairBytes pair.1 pair.2, toInt (pairBytes pair.1 pair.2).length),
    ?_, fun decoded ↦ ?_⟩
  · rw [List.forall₂_map_right_iff, List.forall₂_same]
    exact fun pair hmem ↦ encodes_pairBytes (hsmall pair hmem).1 (hsmall pair hmem).2
      (hroom pair hmem)
  · have hsplits := splits_pairBytes hsmall
    rw [List.flatMap_map]
    constructor
    · exact fun hdecoded ↦ hdecoded.unique hsplits
    · rintro rfl
      exact hsplits

theorem exists_encodes_two : ∃ encodings,
    List.Forall₂ (Encodes contentBufferLen)
      [(text "A", List.replicate 200 0), (text "CONTENT_LENGTH", text "11")] encodings ∧
      ∀ decoded, Splits pair? (encodings.flatMap Prod.fst) decoded ↔
        decoded = [(text "A", List.replicate 200 0), (text "CONTENT_LENGTH", text "11")] :=
  exists_encodes (by decide +kernel) (by decide +kernel)

/-- With a name and a value of the greatest lengths, six bytes are counted where there are six and
`2 ^ 32`. -/
theorem counted_long {name value : List Byte} (hname : name.length = 2 ^ 31 - 1)
    (hvalue : value.length = 2 ^ 31 - 1) :
    createContentValueInto (2 ^ 32 + 6) name name.length value value.length =
      .ok (pairBytes name value, 6) ∧ (pairBytes name value).length = 2 ^ 32 + 6 := by
  have hlength : (pairBytes name value).length = 2 ^ 32 + 6 := by
    rw [length_pairBytes (name, value), encodedLength, hname, hvalue, if_neg (by decide)]
    norm_num
  have hcount : toInt (2 ^ 32 + 6) = 6 := by decide
  refine ⟨?_, hlength⟩
  rw [createContentValueInto_eq _ (by omega) (by omega), hlength, if_pos le_rfl, hcount]

theorem not_counted_long : ∃ encoding,
    createContentValueInto (2 ^ 32 + 6) (List.replicate (2 ^ 31 - 1) 0) (2 ^ 31 - 1 : ℕ)
      (List.replicate (2 ^ 31 - 1) 0) (2 ^ 31 - 1 : ℕ) = .ok encoding ∧
    encoding.2 ≠ encoding.1.length := by
  have hsize : (List.replicate (2 ^ 31 - 1) (0 : Byte)).length = 2 ^ 31 - 1 :=
    List.length_replicate
  obtain ⟨hcall, hlength⟩ := counted_long hsize hsize
  rw [hsize] at hcall
  refine ⟨_, hcall, ?_⟩
  dsimp only
  rw [hlength]
  decide

end LWebServer.FastCgi
