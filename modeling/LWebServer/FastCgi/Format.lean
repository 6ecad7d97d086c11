import LWebServer.Base.Bytes
import LWebServer.Library.Frames

/-!
# The FastCGI format

A record is a header of eight bytes, a content whose length the header gives in two bytes, and
padding whose length it gives in one. The contents of the records for parameters make up a stream of
pairs of a name and a value, each with its length in one byte or, with the highest bit set, in four.
-/

namespace LWebServer

/-- What a receiver makes of a record. -/
structure Record where
  kind : ℕ
  requestId : ℕ
  content : List Byte

/-- A record as it is sent. -/
structure Packet where
  kind : Byte
  requestIdB1 : Byte
  requestIdB0 : Byte
  reserved : Byte
  content : List Byte
  padding : List Byte
  content_lt : content.length < 65536
  padding_lt : padding.length < 256

namespace FastCgi

/-- Two bytes, the higher one first. -/
def twoBytes (high low : Byte) : ℕ := high.toNat * 256 + low.toNat

/-- The first record of a stream, and what follows it. -/
def record? : List Byte → Option (Record × List Byte)
  | version :: kind :: requestIdB1 :: requestIdB0 :: lengthB1 :: lengthB0 :: padding :: _ :: rest =>
    if version = 1 ∧ twoBytes lengthB1 lengthB0 + padding.toNat ≤ rest.length then
      some (⟨kind.toNat, twoBytes requestIdB1 requestIdB0, rest.take (twoBytes lengthB1 lengthB0)⟩,
        rest.drop (twoBytes lengthB1 lengthB0 + padding.toNat))
    else none
  | _ => none

/-- The length at the front of a stream of pairs. -/
def length? : List Byte → Option (ℕ × List Byte)
  | [] => none
  | b :: rest =>
    if b.toNat < 128 then some (b.toNat, rest)
    else match rest with
      | b2 :: b1 :: b0 :: rest =>
        some ((b.toNat - 128) * 2 ^ 24 + b2.toNat * 2 ^ 16 + b1.toNat * 2 ^ 8 + b0.toNat, rest)
      | _ => none

/-- The first pair of a name and a value, and what follows it. -/
def pair? (stream : List Byte) : Option ((List Byte × List Byte) × List Byte) := do
  let (nameLen, stream) ← length? stream
  let (valueLen, stream) ← length? stream
  if nameLen + valueLen ≤ stream.length then
    some ((stream.take nameLen, (stream.drop nameLen).take valueLen),
      stream.drop (nameLen + valueLen))
  else none

end FastCgi

namespace Packet

/-- The eight bytes before the content. -/
def header (p : Packet) : List Byte :=
  [1, p.kind, p.requestIdB1, p.requestIdB0, UInt8.ofNat (p.content.length / 256),
    UInt8.ofNat p.content.length, UInt8.ofNat p.padding.length, p.reserved]

def bytes (p : Packet) : List Byte := p.header ++ p.content ++ p.padding

/-- What a receiver makes of it. -/
def record (p : Packet) : Record :=
  ⟨p.kind.toNat, FastCgi.twoBytes p.requestIdB1 p.requestIdB0, p.content⟩

end Packet

namespace FastCgi

theorem twoBytes_ofNat {n : ℕ} (hn : n < 65536) :
    twoBytes (UInt8.ofNat (n / 256)) (UInt8.ofNat n) = n := by
  have hhigh : n / 256 < 256 := by omega
  rw [twoBytes, UInt8.toNat_ofNat', UInt8.toNat_ofNat', Nat.mod_eq_of_lt hhigh]
  omega

theorem twoBytes_lt (high low : Byte) : twoBytes high low < 65536 := by
  have hhigh := high.toNat_lt
  have hlow := low.toNat_lt
  unfold twoBytes
  omega

/-- A record that is sent is received, and nothing else is consumed. -/
theorem record?_bytes (p : Packet) (rest : List Byte) :
    record? (p.bytes ++ rest) = some (p.record, rest) := by
  have hpadding : (UInt8.ofNat p.padding.length).toNat = p.padding.length := by
    rw [UInt8.toNat_ofNat', Nat.mod_eq_of_lt p.padding_lt]
  simp [record?, Packet.bytes, Packet.header, Packet.record, twoBytes_ofNat p.content_lt, hpadding]

theorem record?_length {stream rest : List Byte} {record : Record}
    (hrecord : record? stream = some (record, rest)) :
    8 + record.content.length + rest.length ≤ stream.length ∧ record.content.length < 65536 := by
  unfold record? at hrecord
  split at hrecord
  next version kind idB1 idB0 lengthB1 lengthB0 padding reserved tail =>
    split at hrecord
    next hfits =>
      cases hrecord
      have hlength := twoBytes_lt lengthB1 lengthB0
      simp only [List.length_take, List.length_drop, List.length_cons]
      omega
    next => cases hrecord
  next => cases hrecord

/-- A length as it is sent. -/
def lengthBytes (n : ℕ) : List Byte :=
  if n < 128 then [UInt8.ofNat n]
  else [UInt8.ofNat (n / 2 ^ 24 + 128), UInt8.ofNat (n / 2 ^ 16), UInt8.ofNat (n / 2 ^ 8),
    UInt8.ofNat n]

/-- A pair as it is sent. -/
def pairBytes (name value : List Byte) : List Byte :=
  lengthBytes name.length ++ lengthBytes value.length ++ name ++ value

theorem length?_lengthBytes {n : ℕ} (hn : n < 2 ^ 31) (rest : List Byte) :
    length? (lengthBytes n ++ rest) = some (n, rest) := by
  unfold lengthBytes
  split
  next hsmall =>
    have hbyte : (UInt8.ofNat n).toNat = n := by
      rw [UInt8.toNat_ofNat', Nat.mod_eq_of_lt (by omega)]
    simp [length?, hbyte, hsmall]
  next hlarge =>
    have hfirst : (UInt8.ofNat (n / 2 ^ 24 + 128)).toNat = n / 2 ^ 24 + 128 := by
      rw [UInt8.toNat_ofNat', Nat.mod_eq_of_lt (by omega)]
    simp only [length?, List.cons_append, List.nil_append]
    rw [hfirst, if_neg (by omega)]
    simp only [UInt8.toNat_ofNat', Option.some.injEq, Prod.mk.injEq, and_true]
    omega

/-- A pair that is sent is received, and nothing else is consumed. -/
theorem pair?_pairBytes {name value : List Byte} (hname : name.length < 2 ^ 31)
    (hvalue : value.length < 2 ^ 31) (rest : List Byte) :
    pair? (pairBytes name value ++ rest) = some ((name, value), rest) := by
  unfold pair? pairBytes
  simp only [List.append_assoc, length?_lengthBytes hname, length?_lengthBytes hvalue,
    Option.bind_eq_bind, Option.bind_some]
  simp

theorem pairBytes_ne_nil (name value : List Byte) : pairBytes name value ≠ [] := by
  unfold pairBytes lengthBytes
  split <;> simp

end FastCgi

end LWebServer
