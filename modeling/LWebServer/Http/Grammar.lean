import LWebServer.Http.Scanner

/-!
# Request heads

The texts the parser is meant to accept: a start line, header lines and an empty line. The byte
after the CR of a header line and the digit strings of the version are left open here, because the
parser leaves them open; `RequestHead.Strict` is the form with both pinned down.
-/

namespace LWebServer

open HttpParser

/-- A run of blanks. -/
def blanks (n : ℕ) : List Byte := List.replicate n (ascii ' ')

@[simp]
theorem length_blanks (n : ℕ) : (blanks n).length = n := List.length_replicate

/-- The word of a method that the parser knows; the others have none. -/
def HttpRequestMethod.word : HttpRequestMethod → List Byte
  | hrGet => text "GET"
  | hrHead => text "HEAD"
  | hrDelete => text "DELETE"
  | hrPost => text "POST"
  | hrOptions => text "OPTIONS"
  | hrPut => []
  | hrInit => []

/-- The number written by a string of digits. -/
def numeral (digits : List Byte) : ℕ := Decimal.value (digits.map fun ch ↦ ch.toNat - 48)

/-- `NAME ":" SP* VALUE CR` and one byte more, which ought to be LF. -/
structure HeaderLine where
  name : List Byte
  pad : ℕ
  value : List Byte
  lineEnd : Byte
  name_ne : name ≠ []
  name_chars : ∀ ch ∈ name, isHeader ch
  value_ne : value ≠ []
  value_chars : ∀ ch ∈ value, isValue ch

namespace HeaderLine

def encode (l : HeaderLine) : List Byte :=
  l.name ++ ascii ':' :: (blanks l.pad ++ l.value ++ [cr, l.lineEnd])

/-- What the line says. -/
def pair (l : HeaderLine) : List Byte × List Byte := (l.name, l.value)

/-- The blanks before the value all belong to the padding. -/
def Trimmed (l : HeaderLine) : Prop := l.value.head? ≠ some (ascii ' ')

/-- A `Connection` line says one of the two things the parser knows. -/
def Legal (l : HeaderLine) : Prop :=
  l.name = connectionKey → l.value = keepAliveValue ∨ l.value = closeValue

end HeaderLine

/-- `SP* METHOD SP+ URI SP+ "HTTP/" DIGIT* "." DIGIT* CRLF`, header lines and CRLF. Of the blanks
around the URI one is counted apart. -/
structure RequestHead where
  leading : ℕ
  method : HttpRequestMethod
  gap : ℕ
  uri : List Byte
  gap' : ℕ
  major : List Byte
  minor : List Byte
  lines : List HeaderLine
  method_known : method.word ≠ []
  uri_ne : uri ≠ []
  uri_chars : ∀ ch ∈ uri, isUri ch
  major_digits : ∀ ch ∈ major, isDigit ch
  minor_digits : ∀ ch ∈ minor, isDigit ch

namespace RequestHead

def startLine (h : RequestHead) : List Byte :=
  blanks h.leading ++ h.method.word ++ blanks (h.gap + 1) ++ h.uri ++ blanks (h.gap' + 1) ++
    text "HTTP/" ++ h.major ++ [ascii '.'] ++ h.minor ++ [cr, lf]

def encode (h : RequestHead) : List Byte :=
  h.startLine ++ h.lines.flatMap HeaderLine.encode ++ [cr, lf]

/-- The headers of the request. -/
def headers (h : RequestHead) : List (List Byte × List Byte) := h.lines.map HeaderLine.pair

/-- The version as the parser sees it, on a 32-bit `int`. -/
def Supported (h : RequestHead) : Prop :=
  Decimal.wrap 32 (numeral h.major) = 1 ∧
    (Decimal.wrap 32 (numeral h.minor) = 1 ∨ Decimal.wrap 32 (numeral h.minor) = 0)

/-- What the parser asks of a head. -/
structure Accepted (h : RequestHead) : Prop where
  supported : h.Supported
  legal : ∀ l ∈ h.lines, l.Legal
  trimmed : ∀ l ∈ h.lines, l.Trimmed

/-- Version 1.0 or 1.1 in full, and every line ends in CRLF. -/
structure Strict (h : RequestHead) : Prop where
  minor_ne : h.minor ≠ []
  major_eq : numeral h.major = 1
  minor_le : numeral h.minor ≤ 1
  lineEnds : ∀ l ∈ h.lines, l.lineEnd = lf

end RequestHead

/-! ## Beginnings of heads -/

/-- `SP* METHOD` -/
def MethodText (s : List Byte) : Prop :=
  ∃ n, ∃ method : HttpRequestMethod, method.word ≠ [] ∧ s = blanks n ++ method.word

/-- `SP* METHOD SP+ URI` -/
def UriText (s : List Byte) : Prop :=
  ∃ pre gap uri, MethodText pre ∧ uri ≠ [] ∧ (∀ ch ∈ uri, isUri ch) ∧
    s = pre ++ blanks (gap + 1) ++ uri

/-- `SP* METHOD SP+ URI SP+ "HTTP/" DIGIT*` -/
def MajorText (s major : List Byte) : Prop :=
  ∃ pre gap, UriText pre ∧ (∀ ch ∈ major, isDigit ch) ∧
    s = pre ++ blanks (gap + 1) ++ text "HTTP/" ++ major

/-- `SP* METHOD SP+ URI SP+ "HTTP/" DIGIT* "." DIGIT*` -/
def MinorText (s major minor : List Byte) : Prop :=
  ∃ pre, MajorText pre major ∧ (∀ ch ∈ minor, isDigit ch) ∧ s = pre ++ [ascii '.'] ++ minor

/-- A start line and header lines: what the empty line makes an accepted head of. -/
def LinesText (s : List Byte) : Prop :=
  ∃ h : RequestHead, h.Accepted ∧ s ++ [cr, lf] = h.encode

theorem UriText.snoc {s : List Byte} {ch : Byte} (huri : UriText s) (hch : isUri ch = true) :
    UriText (s ++ [ch]) := by
  obtain ⟨pre, gap, uri, hpre, -, hchars, rfl⟩ := huri
  refine ⟨pre, gap, uri ++ [ch], hpre, by simp, ?_, by simp⟩
  exact List.forall_mem_append.mpr ⟨hchars, List.forall_mem_singleton.mpr hch⟩

theorem MajorText.snoc {s major : List Byte} {ch : Byte} (hmajor : MajorText s major)
    (hch : isDigit ch = true) : MajorText (s ++ [ch]) (major ++ [ch]) := by
  obtain ⟨pre, gap, hpre, hdigits, rfl⟩ := hmajor
  refine ⟨pre, gap, hpre, ?_, by simp⟩
  exact List.forall_mem_append.mpr ⟨hdigits, List.forall_mem_singleton.mpr hch⟩

theorem MinorText.snoc {s major minor : List Byte} {ch : Byte} (hminor : MinorText s major minor)
    (hch : isDigit ch = true) : MinorText (s ++ [ch]) major (minor ++ [ch]) := by
  obtain ⟨pre, hpre, hdigits, rfl⟩ := hminor
  refine ⟨pre, hpre, ?_, by simp⟩
  exact List.forall_mem_append.mpr ⟨hdigits, List.forall_mem_singleton.mpr hch⟩

theorem linesText_of_minorText {s major minor : List Byte} (hminor : MinorText s major minor)
    (hmajorEq : Decimal.wrap 32 (numeral major) = 1)
    (hminorEq : Decimal.wrap 32 (numeral minor) = 1 ∨ Decimal.wrap 32 (numeral minor) = 0) :
    LinesText (s ++ [cr, lf]) := by
  obtain ⟨_, ⟨_, gap', ⟨_, gap, uri, ⟨n, method, hknown, rfl⟩, huri, huriChars, rfl⟩, hmajor,
    rfl⟩, hminorDigits, rfl⟩ := hminor
  let h : RequestHead :=
    { leading := n, method, gap, uri, gap', major, minor, lines := [], method_known := hknown
      uri_ne := huri, uri_chars := huriChars, major_digits := hmajor
      minor_digits := hminorDigits }
  refine ⟨h, ⟨⟨hmajorEq, hminorEq⟩, by simp [h], by simp [h]⟩, ?_⟩
  simp [h, RequestHead.encode, RequestHead.startLine]

theorem LinesText.snoc {s : List Byte} (hlines : LinesText s) {l : HeaderLine} (hlegal : l.Legal)
    (htrimmed : l.Trimmed) : LinesText (s ++ l.encode) := by
  obtain ⟨h, ⟨hsupported, hall, halltrimmed⟩, hencode⟩ := hlines
  refine ⟨{ h with lines := h.lines ++ [l] }, ⟨hsupported, ?_, ?_⟩, ?_⟩
  · exact List.forall_mem_append.mpr ⟨hall, List.forall_mem_singleton.mpr hlegal⟩
  · exact List.forall_mem_append.mpr ⟨halltrimmed, List.forall_mem_singleton.mpr htrimmed⟩
  · have hs : s = h.startLine ++ h.lines.flatMap HeaderLine.encode :=
      List.append_cancel_right hencode
    simp [hs, RequestHead.encode, RequestHead.startLine]

end LWebServer
