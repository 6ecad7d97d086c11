import LWebServer.Http.Completeness

/-!
# What the machine has read

In every state the bytes read so far are the beginning of a head that the state stands for, and
success means that they start with an accepted head, of which all bytes have been consumed.
-/

namespace LWebServer

open HttpParser

namespace HttpParserStatus

/-- No version digit has been read. -/
def beforeMajor : HttpParserStatus → Bool
  | hpsUriParser | hpsUriEnd => true
  | status => status.beforeUri

/-- The state takes a whole word at once. -/
def takesWord : HttpParserStatus → Bool
  | hpsGet | hpsPost | hpsOption | hpsHead | hpsDelete | hpsUriEnd => true
  | _ => false

/-- No digit of the minor version has been read. -/
def beforeMinor (status : HttpParserStatus) : Bool := status.beforeMajor || status = hpsVersionMajor

end HttpParserStatus

namespace Scan

open HttpParserStatus

/-- The beginning of a line behind complete lines: its name and what follows up to the value. -/
def LineText (s name : List Byte) : Prop :=
  ∃ pre pad, LinesText pre ∧ s = pre ++ name ++ [ascii ':'] ++ blanks pad

/-- The bytes that lead to a state. -/
def Reads (seen : List Byte) (c : Scan) : Prop :=
  match c.status with
  | .hpsOK => ∃ n, seen = blanks n
  | .hpsGet => ∃ n, seen = blanks n ++ [ascii 'G'] ++ c.word
  | .hpsPost => ∃ n, seen = blanks n ++ [ascii 'P'] ++ c.word
  | .hpsOption => ∃ n, seen = blanks n ++ [ascii 'O'] ++ c.word
  | .hpsHead => ∃ n, seen = blanks n ++ [ascii 'H'] ++ c.word
  | .hpsDelete => ∃ n, seen = blanks n ++ [ascii 'D'] ++ c.word
  | .hpsBetweenMU => MethodText seen
  | .hpsUriStart => ∃ pre gap, MethodText pre ∧ seen = pre ++ blanks (gap + 1)
  | .hpsUriParser => UriText seen
  | .hpsUriEnd => ∃ pre gap, UriText pre ∧ seen = pre ++ blanks (gap + 1) ++ c.word ∧
      c.word.head? ≠ some (ascii ' ')
  | .hpsVersionMajor => ∃ major, MajorText seen major ∧ c.vMajor = Decimal.wrap 32 (numeral major)
  | .hpsVersionMinor => ∃ major minor, MinorText seen major minor ∧
      c.vMajor = Decimal.wrap 32 (numeral major) ∧ c.vMinor = Decimal.wrap 32 (numeral minor)
  | .hpsVersionEnd => ∃ pre major minor, MinorText pre major minor ∧ seen = pre ++ [cr] ∧
      c.vMajor = Decimal.wrap 32 (numeral major) ∧ c.vMinor = Decimal.wrap 32 (numeral minor)
  | .hpsLF => LinesText seen
  | .hpsCRLFCR => ∃ pre, LinesText pre ∧ seen = pre ++ [cr]
  | .hpsHeader => ∃ pre, LinesText pre ∧ seen = pre ++ c.name
  | .hpsColon => LineText seen c.name
  | .hpsHeaderValue => ∃ pre, LineText pre c.name ∧ seen = pre ++ c.value
  | .hpsStoreHeader => ∃ pre, LineText pre c.name ∧ seen = pre ++ c.value ++ [cr]
  | .hpsGameOver => c.fault = .hpfContent →
      ∃ h : RequestHead, ∃ rest, h.Accepted ∧ seen = h.encode ++ rest ∧
        c.consumed = h.encode.length

/-! ## What one byte can do -/

/-- A possibly empty text that may stand as a value behind its padding. -/
def IsValueText (value : List Byte) : Prop :=
  (∀ ch ∈ value, isValue ch) ∧ value.head? ≠ some (ascii ' ')

theorem isValueText_nil : IsValueText [] := ⟨by simp, by simp⟩

theorem isValueText_singleton {ch : Byte} (hch : isValue ch = true) (hblank : ch ≠ ascii ' ') :
    IsValueText [ch] :=
  ⟨by simpa using hch, by simpa using hblank⟩

theorem IsValueText.snoc {value : List Byte} (hvalue : IsValueText value) (hne : value ≠ [])
    {ch : Byte} (hch : isValue ch = true) : IsValueText (value ++ [ch]) := by
  obtain ⟨b, bs, rfl⟩ := List.exists_cons_of_ne_nil hne
  refine ⟨List.forall_mem_append.mpr ⟨hvalue.1, List.forall_mem_singleton.mpr hch⟩, ?_⟩
  simpa using hvalue.2

/-- How a state may differ from the one before it. -/
structure Advance (c c' : Scan) : Prop where
  consumed : ¬ c'.ended → c'.consumed = c.consumed + 1
  fault : c.fault ≠ .hpfContent → c.status ≠ .hpsCRLFCR → c'.fault ≠ .hpfContent
  word : (c.status.takesWord = false → c.word = []) → c'.status.takesWord = false → c'.word = []
  major : c.status ≠ .hpsVersionMajor → c'.vMajor = c.vMajor
  minor : c.status ≠ .hpsVersionMinor → c'.vMinor = c.vMinor
  beforeMajor : c'.status.beforeMajor → c.status.beforeMajor
  beforeMinor : c'.status.beforeMinor → c.status.beforeMinor
  value : c.Shape → IsValueText c.value → IsValueText c'.value

theorem advance_feedWord {word : List Byte} {next : HttpParserStatus} {fault : HttpParserFault}
    {c : Scan} (g : HttpRequestMethod → HttpRequestMethod) (hfault : fault ≠ .hpfContent)
    (hword : c.status.takesWord = true) (hmajor : next.beforeMajor → c.status.beforeMajor)
    (hminor : c.status.beforeMinor) (ch : Byte) :
    Advance c (c.feedWord word next (fun c ↦ { c with method := g c.method }) fault ch) := by
  unfold feedWord
  dsimp only
  split_ifs
  · exact ⟨fun _ ↦ rfl, fun h _ ↦ h, fun _ h ↦ absurd (hword.symm.trans h) (by decide),
      fun _ ↦ rfl, fun _ ↦ rfl, id, id, fun _ h ↦ h⟩
  · exact ⟨fun _ ↦ rfl, fun h _ ↦ h, fun _ _ ↦ rfl, fun _ ↦ rfl, fun _ ↦ rfl, hmajor,
      fun _ ↦ hminor, fun _ h ↦ h⟩
  · exact ⟨fun h ↦ absurd rfl h, fun _ _ ↦ hfault, fun _ _ ↦ rfl, fun _ ↦ rfl, fun _ ↦ rfl,
      by simp [beforeMajor, beforeUri], fun _ ↦ hminor, fun _ h ↦ h⟩

theorem advance_feedMethod {word : String} {method : HttpRequestMethod} {c : Scan}
    (hword : c.status.takesWord = true) (hmajor : c.status.beforeMajor)
    (hminor : c.status.beforeMinor) (ch : Byte) : Advance c (c.feedMethod word method ch) :=
  advance_feedWord (fun _ ↦ method) (by decide) hword (fun _ ↦ hmajor) hminor ch

theorem advance_step {c : Scan} (hended : ¬ c.ended) (ch : Byte) : Advance c (c.step ch) := by
  cases hstatus : c.status <;> simp only [step, hstatus]
  case hpsGet | hpsPost | hpsOption | hpsHead | hpsDelete =>
    apply advance_feedMethod <;> rw [hstatus] <;> rfl
  case hpsUriEnd =>
    split_ifs
    · constructor <;> simp +contextual [enter, hstatus, takesWord]
    · apply advance_feedWord id <;> simp [hstatus, takesWord, beforeMajor, beforeMinor, beforeUri]
  case hpsGameOver => exact absurd hstatus hended
  case hpsStoreHeader =>
    unfold storeLine readLength
    dsimp only
    split_ifs <;> constructor <;>
      simp +contextual [enter, stop, ended, hstatus, takesWord, beforeMajor, beforeMinor, beforeUri,
        isValueText_nil]
  case hpsColon =>
    split_ifs with hblank hvalue <;> constructor
    case pos.value => exact fun _ h ↦ h
    case pos.value => exact fun _ _ ↦ isValueText_singleton hvalue hblank
    all_goals first
      | exact fun _ h ↦ h
      | simp +contextual [enter, stop, ended, hstatus, takesWord, beforeMajor, beforeMinor,
          beforeUri]
  case hpsHeaderValue =>
    split_ifs with hvalue <;> constructor
    case pos.value =>
      exact fun hshape h ↦ h.snoc (hshape.valueOpen (by rw [hstatus]; rfl)) hvalue
    all_goals first
      | exact fun _ h ↦ h
      | simp +contextual [enter, stop, ended, hstatus, takesWord, beforeMajor, beforeMinor,
          beforeUri]
  all_goals split_ifs <;> constructor
  all_goals first
    | exact fun _ h ↦ h
    | simp +contextual [enter, stop, ended, hstatus, takesWord, beforeMajor, beforeMinor, beforeUri]

/-! ## The invariant -/

/-- The invariant of a run. -/
structure History (seen : List Byte) (c : Scan) : Prop where
  reads : Reads seen c
  shape : c.Shape
  word : c.status.takesWord = false → c.word = []
  consumed : ¬ c.ended → c.consumed = seen.length
  fault : ¬ c.ended → c.fault ≠ .hpfContent
  major : c.status.beforeMajor → c.vMajor = 0
  minor : c.status.beforeMinor → c.vMinor = 0
  value : IsValueText c.value

theorem history_start (setKa : HttpFlag) {fault : HttpParserFault} (hfault : fault ≠ .hpfContent) :
    History [] (start setKa fault) := by
  refine ⟨⟨0, rfl⟩, shape_start setKa fault, fun _ ↦ rfl, fun _ ↦ rfl, fun _ ↦ hfault, fun _ ↦ rfl,
    fun _ ↦ rfl, isValueText_nil⟩

/-- A fault other than success asks for nothing. -/
theorem reads_stop (seen : List Byte) {fault : HttpParserFault} (hfault : fault ≠ .hpfContent)
    (c : Scan) : Reads seen (c.stop fault) :=
  fun h ↦ absurd h hfault

theorem reads_method {seen : List Byte} {c : Scan} {ch first : Byte} {word : String}
    {method : HttpRequestMethod} (hmethod : method.word = first :: text word)
    (hreads : ∃ n, seen = blanks n ++ [first] ++ c.word)
    (hopen : ∀ seen' c', c'.status = c.status → (∃ n, seen' = blanks n ++ [first] ++ c'.word) →
      Reads seen' c') : Reads (seen ++ [ch]) (c.feedMethod word method ch) := by
  obtain ⟨n, rfl⟩ := hreads
  unfold feedMethod feedWord
  dsimp only
  split_ifs with hlength hword
  · exact hopen _ _ rfl ⟨n, by simp⟩
  · refine ⟨n, method, by rw [hmethod]; simp, ?_⟩
    simp [hmethod, ← hword]
  · exact fun h ↦ absurd h (by simp)

theorem blanks_snoc (n : ℕ) : blanks n ++ [ascii ' '] = blanks (n + 1) := by
  simp [blanks, List.replicate_succ']

theorem numeral_snoc (digits : List Byte) (ch : Byte) :
    Decimal.wrap 32 (numeral (digits ++ [ch])) =
      pushDigit (Decimal.wrap 32 (numeral digits)) ch := by
  rw [← foldl_pushDigit_zero, ← foldl_pushDigit_zero, List.foldl_append]
  rfl

theorem wrap_numeral_nil : Decimal.wrap 32 (numeral []) = 0 := by decide

/-- A byte of `HTTP/` behind a URI. -/
theorem reads_version {seen : List Byte} {c : Scan} {ch : Byte} (hstatus : c.status = .hpsUriEnd)
    (hzero : c.vMajor = 0) (hblank : ¬ (c.word = [] ∧ ch = ascii ' '))
    (hreads : ∃ pre gap, UriText pre ∧ seen = pre ++ blanks (gap + 1) ++ c.word ∧
      c.word.head? ≠ some (ascii ' ')) :
    Reads (seen ++ [ch]) (c.feedWord (text "HTTP/") .hpsVersionMajor id .hpfInvaildVersion ch) := by
  obtain ⟨pre, gap, hpre, rfl, hhead⟩ := hreads
  unfold feedWord
  dsimp only
  split_ifs with hlength hfull
  · simp only [Reads, hstatus]
    refine ⟨pre, gap, hpre, by simp, ?_⟩
    cases hcase : c.word with
    | nil => simpa [hcase] using hblank
    | cons b bs => simpa [hcase] using hhead
  · simp only [Reads, id_eq]
    exact ⟨[], ⟨pre, gap, hpre, by simp, by simp [← hfull]⟩, hzero.trans wrap_numeral_nil.symm⟩
  · exact fun h ↦ absurd h (by simp)

/-- The byte behind a value and a CR ends the line. -/
theorem reads_storeLine {seen : List Byte} {c : Scan} {ch : Byte} (hhistory : History seen c)
    (hstatus : c.status = .hpsStoreHeader)
    (hreads : ∃ pre, LineText pre c.name ∧ seen = pre ++ c.value ++ [cr]) :
    Reads (seen ++ [ch]) c.storeLine := by
  obtain ⟨_, ⟨pre, pad, hpre, rfl⟩, rfl⟩ := hreads
  by_cases hlegal : c.name = connectionKey → c.value = keepAliveValue ∨ c.value = closeValue
  · rw [storeLine_of_legal hlegal]
    simp only [Reads, enter]
    let l : HeaderLine :=
      { name := c.name, pad, value := c.value, lineEnd := ch
        name_ne := hhistory.shape.nameOpen (by rw [hstatus]; rfl)
        name_chars := hhistory.shape.nameChars
        value_ne := hhistory.shape.valueOpen (by rw [hstatus]; rfl)
        value_chars := hhistory.value.1 }
    have hl := @LinesText.snoc pre hpre l hlegal hhistory.value.2
    simpa [l, HeaderLine.encode] using hl
  · push Not at hlegal
    obtain ⟨hconnection, hkeep, hclose⟩ := hlegal
    unfold storeLine
    dsimp only
    rw [if_pos hconnection, if_neg hkeep, if_neg hclose]
    exact reads_stop _ (by decide) _

theorem reads_step {seen : List Byte} {c : Scan} (hhistory : History seen c) (ch : Byte) :
    Reads (seen ++ [ch]) (c.step ch) := by
  have hreads := hhistory.reads
  have hword := hhistory.word
  have hmajorZero := hhistory.major
  have hminorZero := hhistory.minor
  unfold Reads at hreads
  cases hstatus : c.status <;> simp only [hstatus] at hreads hword hmajorZero hminorZero <;>
    simp only [step, hstatus]
  case hpsGet | hpsPost | hpsOption | hpsHead | hpsDelete =>
    apply reads_method rfl hreads
    intro seen' c' hs h
    unfold Reads
    rw [hs, hstatus]
    exact h
  case hpsOK =>
    obtain ⟨n, rfl⟩ := hreads
    split_ifs <;> first | exact reads_stop _ (by decide) _ | skip
    all_goals
      subst_vars
      simp only [Reads, enter, hword rfl]
    all_goals first | exact ⟨n, (List.append_nil _).symm⟩ | exact ⟨n + 1, blanks_snoc n⟩
  case hpsBetweenMU =>
    split_ifs with hblank <;> first | exact reads_stop _ (by decide) _ | skip
    simp only [Reads, enter]
    exact ⟨seen, 0, hreads, by rw [hblank]; rfl⟩
  case hpsUriStart =>
    obtain ⟨pre, gap, hpre, rfl⟩ := hreads
    split_ifs with hblank huri <;> first | exact reads_stop _ (by decide) _ | skip
    · simp only [Reads, enter]
      exact ⟨pre, gap + 1, hpre, by rw [hblank, List.append_assoc, blanks_snoc]⟩
    · simp only [Reads, enter]
      exact ⟨pre, gap, [ch], hpre, by simp, by simpa using huri, rfl⟩
  case hpsUriParser =>
    split_ifs with huri hblank <;> first | exact reads_stop _ (by decide) _ | skip
    · simp only [Reads, enter]
      exact hreads.snoc huri
    · simp only [Reads, enter, hword rfl]
      exact ⟨seen, 0, hreads, by rw [hblank, List.append_nil]; rfl, by simp⟩
  case hpsUriEnd =>
    split_ifs with hblank
    · simp only [Reads, enter, hblank.1]
      obtain ⟨pre, gap, hpre, rfl, hhead⟩ := hreads
      refine ⟨pre, gap + 1, hpre, ?_, by simp⟩
      rw [hblank.2, hblank.1, List.append_nil, List.append_nil, List.append_assoc, blanks_snoc]
    · exact reads_version hstatus (hmajorZero rfl) hblank hreads
  case hpsVersionMajor =>
    obtain ⟨major, htext, hmajor⟩ := hreads
    split_ifs with hdigit hdot <;> first | exact reads_stop _ (by decide) _ | skip
    · simp only [Reads, enter]
      exact ⟨major ++ [ch], htext.snoc hdigit, by rw [hmajor, numeral_snoc]⟩
    · simp only [Reads, enter]
      exact ⟨major, [], ⟨seen, htext, by simp, by simp [hdot]⟩, hmajor,
        (hminorZero rfl).trans wrap_numeral_nil.symm⟩
  case hpsVersionMinor =>
    obtain ⟨major, minor, htext, hmajor, hminor⟩ := hreads
    split_ifs with hdigit hcr <;> first | exact reads_stop _ (by decide) _ | skip
    · simp only [Reads, enter]
      exact ⟨major, minor ++ [ch], htext.snoc hdigit, hmajor, by rw [hminor, numeral_snoc]⟩
    · simp only [Reads, enter]
      exact ⟨seen, major, minor, htext, by rw [hcr], hmajor, hminor⟩
  case hpsVersionEnd =>
    obtain ⟨pre, major, minor, hpre, rfl, hmajor, hminor⟩ := hreads
    split_ifs with hversion hlf <;> first | exact reads_stop _ (by decide) _ | skip
    simp only [Reads, enter]
    rw [hlf, List.append_assoc]
    apply linesText_of_minorText hpre
    · rw [← hmajor]
      omega
    · rw [← hminor]
      omega
  case hpsLF =>
    split_ifs with hcr hheader <;> first | exact reads_stop _ (by decide) _ | skip
    · simp only [Reads, enter]
      exact ⟨seen, hreads, by rw [hcr]⟩
    · simp only [Reads, enter]
      exact ⟨seen, hreads, rfl⟩
  case hpsCRLFCR =>
    obtain ⟨pre, ⟨h, haccepted, hencode⟩, rfl⟩ := hreads
    split_ifs with hlf <;> first | exact reads_stop _ (by decide) _ | skip
    intro _
    refine ⟨h, [], haccepted, ?_, ?_⟩
    · rw [List.append_nil, ← hencode, hlf]
      simp
    · have hended : ¬ c.ended := by simp [ended, hstatus]
      simp only [stop, hhistory.consumed hended, ← hencode]
      simp
  case hpsHeader =>
    obtain ⟨pre, hpre, rfl⟩ := hreads
    split_ifs with hheader hcolon <;> first | exact reads_stop _ (by decide) _ | skip
    · simp only [Reads, enter]
      exact ⟨pre, hpre, by simp⟩
    · simp only [Reads, enter]
      exact ⟨pre, 0, hpre, by simp [hcolon, blanks]⟩
  case hpsColon =>
    split_ifs with hblank hvalue <;> first | exact reads_stop _ (by decide) _ | skip
    · simp only [Reads, enter]
      obtain ⟨pre, pad, hpre, rfl⟩ := hreads
      exact ⟨pre, pad + 1, hpre, by rw [hblank, List.append_assoc, blanks_snoc]⟩
    · simp only [Reads, enter]
      exact ⟨seen, hreads, rfl⟩
  case hpsHeaderValue =>
    obtain ⟨pre, hpre, rfl⟩ := hreads
    split_ifs with hvalue hcr <;> first | exact reads_stop _ (by decide) _ | skip
    · simp only [Reads, enter]
      exact ⟨pre, hpre, by simp⟩
    · simp only [Reads, enter]
      exact ⟨pre, hpre, by rw [hcr]⟩
  case hpsStoreHeader => exact reads_storeLine hhistory hstatus hreads
  case hpsGameOver =>
    unfold Reads
    rw [hstatus]
    intro hfault
    obtain ⟨h, rest, haccepted, rfl, hconsumed⟩ := hreads hfault
    exact ⟨h, rest ++ [ch], haccepted, by simp, hconsumed⟩

/-- The invariant survives a byte. -/
theorem History.step {seen : List Byte} {c : Scan} (hhistory : History seen c) (ch : Byte) :
    History (seen ++ [ch]) (c.step ch) := by
  have hreads := reads_step hhistory ch
  have hshape := shape_step hhistory.shape ch
  by_cases hended : c.ended
  · have hstep : c.step ch = c := by
      rw [Scan.step, show c.status = _ from hended]
    rw [hstep] at hreads ⊢
    exact { hhistory with reads := hreads, consumed := fun h ↦ absurd hended h }
  have hadvance := advance_step hended ch
  refine ⟨hreads, hshape, hadvance.word hhistory.word, ?_, ?_, ?_, ?_,
    hadvance.value hhistory.shape hhistory.value⟩
  · intro hended'
    rw [hadvance.consumed hended', hhistory.consumed hended]
    simp
  · intro hended'
    apply hadvance.fault (hhistory.fault hended)
    intro hstatus
    apply hended'
    simp only [Scan.step, hstatus]
    split_ifs <;> rfl
  · intro hbefore
    have hbefore' := hadvance.beforeMajor hbefore
    rw [hadvance.major ?_, hhistory.major hbefore']
    intro hstatus
    rw [hstatus] at hbefore'
    exact absurd hbefore' (by decide)
  · intro hbefore
    have hbefore' := hadvance.beforeMinor hbefore
    rw [hadvance.minor ?_, hhistory.minor hbefore']
    intro hstatus
    rw [hstatus] at hbefore'
    exact absurd hbefore' (by decide)

end Scan

end LWebServer
