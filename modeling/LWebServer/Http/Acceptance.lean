import LWebServer.Http.Starting
import Mathlib.Data.List.TakeWhile

/-!
# Which requests the parser accepts

A fresh parser is given its whole input at once. It takes every well formed head for what it is;
the heads it takes without their being well formed are of three kinds.
-/

namespace LWebServer

open HttpParser

/-! ## Soundness -/

namespace RequestHead

/-- The parser takes the head although it is not well formed: some header line does not end in LF,
the minor version has no digit, or a version number does not fit into an `int`. -/
def Slips (h : RequestHead) : Prop :=
  (∃ l ∈ h.lines, l.lineEnd ≠ lf) ∨ h.minor = [] ∨
    2 ^ 31 ≤ numeral h.major ∨ 2 ^ 31 ≤ numeral h.minor

theorem strict_iff_not_slips {h : RequestHead} (haccepted : h.Accepted) :
    h.Strict ↔ ¬ h.Slips := by
  constructor
  · rintro ⟨hminor, hmajorEq, hminorLe, hends⟩ (⟨l, hl, hend⟩ | hnil | hbig | hbig)
    · exact hend (hends l hl)
    · exact hminor hnil
    · omega
    · omega
  · intro hslips
    unfold Slips at hslips
    push Not at hslips
    obtain ⟨hends, hminor, hmajorLt, hminorLt⟩ := hslips
    obtain ⟨hmajorEq, hminorEq⟩ := haccepted.supported
    rw [Decimal.wrap_of_lt (by decide) hmajorLt] at hmajorEq
    rw [Decimal.wrap_of_lt (by decide) hminorLt] at hminorEq
    exact ⟨hminor, by omega, by omega, hends⟩

end RequestHead

namespace HttpParser

/-- If the call of `Parsering` reports success, the bytes it has consumed are a well formed head. -/
def AcceptsSoundly (table : HeaderTable) (p : HttpParser) : Prop :=
  ∀ q, parsering table p = .ok () q → q.parserResult.fault = .hpfContent →
    ∃ h : RequestHead, h.Strict ∧
      p.userBuffer.unread.take (q.userBuffer.readSpot - p.userBuffer.readSpot) = h.encode

/-- On an accepted head, `Parsering` succeeds and consumes it. -/
theorem Fresh.parsering_head {p : HttpParser} (hfresh : p.Fresh) (table : HeaderTable)
    {h : RequestHead} (haccepted : h.Accepted) (hstarts : h.encode <+: p.userBuffer.unread) :
    ∃ q, parsering table p = .ok () q ∧ q.parserResult.fault = .hpfContent ∧
      p.userBuffer.unread.take (q.userBuffer.readSpot - p.userBuffer.readSpot) = h.encode := by
  obtain ⟨rest, hrest⟩ := hstarts
  have hread := Scan.headRead_scan haccepted .keepAlive .hpfOK
  have hscan : (Scan.start .keepAlive .hpfOK).scan p.userBuffer.unread =
      (Scan.start .keepAlive .hpfOK).scan h.encode := by
    rw [← hrest, Scan.scan_encode_append haccepted]
  rcases (hfresh.tracks table).parsering_follows hfresh.extrabuffer (by simp [Known])
    hfresh.readSpot_le with ⟨-, q, hparse, hfollowed⟩ | ⟨hword, -⟩
  · obtain ⟨n, hbuffer, hconsumed, -⟩ := hfollowed.moved
    have hfault := (Tracks.agrees hfollowed.sees).fault
    rw [hscan] at hconsumed hfault
    have hn : n = h.encode.length := by
      have hzero : (Scan.start .keepAlive .hpfOK).consumed = 0 := rfl
      have hlength := hread.consumed
      omega
    refine ⟨q, hparse, hfault.trans hread.fault, ?_⟩
    have hspot : q.userBuffer.readSpot - p.userBuffer.readSpot = h.encode.length := by
      rw [hbuffer, hn]
      exact Nat.add_sub_cancel_left _ _
    rw [hspot, ← hrest, List.take_left]
  · rw [hscan] at hword
    exact absurd hread.word hword

theorem Fresh.prefix_of_parsering {p q : HttpParser} (hfresh : p.Fresh) {table : HeaderTable}
    (hparse : parsering table p = .ok () q) (hfault : q.parserResult.fault = .hpfContent) :
    ∃ h : RequestHead, h.Accepted ∧ h.encode <+: p.userBuffer.unread := by
  rw [← Scan.scan_accepts_iff .keepAlive (show HttpParserFault.hpfOK ≠ .hpfContent by decide)]
  rcases (hfresh.tracks table).parsering_follows hfresh.extrabuffer (by simp [Known])
    hfresh.readSpot_le with ⟨-, q', hparse', hfollowed⟩ | ⟨-, q', hparse'⟩
  · rw [hparse] at hparse'
    obtain rfl : q = q' := by simpa using hparse'
    exact (Tracks.agrees hfollowed.sees).fault.symm.trans hfault
  · rw [hparse] at hparse'
    exact absurd hparse' (by simp)

theorem not_acceptsSoundly {p : HttpParser} (hfresh : p.Fresh) (table : HeaderTable)
    {h : RequestHead} (haccepted : h.Accepted) (hstarts : h.encode <+: p.userBuffer.unread)
    (hslips : h.Slips) : ¬ AcceptsSoundly table p := by
  intro hsound
  obtain ⟨q, hparse, hfault, htake⟩ := hfresh.parsering_head table haccepted hstarts
  obtain ⟨h', hstrict, hencode⟩ := hsound q hparse hfault
  obtain ⟨-, -, hmajor, hminor, hlines⟩ := RequestHead.encode_inj (htake.symm.trans hencode)
  have hends : ∀ l ∈ h.lines, l.lineEnd = lf := by
    intro l hl
    obtain ⟨i, hi, rfl⟩ := List.getElem_of_mem hl
    have hi' : i < h'.lines.length := hlines.length_eq ▸ hi
    have hsame := hlines.get hi hi'
    exact hsame.2.2.trans (hstrict.lineEnds _ (List.getElem_mem hi'))
  apply (RequestHead.strict_iff_not_slips haccepted).mp _ hslips
  exact ⟨hminor ▸ hstrict.minor_ne, hmajor ▸ hstrict.major_eq, hminor ▸ hstrict.minor_le, hends⟩

/-- The parser accepts soundly unless its input starts with a head of one of the three kinds. -/
theorem acceptsSoundly_iff {table : HeaderTable} {p : HttpParser} (hfresh : p.Fresh) :
    AcceptsSoundly table p ↔
      ∀ h : RequestHead, h.Accepted → h.encode <+: p.userBuffer.unread → ¬ h.Slips := by
  constructor
  · exact fun hsound h haccepted hstarts hslips ↦
      not_acceptsSoundly hfresh table haccepted hstarts hslips hsound
  · intro hkinds q hparse hfault
    obtain ⟨h, haccepted, hstarts⟩ := hfresh.prefix_of_parsering hparse hfault
    obtain ⟨q', hparse', -, htake⟩ := hfresh.parsering_head table haccepted hstarts
    rw [hparse] at hparse'
    obtain rfl : q = q' := by simpa using hparse'
    exact ⟨h, (RequestHead.strict_iff_not_slips haccepted).mpr (hkinds h haccepted hstarts), htake⟩


/-- A head whose only header line ends in CR and `X`. -/
def slippingHead : RequestHead where
  leading := 0
  method := .hrGet
  gap := 0
  uri := text "/"
  gap' := 0
  major := text "1"
  minor := text "1"
  lines := [{
    name := text "A", pad := 0, value := text "b", lineEnd := ascii 'X'
    name_ne := by decide, name_chars := forall_mem_of_all rfl, value_ne := by decide
    value_chars := forall_mem_of_all rfl }]
  method_known := by decide
  uri_ne := by decide
  uri_chars := forall_mem_of_all rfl
  major_digits := forall_mem_of_all rfl
  minor_digits := forall_mem_of_all rfl

theorem slippingHead_accepted : slippingHead.Accepted := by
  refine ⟨?_, ?_, ?_⟩
  · unfold RequestHead.Supported
    decide
  · unfold HeaderLine.Legal
    decide
  · unfold HeaderLine.Trimmed
    decide

theorem slippingHead_encode : slippingHead.encode = text "GET / HTTP/1.1\r\nA:b\rX\r\n" := by decide

theorem acceptsSoundly_iff_slippingHead : AcceptsSoundly HeaderTable.sample
    (holding .zero (text "GET / HTTP/1.1\r\nA:b\rX\r\n") (by decide)) ↔
      ∀ h : RequestHead, h.Accepted →
        h.encode <+: text "GET / HTTP/1.1\r\nA:b\rX\r\n" → ¬ h.Slips := by
  have h := @acceptsSoundly_iff .sample _ (holding_fresh .zero
    (show (text "GET / HTTP/1.1\r\nA:b\rX\r\n").length ≤ 4048 by decide))
  rwa [unread_holding] at h

/-- A head that misses a line feed is accepted. -/
theorem acceptsSoundly_fails : ¬ AcceptsSoundly HeaderTable.sample
    (holding .zero (text "GET / HTTP/1.1\r\nA:b\rX\r\n") (by decide)) := by
  apply not_acceptsSoundly (holding_fresh _ _) _ slippingHead_accepted
  · simp only [unread_holding, slippingHead_encode, List.prefix_rfl]
  · exact .inl ⟨_, List.mem_cons_self, by decide⟩


end HttpParser

/-! ## Completeness -/

namespace RequestHead

/-- A request of version 1.0 or 1.1 that the parser must take for what it is. -/
structure WellFormed (h : RequestHead) : Prop where
  major_eq : h.major = text "1"
  minor_eq : h.minor = text "0" ∨ h.minor = text "1"
  lineEnds : ∀ l ∈ h.lines, l.lineEnd = lf
  trimmed : ∀ l ∈ h.lines, l.Trimmed
  legal : ∀ l ∈ h.lines, l.Legal
  distinct : (h.headers.map Prod.fst).Nodup
  lengths : ∀ l ∈ h.lines, l.name = contentLengthKey →
    (∀ ch ∈ l.value, isDigit ch) ∧ numeral l.value < 2 ^ 31

theorem WellFormed.accepted {h : RequestHead} (hwell : h.WellFormed) : h.Accepted := by
  refine ⟨?_, hwell.legal, hwell.trimmed⟩
  unfold Supported
  rw [hwell.major_eq]
  rcases hwell.minor_eq with hminor | hminor <;> rw [hminor] <;> decide

end RequestHead

/-- A fold over lines that only one name has an effect on. -/
theorem foldl_eq_of_name {β : Type} (f : β → HeaderLine → β) (key : List Byte)
    (hother : ∀ x l, l.name ≠ key → f x l = x) {lines : List HeaderLine}
    (hdistinct : ((lines.map HeaderLine.pair).map Prod.fst).Nodup) (x : β) :
    (∀ l ∈ lines, l.name = key → lines.foldl f x = f x l) ∧
      ((∀ l ∈ lines, l.name ≠ key) → lines.foldl f x = x) := by
  have hnone {lines : List HeaderLine} (x : β) (hlines : ∀ l ∈ lines, l.name ≠ key) :
      lines.foldl f x = x := by
    induction lines with
    | nil => rfl
    | cons l lines ih =>
      rw [List.foldl_cons, hother x l (hlines l List.mem_cons_self)]
      exact ih fun l hl ↦ hlines l (List.mem_cons_of_mem _ hl)
  refine ⟨?_, hnone x⟩
  induction lines generalizing x with
  | nil => simp
  | cons first lines ih =>
    rw [List.map_cons, List.map_cons, List.nodup_cons] at hdistinct
    obtain ⟨hnotMem, hdistinct⟩ := hdistinct
    intro l hl hname
    rw [List.foldl_cons]
    rcases List.mem_cons.mp hl with rfl | hl
    · apply hnone
      intro l' hl' hname'
      apply hnotMem
      rw [List.map_map]
      exact List.mem_map.mpr ⟨l', hl', hname'.trans hname.symm⟩
    · have hfirst : first.name ≠ key := by
        intro hfirst
        apply hnotMem
        rw [List.map_map]
        exact List.mem_map.mpr ⟨l, hl, hname.trans hfirst.symm⟩
      rw [hother x first hfirst]
      exact ih hdistinct x l hl hname

namespace HttpParser

/-- What the request must hold after a well formed head, read through the table. -/
structure Records (table : HeaderTable) (h : RequestHead) (q : HttpParser) : Prop where
  method : q.requestResult.method = h.method
  versionMajor : q.requestResult.versionMajor = 1
  versionMinor : q.requestResult.versionMinor = numeral h.minor
  uri : q.requestResult.uri.bytes q.userBuffer.buffer = h.uri
  values : ∀ l ∈ h.lines, ∃ v,
    q.requestResult.getValue table q.userBuffer.buffer l.name = some v ∧
      v.bytes q.userBuffer.buffer = l.value
  noValue : ∀ name, name ∉ h.headers.map Prod.fst →
    q.requestResult.getValue table q.userBuffer.buffer name = none
  contentLength : ∀ l ∈ h.lines, l.name = contentLengthKey →
    q.requestResult.contentLength = numeral l.value
  noContentLength : (∀ l ∈ h.lines, l.name ≠ contentLengthKey) → q.requestResult.contentLength = 0
  flag : ∀ l ∈ h.lines, l.name = connectionKey →
    q.requestResult.flag = if l.value = closeValue then .close else .keepAlive
  noFlag : (∀ l ∈ h.lines, l.name ≠ connectionKey) → q.requestResult.flag = .keepAlive

/-- A fresh parser reads a well formed request exactly, and leaves what follows unread. -/
theorem startingParser_exact {table : HeaderTable} {p : HttpParser} (hfresh : p.Fresh)
    {h : RequestHead} (hwell : h.WellFormed) {rest : List Byte}
    (hunread : p.userBuffer.unread = h.encode ++ rest) :
    ∃ q, startingParser table p = .ok .hpfContent q ∧ Records table h q ∧
      q.userBuffer.unread = rest := by
  have hknown : Known p.userBuffer.buffer p.requestResult.headerValue [] := by
    rw [hfresh.headerValue]
    simp [Known]
  obtain ⟨q, c, hparse, hread, htracks, hreported, hbuffer, -⟩ :=
    hfresh.ready.startingParser_head table hknown hwell.accepted hunread
  rw [hfresh.headerValue] at htracks
  have hstored := htracks.stored
  rw [hread.headers] at hstored
  have hcontents := hstored.contents_eq hwell.distinct
  obtain ⟨hvalues, hnoValue⟩ := recalls_of_subset table (hstored.whole (by simp [Known]))
    hwell.distinct (by rw [hcontents]; exact List.Subset.refl _)
    (by rw [hcontents]; exact List.Subset.refl _)
  have hka : p.parserResult.setKa = .keepAlive := by rw [hfresh.parserResult]
  obtain ⟨hflag, hnoFlag⟩ := foldl_eq_of_name HeaderLine.flag connectionKey
    (fun x l hl ↦ if_neg hl) hwell.distinct p.parserResult.setKa
  obtain ⟨hlength, hnoLength⟩ := foldl_eq_of_name HeaderLine.length contentLengthKey
    (fun x l hl ↦ if_neg hl) hwell.distinct 0
  refine ⟨q, hparse, ?_, ?_⟩
  · constructor
    case method => exact hreported.method.trans hread.method
    case versionMajor =>
      rw [hreported.versionMajor, hread.vMajor, hwell.major_eq]
      decide
    case versionMinor =>
      rw [hreported.versionMinor, hread.vMinor]
      rcases hwell.minor_eq with hminor | hminor <;> rw [hminor] <;> decide
    case uri =>
      have huri := hreported.uri (hread.uri ▸ h.uri_ne)
      rw [huri.bytes_eq, hread.uri]
    case values =>
      intro l hl
      exact hvalues l.pair (List.mem_map.mpr ⟨l, hl, rfl⟩)
    case noValue => exact hnoValue
    case contentLength =>
      intro l hl hname
      obtain ⟨hdigits, hlt⟩ := hwell.lengths l hl hname
      have hwhole : l.value.takeWhile isDigit = l.value := List.takeWhile_eq_self_iff.mpr hdigits
      rw [hreported.contentLength, hread.contentLength, hlength l hl hname, HeaderLine.length,
        if_pos hname, hwhole, Scan.foldl_pushDigit_zero, Decimal.wrap_of_lt (by decide) hlt]
      omega
    case noContentLength =>
      intro hnone
      rw [hreported.contentLength, hread.contentLength, hnoLength hnone]
      rfl
    case flag =>
      intro l hl hname
      have hkeys : keepAliveValue ≠ closeValue := by decide
      rw [hreported.flag, hread.setKa, hflag l hl hname, HeaderLine.flag, if_pos hname]
      rcases hwell.legal l hl hname with hvalue | hvalue
      · rw [hvalue, if_pos rfl, if_neg hkeys]
      · rw [hvalue, if_neg hkeys.symm, if_pos rfl]
    case noFlag =>
      intro hnone
      rw [hreported.flag, hread.setKa, hnoFlag hnone, hka]
  · rw [hbuffer, UserBuffer.unread_read, hunread, List.drop_left]

/-- `GET / HTTP/1.1` with a `Host` and nothing else. -/
def plainHead : RequestHead where
  leading := 0
  method := .hrGet
  gap := 0
  uri := text "/"
  gap' := 0
  major := text "1"
  minor := text "1"
  lines := [{
    name := text "Host", pad := 1, value := text "a", lineEnd := lf
    name_ne := by decide, name_chars := forall_mem_of_all rfl, value_ne := by decide
    value_chars := forall_mem_of_all rfl }]
  method_known := by decide
  uri_ne := by decide
  uri_chars := forall_mem_of_all rfl
  major_digits := forall_mem_of_all rfl
  minor_digits := forall_mem_of_all rfl

theorem plainHead_wellFormed : plainHead.WellFormed := by
  refine ⟨rfl, .inr rfl, by decide, ?_, ?_, by decide, by decide⟩
  · unfold HeaderLine.Trimmed
    decide
  · unfold HeaderLine.Legal
    decide

theorem startingParser_exact_plainHead :
    ∃ q, startingParser .sample (holding .zero (plainHead.encode ++ text "next") (by decide)) =
      .ok .hpfContent q ∧ Records .sample plainHead q ∧ q.userBuffer.unread = text "next" :=
  startingParser_exact (holding_fresh _ _) plainHead_wellFormed (unread_holding _ _)

end HttpParser

end LWebServer
