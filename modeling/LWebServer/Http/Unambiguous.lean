import LWebServer.Http.Soundness
import LWebServer.Library.Span
import Mathlib.Data.List.Forall2

/-!
# Which heads the machine accepts

The text of a head determines its parts, and success of the machine means that its input starts
with an accepted head.
-/

namespace LWebServer

open HttpParser

/-! ## The text of a head determines its parts -/

theorem isBlank_of_mem_blanks {n : ℕ} : ∀ ch ∈ blanks n, (ch == ascii ' ') = true := by
  intro ch hch
  rw [List.eq_of_mem_replicate hch]
  rfl

theorem HttpRequestMethod.word_inj {method method' : HttpRequestMethod} (hknown : method.word ≠ [])
    (hword : method.word = method'.word) : method = method' := by
  cases method <;> cases method' <;> first | rfl | (revert hword hknown; decide)

theorem HttpRequestMethod.word_nonblank (method : HttpRequestMethod) :
    ∀ ch ∈ method.word, (ch != ascii ' ') = true := by
  cases method <;> exact forall_mem_of_all rfl

/-- The same line, up to the split of its blanks. -/
def HeaderLine.Same (l l' : HeaderLine) : Prop :=
  l.name = l'.name ∧ blanks l.pad ++ l.value = blanks l'.pad ++ l'.value ∧ l.lineEnd = l'.lineEnd

theorem isValue_of_mem_padded (l : HeaderLine) :
    ∀ ch ∈ blanks l.pad ++ l.value, isValue ch = true := by
  intro ch hch
  rcases List.mem_append.mp hch with hpad | hvalue
  · rw [List.eq_of_mem_replicate hpad]
    decide
  · exact l.value_chars ch hvalue

theorem lines_inj {lines lines' : List HeaderLine}
    (hencode : lines.flatMap HeaderLine.encode ++ [cr, lf] =
      lines'.flatMap HeaderLine.encode ++ [cr, lf]) :
    List.Forall₂ HeaderLine.Same lines lines' := by
  have hfirst (l : HeaderLine) (rest : List Byte) : [cr, lf] ≠ l.encode ++ rest := by
    obtain ⟨ch, name, hname⟩ := List.exists_cons_of_ne_nil l.name_ne
    have hch := l.name_chars ch (by rw [hname]; exact List.mem_cons_self)
    intro heq
    simp only [HeaderLine.encode, hname, List.cons_append, List.cons.injEq] at heq
    rw [← heq.1] at hch
    exact absurd hch (by decide)
  have hhead (l : HeaderLine) (rest : List Byte) : l.encode ++ rest =
      l.name ++ ascii ':' :: ((blanks l.pad ++ l.value) ++ cr :: l.lineEnd :: rest) := by
    simp [HeaderLine.encode]
  induction lines generalizing lines' with
  | nil =>
    cases lines' with
    | nil => exact .nil
    | cons l' lines' =>
      rw [List.flatMap_cons, List.append_assoc] at hencode
      exact absurd hencode (hfirst l' _)
  | cons l lines ih =>
    cases lines' with
    | nil =>
      rw [List.flatMap_cons, List.append_assoc] at hencode
      exact absurd hencode.symm (hfirst l _)
    | cons l' lines' =>
      rw [List.flatMap_cons, List.flatMap_cons, List.append_assoc, List.append_assoc, hhead,
        hhead] at hencode
      obtain ⟨hname, -, hrest⟩ := Span.append_cons_inj isHeader l.name_chars l'.name_chars
        (by decide) (by decide) hencode
      obtain ⟨hvalue, -, hrest⟩ := Span.append_cons_inj isValue (isValue_of_mem_padded l)
        (isValue_of_mem_padded l') (by decide) (by decide) hrest
      obtain ⟨hend, htail⟩ := List.cons.inj hrest
      exact .cons ⟨hname, hvalue, hend⟩ (ih htail)

namespace RequestHead

/-- The text of a head determines its parts. -/
theorem encode_inj {h h' : RequestHead} (hencode : h.encode = h'.encode) :
    h.method = h'.method ∧ h.uri = h'.uri ∧ h.major = h'.major ∧ h.minor = h'.minor ∧
      List.Forall₂ HeaderLine.Same h.lines h'.lines := by
  have hshape (h : RequestHead) : h.encode = blanks h.leading ++ (h.method.word ++
      ascii ' ' :: (blanks h.gap ++ (h.uri ++ ascii ' ' :: (blanks h.gap' ++ (text "HTTP/" ++
        (h.major ++ ascii '.' :: (h.minor ++ cr :: lf ::
          (h.lines.flatMap HeaderLine.encode ++ [cr, lf]))))))))  := by
    simp [encode, startLine, blanks, List.replicate_succ]
  rw [hshape, hshape] at hencode
  have hcut {n n' : ℕ} {part part' rest rest' : List Byte} (hpart : part ≠ [])
      (hpart' : part' ≠ []) (hblank : ∀ ch ∈ part, (ch == ascii ' ') = false)
      (hblank' : ∀ ch ∈ part', (ch == ascii ' ') = false)
      (heq : blanks n ++ (part ++ rest) = blanks n' ++ (part' ++ rest')) :
      part ++ rest = part' ++ rest' := by
    obtain ⟨b, bs, rfl⟩ := List.exists_cons_of_ne_nil hpart
    obtain ⟨b', bs', rfl⟩ := List.exists_cons_of_ne_nil hpart'
    obtain ⟨-, hb, hbs⟩ := Span.append_cons_inj (· == ascii ' ') isBlank_of_mem_blanks
      isBlank_of_mem_blanks (hblank b List.mem_cons_self) (hblank' b' List.mem_cons_self) heq
    exact congrArg₂ List.cons hb hbs
  have hword (h : RequestHead) : ∀ ch ∈ h.method.word, (ch == ascii ' ') = false :=
    fun ch hch ↦ by simpa using h.method.word_nonblank ch hch
  have huri (h : RequestHead) : ∀ ch ∈ h.uri, (ch == ascii ' ') = false := fun ch hch ↦ by
    simpa using Scan.ne_blank_of_isUri (h.uri_chars ch hch)
  have hhttp : ∀ ch ∈ text "HTTP/", (ch == ascii ' ') = false :=
    forall_mem_of_all rfl
  obtain ⟨hmethod, -, hrest⟩ := Span.append_cons_inj (· != ascii ' ')
    h.method.word_nonblank h'.method.word_nonblank (by decide) (by decide)
    (hcut h.method_known h'.method_known (hword h) (hword h') hencode)
  obtain ⟨huriEq, -, hrest⟩ := Span.append_cons_inj isUri h.uri_chars h'.uri_chars (by decide)
    (by decide) (hcut h.uri_ne h'.uri_ne (huri h) (huri h') hrest)
  have hversion := List.append_cancel_left
    (hcut (by decide) (by decide) hhttp hhttp hrest)
  obtain ⟨hmajor, -, hrest⟩ := Span.append_cons_inj isDigit h.major_digits h'.major_digits
    (by decide) (by decide) hversion
  obtain ⟨hminor, -, hrest⟩ := Span.append_cons_inj isDigit h.minor_digits h'.minor_digits
    (by decide) (by decide) hrest
  obtain ⟨-, hlines⟩ := List.cons.inj hrest
  exact ⟨HttpRequestMethod.word_inj h.method_known hmethod, huriEq, hmajor, hminor,
    lines_inj hlines⟩

end RequestHead

/-! ## Acceptance -/

namespace Scan

theorem history_scan (setKa : HttpFlag) {fault : HttpParserFault} (hfault : fault ≠ .hpfContent)
    (s : List Byte) : History s ((start setKa fault).scan s) :=
  Online.feed_history (history_start setKa hfault) (fun _ _ ch h ↦ h.step ch) s

theorem ended_scan_encode {h : RequestHead} (haccepted : h.Accepted) (setKa : HttpFlag)
    (fault : HttpParserFault) : ((start setKa fault).scan h.encode).ended := by
  rw [scan_encode haccepted]
  rfl

/-- Behind an accepted head nothing changes any more. -/
theorem scan_encode_append {h : RequestHead} (haccepted : h.Accepted) (setKa : HttpFlag)
    (fault : HttpParserFault) (rest : List Byte) :
    (start setKa fault).scan (h.encode ++ rest) = (start setKa fault).scan h.encode := by
  rw [scan_append, scan_of_ended (ended_scan_encode haccepted setKa fault)]

theorem headRead_of_prefix {h : RequestHead} (haccepted : h.Accepted) {t : List Byte}
    (hhead : h.encode <+: t) (setKa : HttpFlag) (fault : HttpParserFault) :
    HeadRead h setKa ((start setKa fault).scan t) := by
  obtain ⟨rest, rfl⟩ := hhead
  rw [scan_encode_append haccepted]
  exact headRead_scan haccepted setKa fault

/-- Success means that the input starts with an accepted head. -/
theorem scan_accepts_iff (setKa : HttpFlag) {fault : HttpParserFault}
    (hfault : fault ≠ .hpfContent) (s : List Byte) :
    ((start setKa fault).scan s).fault = .hpfContent ↔
      ∃ h : RequestHead, h.Accepted ∧ h.encode <+: s := by
  constructor
  · intro hcontent
    have hhistory := history_scan setKa hfault s
    have hended : ((start setKa fault).scan s).ended := by
      by_contra hended
      exact hhistory.fault hended hcontent
    have hreads := hhistory.reads
    unfold Reads at hreads
    rw [show ((start setKa fault).scan s).status = _ from hended] at hreads
    obtain ⟨h, rest, haccepted, hs, -⟩ := hreads hcontent
    exact ⟨h, haccepted, rest, hs.symm⟩
  · rintro ⟨h, haccepted, rest, rfl⟩
    rw [scan_encode_append haccepted, scan_encode haccepted]

end Scan

end LWebServer
