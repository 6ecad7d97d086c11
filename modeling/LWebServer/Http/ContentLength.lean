import LWebServer.Http.Acceptance
import LWebServer.Http.Progress
import Mathlib.Data.List.TakeWhile

/-!
# The length that a request announces

The digits of all `Content-Length` values run into one `int`. A value that is no number is read up
to its first other character, and the fault recorded for it is overwritten by the success of the
parse.
-/

namespace LWebServer

open HttpParser

namespace Decimal

theorem value_append (digits more : List ℕ) :
    value (digits ++ more) = value digits * 10 ^ more.length + value more := by
  induction more using List.reverseRecOn with
  | nil => simp
  | append_singleton more d ih =>
    have hsnoc (digits : List ℕ) : value (digits ++ [d]) = value digits * 10 + d := by
      simp [value]
    rw [← List.append_assoc, hsnoc, hsnoc, ih, List.length_append, List.length_singleton, pow_succ]
    ring

end Decimal

theorem numeral_append (digits more : List Byte) :
    numeral (digits ++ more) = numeral digits * 10 ^ more.length + numeral more := by
  rw [numeral, List.map_append, Decimal.value_append, List.length_map]
  rfl

/-! ## One value or several -/

/-- What the values but the last weigh in the number that all of them write together, each counting
as one. -/
def repetition : List (List Byte) → ℕ
  | [] => 0
  | [_] => 0
  | _ :: v :: values => 10 ^ (v :: values).flatten.length + repetition (v :: values)

/-- Values of one number, written one behind the other. -/
theorem numeral_flatten {values : List (List Byte)} {n : ℕ} (hne : values ≠ [])
    (hsame : ∀ v ∈ values, numeral v = n) :
    numeral values.flatten = n + n * repetition values := by
  induction values with
  | nil => exact absurd rfl hne
  | cons v values ih =>
    have hv := hsame v List.mem_cons_self
    cases values with
    | nil => simp [repetition, hv]
    | cons v' values =>
      have hrest := ih (List.cons_ne_nil _ _) fun w hw ↦ hsame w (List.mem_cons_of_mem _ hw)
      rw [List.flatten_cons, numeral_append, hv, hrest, repetition]
      ring

/-- What is recorded for a number: it is taken to an `int`, and that to a `size_t`. -/
def recorded (n : ℕ) : ℕ := (Decimal.wrap 32 n % 2 ^ 64).toNat

theorem recorded_eq_iff (n m : ℕ) : recorded (n + m) = n ↔
    (n < 2 ^ 31 ∨ 2 ^ 64 - 2 ^ 31 ≤ n ∧ n < 2 ^ 64) ∧ 2 ^ 32 ∣ m := by
  unfold recorded Decimal.wrap
  rw [Int.bmod_def]
  split_ifs with hhalf
  · omega
  · omega

/-! ## Heads -/

/-- The values announce a length: each of them is a numeral of it. No value announces 0. -/
structure Announces (values : List (List Byte)) (length : ℕ) : Prop where
  digits : ∀ v ∈ values, ∀ ch ∈ v, isDigit ch
  numeral_eq : ∀ v ∈ values, numeral v = length
  none : values = [] → length = 0

/-- The values are numerals of one number, which is kept by the two conversions and stays the same
if it is written several times. -/
structure Unequivocal (values : List (List Byte)) : Prop where
  digits : ∀ v ∈ values, ∀ ch ∈ v, isDigit ch
  same : ∀ v ∈ values, ∀ v' ∈ values, numeral v = numeral v'
  kept : ∀ v ∈ values, numeral v < 2 ^ 31 ∨ 2 ^ 64 - 2 ^ 31 ≤ numeral v ∧ numeral v < 2 ^ 64
  repeated : ∀ v ∈ values, 2 ^ 32 ∣ numeral v * repetition values

/-- A single value is repeated by nothing. -/
theorem unequivocal_singleton {v : List Byte} (hdigits : ∀ ch ∈ v, isDigit ch)
    (hkept : numeral v < 2 ^ 31) : Unequivocal [v] where
  digits := List.forall_mem_singleton.mpr hdigits
  same := List.forall_mem_singleton.mpr (List.forall_mem_singleton.mpr rfl)
  kept := List.forall_mem_singleton.mpr (.inl hkept)
  repeated := List.forall_mem_singleton.mpr (dvd_zero _)

/-- A value adds its digits, up to the first other character. -/
def pushValue (x : ℤ) (v : List Byte) : ℤ := (v.takeWhile isDigit).foldl pushDigit x

theorem foldl_pushValue {values : List (List Byte)}
    (hdigits : ∀ v ∈ values, ∀ ch ∈ v, isDigit ch) (x : ℤ) :
    values.foldl pushValue x = values.flatten.foldl pushDigit x := by
  induction values generalizing x with
  | nil => rfl
  | cons v values ih =>
    have hwhole : v.takeWhile isDigit = v :=
      List.takeWhile_eq_self_iff.mpr (hdigits v List.mem_cons_self)
    rw [List.foldl_cons, ih fun w hw ↦ hdigits w (List.mem_cons_of_mem _ hw), pushValue, hwhole,
      List.flatten_cons, List.foldl_append]

/-- Values that are numerals of one number. -/
theorem recorded_of_same {values : List (List Byte)} {n : ℕ}
    (hdigits : ∀ v ∈ values, ∀ ch ∈ v, isDigit ch) (hne : values ≠ [])
    (hsame : ∀ v ∈ values, numeral v = n) :
    (values.foldl pushValue 0 % 2 ^ 64).toNat = recorded (n + n * repetition values) := by
  rw [foldl_pushValue hdigits, Scan.foldl_pushDigit_zero, numeral_flatten hne hsame]
  rfl

/-- The length recorded for some values is the one announced exactly if they are unequivocal. -/
theorem announces_foldl_iff (values : List (List Byte)) :
    Announces values (values.foldl pushValue 0 % 2 ^ 64).toNat ↔ Unequivocal values := by
  constructor
  · rintro ⟨hdigits, hnumeral, -⟩
    have hrecorded {v : List Byte} (hv : v ∈ values) :
        recorded (numeral v + numeral v * repetition values) = numeral v := by
      have hsame : ∀ w ∈ values, numeral w = numeral v := fun w hw ↦
        (hnumeral w hw).trans (hnumeral v hv).symm
      rw [← recorded_of_same hdigits (List.ne_nil_of_mem hv) hsame]
      exact (hnumeral v hv).symm
    refine ⟨hdigits, fun v hv v' hv' ↦ (hnumeral v hv).trans (hnumeral v' hv').symm, ?_, ?_⟩
    · exact fun v hv ↦ ((recorded_eq_iff _ _).mp (hrecorded hv)).1
    · exact fun v hv ↦ ((recorded_eq_iff _ _).mp (hrecorded hv)).2
  · rintro ⟨hdigits, hsame, hkept, hrepeated⟩
    refine ⟨hdigits, fun v hv ↦ ?_, fun hnone ↦ ?_⟩
    · rw [recorded_of_same hdigits (List.ne_nil_of_mem hv) fun w hw ↦ hsame w hw v hv]
      exact ((recorded_eq_iff _ _).mpr ⟨hkept v hv, hrepeated v hv⟩).symm
    · rw [hnone]
      rfl

namespace RequestHead

/-- The values of the `Content-Length` headers. -/
def lengthValues (h : RequestHead) : List (List Byte) :=
  (h.headers.filter fun header ↦ header.1 = contentLengthKey).map Prod.snd

theorem foldl_length (h : RequestHead) (x : ℤ) :
    h.lines.foldl HeaderLine.length x = h.lengthValues.foldl pushValue x := by
  unfold lengthValues headers
  induction h.lines generalizing x with
  | nil => rfl
  | cons l lines ih =>
    rw [List.foldl_cons, List.map_cons, List.filter_cons, ih]
    unfold HeaderLine.length HeaderLine.pair
    dsimp only
    split_ifs with hname hsame hsame
    · rfl
    · exact absurd (decide_eq_true hname) hsame
    · exact absurd (of_decide_eq_true hsame) hname
    · rfl

/-- Two accepted heads at one place have the same headers. -/
theorem headers_eq_of_prefix {h h' : RequestHead} (haccepted : h.Accepted)
    (haccepted' : h'.Accepted) {t : List Byte} (hhead : h.encode <+: t)
    (hhead' : h'.encode <+: t) : h.headers = h'.headers := by
  have hread := Scan.headRead_of_prefix haccepted hhead .keepAlive .hpfOK
  have hread' := Scan.headRead_of_prefix haccepted' hhead' .keepAlive .hpfOK
  exact hread.headers.symm.trans hread'.headers

end RequestHead

namespace HttpParser

/-- If a call succeeds, the request read by it announces the length that the call records. -/
def LengthExact (table : HeaderTable) (p : HttpParser) : Prop :=
  ∀ q, startingParser table p = .ok .hpfContent q →
    ∃ h : RequestHead, h.Accepted ∧ h.encode <+: p.userBuffer.unread ∧
      Announces h.lengthValues q.requestResult.contentLength

variable {table : HeaderTable} {p q : HttpParser}

/-- A call that succeeds has read a head. -/
theorem Ready.exists_head (hready : p.Ready) (hwhole : Whole p.requestResult.headerValue)
    (hcall : startingParser table p = .ok .hpfContent q) :
    ∃ h : RequestHead, h.Accepted ∧ h.encode <+: p.userBuffer.unread := by
  have hstart : ∃ fault, fault ≠ .hpfContent ∧
      p.scanStart.mark p.parserAble = Scan.start p.parserResult.setKa fault := by
    unfold Scan.mark
    split_ifs
    · exact ⟨_, hready.fault, rfl⟩
    · exact ⟨_, HttpParserFault.noConfusion, rfl⟩
  obtain ⟨fault, hfault, hmark⟩ := hstart
  rw [← Scan.scan_accepts_iff p.parserResult.setKa hfault, ← hmark]
  rcases (hready.tracks table _).startingParser_follows hready.extrabuffer (hwhole.known _)
    hready.readSpot_le with ⟨-, q', hcall', -⟩ | ⟨-, q', hcall'⟩
  · rw [hcall] at hcall'
    injection hcall' with hfault'
    exact hfault'.symm
  · rw [hcall] at hcall'
    cases hcall'

/-- What is recorded for a head. -/
theorem Ready.startingParser_length (hready : p.Ready)
    (hwhole : Whole p.requestResult.headerValue) {h : RequestHead} (haccepted : h.Accepted)
    (hstarts : h.encode <+: p.userBuffer.unread) : ∃ q,
      startingParser table p = .ok .hpfContent q ∧
        q.requestResult.contentLength = (h.lengthValues.foldl pushValue 0 % 2 ^ 64).toNat := by
  obtain ⟨rest, hrest⟩ := hstarts
  obtain ⟨q, c, hcall, hread, -, hreported, -⟩ :=
    hready.startingParser_head table (hwhole.known _) haccepted hrest.symm
  refine ⟨q, hcall, ?_⟩
  rw [hreported.contentLength, hread.contentLength, h.foldl_length]

theorem LengthExact.unequivocal (hexact : LengthExact table p) (hready : p.Ready)
    (hwhole : Whole p.requestResult.headerValue) {h : RequestHead} (haccepted : h.Accepted)
    (hstarts : h.encode <+: p.userBuffer.unread) : Unequivocal h.lengthValues := by
  obtain ⟨q, hcall, hlength⟩ := hready.startingParser_length hwhole haccepted hstarts
  obtain ⟨h', haccepted', hstarts', hannounces⟩ := hexact q hcall
  have hheaders := RequestHead.headers_eq_of_prefix haccepted' haccepted hstarts' hstarts
  rw [hlength, RequestHead.lengthValues, hheaders] at hannounces
  exact (announces_foldl_iff _).mp hannounces

/-- The length of a request is exact exactly if its `Content-Length` headers are unequivocal. -/
theorem lengthExact_iff (table : HeaderTable) (hready : p.Ready)
    (hwhole : Whole p.requestResult.headerValue) : LengthExact table p ↔
      ∀ h : RequestHead, h.Accepted → h.encode <+: p.userBuffer.unread →
        Unequivocal h.lengthValues := by
  constructor
  · exact fun hexact h haccepted hstarts ↦ hexact.unequivocal hready hwhole haccepted hstarts
  · intro hall q hcall
    obtain ⟨h, haccepted, hstarts⟩ := hready.exists_head hwhole hcall
    obtain ⟨q', hcall', hlength⟩ := hready.startingParser_length hwhole haccepted hstarts
    cases hcall.symm.trans hcall'
    refine ⟨h, haccepted, hstarts, ?_⟩
    rw [hlength]
    exact (announces_foldl_iff _).mpr (hall h haccepted hstarts)

theorem contentLengthKey_ne_nil : contentLengthKey ≠ [] := by decide

theorem isHeader_contentLengthKey : ∀ ch ∈ contentLengthKey, isHeader ch :=
  forall_mem_of_all rfl

/-- A head whose length is 12. -/
def lengthHead : RequestHead := { plainHead with
  lines := plainHead.lines ++ [{
    name := contentLengthKey, pad := 1, value := text "12", lineEnd := lf
    name_ne := contentLengthKey_ne_nil, name_chars := isHeader_contentLengthKey
    value_ne := by decide, value_chars := forall_mem_of_all rfl }] }

theorem lengthHead_accepted : lengthHead.Accepted := by
  refine ⟨plainHead_wellFormed.accepted.supported, ?_, ?_⟩
  · unfold HeaderLine.Legal
    decide
  · unfold HeaderLine.Trimmed
    decide

theorem lengthExact_iff_lengthHead :
    LengthExact .sample (holding .zero (lengthHead.encode ++ text "hello, world") (by decide)) := by
  apply (lengthExact_iff .sample (holding_fresh _ _).ready
    fun _ hentry ↦ absurd hentry List.not_mem_nil).mpr
  intro h haccepted hstarts
  rw [unread_holding] at hstarts
  have hheaders := RequestHead.headers_eq_of_prefix haccepted lengthHead_accepted hstarts
    (List.prefix_append _ _)
  have hvalues : h.lengthValues = [text "12"] := by
    rw [RequestHead.lengthValues, hheaders]
    decide
  have hnumeral : numeral (text "12") = 12 := by decide
  rw [hvalues]
  apply unequivocal_singleton (forall_mem_of_all rfl)
  omega

/-- A head whose length is `5x`. -/
def letterHead : RequestHead := { plainHead with
  lines := [{
    name := contentLengthKey, pad := 1, value := text "5x", lineEnd := lf
    name_ne := contentLengthKey_ne_nil, name_chars := isHeader_contentLengthKey
    value_ne := by decide, value_chars := forall_mem_of_all rfl }] }

theorem letterHead_accepted : letterHead.Accepted := by
  refine ⟨plainHead_wellFormed.accepted.supported, ?_, ?_⟩
  · unfold HeaderLine.Legal
    decide
  · unfold HeaderLine.Trimmed
    decide

/-- It is taken for a length of 5. -/
theorem not_lengthExact_letterHead :
    ¬ LengthExact .sample (holding .zero letterHead.encode (by decide)) := by
  intro hexact
  have hstarts : letterHead.encode <+:
      (holding .zero letterHead.encode (by decide)).userBuffer.unread := by
    simp only [unread_holding, List.prefix_rfl]
  have hdigits := (hexact.unequivocal (holding_fresh _ _).ready
    (fun _ hentry ↦ absurd hentry List.not_mem_nil) letterHead_accepted hstarts).digits
  have hdigit : isDigit 0x78 := hdigits (text "5x") (by decide) 0x78 (by decide)
  exact absurd hdigit (by decide)

end HttpParser

end LWebServer
