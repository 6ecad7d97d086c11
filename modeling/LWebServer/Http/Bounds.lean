import LWebServer.Http.Starting

/-!
# Where the views end

While nothing is shifted, the views of a parse end at the read position or below it, and a complete
one has a byte behind it. What a view designates therefore lies below the write position.
-/

namespace LWebServer

open Memory UserBuffer

/-- How far a view has come: it is not set, it grows with each byte, or it is complete. -/
inductive Stage where
  | idle | growing | complete

namespace HttpParserStatus

def uriStage : HttpParserStatus → Stage
  | hpsOK | hpsGet | hpsPost | hpsOption | hpsHead | hpsDelete | hpsBetweenMU | hpsUriStart => .idle
  | hpsUriParser => .growing
  | _ => .complete

def headerStage : HttpParserStatus → Stage
  | hpsHeader => .growing
  | hpsColon | hpsHeaderValue | hpsStoreHeader => .complete
  | _ => .idle

def valueStage : HttpParserStatus → Stage
  | hpsHeaderValue => .growing
  | hpsStoreHeader => .complete
  | _ => .idle

end HttpParserStatus

namespace ParsedHeader

/-- The view ends at a position or below it, if it is set. -/
def Within (spot : ℕ) (v : ParsedHeader) : Prop := ∀ start, v.header = some start →
  start + v.length ≤ spot

theorem Within.mono {spot spot' : ℕ} {v : ParsedHeader} (hwithin : v.Within spot)
    (hle : spot ≤ spot') : v.Within spot' := fun start hstart ↦ (hwithin start hstart).trans hle

/-- Where a view of the bytes before `spot` can end: there is a byte behind a complete one. -/
def Placed (v : ParsedHeader) (spot : ℕ) : Stage → Prop
  | .idle => v = ⟨none, 1⟩
  | .growing => ∃ start, v.header = some start ∧ start + v.length ≤ spot
  | .complete => ∃ start, v.header = some start ∧ start + v.length < spot

namespace Placed

variable {v : ParsedHeader} {spot spot' : ℕ} {stage : Stage}

theorem mono (hplaced : v.Placed spot stage) (hle : spot ≤ spot') : v.Placed spot' stage := by
  cases stage with
  | idle => exact hplaced
  | growing =>
    obtain ⟨start, hstart, hend⟩ := hplaced
    exact ⟨start, hstart, hend.trans hle⟩
  | complete =>
    obtain ⟨start, hstart, hend⟩ := hplaced
    exact ⟨start, hstart, hend.trans_le hle⟩

/-- A byte is read that is not part of the view. -/
theorem closed (hplaced : v.Placed spot .growing) : v.Placed (spot + 1) .complete := by
  obtain ⟨start, hstart, hend⟩ := hplaced
  exact ⟨start, hstart, Nat.lt_succ_of_le hend⟩

theorem opened (hplaced : v.Placed spot .idle) :
    Placed ⟨some spot, v.length⟩ (spot + 1) .growing := by
  obtain rfl : v = ⟨none, 1⟩ := hplaced
  exact ⟨spot, rfl, le_rfl⟩

theorem extended (hplaced : v.Placed spot .growing) :
    Placed ⟨v.header, v.length + 1⟩ (spot + 1) .growing := by
  obtain ⟨start, hstart, hend⟩ := hplaced
  exact ⟨start, hstart, Nat.succ_le_succ hend⟩

theorem within (hplaced : v.Placed spot stage) : v.Within spot := by
  intro start hstart
  cases stage with
  | idle =>
    obtain rfl : v = ⟨none, 1⟩ := hplaced
    cases hstart
  | growing =>
    obtain ⟨start', hstart', hend⟩ := hplaced
    cases hstart.symm.trans hstart'
    exact hend
  | complete =>
    obtain ⟨start', hstart', hend⟩ := hplaced
    cases hstart.symm.trans hstart'
    exact hend.le

end Placed

end ParsedHeader

/-- The views of a parse under which nothing has been shifted. Where `live` fails nothing is said of
them. -/
structure HttpParserContent.Kept (live : Prop) (c : HttpParserContent) (spot : ℕ) : Prop where
  uri : live → c.status ≠ .hpsGameOver → c.uriView.Placed spot c.status.uriStage
  header : live → c.status ≠ .hpsGameOver → c.headerView.Placed spot c.status.headerStage
  value : live → c.status ≠ .hpsGameOver → c.valueView.Placed spot c.status.valueStage
  ended : c.fault = .hpfContent → c.status = .hpsGameOver
  content : live → c.fault = .hpfContent → c.uriView.Placed spot .complete

namespace HttpParser

variable {table : HeaderTable} {p q : HttpParser} {live : Prop}

theorem kept_mono {c : HttpParserContent} {spot spot' : ℕ} (hkept : c.Kept live spot)
    (hle : spot ≤ spot') : c.Kept live spot' :=
  ⟨fun hlive h ↦ (hkept.uri hlive h).mono hle, fun hlive h ↦ (hkept.header hlive h).mono hle,
    fun hlive h ↦ (hkept.value hlive h).mono hle, hkept.ended,
    fun hlive h ↦ (hkept.content hlive h).mono hle⟩

/-- A `case` that looks at one byte. -/
theorem kept_byte {ch : Byte} {jump : Jump} (hkept : p.parserResult.Kept live p.userBuffer.readSpot)
    (hstatus : p.parserResult.status ∈ [HttpParserStatus.hpsOK, .hpsBetweenMU, .hpsVersionMajor,
      .hpsVersionMinor, .hpsVersionEnd, .hpsCRLFCR, .hpsUriStart, .hpsUriParser, .hpsLF, .hpsHeader,
      .hpsColon, .hpsHeaderValue])
    (hcases : cases table ch p = .ok jump q) :
    jump = .break ∧ ∃ c, q = { p with parserResult := c } ∧
      c.Kept live (p.userBuffer.readSpot + 1) := by
  have hrunning : p.parserResult.status ≠ .hpsGameOver := by
    intro hover
    simp [hover] at hstatus
  have huri := fun hlive ↦ hkept.uri hlive hrunning
  have hheader := fun hlive ↦ hkept.header hlive hrunning
  have hvalue := fun hlive ↦ hkept.value hlive hrunning
  have hcontent : p.parserResult.fault ≠ .hpfContent := fun h ↦ hrunning (hkept.ended h)
  simp only [List.mem_cons, List.not_mem_nil, or_false] at hstatus
  rcases hstatus with h | h | h | h | h | h | h | h | h | h | h | h
  all_goals
    rw [h] at huri hheader hvalue
    simp only [cases, h] at hcases
    split_ifs at hcases
  all_goals
    cases hcases
    refine ⟨rfl, _, rfl, ?_, ?_, ?_, ?_, ?_⟩
  all_goals first
    | exact fun _ hover ↦ absurd rfl hover
    | exact fun hfault ↦ absurd hfault hcontent
    | exact fun _ hfault ↦ absurd hfault hcontent
    | exact fun _ ↦ rfl
    | exact fun hlive _ ↦ (huri hlive).mono (Nat.le_succ _)
    | exact fun hlive _ ↦ (hheader hlive).mono (Nat.le_succ _)
    | exact fun hlive _ ↦ (hvalue hlive).mono (Nat.le_succ _)
    | exact fun hlive _ ↦ (huri hlive).closed
    | exact fun hlive _ ↦ (huri hlive).opened
    | exact fun hlive _ ↦ (huri hlive).extended
    | exact fun hlive _ ↦ (hheader hlive).closed
    | exact fun hlive _ ↦ (hheader hlive).opened
    | exact fun hlive _ ↦ (hheader hlive).extended
    | exact fun hlive _ ↦ (hvalue hlive).closed
    | exact fun hlive _ ↦ (hvalue hlive).opened
    | exact fun hlive _ ↦ (hvalue hlive).extended
    | exact fun hfault ↦ HttpParserFault.noConfusion hfault
    | exact fun _ hfault ↦ HttpParserFault.noConfusion hfault

/-- The header map after a line has been stored. -/
theorem headerValue_storeHeader (v value : ParsedHeader) (r : HttpRequest) (mem : ℕ → Byte) :
    ∀ entry ∈ (r.storeHeader table mem v value).headerValue,
      entry ∈ r.headerValue ∨ entry = (v, value) := by
  intro entry hentry
  unfold HttpRequest.storeHeader at hentry
  split_ifs at hentry
  · exact .inl hentry
  · rcases List.mem_append.mp hentry with hold | hnew
    · exact .inl hold
    · exact .inr (List.mem_singleton.mp hnew)

/-- The `case` that stores a line. -/
theorem kept_storeHeader {jump : Jump} (hkept : p.parserResult.Kept live p.userBuffer.readSpot)
    (hstatus : p.parserResult.status = .hpsStoreHeader)
    (hstore : storeHeaderCase table p = .ok jump q) :
    jump = .break ∧ ∃ c, q = { p with
        parserResult := c
        requestResult := p.requestResult.storeHeader table p.userBuffer.buffer
          p.parserResult.headerView p.parserResult.valueView } ∧
      c.Kept live (p.userBuffer.readSpot + 1) := by
  have hrunning : p.parserResult.status ≠ .hpsGameOver := by
    rw [hstatus]
    decide
  have huri := fun hlive ↦ hkept.uri hlive hrunning
  rw [hstatus] at huri
  have hcontent : p.parserResult.fault ≠ .hpfContent := fun h ↦ hrunning (hkept.ended h)
  have hlater := fun hlive ↦ (huri hlive).mono (Nat.le_succ p.userBuffer.readSpot)
  simp only [storeHeaderCase, mapResult, Sees.contentLengthLoop_eq] at hstore
  split_ifs at hstore
  all_goals
    cases hstore
    refine ⟨rfl, _, rfl, ?_, ?_, ?_, ?_, ?_⟩
  all_goals first
    | exact fun _ hover ↦ absurd rfl hover
    | exact fun hlive _ ↦ hlater hlive
    | exact fun _ _ ↦ rfl
    | exact fun hfault ↦ absurd hfault hcontent
    | exact fun _ hfault ↦ absurd hfault hcontent
    | exact fun hfault ↦ HttpParserFault.noConfusion hfault

/-! ## Bounded parsers -/

/-- The views of the parser lie below the write position, and nothing has been shifted under them.
Where `live` fails nothing is said of them. -/
structure Bounded (live : Prop) (p : HttpParser) : Prop where
  kept : p.parserResult.Kept live p.userBuffer.readSpot
  entries : live → ∀ entry ∈ p.requestResult.headerValue,
    entry.1.Within p.userBuffer.writeSpot ∧ entry.2.Within p.userBuffer.writeSpot
  readSpot_le : p.parserResult.status ≠ .hpsGameOver ∨ p.parserResult.fault = .hpfContent →
    p.userBuffer.readSpot ≤ p.userBuffer.writeSpot

theorem lt_of_running (hbounded : p.Bounded live) (hrunning : p.running) :
    p.userBuffer.readSpot < p.userBuffer.writeSpot := by
  obtain ⟨hstatus, hreadable⟩ := hrunning
  have hle := hbounded.readSpot_le (.inl hstatus)
  unfold UserBuffer.readable at hreadable
  rw [sizeSub_of_le hle] at hreadable
  omega

/-- What a `case` does: the read position has moved over what the `case` took, and there is one more
byte to skip behind a `break`. -/
def Takes (live : Prop) (p : HttpParser) (jump : Jump) (q : HttpParser) : Prop :=
  ∃ n c request, q = { p with
      userBuffer := p.userBuffer.read n, parserResult := c, requestResult := request } ∧
    Bounded live { p with
      userBuffer := p.userBuffer.read (n + if jump = .break then 1 else 0)
      parserResult := c, requestResult := request } ∧
    0 < n + if jump = .break then 1 else 0

/-- A `case` that takes a word at once. -/
theorem takes_readWord {jump : Jump} {word : List Byte} {next : HttpParserStatus}
    {stm : HttpParserContent → HttpParserContent} {fault : HttpParserFault}
    (hbounded : p.Bounded live) (hrunning : p.running) (hword : word ≠ [])
    (huri : next.uriStage = p.parserResult.status.uriStage)
    (hheader : next.headerStage = p.parserResult.status.headerStage)
    (hvalue : next.valueStage = p.parserResult.status.valueStage)
    (hstm : ∃ method : HttpRequestMethod → HttpRequestMethod,
      stm = fun c ↦ { c with method := method c.method })
    (hfault : fault ≠ .hpfContent) (hread : readWord word next stm fault p = .ok jump q) :
    Takes live p jump q := by
  obtain ⟨method, rfl⟩ := hstm
  have hkept := hbounded.kept
  have hcontent : p.parserResult.fault ≠ .hpfContent := fun h ↦ hrunning.1 (hkept.ended h)
  have hpos := List.length_pos_of_ne_nil hword
  unfold readWord UserBuffer.readInto at hread
  by_cases hshort : p.userBuffer.writeSpot < p.userBuffer.readSpot + word.length
  · simp only [if_pos hshort] at hread
    cases hread
  have hlong := Nat.le_of_not_lt hshort
  simp only [if_neg hshort] at hread
  split_ifs at hread
  · cases hread
    have hmono := kept_mono hkept (Nat.le_add_right _ word.length)
    refine ⟨word.length, _, p.requestResult, rfl, ⟨⟨fun hlive _ ↦ ?_, fun hlive _ ↦ ?_,
      fun hlive _ ↦ ?_, fun h ↦ absurd h hcontent, fun _ h ↦ absurd h hcontent⟩, hbounded.entries,
      fun _ ↦ hlong⟩, hpos⟩
    · exact huri ▸ hmono.uri hlive hrunning.1
    · exact hheader ▸ hmono.header hlive hrunning.1
    · exact hvalue ▸ hmono.value hlive hrunning.1
  · cases hread
    refine ⟨word.length, _, p.requestResult, rfl, ⟨⟨fun _ h ↦ absurd rfl h,
      fun _ h ↦ absurd rfl h, fun _ h ↦ absurd rfl h, fun _ ↦ rfl, fun _ h ↦ absurd h hfault⟩,
      hbounded.entries, fun h ↦ ?_⟩, Nat.lt_succ_of_lt hpos⟩
    rcases h with h | h
    · exact absurd rfl h
    · exact absurd h hfault

theorem takes_cases {ch : Byte} {jump : Jump} (hbounded : p.Bounded live) (hrunning : p.running)
    (hcases : cases table ch p = .ok jump q) : Takes live p jump q := by
  have hkept := hbounded.kept
  have hlt := lt_of_running hbounded hrunning
  have hmethod {word : String} {method : HttpRequestMethod} (hword : text word ≠ [])
      (huri : p.parserResult.status.uriStage = .idle)
      (hheader : p.parserResult.status.headerStage = .idle)
      (hvalue : p.parserResult.status.valueStage = .idle)
      (hread : readMethod word method p = .ok jump q) : Takes live p jump q :=
    takes_readWord hbounded hrunning hword (by exact huri.symm) (by exact hheader.symm)
      (by exact hvalue.symm) ⟨fun _ ↦ method, rfl⟩ (by decide) hread
  have hbyte (hstatus : p.parserResult.status ∈ [HttpParserStatus.hpsOK, .hpsBetweenMU,
      .hpsVersionMajor, .hpsVersionMinor, .hpsVersionEnd, .hpsCRLFCR, .hpsUriStart, .hpsUriParser,
      .hpsLF, .hpsHeader, .hpsColon, .hpsHeaderValue]) : Takes live p jump q := by
    obtain ⟨rfl, c, rfl, hc⟩ := kept_byte hkept hstatus hcases
    exact ⟨0, c, p.requestResult, rfl, ⟨hc, hbounded.entries, fun _ ↦ hlt⟩, Nat.one_pos⟩
  cases hstatus : p.parserResult.status
  case hpsGameOver => exact absurd hstatus hrunning.1
  case hpsStoreHeader =>
    simp only [cases, hstatus] at hcases
    obtain ⟨rfl, c, rfl, hc⟩ := kept_storeHeader hkept hstatus hcases
    refine ⟨0, c, _, rfl, ⟨hc, fun hlive entry hentry ↦ ?_, fun _ ↦ hlt⟩, Nat.one_pos⟩
    rcases headerValue_storeHeader _ _ _ _ entry hentry with hold | rfl
    · exact hbounded.entries hlive entry hold
    · exact ⟨(hkept.header hlive hrunning.1).within.mono hlt.le,
        (hkept.value hlive hrunning.1).within.mono hlt.le⟩
  case hpsOption | hpsGet | hpsHead | hpsDelete | hpsPost =>
    simp only [cases, hstatus] at hcases
    exact hmethod (by decide) (by rw [hstatus]; rfl) (by rw [hstatus]; rfl)
      (by rw [hstatus]; rfl) hcases
  case hpsUriEnd =>
    simp only [cases, hstatus] at hcases
    split_ifs at hcases
    · have hlater := kept_mono hkept (Nat.le_succ _)
      have huri := fun hlive ↦ hlater.uri hlive hrunning.1
      have hheader := fun hlive ↦ hlater.header hlive hrunning.1
      have hvalue := fun hlive ↦ hlater.value hlive hrunning.1
      have hcontent : p.parserResult.fault ≠ .hpfContent := fun h ↦ hrunning.1 (hkept.ended h)
      rw [hstatus] at huri hheader hvalue
      cases hcases
      exact ⟨0, _, p.requestResult, rfl, ⟨⟨fun hlive _ ↦ huri hlive, fun hlive _ ↦ hheader hlive,
        fun hlive _ ↦ hvalue hlive, fun h ↦ absurd h hcontent, fun _ h ↦ absurd h hcontent⟩,
        hbounded.entries, fun _ ↦ hlt⟩, Nat.one_pos⟩
    · exact takes_readWord hbounded hrunning (by decide) (by rw [hstatus]; rfl)
        (by rw [hstatus]; rfl) (by rw [hstatus]; rfl) ⟨id, rfl⟩ (by decide) hcases
  all_goals exact hbyte (by simp [hstatus])

/-- A `case` that throws has changed nothing. -/
theorem cases_error {ch : Byte} {e : Fail} (hcases : cases table ch p = .error e q) : q = p := by
  have hword {word : List Byte} {next : HttpParserStatus}
      {stm : HttpParserContent → HttpParserContent} {fault : HttpParserFault}
      (hread : readWord word next stm fault p = .error e q) : q = p := by
    unfold readWord UserBuffer.readInto at hread
    by_cases hshort : p.userBuffer.writeSpot < p.userBuffer.readSpot + word.length
    · simp only [if_pos hshort] at hread
      cases hread
      rfl
    · simp only [if_neg hshort] at hread
      split_ifs at hread
      cases hread
  unfold cases at hcases
  cases hstatus : p.parserResult.status <;> simp only [hstatus] at hcases
  case hpsOption | hpsGet | hpsHead | hpsDelete | hpsPost => exact hword hcases
  case hpsUriEnd =>
    split_ifs at hcases
    · cases hcases
    · exact hword hcases
  case hpsStoreHeader =>
    simp only [storeHeaderCase] at hcases
    split_ifs at hcases <;> cases hcases
  case hpsGameOver => cases hcases
  all_goals split_ifs at hcases <;> cases hcases

theorem Bounded.imp {live' : Prop} (hbounded : p.Bounded live) (himp : live' → live) :
    p.Bounded live' :=
  ⟨⟨fun h ↦ hbounded.kept.uri (himp h), fun h ↦ hbounded.kept.header (himp h),
    fun h ↦ hbounded.kept.value (himp h), hbounded.kept.ended,
    fun h ↦ hbounded.kept.content (himp h)⟩, fun h ↦ hbounded.entries (himp h),
    hbounded.readSpot_le⟩

theorem Bounded.below (hbounded : p.Bounded live) (hlive : live) (hrunning : p.running) :
    p.parserResult.headerView.Within p.userBuffer.writeSpot ∧
      p.parserResult.valueView.Within p.userBuffer.writeSpot := by
  have hle := (lt_of_running hbounded hrunning).le
  exact ⟨(hbounded.kept.header hlive hrunning.1).within.mono hle,
    (hbounded.kept.value hlive hrunning.1).within.mono hle⟩

theorem Bounded.markShort (hbounded : p.Bounded live) : p.markShort.Bounded live := by
  unfold HttpParser.markShort
  split_ifs
  · exact hbounded
  · have hkept := hbounded.kept
    refine ⟨⟨hkept.uri, hkept.header, hkept.value, ?_, ?_⟩, hbounded.entries, ?_⟩
    · exact fun h ↦ HttpParserFault.noConfusion h
    · exact fun _ h ↦ HttpParserFault.noConfusion h
    · rintro (hstatus | hfault)
      · exact hbounded.readSpot_le (.inl hstatus)
      · exact HttpParserFault.noConfusion hfault

theorem unread_le_turnBound (p : HttpParser) : p.userBuffer.unread.length ≤ p.turnBound := by
  rw [UserBuffer.length_unread]
  calc p.userBuffer.writeSpot - p.userBuffer.readSpot
      ≤ p.userBuffer.bufferSize := (Nat.sub_le _ _).trans p.userBuffer.writeSpot_le
    _ ≤ p.userBuffer.bufferSize + 2 := Nat.le_add_right _ _
    _ ≤ p.turnBound := Nat.le_mul_of_pos_right _ (Nat.succ_pos _)

end HttpParser

end LWebServer
