import LWebServer.Http.Leftovers
import LWebServer.Http.Progress

/-!
# The blank behind the URI

`AutoAdapt` and the block for `POST` look at the byte behind the URI. In every request that the
parser has accepted it is the blank that has ended the URI, since nothing is shifted once the URI
has been recorded.
-/

namespace LWebServer

open Memory

namespace ParsedHeader

/-- Where a view of the bytes before `spot` ends: behind a complete one there is a blank. -/
def Fenced (mem : ℕ → Byte) (spot : ℕ) (v : ParsedHeader) : Stage → Prop
  | .idle => v = ⟨none, 1⟩
  | .growing => v.EndsAt spot
  | .complete => ∃ start, v.header = some start ∧ start + v.length < spot ∧
      mem (start + v.length) = ascii ' '

namespace Fenced

variable {mem mem' : ℕ → Byte} {spot spot' : ℕ} {v : ParsedHeader} {stage : Stage}

theorem opened (hfenced : v.Fenced mem spot .idle) :
    Fenced mem (spot + 1) ⟨some spot, v.length⟩ .growing := by
  obtain rfl : v = ⟨none, 1⟩ := hfenced
  exact ⟨spot, rfl, rfl⟩

theorem extended (hfenced : v.Fenced mem spot .growing) :
    Fenced mem (spot + 1) ⟨v.header, v.length + 1⟩ .growing := EndsAt.extend hfenced

theorem closed (hfenced : v.Fenced mem spot .growing) (hblank : mem spot = ascii ' ') :
    v.Fenced mem (spot + 1) .complete := by
  obtain ⟨start, hstart, rfl⟩ := hfenced
  exact ⟨start, hstart, Nat.lt_succ_self _, hblank⟩

theorem mono (hfenced : v.Fenced mem spot stage) (hstage : stage ≠ .growing)
    (hle : spot ≤ spot') : v.Fenced mem spot' stage := by
  cases stage with
  | idle => exact hfenced
  | growing => exact absurd rfl hstage
  | complete =>
    obtain ⟨start, hstart, hend, hblank⟩ := hfenced
    exact ⟨start, hstart, hend.trans_le hle, hblank⟩

theorem congr (hfenced : v.Fenced mem spot stage) (hcells : ∀ i, i < spot → mem' i = mem i) :
    v.Fenced mem' spot stage := by
  cases stage with
  | idle => exact hfenced
  | growing => exact hfenced
  | complete =>
    obtain ⟨start, hstart, hend, hblank⟩ := hfenced
    exact ⟨start, hstart, hend, (hcells _ hend).trans hblank⟩

end Fenced

end ParsedHeader

/-- The URI of a parse under which nothing has been shifted. -/
structure HttpParserContent.Fenced (mem : ℕ → Byte) (c : HttpParserContent) (spot : ℕ) : Prop where
  uri : c.status ≠ .hpsGameOver → c.uriView.Fenced mem spot c.status.uriStage
  ended : c.fault = .hpfContent → c.status = .hpsGameOver
  content : c.fault = .hpfContent → c.uriView.Fenced mem spot .complete

namespace HttpParser

def Fenced (p : HttpParser) : Prop :=
  p.parserResult.Fenced p.userBuffer.buffer p.userBuffer.readSpot

variable {table : HeaderTable} {p q : HttpParser}

/-- A `case` that looks at one byte. -/
theorem fenced_byte {ch : Byte} {jump : Jump} (hfenced : p.Fenced)
    (hch : p.userBuffer.buffer p.userBuffer.readSpot = ch)
    (hstatus : p.parserResult.status ∈ [HttpParserStatus.hpsOK, .hpsBetweenMU, .hpsVersionMajor,
      .hpsVersionMinor, .hpsVersionEnd, .hpsCRLFCR, .hpsUriStart, .hpsUriParser, .hpsLF, .hpsHeader,
      .hpsColon, .hpsHeaderValue])
    (hcases : cases table ch p = .ok jump q) :
    jump = .break ∧ q.userBuffer = p.userBuffer ∧
      q.parserResult.Fenced p.userBuffer.buffer (p.userBuffer.readSpot + 1) := by
  have hrunning : p.parserResult.status ≠ .hpsGameOver := by
    intro hover
    simp [hover] at hstatus
  have huri := hfenced.uri hrunning
  have hcontent : p.parserResult.fault ≠ .hpfContent := fun h ↦ hrunning (hfenced.ended h)
  simp only [List.mem_cons, List.not_mem_nil, or_false] at hstatus
  rcases hstatus with h | h | h | h | h | h | h | h | h | h | h | h
  all_goals
    rw [h] at huri
    simp only [cases, h] at hcases
    split_ifs at hcases
  all_goals
    cases hcases
    refine ⟨rfl, rfl, ?_, ?_, ?_⟩
  all_goals first
    | exact fun hover ↦ absurd rfl hover
    | exact fun hfault ↦ absurd hfault hcontent
    | exact fun _ ↦ rfl
    | exact fun _ ↦ huri.mono (fun h ↦ Stage.noConfusion h) (Nat.le_succ _)
    | exact fun _ ↦ huri.opened
    | exact fun _ ↦ huri.extended
    | exact fun _ ↦ huri.closed (hch.trans ‹ch = ascii ' '›)
    | exact fun hfault ↦ HttpParserFault.noConfusion hfault

/-- The `case` that stores a line. -/
theorem fenced_storeHeader {jump : Jump} (hfenced : p.Fenced)
    (hstatus : p.parserResult.status = .hpsStoreHeader)
    (hstore : storeHeaderCase table p = .ok jump q) :
    jump = .break ∧ q.userBuffer = p.userBuffer ∧
      q.parserResult.Fenced p.userBuffer.buffer (p.userBuffer.readSpot + 1) := by
  have hrunning : p.parserResult.status ≠ .hpsGameOver := by
    rw [hstatus]
    decide
  have huri := hfenced.uri hrunning
  rw [hstatus] at huri
  have hcontent : p.parserResult.fault ≠ .hpfContent := fun h ↦ hrunning (hfenced.ended h)
  have hlater := huri.mono (fun h ↦ Stage.noConfusion h) (Nat.le_succ p.userBuffer.readSpot)
  simp only [storeHeaderCase, mapResult, Sees.contentLengthLoop_eq] at hstore
  split_ifs at hstore
  all_goals
    cases hstore
    refine ⟨rfl, rfl, ?_, ?_, ?_⟩
  all_goals first
    | exact fun hover ↦ absurd rfl hover
    | exact fun _ ↦ hlater
    | exact fun hfault ↦ absurd hfault hcontent
    | exact fun hfault ↦ HttpParserFault.noConfusion hfault

/-- What a `case` leaves, with the byte that is skipped behind a `break`. -/
def LeavesFenced (p : HttpParser) (jump : Jump) (q : HttpParser) : Prop :=
  ∃ n, q.userBuffer = p.userBuffer.read n ∧ q.parserResult.Fenced p.userBuffer.buffer
    (p.userBuffer.readSpot + n + if jump = .break then 1 else 0)

/-- A `case` that takes a word at once. -/
theorem fenced_readWord {jump : Jump} {word : List Byte} {next : HttpParserStatus}
    {stm : HttpParserContent → HttpParserContent} {fault : HttpParserFault} (hfenced : p.Fenced)
    (hrunning : p.running) (huri : next.uriStage = p.parserResult.status.uriStage)
    (hstage : next.uriStage ≠ .growing)
    (hstm : ∃ method : HttpRequestMethod → HttpRequestMethod,
      stm = fun c ↦ { c with method := method c.method })
    (hfault : fault ≠ .hpfContent) (hread : readWord word next stm fault p = .ok jump q) :
    LeavesFenced p jump q := by
  obtain ⟨method, rfl⟩ := hstm
  have hcontent : p.parserResult.fault ≠ .hpfContent := fun h ↦ hrunning.1 (hfenced.ended h)
  have hview := hfenced.uri hrunning.1
  rw [← huri] at hview
  unfold readWord UserBuffer.readInto at hread
  by_cases hshort : p.userBuffer.writeSpot < p.userBuffer.readSpot + word.length
  · simp only [if_pos hshort] at hread
    cases hread
  simp only [if_neg hshort] at hread
  split_ifs at hread
  · cases hread
    refine ⟨word.length, rfl, fun _ ↦ ?_, fun h ↦ absurd h hcontent, fun h ↦ absurd h hcontent⟩
    exact hview.mono hstage (Nat.le_add_right _ _)
  · cases hread
    exact ⟨word.length, rfl, fun h ↦ absurd rfl h, fun _ ↦ rfl, fun h ↦ absurd h hfault⟩

theorem fenced_cases {ch : Byte} {jump : Jump} (hfenced : p.Fenced) (hrunning : p.running)
    (hch : p.userBuffer.buffer p.userBuffer.readSpot = ch)
    (hcases : cases table ch p = .ok jump q) : LeavesFenced p jump q := by
  have hbyte (hstatus : p.parserResult.status ∈ [HttpParserStatus.hpsOK, .hpsBetweenMU,
      .hpsVersionMajor, .hpsVersionMinor, .hpsVersionEnd, .hpsCRLFCR, .hpsUriStart, .hpsUriParser,
      .hpsLF, .hpsHeader, .hpsColon, .hpsHeaderValue]) : LeavesFenced p jump q := by
    obtain ⟨rfl, hbuffer, hleft⟩ := fenced_byte hfenced hch hstatus hcases
    exact ⟨0, hbuffer, hleft⟩
  have hmethod {word : String} {method : HttpRequestMethod}
      (huri : p.parserResult.status.uriStage = .idle)
      (hread : readMethod word method p = .ok jump q) : LeavesFenced p jump q :=
    fenced_readWord hfenced hrunning (by exact huri.symm) (fun h ↦ Stage.noConfusion h)
      ⟨fun _ ↦ method, rfl⟩ (by decide) hread
  cases hstatus : p.parserResult.status
  case hpsGameOver => exact absurd hstatus hrunning.1
  case hpsStoreHeader =>
    simp only [cases, hstatus] at hcases
    obtain ⟨rfl, hbuffer, hleft⟩ := fenced_storeHeader hfenced hstatus hcases
    exact ⟨0, hbuffer, hleft⟩
  case hpsOption | hpsGet | hpsHead | hpsDelete | hpsPost =>
    simp only [cases, hstatus] at hcases
    exact hmethod (by rw [hstatus]; rfl) hcases
  case hpsUriEnd =>
    simp only [cases, hstatus] at hcases
    split_ifs at hcases
    · have huri := hfenced.uri hrunning.1
      have hcontent : p.parserResult.fault ≠ .hpfContent := fun h ↦ hrunning.1 (hfenced.ended h)
      rw [hstatus] at huri
      have hlater := huri.mono (fun h ↦ Stage.noConfusion h) (Nat.le_succ p.userBuffer.readSpot)
      cases hcases
      exact ⟨0, rfl, fun _ ↦ hlater, fun h ↦ absurd h hcontent, fun h ↦ absurd h hcontent⟩
    · exact fenced_readWord hfenced hrunning (by rw [hstatus]; rfl)
        (fun h ↦ Stage.noConfusion h) ⟨id, rfl⟩ (by decide) hcases
  all_goals exact hbyte (by simp [hstatus])

/-- One turn of the loop. -/
theorem fenced_turn (hfenced : p.Fenced) (hextra : p.extrabuffer.isVaild = false)
    (hrunning : p.running) (hturn : turn table p = .ok () q) :
    q.Fenced ∧ q.extrabuffer = p.extrabuffer := by
  unfold turn UserBuffer.peek at hturn
  rw [Nat.add_zero] at hturn
  split_ifs at hturn
  dsimp only at hturn
  cases hcases : cases table (p.userBuffer.buffer p.userBuffer.readSpot) p with
  | error e q' => simp [hcases] at hturn
  | ok jump q' =>
    obtain ⟨n, hbuffer, hleft⟩ := fenced_cases hfenced hrunning rfl hcases
    have hsame := (cases_keeps hcases).2
    rw [hcases] at hturn
    unfold Fenced
    cases jump with
    | «continue» =>
      cases hturn
      rw [hbuffer]
      exact ⟨hleft, hsame⟩
    | «break» =>
      dsimp only at hturn
      rw [refill_of_invalid (hsame ▸ hextra)] at hturn
      cases hturn
      dsimp only
      rw [hbuffer]
      exact ⟨hleft, hsame⟩

theorem fenced_loop {turns : ℕ} (hfenced : p.Fenced) (hextra : p.extrabuffer.isVaild = false)
    (hloop : loop table turns p = .ok () q) : q.Fenced := by
  induction turns generalizing p with
  | zero =>
    cases hloop
    exact hfenced
  | succ turns ih =>
    by_cases hrunning : p.running
    · cases hturn : turn table p with
      | error e p' =>
        rw [loop_throwing hrunning turns hturn] at hloop
        cases hloop
      | ok u p' =>
        rw [loop_running hrunning turns hturn] at hloop
        obtain ⟨hfenced', hsame⟩ := fenced_turn hfenced hextra hrunning hturn
        exact ih hfenced' (hsame ▸ hextra) hloop
    · rw [loop_stopped hrunning] at hloop
      cases hloop
      exact hfenced

theorem Fenced.markShort (hfenced : p.Fenced) : p.markShort.Fenced := by
  unfold HttpParser.markShort
  split_ifs
  · exact hfenced
  · exact ⟨hfenced.uri, fun h ↦ HttpParserFault.noConfusion h,
      fun h ↦ HttpParserFault.noConfusion h⟩

/-- A call of `Starting_Parser` keeps the blank behind the URI. -/
theorem fenced_startingParser {fault : HttpParserFault} (hfenced : p.Fenced)
    (hextra : p.extrabuffer.isVaild = false) (hcall : startingParser table p = .ok fault q) :
    q.Fenced := by
  obtain ⟨-, hsame, -⟩ := markShort_buffers p
  unfold startingParser at hcall
  cases hparse : parsering table p.markShort with
  | error e r => simp [hparse] at hcall
  | ok u r =>
    simp only [hparse, EStateM.Result.ok.injEq] at hcall
    obtain ⟨-, rfl⟩ := hcall
    have hfenced' : r.Fenced := fenced_loop hfenced.markShort (hsame ▸ hextra) hparse
    exact hfenced'

/-- Bytes received while nothing that is in use is shifted. -/
theorem Fenced.received {s : List Byte} {b : UserBuffer} (hfenced : p.Fenced)
    (hle : p.userBuffer.readSpot ≤ p.userBuffer.writeSpot)
    (hsettled : p.Settled) (hreceived : Received p.userBuffer s b) :
    Fenced { p with userBuffer := b } := by
  by_cases hlow : p.userBuffer.readSpot < p.userBuffer.bufferSize / 2
  · obtain ⟨hread, -, hsame⟩ := hreceived.stays hlow
    have hcells (i : ℕ) (hi : i < p.userBuffer.readSpot) := hsame i (hi.trans_le hle)
    unfold Fenced
    dsimp only
    rw [hread]
    exact ⟨fun h ↦ (hfenced.uri h).congr hcells, hfenced.ended,
      fun h ↦ (hfenced.content h).congr hcells⟩
  · have hnone : p.parserResult.uri = none := by
      by_contra hsome
      exact hlow (hsettled hsome)
    have hidle {stage : Stage}
        (hview : p.parserResult.uriView.Fenced p.userBuffer.buffer p.userBuffer.readSpot stage) :
        p.parserResult.uriView.Fenced b.buffer b.readSpot stage := by
      have hheader : p.parserResult.uriView.header = none := hnone
      cases stage with
      | idle => exact hview
      | growing =>
        obtain ⟨start, hstart, -⟩ := hview
        exact absurd (hheader.symm.trans hstart) (Option.some_ne_none start).symm
      | complete =>
        obtain ⟨start, hstart, -⟩ := hview
        exact absurd (hheader.symm.trans hstart) (Option.some_ne_none start).symm
    exact ⟨fun h ↦ hidle (hfenced.uri h), hfenced.ended, fun h ↦ hidle (hfenced.content h)⟩

end HttpParser

end LWebServer
