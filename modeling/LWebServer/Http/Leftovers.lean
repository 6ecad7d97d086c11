import LWebServer.Http.Bounds
import LWebServer.Net.Leftovers

/-!
# Parsing over other memory

A parser looks at the bytes that it has received and at what its views designate. While nothing has
been shifted the views lie below the write position, so that it does not matter what an earlier
connection has left in the array.
-/

namespace LWebServer

open Memory Lockstep UserBuffer

/-! ## Views -/

namespace ParsedHeader

/-- Two memories that agree below a position hold the same text under a view that ends there. -/
theorem Within.bytes_eq {mem mem' : ℕ → Byte} {spot : ℕ} {v : ParsedHeader}
    (hwithin : v.Within spot) (hcells : ∀ i, i < spot → mem' i = mem i) :
    v.bytes mem' = v.bytes mem := by
  obtain ⟨header, length⟩ := v
  cases header with
  | none => rfl
  | some start =>
    have hend := hwithin start rfl
    exact load_congr fun i _ hi ↦ hcells i (hi.trans_le hend)

theorem parsedHeaderIsEqual_congr {mem mem' : ℕ → Byte} {v : ParsedHeader}
    (hbytes : v.bytes mem' = v.bytes mem) (para : List Byte) :
    v.parsedHeaderIsEqual mem' para = v.parsedHeaderIsEqual mem para := by
  unfold parsedHeaderIsEqual
  rw [hbytes]

theorem equal_congr {mem mem' : ℕ → Byte} {v para : ParsedHeader}
    (hv : v.bytes mem' = v.bytes mem) (hpara : para.bytes mem' = para.bytes mem) :
    v.equal mem' para = v.equal mem para := by
  unfold equal
  rw [hv, hpara]

end ParsedHeader

/-! ## The same turn over other memory -/

namespace HttpParser

variable {table : HeaderTable} {p q : HttpParser} {mem : ℕ → Byte}

/-- The same parser with other memory, with or without the pointer to the buffer in its request, and
with another `Extrabuf`. -/
def withMemory (mem : ℕ → Byte) (requestBuffer : Bool) (e : Extrabuf) (p : HttpParser) :
    HttpParser where
  userBuffer := { p.userBuffer with buffer := mem }
  parserResult := p.parserResult
  requestResult := { p.requestResult with requestBuffer := requestBuffer }
  extrabuffer := e

/-- A memory that the parser cannot tell from its own: it has the same bytes below the write
position, and all views designate the same texts in it. -/
structure Reads (p : HttpParser) (mem : ℕ → Byte) : Prop where
  cells : ∀ i, i < p.userBuffer.writeSpot → mem i = p.userBuffer.buffer i
  header : p.parserResult.headerView.bytes mem =
    p.parserResult.headerView.bytes p.userBuffer.buffer
  value : p.parserResult.valueView.bytes mem = p.parserResult.valueView.bytes p.userBuffer.buffer
  names : ∀ entry ∈ p.requestResult.headerValue,
    entry.1.bytes mem = entry.1.bytes p.userBuffer.buffer

theorem readWord_over (hreads : p.Reads mem) (requestBuffer : Bool) (e : Extrabuf)
    (word : List Byte) (nextstatus : HttpParserStatus)
    (stm : HttpParserContent → HttpParserContent) (fault : HttpParserFault) :
    readWord word nextstatus stm fault (p.withMemory mem requestBuffer e) =
      match readWord word nextstatus stm fault p with
      | .ok jump q => .ok jump (q.withMemory mem requestBuffer e)
      | .error e' q => .error e' (q.withMemory mem requestBuffer e) := by
  by_cases hshort : p.userBuffer.writeSpot < p.userBuffer.readSpot + word.length
  · have hread : p.userBuffer.readInto word.length = .error .outOfRange p.userBuffer :=
      if_pos hshort
    have hread' : (p.withMemory mem requestBuffer e).userBuffer.readInto word.length =
        .error .outOfRange (p.withMemory mem requestBuffer e).userBuffer := if_pos hshort
    simp only [readWord, hread, hread']
  · have hload : load mem p.userBuffer.readSpot word.length =
        load p.userBuffer.buffer p.userBuffer.readSpot word.length :=
      load_congr fun i _ hi ↦ hreads.cells i (hi.trans_le (Nat.le_of_not_lt hshort))
    have hread : p.userBuffer.readInto word.length =
        .ok (load p.userBuffer.buffer p.userBuffer.readSpot word.length)
          (p.userBuffer.read word.length) := if_neg hshort
    have hread' : (p.withMemory mem requestBuffer e).userBuffer.readInto word.length =
        .ok (load p.userBuffer.buffer p.userBuffer.readSpot word.length)
          ((p.withMemory mem requestBuffer e).userBuffer.read word.length) := by
      rw [← hload]
      exact if_neg hshort
    simp only [readWord, hread, hread']
    split_ifs <;> rfl

theorem storeHeader_over (table : HeaderTable) (hreads : p.Reads mem) (requestBuffer : Bool) :
    HttpRequest.storeHeader table mem p.parserResult.headerView p.parserResult.valueView
        { p.requestResult with requestBuffer := requestBuffer } =
      { p.requestResult.storeHeader table p.userBuffer.buffer p.parserResult.headerView
          p.parserResult.valueView with requestBuffer := requestBuffer } := by
  have hany : (p.requestResult.headerValue.any fun entry ↦
      table.probes (table.parseHeaderHash p.parserResult.headerView)
          (table.parseHeaderHash entry.1) &&
        entry.1.equal mem p.parserResult.headerView) =
      p.requestResult.headerValue.any fun entry ↦
        table.probes (table.parseHeaderHash p.parserResult.headerView)
          (table.parseHeaderHash entry.1) &&
        entry.1.equal p.userBuffer.buffer p.parserResult.headerView := by
    rw [Bool.eq_iff_iff, List.any_eq_true, List.any_eq_true]
    refine exists_congr fun entry ↦ and_congr_right fun hentry ↦ ?_
    rw [ParsedHeader.equal_congr (hreads.names entry hentry) hreads.header]
  unfold HttpRequest.storeHeader
  dsimp only
  rw [hany]
  split_ifs <;> rfl

theorem storeHeaderCase_over (table : HeaderTable) (hreads : p.Reads mem) (requestBuffer : Bool)
    (e : Extrabuf) :
    storeHeaderCase table (p.withMemory mem requestBuffer e) =
      match storeHeaderCase table p with
      | .ok jump q => .ok jump (q.withMemory mem requestBuffer e)
      | .error e' q => .error e' (q.withMemory mem requestBuffer e) := by
  have hstore := storeHeader_over table hreads requestBuffer
  have hname (key : List Byte) :=
    ParsedHeader.parsedHeaderIsEqual_congr hreads.header key
  have hvalue (key : List Byte) :=
    ParsedHeader.parsedHeaderIsEqual_congr hreads.value key
  have hbytes := hreads.value
  simp only [HttpParserContent.headerView, HttpParserContent.valueView]
    at hstore hname hvalue hbytes
  simp only [storeHeaderCase, withMemory, hstore, hname, hvalue, hbytes]
  split_ifs <;> rfl

theorem cases_over (table : HeaderTable) (hreads : p.Reads mem) (requestBuffer : Bool)
    (e : Extrabuf) (ch : Byte) :
    cases table ch (p.withMemory mem requestBuffer e) =
      match cases table ch p with
      | .ok jump q => .ok jump (q.withMemory mem requestBuffer e)
      | .error e' q => .error e' (q.withMemory mem requestBuffer e) := by
  have hresult : (p.withMemory mem requestBuffer e).parserResult = p.parserResult := rfl
  unfold cases
  rw [hresult]
  cases p.parserResult.status <;> dsimp only
  case hpsOption | hpsGet | hpsHead | hpsDelete | hpsPost =>
    exact readWord_over hreads requestBuffer e _ _ _ _
  case hpsUriEnd =>
    split_ifs
    · rfl
    · exact readWord_over hreads requestBuffer e _ _ _ _
  case hpsStoreHeader => exact storeHeaderCase_over table hreads requestBuffer e
  all_goals split_ifs <;> rfl

/-! ## Two parsers in step -/

/-- Two parsers that have met the same, over buffers of which one still holds something else. -/
structure Apart (p p' : HttpParser) : Prop where
  idle : Extrabuf.Idle p.extrabuffer p'.extrabuffer
  resembles : p.userBuffer.Resembles p'.userBuffer
  parserResult : p'.parserResult = p.parserResult
  requestResult : p'.requestResult =
    { p.requestResult with requestBuffer := p'.requestResult.requestBuffer }
  bounded : p.Bounded (p'.userBuffer ≠ p.userBuffer)

/-- The same parser, but for the pointer to the buffer in its request. -/
def flagged (requestBuffer : Bool) (p : HttpParser) : HttpParser :=
  { p with requestResult := { p.requestResult with requestBuffer := requestBuffer } }

/-- Two parsers that cannot be told apart. -/
def Alike (p p' : HttpParser) : Prop := (∃ requestBuffer, p' = p.flagged requestBuffer) ∨ Apart p p'

theorem reads_self (p : HttpParser) : p.Reads p.userBuffer.buffer :=
  ⟨fun _ _ ↦ rfl, rfl, rfl, fun _ _ ↦ rfl⟩

/-- A `case` leaves the memory and the `Extrabuf` as they are. -/
theorem cases_keeps {ch : Byte} {jump : Jump} (hcases : cases table ch p = .ok jump q) :
    q.userBuffer.buffer = p.userBuffer.buffer ∧ q.extrabuffer = p.extrabuffer := by
  have hself := cases_over table (reads_self p) p.requestResult.requestBuffer
    p.extrabuffer ch
  have hp : p.withMemory p.userBuffer.buffer p.requestResult.requestBuffer p.extrabuffer = p := rfl
  rw [hp, hcases] at hself
  dsimp only at hself
  injection hself with _ hq
  rw [hq]
  exact ⟨rfl, rfl⟩

theorem cases_flagged (requestBuffer : Bool) (p : HttpParser) (ch : Byte) :
    cases table ch (p.flagged requestBuffer) =
      match cases table ch p with
      | .ok jump q => .ok jump (q.flagged requestBuffer)
      | .error e q => .error e (q.flagged requestBuffer) := by
  have hover := cases_over table (reads_self p) requestBuffer p.extrabuffer ch
  have hp : p.withMemory p.userBuffer.buffer requestBuffer p.extrabuffer =
    p.flagged requestBuffer := rfl
  rw [hp] at hover
  rw [hover]
  cases hcases : cases table ch p with
  | ok jump q =>
    obtain ⟨hbuffer, hextra⟩ := cases_keeps hcases
    dsimp only
    rw [← hbuffer, ← hextra]
    rfl
  | error e q =>
    obtain rfl := cases_error hcases
    rfl

theorem refill_flagged (requestBuffer : Bool) (p : HttpParser) :
    refill (p.flagged requestBuffer) =
      match refill p with
      | .ok _ q => .ok () (q.flagged requestBuffer)
      | .error e q => .error e (q.flagged requestBuffer) := by
  unfold refill flagged
  dsimp only
  by_cases hempty : p.userBuffer.readable = 0 ∧ p.extrabuffer.isVaild = true
  · rw [if_pos hempty, if_pos hempty]
    generalize min p.extrabuffer.getLength.toNat p.userBuffer.clean.length = length
    by_cases hinside : (p.extrabuffer.write length).getPtr + length ≤
        (p.extrabuffer.write length).allocated
    · rw [if_pos hinside, if_pos hinside]
      cases UserBuffer.writeBytes _ p.userBuffer.clean <;> rfl
    · rw [if_neg hinside, if_neg hinside]
  · rw [if_neg hempty, if_neg hempty]

theorem turn_flagged (requestBuffer : Bool) (p : HttpParser) :
    turn table (p.flagged requestBuffer) =
      match turn table p with
      | .ok _ q => .ok () (q.flagged requestBuffer)
      | .error e q => .error e (q.flagged requestBuffer) := by
  have hbuffer : (p.flagged requestBuffer).userBuffer = p.userBuffer := rfl
  unfold turn
  rw [hbuffer]
  cases p.userBuffer.peek 0 with
  | none => rfl
  | some ch =>
    dsimp only
    rw [cases_flagged]
    cases hcases : cases table ch p with
    | error e q => rfl
    | ok jump q =>
      cases jump with
      | «continue» => rfl
      | «break» => exact refill_flagged requestBuffer { q with userBuffer := q.userBuffer.read 1 }

theorem loop_flagged (requestBuffer : Bool) (turns : ℕ) (p : HttpParser) :
    loop table turns (p.flagged requestBuffer) =
      match loop table turns p with
      | .ok _ q => .ok () (q.flagged requestBuffer)
      | .error e q => .error e (q.flagged requestBuffer) := by
  induction turns generalizing p with
  | zero => rfl
  | succ turns ih =>
    have hrunning : (p.flagged requestBuffer).running ↔ p.running := Iff.rfl
    unfold loop
    rw [turn_flagged]
    by_cases hp : p.running
    · rw [if_pos hp, if_pos (hrunning.mpr hp)]
      cases turn table p with
      | ok _ q => exact ih q
      | error e q => rfl
    · rw [if_neg hp, if_neg (fun h ↦ hp (hrunning.mp h))]

namespace Apart

variable {p' : HttpParser}

theorem eq_withMemory (hapart : Apart p p') : p' = p.withMemory p'.userBuffer.buffer
    p'.requestResult.requestBuffer p'.extrabuffer := by
  obtain ⟨⟨buffer, writeSpot, readSpot, bufferSize, hle⟩, result, request, extra⟩ := p'
  obtain ⟨-, ⟨hwrite, hread, hsize, -⟩, hresult, hrequest, -⟩ := hapart
  dsimp only at hwrite hread hsize hresult hrequest
  subst hwrite hread hsize hresult
  unfold withMemory
  rw [← hrequest]

theorem running_iff (hapart : Apart p p') : p'.running ↔ p.running := by
  unfold running
  rw [hapart.parserResult, hapart.resembles.readable]

/-- The second parser cannot tell its memory from that of the first one. -/
theorem reads (hapart : Apart p p') (hrunning : p.running) : p.Reads p'.userBuffer.buffer := by
  by_cases hsame : p'.userBuffer = p.userBuffer
  · rw [hsame]
    exact reads_self p
  · have hcells : ∀ i, i < p.userBuffer.writeSpot →
        p'.userBuffer.buffer i = p.userBuffer.buffer i :=
      fun i hi ↦ hapart.resembles.cells i (.inl hi)
    obtain ⟨hheader, hvalue⟩ := hapart.bounded.below hsame hrunning
    exact ⟨hcells, hheader.bytes_eq hcells, hvalue.bytes_eq hcells,
      fun entry hentry ↦ (hapart.bounded.entries hsame entry hentry).1.bytes_eq hcells⟩

theorem peek_eq (hapart : Apart p p') (hrunning : p.running) :
    p'.userBuffer.peek 0 = p.userBuffer.peek 0 := by
  have hlt := lt_of_running hapart.bounded hrunning
  have hcell := hapart.resembles.cells p.userBuffer.readSpot (.inl hlt)
  unfold UserBuffer.peek
  rw [hapart.resembles.readSpot, hapart.resembles.bufferSize, Nat.add_zero, hcell]

/-- After a `case` and the byte skipped behind it. -/
theorem after_takes {jump : Jump} (hapart : Apart p p') (hrunning : p.running)
    (htakes : Takes (p'.userBuffer ≠ p.userBuffer) p jump q) {count : ℕ}
    (hcount : count = if jump = .break then 1 else 0) {q' : HttpParser}
    (hq' : q' = q.withMemory p'.userBuffer.buffer p'.requestResult.requestBuffer p'.extrabuffer) :
    Apart { q with userBuffer := q.userBuffer.read count }
        { q' with userBuffer := q'.userBuffer.read count } ∧
      (q.userBuffer.read count).unread.length < p.userBuffer.unread.length := by
  have hlt := lt_of_running hapart.bounded hrunning
  obtain ⟨n, c, request, rfl, hbounded, hpos⟩ := htakes
  rw [← hcount] at hbounded hpos
  have hread (b : UserBuffer) : (b.read n).read count = b.read (n + count) := by
    simp only [UserBuffer.read, Nat.add_assoc]
  have hbuffer : q'.userBuffer = p'.userBuffer.read n := by
    rw [hq', hapart.eq_withMemory]
    rfl
  constructor
  · refine ⟨?_, ?_, ?_, ?_, ?_⟩
    · rw [hq']
      exact hapart.idle
    · rw [hbuffer]
      exact (hapart.resembles.read n).read count
    · rw [hq']
      rfl
    · rw [hq']
      rfl
    · rw [hbuffer, hread, hread]
      exact hbounded.imp fun hne heq ↦ hne (by rw [heq])
  · simp only [UserBuffer.length_unread, UserBuffer.read]
    omega

end Apart

/-- Both parsers run, and both take the same turn. -/
theorem together_turn {p' : HttpParser} (hapart : Apart p p') (hrunning : p.running) :
    Together (fun q q' ↦ Apart q q' ∧ q.userBuffer.unread.length < p.userBuffer.unread.length)
      Apart (turn table p) (turn table p') := by
  have hlt := lt_of_running hapart.bounded hrunning
  obtain ⟨ch, hpeek⟩ : ∃ ch, p.userBuffer.peek 0 = some ch :=
    ⟨_, if_pos (hlt.trans_le p.userBuffer.writeSpot_le)⟩
  have hcases' : cases table ch p' = _ :=
    (congrArg (cases table ch) hapart.eq_withMemory).trans
      (cases_over table (hapart.reads hrunning) _ _ ch)
  unfold turn
  rw [hapart.peek_eq hrunning, hpeek]
  dsimp only
  rw [hcases']
  cases hcases : cases table ch p with
  | error e q =>
    obtain rfl := cases_error hcases
    dsimp only
    rw [← hapart.eq_withMemory]
    exact .error e hapart
  | ok jump q =>
    have htakes := takes_cases hapart.bounded hrunning hcases
    obtain ⟨-, hextra⟩ := cases_keeps hcases
    cases jump with
    | «continue» => exact .ok () (hapart.after_takes hrunning htakes rfl rfl)
    | «break» =>
      dsimp only
      generalize hq' : q.withMemory p'.userBuffer.buffer p'.requestResult.requestBuffer
        p'.extrabuffer = q'
      have hrefill : refill { q with userBuffer := q.userBuffer.read 1 } = .ok () _ :=
        refill_of_invalid (hextra ▸ hapart.idle.invalid)
      have hrefill' : refill { q' with userBuffer := q'.userBuffer.read 1 } = .ok () _ :=
        refill_of_invalid (hq' ▸ hapart.idle.invalid')
      rw [hrefill, hrefill']
      exact .ok () (hapart.after_takes hrunning htakes rfl hq'.symm)

/-- The loop, for two numbers of turns that it cannot exceed. -/
theorem together_loop {p' : HttpParser} (hapart : Apart p p') {turns turns' : ℕ}
    (hturns : p.userBuffer.unread.length ≤ turns) (hturns' : p.userBuffer.unread.length ≤ turns') :
    Together Apart Apart (loop table turns p) (loop table turns' p') := by
  induction turns generalizing p p' turns' with
  | zero =>
    have hstopped : ¬ p.running := by
      intro hrunning
      have hlt := lt_of_running hapart.bounded hrunning
      rw [UserBuffer.length_unread] at hturns
      omega
    rw [loop_stopped hstopped, loop_stopped fun h ↦ hstopped (hapart.running_iff.mp h)]
    exact .ok () hapart
  | succ turns ih =>
    by_cases hrunning : p.running
    · have hlt := lt_of_running hapart.bounded hrunning
      obtain ⟨count, rfl⟩ : ∃ count, turns' = count + 1 := by
        rw [UserBuffer.length_unread] at hturns'
        exact ⟨turns' - 1, by omega⟩
      have hturn : Together _ _ (turn table p) (turn table p') := together_turn hapart hrunning
      unfold loop
      rw [if_pos hrunning, if_pos (hapart.running_iff.mpr hrunning)]
      generalize turn table p = result at hturn
      generalize turn table p' = result' at hturn
      cases hturn with
      | error e hapart' => exact .error e hapart'
      | ok _ hnext => exact ih hnext.1 (by omega) (by omega)
    · rw [loop_stopped hrunning, loop_stopped fun h ↦ hrunning (hapart.running_iff.mp h)]
      exact .ok () hapart

/-- What a call of `Starting_Parser` has reported if it found the end of a head. -/
def Told (p : HttpParser) : Prop :=
  p.parserResult.fault = .hpfContent → p.parserResult.uri ≠ none →
    p.requestResult.uri = p.parserResult.uriView

theorem told_setRequesting (q : HttpParser) : q.setRequesting.Told := fun _ huri ↦ if_neg huri

namespace Apart

variable {p' : HttpParser}

theorem markShort (hapart : Apart p p') : Apart p.markShort p'.markShort := by
  have hable : p'.parserAble = p.parserAble := by
    unfold parserAble
    rw [hapart.resembles.readable]
  obtain ⟨hbuffer, hextra, hrequest⟩ := markShort_buffers p
  obtain ⟨hbuffer', hextra', hrequest'⟩ := markShort_buffers p'
  refine ⟨?_, ?_, ?_, ?_, ?_⟩
  · rw [hextra, hextra']
    exact hapart.idle
  · rw [hbuffer, hbuffer']
    exact hapart.resembles
  · unfold HttpParser.markShort
    rw [hable]
    split_ifs
    · exact hapart.parserResult
    · simp only [mapResult, hapart.parserResult]
  · rw [hrequest, hrequest']
    exact hapart.requestResult
  · rw [hbuffer, hbuffer']
    exact hapart.bounded.markShort

theorem setRequesting (hapart : Apart p p') : Apart p.setRequesting p'.setRequesting := by
  refine ⟨hapart.idle, hapart.resembles, hapart.parserResult, ?_, hapart.bounded.kept,
    hapart.bounded.entries, hapart.bounded.readSpot_le⟩
  unfold HttpParser.setRequesting
  rw [hapart.parserResult, hapart.requestResult]

end Apart

/-- A call of `Starting_Parser` by each of two parsers. -/
theorem together_startingParser {p' : HttpParser} (halike : Alike p p') :
    Together (fun q q' ↦ Alike q q' ∧ q.Told) Alike (startingParser table p)
      (startingParser table p') := by
  unfold startingParser parsering
  rcases halike with ⟨requestBuffer, rfl⟩ | hapart
  · have hshort : (p.flagged requestBuffer).markShort = p.markShort.flagged requestBuffer := by
      have hable : (p.flagged requestBuffer).parserAble = p.parserAble := rfl
      unfold markShort
      rw [hable]
      split_ifs <;> rfl
    have hbound : (p.markShort.flagged requestBuffer).turnBound = p.markShort.turnBound := rfl
    rw [hshort, hbound, loop_flagged]
    cases loop table p.markShort.turnBound p.markShort with
    | ok _ q => exact .ok _ ⟨.inl ⟨true, rfl⟩, told_setRequesting q⟩
    | error e q => exact .error e (.inl ⟨requestBuffer, rfl⟩)
  · have hmarked := hapart.markShort
    have hbound' : p.markShort.userBuffer.unread.length ≤ p'.markShort.turnBound := by
      have hle := unread_le_turnBound p'.markShort
      rwa [UserBuffer.length_unread, hmarked.resembles.writeSpot, hmarked.resembles.readSpot,
        ← UserBuffer.length_unread] at hle
    have hloop : Together _ _ (loop table _ p.markShort) (loop table _ p'.markShort) :=
      together_loop hmarked (unread_le_turnBound _) hbound'
    generalize loop table p.markShort.turnBound p.markShort = result at hloop
    generalize loop table p'.markShort.turnBound p'.markShort = result' at hloop
    cases hloop with
    | error e hapart' => exact .error e (.inr hapart')
    | ok _ hapart' =>
      dsimp only
      rw [hapart'.parserResult]
      exact .ok _ ⟨.inr hapart'.setRequesting, told_setRequesting _⟩

end HttpParser

end LWebServer
