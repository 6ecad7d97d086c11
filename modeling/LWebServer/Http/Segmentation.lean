import LWebServer.Http.Delivery

/-!
# Parsing a stream in segments

The segments of a stream are received and parsed one after another by the same parser. While no
URI is recorded when bytes are shifted, the parser follows the machine of deliveries, so that its
outcome is that of one delivery unless a segment ends inside a word or a delivery is too short.
-/

namespace LWebServer

open Memory HttpParser

namespace HttpParser

/-- A segment is received and parsed. -/
def deliver (table : HeaderTable) (segment : List Byte) : Op HttpParser HttpParserFault := fun p ↦
  match p.userBuffer.receive segment with
  | .error e b => .error e { p with userBuffer := b }
  | .ok _ b => startingParser table { p with userBuffer := b }

/-- The segments one by one. -/
def deliverAll (table : HeaderTable) : List (List Byte) → Op HttpParser Unit
  | [] => fun p ↦ .ok () p
  | segment :: segments => fun p ↦
    match deliver table segment p with
    | .error e p => .error e p
    | .ok _ p => deliverAll table segments p

/-- A new parser; `memory` is what the members of the request that no constructor sets hold. -/
def new (memory : HttpRequest) : HttpParser where
  userBuffer := .new 4048
  parserResult := {}
  requestResult := .new memory
  extrabuffer := {}

/-- The bytes received next shift no text that is still in use: either no URI has been recorded,
or the read position is in the first half of the array. -/
def Settled (p : HttpParser) : Prop :=
  p.parserResult.uri ≠ none → p.userBuffer.readSpot < p.userBuffer.bufferSize / 2

/-- `Settled` before every delivery. -/
def AlwaysSettled (table : HeaderTable) (p : HttpParser) : List (List Byte) → Prop
  | [] => True
  | segment :: segments => p.Settled ∧
    ∀ fault q, deliver table segment p = .ok fault q → q.AlwaysSettled table segments

/-- What a request shows of a parse; a URI once there is one. -/
structure Outcome where
  fault : HttpParserFault
  method : HttpRequestMethod
  versionMajor : ℤ
  versionMinor : ℤ
  flag : HttpFlag
  uri : Option (List Byte)
  headers : List (List Byte × List Byte)
  unread : List Byte
  deriving DecidableEq

def outcome (p : HttpParser) : Outcome where
  fault := p.requestResult.fault
  method := p.requestResult.method
  versionMajor := p.requestResult.versionMajor
  versionMinor := p.requestResult.versionMinor
  flag := p.requestResult.flag
  uri := if p.parserResult.uri = none then none
    else some (p.requestResult.uri.bytes p.userBuffer.buffer)
  headers := contents p.userBuffer.buffer p.requestResult.headerValue
  unread := p.userBuffer.unread

end HttpParser

/-! ## Following the machine -/

section

variable {sight : Sight} {table : HeaderTable} {stale : List HeaderEntry}
  {known : List (List Byte)} {p : HttpParser} {c : Scan}

namespace Sees

/-- Bytes are added behind the ones in the buffer, and nothing is shifted. -/
theorem extended (hsees : Sees sight table stale known p c) {b : UserBuffer}
    (hsize : b.bufferSize = p.userBuffer.bufferSize) (hread : b.readSpot = p.userBuffer.readSpot)
    (hwrite : p.userBuffer.writeSpot ≤ b.writeSpot)
    (hsame : ∀ i, i < p.userBuffer.writeSpot → b.buffer i = p.userBuffer.buffer i) :
    Sees sight table stale known { p with userBuffer := b } c := by
  have hlimit : p.userBuffer.limit ≤ b.limit := min_le_min hread.ge hwrite
  have hagree (i : ℕ) (hi : i < p.userBuffer.limit) : p.userBuffer.buffer i = b.buffer i :=
    (hsame i (hi.trans_le (min_le_right _ _))).symm
  refine ⟨hsees.paces, hsees.agrees, hsees.unsettled, hsees.word, hsees.shape,
    fun hsight ↦ (hsees.uri hsight).mono hagree hlimit, fun hsight h ↦ ?_,
    fun hsight ↦ (hsees.name hsight).mono hagree hlimit, fun hsight h ↦ ?_,
    fun hsight ↦ (hsees.value hsight).mono hagree hlimit, fun hsight h ↦ ?_, fun hsight ↦ ?_⟩
  · exact hread ▸ hsees.uriEnd hsight h
  · exact hread ▸ hsees.nameEnd hsight h
  · exact hread ▸ hsees.valueEnd hsight h
  · have hstored := hsees.stored hsight
    rw [← hsize] at hstored
    apply hstored.mono
    · exact fun i hi ↦ hagree i (hi.trans_le (hsees.lineStart_le (sight.line_of_entries hsight)))
    · unfold lineStart
      cases p.parserResult.header with
      | none => exact hlimit
      | some spot => exact le_rfl

/-- Bytes received where nothing is shifted. -/
theorem receive_stays (hsees : Sees sight table stale known p c) {block : List Byte}
    (hfits : p.userBuffer.writeSpot + block.length ≤ p.userBuffer.bufferSize) :
    Sees sight table stale known { p with userBuffer := p.userBuffer.stored block hfits } c :=
  hsees.extended rfl rfl (Nat.le_add_right _ _) fun _ hi ↦ store_of_lt _ _ hi

theorem entries_eq_stale (hsees : Sees sight table stale known p c) (hentries : sight.entries)
    (hheaders : c.headers = []) : p.requestResult.headerValue = stale := by
  obtain ⟨fresh, hfresh, -, hkept, -⟩ := hsees.stored hentries
  rw [hheaders, List.sublist_nil, contents, List.map_eq_nil_iff] at hkept
  rw [hfresh, hkept, List.append_nil]

/-- What has not been recorded yet is not lost from sight by a shift. -/
theorem shifted {sight' : Sight} (hsees : Sees sight table stale known p c)
    (huri : sight'.uri → sight.uri ∧ c.uri = [])
    (hline : sight'.line → sight.line ∧ c.name = [] ∧ c.value = [])
    (hentries : sight'.entries → sight.entries ∧ p.requestResult.headerValue = stale)
    {b : UserBuffer} (hsize : b.bufferSize = p.userBuffer.bufferSize) :
    Sees sight' table stale known { p with userBuffer := b } c := by
  have hshape := hsees.shape
  refine ⟨hsees.paces, fun hsight ↦ hsees.agrees (hline hsight).1, hsees.unsettled, hsees.word,
    hshape, fun hsight ↦ ?_, fun hsight h ↦ ?_, fun hsight ↦ ?_, fun hsight h ↦ ?_,
    fun hsight ↦ ?_, fun hsight h ↦ ?_, fun hsight ↦ ?_⟩
  · obtain ⟨hbefore, hnone⟩ := huri hsight
    have hview := hsees.uri hbefore
    rw [hnone] at hview ⊢
    rw [hview.eq_none]
    exact ParsedHeader.designates_none _ _
  · exact absurd (huri hsight).2 (hshape.uriOpen h)
  · obtain ⟨hbefore, hnone, -⟩ := hline hsight
    have hview := hsees.name hbefore
    rw [hnone] at hview ⊢
    rw [hview.eq_none]
    exact ParsedHeader.designates_none _ _
  · exact absurd (hline hsight).2.1 (hshape.nameOpen (by rw [h]; rfl))
  · obtain ⟨hbefore, -, hnone⟩ := hline hsight
    have hview := hsees.value hbefore
    rw [hnone] at hview ⊢
    rw [hview.eq_none]
    exact ParsedHeader.designates_none _ _
  · exact absurd (hline hsight).2.2 (hshape.valueOpen (by rw [h]; rfl))
  · obtain ⟨hbefore, hnone⟩ := hentries hsight
    have hstored := hsees.stored hbefore
    rw [← hsize] at hstored
    exact hstored.of_stale hnone _

/-- A pointer that is not set is one to no text. -/
theorem uri_eq_nil (hsees : Sees sight table stale known p c) (huri : sight.uri)
    (hnone : p.parserResult.uri = none) : c.uri = [] := by
  by_contra hne
  obtain ⟨spot, hspot, -⟩ := (hsees.uri huri).header_isSome hne
  exact absurd (hnone.symm.trans hspot) (by simp)

theorem name_eq_nil (hsees : Sees sight table stale known p c) (hline : sight.line)
    (hnone : p.parserResult.header = none) : c.name = [] := by
  by_contra hne
  obtain ⟨spot, hspot, -⟩ := (hsees.name hline).header_isSome hne
  exact absurd (hnone.symm.trans hspot) (by simp)

/-- Between two lines no value has been read. -/
theorem value_eq_nil (hsees : Sees sight table stale known p c) (hended : ¬ c.ended)
    (hname : c.name = []) : c.value = [] := by
  have hidle : c.status.inLine = false := by
    by_contra hin
    exact hsees.shape.nameOpen (by simpa using hin) hname
  apply hsees.shape.valueIdle _ hended
  cases hstatus : c.status <;> rw [hstatus] at hidle <;> first | rfl | cases hidle

end Sees

/-- A shift before a URI is recorded moves no text. -/
theorem Tracks.receive_moves (htracks : Tracks table stale known p c) (hrooted : c.Rooted)
    (hnone : p.parserResult.uri = none) {b : UserBuffer}
    (hsize : b.bufferSize = p.userBuffer.bufferSize) :
    Tracks table stale known { p with userBuffer := b } c := by
  have huri := Sees.uri_eq_nil htracks trivial hnone
  obtain ⟨hname, hvalue, hheaders⟩ := hrooted.bare huri
  have hentries := Sees.entries_eq_stale htracks trivial hheaders
  exact htracks.shifted (fun _ ↦ ⟨trivial, huri⟩) (fun _ ↦ ⟨trivial, hname, hvalue⟩)
    (fun _ ↦ ⟨trivial, hentries⟩) hsize

end

/-- Where a parser stands after a stream, whose deliveries have taken the machine to `c`. -/
structure Delivered (table : HeaderTable) (stream : List Byte) (p : HttpParser) (c : Scan) :
    Prop where
  tracks : Tracks table [] [] p c
  extrabuffer : p.extrabuffer.isVaild = false
  bufferSize : p.userBuffer.bufferSize = 4048
  scans : c.forget = ((Scan.start .keepAlive .hpfOK).scan stream).forget
  position : p.userBuffer.writeSpot + c.consumed = p.userBuffer.readSpot + stream.length
  written : p.userBuffer.writeSpot ≤ stream.length
  unread : p.userBuffer.unread = stream.drop c.consumed
  reported : stream ≠ [] → Reported p c

theorem HttpParser.delivered_new (table : HeaderTable) (memory : HttpRequest) :
    Delivered table [] (.new memory) (Scan.start .keepAlive .hpfOK) := by
  have hfresh : (HttpParser.new memory).Fresh := ⟨rfl, rfl, rfl, le_rfl⟩
  exact ⟨hfresh.tracks table, rfl, rfl, rfl, rfl, le_rfl, rfl, fun h ↦ absurd rfl h⟩

namespace Delivered

variable {table : HeaderTable} {stream : List Byte} {p : HttpParser} {c : Scan}

theorem consumed_eq (hdelivered : Delivered table stream p c) :
    c.consumed = ((Scan.start .keepAlive .hpfOK).scan stream).consumed := by
  have h : c.forget.consumed = ((Scan.start .keepAlive .hpfOK).scan stream).forget.consumed := by
    rw [hdelivered.scans]
  exact h

theorem ended_iff (hdelivered : Delivered table stream p c) :
    c.ended ↔ ((Scan.start .keepAlive .hpfOK).scan stream).ended := by
  have h : c.forget.ended ↔ ((Scan.start .keepAlive .hpfOK).scan stream).forget.ended := by
    rw [hdelivered.scans]
  exact h

theorem rooted (hdelivered : Delivered table stream p c) : c.Rooted := by
  have h := Scan.rooted_scan .keepAlive .hpfOK stream
  have h' : c.forget.Rooted := by
    rw [hdelivered.scans]
    exact ⟨h.1, h.2⟩
  exact ⟨h'.1, h'.2⟩

/-- While the head is unfinished all bytes have been consumed. -/
theorem consumed_eq_length (hdelivered : Delivered table stream p c) (hended : ¬ c.ended) :
    c.consumed = stream.length := by
  rw [hdelivered.consumed_eq]
  rw [hdelivered.ended_iff] at hended
  exact (Scan.history_scan .keepAlive (by decide) stream).consumed hended

theorem readSpot_le (hdelivered : Delivered table stream p c) :
    p.userBuffer.readSpot ≤ p.userBuffer.writeSpot + 1 := by
  have hconsumed := Scan.consumed_scan_le .keepAlive (by decide : HttpParserFault.hpfOK ≠ _) stream
  rw [← hdelivered.consumed_eq] at hconsumed
  have hposition := hdelivered.position
  omega

/-- The buffer after the next segment. -/
structure Extended (table : HeaderTable) (stream : List Byte) (p : HttpParser) (c : Scan)
    (b : UserBuffer) : Prop where
  tracks : Tracks table [] [] { p with userBuffer := b } c
  bufferSize : b.bufferSize = 4048
  readSpot_le : b.readSpot ≤ b.writeSpot
  position : b.writeSpot + c.consumed = b.readSpot + stream.length
  written : b.writeSpot ≤ stream.length
  unread : b.unread = stream.drop c.consumed

theorem receive (hdelivered : Delivered table stream p c) (hsettled : p.Settled)
    {segment : List Byte} (hne : segment ≠ []) (hfits : (stream ++ segment).length ≤ 4048) :
    ∃ b, p.userBuffer.receive segment = .ok segment.length b ∧
      Extended table (stream ++ segment) p c b := by
  have hpos : 0 < segment.length := List.length_pos_of_ne_nil hne
  have hread := hdelivered.readSpot_le
  have hposition := hdelivered.position
  have hwritten := hdelivered.written
  have hsize := hdelivered.bufferSize
  rw [List.length_append] at hfits
  have hroom : p.userBuffer.writeSpot + segment.length ≤ p.userBuffer.bufferSize := by omega
  have hunread : (p.userBuffer.stored segment hroom).unread =
      (stream ++ segment).drop c.consumed := by
    have hlost : p.userBuffer.readSpot - p.userBuffer.writeSpot = c.consumed - stream.length := by
      omega
    rw [UserBuffer.unread_stored, hdelivered.unread, hlost, List.drop_append]
  by_cases hlow : p.userBuffer.readSpot < p.userBuffer.bufferSize / 2
  · refine ⟨_, UserBuffer.receive_of_lt hroom hlow, hdelivered.tracks.receive_stays hroom, hsize,
      ?_, ?_, ?_, hunread⟩
    · simp only [UserBuffer.stored]
      omega
    · simp only [UserBuffer.stored, List.length_append]
      omega
    · simp only [UserBuffer.stored, List.length_append]
      omega
  · have hnone : p.parserResult.uri = none := by
      by_contra huri
      exact hlow (hsettled huri)
    have htracks : Tracks table [] []
        { p with userBuffer := (p.userBuffer.stored segment hroom).moved } c :=
      hdelivered.tracks.receive_moves hdelivered.rooted hnone rfl
    refine ⟨_, UserBuffer.receive_of_ge hroom (Nat.le_of_not_lt hlow) (by omega), htracks, hsize,
      Nat.zero_le _, ?_, ?_, ?_⟩
    · simp only [UserBuffer.moved, UserBuffer.stored, List.length_append]
      omega
    · simp only [UserBuffer.moved, UserBuffer.stored, List.length_append]
      omega
    · rw [UserBuffer.unread_moved, hunread]

/-- One delivery. -/
theorem deliver (hdelivered : Delivered table stream p c) (hsettled : p.Settled)
    {segment : List Byte} (hne : segment ≠ []) (hfits : (stream ++ segment).length ≤ 4048) :
    (¬ EndsInWord (stream ++ segment) ∧ ∃ q,
      HttpParser.deliver table segment p = .ok (c.deliver stream.length segment).fault q ∧
      Delivered table (stream ++ segment) q (c.deliver stream.length segment)) ∨
    (EndsInWord (stream ++ segment) ∧ ∃ q,
      HttpParser.deliver table segment p = .error .outOfRange q) := by
  obtain ⟨b, hreceive, hextended⟩ := hdelivered.receive hsettled hne hfits
  have hposition := hextended.position
  have hle := hextended.readSpot_le
  rw [List.length_append] at hposition
  have hable : ({ p with userBuffer := b } : HttpParser).parserAble =
      decide (16 ≤ stream.length + segment.length - c.consumed) := by
    have hreadable : b.writeSpot - b.readSpot =
        stream.length + segment.length - c.consumed := by omega
    rw [parserAble, UserBuffer.readable, sizeSub_of_le hle, hreadable]
  have hscan : (c.mark ({ p with userBuffer := b } : HttpParser).parserAble).scan b.unread =
      c.deliver stream.length segment := by
    rw [hable, Scan.deliver]
    by_cases hended : c.ended
    · have hended' (able : Bool) : (c.mark able).ended := by cases able <;> exact hended
      rw [Scan.scan_of_ended (hended' _), Scan.scan_of_ended (hended' _)]
    · rw [hextended.unread, hdelivered.consumed_eq_length hended, List.drop_left]
  have hforget : (c.deliver stream.length segment).forget =
      ((Scan.start .keepAlive .hpfOK).scan (stream ++ segment)).forget := by
    rw [Scan.deliver, Scan.forget_scan, Scan.forget_mark, hdelivered.scans, ← Scan.forget_scan,
      Scan.scan_append]
  have hword : (c.deliver stream.length segment).word ≠ [] ↔ EndsInWord (stream ++ segment) := by
    have h : (c.deliver stream.length segment).forget.word =
        ((Scan.start .keepAlive .hpfOK).scan (stream ++ segment)).forget.word := by rw [hforget]
    rw [← Scan.word_scan_ne_nil_iff (stream ++ segment) .keepAlive
      (by decide : HttpParserFault.hpfOK ≠ _)]
    exact not_congr (by rw [show (c.deliver stream.length segment).word = _ from h]; rfl)
  have hcall : HttpParser.deliver table segment p =
      startingParser table { p with userBuffer := b } := by
    simp only [HttpParser.deliver, hreceive]
  have hfollows := hextended.tracks.startingParser_follows hdelivered.extrabuffer (by simp [Known])
    hle
  rw [hscan] at hfollows
  rw [hcall]
  rcases hfollows with ⟨hclosed, q, hparse, hstarted⟩ | ⟨hopen, q, hparse⟩
  · left
    refine ⟨fun h ↦ hword.mpr h hclosed, q, hparse, ?_⟩
    obtain ⟨n, hbuffer, hconsumed, -⟩ := hstarted.moved
    have htracks := hstarted.sees
    have hreported := hstarted.reported trivial trivial
    rw [hscan] at htracks hreported hconsumed
    refine ⟨htracks, ?_, ?_, hforget, ?_, ?_, ?_, fun _ ↦ hreported⟩
    · rw [hstarted.extrabuffer]
      exact hdelivered.extrabuffer
    · rw [hbuffer]
      exact hextended.bufferSize
    · rw [hbuffer, hconsumed, List.length_append]
      simp only [UserBuffer.read]
      omega
    · rw [hbuffer]
      exact hextended.written
    · rw [hbuffer, UserBuffer.unread_read, hextended.unread, List.drop_drop, hconsumed]
  · exact .inr ⟨hword.mp hopen, q, hparse⟩

/-- Deliveries as long as none ends inside a word. -/
theorem deliverAll {segments : List (List Byte)} (hdelivered : Delivered table stream p c)
    (hsettled : p.AlwaysSettled table segments) (hne : ∀ segment ∈ segments, segment ≠ [])
    (hfits : (stream ++ segments.flatten).length ≤ 4048) :
    ((∀ cut, cut <+: segments → cut ≠ [] → ¬ EndsInWord (stream ++ cut.flatten)) ∧ ∃ q,
      HttpParser.deliverAll table segments p = .ok () q ∧
      Delivered table (stream ++ segments.flatten) q (c.deliverAll stream.length segments)) ∨
    ((∃ cut, cut <+: segments ∧ cut ≠ [] ∧ EndsInWord (stream ++ cut.flatten)) ∧ ∃ q,
      HttpParser.deliverAll table segments p = .error .outOfRange q) := by
  induction segments generalizing stream p c with
  | nil =>
    left
    refine ⟨fun cut hcut hcutNe ↦ absurd (List.prefix_nil.mp hcut) hcutNe, p, rfl, ?_⟩
    rw [List.flatten_nil, List.append_nil]
    exact hdelivered
  | cons segment segments ih =>
    obtain ⟨hnow, hlater⟩ := hsettled
    rw [List.flatten_cons, ← List.append_assoc] at hfits ⊢
    have hfits' : (stream ++ segment).length ≤ 4048 := by
      rw [List.length_append] at hfits
      omega
    rcases hdelivered.deliver hnow (hne segment List.mem_cons_self) hfits' with
      ⟨hclosed, q, hdeliver, hnext⟩ | ⟨hopen, q, hdeliver⟩
    · have hrun : HttpParser.deliverAll table (segment :: segments) p =
          HttpParser.deliverAll table segments q := by
        simp only [HttpParser.deliverAll, hdeliver]
      rw [hrun]
      have hne' : ∀ segment' ∈ segments, segment' ≠ [] := fun segment' h ↦
        hne segment' (List.mem_cons_of_mem _ h)
      rcases ih hnext (hlater _ q hdeliver) hne' hfits with ⟨hall, q', hq', hend⟩ | ⟨hcut, hthrow⟩
      · left
        refine ⟨fun cut hcut hcutNe ↦ ?_, q', hq', ?_⟩
        · obtain ⟨first, rest, rfl⟩ := List.exists_cons_of_ne_nil hcutNe
          obtain ⟨rfl, hrest⟩ := List.cons_prefix_cons.mp hcut
          rw [List.flatten_cons, ← List.append_assoc]
          by_cases hempty : rest = []
          · rw [hempty, List.flatten_nil, List.append_nil]
            exact hclosed
          · exact hall rest hrest hempty
        · rw [Scan.deliverAll, ← List.length_append]
          exact hend
      · right
        obtain ⟨cut, hstarts, hcutNe, hends⟩ := hcut
        refine ⟨⟨segment :: cut, List.cons_prefix_cons.mpr ⟨rfl, hstarts⟩, by simp, ?_⟩, hthrow⟩
        rw [List.flatten_cons, ← List.append_assoc]
        exact hends
    · right
      refine ⟨⟨[segment], ?_, by simp, by simpa using hopen⟩, q, ?_⟩
      · exact List.cons_prefix_cons.mpr ⟨rfl, List.nil_prefix⟩
      · simp only [HttpParser.deliverAll, hdeliver]

/-- Streams shorter than half the array shift nothing. -/
theorem alwaysSettled {segments : List (List Byte)} (hdelivered : Delivered table stream p c)
    (hne : ∀ segment ∈ segments, segment ≠ [])
    (hshort : (stream ++ segments.flatten).length < 2024) :
    p.AlwaysSettled table segments := by
  induction segments generalizing stream p c with
  | nil => trivial
  | cons segment segments ih =>
    have hpos : 0 < segment.length := List.length_pos_of_ne_nil (hne segment List.mem_cons_self)
    rw [List.flatten_cons, ← List.append_assoc] at hshort
    have hsegment : (stream ++ segment).length < 2024 := by
      rw [List.length_append] at hshort
      omega
    have hsettled : p.Settled := by
      intro _
      have hread := hdelivered.readSpot_le
      have hwritten := hdelivered.written
      rw [hdelivered.bufferSize]
      rw [List.length_append] at hsegment
      omega
    refine ⟨hsettled, fun fault q hdeliver ↦ ?_⟩
    rcases hdelivered.deliver hsettled (hne segment List.mem_cons_self) (by omega) with
      ⟨-, q', hq', hnext⟩ | ⟨-, q', hq'⟩
    · rw [hq'] at hdeliver
      cases hdeliver
      exact ih hnext (fun segment' h ↦ hne segment' (List.mem_cons_of_mem _ h)) hshort
    · rw [hq'] at hdeliver
      cases hdeliver

/-- The outcome is what the machine has found. -/
theorem outcome_eq (hdelivered : Delivered table stream p c) (hstream : stream ≠ [])
    (hseparates : table.Separates 4048) : p.outcome =
      { fault := c.fault, method := c.method, versionMajor := c.vMajor, versionMinor := c.vMinor
        flag := c.setKa, uri := if c.uri = [] then none else some c.uri
        headers := c.headers, unread := stream.drop c.consumed } := by
  have hreported := hdelivered.reported hstream
  have htracks := hdelivered.tracks
  have huri : (if p.parserResult.uri = none then none
      else some (p.requestResult.uri.bytes p.userBuffer.buffer)) =
      if c.uri = [] then none else some c.uri := by
    by_cases hnone : c.uri = []
    · have hview := htracks.uri
      rw [hnone] at hview
      have hspot : p.parserResult.uri = none := congrArg ParsedHeader.header hview.eq_none
      rw [if_pos hspot, if_pos hnone]
    · obtain ⟨spot, hspot, -⟩ := htracks.uri.header_isSome hnone
      have hsome : p.parserResult.uri ≠ none := by
        rw [show p.parserResult.uri = some spot from hspot]
        exact Option.some_ne_none spot
      rw [if_neg hsome, if_neg hnone, (hreported.uri hnone).bytes_eq]
  have hheaders : contents p.userBuffer.buffer p.requestResult.headerValue = c.headers := by
    obtain ⟨fresh, hentries, -, -, -, hexact⟩ := htracks.stored
    rw [hentries, List.nil_append]
    exact hexact rfl (hdelivered.bufferSize ▸ hseparates)
  simp only [outcome, hreported.fault, hreported.method, hreported.versionMajor,
    hreported.versionMinor, hreported.flag, huri, hheaders, hdelivered.unread]

/-- Two outcomes of one stream differ in the fault or not at all. -/
theorem outcome_eq_iff {q : HttpParser} {d : Scan} (hdelivered : Delivered table stream p c)
    (hother : Delivered table stream q d) (hstream : stream ≠ [])
    (hseparates : table.Separates 4048) : p.outcome = q.outcome ↔ c = d := by
  have hforget : c.forget = d.forget := hdelivered.scans.trans hother.scans.symm
  rw [hdelivered.outcome_eq hstream hseparates, hother.outcome_eq hstream hseparates]
  constructor
  · intro heq
    have hfault : c.fault = d.fault := congrArg Outcome.fault heq
    rw [← c.orFault_forget, ← d.orFault_forget, hforget, hfault]
  · rintro rfl
    rfl

end Delivered

/-! ## Independence of the cuts -/

namespace HttpParser

/-- The segments are parsed without a throw, and to the same outcome as their concatenation. -/
def CutIndependent (table : HeaderTable) (memory : HttpRequest) (segments : List (List Byte)) :
    Prop :=
  ∃ q q', deliverAll table segments (.new memory) = .ok () q ∧
    deliverAll table [segments.flatten] (.new memory) = .ok () q' ∧ q.outcome = q'.outcome

/-- No segment ends inside a word, and a delivery of fewer than 16 bytes with no verdict in it or
after it is one of a stream of fewer than 16 bytes. -/
structure CutsWell (segments : List (List Byte)) : Prop where
  words : ∀ cut, cut <+: segments → ¬ EndsInWord cut.flatten
  short : (Scan.start .keepAlive .hpfOK).ShortEnd 0 segments →
    (Scan.start .keepAlive .hpfOK).ShortEnd 0 [segments.flatten]

theorem not_endsInWord_nil : ¬ EndsInWord [] := by
  rintro (⟨n, method, first, junk, -, hs, -⟩ | ⟨pre, gap, junk, -, hs, hjunk, -⟩)
  · simp at hs
  · simp [hjunk] at hs

/-- Where no recorded text is shifted, the cuts make no difference exactly if they cut well. -/
theorem cutIndependent_iff {table : HeaderTable} (hseparates : table.Separates 4048)
    (memory : HttpRequest) {segments : List (List Byte)} (hsegments : segments ≠ [])
    (hne : ∀ segment ∈ segments, segment ≠ []) (hfits : segments.flatten.length ≤ 4048)
    (hsettled : (new memory).AlwaysSettled table segments) :
    CutIndependent table memory segments ↔ CutsWell segments := by
  have hnew := delivered_new table memory
  have hstream : segments.flatten ≠ [] := by
    obtain ⟨segment, rest, rfl⟩ := List.exists_cons_of_ne_nil hsegments
    simp [hne segment List.mem_cons_self]
  have hwhole : ∀ segment ∈ [segments.flatten], segment ≠ [] := by simpa using hstream
  have hsettledWhole : (new memory).AlwaysSettled table [segments.flatten] :=
    ⟨fun h ↦ absurd rfl h, fun _ _ _ ↦ trivial⟩
  have hcuts := hnew.deliverAll hsettled hne (by simpa using hfits)
  have hone := hnew.deliverAll hsettledWhole hwhole (by simpa using hfits)
  have hflat : [segments.flatten].flatten = segments.flatten := by simp
  simp only [List.nil_append, hflat, List.length_nil] at hcuts hone
  constructor
  · rintro ⟨q, q', hq, hq', houtcome⟩
    rcases hcuts with ⟨hwords, q₁, hq₁, hd⟩ | ⟨-, q₁, hq₁⟩
    · rcases hone with ⟨-, q₂, hq₂, hd'⟩ | ⟨-, q₂, hq₂⟩
      · obtain rfl : q = q₁ := by simpa [hq] using hq₁
        obtain rfl : q' = q₂ := by simpa [hq'] using hq₂
        refine ⟨fun cut hcut ↦ ?_, ?_⟩
        · by_cases hempty : cut = []
          · rw [hempty]
            exact not_endsInWord_nil
          · exact hwords cut hcut hempty
        · rw [← Scan.deliverAll_eq_deliver_iff hsegments]
          exact (hd.outcome_eq_iff hd' hstream hseparates).mp houtcome
      · exact absurd (hq'.symm.trans hq₂) (by simp)
    · exact absurd (hq.symm.trans hq₁) (by simp)
  · rintro ⟨hwords, hshort⟩
    rcases hcuts with ⟨-, q, hq, hd⟩ | ⟨⟨cut, hcut, -, hends⟩, -⟩
    · rcases hone with ⟨-, q', hq', hd'⟩ | ⟨⟨cut, hcut, hcutNe, hends⟩, -⟩
      · refine ⟨q, q', hq, hq', (hd.outcome_eq_iff hd' hstream hseparates).mpr ?_⟩
        exact (Scan.deliverAll_eq_deliver_iff hsegments).mpr hshort
      · have hcut' : cut = [segments.flatten] := by
          obtain ⟨first, rest, rfl⟩ := List.exists_cons_of_ne_nil hcutNe
          obtain ⟨rfl, hrest⟩ := List.cons_prefix_cons.mp hcut
          rw [List.prefix_nil.mp hrest]
        rw [hcut', hflat] at hends
        exact absurd hends (hwords segments (List.prefix_refl _))
    · exact absurd hends (hwords cut hcut)

theorem cutIndependent_iff_twoLines :
    CutIndependent .sample .zero [text "GET / HTTP/1.1\r\n", text "Host: a\r\n\r\n"] ↔
      CutsWell [text "GET / HTTP/1.1\r\n", text "Host: a\r\n\r\n"] :=
  cutIndependent_iff (HeaderTable.gnu_separates 0 (by decide)) .zero (by simp) (by decide)
    (by decide) ((delivered_new .sample .zero).alwaysSettled (by decide) (by decide))

/-- A segment that ends inside the method name throws. -/
theorem not_cutIndependent_splitWord :
    ¬ CutIndependent .sample .zero [text "GE", text "T / HTTP/1.1\r\n\r\n"] := by
  rintro ⟨q, q', hq, -⟩
  have hends : EndsInWord ([] ++ text "GE") :=
    .inl ⟨0, .hrGet, ascii 'G', text "E", rfl, rfl, by decide, by decide⟩
  have hne : text "GE" ≠ [] := by decide
  rcases (delivered_new .sample .zero).deliver (fun h ↦ absurd rfl h) hne (by decide) with
    ⟨hnot, -⟩ | ⟨-, q₁, hthrow⟩
  · exact hnot hends
  · simp only [deliverAll, hthrow] at hq
    cases hq

end HttpParser

end LWebServer
