import LWebServer.Http.Texts
import LWebServer.Server.Pending

/-!
# Connections in step

What a cleared `Member` has kept of earlier connections is the array of its buffer, the bytes that
went out and the reports that were made. It is in step with a new `Member` where the rest is as the
constructors set it.
-/

namespace LWebServer

open Lockstep WriteLoop

/-! ## Parsers -/

namespace HttpParser

variable {p p' : HttpParser}

theorem Alike.parserResult (halike : Alike p p') : p'.parserResult = p.parserResult := by
  rcases halike with ⟨requestBuffer, rfl⟩ | hapart
  · rfl
  · exact hapart.parserResult

theorem Alike.requestResult (halike : Alike p p') : p'.requestResult =
    { p.requestResult with requestBuffer := p'.requestResult.requestBuffer } := by
  rcases halike with ⟨requestBuffer, rfl⟩ | hapart
  · rfl
  · exact hapart.requestResult

theorem Alike.finished (halike : Alike p p') : p'.finished = p.finished := by
  unfold HttpParser.finished
  rw [halike.parserResult]

/-- The parsers after both connections have received the same. -/
theorem Apart.received (hapart : Apart p p') {s s' : Extrabuf × UserBuffer}
    (hreceived : Receiving.Alike (p'.userBuffer ≠ p.userBuffer) p.userBuffer s s') :
    Alike { p with extrabuffer := s.1, userBuffer := s.2 }
      { p' with extrabuffer := s'.1, userBuffer := s'.2 } := by
  rcases hreceived with rfl | ⟨hidle, htwins⟩
  · refine .inl ⟨p'.requestResult.requestBuffer, ?_⟩
    unfold flagged
    dsimp only
    rw [← hapart.requestResult, hapart.parserResult]
  · refine .inr ⟨hidle, htwins.resembles, hapart.parserResult, hapart.requestResult, ?_⟩
    have hbounded := hapart.bounded
    have hordered := fun h ↦ htwins.ordered (hbounded.readSpot_le h)
    rcases htwins.grown with heq | ⟨hlive, hread, hwrite⟩
    · exact ⟨⟨fun hne ↦ absurd heq hne, fun hne ↦ absurd heq hne, fun hne ↦ absurd heq hne,
        hbounded.kept.ended, fun hne ↦ absurd heq hne⟩, fun hne ↦ absurd heq hne, hordered⟩
    · refine ⟨?_, fun _ entry hentry ↦ ?_, hordered⟩
      · dsimp only
        rw [hread]
        exact (hbounded.imp fun _ ↦ hlive).kept
      · obtain ⟨hname, hvalue⟩ := hbounded.entries hlive entry hentry
        exact ⟨hname.mono hwrite, hvalue.mono hwrite⟩

theorem Alike.againParser (halike : Alike p p') (hfinished : p.finished = true) :
    Alike p.againParser p'.againParser := by
  rcases halike with ⟨requestBuffer, rfl⟩ | hapart
  · exact .inl ⟨requestBuffer, rfl⟩
  · have hfault : p.parserResult.fault = .hpfContent := by
      unfold HttpParser.finished at hfinished
      exact of_decide_eq_true hfinished
    refine .inr ⟨hapart.idle, hapart.resembles, ?_, hapart.requestResult, ?_⟩
    · exact congrArg HttpParserContent.init hapart.parserResult
    · exact ⟨⟨fun _ _ ↦ rfl, fun _ _ ↦ rfl, fun _ _ ↦ rfl,
        fun h ↦ HttpParserFault.noConfusion h, fun _ h ↦ HttpParserFault.noConfusion h⟩,
        hapart.bounded.entries, fun _ ↦ hapart.bounded.readSpot_le (.inr hfault)⟩

/-- A finished request designates the same in both buffers. -/
theorem Alike.sameTexts (halike : Alike p p') (htold : p.Told) (hfinished : p.finished = true) :
    p.requestResult.SameTexts p.userBuffer.buffer p'.userBuffer.buffer := by
  rcases halike with ⟨requestBuffer, rfl⟩ | hapart
  · exact .refl _ _
  by_cases hsame : p'.userBuffer = p.userBuffer
  · rw [hsame]
    exact .refl _ _
  have hfault : p.parserResult.fault = .hpfContent := by
    unfold HttpParser.finished at hfinished
    exact of_decide_eq_true hfinished
  have hplaced := hapart.bounded.kept.content hsame hfault
  have hle := hapart.bounded.readSpot_le (.inr hfault)
  have huri : p.requestResult.uri = p.parserResult.uriView := by
    apply htold hfault
    obtain ⟨start, hstart, -⟩ := hplaced
    exact fun hnone ↦ Option.some_ne_none start (hstart.symm.trans hnone)
  refine .of_below (fun i hi ↦ hapart.resembles.cells i (.inl hi)) ?_
    (hapart.bounded.entries hsame)
  rw [huri]
  exact hplaced.mono hle

/-- The parsers after the provider has set the status of the request. -/
theorem Alike.answered (halike : Alike p p') {r r' : HttpRequest}
    (hrequest : r' = { r with requestBuffer := r'.requestBuffer })
    (hheaders : r.headerValue = p.requestResult.headerValue) :
    Alike { p with requestResult := r } { p' with requestResult := r' } := by
  rcases halike with ⟨requestBuffer, rfl⟩ | hapart
  · refine .inl ⟨r'.requestBuffer, ?_⟩
    unfold flagged
    dsimp only
    rw [← hrequest]
  · refine .inr ⟨hapart.idle, hapart.resembles, hapart.parserResult, hrequest,
      ⟨hapart.bounded.kept, ?_, hapart.bounded.readSpot_le⟩⟩
    dsimp only
    rw [hheaders]
    exact hapart.bounded.entries

end HttpParser

/-! ## Members -/

namespace Member

/-- Two connections that have met the same. The second one has already sent and reported something
else. -/
structure Apart (sent : List Byte) (reported : List ℤ) (m m' : Member) : Prop where
  socket : m'.socket = m.socket
  httpParser : m.httpParser.Alike m'.httpParser
  writeLoop : m.writeLoop.Apart sent reported m'.writeLoop
  writeComplete : m'.writeComplete = m.writeComplete

variable {sent : List Byte} {reported : List ℤ} {m m' : Member}

theorem together_receive (hapart : Apart sent reported m m') (a : Arrival) :
    Together (Apart sent reported) (Apart sent reported) (receive a m) (receive a m') := by
  have hsocket := hapart.socket
  have hwriteLoop := hapart.writeLoop
  have hcomplete := hapart.writeComplete
  have hparser := hapart.httpParser
  unfold receive
  dsimp only
  rcases hparser with ⟨requestBuffer, hflagged⟩ | hpapart
  · rw [hflagged]
    dsimp only [HttpParser.flagged]
    cases Socket.read a.heap a.received (m.httpParser.extrabuffer, m.httpParser.userBuffer) with
    | ok n s => exact .ok () ⟨hsocket, .inl ⟨requestBuffer, rfl⟩, hwriteLoop, hcomplete⟩
    | error e s => exact .error e ⟨hsocket, .inl ⟨requestBuffer, rfl⟩, hwriteLoop, hcomplete⟩
  · have hread := Socket.together_read a.heap a.received hpapart.idle hpapart.resembles
    generalize Socket.read a.heap a.received
      (m.httpParser.extrabuffer, m.httpParser.userBuffer) = result at hread
    generalize Socket.read a.heap a.received
      (m'.httpParser.extrabuffer, m'.httpParser.userBuffer) = result' at hread
    cases hread with
    | ok n hreceived =>
      exact .ok () ⟨hsocket, hpapart.received hreceived, hwriteLoop, hcomplete⟩
    | error e hreceived =>
      exact .error e ⟨hsocket, hpapart.received hreceived, hwriteLoop, hcomplete⟩

theorem together_parse (hapart : Apart sent reported m m') (table : HeaderTable) :
    Together (fun m m' ↦ Apart sent reported m m' ∧ m.httpParser.Told) (Apart sent reported)
      (parse table m) (parse table m') := by
  have hready : HttpParser.Alike
      (if m.httpParser.finished then m.httpParser.againParser else m.httpParser)
      (if m'.httpParser.finished then m'.httpParser.againParser else m'.httpParser) := by
    rw [hapart.httpParser.finished]
    by_cases hfinished : m.httpParser.finished = true
    · rw [if_pos hfinished, if_pos hfinished]
      exact hapart.httpParser.againParser hfinished
    · rw [if_neg hfinished, if_neg hfinished]
      exact hapart.httpParser
  have hparsed : Together _ _ (HttpParser.startingParser table _)
      (HttpParser.startingParser table _) := HttpParser.together_startingParser hready
  unfold parse
  dsimp only
  generalize HttpParser.startingParser table
    (if m.httpParser.finished then m.httpParser.againParser else m.httpParser) = result at hparsed
  generalize HttpParser.startingParser table
    (if m'.httpParser.finished then m'.httpParser.againParser else m'.httpParser) = result'
    at hparsed
  cases hparsed with
  | ok fault hnext =>
    exact .ok () ⟨⟨hapart.socket, hnext.1, hapart.writeLoop, hapart.writeComplete⟩, hnext.2⟩
  | error e hnext =>
    exact .error e ⟨hapart.socket, hnext, hapart.writeLoop, hapart.writeComplete⟩

theorem together_answer (hapart : Apart sent reported m m') (htold : m.httpParser.Told)
    (table : HeaderTable) (a : Arrival) :
    Together (fun m m' ↦ Apart sent reported m m' ∧ m.httpParser.Told) (Apart sent reported)
      (answer table a m) (answer table a m') := by
  unfold answer
  rw [hapart.httpParser.finished]
  by_cases hfinished : m.httpParser.finished = true
  swap
  · rw [if_neg hfinished, if_neg hfinished]
    exact .ok () ⟨hapart, htold⟩
  rw [if_pos hfinished, if_pos hfinished]
  have hasked : Answering.Apart sent reported ⟨m.httpParser.requestResult, m.writeLoop⟩
      ⟨m'.httpParser.requestResult, m'.writeLoop⟩ :=
    ⟨hapart.httpParser.requestResult, hapart.writeLoop⟩
  have hprovided := REAProvider.together_provide hasked table a.site
    (hapart.httpParser.sameTexts htold hfinished)
  have hkeeps := REAProvider.keeps_request (fun r ↦ (r.headerValue, r.uri)) (fun _ _ ↦ rfl) table
    a.site m.httpParser.userBuffer.buffer ⟨m.httpParser.requestResult, m.writeLoop⟩
  dsimp only
  generalize REAProvider.provide table a.site m.httpParser.userBuffer.buffer
    ⟨m.httpParser.requestResult, m.writeLoop⟩ = result at hprovided hkeeps
  generalize REAProvider.provide table a.site m'.httpParser.userBuffer.buffer
    ⟨m'.httpParser.requestResult, m'.writeLoop⟩ = result' at hprovided
  cases hprovided with
  | error e hnext =>
    obtain ⟨hheaders, -⟩ := Prod.mk.inj hkeeps
    exact .error e ⟨hapart.socket, hapart.httpParser.answered hnext.request hheaders,
      hnext.writeLoop, hapart.writeComplete⟩
  | ok _ hnext =>
    obtain ⟨hheaders, huri⟩ := Prod.mk.inj hkeeps
    refine .ok () ⟨⟨hapart.socket, hapart.httpParser.answered hnext.request hheaders,
      hnext.writeLoop, hapart.writeComplete⟩, fun hfault hset ↦ ?_⟩
    exact huri.trans (htold hfault hset)

/-- Both connections send the same. The parsers do not take part. -/
theorem together_doAll (hapart : Apart sent reported m m') (accepts : List Accept) :
    Together (fun q q' ↦ Apart sent reported q q' ∧ q.httpParser = m.httpParser)
      (fun q q' ↦ Apart sent reported q q' ∧ q.httpParser = m.httpParser)
      (doAll accepts m) (doAll accepts m') := by
  have hall := WriteLoop.together_doAll hapart.writeLoop accepts
  unfold doAll
  generalize WriteLoop.doAll { m.writeLoop with outlet.answers := accepts } = result at hall
  generalize WriteLoop.doAll { m'.writeLoop with outlet.answers := accepts } = result' at hall
  cases hall with
  | ok result hnext =>
    exact .ok _ ⟨⟨hapart.socket, hapart.httpParser, hnext, hapart.writeComplete⟩, rfl⟩
  | error e hnext =>
    exact .error e ⟨⟨hapart.socket, hapart.httpParser, hnext, hapart.writeComplete⟩, rfl⟩

/-- Both connections handle the same arrival. -/
theorem together_doRead (hapart : Apart sent reported m m') (table : HeaderTable) (a : Arrival) :
    Together (fun m m' ↦ Apart sent reported m m' ∧ m.httpParser.Told) (Apart sent reported)
      (doRead table a m) (doRead table a m') := by
  refine (together_receive hapart a).bind fun _ _ _ hreceived ↦ ?_
  refine (together_parse hreceived table).bind fun _ _ _ hparsed ↦ ?_
  refine (together_answer hparsed.1 hparsed.2 table a).bind fun _ q _ hanswered ↦ ?_
  refine ((together_doAll hanswered.1 a.accepts).mono (fun _ _ h ↦ h) fun _ _ h ↦ h.1).bind
    fun result q₁ q₁' hsent ↦ ?_
  have htold : q₁.httpParser.Told := hsent.2 ▸ hanswered.2
  by_cases hresult : result = .imcomplete
  · rw [if_neg (not_not_intro hresult)]
    exact .ok _ ⟨hsent.1, htold⟩
  · rw [if_pos hresult]
    exact .ok _ ⟨⟨hsent.1.socket, hsent.1.httpParser, hsent.1.writeLoop, rfl⟩, htold⟩

/-- Both connections handle the same room to write. -/
theorem together_doWrite (hapart : Apart sent reported m m') (accepts : List Accept) :
    Together (Apart sent reported) (Apart sent reported) (doWrite accepts m)
      (doWrite accepts m') := by
  refine ((together_doAll hapart accepts).mono (fun _ _ h ↦ h.1) fun _ _ h ↦ h.1).bind
    fun result _ _ hsent ↦ ?_
  exact .ok _ ⟨hsent.socket, hsent.httpParser, hsent.writeLoop, rfl⟩

/-! ## What is seen of a connection -/

/-- What a finished request says. -/
structure Parsed where
  method : HttpRequestMethod
  versionMajor : ℤ
  versionMinor : ℤ
  contentLength : ℕ
  flag : HttpFlag
  uri : List Byte
  headers : List (List Byte × List Byte)

/-- The request of a connection that has finished one. -/
def parsed (m : Member) : Option Parsed :=
  let r := m.httpParser.requestResult
  let mem := m.httpParser.userBuffer.buffer
  if m.httpParser.finished then some {
    method := r.method
    versionMajor := r.versionMajor
    versionMinor := r.versionMinor
    contentLength := r.contentLength
    flag := r.flag
    uri := r.uri.bytes mem
    headers := r.headerValue.map fun entry ↦ (entry.1.bytes mem, entry.2.bytes mem) }
  else none

/-- The request that a call tells of. -/
def told (m : Member) : Call → Option Parsed
  | .doRead _ => m.parsed
  | .doWrite _ => none

/-- What a call shows: how it ended, how the parser stands and the request that it has finished, the
answer of `CloseAble`, the bytes that went out and the values reported meanwhile. -/
structure Seen where
  failure : Option Fail
  fault : HttpParserFault
  parsed : Option Parsed
  closeAble : Bool
  sent : List Byte
  reported : List ℤ

def seen (m m' : Member) (failure : Option Fail) (parsed : Option Parsed) : Seen where
  failure := failure
  fault := m'.httpParser.parserResult.fault
  parsed := parsed
  closeAble := m'.closeAble
  sent := m'.writeLoop.outlet.wire.drop m.writeLoop.outlet.wire.length
  reported := m'.writeLoop.reports.drop m.writeLoop.reports.length

/-- A call and what is seen of it. Nothing is seen after undefined behaviour. -/
def step (table : HeaderTable) (call : Call) (m : Member) : Seen × Option Member :=
  match call.run table m with
  | .ok _ m' => (m.seen m' none (m'.told call), some m')
  | .error e m' => (m.seen m' (some e) none, if e = .undefinedBehaviour then none else some m')

theorem Apart.closeAble (hapart : Apart sent reported m m') : m'.closeAble = m.closeAble := by
  unfold Member.closeAble
  rw [hapart.httpParser.finished, hapart.httpParser.requestResult]

theorem Apart.parsed (hapart : Apart sent reported m m') (htold : m.httpParser.Told) :
    m'.parsed = m.parsed := by
  unfold Member.parsed
  rw [hapart.httpParser.finished]
  by_cases hfinished : m.httpParser.finished = true
  swap
  · rw [if_neg hfinished, if_neg hfinished]
  have hsame := hapart.httpParser.sameTexts htold hfinished
  rw [if_pos hfinished, if_pos hfinished, hapart.httpParser.requestResult]
  dsimp only
  congr 2
  · exact hsame.uri_bytes
  · refine List.map_congr_left fun entry hentry ↦ ?_
    obtain ⟨hname, hvalue⟩ := hsame.entries entry hentry
    rw [hname, hvalue]

/-- The same is seen of both. -/
theorem Apart.seen (hapart : Apart sent reported m m') {q q' : Member}
    (hnext : Apart sent reported q q') (failure : Option Fail) (parsed : Option Parsed) :
    m'.seen q' failure parsed = m.seen q failure parsed := by
  unfold Member.seen
  rw [hnext.httpParser.parserResult, hnext.closeAble, hnext.writeLoop.wire, hapart.writeLoop.wire,
    hnext.writeLoop.reports, hapart.writeLoop.reports, List.length_append, List.length_append,
    List.drop_length_add_append, List.drop_length_add_append]

/-- Connections in step stay in step. -/
theorem alike_step (hapart : Apart sent reported m m') (table : HeaderTable) (call : Call) :
    Alike (Apart sent reported) (step table call m) (step table call m') := by
  have hperformed : Together (fun q q' ↦ Apart sent reported q q' ∧ q'.told call = q.told call)
      (Apart sent reported) (call.run table m) (call.run table m') := by
    cases call with
    | doRead a =>
      exact (together_doRead hapart table a).mono (fun _ _ h ↦ ⟨h.1, h.1.parsed h.2⟩) fun _ _ h ↦ h
    | doWrite accepts =>
      exact (together_doWrite hapart accepts).mono (fun _ _ h ↦ ⟨h, rfl⟩) fun _ _ h ↦ h
  unfold step
  generalize call.run table m = result at hperformed
  generalize call.run table m' = result' at hperformed
  cases hperformed with
  | ok _ hnext =>
    dsimp only
    rw [hapart.seen hnext.1, hnext.2]
    exact ⟨rfl, .some hnext.1⟩
  | error e hnext =>
    dsimp only
    rw [hapart.seen hnext]
    refine ⟨rfl, ?_⟩
    dsimp only
    split_ifs
    · exact .none
    · exact .some hnext

/-- Connections in step cannot be told apart by any calls. -/
theorem trace_congr (hapart : Apart sent reported m m') (table : HeaderTable)
    (calls : List Call) : trace (step table) calls m = trace (step table) calls m' :=
  trace_eq (fun call _ _ h ↦ alike_step h table call) calls hapart

end Member

end LWebServer
