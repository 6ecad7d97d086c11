import LWebServer.Http.Following
import LWebServer.Library.Chronicle
import LWebServer.Server.Exchanges
import LWebServer.Server.Reads

/-!
# Requests and answers

The bytes that come over a connection begin with request heads, and the bytes that go over it are
the answers to these heads, in the same order. So it is for a session whose deliveries find room,
in which nothing is thrown and whose `DoAll`s go on only where they have been interrupted.
-/

namespace LWebServer

open Schedule WriteLoop

/-- A call of `provide` that returns has printed one response. -/
theorem REAProvider.exists_printing {table : HeaderTable} {site : Site} {mem : ℕ → Byte}
    {a a' : Answering} (hprovide : provide table site mem a = .ok () a') :
    ∃ printed, printing table site mem a.request = [printed] := by
  rw [provide_eq] at hprovide
  unfold printing
  cases hrespond : respond table site mem a.request with
  | error e =>
    rw [hrespond] at hprovide
    cases hprovide
  | ok response =>
    rw [hrespond] at hprovide
    have hsend : response.send site mem a = .ok () a' := hprovide
    cases htype : Provider.autoAdapt mem a.request.uri with
    | error e =>
      rw [response.send_of_error htype] at hsend
      cases hsend
    | ok type => exact ⟨_, rfl⟩

namespace Member

variable {table : HeaderTable} {stale : List HeaderEntry} {setKa : HttpFlag} {t : List Byte}
  {a : Arrival} {m m₀ m₁ m' : Member}

/-! ## One call -/

/-- What has been received stays where it is, if the read position is in the first half. -/
def Stays (m m' : Member) : Prop :=
  m.httpParser.userBuffer.readSpot < m.httpParser.userBuffer.bufferSize / 2 →
    m.httpParser.userBuffer.writeSpot ≤ m'.httpParser.userBuffer.writeSpot ∧
      ∀ i, i < m.httpParser.userBuffer.writeSpot →
        m'.httpParser.userBuffer.buffer i = m.httpParser.userBuffer.buffer i

/-- Between two calls, `t` bytes behind the last request that has been answered. It has left the
flag `setKa` and the entries `stale`. -/
inductive Pursues (table : HeaderTable) (stale : List HeaderEntry) (setKa : HttpFlag)
    (t : List Byte) (m : Member) : Prop
  | between (hbetween : m.httpParser.Between .all t)
      (hextra : m.httpParser.extrabuffer.isVaild = false)
      (hstale : m.httpParser.requestResult.headerValue = stale)
      (hflag : m.httpParser.parserResult.setKa = setKa)
  | following (hfollowing : m.httpParser.Following table stale setKa t)

theorem Pursues.extrabuffer (hpursues : Pursues table stale setKa t m) :
    m.httpParser.extrabuffer.isVaild = false := by
  cases hpursues with
  | between hbetween hextra => exact hextra
  | following hfollowing => exact hfollowing.extrabuffer

theorem Pursues.readSpot_le (hpursues : Pursues table stale setKa t m) :
    m.httpParser.userBuffer.readSpot ≤ m.httpParser.userBuffer.writeSpot := by
  cases hpursues with
  | between hbetween => exact hbetween.readSpot_le
  | following hfollowing => exact hfollowing.reading.readSpot_le

theorem Pursues.congr (hpursues : Pursues table stale setKa t m)
    (hparser : m'.httpParser = m.httpParser) : Pursues table stale setKa t m' := by
  cases hpursues with
  | between hbetween hextra hstale hflag =>
    rw [← hparser] at hbetween hextra hstale hflag
    exact .between hbetween hextra hstale hflag
  | following hfollowing =>
    rw [← hparser] at hfollowing
    exact .following hfollowing

/-- `Read` delivers its bytes. -/
theorem Pursues.receive (hpursues : Pursues table stale setKa t m) (hobeys : Obeys a m)
    (hcalm : Calm a m) : ∃ m₀, receive a m = .ok () m₀ ∧
      Pursues table stale setKa (t ++ streamed a.received) m₀ ∧ m.Stays m₀ := by
  obtain ⟨sum, b, hread, hreceived⟩ := Socket.read_roomy hpursues.extrabuffer
    hpursues.readSpot_le hcalm.roomy hobeys
  have hreceive : Member.receive a m =
      .ok () { m with httpParser := { m.httpParser with userBuffer := b } } := by
    unfold Member.receive
    dsimp only
    rw [hread]
  refine ⟨_, hreceive, ?_, fun hlow ↦ (hreceived.stays hlow).2⟩
  cases hpursues with
  | between hbetween hextra hstale hflag =>
    exact .between (hbetween.received hreceived m.httpParser.extrabuffer) hextra hstale hflag
  | following hfollowing =>
    have hsettled := hcalm.settled hfollowing.reading.unfinished
    exact .following (hfollowing.received hsettled hreceived)

/-- How receiving and parsing end, when `t` is what has come since the last answered request. -/
inductive Meets (table : HeaderTable) (stale : List HeaderEntry) (setKa : HttpFlag)
    (t : List Byte) (a : Arrival) (m : Member) : Prop
  | finished (h : RequestHead) (m₁ : Member) (hscan : scan table a m = .ok () m₁)
      (hfinished : m₁.httpParser.Finished .all table stale h t)
      (hextra : m₁.httpParser.extrabuffer.isVaild = false)
      (hrenders : m₁.httpParser.requestResult.Renders m₁.httpParser.userBuffer.buffer h
        (h.lines.foldl HeaderLine.flag setKa))
      (hflag : m₁.httpParser.parserResult.setKa = h.lines.foldl HeaderLine.flag setKa)
      (hstays : m.Stays m₁)
  | following (m₁ : Member) (hscan : scan table a m = .ok () m₁)
      (hfollowing : m₁.httpParser.Following table stale setKa t)
      (hnone : ∀ h : RequestHead, h.Accepted → ¬ h.encode <+: t) (hstays : m.Stays m₁)
  | stopped (m₁ : Member) (hscan : scan table a m = .ok () m₁) (hstopped : m₁.Stopped)
      (hended : ∃ setKa, ((Scan.start setKa .hpfOK).scan t).ended)
      (hnone : ∀ h : RequestHead, h.Accepted → ¬ h.encode <+: t)
  | threw (m₁ : Member) (hscan : scan table a m = .error .outOfRange m₁)

theorem meets_of_ensues {p : HttpParser} (hreceive : receive a m = .ok () m₀)
    (hbegins : (if m₀.httpParser.finished then m₀.httpParser.againParser else m₀.httpParser) = p)
    (hsame : p.userBuffer = m₀.httpParser.userBuffer) (hstays : m.Stays m₀)
    (hensues : p.Ensues table stale setKa t) : Meets table stale setKa t a m := by
  have hscan : scan table a m = _ := scan_of_receive hreceive hbegins
  have hkeeps {q : HttpParser} (hbuffer : ∃ n, q.userBuffer = p.userBuffer.read n) :
      m.Stays { m₀ with httpParser := q } := by
    obtain ⟨n, hbuffer⟩ := hbuffer
    intro hlow
    dsimp only
    rw [hbuffer, hsame]
    exact hstays hlow
  cases hensues with
  | finished h q hcall hfinished hextra hrenders hflag hbuffer =>
    rw [hcall] at hscan
    exact .finished h _ hscan hfinished hextra hrenders hflag (hkeeps hbuffer)
  | following fault q hcall hfollowing hnone hbuffer =>
    rw [hcall] at hscan
    exact .following _ hscan hfollowing hnone (hkeeps hbuffer)
  | stopped fault q hcall hhalted hended hnone =>
    rw [hcall] at hscan
    exact .stopped _ hscan ⟨hhalted.1, hhalted.2⟩ hended hnone
  | threw q hcall =>
    rw [hcall] at hscan
    exact .threw _ hscan

theorem Pursues.meets (hpursues : Pursues table stale setKa t m) (hobeys : Obeys a m)
    (hcalm : Calm a m) : Meets table stale setKa (t ++ streamed a.received) a m := by
  obtain ⟨m₀, hreceive, hpursues₀, hstays⟩ := hpursues.receive hobeys hcalm
  cases hpursues₀ with
  | between hbetween hextra hstale hflag =>
    have hensues := (hbetween.following hextra table).ensues
    rw [hstale, hflag] at hensues
    exact meets_of_ensues hreceive (if_pos hbetween.finished) rfl hstays hensues
  | following hfollowing =>
    have hunfinished := hfollowing.reading.unfinished
    refine meets_of_ensues hreceive (if_neg ?_) rfl hstays hfollowing.ensues
    rw [hunfinished]
    exact Bool.false_ne_true

/-- Behind a finished head, whose flag is left. -/
theorem pursues_of_finished {h : RequestHead} (hscan : scan table a m = .ok () m₁)
    (hfinished : m₁.httpParser.Finished .all table stale h t)
    (hextra : m₁.httpParser.extrabuffer.isVaild = false)
    (hflag : m₁.httpParser.parserResult.setKa = setKa) (hread : doRead table a m = .ok () m') :
    Pursues table m₁.httpParser.requestResult.headerValue setKa (t.drop h.encode.length) m' ∧
      m'.httpParser.finished = true ∧ m'.httpParser.userBuffer = m₁.httpParser.userBuffer := by
  obtain ⟨request, hparser, hsame⟩ := httpParser_doRead hscan hread
  have hbetween := HttpParser.Between.with_request hfinished.between hsame
  have hvalue : m'.httpParser.requestResult.headerValue =
      m₁.httpParser.requestResult.headerValue := by
    rw [hparser]
    exact hsame
  rw [← hparser] at hbetween
  refine ⟨.between hbetween ?_ hvalue ?_, hbetween.finished, ?_⟩
  · rw [hparser]
    exact hextra
  · rw [hparser]
    exact hflag
  · rw [hparser]

/-- An orderly call returns. -/
theorem Call.Orderly.returns {before text : List Byte} {files : List (List Byte)}
    {excerpts : List (Excerpt Source)}
    (hsupplied : Supplied before text files excerpts m.writeLoop)
    (horderly : (Call.doRead a).Orderly table m) : ∃ m', Member.doRead table a m = .ok () m' := by
  obtain ⟨m₁, htake, -⟩ := horderly.doRead
  obtain ⟨_, _, htaken⟩ := @supplied_take table a _ _ _ _ _ hsupplied
  rw [htake] at htaken
  obtain ⟨result, m₂, -, hdo, -⟩ := @supplied_doAll m₁ _ _ _ _ htaken a.accepts
  obtain ⟨m₃, hconclude, -⟩ := conclude_of_doAll hdo
  refine ⟨m₃, ?_⟩
  rw [doRead_eq, Op.bind_of_ok htake, hconclude]

theorem httpParser_served (table : HeaderTable) (call : Call) (m : Member) :
    (m.served table call).httpParser = (Op.finalState (call.run table m)).httpParser := by
  unfold served
  cases call.run table m with
  | ok u m =>
    dsimp only
    split_ifs <;> rfl
  | error e m => rfl

theorem httpParser_of_read (hread : doRead table a m = .ok () m') :
    (m.served table (.doRead a)).httpParser = m'.httpParser := by
  apply (httpParser_served table (.doRead a) m).trans
  exact congrArg (fun r ↦ (Op.finalState r).httpParser) hread

theorem httpParser_doWrite (table : HeaderTable) (accepts : List Accept) (m : Member) :
    (Op.finalState ((Call.doWrite accepts).run table m)).httpParser = m.httpParser := by
  have hsame := httpParser_doAll accepts m
  simp only [Call.run, doWrite]
  cases hall : doAll accepts m with
  | error e m₁ =>
    rw [hall] at hsame
    rw [Op.bind_of_error hall]
    exact hsame
  | ok result m₁ =>
    rw [hall] at hsame
    rw [Op.bind_of_ok hall]
    exact hsame

/-- A call that finishes no request prints nothing. -/
theorem printing_of_unfinished (hscan : scan table a m = .ok () m₁)
    (hunfinished : m₁.httpParser.finished = false) : (Call.doRead a).printing table m = [] := by
  unfold Call.printing
  dsimp only
  rw [hscan]
  dsimp only
  rw [hunfinished, if_neg Bool.false_ne_true]

/-- A call that has finished a request and answered it has printed one response. -/
theorem printing_of_finished (hscan : scan table a m = .ok () m₁)
    (hfinished : m₁.httpParser.finished = true) (htake : take table a m = .ok () m') :
    ∃ printed, REAProvider.printing table a.site m₁.httpParser.userBuffer.buffer
        m₁.httpParser.requestResult = [printed] ∧
      (Call.doRead a).printing table m = [printed] := by
  rw [take_eq, Op.bind_of_ok hscan] at htake
  unfold answer at htake
  rw [if_pos hfinished] at htake
  dsimp only at htake
  split at htake
  · rename_i request w hprovide
    obtain ⟨printed, hprinted⟩ := REAProvider.exists_printing hprovide
    refine ⟨printed, hprinted, ?_⟩
    unfold Call.printing
    dsimp only
    rw [hscan]
    dsimp only
    rw [if_pos hfinished]
    exact hprinted
  · cases htake

/-- A call that prints nothing sends on the same bytes. -/
theorem sends_idle {before text bytes : List Byte} {files : List (List Byte)}
    {excerpts : List (Excerpt Source)} {call : Call}
    (hsends : m.writeLoop.Sends bytes) (hsupplied : Supplied before text files excerpts m.writeLoop)
    (horderly : call.Orderly table m) (hnothing : call.printing table m = []) :
    (m.served table call).writeLoop.Sends bytes := by
  obtain ⟨texts, htexts, hsends'⟩ := sends_run hsends hsupplied horderly
  rw [hnothing] at htexts
  cases htexts
  rw [writeLoop_served]
  simpa using hsends'

/-- A call that finishes a head and returns goes on with the answer to this head. -/
theorem sends_answer {before text bytes : List Byte} {files : List (List Byte)}
    {excerpts : List (Excerpt Source)} {h : RequestHead}
    (hsends : m.writeLoop.Sends bytes) (hsupplied : Supplied before text files excerpts m.writeLoop)
    (horderly : (Call.doRead a).Orderly table m) (hscan : scan table a m = .ok () m₁)
    (hfinished : m₁.httpParser.Finished .all table stale h t)
    (hfilled : Filled m₁.httpParser.requestResult.headerValue)
    (hrenders : m₁.httpParser.requestResult.Renders m₁.httpParser.userBuffer.buffer h setKa) :
    ∃ host answer, (LWebServer.text "Host", host) ∈
        contents m₁.httpParser.userBuffer.buffer m₁.httpParser.requestResult.headerValue ∧
      h.Reply a.site host setKa answer ∧
        (m.served table (.doRead a)).writeLoop.Sends (bytes ++ answer) := by
  obtain ⟨m₂, htake, -⟩ := horderly.doRead
  obtain ⟨printed, hprinted, hprinting⟩ :=
    printing_of_finished hscan hfinished.between.finished htake
  obtain ⟨texts, htexts, hsends'⟩ := sends_run hsends hsupplied horderly
  rw [hprinting] at htexts
  obtain ⟨answer, hanswer, rfl⟩ : ∃ answer, printed.Texts answer ∧ texts = [answer] := by
    cases htexts with
    | cons hanswer hnil =>
      cases hnil
      exact ⟨_, hanswer, rfl⟩
  obtain ⟨host, hhost, hreply⟩ :=
    hrenders.reply_of_printing (hfinished.between.whole trivial) hfilled hprinted hanswer
  rw [List.flatten_singleton, ← writeLoop_served] at hsends'
  exact ⟨host, answer, hhost, hreply, hsends'⟩

/-- The bytes that the kernel delivers in a call. -/
def Call.stream : Call → List Byte
  | .doRead a => streamed a.received
  | .doWrite _ => []

/-- The site at the time of a call that may answer a request. -/
def Call.sites : Call → List Site
  | .doRead a => [a.site]
  | .doWrite _ => []

/-- The kernel keeps to the contract of `recv`, and the delivery finds room without a shift of
bytes that are in use. -/
def Call.Smooth : Call → Member → Prop
  | .doRead a, m => Obeys a m ∧ Calm a m
  | .doWrite _, _ => True

/-- The delivery shifts nothing at all. -/
def Call.Unshifted : Call → Member → Prop
  | .doRead _, m => m.httpParser.userBuffer.readSpot < m.httpParser.userBuffer.bufferSize / 2
  | .doWrite _, _ => True

end Member

/-! ## Exchanges -/

/-- A request that has been answered: its head, what the site was then, the value of `Host` and the
flag that the answer was for, and the bytes of the answer. -/
structure Exchange where
  head : RequestHead
  site : Site
  host : List Byte
  flag : HttpFlag
  bytes : List Byte

namespace Exchange

/-- The flag that some heads leave. -/
def flagAfter (flag : HttpFlag) (past : List Exchange) : HttpFlag :=
  (past.flatMap fun e ↦ e.head.lines).foldl HeaderLine.flag flag

/-- The bytes are an answer to the head, which comes behind earlier ones. -/
structure Right (flag : HttpFlag) (past : List Exchange) (e : Exchange) : Prop where
  accepted : e.head.Accepted
  flag_eq : e.flag = flagAfter flag (past ++ [e])
  reply : e.head.Reply e.site e.host e.flag e.bytes

/-- The head or an earlier one names the host. -/
def Hosted (past : List Exchange) (e : Exchange) : Prop :=
  e.host ∈ (past ++ [e]).flatMap fun e ↦ e.head.hosts

theorem flagAfter_snoc (flag : HttpFlag) (past : List Exchange) (e : Exchange) :
    flagAfter flag (past ++ [e]) = e.head.lines.foldl HeaderLine.flag (flagAfter flag past) := by
  simp [flagAfter, List.flatMap_append]

end Exchange

namespace Session

open Exchange

/-- The member with which the session has begun. -/
def start (c : Session) : Member := (c.calls.head?.map Prod.snd).getD c.member

def received (c : Session) : List Byte := c.calls.flatMap fun entry ↦ entry.1.stream

def sites (c : Session) : List Site := c.calls.flatMap fun entry ↦ entry.1.sites

def Smooth (c : Session) : Prop := ∀ entry ∈ c.calls, Member.Call.Smooth entry.1 entry.2

def Unshifted (c : Session) : Prop := ∀ entry ∈ c.calls, Member.Call.Unshifted entry.1 entry.2

/-- What has come over a connection are the heads of some exchanges and a rest, and what has gone
over it and is in line are their answers, one at most for each call of `DoRead`. Where a head has no
`Connection` line its flag is that of the head before. The rest does not begin with a whole head,
unless a request has just been answered.
As long as nothing is shifted the host of an answer is named by its head or an earlier one. -/
structure Converses (c : Session) (exchanges : List Exchange) (rest pending : List Byte) :
    Prop where
  received : c.received = (exchanges.flatMap fun e ↦ e.head.encode) ++ rest
  sent : c.member.writeLoop.outlet.wire ++ pending = c.before ++ exchanges.flatMap Exchange.bytes
  pending : pending.length = (c.member.writeLoop.que.map (Task.amount c.member.writeLoop)).sum
  sites : (exchanges.map Exchange.site).Sublist c.sites
  right : Chronicled (Right c.start.httpParser.parserResult.setKa) exchanges
  hosted : c.Unshifted → Chronicled Hosted exchanges
  caughtUp : c.member.httpParser.finished = false →
    ∀ h : RequestHead, h.Accepted → ¬ h.encode <+: rest

/-- The entries stand for lines of heads that have been answered, and lie in what has been
received. -/
structure Remembers (stale : List HeaderEntry) (exchanges : List Exchange) (m : Member) : Prop where
  below : ∀ entry ∈ stale,
    EntryBelow m.httpParser.userBuffer.buffer m.httpParser.userBuffer.writeSpot entry
  lines : contents m.httpParser.userBuffer.buffer stale ⊆
    exchanges.flatMap fun e ↦ e.head.headers

/-- The parser stands behind the heads of the exchanges, or has stopped at a fault in the rest. -/
inductive Stands (table : HeaderTable) (flag : HttpFlag) (exchanges : List Exchange)
    (rest : List Byte) (unshifted : Prop) (m : Member) : Prop
  | pursuing (stale : List HeaderEntry)
      (hpursues : m.Pursues table stale (flagAfter flag exchanges) rest) (hfilled : Filled stale)
      (hremembers : unshifted → Remembers stale exchanges m)
      (hnone : m.httpParser.finished = false →
        ∀ h : RequestHead, h.Accepted → ¬ h.encode <+: rest)
  | stopped (hstopped : m.Stopped)
      (hnever : ∀ more, ∀ h : RequestHead, h.Accepted → ¬ h.encode <+: rest ++ more)

/-- What is kept from call to call. -/
structure Engaged (table : HeaderTable) (c : Session) (exchanges : List Exchange)
    (rest : List Byte) : Prop where
  received : c.received = (exchanges.flatMap fun e ↦ e.head.encode) ++ rest
  sends : c.member.writeLoop.Sends (c.before ++ exchanges.flatMap Exchange.bytes)
  sites : (exchanges.map Exchange.site).Sublist c.sites
  right : Chronicled (Right c.start.httpParser.parserResult.setKa) exchanges
  hosted : c.Unshifted → Chronicled Hosted exchanges
  stands : Stands table c.start.httpParser.parserResult.setKa exchanges rest c.Unshifted c.member

/-! ## The entries of a finished head -/

section

variable {stale : List HeaderEntry} {exchanges : List Exchange} {m m' : Member}

theorem Remembers.stays (hremembers : Remembers stale exchanges m) (hstays : m.Stays m')
    (hlow : m.httpParser.userBuffer.readSpot < m.httpParser.userBuffer.bufferSize / 2) :
    Remembers stale exchanges m' := by
  obtain ⟨hwrite, hcells⟩ := hstays hlow
  have hagree (i : ℕ) (hi : i < m.httpParser.userBuffer.writeSpot) := (hcells i hi).symm
  refine ⟨fun entry hentry ↦ (hremembers.below entry hentry).mono hagree hwrite, ?_⟩
  rw [contents_congr hremembers.below hagree]
  exact hremembers.lines

theorem Remembers.congr (hremembers : Remembers stale exchanges m)
    (hbuffer : m'.httpParser.userBuffer = m.httpParser.userBuffer) :
    Remembers stale exchanges m' := by
  constructor
  · rw [hbuffer]
    exact hremembers.below
  · rw [hbuffer]
    exact hremembers.lines

theorem Stands.congr {table : HeaderTable} {flag : HttpFlag} {rest : List Byte} {unshifted : Prop}
    (hstands : Stands table flag exchanges rest unshifted m)
    (hparser : m'.httpParser = m.httpParser) : Stands table flag exchanges rest unshifted m' := by
  cases hstands with
  | pursuing stale hpursues hfilled hremembers hnone =>
    refine .pursuing stale (hpursues.congr hparser) hfilled
      (fun h ↦ (hremembers h).congr (by rw [hparser])) ?_
    rw [hparser]
    exact hnone
  | stopped hstopped hnever =>
    exact .stopped (hstopped.congr (congrArg HttpParser.parserResult hparser)) hnever

theorem Stands.imp {table : HeaderTable} {flag : HttpFlag} {rest : List Byte}
    {unshifted unshifted' : Prop} (hstands : Stands table flag exchanges rest unshifted m)
    (himp : unshifted' → unshifted) : Stands table flag exchanges rest unshifted' m := by
  cases hstands with
  | pursuing stale hpursues hfilled hremembers hnone =>
    exact .pursuing stale hpursues hfilled (fun h ↦ hremembers (himp h)) hnone
  | stopped hstopped hnever => exact .stopped hstopped hnever

/-- The map holds the entries of the lines that have been kept behind the old ones. -/
theorem entries_of_finished {table : HeaderTable} {h : RequestHead} {t : List Byte}
    {p : HttpParser} (hfinished : p.Finished .all table stale h t) :
    ∃ fresh, p.requestResult.headerValue = stale ++ fresh ∧
      (∀ entry ∈ fresh, EntryBelow p.userBuffer.buffer p.userBuffer.writeSpot entry) ∧
        contents p.userBuffer.buffer fresh ⊆ h.headers ∧ Filled fresh := by
  obtain ⟨known, setKa, c, hread, htracks, -⟩ := hfinished.views
  obtain ⟨fresh, hentries, hbelow, hkept, -⟩ := htracks.stored trivial
  rw [hread.headers] at hkept
  have hlimit : p.lineStart ≤ p.userBuffer.writeSpot :=
    (htracks.lineStart_le trivial).trans (min_le_right _ _)
  refine ⟨fresh, hentries, fun entry hentry ↦ (hbelow entry hentry).mono (fun _ _ ↦ rfl) hlimit,
    hkept.subset, fun entry hentry ↦ ?_⟩
  have hline : (entry.1.bytes p.userBuffer.buffer, entry.2.bytes p.userBuffer.buffer) ∈
      h.headers := hkept.subset (List.mem_map.mpr ⟨entry, hentry, rfl⟩)
  obtain ⟨line, -, hpair⟩ := List.mem_map.mp hline
  have hvalue : line.value = entry.2.bytes p.userBuffer.buffer := congrArg Prod.snd hpair
  obtain ⟨start, hstart, -⟩ :=
    (hbelow entry hentry).value.header_isSome (hvalue ▸ line.value_ne)
  exact ⟨start, hstart⟩

theorem Remembers.finished {table : HeaderTable} {e : Exchange} {t : List Byte}
    (hremembers : Remembers stale exchanges m)
    (hfinished : m.httpParser.Finished .all table stale e.head t) :
    Remembers m.httpParser.requestResult.headerValue (exchanges ++ [e]) m := by
  obtain ⟨fresh, hentries, hbelow, hlines, -⟩ := entries_of_finished hfinished
  rw [hentries]
  constructor
  · exact List.forall_mem_append.mpr ⟨hremembers.below, hbelow⟩
  · rw [contents, List.map_append, ← contents, ← contents, List.flatMap_append,
      List.flatMap_singleton]
    exact List.append_subset.mpr ⟨List.subset_append_of_subset_left _ hremembers.lines,
      List.subset_append_of_subset_right _ hlines⟩

/-- A line that is named `Host`, of one of the heads. -/
theorem mem_hosts {host : List Byte} {exchanges : List Exchange}
    (hline : (text "Host", host) ∈ exchanges.flatMap fun e ↦ e.head.headers) :
    host ∈ exchanges.flatMap fun e ↦ e.head.hosts := by
  obtain ⟨e, he, hmem⟩ := List.mem_flatMap.mp hline
  refine List.mem_flatMap.mpr ⟨e, he, List.mem_map.mpr ⟨(text "Host", host), ?_, rfl⟩⟩
  exact List.mem_filter.mpr ⟨hmem, decide_eq_true rfl⟩

end

/-! ## One step of a session -/

/-- The session after a call. -/
def after (table : HeaderTable) (call : Member.Call) (c : Session) : Session :=
  { c with member := c.member.served table call, calls := c.calls ++ [(call, c.member)] }

section

variable {table : HeaderTable} {call : Member.Call} {c : Session} {exchanges : List Exchange}
  {rest before text : List Byte} {files : List (List Byte)}
  {excerpts : List (Excerpt Source)} {flag : HttpFlag}

theorem start_after (table : HeaderTable) (call : Member.Call) (c : Session) :
    (c.after table call).start = c.start := by
  unfold start after
  cases c.calls with
  | nil => rfl
  | cons first calls => rfl

theorem received_after (table : HeaderTable) (call : Member.Call) (c : Session) :
    (c.after table call).received = c.received ++ call.stream := by
  simp [received, after]

theorem sites_after (table : HeaderTable) (call : Member.Call) (c : Session) :
    (c.after table call).sites = c.sites ++ call.sites := by
  simp [sites, after]

theorem unshifted_after (table : HeaderTable) (call : Member.Call) (c : Session) :
    (c.after table call).Unshifted ↔ c.Unshifted ∧ call.Unshifted c.member := by
  unfold Unshifted after
  rw [List.forall_mem_append, List.forall_mem_singleton]

theorem never_of_ended {t : List Byte} (hended : ∃ setKa, ((Scan.start setKa .hpfOK).scan t).ended)
    (hnone : ∀ h : RequestHead, h.Accepted → ¬ h.encode <+: t) (more : List Byte)
    (h : RequestHead) (haccepted : h.Accepted) : ¬ h.encode <+: t ++ more := by
  intro hhead
  have ht : t <+: t ++ more := List.prefix_append t more
  by_cases hlong : h.encode.length ≤ t.length
  · exact hnone h haccepted (List.prefix_of_prefix_length_le hhead ht hlong)
  · obtain ⟨setKa, hended⟩ := hended
    have hinside := List.prefix_of_prefix_length_le ht hhead (Nat.le_of_not_le hlong)
    exact not_ended_of_prefix haccepted hinside (Nat.lt_of_not_le hlong) setKa hended

/-- A call that answers no request. -/
theorem Engaged.idle (hengaged : Engaged table c exchanges rest)
    (hsends : (c.member.served table call).writeLoop.Sends
      (c.before ++ exchanges.flatMap Exchange.bytes))
    (hstands : Stands table c.start.httpParser.parserResult.setKa exchanges (rest ++ call.stream)
      (c.Unshifted ∧ call.Unshifted c.member) (c.member.served table call)) :
    Engaged table (c.after table call) exchanges (rest ++ call.stream) := by
  refine ⟨?_, hsends, ?_, ?_, fun hunshifted ↦ ?_, ?_⟩
  · rw [received_after, hengaged.received, List.append_assoc]
  · rw [sites_after]
    exact List.sublist_append_of_sublist_left hengaged.sites
  · rw [start_after]
    exact hengaged.right
  · exact hengaged.hosted ((unshifted_after table call c).mp hunshifted).1
  · rw [start_after, propext (unshifted_after table call c)]
    exact hstands

/-- A call that answers a request. -/
theorem Engaged.answered {a : Arrival} {h : RequestHead} {stale : List HeaderEntry}
    {m₁ m' : Member} (hengaged : Engaged table c exchanges rest)
    (hsupplied : Supplied before text files excerpts c.member.writeLoop)
    (horderly : (Member.Call.doRead a).Orderly table c.member)
    (hread : Member.doRead table a c.member = .ok () m') (hfilled : Filled stale)
    (hremembers : c.Unshifted → Remembers stale exchanges c.member)
    (hscan : Member.scan table a c.member = .ok () m₁)
    (hfinished : m₁.httpParser.Finished .all table stale h (rest ++ streamed a.received))
    (hextra : m₁.httpParser.extrabuffer.isVaild = false)
    (hrenders : m₁.httpParser.requestResult.Renders m₁.httpParser.userBuffer.buffer h
      (h.lines.foldl HeaderLine.flag
        (flagAfter c.start.httpParser.parserResult.setKa exchanges)))
    (hflag : m₁.httpParser.parserResult.setKa = h.lines.foldl HeaderLine.flag
      (flagAfter c.start.httpParser.parserResult.setKa exchanges))
    (hstays : c.member.Stays m₁) :
    ∃ e rest', Engaged table (c.after table (.doRead a)) (exchanges ++ [e]) rest' := by
  obtain ⟨fresh, hentries, -, -, hfresh⟩ := entries_of_finished hfinished
  have hfilled' : Filled m₁.httpParser.requestResult.headerValue := by
    rw [hentries]
    exact List.forall_mem_append.mpr ⟨hfilled, hfresh⟩
  obtain ⟨host, bytes, hhost, hreply, hsends⟩ :=
    Member.sends_answer hengaged.sends hsupplied horderly hscan hfinished hfilled' hrenders
  obtain ⟨rest', hrest⟩ := hfinished.head
  obtain ⟨hpursues, hready, hbuffer⟩ :=
    Member.pursues_of_finished hscan hfinished hextra hflag hread
  rw [← hrest, List.drop_left] at hpursues
  let e : Exchange := {
    head := h
    site := a.site
    host := host
    flag := h.lines.foldl HeaderLine.flag
      (flagAfter c.start.httpParser.parserResult.setKa exchanges)
    bytes := bytes }
  have hflags := flagAfter_snoc c.start.httpParser.parserResult.setKa exchanges e
  have hremembers' (hunshifted : (c.after table (.doRead a)).Unshifted) :
      Remembers m₁.httpParser.requestResult.headerValue (exchanges ++ [e]) m₁ := by
    obtain ⟨hold, hlow⟩ := (unshifted_after table (.doRead a) c).mp hunshifted
    exact ((hremembers hold).stays hstays hlow).finished hfinished
  refine ⟨e, rest', ?_, ?_, ?_, ?_, fun hunshifted ↦ ?_, ?_⟩
  · rw [received_after, hengaged.received, List.append_assoc]
    change _ ++ (rest ++ streamed a.received) = _
    rw [← hrest, List.flatMap_append, List.flatMap_singleton, List.append_assoc]
  · rw [List.append_assoc] at hsends
    rw [List.flatMap_append, List.flatMap_singleton]
    exact hsends
  · rw [sites_after, List.map_append]
    exact hengaged.sites.append (List.Sublist.refl [a.site])
  · rw [start_after]
    exact hengaged.right.snoc ⟨hfinished.accepted, hflags.symm, hreply⟩
  · have hold := ((unshifted_after table (.doRead a) c).mp hunshifted).1
    exact (hengaged.hosted hold).snoc (mem_hosts ((hremembers' hunshifted).lines hhost))
  · rw [start_after]
    have hstands : Stands table c.start.httpParser.parserResult.setKa (exchanges ++ [e]) rest'
        (c.after table (.doRead a)).Unshifted m' := by
      rw [← hflags] at hpursues
      apply Stands.pursuing _ hpursues hfilled'
      · exact fun hunshifted ↦ (hremembers' hunshifted).congr hbuffer
      · intro hopen
        rw [hready] at hopen
        cases hopen
    exact hstands.congr (Member.httpParser_of_read hread)

/-- One call of a session whose calls are orderly and smooth. -/
theorem Engaged.called (hengaged : Engaged table c exchanges rest)
    (hsupplied : Supplied before text files excerpts c.member.writeLoop)
    (horderly : call.Orderly table c.member) (hsmooth : call.Smooth c.member) :
    ∃ exchanges' rest', Engaged table (c.after table call) exchanges' rest' := by
  cases call with
  | doWrite accepts =>
    have hparser : (c.member.served table (.doWrite accepts)).httpParser = c.member.httpParser :=
      (Member.httpParser_served _ _ _).trans (Member.httpParser_doWrite _ _ _)
    have hsends := Member.sends_idle hengaged.sends hsupplied horderly rfl
    refine ⟨exchanges, _, hengaged.idle hsends ?_⟩
    change Stands _ _ _ (rest ++ []) _ _
    rw [List.append_nil]
    exact (hengaged.stands.congr hparser).imp And.left
  | doRead a =>
    obtain ⟨m', hread⟩ := horderly.returns hsupplied
    have hreturned := Member.httpParser_of_read hread
    -- a call that finishes no request
    have hidle {m₁ : Member} (hscan : Member.scan table a c.member = .ok () m₁)
        (hunfinished : m₁.httpParser.finished = false)
        (hstands : (c.member.served table (.doRead a)).httpParser = m₁.httpParser →
          Stands table c.start.httpParser.parserResult.setKa exchanges
            (rest ++ streamed a.received)
            (c.Unshifted ∧ (Member.Call.doRead a).Unshifted c.member)
            (c.member.served table (.doRead a))) :
        ∃ exchanges' rest', Engaged table (c.after table (.doRead a)) exchanges' rest' := by
      have hnothing := Member.printing_of_unfinished hscan hunfinished
      have hsends := Member.sends_idle hengaged.sends hsupplied horderly hnothing
      have hsame := Member.httpParser_of_unfinished hscan hunfinished hread
      exact ⟨exchanges, _, hengaged.idle hsends (hstands (hreturned.trans hsame))⟩
    obtain ⟨hobeys, hcalm⟩ := hsmooth
    cases hengaged.stands with
    | stopped hstopped hnever =>
      obtain ⟨m₂, htake, -⟩ := horderly.doRead
      rw [Member.take_eq] at htake
      obtain ⟨_, m₁, hscan, -⟩ := Op.bind_ok htake
      have hstopped' := Member.stopped_scan hstopped hscan
      refine hidle hscan (Member.finished_of_fault hstopped'.fault) fun hsame ↦ ?_
      refine .stopped (hstopped'.congr (congrArg HttpParser.parserResult hsame)) fun more ↦ ?_
      rw [List.append_assoc]
      exact hnever (streamed a.received ++ more)
    | pursuing stale hpursues hfilled hremembers hnone =>
      cases hpursues.meets hobeys hcalm with
      | finished h m₁ hscan hfinished hextra hrenders hflag hstays =>
        obtain ⟨e, rest', hanswered⟩ := hengaged.answered hsupplied horderly hread hfilled
          hremembers hscan hfinished hextra hrenders hflag hstays
        exact ⟨_, rest', hanswered⟩
      | following m₁ hscan hfollowing hnone' hstays =>
        refine hidle hscan hfollowing.reading.unfinished fun hsame ↦ ?_
        have hpursues' : m₁.Pursues table stale _ _ := .following hfollowing
        exact .pursuing stale (hpursues'.congr hsame) hfilled (fun h ↦
          ((hremembers h.1).stays hstays h.2).congr (by rw [hsame])) fun _ ↦ hnone'
      | stopped m₁ hscan hstopped hended hnone' =>
        refine hidle hscan (Member.finished_of_fault hstopped.fault) fun hsame ↦ ?_
        exact .stopped (hstopped.congr (congrArg HttpParser.parserResult hsame))
          (never_of_ended hended hnone')
      | threw m₁ hscan => exact absurd hread (Member.not_returns_of_threw hscan)

end

/-! ## Sessions -/

theorem engaged_opened (table : HeaderTable) {m : Member} (hentered : m.Entered) :
    Engaged table (opened m) [] [] := by
  have hfollowing := hentered.ready.following
    (by rw [hentered.headerValue]; exact fun _ hentry ↦ absurd hentry List.not_mem_nil) table
  rw [hentered.headerValue, hentered.unread] at hfollowing
  have hsends : m.writeLoop.Sends (m.writeLoop.outlet.wire ++ []) := by
    refine ⟨[], ⟨hentered.que, ?_, ?_, ?_⟩, rfl⟩
    · exact fun item hitem ↦ absurd hitem List.not_mem_nil
    · simp [UserBuffer.unread, hentered.spots.1, bufferedBytes]
    · simp [hentered.spots.2]
  have hstands : Stands table m.httpParser.parserResult.setKa [] [] (opened m).Unshifted m := by
    apply Stands.pursuing [] (.following hfollowing)
    · exact fun _ hentry ↦ absurd hentry List.not_mem_nil
    · exact fun _ ↦ ⟨fun _ hentry ↦ absurd hentry List.not_mem_nil, List.nil_subset _⟩
    · exact fun _ h _ hhead ↦ encode_ne_nil h (List.prefix_nil.mp hhead)
  exact ⟨rfl, hsends, .refl [], chronicled_nil _, fun _ ↦ chronicled_nil _, hstands⟩

theorem Engaged.closed {table : HeaderTable} {c : Session} {exchanges : List Exchange}
    {rest : List Byte} (hengaged : Engaged table c exchanges rest) :
    Engaged table { c with member := c.member.initiativeClose } exchanges rest := by
  have hstart : start { c with member := c.member.initiativeClose } = c.start ∨
      start { c with member := c.member.initiativeClose } = c.start.initiativeClose := by
    unfold start
    cases c.calls with
    | nil => exact .inr rfl
    | cons first calls => exact .inl rfl
  have hparser : (start { c with member := c.member.initiativeClose }).httpParser =
      c.start.httpParser := by
    rcases hstart with hstart | hstart
    · rw [hstart]
    · rw [hstart]
      rfl
  refine ⟨hengaged.received, hengaged.sends, hengaged.sites, ?_, hengaged.hosted, ?_⟩
  · rw [hparser]
    exact hengaged.right
  · rw [hparser]
    exact hengaged.stands.congr rfl

/-- As long as nothing has been thrown or moved in use, the session is a series of exchanges. -/
def Engages (table : HeaderTable) (c : Session) : Prop :=
  c.Own table ∧
    (c.Orderly table → c.Smooth → ∃ exchanges rest, Engaged table c exchanges rest)

theorem engages_lasting (table : HeaderTable) : Lasting table (Engages table) where
  opened m hentered := ⟨own_opened table hentered.que hentered.spots,
    fun _ _ ↦ ⟨[], [], engaged_opened table hentered⟩⟩
  served c call hengages := by
    obtain ⟨hown, hengages⟩ := hengages
    refine ⟨(own_lasting table).served c call hown, fun horderly hsmooth ↦ ?_⟩
    obtain ⟨hordered, horderly⟩ := List.forall_mem_append.mp horderly
    obtain ⟨hsmoothed, hsmooth⟩ := List.forall_mem_append.mp hsmooth
    obtain ⟨exchanges, rest, hengaged⟩ := hengages hordered hsmoothed
    obtain ⟨_, _, _, hsupplied, -⟩ := hown
    exact hengaged.called hsupplied (horderly (call, c.member) (List.mem_singleton_self _))
      (hsmooth (call, c.member) (List.mem_singleton_self _))
  closed c hengages := by
    obtain ⟨hown, hengages⟩ := hengages
    refine ⟨(own_lasting table).closed c hown, fun horderly hsmooth ↦ ?_⟩
    obtain ⟨exchanges, rest, hengaged⟩ := hengages horderly hsmooth
    exact ⟨exchanges, rest, hengaged.closed⟩

theorem Engages.converses {table : HeaderTable} {c : Session} (hengages : c.Engages table)
    (horderly : c.Orderly table) (hsmooth : c.Smooth) :
    ∃ exchanges rest pending, c.Converses exchanges rest pending := by
  obtain ⟨⟨_, _, _, hsupplied, -⟩, hengages⟩ := hengages
  obtain ⟨exchanges, rest, hengaged⟩ := hengages horderly hsmooth
  obtain ⟨items, hrepresents, htotal⟩ := hengaged.sends
  refine ⟨exchanges, rest, _, hengaged.received, htotal,
    hrepresents.length_pending hsupplied.proper, hengaged.sites, hengaged.right, hengaged.hosted,
    fun hopen ↦ ?_⟩
  cases hengaged.stands with
  | pursuing stale hpursues hfilled hremembers hnone => exact hnone hopen
  | stopped hstopped hnever =>
    have hnone := hnever []
    rwa [List.append_nil] at hnone

end Session

/-- In every run of the process, whatever the interleaving: what has come over a connection begins
with the heads of some requests, and what a worker has sent over it and has in line are the answers
to these heads, one behind the other in the same order. -/
theorem Process.converses_run {n : ℕ} [NeZero n] {table : HeaderTable} {balance : LoadBalance n}
    {eventfds : Fin n → ℕ} {schedule : List (Process.Act n)} {s : Process n}
    (hrun : run (Process.step table) schedule (.new balance eventfds) = some s)
    (hrunning : s.halted = none) (index : Fin n) (fd : ℕ) :
    (Process.session table index fd schedule (.new balance eventfds)).map Session.member =
        s.member index fd ∧
      ∀ c, Process.session table index fd schedule (.new balance eventfds) = some c →
        c.Orderly table → c.Smooth →
          ∃ exchanges rest pending, c.Converses exchanges rest pending := by
  obtain ⟨hmember, hengages⟩ :=
    Process.lasting_run (Session.engages_lasting table) hrun hrunning index fd
  exact ⟨hmember, fun c hc horderly hsmooth ↦ (hengages c hc).converses horderly hsmooth⟩

/-! ## A run -/

instance Receiving.decidableLegal (heap : ℕ → Byte) :
    (answers : List Recv) → DecidablePred (Receiving.Legal heap answers)
  | [], _ | .zero :: _, _ | .failed :: _, _ | .eagain :: _ :: _, _ => isFalse id
  | [.eagain], _ => isTrue trivial
  | .eintr :: rest, r => decidableLegal heap rest r
  | .bytes block :: rest, r =>
    have : Decidable (∀ r', turn heap (.bytes block) r = .ok true r' → Legal heap rest r') :=
      match turn heap (.bytes block) r with
      | .ok true r' =>
        have := decidableLegal heap rest r'
        decidable_of_iff (Legal heap rest r')
          ⟨fun hlegal _ hturn ↦ by cases hturn; exact hlegal, fun hlegal ↦ hlegal r' rfl⟩
      | .ok false _ | .error _ _ => isTrue fun _ hturn ↦ by cases hturn
    inferInstanceAs (Decidable (_ ∧ _ ∧ _))

namespace Member

instance (a : Arrival) (m : Member) : Decidable (Obeys a m) :=
  inferInstanceAs (Decidable (Receiving.Legal _ _ _))

instance (p : HttpParser) : Decidable p.Settled :=
  inferInstanceAs (Decidable (_ → _))

instance (a : Arrival) (m : Member) : Decidable (Calm a m) :=
  decidable_of_iff (Roomy m.httpParser.userBuffer (streamed a.received) ∧
      (m.httpParser.finished = false → m.httpParser.Settled))
    ⟨fun hcalm ↦ ⟨hcalm.1, hcalm.2⟩, fun hcalm ↦ ⟨hcalm.1, hcalm.2⟩⟩

instance (call : Call) : DecidablePred call.Smooth := fun _ ↦
  match call with
  | .doRead _ => inferInstanceAs (Decidable (_ ∧ _))
  | .doWrite _ => isTrue trivial

end Member

instance : DecidablePred Session.Smooth := fun c ↦
  inferInstanceAs (Decidable (∀ entry ∈ c.calls, Member.Call.Smooth entry.1 entry.2))

theorem Process.converses_run_visits : ∃ s, ∃ c : Session, ∃ exchanges rest pending,
    run (Process.step .sample) Process.visits (.new Distributing.even ![5, 6]) = some s ∧
      s.member Process.first 7 = some c.member ∧ c.received.length = 27 ∧ exchanges ≠ [] ∧
        c.Converses exchanges rest pending := by
  have hsession : (Process.session .sample Process.first 7 Process.visits
      (.new Distributing.even ![5, 6])).any
        (fun c ↦ c.received.length = 27 ∧ c.Smooth) = true := by decide +kernel
  obtain ⟨s, c, hrun, hrunning, hc, hbefore, hwire, horderly⟩ := Process.run_visits
  obtain ⟨hmember, hconverses⟩ := Process.converses_run hrun hrunning Process.first 7
  rw [hc] at hmember hsession
  obtain ⟨hreceived, hsmooth⟩ := of_decide_eq_true hsession
  obtain ⟨exchanges, rest, pending, hall⟩ := hconverses c hc horderly hsmooth
  have hanswered : exchanges ≠ [] := by
    intro hnone
    have hlength := congrArg List.length hall.sent
    rw [hnone, List.length_append, hwire, List.length_append, hbefore] at hlength
    simp only [List.flatMap_nil, List.length_nil] at hlength
    omega
  exact ⟨s, c, exchanges, rest, pending, hrun, hmember.symm, hreceived, hanswered, hall⟩

end LWebServer
