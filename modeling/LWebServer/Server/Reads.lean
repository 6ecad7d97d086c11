import LWebServer.Http.Answer
import LWebServer.Http.Progress
import LWebServer.Server.Malformed

/-!
# Runs of `DoRead`

A connection whose `DoRead` calls return one after another. A statement about such a run speaks, for
each call, of the bytes delivered before it, of the answers given before it, of what the call meets
and of the member. Calls that shift nothing in sight, and whose parses do not come to the end of a
full buffer, stand between the parses that `LWebServer.Http.Progress` describes.
-/

namespace LWebServer

/-- Two accepted heads at one place have the same bytes. -/
theorem encode_eq_of_prefix {h h' : RequestHead} (haccepted : h.Accepted) (haccepted' : h'.Accepted)
    {t : List Byte} (hhead : h.encode <+: t) (hhead' : h'.encode <+: t) : h.encode = h'.encode := by
  have hread := Scan.headRead_of_prefix haccepted hhead .keepAlive .hpfOK
  have hread' := Scan.headRead_of_prefix haccepted' hhead' .keepAlive .hpfOK
  have hlength := hread.consumed.symm.trans hread'.consumed
  exact (List.prefix_of_prefix_length_le hhead hhead' hlength.le).eq_of_length hlength

theorem encode_ne_nil (h : RequestHead) : h.encode ≠ [] := by
  simp [RequestHead.encode]

namespace Member

/-- `DoRead` calls `Provide`. -/
def provides (table : HeaderTable) (a : Arrival) (m : Member) : Bool :=
  match scan table a m with
  | .ok _ m₁ => m₁.httpParser.finished
  | .error _ _ => false

/-- The number of bytes that the parser takes from its buffer in a call. -/
def taken (table : HeaderTable) (a : Arrival) (m : Member) : ℕ :=
  match receive a m with
  | .ok _ m₀ => match parse table m₀ with
    | .ok _ m₁ => m₀.httpParser.userBuffer.unread.length - m₁.httpParser.userBuffer.unread.length
    | .error _ _ => 0
  | .error _ _ => 0

/-- What has happened on a connection: the bytes delivered, the number of requests answered, the
number of bytes that the parser has taken, the place in the stream where the head begins that is
parsed next or at present, and the entries that the header map held there. -/
structure Log where
  seen : List Byte := []
  answered : ℕ := 0
  place : ℕ := 0
  begun : ℕ := 0
  left : List HeaderEntry := []

/-- The log after a call from `m` to `m'`. -/
def Log.next (table : HeaderTable) (a : Arrival) (m m' : Member) (log : Log) : Log where
  seen := log.seen ++ streamed a.received
  answered := log.answered + (provides table a m).toNat
  place := log.place + taken table a m
  begun := if provides table a m then log.place + taken table a m else log.begun
  left := if provides table a m then m'.httpParser.requestResult.headerValue else log.left

/-- What has come of the head that is parsed next or at present, and of the bytes behind it, as far
as the `UserBuffer` of `m₀` holds it or the parser has taken it. -/
def Log.heard (log : Log) (a : Arrival) (m₀ : Member) : List Byte :=
  ((log.seen ++ streamed a.received).drop log.begun).take
    (log.place - log.begun + m₀.httpParser.userBuffer.unread.length)

theorem Log.next_seen (table : HeaderTable) (a : Arrival) (m m' : Member) (log : Log) :
    (log.next table a m m').seen = log.seen ++ streamed a.received := rfl

theorem Log.next_answered (table : HeaderTable) (a : Arrival) (m m' : Member) (log : Log) :
    (log.next table a m m').answered = log.answered + (provides table a m).toNat := rfl

theorem Log.next_of_unfinished {table : HeaderTable} {a : Arrival} {m : Member}
    (hprovides : provides table a m = false) (m' : Member) (log : Log) :
    log.next table a m m' = { log with
      seen := log.seen ++ streamed a.received
      place := log.place + taken table a m } := by
  simp only [Log.next, hprovides, Bool.false_eq_true, if_false, Bool.toNat_false, Nat.add_zero]

theorem Log.next_of_provides {table : HeaderTable} {a : Arrival} {m : Member}
    (hprovides : provides table a m = true) (m' : Member) (log : Log) :
    log.next table a m m' = {
      seen := log.seen ++ streamed a.received
      answered := log.answered + 1
      place := log.place + taken table a m
      begun := log.place + taken table a m
      left := m'.httpParser.requestResult.headerValue } := by
  simp only [Log.next, hprovides, if_true, Bool.toNat_true]

/-- Every `DoRead` of a run is as stated, as long as the calls before it have returned. -/
def AlongReads (table : HeaderTable) (P : Log → Arrival → Member → Prop) :
    Log → List Arrival → Member → Prop
  | _, [], _ => True
  | log, a :: arrivals, m => P log a m ∧
    ∀ m', doRead table a m = .ok () m' → AlongReads table P (log.next table a m m') arrivals m'

section

variable {table : HeaderTable} {P Q : Log → Arrival → Member → Prop} {log : Log}
  {arrivals : List Arrival} {m : Member}

/-- What each step preserves holds along the run. -/
theorem alongReads_of_invariant (inv : Log → Member → Prop)
    (hstep : ∀ log a m, inv log m → P log a m →
      Q log a m ∧ ∀ m', doRead table a m = .ok () m' → inv (log.next table a m m') m')
    (hinv : inv log m) (hrun : AlongReads table P log arrivals m) :
    AlongReads table Q log arrivals m := by
  induction arrivals generalizing log m with
  | nil => trivial
  | cons a arrivals ih =>
    obtain ⟨hnow, hlater⟩ := hrun
    obtain ⟨hholds, hnext⟩ := hstep log a m hinv hnow
    exact ⟨hholds, fun m' hread ↦ ih (hnext m' hread) (hlater m' hread)⟩

/-- Two statements that say the same of each step, while one of them keeps the invariant. -/
theorem alongReads_congr {R : Log → Arrival → Member → Prop} (inv : Log → Member → Prop)
    (hstep : ∀ log a m, inv log m → R log a m →
      (P log a m ↔ Q log a m) ∧ (Q log a m → ∀ m', doRead table a m = .ok () m' →
        inv (log.next table a m m') m'))
    (hinv : inv log m) (hrun : AlongReads table R log arrivals m) :
    AlongReads table P log arrivals m ↔ AlongReads table Q log arrivals m := by
  induction arrivals generalizing log m with
  | nil => rfl
  | cons a arrivals ih =>
    obtain ⟨hnow, hlater⟩ := hrun
    obtain ⟨hsame, hnext⟩ := hstep log a m hinv hnow
    constructor
    · rintro ⟨hP, hrest⟩
      have hQ := hsame.mp hP
      exact ⟨hQ, fun m' hread ↦ (ih (hnext hQ m' hread) (hlater m' hread)).mp (hrest m' hread)⟩
    · rintro ⟨hQ, hrest⟩
      exact ⟨hsame.mpr hQ,
        fun m' hread ↦ (ih (hnext hQ m' hread) (hlater m' hread)).mpr (hrest m' hread)⟩

theorem AlongReads.imp (himp : ∀ log a m, P log a m → Q log a m)
    (hP : AlongReads table P log arrivals m) : AlongReads table Q log arrivals m := by
  induction arrivals generalizing log m with
  | nil => trivial
  | cons a arrivals ih =>
    exact ⟨himp log a m hP.1, fun m' hread ↦ ih (hP.2 m' hread)⟩

theorem AlongReads.and (hP : AlongReads table P log arrivals m)
    (hQ : AlongReads table Q log arrivals m) :
    AlongReads table (fun log a m ↦ P log a m ∧ Q log a m) log arrivals m := by
  induction arrivals generalizing log m with
  | nil => trivial
  | cons a arrivals ih =>
    exact ⟨⟨hP.1, hQ.1⟩, fun m' hread ↦ ih (hP.2 m' hread) (hQ.2 m' hread)⟩

/-- Each delivery continues the stream. -/
theorem alongReads_prefix {stream : List Byte}
    (hstream : log.seen ++ arrivals.flatMap (fun a ↦ streamed a.received) <+: stream) :
    AlongReads table (fun log a _ ↦ log.seen ++ streamed a.received <+: stream) log arrivals m := by
  induction arrivals generalizing log m with
  | nil => trivial
  | cons a arrivals ih =>
    rw [List.flatMap_cons, ← List.append_assoc] at hstream
    exact ⟨(List.prefix_append _ _).trans hstream, fun m' _ ↦ ih hstream⟩

end

/-! ## One call -/

/-- The kernel keeps to the contract of `recv`. -/
def Obeys (a : Arrival) (m : Member) : Prop :=
  Receiving.Legal a.heap a.received
    (Receiving.start m.httpParser.extrabuffer m.httpParser.userBuffer)

/-- The bytes do not fill the `UserBuffer`, and none of a request that is being read are shifted
once its URI has been recorded. -/
structure Calm (a : Arrival) (m : Member) : Prop where
  roomy : Roomy m.httpParser.userBuffer (streamed a.received)
  settled : m.httpParser.finished = false → m.httpParser.Settled

/-- What a delivery does to the head that is being read: a shift takes nothing out of sight, and the
entries of earlier heads designate the names that they have designated. -/
structure Undisturbed (sight : Sight) (stale : List HeaderEntry) (a : Arrival) (m : Member) :
    Prop where
  steady : streamed a.received ≠ [] → m.httpParser.Steady sight stale
  old : sight.old → ∀ m₀, receive a m = .ok () m₀ →
    namesIn m.httpParser.userBuffer.buffer stale ⊆ namesIn m₀.httpParser.userBuffer.buffer stale

/-- A head is being read. -/
def Midway (m : Member) : Prop := m.httpParser.finished = false ∧ ¬ m.Stopped

/-- The parse of a call does not come to the end of a full `UserBuffer`, where the refill from the
`Extrabuf` would be. -/
def Spared (log : Log) (a : Arrival) (m : Member) : Prop :=
  ¬ m.Stopped → ∀ m₀, receive a m = .ok () m₀ → m₀.httpParser.Spare (log.heard a m₀)

/-- Between two calls, `t` bytes behind the last request that has been answered. The map holds the
entries `stale`, not counting those of the head that is being read. -/
inductive Standing (sight : Sight) (table : HeaderTable) (stale : List HeaderEntry) (t : List Byte)
    (m : Member) : Prop
  | between (hbetween : m.httpParser.Between sight t)
      (hstale : m.httpParser.requestResult.headerValue = stale)
  | reading (hreading : m.httpParser.Reading sight table stale t)

/-- The bytes `t` are those of the log behind the place where the head begins, and the parser has
taken all but the unread ones. What comes behind them is in the `Extrabuf`. -/
structure Placed (log : Log) (t : List Byte) (m : Member) : Prop where
  seen : ∃ before rest, log.seen = before ++ t ++ rest ∧ before.length = log.begun ∧
    (m.httpParser.extrabuffer.isVaild = false → rest = [])
  place : log.place + m.httpParser.userBuffer.unread.length = log.begun + t.length
  unread_le : m.httpParser.userBuffer.unread.length ≤ t.length
  idle : m.httpParser.extrabuffer.isVaild = false →
    m.httpParser.extrabuffer.bufferSize = bufferLength
  full : m.httpParser.extrabuffer.isVaild = true → m.httpParser.userBuffer.writeable = 0

variable {sight : Sight} {table : HeaderTable} {stale : List HeaderEntry} {t : List Byte}
  {a : Arrival} {log : Log} {m m₀ m₁ m' : Member}

theorem standing_new (sight : Sight) (table : HeaderTable) (fd : ℕ) (memory : HttpRequest)
    (interval : ℕ) : Standing sight table [] [] (new fd memory interval) :=
  .reading (HttpParser.reading_new sight table memory)

theorem placed_new (fd : ℕ) (memory : HttpRequest) (interval : ℕ) :
    Placed {} [] (new fd memory interval) :=
  ⟨⟨[], [], rfl, rfl, fun _ ↦ rfl⟩, rfl, le_rfl, fun _ ↦ rfl, fun h ↦ absurd h Bool.false_ne_true⟩

theorem Standing.readSpot_le (hstanding : Standing sight table stale t m) :
    m.httpParser.userBuffer.readSpot ≤ m.httpParser.userBuffer.writeSpot := by
  cases hstanding with
  | between hbetween => exact hbetween.readSpot_le
  | reading hreading => exact hreading.readSpot_le

theorem midway_of_reading (hreading : m.httpParser.Reading sight table stale t) :
    m.Midway := by
  refine ⟨hreading.unfinished, fun hstopped ↦ ?_⟩
  obtain ⟨pre, known, setKa, c, -, hwithin, hsees, -⟩ := hreading.sees
  exact hwithin.unfinished (hsees.paces.status.symm.trans hstopped.status)

theorem finished_receive (hreceive : receive a m = .ok () m₀) :
    m₀.httpParser.finished = m.httpParser.finished := by
  have hsame := parserResult_receive a m
  rw [hreceive] at hsame
  unfold HttpParser.finished
  rw [show m₀.httpParser.parserResult = _ from hsame]

/-- The call of `Read`. -/
theorem Standing.receives (hstanding : Standing sight table stale t m) (hplaced : Placed log t m)
    (hobeys : Obeys a m) : ∃ extra b, receive a m = .ok () { m with
        httpParser := { m.httpParser with extrabuffer := extra, userBuffer := b } } ∧
      Arrived m.httpParser.extrabuffer m.httpParser.userBuffer (streamed a.received) extra b := by
  obtain ⟨sum, extra, b, hread, harrived⟩ :=
    Socket.read_arrived hplaced.idle hplaced.full hstanding.readSpot_le hobeys
  refine ⟨extra, b, ?_, harrived⟩
  unfold Member.receive
  dsimp only
  rw [hread]

/-- `Read` puts bytes behind those that are there. -/
theorem Standing.received (hstanding : Standing sight table stale t m) (hplaced : Placed log t m)
    (hobeys : Obeys a m)
    (hundisturbed : m.Midway → Undisturbed sight stale a m)
    (hreceive : receive a m = .ok () m₀) :
    Standing sight table stale (log.heard a m₀) m₀ ∧
      Placed { log with seen := log.seen ++ streamed a.received } (log.heard a m₀) m₀ := by
  obtain ⟨extra, b, hreceive', harrived⟩ := hstanding.receives hplaced hobeys
  rw [hreceive] at hreceive'
  cases hreceive'
  obtain ⟨first, last, hstream, hreceived, hinvaild, hlast⟩ := harrived.received
  obtain ⟨before, rest, hseen, hbefore, hrest⟩ := hplaced.seen
  have hplace := hplaced.place
  have hle := hplaced.unread_le
  have hlength := congrArg List.length hreceived.unread
  rw [List.length_append] at hlength
  -- the bytes in the `Extrabuf`, if any, stay behind those in the `UserBuffer`
  obtain ⟨rest', hbehind, hrest'⟩ : ∃ rest', log.seen ++ streamed a.received =
      before ++ (t ++ first) ++ rest' ∧ (extra.isVaild = false → rest' = []) := by
    by_cases hvaild : m.httpParser.extrabuffer.isVaild = true
    · obtain ⟨rfl, hnone⟩ := harrived.vaild hvaild
      refine ⟨rest, ?_, hrest⟩
      rw [hinvaild hvaild, hnone, hseen, List.append_nil, List.append_nil]
    · refine ⟨last, ?_, hlast⟩
      rw [hseen, hrest (by simpa using hvaild), hstream]
      simp only [List.append_nil, List.append_assoc]
  have hheard : log.heard a { m with
      httpParser := { m.httpParser with extrabuffer := extra, userBuffer := b } } = t ++ first := by
    have hcount : log.place - log.begun + b.unread.length = (t ++ first).length := by
      rw [List.length_append]
      omega
    unfold Log.heard
    dsimp only
    rw [hbehind, List.append_assoc, ← hbefore, List.drop_left, hbefore, hcount, List.take_left]
  rw [hheard]
  refine ⟨?_, ⟨before, rest', hbehind, hbefore, hrest'⟩, ?_, ?_, fun hnot ↦ ?_, harrived.full⟩
  · cases hstanding with
    | between hbetween hstale => exact .between (hbetween.received hreceived extra) hstale
    | reading hreading =>
      obtain ⟨hsteady, hold⟩ := hundisturbed (midway_of_reading hreading)
      by_cases hsome : streamed a.received = []
      · obtain ⟨rfl, rfl⟩ := harrived.silent hsome
        obtain rfl : first = [] := by
          rw [hsome] at hstream
          exact (List.append_eq_nil_iff.mp hstream.symm).1
        rw [List.append_nil]
        exact .reading hreading
      · exact .reading
          (hreading.received (hsteady hsome) hreceived (fun h ↦ hold h _ hreceive) extra)
  · dsimp only
    rw [List.length_append]
    omega
  · dsimp only
    rw [List.length_append]
    omega
  · have hsame := harrived.idle hnot
    dsimp only at hnot ⊢
    rw [hsame] at hnot ⊢
    exact hplaced.idle hnot

/-- The call of `Starting_Parser` has only moved the read position. -/
structure Behind (m₀ m₁ : Member) : Prop where
  extrabuffer : m₁.httpParser.extrabuffer = m₀.httpParser.extrabuffer
  userBuffer : ∃ n, m₁.httpParser.userBuffer = m₀.httpParser.userBuffer.read n

theorem Behind.length_le (hbehind : Behind m₀ m₁) :
    m₁.httpParser.userBuffer.unread.length ≤ m₀.httpParser.userBuffer.unread.length := by
  obtain ⟨n, hbuffer⟩ := hbehind.userBuffer
  rw [hbuffer, UserBuffer.unread_read, List.length_drop]
  exact Nat.sub_le _ _

theorem Behind.buffer_eq (hbehind : Behind m₀ m₁) :
    m₁.httpParser.userBuffer.buffer = m₀.httpParser.userBuffer.buffer := by
  obtain ⟨n, hbuffer⟩ := hbehind.userBuffer
  rw [hbuffer]
  rfl

/-- How parsing ends behind `Read`, when `t` is what has come since the last answered request. -/
inductive Scanned (sight : Sight) (table : HeaderTable) (stale : List HeaderEntry) (t : List Byte)
    (m₀ : Member) : Prop
  | finished (h : RequestHead) (m₁ : Member) (hparse : parse table m₀ = .ok () m₁)
      (hfinished : m₁.httpParser.Finished sight table stale h t) (hbehind : Behind m₀ m₁)
  | reading (m₁ : Member) (hparse : parse table m₀ = .ok () m₁)
      (hreading : m₁.httpParser.Reading sight table stale t) (hbehind : Behind m₀ m₁)
      (hunread : m₁.httpParser.userBuffer.unread = [])
      (hopen : ∃ setKa, ¬ ((Scan.start setKa .hpfOK).scan t).ended)
      (hnone : ∀ h : RequestHead, h.Accepted → ¬ h.encode <+: t)
  | stopped (m₁ : Member) (hparse : parse table m₀ = .ok () m₁) (hstopped : m₁.Stopped)
      (hended : ∃ setKa, ((Scan.start setKa .hpfOK).scan t).ended)
      (hnone : ∀ h : RequestHead, h.Accepted → ¬ h.encode <+: t)
  | threw (m₁ : Member) (hparse : parse table m₀ = .error .outOfRange m₁)
  | severed (hline : ¬ sight.line) (m₁ : Member) (hparse : parse table m₀ = .ok () m₁)
      (hstopped : m₁.Stopped) (pre : List Byte) (n : ℕ)
      (ht : t = pre ++ m₀.httpParser.userBuffer.unread)
      (hbuffer : m₁.httpParser.userBuffer = m₀.httpParser.userBuffer.read n)
      (hpos : 0 < n) (hn : n ≤ m₀.httpParser.userBuffer.unread.length)
      (hopen : ∃ setKa, ¬ ((Scan.start setKa .hpfOK).scan
        (pre ++ m₀.httpParser.userBuffer.unread.take n)).ended)
  | refused (hline : ¬ sight.line) (hended : ∃ setKa, ((Scan.start setKa .hpfOK).scan t).ended)
      (hnone : ∀ h : RequestHead, h.Accepted → ¬ h.encode <+: t)

/-- Parsing, from the parser that the call begins with. -/
theorem parse_of_begins {p : HttpParser}
    (hbegins : (if m₀.httpParser.finished then m₀.httpParser.againParser else m₀.httpParser) = p) :
    parse table m₀ = match HttpParser.startingParser table p with
      | .ok _ q => .ok () { m₀ with httpParser := q }
      | .error e q => .error e { m₀ with httpParser := q } := by
  subst hbegins
  rfl

/-- Receiving and parsing, from the parser that the call begins with. -/
theorem scan_of_receive {p : HttpParser} (hreceive : receive a m = .ok () m₀)
    (hbegins : (if m₀.httpParser.finished then m₀.httpParser.againParser else m₀.httpParser) = p) :
    scan table a m = match HttpParser.startingParser table p with
      | .ok _ q => .ok () { m₀ with httpParser := q }
      | .error e q => .error e { m₀ with httpParser := q } := by
  subst hbegins
  exact Op.bind_of_ok hreceive

theorem scanned_of_proceeds {p : HttpParser}
    (hbegins : (if m₀.httpParser.finished then m₀.httpParser.againParser else m₀.httpParser) = p)
    (hbuffer : p.userBuffer = m₀.httpParser.userBuffer)
    (hextra : p.extrabuffer = m₀.httpParser.extrabuffer)
    (hproceeds : p.Proceeds sight table stale t) : Scanned sight table stale t m₀ := by
  have hparse : parse table m₀ = _ := parse_of_begins hbegins
  cases hproceeds with
  | finished h q hcall hfinished hextra' hbuffer' =>
    rw [hcall] at hparse
    rw [hbuffer] at hbuffer'
    exact .finished h _ hparse hfinished ⟨hextra'.trans hextra, hbuffer'⟩
  | reading fault q hcall hreading hextra' hbuffer' hunread hopen hnone =>
    rw [hcall] at hparse
    rw [hbuffer] at hbuffer'
    exact .reading _ hparse hreading ⟨hextra'.trans hextra, hbuffer'⟩ hunread hopen hnone
  | stopped fault q hcall hhalted hended hnone =>
    rw [hcall] at hparse
    exact .stopped _ hparse ⟨hhalted.1, hhalted.2⟩ hended hnone
  | threw q hcall =>
    rw [hcall] at hparse
    exact .threw _ hparse
  | severed hline fault q hcall hhalted pre n ht hbuffer' hextra' hpos hn hopen =>
    rw [hcall] at hparse
    rw [hbuffer] at ht hbuffer' hn hopen
    exact .severed hline _ hparse ⟨hhalted.1, hhalted.2⟩ pre n ht hbuffer' hpos hn hopen
  | refused hline hended hnone => exact .refused hline hended hnone

theorem Standing.scanned (hstanding : Standing sight table stale t m₀)
    (hspare : m₀.httpParser.Spare t) : Scanned sight table stale t m₀ := by
  cases hstanding with
  | between hbetween hstale =>
    have hproceeds := (hbetween.againParser table).proceeds hspare
    rw [hstale] at hproceeds
    exact scanned_of_proceeds (if_pos hbetween.finished) rfl rfl hproceeds
  | reading hreading =>
    apply scanned_of_proceeds _ rfl rfl (hreading.proceeds hspare)
    rw [if_neg (by rw [hreading.unfinished]; exact Bool.false_ne_true)]

/-- A parse that finishes a request has read a head. -/
theorem Scanned.exists_finished (hscanned : Scanned sight table stale t m₀) (hline : sight.line)
    (hparse : parse table m₀ = .ok () m₁) (hfinished : m₁.httpParser.finished = true) :
    ∃ h, m₁.httpParser.Finished sight table stale h t ∧ Behind m₀ m₁ := by
  cases hscanned with
  | finished h m₂ hparse' hfinished' hbehind =>
    rw [hparse] at hparse'
    cases hparse'
    exact ⟨h, hfinished', hbehind⟩
  | reading m₂ hparse' hreading =>
    rw [hparse] at hparse'
    cases hparse'
    rw [hreading.unfinished] at hfinished
    cases hfinished
  | stopped m₂ hparse' hstopped =>
    rw [hparse] at hparse'
    cases hparse'
    rw [finished_of_fault hstopped.fault] at hfinished
    cases hfinished
  | threw m₂ hparse' =>
    rw [hparse] at hparse'
    cases hparse'
  | severed hnot => exact absurd hline hnot
  | refused hnot => exact absurd hline hnot

/-- What comes after the parse leaves the parser as it is, but for the status code of the
request. -/
theorem httpParser_doRead (hscan : scan table a m = .ok () m₁)
    (hread : doRead table a m = .ok () m') :
    ∃ request, m'.httpParser = { m₁.httpParser with requestResult := request } ∧
      request.headerValue = m₁.httpParser.requestResult.headerValue := by
  obtain ⟨m₂, result, m₃, htake, hdo, hend⟩ := doRead_ok hread
  have hsame := httpParser_doAll a.accepts m₂
  rw [hdo] at hsame
  have hparser : m'.httpParser = m₂.httpParser := by
    rw [hend]
    split_ifs <;> exact hsame
  rw [take_eq, Op.bind_of_ok hscan] at htake
  rw [hparser]
  unfold answer at htake
  split_ifs at htake with hfinished
  · have hkeeps := REAProvider.keeps_provide table a.site m₁.httpParser.userBuffer.buffer
      ⟨m₁.httpParser.requestResult, m₁.writeLoop⟩
    dsimp only at htake
    split at htake
    case h_1 hprovide =>
      rw [hprovide] at hkeeps
      cases htake
      exact ⟨_, rfl, hkeeps⟩
    case h_2 => cases htake
  · cases htake
    exact ⟨_, rfl, rfl⟩

theorem HttpParser.Between.with_request {p : HttpParser} (hbetween : p.Between sight t)
    {request : HttpRequest} (hsame : request.headerValue = p.requestResult.headerValue) :
    HttpParser.Between sight t { p with requestResult := request } :=
  ⟨hbetween.finished, hbetween.readSpot_le, hbetween.unread, hsame ▸ hbetween.whole⟩

theorem provides_eq (hscan : scan table a m = .ok () m₁) :
    provides table a m = m₁.httpParser.finished := by
  simp only [provides, hscan]

theorem taken_eq (hreceive : receive a m = .ok () m₀) (hparse : parse table m₀ = .ok () m₁) :
    taken table a m = m₀.httpParser.userBuffer.unread.length -
      m₁.httpParser.userBuffer.unread.length := by
  simp only [taken, hreceive, hparse]

/-- A call that has returned has received and parsed. -/
theorem receive_parse_of_doRead (hread : doRead table a m = .ok () m') : ∃ m₀ m₁,
    receive a m = .ok () m₀ ∧ parse table m₀ = .ok () m₁ ∧ scan table a m = .ok () m₁ := by
  obtain ⟨m₂, result, m₃, htake, -⟩ := doRead_ok hread
  rw [take_eq] at htake
  obtain ⟨_, m₁, hscan, -⟩ := Op.bind_ok htake
  obtain ⟨_, m₀, hreceive, hparse⟩ := Op.bind_ok hscan
  exact ⟨m₀, m₁, hreceive, hparse, hscan⟩

/-- Behind a finished request. -/
theorem standing_of_finished {h : RequestHead} (hscan : scan table a m = .ok () m₁)
    (hfinished : m₁.httpParser.Finished sight table stale h t)
    (hread : doRead table a m = .ok () m') :
    Standing sight table m'.httpParser.requestResult.headerValue (t.drop h.encode.length) m' := by
  obtain ⟨request, hparser, hsame⟩ := httpParser_doRead hscan hread
  have hbetween := HttpParser.Between.with_request hfinished.between hsame
  rw [← hparser] at hbetween
  exact .between hbetween rfl

/-- A call that finishes no request leaves the parser as the parse has. -/
theorem httpParser_of_unfinished (hscan : scan table a m = .ok () m₁)
    (hunfinished : m₁.httpParser.finished = false) (hread : doRead table a m = .ok () m') :
    m'.httpParser = m₁.httpParser := by
  have hfault : m₁.httpParser.parserResult.fault ≠ .hpfContent := by
    simpa [HttpParser.finished] using hunfinished
  obtain ⟨m₂, result, m₃, htake, hdo, hend⟩ := doRead_ok hread
  rw [take_eq, Op.bind_of_ok hscan, answer_of_fault table a hfault] at htake
  cases htake
  have hsame := httpParser_doAll a.accepts m₁
  rw [hdo] at hsame
  rw [hend]
  split_ifs <;> exact hsame

/-- Inside a head. -/
theorem standing_of_reading (hscan : scan table a m = .ok () m₁)
    (hreading : m₁.httpParser.Reading sight table stale t) (hread : doRead table a m = .ok () m') :
    Standing sight table stale t m' := by
  have hparser := httpParser_of_unfinished hscan hreading.unfinished hread
  exact .reading (hparser ▸ hreading)

/-- A call that finishes no request returns with what the parse has left. -/
theorem doRead_of_unfinished (hscan : scan table a m = .ok () m₁)
    (hunfinished : m₁.httpParser.finished = false) {result : CompleteType} {m₂ : Member}
    (hdo : doAll a.accepts m₁ = .ok result m₂) :
    ∃ m', doRead table a m = .ok () m' ∧ m'.httpParser = m₁.httpParser := by
  obtain ⟨_, m₀, hreceive, hparse⟩ := Op.bind_ok hscan
  have hanswer : answer table a m₁ = .ok () m₁ := by
    unfold answer
    rw [hunfinished, if_neg Bool.false_ne_true]
  have hsame := httpParser_doAll a.accepts m₁
  rw [hdo] at hsame
  unfold doRead
  rw [Op.bind_of_ok hreceive, Op.bind_of_ok hparse, Op.bind_of_ok hanswer, Op.bind_of_ok hdo]
  split_ifs
  · exact ⟨_, rfl, hsame⟩
  · exact ⟨_, rfl, hsame⟩

/-- A call whose scan throws does not return. -/
theorem not_returns_of_threw {e : Fail} {m₁ : Member} (hscan : scan table a m = .error e m₁) :
    doRead table a m ≠ .ok () m' := by
  intro hread
  obtain ⟨m₂, result, m₃, htake, -⟩ := doRead_ok hread
  rw [take_eq, Op.bind_of_error hscan] at htake
  cases htake

/-! ## The log -/

section

/-- The log after a call that has read a head. -/
theorem Placed.next_finished {h : RequestHead}
    (hplaced : Placed { log with seen := log.seen ++ streamed a.received } t m₀)
    (hreceive : receive a m = .ok () m₀) (hparse : parse table m₀ = .ok () m₁)
    (hfinished : m₁.httpParser.Finished sight table stale h t) (hbehind : Behind m₀ m₁)
    (hread : doRead table a m = .ok () m') :
    Placed (log.next table a m m') (t.drop h.encode.length) m' := by
  have hscan : scan table a m = .ok () m₁ := (Op.bind_of_ok hreceive).trans hparse
  have hprovides : provides table a m = true :=
    (provides_eq hscan).trans hfinished.between.finished
  obtain ⟨request, hparser, -⟩ := httpParser_doRead hscan hread
  obtain ⟨before, rest, hseen, hbefore, hrest⟩ := hplaced.seen
  obtain ⟨more, hmore⟩ := hfinished.head
  have hplace := hplaced.place
  have hshrink := hbehind.length_le
  have hlength := congrArg List.length hmore
  have hunread := hfinished.between.unread
  rw [← hmore, List.drop_left] at hunread
  rw [List.length_append] at hlength
  rw [hunread] at hshrink
  obtain ⟨n, hbuffer⟩ := hbehind.userBuffer
  rw [Log.next_of_provides hprovides, taken_eq hreceive hparse, hunread, ← hmore, List.drop_left]
  refine ⟨⟨before ++ h.encode, rest, ?_, ?_, ?_⟩, ?_, ?_, ?_, ?_⟩
  · dsimp only at hseen ⊢
    rw [hseen, ← hmore]
    simp only [List.append_assoc]
  · dsimp only at hplace hbefore ⊢
    rw [List.length_append]
    omega
  · rw [hparser]
    exact hbehind.extrabuffer ▸ hrest
  · rw [hparser]
    dsimp only
    rw [hunread]
  · rw [hparser]
    dsimp only
    rw [hunread]
  · rw [hparser]
    exact hbehind.extrabuffer ▸ hplaced.idle
  · rw [hparser]
    intro hvaild
    have hfull := hplaced.full (hbehind.extrabuffer ▸ hvaild)
    dsimp only
    rw [hbuffer]
    exact hfull

/-- The log after a call that goes on reading a head. -/
theorem Placed.next_reading
    (hplaced : Placed { log with seen := log.seen ++ streamed a.received } t m₀)
    (hreceive : receive a m = .ok () m₀) (hparse : parse table m₀ = .ok () m₁)
    (hunfinished : m₁.httpParser.finished = false) (hbehind : Behind m₀ m₁)
    (hread : doRead table a m = .ok () m') : Placed (log.next table a m m') t m' := by
  have hscan : scan table a m = .ok () m₁ := (Op.bind_of_ok hreceive).trans hparse
  have hprovides : provides table a m = false := (provides_eq hscan).trans hunfinished
  have hparser := httpParser_of_unfinished hscan hunfinished hread
  have hplace := hplaced.place
  have hshrink := hbehind.length_le
  have hle := hplaced.unread_le
  obtain ⟨before, rest, hseen, hbefore, hrest⟩ := hplaced.seen
  obtain ⟨n, hbuffer⟩ := hbehind.userBuffer
  rw [Log.next_of_unfinished hprovides, taken_eq hreceive hparse]
  refine ⟨⟨before, rest, hseen, hbefore, ?_⟩, ?_, ?_, ?_, ?_⟩
  · rw [hparser]
    exact hbehind.extrabuffer ▸ hrest
  · rw [hparser]
    dsimp only at hplace ⊢
    omega
  · rw [hparser]
    omega
  · rw [hparser]
    exact hbehind.extrabuffer ▸ hplaced.idle
  · rw [hparser]
    intro hvaild
    have hfull := hplaced.full (hbehind.extrabuffer ▸ hvaild)
    rw [hbuffer]
    exact hfull

/-- The connection stands where the log says, or its parser has stopped at a fault. -/
inductive Logged (sight : Sight) (table : HeaderTable) (log : Log) (m : Member) : Prop
  | standing (t : List Byte) (hstanding : Standing sight table log.left t m)
      (hplaced : Placed log t m)
  | stopped (hstopped : m.Stopped)

theorem logged_new (sight : Sight) (table : HeaderTable) (fd : ℕ) (memory : HttpRequest)
    (interval : ℕ) : Logged sight table {} (new fd memory interval) :=
  .standing [] (standing_new sight table fd memory interval) (placed_new fd memory interval)

theorem stopped_receive (hstopped : m.Stopped) (hreceive : receive a m = .ok () m₀) :
    m₀.Stopped := by
  have hsame := parserResult_receive a m
  rw [hreceive] at hsame
  exact hstopped.congr hsame

theorem stopped_scan (hstopped : m.Stopped) (hscan : scan table a m = .ok () m₁) : m₁.Stopped := by
  obtain ⟨_, m₀, hreceive, hparse⟩ := Op.bind_ok hscan
  obtain ⟨m₁', hparse', hstopped', -⟩ :=
    parse_of_stopped table (stopped_receive hstopped hreceive)
  rw [hparse] at hparse'
  cases hparse'
  exact hstopped'

/-- A parser that stands somewhere has not stopped. -/
theorem Standing.not_stopped (hstanding : Standing sight table stale t m) : ¬ m.Stopped := by
  intro hstopped
  cases hstanding with
  | between hbetween =>
    have hfinished := hbetween.finished
    rw [finished_of_fault hstopped.fault] at hfinished
    cases hfinished
  | reading hreading => exact (midway_of_reading hreading).2 hstopped

/-- Receiving and parsing where the log is right. -/
theorem Standing.scanned_of_receive (hstanding : Standing sight table stale t m)
    (hplaced : Placed log t m) (hobeys : Obeys a m) (hspared : Spared log a m)
    (hundisturbed : m.Midway → Undisturbed sight stale a m)
    (hreceive : receive a m = .ok () m₀) :
    Placed { log with seen := log.seen ++ streamed a.received } (log.heard a m₀) m₀ ∧
      Standing sight table stale (log.heard a m₀) m₀ ∧
      Scanned sight table stale (log.heard a m₀) m₀ := by
  obtain ⟨hstanding₀, hplaced₀⟩ := hstanding.received hplaced hobeys hundisturbed hreceive
  exact ⟨hplaced₀, hstanding₀,
    hstanding₀.scanned (hspared hstanding.not_stopped m₀ hreceive)⟩

/-- The bytes of the head that is parsed are those of the stream. -/
theorem Log.heard_stream (log : Log) (a : Arrival) (m₀ : Member) :
    log.heard a m₀ <+: (log.seen ++ streamed a.received).drop log.begun :=
  List.take_prefix _ _

/-- A call that finishes a request has read a head of the stream. -/
theorem Logged.finished (hlogged : Logged sight table log m) (hline : sight.line)
    (hobeys : Obeys a m) (hspared : Spared log a m)
    (hundisturbed : m.Midway → Undisturbed sight log.left a m)
    (hscan : scan table a m = .ok () m₁) (hfinished : m₁.httpParser.finished = true) :
    ∃ m₀ h, receive a m = .ok () m₀ ∧
      m₁.httpParser.Finished sight table log.left h (log.heard a m₀) ∧ Behind m₀ m₁ := by
  cases hlogged with
  | standing t hstanding hplaced =>
    obtain ⟨_, m₀, hreceive, hparse⟩ := Op.bind_ok hscan
    obtain ⟨-, -, hscanned⟩ :=
      hstanding.scanned_of_receive hplaced hobeys hspared hundisturbed hreceive
    obtain ⟨h, hfinished', hbehind⟩ := hscanned.exists_finished hline hparse hfinished
    exact ⟨m₀, h, hreceive, hfinished', hbehind⟩
  | stopped hstopped =>
    rw [finished_of_fault (stopped_scan hstopped hscan).fault] at hfinished
    cases hfinished

theorem Logged.step (hlogged : Logged sight table log m) (hline : sight.line) (hobeys : Obeys a m)
    (hspared : Spared log a m)
    (hundisturbed : m.Midway → Undisturbed sight log.left a m)
    (hread : doRead table a m = .ok () m') :
    Logged sight table (log.next table a m m') m' := by
  cases hlogged with
  | stopped hstopped =>
    have hafter := stopped_run table (.doRead a) hstopped
    rw [Call.run, hread] at hafter
    exact .stopped hafter
  | standing t hstanding hplaced =>
    obtain ⟨m₀, m₁, hreceive, hparse, hscan⟩ := receive_parse_of_doRead hread
    obtain ⟨hplaced₀, -, hscanned⟩ :=
      hstanding.scanned_of_receive hplaced hobeys hspared hundisturbed hreceive
    have hunique {m₂ : Member} (hparse' : parse table m₀ = .ok () m₂) : m₂ = m₁ := by
      rw [hparse] at hparse'
      cases hparse'
      rfl
    cases hscanned with
    | finished h m₂ hparse' hfinished hbehind =>
      obtain rfl := hunique hparse'
      have hprovides : provides table a m = true :=
        (provides_eq hscan).trans hfinished.between.finished
      refine .standing _ ?_ (hplaced₀.next_finished hreceive hparse hfinished hbehind hread)
      rw [Log.next_of_provides hprovides]
      exact standing_of_finished hscan hfinished hread
    | reading m₂ hparse' hreading hbehind =>
      obtain rfl := hunique hparse'
      have hprovides : provides table a m = false :=
        (provides_eq hscan).trans hreading.unfinished
      refine .standing _ ?_
        (hplaced₀.next_reading hreceive hparse hreading.unfinished hbehind hread)
      rw [Log.next_of_unfinished hprovides]
      exact standing_of_reading hscan hreading hread
    | stopped m₂ hparse' hstopped =>
      obtain rfl := hunique hparse'
      have hsame := doRead_of_stopped hscan hstopped
      rw [hread] at hsame
      exact .stopped (hstopped.congr (congrArg HttpParser.parserResult hsame))
    | threw m₂ hparse' =>
      rw [hparse] at hparse'
      cases hparse'
    | severed hnot => exact absurd hline hnot
    | refused hnot => exact absurd hline hnot

/-- What every call gives where the log is right holds along a run from a new connection in which
nothing gets out of sight. -/
theorem alongReads_of_logged {P Q : Log → Arrival → Member → Prop} (sight : Sight)
    (hline : sight.line)
    (hundisturbed : ∀ log a m, P log a m → Logged sight table log m → m.Midway →
      Undisturbed sight log.left a m)
    (hstep : ∀ log a m, Logged sight table log m → Obeys a m → Spared log a m → P log a m →
      Q log a m)
    {arrivals : List Arrival} (fd : ℕ) (memory : HttpRequest) (interval : ℕ)
    (hobeys : AlongReads table (fun _ ↦ Obeys) {} arrivals (new fd memory interval))
    (hspared : AlongReads table Spared {} arrivals (new fd memory interval))
    (hrun : AlongReads table P {} arrivals (new fd memory interval)) :
    AlongReads table Q {} arrivals (new fd memory interval) := by
  apply alongReads_of_invariant (Logged sight table) _ (logged_new sight table fd memory interval)
    ((hobeys.and hspared).and hrun)
  rintro log a m hlogged ⟨⟨hobeys, hspared⟩, hP⟩
  exact ⟨hstep log a m hlogged hobeys hspared hP, fun m' ↦
    hlogged.step hline hobeys hspared (hundisturbed log a m hP hlogged)⟩

end

/-! ## Streams of heads -/

/-- How parsing ends where an accepted head begins. -/
inductive Served (sight : Sight) (table : HeaderTable) (stale : List HeaderEntry) (h : RequestHead)
    (t : List Byte) (m₀ : Member) : Prop
  | finished (k : RequestHead) (m₁ : Member) (hhead : h.encode <+: t) (hsame : k.encode = h.encode)
      (hparse : parse table m₀ = .ok () m₁)
      (hfinished : m₁.httpParser.Finished sight table stale k t) (hbehind : Behind m₀ m₁)
  | reading (m₁ : Member) (hparse : parse table m₀ = .ok () m₁)
      (hreading : m₁.httpParser.Reading sight table stale t) (hbehind : Behind m₀ m₁)
      (hunread : m₁.httpParser.userBuffer.unread = []) (hshort : t.length < h.encode.length)
  | threw (m₁ : Member) (hparse : parse table m₀ = .error .outOfRange m₁)
  | severed (hline : ¬ sight.line) (m₁ : Member) (hparse : parse table m₀ = .ok () m₁)
      (hstopped : m₁.Stopped) (pre : List Byte) (n : ℕ)
      (ht : t = pre ++ m₀.httpParser.userBuffer.unread)
      (hbuffer : m₁.httpParser.userBuffer = m₀.httpParser.userBuffer.read n)
      (hpos : 0 < n) (hn : n ≤ m₀.httpParser.userBuffer.unread.length)
      (hshort : pre.length + n < h.encode.length)

/-- Inside an accepted head, bytes behind which the machine has not stopped are fewer than those of
the head. -/
theorem length_lt_of_open {h : RequestHead} (haccepted : h.Accepted) {part more : List Byte}
    (hstream : part <+: h.encode ++ more)
    (hopen : ∃ setKa, ¬ ((Scan.start setKa .hpfOK).scan part).ended) :
    part.length < h.encode.length := by
  obtain ⟨setKa, hopen⟩ := hopen
  by_contra hlong
  obtain ⟨rest, rfl⟩ := List.prefix_of_prefix_length_le (List.prefix_append h.encode more) hstream
    (Nat.le_of_not_lt hlong)
  rw [Scan.scan_encode_append haccepted] at hopen
  exact hopen (Scan.ended_scan_encode haccepted _ _)

theorem Scanned.served (hscanned : Scanned sight table stale t m₀) {h : RequestHead}
    (haccepted : h.Accepted) {more : List Byte} (hstream : t <+: h.encode ++ more) :
    Served sight table stale h t m₀ := by
  have hhead : h.encode <+: h.encode ++ more := List.prefix_append _ _
  -- a fault would have to lie behind the head, which would have been read
  have hsound (hended : ∃ setKa, ((Scan.start setKa .hpfOK).scan t).ended) : h.encode <+: t := by
    by_contra hnot
    have hshort : t.length < h.encode.length := by
      by_contra hlong
      exact hnot (List.prefix_of_prefix_length_le hhead hstream (Nat.le_of_not_lt hlong))
    obtain ⟨setKa, hended⟩ := hended
    exact not_ended_of_prefix haccepted
      (List.prefix_of_prefix_length_le hstream hhead hshort.le) hshort setKa hended
  cases hscanned with
  | finished k m₁ hparse hfinished hbehind =>
    obtain ⟨rest, hrest⟩ := hfinished.head
    have hinside : h.encode <+: t := by
      apply hsound
      rw [← hrest]
      refine ⟨.keepAlive, ?_⟩
      rw [Scan.scan_encode_append hfinished.accepted]
      exact Scan.ended_scan_encode hfinished.accepted _ _
    have hsame := encode_eq_of_prefix hfinished.accepted haccepted hfinished.head hinside
    exact .finished k m₁ hinside hsame hparse hfinished hbehind
  | reading m₁ hparse hreading hbehind hunread hopen hnone =>
    exact .reading m₁ hparse hreading hbehind hunread (length_lt_of_open haccepted hstream hopen)
  | stopped m₁ hparse hstopped hended hnone => exact absurd (hsound hended) (hnone h haccepted)
  | threw m₁ hparse => exact .threw m₁ hparse
  | severed hline m₁ hparse hstopped pre n ht hbuffer hpos hn hopen =>
    refine .severed hline m₁ hparse hstopped pre n ht hbuffer hpos hn ?_
    have hpart : pre ++ m₀.httpParser.userBuffer.unread.take n <+: t := by
      rw [ht]
      exact (List.prefix_append_right_inj _).mpr (List.take_prefix _ _)
    have hlength := length_lt_of_open haccepted (hpart.trans hstream) hopen
    rwa [List.length_append, List.length_take, Nat.min_eq_left hn] at hlength
  | refused hline hended hnone => exact absurd (hsound hended) (hnone h haccepted)

/-- Without bytes there is nothing to parse. -/
theorem Scanned.idle (hscanned : Scanned sight table stale [] m₀) :
    (∃ m₁, parse table m₀ = .ok () m₁ ∧ m₁.httpParser.Reading sight table stale [] ∧
      Behind m₀ m₁ ∧ m₁.httpParser.userBuffer.unread = []) ∨
    (∃ m₁, parse table m₀ = .error .outOfRange m₁) := by
  have hopen {n : ℕ} {setKa : HttpFlag} :
      ¬ ((Scan.start setKa .hpfOK).scan (([] : List Byte).take n)).ended := by
    rw [List.take_nil]
    exact HttpParserStatus.noConfusion
  cases hscanned with
  | finished h m₁ hparse hfinished =>
    exact absurd (List.prefix_nil.mp hfinished.head) (encode_ne_nil h)
  | reading m₁ hparse hreading hbehind hunread =>
    exact .inl ⟨m₁, hparse, hreading, hbehind, hunread⟩
  | stopped m₁ hparse hstopped hended =>
    obtain ⟨setKa, hended⟩ := hended
    exact absurd hended (hopen (n := 0))
  | threw m₁ hparse => exact .inr ⟨m₁, hparse⟩
  | severed hline m₁ hparse hstopped pre n ht hbuffer hpos hn hopen' =>
    rw [(List.append_eq_nil_iff.mp ht.symm).2] at hn
    exact absurd hpos (Nat.not_lt.mpr hn)
  | refused hline hended =>
    obtain ⟨setKa, hended⟩ := hended
    exact absurd hended (hopen (n := 0))

end Member

end LWebServer
