import LWebServer.Server.Pieces
import Mathlib.Data.List.Infix

/-!
# Bodies

`Parsering` stops behind the empty line of a head and nothing skips what follows. The body of a
request is therefore parsed as the next request.
-/

namespace LWebServer

/-- A request with the body that its head announces. -/
structure Message where
  head : RequestHead
  body : List Byte
  accepted : head.Accepted
  announced : (∃ l ∈ head.lines, l.name = HttpParser.contentLengthKey ∧
      (∀ ch ∈ l.value, isDigit ch) ∧ numeral l.value = body.length) ∨
    (body = [] ∧ ∀ l ∈ head.lines, l.name ≠ HttpParser.contentLengthKey)

/-- The stream of some requests with their bodies. -/
def carried (messages : List Message) : List Byte :=
  messages.flatMap fun x ↦ x.head.encode ++ x.body

/-- The heads of some requests, one behind the other. -/
def headsOf (messages : List Message) : List Byte := messages.flatMap fun x ↦ x.head.encode

theorem carried_of_bodyless {messages : List Message} (hnone : ∀ x ∈ messages, x.body = []) :
    carried messages = headsOf messages := by
  apply List.flatMap_congr
  intro x hx
  rw [hnone x hx, List.append_nil]

theorem carried_append (messages rest : List Message) :
    carried (messages ++ rest) = carried messages ++ carried rest := List.flatMap_append

theorem headsOf_append (messages rest : List Message) :
    headsOf (messages ++ rest) = headsOf messages ++ headsOf rest := List.flatMap_append

/-- Nothing but the position of the parser. -/
def Sight.blind : Sight := ⟨False, False, False, False, id⟩

namespace Member

/-- The parser begins a head at the place behind the bodies of the requests that have been answered.
It reads bytes of the stream, none in front of that place and none behind the head that is there. -/
structure Framed (table : HeaderTable) (messages : List Message) (log : Log) (a : Arrival)
    (m : Member) : Prop where
  starts : ∀ m₀, receive a m = .ok () m₀ → m₀.httpParser.finished = true →
    log.place = (carried (messages.take log.answered)).length
  reads : ∀ m₀ m₁, receive a m = .ok () m₀ → parse table m₀ = .ok () m₁ → ∃ n,
    m₁.httpParser.userBuffer.unread = m₀.httpParser.userBuffer.unread.drop n ∧
      m₀.httpParser.userBuffer.unread.take n <+: (carried messages).drop log.place ∧
        (carried (messages.take log.answered)).length ≤ log.place ∧
          log.place + n ≤ (carried (messages.take log.answered) ++
            headsOf (messages.drop log.answered).head?.toList).length

/-- No request that has been answered has a body. -/
def Bodyless (messages : List Message) (answered : ℕ) : Prop :=
  ∀ x ∈ messages.take answered, x.body = []

/-- The last request that has been answered has a body, and no earlier one. -/
def Laden (messages : List Message) (answered : ℕ) : Prop :=
  ∃ before last, messages.take answered = before ++ [last] ∧ (∀ x ∈ before, x.body = []) ∧
    last.body ≠ []

/-- The parser stands behind the head of the last request that has been answered, and no earlier one
has had a body; or it has stopped inside the next head. -/
inductive Aligned (table : HeaderTable) (messages : List Message) (log : Log) (m : Member) : Prop
  | standing (stale : List HeaderEntry) (t : List Byte)
      (hstanding : Standing .blind table stale t m) (hplaced : Placed log t m)
      (hbegun : log.begun = (headsOf (messages.take log.answered)).length)
      (hbodies : Bodyless messages log.answered ∨
        m.httpParser.finished = true ∧ Laden messages log.answered)
  | stopped (hstopped : m.Stopped) (hbodyless : Bodyless messages log.answered)
      (hbegun : (headsOf (messages.take log.answered)).length ≤ log.place)
      (hplace : log.place ≤ (headsOf (messages.take log.answered)).length +
        (headsOf (messages.drop log.answered).head?.toList).length)

variable {table : HeaderTable} {messages : List Message} {t : List Byte}
  {stale : List HeaderEntry} {a : Arrival} {log : Log} {m m₀ m₁ m' : Member}

theorem undisturbed_blind (stale : List HeaderEntry) (a : Arrival) (m : Member) :
    Undisturbed .blind stale a m :=
  ⟨fun _ ↦ .inr ⟨fun h ↦ absurd h id, fun h ↦ absurd h id, fun h ↦ absurd h id⟩,
    fun h ↦ absurd h id⟩

/-- Behind a request nothing has been taken of what follows. -/
theorem Placed.place_eq (hplaced : Placed log t m) {sight : Sight}
    (hstanding : Standing sight table stale t m) (hfinished : m.httpParser.finished = true) :
    log.place = log.begun := by
  have hplace := hplaced.place
  cases hstanding with
  | between hbetween =>
    rw [hbetween.unread] at hplace
    omega
  | reading hreading =>
    rw [hreading.unfinished] at hfinished
    cases hfinished

/-- A parser that begins a head behind an unread body is not framed. -/
theorem bodyless_of_framed (haligned : Aligned table messages log m) (hobeys : Obeys a m)
    (hframed : Framed table messages log a m) : Bodyless messages log.answered := by
  cases haligned with
  | stopped hstopped hbodyless => exact hbodyless
  | standing stale t hstanding hplaced hbegun hbodies =>
    rcases hbodies with hnone | ⟨hfinished, before, last, htake, hbefore, hlast⟩
    · exact hnone
    obtain ⟨extra, b, hreceive, -⟩ := hstanding.receives hplaced hobeys
    have hstarts := hframed.starts _ hreceive hfinished
    rw [hplaced.place_eq hstanding hfinished, hbegun, htake, carried_append, headsOf_append,
      carried_of_bodyless hbefore] at hstarts
    have hpos := List.length_pos_of_ne_nil hlast
    simp only [carried, headsOf, List.length_append, List.flatMap_singleton] at hstarts
    omega

/-- How parsing ends in front of some requests. -/
inductive Taken (table : HeaderTable) (stale : List HeaderEntry) (messages : List Message)
    (t : List Byte) (m₀ : Member) : Prop
  | finished (x : Message) (k : RequestHead) (m₁ : Member) (hfirst : messages.head? = some x)
      (hhead : x.head.encode <+: t) (hsame : k.encode = x.head.encode)
      (hparse : parse table m₀ = .ok () m₁)
      (hfinished : m₁.httpParser.Finished .blind table stale k t) (hbehind : Behind m₀ m₁)
  | reading (m₁ : Member) (hparse : parse table m₀ = .ok () m₁)
      (hreading : m₁.httpParser.Reading .blind table stale t) (hbehind : Behind m₀ m₁)
      (hunread : m₁.httpParser.userBuffer.unread = [])
      (hshort : t.length ≤ (headsOf messages.head?.toList).length)
  | threw (m₁ : Member) (hparse : parse table m₀ = .error .outOfRange m₁)
  | severed (m₁ : Member) (hparse : parse table m₀ = .ok () m₁) (hstopped : m₁.Stopped)
      (pre : List Byte) (n : ℕ) (ht : t = pre ++ m₀.httpParser.userBuffer.unread)
      (hbuffer : m₁.httpParser.userBuffer = m₀.httpParser.userBuffer.read n)
      (hn : n ≤ m₀.httpParser.userBuffer.unread.length)
      (hshort : pre.length + n ≤ (headsOf messages.head?.toList).length)

theorem Scanned.taken (hscanned : Scanned .blind table stale t m₀)
    (hstream : t <+: carried messages) : Taken table stale messages t m₀ := by
  cases messages with
  | nil =>
    obtain rfl : t = [] := List.prefix_nil.mp hstream
    rcases hscanned.idle with ⟨m₁, hparse, hreading, hbehind, hunread⟩ | ⟨m₁, hparse⟩
    · exact .reading m₁ hparse hreading hbehind hunread le_rfl
    · exact .threw m₁ hparse
  | cons x rest =>
    have hstream' : t <+: x.head.encode ++ (x.body ++ carried rest) := by
      rwa [← List.append_assoc]
    have hlength : (headsOf (x :: rest).head?.toList).length = x.head.encode.length := by
      simp [headsOf]
    cases hscanned.served x.accepted hstream' with
    | finished k m₁ hhead hsame hparse hfinished hbehind =>
      exact .finished x k m₁ rfl hhead hsame hparse hfinished hbehind
    | reading m₁ hparse hreading hbehind hunread hshort =>
      exact .reading m₁ hparse hreading hbehind hunread (hshort.le.trans_eq hlength.symm)
    | threw m₁ hparse => exact .threw m₁ hparse
    | severed hline m₁ hparse hstopped pre n ht hbuffer hpos hn hshort =>
      exact .severed m₁ hparse hstopped pre n ht hbuffer hn (hshort.le.trans_eq hlength.symm)

/-- A call where the parser is aligned behind requests without bodies. -/
structure Facing (table : HeaderTable) (stale : List HeaderEntry) (messages : List Message)
    (log : Log) (a : Arrival) (m m₀ : Member) : Prop where
  placed : Placed { log with seen := log.seen ++ streamed a.received } (log.heard a m₀) m₀
  standing : Standing .blind table stale (log.heard a m₀) m₀
  taken : Taken table stale (messages.drop log.answered) (log.heard a m₀) m₀
  stream : log.heard a m₀ <+: carried (messages.drop log.answered)

theorem carried_split {answered : ℕ} (hnone : Bodyless messages answered) : carried messages =
    headsOf (messages.take answered) ++ carried (messages.drop answered) := by
  rw [← carried_of_bodyless hnone, ← carried_append, List.take_append_drop]

theorem Standing.facing (hstanding : Standing .blind table stale t m) (hplaced : Placed log t m)
    (hbegun : log.begun = (headsOf (messages.take log.answered)).length) (hobeys : Obeys a m)
    (hspared : Spared log a m) (hnone : Bodyless messages log.answered)
    (hstream : log.seen ++ streamed a.received <+: carried messages)
    (hreceive : receive a m = .ok () m₀) : Facing table stale messages log a m m₀ := by
  obtain ⟨hplaced₀, hstanding₀, hscanned⟩ := hstanding.scanned_of_receive hplaced hobeys hspared
    (fun _ ↦ undisturbed_blind stale a m) hreceive
  have hheard : log.heard a m₀ <+: carried (messages.drop log.answered) := by
    apply (log.heard_stream a m₀).trans
    have hdrop := List.IsPrefix.drop hstream log.begun
    rwa [carried_split hnone, hbegun, List.drop_left, ← hbegun] at hdrop
  exact ⟨hplaced₀, hstanding₀, hscanned.taken hheard, hheard⟩

namespace Facing

variable (hfacing : Facing table stale messages log a m m₀)
include hfacing

/-- The unread bytes are those of the stream behind the place of the parser. -/
theorem unread_stream (hbegun : log.begun = (headsOf (messages.take log.answered)).length)
    (hnone : Bodyless messages log.answered) : log.begun ≤ log.place ∧
      m₀.httpParser.userBuffer.unread <+: (carried messages).drop log.place := by
  have hplace := hfacing.placed.place
  have hle := hfacing.placed.unread_le
  dsimp only at hplace
  have hsuffix : ∃ pre, log.heard a m₀ = pre ++ m₀.httpParser.userBuffer.unread := by
    cases hfacing.standing with
    | between hbetween => exact ⟨[], hbetween.unread.symm⟩
    | reading hreading =>
      obtain ⟨pre, known, setKa, c, hpre, -⟩ := hreading.sees
      exact ⟨pre, hpre⟩
  obtain ⟨pre, hpre⟩ := hsuffix
  have hlength := congrArg List.length hpre
  rw [List.length_append] at hlength
  refine ⟨by omega, ?_⟩
  have hwhole : headsOf (messages.take log.answered) ++ log.heard a m₀ <+: carried messages := by
    rw [carried_split hnone]
    exact (List.prefix_append_right_inj _).mpr hfacing.stream
  rw [hpre, ← List.append_assoc] at hwhole
  have hdrop := List.IsPrefix.drop hwhole log.place
  have hcount : log.place = (headsOf (messages.take log.answered) ++ pre).length := by
    rw [List.length_append, ← hbegun]
    omega
  rw [hcount, List.drop_left] at hdrop
  rwa [hcount]

end Facing

/-- Behind requests without bodies the parser reads the next head and nothing else. -/
theorem framed_of_bodyless (haligned : Aligned table messages log m) (hobeys : Obeys a m)
    (hspared : Spared log a m) (hnone : Bodyless messages log.answered)
    (hstream : log.seen ++ streamed a.received <+: carried messages) :
    Framed table messages log a m := by
  have hend : (headsOf (messages.take log.answered) ++
      headsOf (messages.drop log.answered).head?.toList).length =
        (headsOf (messages.take log.answered)).length +
          (headsOf (messages.drop log.answered).head?.toList).length := List.length_append
  cases haligned with
  | stopped hstopped hbodyless hbegun hplace =>
    constructor
    case starts =>
      intro m₀ hreceive hfinished
      rw [finished_of_fault (stopped_receive hstopped hreceive).fault] at hfinished
      cases hfinished
    case reads =>
      intro m₀ m₁ hreceive hparse
      obtain ⟨m₁', hparse', -, hsame⟩ :=
        parse_of_stopped table (stopped_receive hstopped hreceive)
      rw [hparse] at hparse'
      cases hparse'
      rw [carried_of_bodyless hnone, hend]
      exact ⟨0, by rw [hsame, List.drop_zero], List.nil_prefix, hbegun, hplace⟩
  | standing stale t hstanding hplaced hbegun hbodies =>
    constructor
    case starts =>
      intro m₀ hreceive hfinished
      rw [finished_receive hreceive] at hfinished
      rw [hplaced.place_eq hstanding hfinished, hbegun, carried_of_bodyless hnone]
    case reads =>
      intro m₀ m₁ hreceive hparse
      have hfacing := hstanding.facing hplaced hbegun hobeys hspared hnone hstream hreceive
      obtain ⟨hle, hunread⟩ := hfacing.unread_stream hbegun hnone
      have hplace := hfacing.placed.place
      dsimp only at hplace
      have hunique {m₂ : Member} (hparse' : parse table m₀ = .ok () m₂) : m₂ = m₁ := by
        rw [hparse] at hparse'
        cases hparse'
        rfl
      rw [carried_of_bodyless hnone, hend, ← hbegun]
      cases hfacing.taken with
      | finished x k m₂ hfirst hhead hsame hparse' hfinished hbehind =>
        obtain rfl := hunique hparse'
        obtain ⟨n, hbuffer⟩ := hbehind.userBuffer
        have hdrop : m₂.httpParser.userBuffer.unread =
            m₀.httpParser.userBuffer.unread.drop n := by
          rw [hbuffer, UserBuffer.unread_read]
        obtain ⟨more, hmore⟩ := hhead
        have hbetween := hfinished.between.unread
        rw [← hmore, hsame, List.drop_left] at hbetween
        have hlength := congrArg List.length hmore
        have hcount := congrArg List.length (hdrop.symm.trans hbetween)
        rw [List.length_append] at hlength
        rw [List.length_drop] at hcount
        have hfirst' : (headsOf (messages.drop log.answered).head?.toList).length =
            x.head.encode.length := by
          simp [hfirst, headsOf]
        rcases Nat.le_total n m₀.httpParser.userBuffer.unread.length with hn | hn
        · exact ⟨n, hdrop, (List.take_prefix _ _).trans hunread, hle, by omega⟩
        · refine ⟨m₀.httpParser.userBuffer.unread.length, ?_, ?_, hle, ?_⟩
          · rw [hdrop, List.drop_length, List.drop_eq_nil_of_le hn]
          · rwa [List.take_length]
          · omega
      | reading m₂ hparse' hreading hbehind hnil hshort =>
        obtain rfl := hunique hparse'
        refine ⟨m₀.httpParser.userBuffer.unread.length, ?_, ?_, hle, ?_⟩
        · rw [hnil, List.drop_length]
        · rwa [List.take_length]
        · omega
      | threw m₂ hparse' =>
        rw [hparse] at hparse'
        cases hparse'
      | severed m₂ hparse' hstopped pre n ht hbuffer hn hshort =>
        obtain rfl := hunique hparse'
        have hlength := congrArg List.length ht
        rw [List.length_append] at hlength
        refine ⟨n, ?_, (List.take_prefix _ _).trans hunread, hle, ?_⟩
        · rw [hbuffer, UserBuffer.unread_read]
        · omega

/-- The heads up to and including the next one. -/
theorem headsOf_take_succ {answered : ℕ} {x : Message}
    (hfirst : (messages.drop answered).head? = some x) :
    headsOf (messages.take (answered + 1)) = headsOf (messages.take answered) ++ x.head.encode := by
  rw [List.head?_drop] at hfirst
  rw [List.take_add_one, hfirst, headsOf_append]
  exact congrArg _ (List.flatMap_singleton _ x)

theorem bodyless_or_laden {answered : ℕ} {x : Message}
    (hfirst : (messages.drop answered).head? = some x) (hnone : Bodyless messages answered) :
    Bodyless messages (answered + 1) ∨ Laden messages (answered + 1) := by
  rw [List.head?_drop] at hfirst
  have htake : messages.take (answered + 1) = messages.take answered ++ [x] := by
    rw [List.take_add_one, hfirst, Option.toList_some]
  by_cases hbody : x.body = []
  · left
    intro y hy
    rw [htake] at hy
    rcases List.mem_append.mp hy with hbefore | hlast
    · exact hnone y hbefore
    · rw [List.mem_singleton.mp hlast]
      exact hbody
  · exact .inr ⟨messages.take answered, x, htake, hnone, hbody⟩

/-- A stopped parser takes nothing. -/
theorem aligned_of_stopped (hstopped : m.Stopped) (hbodyless : Bodyless messages log.answered)
    (hbegun : (headsOf (messages.take log.answered)).length ≤ log.place)
    (hplace : log.place ≤ (headsOf (messages.take log.answered)).length +
      (headsOf (messages.drop log.answered).head?.toList).length)
    (hread : doRead table a m = .ok () m') :
    Aligned table messages (log.next table a m m') m' := by
  obtain ⟨m₀, m₁, hreceive, hparse, hscan⟩ := receive_parse_of_doRead hread
  obtain ⟨m₁', hparse', hstopped', hsame⟩ :=
    parse_of_stopped table (stopped_receive hstopped hreceive)
  rw [hparse] at hparse'
  cases hparse'
  have hprovides : provides table a m = false :=
    (provides_eq hscan).trans (finished_of_fault hstopped'.fault)
  have htaken : taken table a m = 0 := by
    rw [taken_eq hreceive hparse, hsame, Nat.sub_self]
  have hafter := stopped_run table (.doRead a) hstopped
  rw [Call.run, hread] at hafter
  rw [Log.next_of_unfinished hprovides, htaken]
  exact .stopped hafter hbodyless hbegun hplace

/-- A call behind requests without bodies. -/
theorem aligned_step (haligned : Aligned table messages log m) (hobeys : Obeys a m)
    (hspared : Spared log a m) (hnone : Bodyless messages log.answered)
    (hstream : log.seen ++ streamed a.received <+: carried messages)
    (hread : doRead table a m = .ok () m') :
    Aligned table messages (log.next table a m m') m' := by
  cases haligned with
  | stopped hstopped hbodyless hbegun hplace =>
    exact aligned_of_stopped hstopped hbodyless hbegun hplace hread
  | standing stale t hstanding hplaced hbegun hbodies =>
    obtain ⟨m₀, m₁, hreceive, hparse, hscan⟩ := receive_parse_of_doRead hread
    have hfacing := hstanding.facing hplaced hbegun hobeys hspared hnone hstream hreceive
    obtain ⟨hle, -⟩ := hfacing.unread_stream hbegun hnone
    have hplace := hfacing.placed.place
    dsimp only at hplace
    have hunique {m₂ : Member} (hparse' : parse table m₀ = .ok () m₂) : m₂ = m₁ := by
      rw [hparse] at hparse'
      cases hparse'
      rfl
    cases hfacing.taken with
    | finished x k m₂ hfirst hhead hsame hparse' hfinished hbehind =>
      obtain rfl := hunique hparse'
      have hprovides : provides table a m = true :=
        (provides_eq hscan).trans hfinished.between.finished
      obtain ⟨request, hparser, -⟩ := httpParser_doRead hscan hread
      obtain ⟨more, hmore⟩ := hhead
      have hshrink := hbehind.length_le
      have hlength := congrArg List.length hmore
      have hunread := hfinished.between.unread
      rw [← hmore, hsame, List.drop_left] at hunread
      rw [List.length_append] at hlength
      have hbegun' : log.place + taken table a m =
          (headsOf (messages.take (log.answered + 1))).length := by
        rw [taken_eq hreceive hparse, hunread, headsOf_take_succ hfirst, List.length_append]
        rw [hunread] at hshrink
        omega
      have hplaced' := hfacing.placed.next_finished hreceive hparse hfinished hbehind hread
      rw [Log.next_of_provides hprovides] at hplaced' ⊢
      refine .standing _ _ (standing_of_finished hscan hfinished hread) hplaced' hbegun' ?_
      apply (bodyless_or_laden hfirst hnone).imp_right
      intro hladen
      refine ⟨?_, hladen⟩
      rw [hparser]
      exact hfinished.between.finished
    | reading m₂ hparse' hreading hbehind hnil hshort =>
      obtain rfl := hunique hparse'
      have hprovides : provides table a m = false :=
        (provides_eq hscan).trans hreading.unfinished
      have hplaced' :=
        hfacing.placed.next_reading hreceive hparse hreading.unfinished hbehind hread
      rw [Log.next_of_unfinished hprovides] at hplaced' ⊢
      exact .standing _ _ (standing_of_reading hscan hreading hread) hplaced' hbegun (.inl hnone)
    | threw m₂ hparse' =>
      rw [hparse] at hparse'
      cases hparse'
    | severed m₂ hparse' hstopped pre n ht hbuffer hn hshort =>
      obtain rfl := hunique hparse'
      have hprovides : provides table a m = false :=
        (provides_eq hscan).trans (finished_of_fault hstopped.fault)
      have hafter := doRead_of_stopped hscan hstopped
      rw [hread] at hafter
      have hlength := congrArg List.length ht
      rw [List.length_append] at hlength
      have htaken : taken table a m = n := by
        rw [taken_eq hreceive hparse, hbuffer, UserBuffer.unread_read, List.length_drop]
        omega
      rw [Log.next_of_unfinished hprovides, htaken]
      refine .stopped (hstopped.congr (congrArg HttpParser.parserResult hafter)) hnone ?_ ?_
      · dsimp only
        omega
      · dsimp only
        omega

/-- As long as no parse comes to the end of a full buffer, requests are framed exactly as long as
none that has been answered has a body. -/
theorem framed_iff {arrivals : List Arrival}
    (hstream : arrivals.flatMap (fun a ↦ streamed a.received) <+: carried messages)
    (fd : ℕ) (memory : HttpRequest) (interval : ℕ)
    (hobeys : AlongReads table (fun _ ↦ Obeys) {} arrivals (new fd memory interval))
    (hspared : AlongReads table Spared {} arrivals (new fd memory interval)) :
    AlongReads table (Framed table messages) {} arrivals (new fd memory interval) ↔
      AlongReads table (fun log _ _ ↦ Bodyless messages log.answered) {} arrivals
        (new fd memory interval) := by
  have hstarts : AlongReads table
      (fun log a _ ↦ log.seen ++ streamed a.received <+: carried messages) {} arrivals
      (new fd memory interval) := alongReads_prefix hstream
  have hnew : Aligned table messages {} (new fd memory interval) :=
    .standing [] [] (standing_new .blind table fd memory interval) (placed_new fd memory interval)
      rfl (.inl fun x hx ↦ absurd hx List.not_mem_nil)
  apply alongReads_congr (Aligned table messages) _ hnew ((hobeys.and hspared).and hstarts)
  rintro log a m haligned ⟨⟨hobeys, hspared⟩, hstarts⟩
  exact ⟨⟨bodyless_of_framed haligned hobeys, fun hnone ↦
    framed_of_bodyless haligned hobeys hspared hnone hstarts⟩, fun hnone m' hread ↦
    aligned_step haligned hobeys hspared hnone hstarts hread⟩

/-- A request without a body. -/
def plainMessage : Message where
  head := HttpParser.plainHead
  body := []
  accepted := HttpParser.plainHead_wellFormed.accepted
  announced := .inr ⟨rfl, by decide⟩

/-- `GET / HTTP/1.1` with a `Host` and a body of one byte. -/
def bodyHead : RequestHead := { HttpParser.plainHead with
  lines := HttpParser.plainHead.lines ++ [{
    name := HttpParser.contentLengthKey, pad := 1, value := text "1", lineEnd := HttpParser.lf
    name_ne := by decide, name_chars := forall_mem_of_all rfl, value_ne := by decide
    value_chars := forall_mem_of_all rfl }] }

def bodyMessage : Message where
  head := bodyHead
  body := text "x"
  accepted := by
    refine ⟨⟨by decide, .inl (by decide)⟩, ?_, ?_⟩
    · unfold HeaderLine.Legal
      decide
    · unfold HeaderLine.Trimmed
      decide
  announced := .inl ⟨_, List.mem_cons_of_mem _ List.mem_cons_self, by decide,
    forall_mem_of_all rfl, by decide⟩

def paddedMessage : Message where
  head := paddedHead 1964
  body := []
  accepted := paddedHead_accepted 1964
  announced := by
    refine .inr ⟨rfl, fun l hl ↦ ?_⟩
    rcases List.mem_append.mp hl with hfirst | hlast
    · have hnames : ∀ l ∈ HttpParser.plainHead.lines, l.name ≠ HttpParser.contentLengthKey := by
        decide
      exact hnames l hfirst
    · rw [List.mem_singleton.mp hlast]
      have hnot : text "Cookie" ≠ HttpParser.contentLengthKey := by decide
      exact hnot

/-- The request and its body in one piece. -/
def bodyFirst : Arrival := inOnePiece (bodyHead.encode ++ text "x")

/-- Two requests without bodies, the second one in two pieces, and one with a body. -/
theorem framed_iff_withheld :
    AlongReads .sample (Framed .sample [paddedMessage, plainMessage, bodyMessage]) {}
      (withheld ++ [bodyFirst]) (new 5 .zero 0) := by
  have hlength : (paddedHead 1964).encode.length = 2002 := length_paddedHead 1964
  have hrun : AlongReads .sample (fun log a m ↦ (Obeys a m ∧ Spared log a m) ∧
      Bodyless [paddedMessage, plainMessage, bodyMessage] log.answered) {}
      (withheld ++ [bodyFirst]) (new 5 .zero 0) := by
    have hnone {answered : ℕ} (hle : answered ≤ 2) :
        Bodyless [paddedMessage, plainMessage, bodyMessage] answered := by
      have hboth : ∀ x ∈ [paddedMessage, plainMessage], x.body = [] := by
        simp [paddedMessage, plainMessage]
      exact fun x hx ↦ hboth x (List.take_subset_take_left _ hle hx)
    have hrests := rests_new .sample 5 .zero 0
    apply hrests.alongReads_whole (paddedHead_accepted 1964) (encode_ne_nil _) (by omega)
      (fun _ ↦ .inl (by decide)) rfl
    · exact ⟨⟨hrests.obeys (encode_ne_nil _) (by omega), hrests.spared (by omega) _⟩,
        hnone (by decide)⟩
    intro log m _ hanswered hbetween hrests
    rw [hlength] at hrests
    apply hrests.alongReads_within HttpParser.plainHead_wellFormed.accepted (by decide) (by decide)
      (fun hmidway ↦ absurd hmidway hbetween) (by decide) (by decide)
    · refine ⟨⟨hrests.obeys (by decide) (by decide), hrests.spared (by decide) _⟩, hnone ?_⟩
      rw [hanswered]
      decide
    intro log' m' _ hanswered' hrests'
    apply hrests'.alongReads_whole HttpParser.plainHead_wellFormed.accepted (by decide) (by decide)
      (fun hmidway ↦ .inr (hrests'.header_eq_none hmidway fun setKa ↦ by
        cases setKa <;> decide +kernel)) (by decide)
    · refine ⟨⟨hrests'.obeys (by decide) (by decide), hrests'.spared (by decide) _⟩, hnone ?_⟩
      rw [hanswered', hanswered]
      decide
    intro log'' m'' _ hanswered'' _ hrests''
    refine ⟨⟨⟨hrests''.obeys (by decide) (by decide), hrests''.spared (by decide) _⟩, hnone ?_⟩,
      fun _ _ ↦ trivial⟩
    rw [hanswered'', hanswered', hanswered]
  apply (framed_iff ?_ 5 .zero 0 (hrun.imp fun _ _ _ h ↦ h.1.1) (hrun.imp fun _ _ _ h ↦ h.1.2)).mpr
  · exact hrun.imp fun _ _ _ h ↦ h.2
  · rw [List.flatMap_append, streamed_withheld]
    refine ⟨[], ?_⟩
    simp [carried, paddedMessage, plainMessage, bodyMessage, bodyFirst, streamed_inOnePiece]

def plainSecond : Arrival := inOnePiece HttpParser.plainHead.encode

/-- Behind a request with a body, the next parse begins at the body. -/
theorem not_framed_body :
    [bodyFirst, plainSecond].flatMap (fun a ↦ streamed a.received) =
        carried [bodyMessage, plainMessage] ∧
      AlongReads .sample (fun _ ↦ Obeys) {} [bodyFirst, plainSecond] (new 5 .zero 0) ∧
      ¬ AlongReads .sample (Framed .sample [bodyMessage, plainMessage]) {}
        [bodyFirst, plainSecond] (new 5 .zero 0) := by
  have hprovides : provides .sample bodyFirst (new 5 .zero 0) = true := by decide +kernel
  have htaken : taken .sample bodyFirst (new 5 .zero 0) ≠ (carried [bodyMessage]).length := by
    decide +kernel
  have hrun : Op.returning (fun _ m' ↦
        decide (HttpParser.plainHead.encode.length ≤ m'.httpParser.userBuffer.writeable) &&
          Op.returning (fun _ m₀ ↦ m₀.httpParser.finished) (receive plainSecond m'))
      (doRead .sample bodyFirst (new 5 .zero 0)) = true := by
    decide +kernel
  obtain ⟨_, m', hread, htest⟩ := Op.of_returning hrun
  obtain ⟨hroom, hsecond⟩ := Bool.and_eq_true_iff.mp htest
  have hobeys : Obeys plainSecond m' := obeys_inOnePiece (by decide) (of_decide_eq_true hroom)
  refine ⟨by decide, ⟨obeys_inOnePiece (by decide) (by decide), fun m'' hread' ↦ ?_⟩, ?_⟩
  · rw [hread] at hread'
    cases hread'
    exact ⟨hobeys, fun _ _ ↦ trivial⟩
  · rintro ⟨-, hrest⟩
    have hframed := (hrest m' hread).1
    obtain ⟨_, m₀, hreceive, hfinished⟩ := Op.of_returning hsecond
    have hstarts := hframed.starts m₀ hreceive hfinished
    rw [Log.next_of_provides hprovides] at hstarts
    dsimp only at hstarts
    rw [Nat.zero_add] at hstarts
    exact htaken hstarts

end Member

end LWebServer
