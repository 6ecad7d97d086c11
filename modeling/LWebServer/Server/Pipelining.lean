import LWebServer.Server.Pieces
import Mathlib.Data.List.Infix

/-!
# Pipelined requests

`DoRead` parses and answers once. A request that a delivery completes behind another one stays in
the buffer until the next delivery.
-/

namespace LWebServer

/-- The number of heads that end within the first `n` bytes of a stream of heads. -/
def completed : List RequestHead → ℕ → ℕ
  | [], _ => 0
  | h :: heads, n =>
    if h.encode.length ≤ n then completed heads (n - h.encode.length) + 1 else 0

/-- The stream of some heads. -/
def streamOf (heads : List RequestHead) : List Byte := heads.flatMap RequestHead.encode

theorem completed_add (heads rest : List RequestHead) (n : ℕ) :
    completed (heads ++ rest) ((streamOf heads).length + n) = heads.length + completed rest n := by
  induction heads with
  | nil => simp [streamOf]
  | cons h heads ih =>
    have hlength : (streamOf (h :: heads)).length = h.encode.length + (streamOf heads).length := by
      rw [streamOf, List.flatMap_cons, List.length_append]
      rfl
    rw [List.cons_append, completed, if_pos (by omega), hlength, List.length_cons]
    rw [show h.encode.length + (streamOf heads).length + n - h.encode.length =
      (streamOf heads).length + n by omega, ih]
    omega

namespace Member

/-- A request that stays on the connection: nothing follows its head, and it does not ask for the
connection to be closed. -/
structure Lasting (h : RequestHead) : Prop where
  accepted : h.Accepted
  bodyless : h.lines.foldl HeaderLine.length 0 = 0
  persists : numeral h.minor = 1 ∧ h.lines.foldl HeaderLine.flag .keepAlive = .keepAlive

/-- After a `DoRead` that has returned, as many requests have been answered as have arrived. -/
def KeepsUp (table : HeaderTable) (heads : List RequestHead) (seen : List Byte) (answered : ℕ)
    (a : Arrival) (m : Member) : Prop :=
  ∀ m', doRead table a m = .ok () m' → answered + (provides table a m).toNat =
    completed heads (seen ++ streamed a.received).length

/-- The delivery completes no more than one request that has not been answered. -/
def Single (heads : List RequestHead) (seen : List Byte) (answered : ℕ) (a : Arrival) : Prop :=
  completed heads (seen ++ streamed a.received).length ≤ answered + 1

/-- No header line is shifted while it is being read. -/
def Unshifted (a : Arrival) (m : Member) : Prop :=
  m.Midway → streamed a.received ≠ [] →
    m.httpParser.userBuffer.readSpot < m.httpParser.userBuffer.bufferSize / 2 ∨
      m.httpParser.parserResult.header = none

/-- All complete requests have been answered, and the bytes after them are where the parser will
look for the next one. -/
structure UpToDate (table : HeaderTable) (heads : List RequestHead) (log : Log) (m : Member) :
    Prop where
  standing : ∃ stale t, Standing .lines table stale t m ∧ Placed log t m
  begun : log.begun = (streamOf (heads.take log.answered)).length
  answered_le : log.answered ≤ heads.length
  count : completed heads log.seen.length = log.answered

variable {table : HeaderTable} {heads : List RequestHead} {stale : List HeaderEntry}
  {t : List Byte} {log : Log} {a : Arrival} {m m₀ m₁ m' : Member}

theorem Unshifted.undisturbed (hunshifted : Unshifted a m) (stale : List HeaderEntry)
    (hmidway : m.Midway) : Undisturbed .lines stale a m :=
  ⟨fun hsome ↦ (hunshifted hmidway hsome).imp_right fun hnone ↦
    ⟨fun h ↦ absurd h id, fun _ ↦ hnone, fun h ↦ absurd h id⟩, fun h ↦ absurd h id⟩

theorem completed_split {answered : ℕ} (hle : answered ≤ heads.length) (n : ℕ) :
    completed heads ((streamOf (heads.take answered)).length + n) =
      answered + completed (heads.drop answered) n := by
  have h := completed_add (heads.take answered) (heads.drop answered) n
  rwa [List.take_append_drop, List.length_take, Nat.min_eq_left hle] at h

theorem streamOf_split (heads : List RequestHead) (answered : ℕ) :
    streamOf heads = streamOf (heads.take answered) ++ streamOf (heads.drop answered) := by
  unfold streamOf
  rw [← List.flatMap_append, List.take_append_drop]

theorem streamOf_take_succ {answered : ℕ} {h : RequestHead} {rest : List RequestHead}
    (hdrop : heads.drop answered = h :: rest) :
    streamOf (heads.take (answered + 1)) = streamOf (heads.take answered) ++ h.encode := by
  rw [List.take_add_one, ← List.head?_drop, hdrop]
  simp [streamOf]

/-- What has arrived of the next head is in the stream behind the heads that have been answered. -/
theorem heard_of_stream (hbegun : log.begun = (streamOf (heads.take log.answered)).length)
    (hstream : log.seen ++ streamed a.received <+: streamOf heads) (m₀ : Member) :
    log.heard a m₀ <+: streamOf (heads.drop log.answered) := by
  apply (log.heard_stream a m₀).trans
  have hdrop := List.IsPrefix.drop hstream log.begun
  rwa [streamOf_split heads log.answered, hbegun, List.drop_left, ← hbegun] at hdrop

/-- The number of requests that have arrived, from those behind the ones that have been answered. -/
theorem Placed.completed_eq
    (hplaced : Placed { log with seen := log.seen ++ streamed a.received } t m₀)
    (hbegun : log.begun = (streamOf (heads.take log.answered)).length)
    (hle : log.answered ≤ heads.length) :
    ∃ rest, completed heads (log.seen ++ streamed a.received).length =
        log.answered + completed (heads.drop log.answered) (t ++ rest).length ∧
      (m₀.httpParser.extrabuffer.isVaild = false → rest = []) := by
  obtain ⟨before, rest, hseen, hbefore, hrest⟩ := hplaced.seen
  dsimp only at hseen hbefore
  refine ⟨rest, ?_, hrest⟩
  rw [← completed_split hle, hseen, ← hbegun, ← hbefore, List.append_assoc, List.length_append]

/-- A call that leaves the parser inside a head. -/
theorem upToDate_of_reading (hdate : UpToDate table heads log m)
    (hplaced : Placed { log with seen := log.seen ++ streamed a.received } t m₀)
    (hreceive : receive a m = .ok () m₀) (hparse : parse table m₀ = .ok () m₁)
    (hreading : m₁.httpParser.Reading .lines table stale t) (hbehind : Behind m₀ m₁)
    (hread : doRead table a m = .ok () m')
    (hnone : completed heads (log.seen ++ streamed a.received).length = log.answered) :
    UpToDate table heads (log.next table a m m') m' := by
  have hscan : scan table a m = .ok () m₁ := (Op.bind_of_ok hreceive).trans hparse
  have hprovides : provides table a m = false := (provides_eq hscan).trans hreading.unfinished
  have hplaced' := hplaced.next_reading hreceive hparse hreading.unfinished hbehind hread
  rw [Log.next_of_unfinished hprovides] at hplaced' ⊢
  exact ⟨⟨_, _, standing_of_reading hscan hreading hread, hplaced'⟩, hdate.begun,
    hdate.answered_le, hnone⟩

/-- A call that finishes a head, behind which no other one is complete. -/
theorem upToDate_of_finished (hdate : UpToDate table heads log m) {h k : RequestHead}
    {rest : List RequestHead} (hdrop : heads.drop log.answered = h :: rest)
    (hplaced : Placed { log with seen := log.seen ++ streamed a.received } t m₀)
    (hreceive : receive a m = .ok () m₀) (hparse : parse table m₀ = .ok () m₁)
    (hhead : h.encode <+: t) (hsame : k.encode = h.encode)
    (hfinished : m₁.httpParser.Finished .lines table stale k t) (hbehind : Behind m₀ m₁)
    (hread : doRead table a m = .ok () m')
    (hone : completed heads (log.seen ++ streamed a.received).length = log.answered + 1) :
    UpToDate table heads (log.next table a m m') m' := by
  have hscan : scan table a m = .ok () m₁ := (Op.bind_of_ok hreceive).trans hparse
  have hprovides : provides table a m = true :=
    (provides_eq hscan).trans hfinished.between.finished
  have hplaced' := hplaced.next_finished hreceive hparse hfinished hbehind hread
  have hnext : log.answered < heads.length := by
    by_contra hnot
    rw [List.drop_eq_nil_of_le (Nat.le_of_not_lt hnot)] at hdrop
    cases hdrop
  obtain ⟨more, hmore⟩ := hhead
  have hbegun := hdate.begun
  have hplace := hplaced.place
  have hshrink := hbehind.length_le
  have hlength := congrArg List.length hmore
  have hunread := hfinished.between.unread
  rw [← hmore, hsame, List.drop_left] at hunread
  rw [hunread] at hshrink
  rw [List.length_append] at hlength
  dsimp only at hplace
  rw [Log.next_of_provides hprovides] at hplaced' ⊢
  refine ⟨⟨_, _, standing_of_finished hscan hfinished hread, hplaced'⟩, ?_, hnext, hone⟩
  dsimp only
  rw [taken_eq hreceive hparse, hunread, streamOf_take_succ hdrop, List.length_append]
  omega

/-- One call keeps up. -/
theorem upToDate_step (haccepted : ∀ h ∈ heads, h.Accepted) (hdate : UpToDate table heads log m)
    (hobeys : Obeys a m) (hspared : Spared log a m) (hunshifted : Unshifted a m)
    (hstream : log.seen ++ streamed a.received <+: streamOf heads)
    (hsingle : Single heads log.seen log.answered a) (hread : doRead table a m = .ok () m') :
    UpToDate table heads (log.next table a m m') m' := by
  obtain ⟨stale, t, hstanding, hplaced⟩ := hdate.standing
  obtain ⟨m₀, m₁, hreceive, hparse, -⟩ := receive_parse_of_doRead hread
  obtain ⟨hplaced₀, -, hscanned⟩ := hstanding.scanned_of_receive hplaced hobeys hspared
    (hunshifted.undisturbed stale) hreceive
  have hspare := hspared hstanding.not_stopped m₀ hreceive
  have hheard := heard_of_stream hdate.begun hstream m₀
  obtain ⟨rest, hcompleted, hrest⟩ := hplaced₀.completed_eq hdate.begun hdate.answered_le
  unfold Single at hsingle
  rw [hcompleted] at hsingle
  have hunique {m₂ : Member} (hparse' : parse table m₀ = .ok () m₂) : m₂ = m₁ := by
    rw [hparse] at hparse'
    cases hparse'
    rfl
  cases hdrop : heads.drop log.answered with
  | nil =>
    rw [hdrop] at hheard hcompleted
    rw [List.prefix_nil.mp hheard] at hscanned
    rcases hscanned.idle with ⟨m₂, hparse', hreading, hbehind, -⟩ | ⟨m₂, hparse'⟩
    · obtain rfl := hunique hparse'
      rw [← List.prefix_nil.mp hheard] at hreading
      exact upToDate_of_reading hdate hplaced₀ hreceive hparse hreading hbehind hread hcompleted
    · rw [hparse] at hparse'
      cases hparse'
  | cons h heads' =>
    rw [hdrop] at hheard hcompleted hsingle
    have hh : h.Accepted := haccepted h (List.mem_of_mem_drop (hdrop ▸ List.mem_cons_self))
    cases hscanned.served hh hheard with
    | finished k m₂ hhead hsame hparse' hfinished hbehind =>
      obtain rfl := hunique hparse'
      apply upToDate_of_finished hdate hdrop hplaced₀ hreceive hparse hhead hsame hfinished hbehind
        hread
      have hlength : h.encode.length ≤ (log.heard a m₀ ++ rest).length := by
        rw [List.length_append]
        exact hhead.length_le.trans (Nat.le_add_right _ _)
      rw [completed, if_pos hlength] at hsingle hcompleted
      omega
    | reading m₂ hparse' hreading hbehind hunread hshort =>
      obtain rfl := hunique hparse'
      -- while the `Extrabuf` is in use, a whole head has been in the `UserBuffer`
      have hnone : rest = [] := by
        apply hrest
        by_contra hvaild
        have hended := (hspare (by simpa using hvaild) .keepAlive).1
        exact not_ended_of_prefix hh (List.prefix_of_prefix_length_le hheard
          (List.prefix_append _ _) hshort.le) hshort .keepAlive hended
      rw [hnone, List.append_nil, completed, if_neg (Nat.not_le.mpr hshort)] at hcompleted
      exact upToDate_of_reading hdate hplaced₀ hreceive hparse hreading hbehind hread hcompleted
    | threw m₂ hparse' =>
      rw [hparse] at hparse'
      cases hparse'
    | severed hline => exact absurd trivial hline

theorem upToDate_new (table : HeaderTable) (heads : List RequestHead) (fd : ℕ)
    (memory : HttpRequest) (interval : ℕ) : UpToDate table heads {} (new fd memory interval) := by
  refine ⟨⟨_, _, standing_new .lines table fd memory interval, placed_new fd memory interval⟩, rfl,
    Nat.zero_le _, ?_⟩
  cases heads with
  | nil => rfl
  | cons h heads =>
    have hpos := List.length_pos_of_ne_nil (encode_ne_nil h)
    dsimp only
    rw [List.length_nil, completed, if_neg (Nat.not_le.mpr hpos)]

/-- A call that keeps up has completed no more than one request. -/
theorem single_of_keepsUp (hkeeps : KeepsUp table heads log.seen log.answered a m)
    (hread : doRead table a m = .ok () m') : Single heads log.seen log.answered a := by
  have hcount := hkeeps m' hread
  have hle := Bool.toNat_le (provides table a m)
  unfold Single
  omega

/-- On a stream of complete requests every `DoRead` has answered what has arrived exactly as long as
no delivery to a call that returns completes two requests, where none shifts a header line and no
parse comes to the end of a full buffer. -/
theorem keepsUp_iff_single {arrivals : List Arrival} (hlasting : ∀ h ∈ heads, Lasting h)
    (hstream : arrivals.flatMap (fun a ↦ streamed a.received) <+: streamOf heads)
    (fd : ℕ) (memory : HttpRequest) (interval : ℕ)
    (hobeys : AlongReads table (fun _ ↦ Obeys) {} arrivals (new fd memory interval))
    (hspared : AlongReads table Spared {} arrivals (new fd memory interval))
    (hunshifted : AlongReads table (fun _ ↦ Unshifted) {} arrivals (new fd memory interval)) :
    AlongReads table (fun log ↦ KeepsUp table heads log.seen log.answered) {} arrivals
        (new fd memory interval) ↔
      AlongReads table (fun log a m ↦ (∃ m', doRead table a m = .ok () m') →
        Single heads log.seen log.answered a) {} arrivals (new fd memory interval) := by
  have hstarts : AlongReads table (fun log a _ ↦ log.seen ++ streamed a.received <+: streamOf heads)
      {} arrivals (new fd memory interval) := alongReads_prefix hstream
  have haccepted (h : RequestHead) (hh : h ∈ heads) : h.Accepted := (hlasting h hh).accepted
  have hnew := upToDate_new table heads fd memory interval
  apply alongReads_congr (UpToDate table heads) _ hnew
    ((hobeys.and hspared).and (hunshifted.and hstarts))
  rintro log a m hdate ⟨⟨hobeys, hspared⟩, hunshifted, hstarts⟩
  have hstep (hsingle : (∃ m', doRead table a m = .ok () m') →
      Single heads log.seen log.answered a) (m' : Member) (hread : doRead table a m = .ok () m') :=
    upToDate_step haccepted hdate hobeys hspared hunshifted hstarts (hsingle ⟨m', hread⟩) hread
  refine ⟨⟨fun hkeeps ⟨m', hread⟩ ↦ single_of_keepsUp hkeeps hread, fun hsingle m' hread ↦ ?_⟩,
    hstep⟩
  exact (hstep hsingle m' hread).count.symm

theorem plainHead_lasting : Lasting HttpParser.plainHead :=
  ⟨HttpParser.plainHead_wellFormed.accepted, by decide, by decide⟩

theorem paddedHead_lasting (n : ℕ) : Lasting (paddedHead n) :=
  ⟨paddedHead_accepted n, rfl, rfl, rfl⟩

theorem keepsUp_iff_single_withheld :
    AlongReads .sample (fun log ↦ KeepsUp .sample [paddedHead 1964, HttpParser.plainHead] log.seen
      log.answered) {} withheld (new 5 .zero 0) := by
  have hlength : (paddedHead 1964).encode.length = 2002 := length_paddedHead 1964
  have hcompleted (n : ℕ) : completed [paddedHead 1964, HttpParser.plainHead] (2002 + n) =
      if 27 ≤ n then 2 else 1 := by
    have hplain : HttpParser.plainHead.encode.length = 27 := by decide
    simp only [completed, hlength, hplain]
    split_ifs <;> omega
  have hrun : AlongReads .sample (fun log a m ↦ (Obeys a m ∧ Spared log a m) ∧ Unshifted a m ∧
      Single [paddedHead 1964, HttpParser.plainHead] log.seen log.answered a) {} withheld
      (new 5 .zero 0) := by
    have hrests := rests_new .sample 5 .zero 0
    apply hrests.alongReads_whole (paddedHead_accepted 1964) (encode_ne_nil _) (by omega)
      (fun _ ↦ .inl (by decide)) rfl
    · refine ⟨⟨hrests.obeys (encode_ne_nil _) (by omega), hrests.spared (by omega) _⟩, ?_, ?_⟩
      · exact fun _ _ ↦ .inl (by decide)
      · unfold Single
        rw [streamed_inOnePiece, List.nil_append, hlength, ← Nat.add_zero 2002, hcompleted]
        decide
    intro log m hseen hanswered hbetween hrests
    rw [hlength] at hrests
    apply hrests.alongReads_within HttpParser.plainHead_wellFormed.accepted (by decide) (by decide)
      (fun hmidway ↦ absurd hmidway hbetween) (by decide) (by decide)
    · refine ⟨⟨hrests.obeys (by decide) (by decide), hrests.spared (by decide) _⟩,
        fun hmidway ↦ absurd hmidway hbetween, ?_⟩
      unfold Single
      rw [hseen, hanswered, streamed_inOnePiece, List.nil_append, List.length_append, hlength,
        hcompleted]
      decide
    intro log' m' hseen' hanswered' hrests'
    have hnone (hmidway : m'.Midway) : m'.httpParser.parserResult.header = none :=
      hrests'.header_eq_none hmidway fun setKa ↦ by cases setKa <;> decide +kernel
    apply hrests'.alongReads_whole HttpParser.plainHead_wellFormed.accepted (by decide) (by decide)
      (fun hmidway ↦ .inr (hnone hmidway)) (by decide)
    · refine ⟨⟨hrests'.obeys (by decide) (by decide), hrests'.spared (by decide) _⟩,
        fun hmidway _ ↦ .inr (hnone hmidway), ?_⟩
      unfold Single
      rw [hseen', hseen, hanswered', hanswered, streamed_inOnePiece, List.nil_append,
        List.append_assoc, List.length_append, hlength, hcompleted]
      decide
    exact fun _ _ _ _ _ _ ↦ trivial
  apply (keepsUp_iff_single ?_ ?_ 5 .zero 0 (hrun.imp fun _ _ _ h ↦ h.1.1)
    (hrun.imp fun _ _ _ h ↦ h.1.2) (hrun.imp fun _ _ _ h ↦ h.2.1)).mpr
  · exact hrun.imp fun _ _ _ h _ ↦ h.2.2
  · intro h hh
    rcases List.mem_cons.mp hh with rfl | hh
    · exact paddedHead_lasting 1964
    · rw [List.mem_singleton.mp hh]
      exact plainHead_lasting
  · rw [streamed_withheld]
    exact List.prefix_refl _

/-- Two requests in one piece. -/
def pipelined : Arrival :=
  inOnePiece (HttpParser.plainHead.encode ++ HttpParser.plainHead.encode)

/-- The second of two requests in one piece is left behind. -/
theorem not_keepsUp_pipelined :
    (∀ h ∈ [HttpParser.plainHead, HttpParser.plainHead], Lasting h) ∧
      streamed pipelined.received = streamOf [HttpParser.plainHead, HttpParser.plainHead] ∧
      Obeys pipelined (new 5 .zero 0) ∧
      ¬ AlongReads .sample (fun log ↦ KeepsUp .sample
        [HttpParser.plainHead, HttpParser.plainHead] log.seen log.answered) {} [pipelined]
          (new 5 .zero 0) := by
  have hreturns : Op.returning (fun _ _ ↦ true) (doRead .sample pipelined (new 5 .zero 0)) =
      true := by
    decide +kernel
  have hcount : 0 + (provides .sample pipelined (new 5 .zero 0)).toNat ≠
      completed [HttpParser.plainHead, HttpParser.plainHead]
        ([] ++ streamed pipelined.received).length := by
    decide +kernel
  refine ⟨?_, by decide, obeys_inOnePiece (by decide) (by decide), fun hkeeps ↦ ?_⟩
  · intro h hh
    obtain rfl : h = HttpParser.plainHead := by simpa using hh
    exact plainHead_lasting
  · obtain ⟨_, m', hread, -⟩ := Op.of_returning hreturns
    have hfirst : KeepsUp .sample [HttpParser.plainHead, HttpParser.plainHead] [] 0 pipelined
        (new 5 .zero 0) := hkeeps.1
    exact hcount (hfirst m' hread)

end Member

end LWebServer
