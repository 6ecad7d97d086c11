import LWebServer.Http.Replies

/-!
# Following a stream of heads

What a call of `Starting_Parser` finds in the bytes that have come since the last finished head is
described in `LWebServer.Http.Progress`. Here the flag is followed as well, which each head leaves
to the next one, and the request of a finished head is one that is answered as the head tells.
-/

namespace LWebServer

namespace HttpParser

variable {table : HeaderTable} {stale : List HeaderEntry} {setKa : HttpFlag} {s t : List Byte}
  {p q : HttpParser}

/-- Inside a head of which the bytes `t` have been received; before it the flag was `setKa` and the
map held `stale`. -/
structure Following (table : HeaderTable) (stale : List HeaderEntry) (setKa : HttpFlag)
    (t : List Byte) (p : HttpParser) : Prop where
  reading : Reading .all table stale t p
  extrabuffer : p.extrabuffer.isVaild = false
  tracks : ∃ pre known c, t = pre ++ p.userBuffer.unread ∧ Scan.Within setKa pre c ∧
    Tracks table stale known p c
  fenced : p.Fenced

theorem Ready.following (hready : p.Ready) (hwhole : Whole p.requestResult.headerValue)
    (table : HeaderTable) :
    Following table p.requestResult.headerValue p.parserResult.setKa p.userBuffer.unread p := by
  have hunfinished : p.finished = false := by simpa [finished] using hready.fault
  have hscan : Scan.Within p.parserResult.setKa [] p.scanStart :=
    ⟨rfl, hready.fault, HttpParserStatus.noConfusion⟩
  have hresult := hready.parserResult
  refine ⟨⟨⟨[], [], _, _, rfl, hscan, hready.tracks table [], fun _ ↦ List.nil_subset _⟩,
    hunfinished, hready.readSpot_le, fun _ ↦ hwhole⟩, hready.extrabuffer,
    ⟨[], [], _, rfl, hscan, hready.tracks table []⟩,
    fun _ ↦ ?_, fun h ↦ absurd h hready.fault, fun h ↦ absurd h hready.fault⟩
  rw [hresult]
  rfl

/-- The next head begins behind a finished one. -/
theorem Between.following (hbetween : Between .all t p)
    (hextra : p.extrabuffer.isVaild = false) (table : HeaderTable) :
    Following table p.requestResult.headerValue p.parserResult.setKa t p.againParser := by
  have hready : p.againParser.Ready :=
    ⟨rfl, HttpParserFault.noConfusion, hextra, hbetween.readSpot_le⟩
  rw [← hbetween.unread]
  exact hready.following (hbetween.whole trivial) table

theorem Following.received (hfollowing : Following table stale setKa t p) (hsettled : p.Settled)
    {b : UserBuffer} (hreceived : Received p.userBuffer s b) :
    Following table stale setKa (t ++ s) { p with userBuffer := b } := by
  obtain ⟨hreading, hextra, ⟨pre, known, c, ht, hwithin, htracks⟩, hfenced⟩ := hfollowing
  have hsteady := hreading.steady trivial hsettled
  refine ⟨hreading.received hsteady hreceived (fun h ↦ absurd h id) p.extrabuffer, hextra,
    ⟨pre, known, c, ?_, hwithin,
      htracks.received hwithin.rooted hwithin.unfinished hsettled hreceived⟩,
    hfenced.received hreading.readSpot_le hsettled hreceived⟩
  rw [hreceived.unread, ht, List.append_assoc]

/-- How a call of `Starting_Parser` ends that follows a head. -/
inductive Ensues (table : HeaderTable) (stale : List HeaderEntry) (setKa : HttpFlag)
    (t : List Byte) (p : HttpParser) : Prop
  | finished (h : RequestHead) (q : HttpParser)
      (hcall : startingParser table p = .ok .hpfContent q)
      (hfinished : Finished .all table stale h t q) (hextra : q.extrabuffer.isVaild = false)
      (hrenders : q.requestResult.Renders q.userBuffer.buffer h
        (h.lines.foldl HeaderLine.flag setKa))
      (hflag : q.parserResult.setKa = h.lines.foldl HeaderLine.flag setKa)
      (hbuffer : ∃ n, q.userBuffer = p.userBuffer.read n)
  | following (fault : HttpParserFault) (q : HttpParser)
      (hcall : startingParser table p = .ok fault q)
      (hfollowing : Following table stale setKa t q)
      (hnone : ∀ h : RequestHead, h.Accepted → ¬ h.encode <+: t)
      (hbuffer : ∃ n, q.userBuffer = p.userBuffer.read n)
  | stopped (fault : HttpParserFault) (q : HttpParser)
      (hcall : startingParser table p = .ok fault q) (hhalted : q.Halted)
      (hended : ∃ setKa, ((Scan.start setKa .hpfOK).scan t).ended)
      (hnone : ∀ h : RequestHead, h.Accepted → ¬ h.encode <+: t)
  | threw (q : HttpParser) (hcall : startingParser table p = .error .outOfRange q)

theorem Following.ensues (hfollowing : Following table stale setKa t p) :
    Ensues table stale setKa t p := by
  obtain ⟨hreading, hextra, ⟨pre, known, c, ht, hwithin, htracks⟩, hfenced⟩ := hfollowing
  have hmarked := hwithin.mark p.parserAble
  have hall := Tracks.startingParser_follows (htracks.mono_known (List.subset_append_left known
    (namesIn p.userBuffer.buffer stale))) hextra
    (((hreading.whole trivial).known _).mono (List.subset_append_right _ _)) hreading.readSpot_le
  -- the call of the same parser, told with the flag that the head has begun with
  have hstarted {fault : HttpParserFault} {q : HttpParser}
      (hcall : startingParser table p = .ok fault q) : Started .all table stale
        (known ++ namesIn p.userBuffer.buffer stale) p c q := by
    rcases hall with ⟨-, q', hcall', hstarted⟩ | ⟨-, q', hcall'⟩
    · cases hcall.symm.trans hcall'
      exact hstarted
    · cases hcall.symm.trans hcall'
  have hspare : p.Spare t := fun hvaild ↦ absurd (hextra.symm.trans hvaild) Bool.false_ne_true
  cases hreading.proceeds hspare with
  | finished h q hcall hfinished hextra' hbuffer =>
    obtain ⟨rest, hrest⟩ := hfinished.head
    have hhead := hmarked.scan_of_head hfinished.accepted (ht.symm.trans hrest.symm)
    have hread := Scan.headRead_scan hfinished.accepted setKa .hpfOK
    have htracks' := (hstarted hcall).sees
    have hreported := (hstarted hcall).reported trivial trivial
    rw [hhead] at htracks' hreported
    exact .finished h q hcall hfinished (hextra' ▸ hextra)
      (renders_of_read hfenced hextra hcall hread htracks' hreported)
      ((Tracks.agrees htracks').setKa.trans hread.setKa) hbuffer
  | reading fault q hcall hreading' hextra' hbuffer hunread hopen hnone =>
    have htracks' := (hstarted hcall).sees
    have hscans := hmarked.forget_scan_append p.userBuffer.unread
    rw [← ht] at hscans
    have hcontent : q.parserResult.fault ≠ .hpfContent := by
      simpa [finished] using hreading'.unfinished
    rw [(Tracks.agrees htracks').fault] at hcontent
    have hrunning : ¬ ((c.mark p.parserAble).scan p.userBuffer.unread).ended := by
      obtain ⟨_, _, _, _, _, hwithin', hsame, -⟩ := hreading'.sees
      intro hended
      exact hwithin'.unfinished
        (hsame.paces.status.symm.trans (htracks'.paces.status.trans hended))
    refine .following fault q hcall ⟨hreading', hextra' ▸ hextra,
      ⟨t, _, _, ?_, ⟨hscans, hcontent, hrunning⟩, htracks'⟩,
      fenced_startingParser hfenced hextra hcall⟩ hnone hbuffer
    rw [hunread, List.append_nil]
  | stopped fault q hcall hhalted hended hnone =>
    exact .stopped fault q hcall hhalted hended hnone
  | threw q hcall => exact .threw q hcall
  | severed hline => exact absurd trivial hline
  | refused hline => exact absurd trivial hline

end HttpParser

end LWebServer
