import LWebServer.Http.Segmentation
import LWebServer.Net.Arriving

/-!
# Parsing one request after another

Between two calls the parser is either inside a head or behind a finished one. What it does next is
described by the bytes that it has received since the end of the last finished head, wherever they
lie in the array and whatever earlier requests have left in the header map.
-/

namespace LWebServer

open Memory HttpParser

/-! ## What earlier requests leave -/

/-- The names of the entries have their full length in any memory. -/
def Whole (entries : List HeaderEntry) : Prop :=
  ∀ entry ∈ entries, ∀ mem : ℕ → Byte, (entry.1.bytes mem).length = entry.1.length

/-- The names that some entries designate. -/
def namesIn (mem : ℕ → Byte) (entries : List HeaderEntry) : List (List Byte) :=
  (contents mem entries).map Prod.fst

theorem Whole.known {entries : List HeaderEntry} (hwhole : Whole entries) (mem : ℕ → Byte) :
    Known mem entries (namesIn mem entries) := by
  intro entry hentry
  refine ⟨hwhole entry hentry mem, ?_⟩
  rw [namesIn, contents, List.map_map]
  exact List.mem_map_of_mem hentry

theorem Known.mono {mem : ℕ → Byte} {stale : List HeaderEntry} {known known' : List (List Byte)}
    (hknown : Known mem stale known) (hsubset : known ⊆ known') : Known mem stale known' :=
  fun entry hentry ↦ ⟨(hknown entry hentry).1, hsubset (hknown entry hentry).2⟩

theorem EntryBelow.whole {mem : ℕ → Byte} {limit : ℕ} {entry : HeaderEntry}
    (hbelow : EntryBelow mem limit entry) (mem' : ℕ → Byte) :
    (entry.1.bytes mem').length = entry.1.length := by
  obtain ⟨spot, hspot, -⟩ := hbelow.name.header_isSome hbelow.named
  simp [ParsedHeader.bytes, hspot]

namespace Stored

variable {table : HeaderTable} {size : ℕ} {stale entries : List HeaderEntry}
  {known known' : List (List Byte)} {mem : ℕ → Byte} {limit : ℕ}
  {lines : List (List Byte × List Byte)}

theorem mono_known (hstored : Stored table size stale known mem limit entries lines)
    (hsubset : known ⊆ known') : Stored table size stale known' mem limit entries lines := by
  obtain ⟨fresh, hentries, hbelow, hkept, hcovers, hexact⟩ := hstored
  exact ⟨fresh, hentries, hbelow, hkept, fun line hline ↦ (hcovers line hline).imp_right
    fun h ↦ hsubset h, hexact⟩

theorem whole_entries (hstored : Stored table size stale known mem limit entries lines)
    (hwhole : Whole stale) : Whole entries := by
  obtain ⟨fresh, hentries, hbelow, -⟩ := hstored
  intro entry hentry mem'
  rw [hentries, List.mem_append] at hentry
  rcases hentry with hold | hnew
  · exact hwhole entry hold mem'
  · exact (hbelow entry hnew).whole mem'

end Stored

/-- None of the pointers in sight is set. -/
structure HttpParser.Unset (sight : Sight) (stale : List HeaderEntry) (p : HttpParser) : Prop where
  uri : sight.uri → p.parserResult.uri = none
  line : sight.line → p.parserResult.header = none
  entries : sight.entries → p.requestResult.headerValue = stale

/-- The bytes received next take nothing out of sight: none of the pointers in sight is set, or the
read position is in the first half of the array. -/
def HttpParser.Steady (sight : Sight) (stale : List HeaderEntry) (p : HttpParser) : Prop :=
  p.userBuffer.readSpot < p.userBuffer.bufferSize / 2 ∨ p.Unset sight stale

namespace Sees

variable {sight : Sight} {table : HeaderTable} {stale : List HeaderEntry}
  {known known' : List (List Byte)} {p : HttpParser} {c : Scan}

theorem mono_known (hsees : Sees sight table stale known p c) (hsubset : known ⊆ known') :
    Sees sight table stale known' p c :=
  ⟨hsees.paces, hsees.agrees, hsees.unsettled, hsees.word, hsees.shape, hsees.uri, hsees.uriEnd,
    hsees.name, hsees.nameEnd, hsees.value, hsees.valueEnd,
    fun hsight ↦ (hsees.stored hsight).mono_known hsubset⟩

theorem with_extra (hsees : Sees sight table stale known p c) (extra : Extrabuf) :
    Sees sight table stale known { p with extrabuffer := extra } c :=
  ⟨hsees.paces, hsees.agrees, hsees.unsettled, hsees.word, hsees.shape, hsees.uri, hsees.uriEnd,
    hsees.name, hsees.nameEnd, hsees.value, hsees.valueEnd, hsees.stored⟩

/-- Bytes received while nothing that is in sight is shifted. -/
theorem received (hsees : Sees sight table stale known p c) (hended : ¬ c.ended)
    (hsteady : p.Steady sight stale) {s : List Byte} {b : UserBuffer}
    (hreceived : Received p.userBuffer s b) :
    Sees sight table stale known { p with userBuffer := b } c := by
  by_cases hlow : p.userBuffer.readSpot < p.userBuffer.bufferSize / 2
  · obtain ⟨hread, hwrite, hsame⟩ := hreceived.stays hlow
    exact hsees.extended hreceived.bufferSize hread hwrite hsame
  · obtain ⟨huri, hline, hentries⟩ := hsteady.resolve_left hlow
    refine hsees.shifted (fun h ↦ ⟨h, hsees.uri_eq_nil h (huri h)⟩) (fun h ↦ ⟨h, ?_⟩)
      (fun h ↦ ⟨h, hentries h⟩) hreceived.bufferSize
    have hname := hsees.name_eq_nil h (hline h)
    exact ⟨hname, hsees.value_eq_nil hended hname⟩

/-- Without a URI nothing of the head is recorded. -/
theorem steady (hsees : Sees sight table stale known p c) (hrooted : c.Rooted) (hsight : sight.uri)
    (hsettled : p.Settled) : p.Steady sight stale := by
  by_cases hnone : p.parserResult.uri = none
  · right
    obtain ⟨hname, -, hheaders⟩ := hrooted.bare (hsees.uri_eq_nil hsight hnone)
    refine ⟨fun _ ↦ hnone, fun hline ↦ ?_, fun h ↦ hsees.entries_eq_stale h hheaders⟩
    have hview := hsees.name hline
    rw [hname] at hview
    exact congrArg ParsedHeader.header hview.eq_none
  · exact .inl (hsettled hnone)

end Sees

/-- Bytes received while nothing that is in use is shifted. -/
theorem Tracks.received {table : HeaderTable} {stale : List HeaderEntry} {known : List (List Byte)}
    {p : HttpParser} {c : Scan} (htracks : Tracks table stale known p c) (hrooted : c.Rooted)
    (hended : ¬ c.ended) (hsettled : p.Settled) {s : List Byte} {b : UserBuffer}
    (hreceived : Received p.userBuffer s b) :
    Tracks table stale known { p with userBuffer := b } c :=
  Sees.received htracks hended (Sees.steady htracks hrooted trivial hsettled) hreceived

namespace Scan

/-- Whether success is found does not depend on an earlier fault. -/
theorem fault_scan_iff {c : Scan} (hfault : c.fault ≠ .hpfContent) (stream : List Byte) :
    (c.scan stream).fault = .hpfContent ↔ (c.forget.scan stream).fault = .hpfContent := by
  rw [scan_eq c]
  simp only [orFault]
  split_ifs with hok
  · simp [hfault, hok]
  · rfl

theorem eq_of_forget_eq {c d : Scan} (hforget : c.forget = d.forget) :
    c.word = d.word ∧ c.status = d.status := by
  have hword : c.forget.word = d.forget.word := by rw [hforget]
  have hstatus : c.forget.status = d.forget.status := by rw [hforget]
  exact ⟨hword, hstatus⟩

theorem consumed_of_forget_eq {c d : Scan} (hforget : c.forget = d.forget) :
    c.consumed = d.consumed := by
  have hconsumed : c.forget.consumed = d.forget.consumed := by rw [hforget]
  exact hconsumed

theorem scan_of_content {c : Scan} {stream : List Byte}
    (hcontent : (c.forget.scan stream).fault = .hpfContent) :
    c.scan stream = c.forget.scan stream := by
  have hset : (c.forget.scan stream).fault ≠ .hpfOK := by
    rw [hcontent]
    exact HttpParserFault.noConfusion
  rw [scan_eq c]
  simp only [orFault, if_neg hset]

/-- The machine stands behind `t`, up to its fault, and inside a head. -/
structure Within (setKa : HttpFlag) (t : List Byte) (c : Scan) : Prop where
  scans : c.forget = ((start setKa .hpfOK).scan t).forget
  fault : c.fault ≠ .hpfContent
  unfinished : ¬ c.ended

theorem within_start (setKa : HttpFlag) : Within setKa [] (start setKa .hpfOK) :=
  ⟨rfl, HttpParserFault.noConfusion, HttpParserStatus.noConfusion⟩

namespace Within

variable {setKa : HttpFlag} {t s : List Byte} {c : Scan}

theorem mark (hwithin : Within setKa t c) (able : Bool) : Within setKa t (c.mark able) := by
  obtain ⟨hscans, hfault, hopen⟩ := hwithin
  cases able
  · exact ⟨hscans, HttpParserFault.noConfusion, hopen⟩
  · exact ⟨hscans, hfault, hopen⟩

theorem ended_iff (hwithin : Within setKa t c) :
    c.ended ↔ ((start setKa .hpfOK).scan t).ended := by
  have h : c.forget.ended ↔ ((start setKa .hpfOK).scan t).forget.ended := by rw [hwithin.scans]
  exact h

theorem consumed_eq (hwithin : Within setKa t c) : c.consumed = t.length := by
  have h : c.forget.consumed = ((start setKa .hpfOK).scan t).forget.consumed := by
    rw [hwithin.scans]
  have hopen := hwithin.unfinished
  rw [hwithin.ended_iff] at hopen
  exact h.trans ((history_scan setKa (by decide) t).consumed hopen)

theorem rooted (hwithin : Within setKa t c) : c.Rooted := by
  have h := rooted_scan setKa .hpfOK t
  have h' : c.forget.Rooted := by
    rw [hwithin.scans]
    exact ⟨h.1, h.2⟩
  exact ⟨h'.1, h'.2⟩

theorem forget_scan_append (hwithin : Within setKa t c) (s : List Byte) :
    (c.scan s).forget = ((start setKa .hpfOK).scan (t ++ s)).forget := by
  rw [forget_scan, hwithin.scans, ← forget_scan, scan_append]

/-- Behind an accepted head the machine has read it. -/
theorem scan_of_head (hwithin : Within setKa t c) {h : RequestHead} (haccepted : h.Accepted)
    {rest : List Byte} (hhead : t ++ s = h.encode ++ rest) :
    c.scan s = (start setKa .hpfOK).scan h.encode := by
  have hwhole : (start setKa .hpfOK).scan (t ++ s) = (start setKa .hpfOK).scan h.encode := by
    rw [hhead, scan_encode_append haccepted]
  have hread := headRead_scan haccepted setKa .hpfOK
  have hfirst : ((start setKa .hpfOK).scan t).fault ≠ .hpfContent := by
    have hopen := hwithin.unfinished
    rw [hwithin.ended_iff] at hopen
    exact (history_scan setKa (by decide) t).fault hopen
  have hcontent : (c.forget.scan s).fault = .hpfContent := by
    rw [hwithin.scans, ← fault_scan_iff hfirst, ← scan_append, hwhole, hread.fault]
  rw [scan_of_content hcontent, hwithin.scans, ← scan_of_content, ← scan_append, hwhole]
  rw [← hwithin.scans]
  exact hcontent

/-- Success means that the bytes begin with an accepted head. -/
theorem head_of_content (hwithin : Within setKa t c) (hcontent : (c.scan s).fault = .hpfContent) :
    ∃ h : RequestHead, h.Accepted ∧ h.encode <+: t ++ s := by
  have hfirst : ((start setKa .hpfOK).scan t).fault ≠ .hpfContent := by
    have hopen := hwithin.unfinished
    rw [hwithin.ended_iff] at hopen
    exact (history_scan setKa (by decide) t).fault hopen
  rw [fault_scan_iff hwithin.fault, hwithin.scans, ← fault_scan_iff hfirst,
    ← scan_append] at hcontent
  exact (scan_accepts_iff setKa (by decide) _).mp hcontent

end Within

end Scan

/-- Before its end an accepted head does not stop the machine. -/
theorem not_ended_of_prefix {h : RequestHead} (haccepted : h.Accepted) {t : List Byte}
    (hstarts : t <+: h.encode) (hshort : t.length < h.encode.length) (setKa : HttpFlag) :
    ¬ ((Scan.start setKa .hpfOK).scan t).ended := by
  intro hended
  obtain ⟨more, hmore⟩ := hstarts
  have hread := Scan.headRead_scan haccepted setKa .hpfOK
  rw [← hmore, Scan.scan_append, Scan.scan_of_ended hended] at hread
  have hreads := (Scan.history_scan setKa (by decide : HttpParserFault.hpfOK ≠ _) t).reads
  unfold Scan.Reads at hreads
  rw [show ((Scan.start setKa .hpfOK).scan t).status = _ from hended] at hreads
  obtain ⟨h', rest, -, ht, hconsumed⟩ := hreads hread.fault
  have hlength := congrArg List.length ht
  rw [List.length_append] at hlength
  have hsame := hconsumed.symm.trans hread.consumed
  omega

/-! ## Between calls -/

namespace HttpParser

/-- Behind a finished request; the bytes `t` that came after it are unread. -/
structure Between (sight : Sight) (t : List Byte) (p : HttpParser) : Prop where
  finished : p.finished = true
  readSpot_le : p.userBuffer.readSpot ≤ p.userBuffer.writeSpot
  unread : p.userBuffer.unread = t
  whole : sight.entries → Whole p.requestResult.headerValue

/-- Inside a head of which the bytes `t` have been received, those that are unread last. The map has
held the entries `stale` before. -/
structure Reading (sight : Sight) (table : HeaderTable) (stale : List HeaderEntry) (t : List Byte)
    (p : HttpParser) : Prop where
  sees : ∃ pre known setKa c, t = pre ++ p.userBuffer.unread ∧ Scan.Within setKa pre c ∧
    Sees sight table stale known p c ∧ (sight.old → known ⊆ namesIn p.userBuffer.buffer stale)
  unfinished : p.finished = false
  readSpot_le : p.userBuffer.readSpot ≤ p.userBuffer.writeSpot
  whole : sight.entries → Whole stale

/-- The bytes `t` begin with the head `h`, which has been read. -/
structure Finished (sight : Sight) (table : HeaderTable) (stale : List HeaderEntry)
    (h : RequestHead) (t : List Byte) (p : HttpParser) : Prop where
  accepted : h.Accepted
  head : h.encode <+: t
  views : ∃ known setKa c, Scan.HeadRead h setKa c ∧ Sees sight table stale known p c ∧
    (sight.uri → sight.line → Reported p c) ∧
    (sight.old → known ⊆ namesIn p.userBuffer.buffer stale)
  between : Between sight (t.drop h.encode.length) p

/-- While the `Extrabuf` is in use, the bytes `t` of a head and what follows it go beyond the end of
the head, or beyond the byte at which it is refused. -/
def Spare (t : List Byte) (p : HttpParser) : Prop :=
  p.extrabuffer.isVaild = true → ∀ setKa, ((Scan.start setKa .hpfOK).scan t).ended ∧
    ((Scan.start setKa .hpfOK).scan t).consumed < t.length

/-- How a call of `Starting_Parser` ends. -/
inductive Proceeds (sight : Sight) (table : HeaderTable) (stale : List HeaderEntry) (t : List Byte)
    (p : HttpParser) : Prop
  | finished (h : RequestHead) (q : HttpParser)
      (hcall : startingParser table p = .ok .hpfContent q)
      (hfinished : Finished sight table stale h t q) (hextra : q.extrabuffer = p.extrabuffer)
      (hbuffer : ∃ n, q.userBuffer = p.userBuffer.read n)
  | reading (fault : HttpParserFault) (q : HttpParser)
      (hcall : startingParser table p = .ok fault q) (hreading : Reading sight table stale t q)
      (hextra : q.extrabuffer = p.extrabuffer) (hbuffer : ∃ n, q.userBuffer = p.userBuffer.read n)
      (hunread : q.userBuffer.unread = [])
      (hopen : ∃ setKa, ¬ ((Scan.start setKa .hpfOK).scan t).ended)
      (hnone : ∀ h : RequestHead, h.Accepted → ¬ h.encode <+: t)
  | stopped (fault : HttpParserFault) (q : HttpParser)
      (hcall : startingParser table p = .ok fault q) (hhalted : q.Halted)
      (hended : ∃ setKa, ((Scan.start setKa .hpfOK).scan t).ended)
      (hnone : ∀ h : RequestHead, h.Accepted → ¬ h.encode <+: t)
  | threw (q : HttpParser) (hcall : startingParser table p = .error .outOfRange q)
  | severed (hline : ¬ sight.line) (fault : HttpParserFault) (q : HttpParser)
      (hcall : startingParser table p = .ok fault q) (hhalted : q.Halted) (pre : List Byte) (n : ℕ)
      (ht : t = pre ++ p.userBuffer.unread) (hbuffer : q.userBuffer = p.userBuffer.read n)
      (hextra : q.extrabuffer = p.extrabuffer) (hpos : 0 < n)
      (hn : n ≤ p.userBuffer.unread.length)
      (hopen : ∃ setKa,
        ¬ ((Scan.start setKa .hpfOK).scan (pre ++ p.userBuffer.unread.take n)).ended)
  | refused (hline : ¬ sight.line) (hended : ∃ setKa, ((Scan.start setKa .hpfOK).scan t).ended)
      (hnone : ∀ h : RequestHead, h.Accepted → ¬ h.encode <+: t)

variable {sight : Sight} {table : HeaderTable} {stale : List HeaderEntry} {t s : List Byte}
  {p q : HttpParser}

theorem reading_new (sight : Sight) (table : HeaderTable) (memory : HttpRequest) :
    Reading sight table [] [] (.new memory) := by
  have hfresh : (HttpParser.new memory).Fresh := ⟨rfl, rfl, rfl, le_rfl⟩
  refine ⟨⟨[], [], .keepAlive, _, rfl, Scan.within_start _, hfresh.sees sight table,
    fun _ ↦ List.nil_subset _⟩, rfl, le_rfl, fun _ ↦ ?_⟩
  exact fun entry hentry ↦ absurd hentry List.not_mem_nil

theorem Between.received (hbetween : Between sight t p) {b : UserBuffer}
    (hreceived : Received p.userBuffer s b) (extra : Extrabuf) :
    Between sight (t ++ s) { p with userBuffer := b, extrabuffer := extra } where
  finished := hbetween.finished
  readSpot_le := hreceived.readSpot_le
  unread := by rw [hreceived.unread, hbetween.unread]
  whole := hbetween.whole

/-- `Again_Parser` begins the next head. -/
theorem Between.againParser (hbetween : Between sight t p) (table : HeaderTable) :
    Reading sight table p.requestResult.headerValue t p.againParser := by
  have hsees := sees_of_init (p := p.againParser) rfl HttpParserFault.noConfusion sight table []
  exact ⟨⟨[], [], _, _, hbetween.unread.symm, Scan.within_start _, hsees,
    fun _ ↦ List.nil_subset _⟩, rfl, hbetween.readSpot_le, hbetween.whole⟩

theorem Reading.received (hreading : Reading sight table stale t p)
    (hsteady : p.Steady sight stale) {b : UserBuffer} (hreceived : Received p.userBuffer s b)
    (hold : sight.old → namesIn p.userBuffer.buffer stale ⊆ namesIn b.buffer stale)
    (extra : Extrabuf) :
    Reading sight table stale (t ++ s) { p with userBuffer := b, extrabuffer := extra } := by
  obtain ⟨⟨pre, known, setKa, c, ht, hwithin, hsees, hknown⟩, hunfinished, -, hwhole⟩ := hreading
  refine ⟨⟨pre, known, setKa, c, ?_, hwithin,
    (hsees.received hwithin.unfinished hsteady hreceived).with_extra extra, fun h ↦ ?_⟩,
    hunfinished, hreceived.readSpot_le, hwhole⟩
  · rw [hreceived.unread, ht, List.append_assoc]
  · exact List.Subset.trans (hknown h) (hold h)

theorem Reading.steady (hreading : Reading sight table stale t p) (hsight : sight.uri)
    (hsettled : p.Settled) : p.Steady sight stale := by
  obtain ⟨⟨pre, known, setKa, c, -, hwithin, hsees, -⟩, -⟩ := hreading
  exact hsees.steady hwithin.rooted hsight hsettled

theorem readSpot_read_le {b : UserBuffer} {n : ℕ} (hn : n ≤ b.unread.length)
    (hle : b.readSpot ≤ b.writeSpot) :
    (b.read n).readSpot ≤ (b.read n).writeSpot := by
  rw [UserBuffer.length_unread] at hn
  simp only [UserBuffer.read]
  omega

/-- A call of `Starting_Parser` inside a head. -/
theorem Reading.proceeds (hreading : Reading sight table stale t p) (hspare : p.Spare t) :
    Proceeds sight table stale t p := by
  obtain ⟨⟨pre, known, setKa, c, ht, hwithin, hsees, hold⟩, hunfinished, hle, hwhole⟩ := hreading
  have hmarked := hwithin.mark p.parserAble
  have hscans := hmarked.forget_scan_append p.userBuffer.unread
  rw [← ht] at hscans
  obtain ⟨-, hstatus⟩ := Scan.eq_of_forget_eq hscans
  have hcount := Scan.consumed_of_forget_eq hscans
  have hlength := congrArg List.length ht
  rw [List.length_append] at hlength
  have hdry : p.Dry (c.mark p.parserAble) := by
    intro hvaild
    obtain ⟨hended, hshort⟩ := hspare hvaild setKa
    refine ⟨hstatus.trans hended, ?_⟩
    rw [hcount, Scan.consumed_mark, hwithin.consumed_eq]
    omega
  have hnohead (hcontent : ((c.mark p.parserAble).scan p.userBuffer.unread).fault ≠ .hpfContent)
      (h : RequestHead) (haccepted : h.Accepted) : ¬ h.encode <+: t := by
    rintro ⟨rest, hrest⟩
    have hhead := hmarked.scan_of_head haccepted (ht.symm.trans hrest.symm)
    rw [hhead, (Scan.headRead_scan haccepted setKa .hpfOK).fault] at hcontent
    exact hcontent rfl
  have hknown : sight.entries → Known p.userBuffer.buffer stale
      (known ++ namesIn p.userBuffer.buffer stale) := fun hentries ↦
    ((hwhole hentries).known _).mono (List.subset_append_right _ _)
  have hold' (hsight : sight.old) : known ++ namesIn p.userBuffer.buffer stale ⊆
      namesIn p.userBuffer.buffer stale :=
    List.append_subset.mpr ⟨hold hsight, List.Subset.refl _⟩
  rcases (hsees.mono_known (List.subset_append_left known
      (namesIn p.userBuffer.buffer stale))).startingParser_follows hdry hknown hle with
    ⟨-, q, hcall, hstarted⟩ | ⟨-, q, hcall⟩ | ⟨hline, hparted⟩
  · obtain ⟨hsees', hreported, hextra, n, hbuffer, hconsumed, hn⟩ := hstarted
    rw [hwithin.consumed_eq] at hconsumed
    have hsame : q.userBuffer.buffer = p.userBuffer.buffer := by
      rw [hbuffer]
      rfl
    have hnames : sight.old → known ++ namesIn p.userBuffer.buffer stale ⊆
        namesIn q.userBuffer.buffer stale := by
      rwa [hsame]
    by_cases hcontent : ((c.mark p.parserAble).scan p.userBuffer.unread).fault = .hpfContent
    · obtain ⟨h, haccepted, rest, hrest⟩ := hmarked.head_of_content hcontent
      have hhead := hmarked.scan_of_head haccepted hrest.symm
      have hread := Scan.headRead_scan haccepted setKa .hpfOK
      rw [← hhead] at hread
      rw [hread.consumed] at hconsumed
      have hfit := congrArg List.length hrest
      rw [List.length_append, List.length_append] at hfit
      rw [hsees'.paces.content.mpr hcontent] at hcall
      refine .finished h q hcall ⟨haccepted, ht ▸ ⟨rest, hrest⟩, ⟨_, setKa, _, hread, hsees',
        hreported, hnames⟩, ?_, ?_, ?_, fun hentries ↦ ?_⟩ hextra ⟨n, hbuffer⟩
      · simp [finished, hsees'.paces.content, hcontent]
      · rw [hbuffer]
        exact readSpot_read_le (by omega) hle
      · rw [hbuffer, UserBuffer.unread_read, ht, hconsumed, List.drop_append,
          List.drop_eq_nil_of_le (Nat.le_add_right _ _), List.nil_append, Nat.add_sub_cancel_left]
      · exact (hsees'.stored hentries).whole_entries (hwhole hentries)
    · have hfault : q.parserResult.fault ≠ .hpfContent := mt hsees'.paces.content.mp hcontent
      by_cases hended : ((Scan.start setKa .hpfOK).scan t).ended
      · refine .stopped _ q hcall ⟨?_, hfault⟩ ⟨setKa, hended⟩ (hnohead hcontent)
        rw [hsees'.paces.status, hstatus]
        exact hended
      · have hended' : ¬ ((c.mark p.parserAble).scan p.userBuffer.unread).ended := fun h ↦
          hended (hstatus.symm.trans h)
        obtain rfl := hn.resolve_right hended'
        have hunread : q.userBuffer.unread = [] := by
          rw [hbuffer, UserBuffer.unread_read, List.drop_length]
        refine .reading _ q hcall
          ⟨⟨t, _, setKa, _, ?_, ⟨hscans, hcontent, hended'⟩, hsees', hnames⟩, ?_, ?_, hwhole⟩
          hextra ⟨_, hbuffer⟩ hunread ⟨setKa, hended⟩ (hnohead hcontent)
        · rw [hunread, List.append_nil]
        · simpa [finished] using hfault
        · rw [hbuffer]
          exact readSpot_read_le le_rfl hle
  · exact .threw q hcall
  · cases hparted with
    | halted fault q n hcall hhalted hbuffer hextra hpos hn hopen =>
      refine .severed hline fault q hcall hhalted pre n ht hbuffer hextra hpos hn
        ⟨setKa, fun hended ↦ ?_⟩
      have hcut := hmarked.forget_scan_append (p.userBuffer.unread.take n)
      exact hopen ((Scan.eq_of_forget_eq hcut).2.trans hended)
    | refused hended hfault =>
      exact .refused hline ⟨setKa, hstatus.symm.trans hended⟩ (hnohead hfault)

end HttpParser

end LWebServer
