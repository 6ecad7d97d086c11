import LWebServer.Http.Starting
import Mathlib.Data.List.Induction

/-!
# Pieces of a stream

A delivery is a piece of the stream and a call of `Starting_Parser`. The machine does not see
where the stream is cut, with two exceptions: the parser cannot stop inside a word, and each
delivery that leaves fewer than 16 readable bytes sets a fault.
-/

namespace LWebServer

open HttpParser

/-! ## Words -/

namespace HttpParserStatus

/-- The word that a state takes from the buffer at once. -/
def rest : HttpParserStatus → List Byte
  | hpsGet => text "ET"
  | hpsPost => text "OST"
  | hpsOption => text "PTIONS"
  | hpsHead => text "EAD"
  | hpsDelete => text "ELETE"
  | hpsUriEnd => text "HTTP/"
  | _ => []

end HttpParserStatus

/-- The bytes end inside a word: a letter that begins a method name and some bytes more, or the
blanks behind a URI and some bytes more, and in either case not as many bytes as the name or
`HTTP/` has. -/
def EndsInWord (s : List Byte) : Prop :=
  (∃ n, ∃ method : HttpRequestMethod, ∃ first junk, method.word.head? = some first ∧
    s = blanks n ++ first :: junk ∧ junk ≠ [] ∧ (first :: junk).length < method.word.length) ∨
  ∃ pre gap junk, UriText pre ∧ s = pre ++ blanks (gap + 1) ++ junk ∧ junk ≠ [] ∧
    junk.head? ≠ some (ascii ' ') ∧ junk.length < 5

namespace Scan

open HttpParserStatus

theorem word_feedWord {word : List Byte} {next : HttpParserStatus} {fault : HttpParserFault}
    {c : Scan} (g : HttpRequestMethod → HttpRequestMethod) (hrest : c.status.rest = word)
    (ch : Byte) (hopen : (c.feedWord word next (fun c ↦ { c with method := g c.method })
      fault ch).word ≠ []) :
    (c.feedWord word next (fun c ↦ { c with method := g c.method }) fault ch).word.length <
      (c.feedWord word next (fun c ↦ { c with method := g c.method }) fault
        ch).status.rest.length := by
  unfold feedWord at hopen ⊢
  dsimp only at hopen ⊢
  split_ifs at hopen ⊢ with hshort hword
  · rw [hrest]
    exact hshort
  · exact absurd rfl hopen
  · exact absurd rfl hopen

/-- The collected bytes are fewer than the word has. -/
theorem word_step {c : Scan} (hword : c.word ≠ [] → c.word.length < c.status.rest.length)
    (ch : Byte) (hopen : (c.step ch).word ≠ []) :
    (c.step ch).word.length < (c.step ch).status.rest.length := by
  cases hstatus : c.status <;> rw [hstatus] at hword <;> simp only [step, hstatus] at hopen ⊢
  case hpsGet | hpsPost | hpsOption | hpsHead | hpsDelete =>
    exact word_feedWord (fun _ ↦ _) (by rw [hstatus]; rfl) ch hopen
  case hpsUriEnd =>
    split_ifs at hopen ⊢ with hblank
    · exact absurd hblank.1 hopen
    · exact word_feedWord id (by rw [hstatus]; rfl) ch hopen
  case hpsGameOver => exact hstatus ▸ hword hopen
  case hpsStoreHeader =>
    have hkept : c.storeLine.word = c.word := by
      unfold storeLine readLength
      dsimp only
      split_ifs <;> rfl
    rw [hkept] at hopen
    exact absurd (hword hopen) (by simp [rest])
  all_goals
    split_ifs at hopen
    all_goals exact absurd (hword hopen) (by simp [rest])

theorem word_scan {stream : List Byte} {setKa : HttpFlag} {fault : HttpParserFault}
    (hopen : ((start setKa fault).scan stream).word ≠ []) :
    ((start setKa fault).scan stream).word.length <
      ((start setKa fault).scan stream).status.rest.length := by
  have h := @Online.feed_invariant Scan Byte step
    (fun c ↦ c.word ≠ [] → c.word.length < c.status.rest.length) (start setKa fault)
    (fun h ↦ absurd rfl h) (fun _ ch hword ↦ word_step hword ch) stream
  exact h hopen

theorem scan_uriText {s : List Byte} (huri : UriText s) (setKa : HttpFlag)
    (fault : HttpParserFault) : ((start setKa fault).scan s).status = .hpsUriParser ∧
      ((start setKa fault).scan s).word = [] := by
  obtain ⟨_, gap, uri, ⟨n, method, hknown, rfl⟩, hne, hchars, rfl⟩ := huri
  simp only [scan_append]
  rw [scan_blanks (fun _ ↦ rfl) n, scan_method rfl rfl hknown, scan_gap rfl gap,
    scan_uri rfl hne hchars]
  exact ⟨rfl, rfl⟩

/-- A word that has begun and is not complete stays in the state. -/
theorem word_scan_of_short {c : Scan} (next : HttpParserStatus) (fault : HttpParserFault)
    (g : HttpRequestMethod → HttpRequestMethod) (hword : c.word = []) {word junk : List Byte}
    (hjunk : junk ≠ []) (hshort : junk.length < word.length)
    (hstep : ∀ seen k ch, (seen = [] → junk.head? = some ch) →
      step { c with word := seen, consumed := k } ch =
        feedWord word next (fun c ↦ { c with method := g c.method }) fault
          { c with word := seen, consumed := k } ch) : (c.scan junk).word ≠ [] := by
  obtain ⟨ch, rest, rfl⟩ := List.exists_cons_of_ne_nil hjunk
  have hfirst := hstep c.word c.consumed ch fun _ ↦ rfl
  rw [scan_word hword hfirst (fun seen k ch hseen ↦ hstep seen k ch fun h ↦ absurd h hseen)
    hshort.le, if_pos hshort]
  exact hjunk

/-- The machine is inside a word exactly where the bytes end inside one. -/
theorem word_scan_ne_nil_iff (s : List Byte) (setKa : HttpFlag) {fault : HttpParserFault}
    (hfault : fault ≠ .hpfContent) : ((start setKa fault).scan s).word ≠ [] ↔ EndsInWord s := by
  constructor
  · intro hopen
    have hlength := word_scan hopen
    have hhistory := history_scan setKa hfault s
    have hreads := hhistory.reads
    have htakes : ((start setKa fault).scan s).status.takesWord = true := by
      by_contra hnot
      exact hopen (hhistory.word (by simpa using hnot))
    have hmethod (method : HttpRequestMethod) (first : Byte) (rest junk : List Byte)
        (hword : method.word = first :: rest) (hjunk : junk ≠ [])
        (hshort : junk.length < rest.length) (hs : ∃ n, s = blanks n ++ [first] ++ junk) :
        EndsInWord s := by
      obtain ⟨n, hs⟩ := hs
      refine .inl ⟨n, method, first, junk, by rw [hword]; rfl, by simp [hs], hjunk, ?_⟩
      rw [hword]
      exact Nat.succ_lt_succ hshort
    unfold Reads at hreads
    cases hstatus : ((start setKa fault).scan s).status <;>
      simp only [hstatus, takesWord, reduceCtorEq] at hreads hlength htakes
    case hpsGet => exact hmethod .hrGet _ _ _ rfl hopen hlength hreads
    case hpsPost => exact hmethod .hrPost _ _ _ rfl hopen hlength hreads
    case hpsOption => exact hmethod .hrOptions _ _ _ rfl hopen hlength hreads
    case hpsHead => exact hmethod .hrHead _ _ _ rfl hopen hlength hreads
    case hpsDelete => exact hmethod .hrDelete _ _ _ rfl hopen hlength hreads
    case hpsUriEnd =>
      obtain ⟨pre, gap, hpre, hs, hhead⟩ := hreads
      exact .inr ⟨pre, gap, _, hpre, hs, hopen, hhead, hlength⟩
  · rintro (⟨n, method, first, junk, hfirst, rfl, hjunk, hshort⟩ |
      ⟨pre, gap, junk, hpre, rfl, hjunk, hhead, hshort⟩)
    · rw [scan_append, scan_blanks (fun _ ↦ rfl) n, scan_cons]
      cases method
      case hrPut | hrInit => cases hfirst
      all_goals
        cases hfirst
        exact word_scan_of_short _ _ (fun _ ↦ _) rfl hjunk (Nat.lt_of_succ_lt_succ hshort)
          fun _ _ _ _ ↦ rfl
    · obtain ⟨hstatus, hword⟩ := scan_uriText hpre setKa fault
      simp only [scan_append]
      rw [scan_gap' hstatus hword gap]
      have hshort' : junk.length < (text "HTTP/").length := hshort
      refine word_scan_of_short .hpsVersionMajor .hpfInvaildVersion id ?_ hjunk hshort' ?_
      · exact hword
      · intro seen k ch hfirst
        refine if_neg ?_
        rintro ⟨hseen, rfl⟩
        exact hhead (hfirst hseen)

end Scan

/-! ## How far a run has come -/

namespace Scan

open HttpParserStatus

/-- The texts come in order: no line without a URI. -/
structure Rooted (c : Scan) : Prop where
  uriLate : c.status.beforeUri = false → ¬ c.ended → c.uri ≠ []
  bare : c.uri = [] → c.name = [] ∧ c.value = [] ∧ c.headers = []

theorem rooted_of_uri_ne_nil {c : Scan} (huri : c.uri ≠ []) : c.Rooted :=
  ⟨fun _ _ ↦ huri, fun hnil ↦ absurd hnil huri⟩

theorem uri_feedWord {word : List Byte} {next : HttpParserStatus} {fault : HttpParserFault}
    (g : HttpRequestMethod → HttpRequestMethod) (c : Scan) (ch : Byte) :
    (c.feedWord word next (fun c ↦ { c with method := g c.method }) fault ch).uri = c.uri := by
  unfold feedWord
  dsimp only
  split_ifs <;> rfl

theorem uri_storeLine (c : Scan) : c.storeLine.uri = c.uri := by
  unfold storeLine readLength
  dsimp only
  split_ifs <;> rfl

/-- A URI that has begun stays. -/
theorem uri_step_ne_nil {c : Scan} (huri : c.uri ≠ []) (ch : Byte) : (c.step ch).uri ≠ [] := by
  unfold step
  cases c.status <;> dsimp only
  case hpsGet | hpsPost | hpsOption | hpsHead | hpsDelete =>
    exact (uri_feedWord (fun _ ↦ _) c ch).trans_ne huri
  case hpsUriEnd =>
    split_ifs
    · exact huri
    · exact (uri_feedWord id c ch).trans_ne huri
  case hpsStoreHeader => exact (uri_storeLine c).trans_ne huri
  case hpsUriStart =>
    split_ifs
    · exact huri
    · exact List.cons_ne_nil _ _
    · exact huri
  case hpsUriParser =>
    split_ifs
    · exact List.append_ne_nil_of_left_ne_nil huri _
    · exact huri
    · exact huri
  case hpsGameOver => exact huri
  all_goals
    split_ifs
    all_goals exact huri

theorem Rooted.stop {c : Scan} (hrooted : c.Rooted) (fault : HttpParserFault) :
    (c.stop fault).Rooted :=
  ⟨fun _ hopen ↦ absurd rfl hopen, hrooted.bare⟩

theorem Rooted.enter {c : Scan} (hrooted : c.Rooted) {next : HttpParserStatus}
    (hnext : next.beforeUri = true) : (c.enter next).Rooted :=
  ⟨fun hlate ↦ absurd (hnext.symm.trans hlate) (by decide), hrooted.bare⟩

theorem Rooted.feedMethod {c : Scan} (hrooted : c.Rooted) (hearly : c.status.beforeUri = true)
    (word : String) (method : HttpRequestMethod) (ch : Byte) :
    (c.feedMethod word method ch).Rooted := by
  unfold Scan.feedMethod feedWord
  dsimp only
  split_ifs
  · exact ⟨fun hlate ↦ absurd (hearly.symm.trans hlate) (by decide), hrooted.bare⟩
  · exact ⟨fun hlate ↦ absurd (show true = false from hlate) (by decide), hrooted.bare⟩
  · exact ⟨fun _ hopen ↦ absurd rfl hopen, hrooted.bare⟩

theorem rooted_step {c : Scan} (hrooted : c.Rooted) (ch : Byte) : (c.step ch).Rooted := by
  by_cases huri : c.uri = []
  · have hearly (hopen : ¬ c.ended) : c.status.beforeUri = true := by
      by_contra hlate
      exact hrooted.uriLate (Bool.eq_false_iff.mpr hlate) hopen huri
    cases hstatus : c.status <;> simp only [ended, hstatus] at hearly <;> simp only [step, hstatus]
    case hpsGameOver => exact hrooted
    case hpsGet | hpsPost | hpsOption | hpsHead | hpsDelete =>
      exact hrooted.feedMethod (by rw [hstatus]; rfl) _ _ ch
    case hpsUriStart =>
      split_ifs
      · exact hrooted.enter rfl
      · exact rooted_of_uri_ne_nil (List.cons_ne_nil _ _)
      · exact hrooted.stop _
    case hpsOK | hpsBetweenMU =>
      split_ifs
      all_goals first | exact hrooted.enter rfl | exact hrooted.stop _
    -- behind the URI
    all_goals exact absurd (hearly (by decide)) (by decide)
  · exact rooted_of_uri_ne_nil (uri_step_ne_nil huri ch)

theorem rooted_scan (setKa : HttpFlag) (fault : HttpParserFault) (stream : List Byte) :
    ((start setKa fault).scan stream).Rooted := by
  apply Online.feed_invariant
  · exact ⟨fun h ↦ absurd h (by simp [start, beforeUri]), fun _ ↦ ⟨rfl, rfl, rfl⟩⟩
  · exact fun _ ch h ↦ rooted_step h ch

/-- What a byte can do to the position and to the fault: the fault of a short delivery is not set
by a byte. -/
structure Effect (c c' : Scan) : Prop where
  consumed : c'.consumed ≤ c.consumed + 2
  fault : c'.fault = c.fault ∨ c'.fault ≠ .hpfToLittleMessage

theorem effect_stop (c c' : Scan) (hconsumed : c'.consumed = c.consumed) {fault : HttpParserFault}
    (hfault : fault ≠ .hpfToLittleMessage) : Effect c (c'.stop fault) :=
  ⟨by simp [stop, hconsumed], .inr hfault⟩

theorem effect_feedWord {word : List Byte} {next : HttpParserStatus} {fault : HttpParserFault}
    (g : HttpRequestMethod → HttpRequestMethod) (hfault : fault ≠ .hpfToLittleMessage) (c : Scan)
    (ch : Byte) :
    Effect c (c.feedWord word next (fun c ↦ { c with method := g c.method }) fault ch) := by
  unfold feedWord
  dsimp only
  split_ifs
  · exact ⟨Nat.le_add_right _ 1, .inl rfl⟩
  · exact ⟨Nat.le_add_right _ 1, .inl rfl⟩
  · exact ⟨le_rfl, .inr hfault⟩

theorem effect_storeLine (c : Scan) : Effect c c.storeLine := by
  unfold storeLine readLength
  dsimp only
  split_ifs
  all_goals first
    | exact effect_stop c _ rfl (by decide)
    | exact ⟨Nat.le_add_right _ 1, .inl rfl⟩
    | exact ⟨Nat.le_add_right _ 1, .inr HttpParserFault.noConfusion⟩

theorem effect_step (c : Scan) (ch : Byte) : Effect c (c.step ch) := by
  cases hstatus : c.status <;> simp only [step, hstatus]
  case hpsGet | hpsPost | hpsOption | hpsHead | hpsDelete =>
    exact effect_feedWord (fun _ ↦ _) (by decide) c ch
  case hpsUriEnd =>
    split_ifs
    · exact ⟨Nat.le_add_right _ 1, .inl rfl⟩
    · exact effect_feedWord id (by decide) c ch
  case hpsStoreHeader => exact effect_storeLine c
  case hpsGameOver => exact ⟨Nat.le_add_right _ 2, .inl rfl⟩
  all_goals
    split_ifs
    all_goals first
      | exact effect_stop c c rfl (by decide)
      | exact ⟨Nat.le_add_right _ 1, .inl rfl⟩

/-- At most one byte too many is consumed. -/
theorem consumed_scan_le (setKa : HttpFlag) {fault : HttpParserFault} (hfault : fault ≠ .hpfContent)
    (stream : List Byte) : ((start setKa fault).scan stream).consumed ≤ stream.length + 1 := by
  induction stream using List.reverseRecOn with
  | nil => exact Nat.zero_le _
  | append_singleton stream ch ih =>
    rw [scan_append, scan_cons, scan_nil, List.length_append, List.length_singleton]
    by_cases hended : ((start setKa fault).scan stream).ended
    · rw [step, show ((start setKa fault).scan stream).status = _ from hended]
      exact ih.trans (Nat.le_succ _)
    · have hconsumed := (history_scan setKa hfault stream).consumed hended
      have hstep := (effect_step ((start setKa fault).scan stream) ch).consumed
      omega

end Scan

/-! ## Faults -/

namespace Scan

/-- The same state without a fault. -/
def forget (c : Scan) : Scan := { c with fault := .hpfOK }

/-- A fault set earlier, which a later one replaces. -/
def orFault (fault : HttpParserFault) (c : Scan) : Scan :=
  { c with fault := if c.fault = .hpfOK then fault else c.fault }

theorem orFault_forget (c : Scan) : c.forget.orFault c.fault = c := by
  simp [orFault, forget]

theorem feedWord_orFault (fault : HttpParserFault) {word : List Byte} {next : HttpParserStatus}
    {fault' : HttpParserFault} (g : HttpRequestMethod → HttpRequestMethod)
    (hfault : fault' ≠ .hpfOK) (c : Scan) (ch : Byte) :
    (c.orFault fault).feedWord word next (fun c ↦ { c with method := g c.method }) fault' ch =
      (c.feedWord word next (fun c ↦ { c with method := g c.method }) fault' ch).orFault fault := by
  have hword : (c.orFault fault).word = c.word := rfl
  unfold feedWord
  rw [hword]
  dsimp only
  split_ifs
  · rfl
  · rfl
  · simp only [orFault, if_neg hfault]

theorem storeLine_orFault (fault : HttpParserFault) (c : Scan) :
    (c.orFault fault).storeLine = c.storeLine.orFault fault := by
  have hname : (c.orFault fault).name = c.name := rfl
  have hvalue : (c.orFault fault).value = c.value := rfl
  unfold storeLine readLength
  rw [hname, hvalue]
  dsimp only
  split_ifs
  all_goals rfl

theorem step_orFault (fault : HttpParserFault) (c : Scan) (ch : Byte) :
    (c.orFault fault).step ch = (c.step ch).orFault fault := by
  have hsame : (c.orFault fault).status = c.status := rfl
  unfold step
  rw [hsame]
  cases c.status <;> dsimp only
  case hpsGet | hpsPost | hpsOption | hpsHead | hpsDelete =>
    exact feedWord_orFault fault (fun _ ↦ _) (by decide) c ch
  case hpsUriEnd =>
    have hword : (c.orFault fault).word = c.word := rfl
    rw [hword]
    split_ifs
    · rfl
    · exact feedWord_orFault fault id (by decide) c ch
  case hpsVersionEnd =>
    have hmajor : (c.orFault fault).vMajor = c.vMajor := rfl
    have hminor : (c.orFault fault).vMinor = c.vMinor := rfl
    rw [hmajor, hminor]
    split_ifs
    all_goals rfl
  case hpsStoreHeader => exact storeLine_orFault fault c
  all_goals
    split_ifs
    all_goals rfl

theorem scan_orFault (fault : HttpParserFault) (c : Scan) (stream : List Byte) :
    (c.orFault fault).scan stream = (c.scan stream).orFault fault :=
  Online.feed_map (fun c ch ↦ step_orFault fault c ch) c stream

/-- Some byte of the stream sets a fault; success is a fault too. -/
def Decides (c : Scan) (stream : List Byte) : Prop := (c.forget.scan stream).fault ≠ .hpfOK

theorem scan_eq (c : Scan) (stream : List Byte) :
    c.scan stream = (c.forget.scan stream).orFault c.fault := by
  rw [← scan_orFault, orFault_forget]

theorem mark_false (c : Scan) : c.mark false = c.forget.orFault .hpfToLittleMessage := by
  simp [mark, orFault, forget]

/-- Where a later byte sets a fault, the mark of a short delivery leaves no trace. -/
theorem scan_mark_of_decides {c : Scan} {stream : List Byte} (hdecides : c.Decides stream)
    (able : Bool) : (c.mark able).scan stream = c.scan stream := by
  cases able
  · rw [mark_false, scan_orFault, scan_eq c]
    simp only [orFault, if_neg hdecides]
  · rfl

/-- Where no later byte does, it stays. -/
theorem scan_mark_of_not_decides {c : Scan} {stream : List Byte} (hdecides : ¬ c.Decides stream) :
    (c.mark false).scan stream = { c.scan stream with fault := .hpfToLittleMessage } := by
  have hok : (c.forget.scan stream).fault = .hpfOK := not_not.mp hdecides
  rw [mark_false, scan_orFault, scan_eq c]
  simp only [orFault, if_pos hok]

/-! ## Deliveries -/

/-- A delivery behind `seen` bytes of the stream. -/
def deliver (seen : ℕ) (c : Scan) (segment : List Byte) : Scan :=
  (c.mark (16 ≤ seen + segment.length - c.consumed)).scan segment

/-- The deliveries of several segments. -/
def deliverAll (seen : ℕ) (c : Scan) : List (List Byte) → Scan
  | [] => c
  | segment :: segments =>
    (c.deliver seen segment).deliverAll (seen + segment.length) segments

/-- A delivery that leaves fewer than 16 readable bytes, with no byte in it or behind it that sets
a fault. -/
def ShortEnd (seen : ℕ) (c : Scan) : List (List Byte) → Prop
  | [] => False
  | segment :: segments =>
    (seen + segment.length - c.consumed < 16 ∧ ¬ c.Decides (segment ++ segments.flatten)) ∨
      (c.scan segment).ShortEnd (seen + segment.length) segments

theorem forget_scan (c : Scan) (stream : List Byte) :
    (c.scan stream).forget = (c.forget.scan stream).forget := by
  rw [scan_eq c]
  rfl

theorem shortEnd_congr {c c' : Scan} (hforget : c.forget = c'.forget) (seen : ℕ)
    (segments : List (List Byte)) : c.ShortEnd seen segments ↔ c'.ShortEnd seen segments := by
  induction segments generalizing c c' seen with
  | nil => rfl
  | cons segment segments ih =>
    have hconsumed : c.forget.consumed = c'.forget.consumed := by rw [hforget]
    have hconsumed : c.consumed = c'.consumed := hconsumed
    have hscan : (c.scan segment).forget = (c'.scan segment).forget := by
      rw [forget_scan, hforget, ← forget_scan]
    simp only [ShortEnd, Decides, hconsumed, hforget, ih hscan]

theorem forget_mark (able : Bool) (c : Scan) : (c.mark able).forget = c.forget := by
  cases able <;> rfl

/-- What deliveries do: what the whole stream does, and one more fault at a short end. -/
theorem deliverAll_eq (seen : ℕ) (c : Scan) (segments : List (List Byte)) :
    (c.ShortEnd seen segments → c.deliverAll seen segments =
      { c.scan segments.flatten with fault := .hpfToLittleMessage }) ∧
    (¬ c.ShortEnd seen segments → c.deliverAll seen segments = c.scan segments.flatten) := by
  induction segments generalizing c seen with
  | nil => exact ⟨False.elim, fun _ ↦ rfl⟩
  | cons segment segments ih =>
    obtain ⟨able, hable⟩ : ∃ able : Bool, able = decide (16 ≤ seen + segment.length - c.consumed) :=
      ⟨_, rfl⟩
    have hdeliver : (c.deliver seen segment).scan segments.flatten =
        (c.mark able).scan (segment ++ segments.flatten) := by
      rw [deliver, ← hable, scan_append]
    have hcongr : (c.deliver seen segment).ShortEnd (seen + segment.length) segments ↔
        (c.scan segment).ShortEnd (seen + segment.length) segments := by
      apply shortEnd_congr
      rw [forget_scan c, deliver, forget_scan, forget_mark]
    obtain ⟨hshort, hlong⟩ := ih (seen + segment.length) (c.deliver seen segment)
    rw [hcongr, hdeliver] at hshort hlong
    simp only [deliverAll, ShortEnd, List.flatten_cons]
    by_cases hdecides : c.Decides (segment ++ segments.flatten)
    · rw [scan_mark_of_decides hdecides] at hshort hlong
      refine ⟨fun h ↦ hshort (h.resolve_left fun h' ↦ h'.2 hdecides), fun h ↦ ?_⟩
      exact hlong fun h' ↦ h (.inr h')
    · cases hcase : able with
      | true =>
        have hnot : ¬ seen + segment.length - c.consumed < 16 := by
          rw [hable, decide_eq_true_eq] at hcase
          omega
        rw [hcase] at hshort hlong
        refine ⟨fun h ↦ hshort (h.resolve_left fun h' ↦ hnot h'.1), fun h ↦ ?_⟩
        exact hlong fun h' ↦ h (.inr h')
      | false =>
        have hlt : seen + segment.length - c.consumed < 16 := by
          rw [hable, decide_eq_false_iff_not] at hcase
          omega
        rw [hcase, scan_mark_of_not_decides hdecides] at hshort hlong
        refine ⟨fun _ ↦ ?_, fun h ↦ absurd (.inl ⟨hlt, hdecides⟩) h⟩
        by_cases hrest : (c.scan segment).ShortEnd (seen + segment.length) segments
        · exact hshort hrest
        · exact hlong hrest

/-- The fault of a scan is never that of a short delivery. -/
theorem fault_scan_ne {c : Scan} (hfault : c.fault ≠ .hpfToLittleMessage) (stream : List Byte) :
    (c.scan stream).fault ≠ .hpfToLittleMessage := by
  refine @Online.feed_invariant Scan Byte step (fun c ↦ c.fault ≠ .hpfToLittleMessage) c hfault ?_
    stream
  intro c ch hc
  rcases (effect_step c ch).fault with hsame | hother
  · rwa [hsame]
  · exact hother

/-- Deliveries end as one delivery does exactly where a short end means a short stream. -/
theorem deliverAll_eq_deliver_iff {setKa : HttpFlag} {segments : List (List Byte)}
    (hne : segments ≠ []) :
    (start setKa .hpfOK).deliverAll 0 segments =
        (start setKa .hpfOK).deliverAll 0 [segments.flatten] ↔
      ((start setKa .hpfOK).ShortEnd 0 segments →
        (start setKa .hpfOK).ShortEnd 0 [segments.flatten]) := by
  obtain ⟨segment, rest, rfl⟩ := List.exists_cons_of_ne_nil hne
  obtain ⟨hshort, hlong⟩ := deliverAll_eq 0 (start setKa .hpfOK) (segment :: rest)
  obtain ⟨hshort', hlong'⟩ :=
    deliverAll_eq 0 (start setKa .hpfOK) [(segment :: rest).flatten]
  have hwhole : [(segment :: rest).flatten].flatten = (segment :: rest).flatten := by simp
  rw [hwhole] at hshort' hlong'
  have hother : (start setKa .hpfOK).ShortEnd 0 [(segment :: rest).flatten] →
      (start setKa .hpfOK).ShortEnd 0 (segment :: rest) := by
    rintro (⟨hlt, hdecides⟩ | hfalse)
    · left
      simp only [List.flatten_cons, List.length_append, List.flatten_nil, List.append_nil] at *
      exact ⟨by omega, hdecides⟩
    · exact absurd hfalse id
  have hstart : (start setKa .hpfOK).fault ≠ .hpfToLittleMessage := HttpParserFault.noConfusion
  have hfault := fault_scan_ne hstart (segment :: rest).flatten
  constructor
  · intro heq hend
    by_contra hnot
    rw [hshort hend, hlong' hnot] at heq
    exact hfault (congrArg fault heq).symm
  · intro himp
    by_cases hend : (start setKa .hpfOK).ShortEnd 0 (segment :: rest)
    · rw [hshort hend, hshort' (himp hend)]
    · rw [hlong hend, hlong' fun h ↦ hend (hother h)]

end Scan

end LWebServer
