import LWebServer.Http.Starting
import LWebServer.Net.Buffering

/-!
# The refill

When the last readable byte has been consumed, the loop of `Parsering` copies from the `Extrabuf`.
It moves the position of the `Extrabuf` by the length before it copies from that position, so that
what it copies lies behind the valid bytes.
-/

namespace LWebServer

open Memory

namespace HttpParser

/-! ## What the switch does to the buffer -/

/-- How the `switch` ends: by `break` without having moved the read position, behind a word, behind
a wrong word, or by the exception of a word that has not arrived in full. -/
inductive Switched (p : HttpParser) : EStateM.Result Fail HttpParser Jump → Prop
  | taken (r : HttpParserContent) (request : HttpRequest) :
      Switched p (.ok .break { p with parserResult := r, requestResult := request })
  | word (n : ℕ) (r : HttpParserContent) (hpos : 0 < n) (hle : n ≤ p.userBuffer.unread.length) :
      Switched p (.ok .continue { p with userBuffer := p.userBuffer.read n, parserResult := r })
  | wrong (n : ℕ) (r : HttpParserContent) (hpos : 0 < n) (hle : n ≤ p.userBuffer.unread.length)
      (hended : r.status = .hpsGameOver) :
      Switched p (.ok .break { p with userBuffer := p.userBuffer.read n, parserResult := r })
  | short : Switched p (.error .outOfRange p)

theorem switched_readWord {p : HttpParser} (hle : p.userBuffer.readSpot ≤ p.userBuffer.writeSpot)
    {word : List Byte} (hword : word ≠ []) (nextstatus : HttpParserStatus)
    (stm : HttpParserContent → HttpParserContent) (fault : HttpParserFault) :
    Switched p (readWord word nextstatus stm fault p) := by
  have hpos := List.length_pos_of_ne_nil hword
  unfold readWord
  by_cases hshort : p.userBuffer.unread.length < word.length
  · rw [Sees.readInto_of_lt hle hshort]
    exact .short
  · have hroom := Nat.le_of_not_lt hshort
    rw [Sees.readInto_of_le hroom hpos]
    dsimp only
    split_ifs
    · exact .word _ _ hpos hroom
    · exact .wrong _ _ hpos hroom rfl

theorem switched_cases (table : HeaderTable) {p : HttpParser}
    (hle : p.userBuffer.readSpot ≤ p.userBuffer.writeSpot) (ch : Byte) :
    Switched p (cases table ch p) := by
  have hwords := fun word (hword : text word ≠ []) method ↦
    switched_readWord hle hword .hpsBetweenMU (fun c ↦ { c with method := method })
      .hpfInvaildMethod
  unfold cases
  cases p.parserResult.status <;> dsimp only
  case hpsOption => exact hwords "PTIONS" (by decide) .hrOptions
  case hpsGet => exact hwords "ET" (by decide) .hrGet
  case hpsHead => exact hwords "EAD" (by decide) .hrHead
  case hpsDelete => exact hwords "ELETE" (by decide) .hrDelete
  case hpsPost => exact hwords "OST" (by decide) .hrPost
  case hpsUriEnd =>
    split_ifs
    · exact .taken _ _
    · exact switched_readWord hle (by decide) _ _ _
  case hpsStoreHeader =>
    unfold storeHeaderCase
    dsimp only
    split_ifs <;> exact .taken _ _
  case hpsGameOver => exact .taken p.parserResult p.requestResult
  all_goals split_ifs <;> exact .taken _ _

/-! ## What a run looks at and copies -/

/-- The bytes that a turn looks at: those of a word, or one. -/
def looked (table : HeaderTable) (p : HttpParser) : List Byte :=
  match p.userBuffer.peek 0 with
  | none => []
  | some ch =>
    match cases table ch p with
    | .error _ _ => [ch]
    | .ok _ q =>
      if q.userBuffer.readSpot = p.userBuffer.readSpot then [ch]
      else load p.userBuffer.buffer p.userBuffer.readSpot
        (q.userBuffer.readSpot - p.userBuffer.readSpot)

/-- All bytes that the loop looks at. -/
def examined (table : HeaderTable) : ℕ → HttpParser → List Byte
  | 0, _ => []
  | turns + 1, p =>
    if p.running then
      looked table p ++ match turn table p with
        | .ok _ q => examined table turns q
        | .error _ _ => []
    else []

/-- The part of the `Extrabuf` that a turn copies, as its start and its length. -/
def copied (table : HeaderTable) (p : HttpParser) : Option (ℕ × ℕ) :=
  match p.userBuffer.peek 0 with
  | none => none
  | some ch =>
    match cases table ch p with
    | .ok .break q =>
      if (q.userBuffer.read 1).readable = 0 ∧ q.extrabuffer.isVaild = true then
        let length := min q.extrabuffer.getLength.toNat q.userBuffer.length
        some ((q.extrabuffer.write length).getPtr, length)
      else none
    | _ => none

/-- All parts of the `Extrabuf` that the loop copies. -/
def copies (table : HeaderTable) : ℕ → HttpParser → List (ℕ × ℕ)
  | 0, _ => []
  | turns + 1, p =>
    if p.running then
      (copied table p).toList ++ match turn table p with
        | .ok _ q => copies table turns q
        | .error _ _ => []
    else []

/-- `Parsering` looks at the bytes of the `UserBuffer` and of the `Extrabuf` in order, copies valid
bytes only, and stops. -/
structure Fed (table : HeaderTable) (p : HttpParser) : Prop where
  examined : examined table p.turnBound p <+: p.userBuffer.unread ++ p.extrabuffer.valid
  copied : ∀ part ∈ copies table p.turnBound p, ∀ i, part.1 ≤ i → i < part.1 + part.2 →
    i < p.extrabuffer.valid.length
  stops : ∀ q, parsering table p = .ok () q → ¬ q.running
  defined : ∀ q, parsering table p ≠ .error .undefinedBehaviour q

/-- On the bytes of the `UserBuffer` alone, a turn takes the last of them by a `break`. -/
def TakesLast (table : HeaderTable) : ℕ → HttpParser → Prop
  | 0, _ => False
  | turns + 1, p => p.running ∧
    match p.userBuffer.peek 0 with
    | none => False
    | some ch =>
      match cases table ch p with
      | .error _ _ => False
      | .ok .continue q => TakesLast table turns q
      | .ok .break q => (q.userBuffer.read 1).readable = 0 ∨
          TakesLast table turns { q with userBuffer := q.userBuffer.read 1 }

/-- The same parser with another `Extrabuf`. -/
def withExtra (e : Extrabuf) (p : HttpParser) : HttpParser := { p with extrabuffer := e }

theorem readWord_withExtra (e : Extrabuf) (word : List Byte) (nextstatus : HttpParserStatus)
    (stm : HttpParserContent → HttpParserContent) (fault : HttpParserFault) (p : HttpParser) :
    readWord word nextstatus stm fault (p.withExtra e) =
      match readWord word nextstatus stm fault p with
      | .ok jump q => .ok jump (q.withExtra e)
      | .error e' q => .error e' (q.withExtra e) := by
  simp only [readWord, withExtra]
  cases p.userBuffer.readInto word.length with
  | error e' b => rfl
  | ok buffer b =>
    dsimp only
    split_ifs <;> rfl

theorem cases_withExtra (table : HeaderTable) (e : Extrabuf) (ch : Byte) (p : HttpParser) :
    cases table ch (p.withExtra e) =
      match cases table ch p with
      | .ok jump q => .ok jump (q.withExtra e)
      | .error e' q => .error e' (q.withExtra e) := by
  have hresult : (p.withExtra e).parserResult = p.parserResult := rfl
  unfold cases
  rw [hresult]
  cases p.parserResult.status <;> dsimp only
  case hpsOption | hpsGet | hpsHead | hpsDelete | hpsPost => exact readWord_withExtra e _ _ _ _ p
  case hpsUriEnd =>
    split_ifs
    · rfl
    · exact readWord_withExtra e _ _ _ _ p
  case hpsStoreHeader =>
    unfold storeHeaderCase
    dsimp only [withExtra]
    split_ifs <;> rfl
  all_goals split_ifs <;> rfl

/-- Whether the last byte is taken does not depend on the `Extrabuf`. -/
theorem takesLast_withExtra (table : HeaderTable) (e : Extrabuf) (turns : ℕ) (p : HttpParser) :
    TakesLast table turns (p.withExtra e) ↔ TakesLast table turns p := by
  induction turns generalizing p with
  | zero => rfl
  | succ turns ih =>
    have hbuffer : (p.withExtra e).userBuffer = p.userBuffer := rfl
    have hrunning : (p.withExtra e).running ↔ p.running := Iff.rfl
    simp only [TakesLast, hbuffer, hrunning, cases_withExtra]
    cases p.userBuffer.peek 0 with
    | none => rfl
    | some ch =>
      have hread (q : HttpParser) := ih { q with userBuffer := q.userBuffer.read 1 }
      simp only [withExtra] at ih hread
      cases hcases : cases table ch p with
      | error e' q => simp only [hcases]
      | ok jump q => cases jump <;> simp only [hcases, withExtra, ih, hread]

/-! ## Turns -/

section

variable {table : HeaderTable} {p q : HttpParser}

theorem refill_of_readable (hreadable : p.userBuffer.readable ≠ 0) : refill p = .ok () p :=
  if_neg fun h ↦ hreadable h.1

/-- An `Extrabuf` without bytes leaves nothing to read. -/
theorem refill_of_empty (hpeek : p.extrabuffer.extrabufPeek = 0)
    (hreadable : p.userBuffer.readable = 0) :
    ∃ q, refill p = .ok () q ∧ q.userBuffer.readable = 0 := by
  have hvaild : p.extrabuffer.isVaild = true := by simp [Extrabuf.isVaild, hpeek]
  unfold refill
  rw [if_pos ⟨hreadable, hvaild⟩]
  simp [Extrabuf.getLength, Extrabuf.getPtr, Extrabuf.write, hpeek, UserBuffer.writeBytes,
    UserBuffer.append, UserBuffer.clean, UserBuffer.readable, sizeSub]

theorem examined_stopped (hstopped : ¬ p.running) (turns : ℕ) : examined table turns p = [] := by
  cases turns with
  | zero => rfl
  | succ turns => exact if_neg hstopped

theorem copies_stopped (hstopped : ¬ p.running) (turns : ℕ) : copies table turns p = [] := by
  cases turns with
  | zero => rfl
  | succ turns => exact if_neg hstopped

theorem take_unread {b : UserBuffer} {n : ℕ} (hle : n ≤ b.unread.length) :
    load b.buffer b.readSpot n = b.unread.take n := by
  rw [UserBuffer.length_unread] at hle
  obtain ⟨k, hk⟩ := Nat.exists_eq_add_of_le hle
  rw [UserBuffer.unread, hk, load_add, List.take_left' (by simp)]

/-- What a turn does. It moves the read position, or it takes the last byte and goes on to the
refill, or it throws. -/
inductive Turned (table : HeaderTable) (p : HttpParser) : Prop
  | moved (q : HttpParser) (k : ℕ) (hturn : turn table p = .ok () q)
      (hlooked : looked table p = p.userBuffer.unread.take k) (hpos : 0 < k)
      (hcopied : copied table p = none) (hextra : q.extrabuffer = p.extrabuffer)
      (hrest : ¬ q.running ∨ q.userBuffer.readSpot ≤ q.userBuffer.writeSpot ∧
        q.userBuffer.unread = p.userBuffer.unread.drop k)
      (htakes : ∀ turns, TakesLast table (turns + 1) p ↔ TakesLast table turns q)
  | refilled (q : HttpParser) (k : ℕ) (hturn : turn table p = refill q)
      (hlooked : looked table p = p.userBuffer.unread.take k)
      (hreadable : q.userBuffer.readable = 0) (hextra : q.extrabuffer = p.extrabuffer)
      (hcopied : p.extrabuffer.isVaild = true → copied table p =
        some ((p.extrabuffer.write (min p.extrabuffer.getLength.toNat p.userBuffer.length)).getPtr,
          min p.extrabuffer.getLength.toNat p.userBuffer.length))
      (htakes : ∀ turns, TakesLast table (turns + 1) p)
  | threw (hturn : turn table p = .error .outOfRange p)
      (hlooked : looked table p = p.userBuffer.unread.take 1) (hcopied : copied table p = none)
      (htakes : ∀ turns, ¬ TakesLast table (turns + 1) p)

theorem readable_read {b : UserBuffer} (hle : b.readSpot ≤ b.writeSpot) {n : ℕ}
    (hn : n ≤ b.unread.length) : (b.read n).readable = b.unread.length - n := by
  rw [UserBuffer.length_unread] at hn ⊢
  have hle' : b.readSpot + n ≤ b.writeSpot := by omega
  simp only [UserBuffer.readable, UserBuffer.read, sizeSub_of_le hle']
  omega

/-- A turn that takes one byte by a `break`. -/
theorem turned_taken {p : HttpParser} {ch : Byte}
    (hle : p.userBuffer.readSpot ≤ p.userBuffer.writeSpot) (hrunning : p.running)
    {rest : List Byte} (hunread : p.userBuffer.unread = ch :: rest) (r : HttpParserContent)
    (request : HttpRequest)
    (hcases : cases table ch p =
      .ok .break { p with parserResult := r, requestResult := request }) :
    Turned table p := by
  have hpeek := UserBuffer.peek_of_unread hunread
  have hturn : turn table p = _ := turn_eq hunread
  have hlooked := looked.eq_def table p
  have hcopied := copied.eq_def table p
  have htakes (turns : ℕ) := TakesLast.eq_2 table p turns
  simp only [hpeek, hcases, if_true] at hturn hlooked hcopied htakes
  have hone : 1 ≤ p.userBuffer.unread.length := by
    rw [hunread]
    exact Nat.succ_pos _
  have hreadable := readable_read hle hone
  have htake : [ch] = p.userBuffer.unread.take 1 := by
    rw [hunread]
    rfl
  rw [htake] at hlooked
  by_cases hlast : (p.userBuffer.read 1).readable = 0
  · refine .refilled _ 1 hturn hlooked hlast rfl (fun hvaild ↦ ?_) fun turns ↦ ?_
    · rw [hcopied, if_pos ⟨hlast, hvaild⟩]
    · rw [htakes]
      exact ⟨hrunning, .inl hlast⟩
  · refine .moved _ 1 (hturn.trans (refill_of_readable hlast)) hlooked Nat.one_pos ?_ rfl
      (.inr ⟨?_, UserBuffer.unread_read _ 1⟩) fun turns ↦ ?_
    · rw [hcopied, if_neg fun h ↦ hlast h.1]
    · rw [UserBuffer.length_unread] at hone
      simp only [UserBuffer.read]
      omega
    · rw [htakes]
      exact ⟨fun h ↦ h.2.resolve_left hlast, fun h ↦ ⟨hrunning, .inr h⟩⟩

theorem looked_word {p q : HttpParser} {ch : Byte} {jump : Jump}
    (hpeek : p.userBuffer.peek 0 = some ch) {n : ℕ} (hpos : 0 < n)
    (hlen : n ≤ p.userBuffer.unread.length) (hcases : cases table ch p = .ok jump q)
    (hread : q.userBuffer.readSpot = p.userBuffer.readSpot + n) :
    looked table p = p.userBuffer.unread.take n := by
  unfold looked
  simp only [hpeek, hcases]
  rw [if_neg (by omega), hread, Nat.add_sub_cancel_left, take_unread hlen]

/-- A turn that takes a word. -/
theorem turned_word {p : HttpParser} {ch : Byte}
    (hle : p.userBuffer.readSpot ≤ p.userBuffer.writeSpot) (hrunning : p.running)
    {rest : List Byte} (hunread : p.userBuffer.unread = ch :: rest) {n : ℕ} (hpos : 0 < n)
    (hlen : n ≤ p.userBuffer.unread.length) (r : HttpParserContent)
    (hcases : cases table ch p =
      .ok .continue { p with userBuffer := p.userBuffer.read n, parserResult := r }) :
    Turned table p := by
  have hpeek := UserBuffer.peek_of_unread hunread
  have hturn : turn table p = _ := turn_eq hunread
  have hcopied := copied.eq_def table p
  have htakes (turns : ℕ) := TakesLast.eq_2 table p turns
  simp only [hpeek, hcases] at hturn hcopied htakes
  refine .moved _ n hturn (looked_word hpeek hpos hlen hcases rfl) hpos hcopied rfl
    (.inr ⟨?_, UserBuffer.unread_read _ n⟩) fun turns ↦ ?_
  · rw [UserBuffer.length_unread] at hlen
    simp only [UserBuffer.read]
    omega
  · rw [htakes]
    exact ⟨fun h ↦ h.2, fun h ↦ ⟨hrunning, h⟩⟩

/-- A turn that takes a wrong word and one byte more. -/
theorem turned_wrong {p : HttpParser} {ch : Byte} (hrunning : p.running)
    {rest : List Byte} (hunread : p.userBuffer.unread = ch :: rest) {n : ℕ} (hpos : 0 < n)
    (hlen : n ≤ p.userBuffer.unread.length) (r : HttpParserContent)
    (hended : r.status = .hpsGameOver)
    (hcases : cases table ch p =
      .ok .break { p with userBuffer := p.userBuffer.read n, parserResult := r }) :
    Turned table p := by
  have hpeek := UserBuffer.peek_of_unread hunread
  have hturn : turn table p = _ := turn_eq hunread
  have hcopied := copied.eq_def table p
  have htakes (turns : ℕ) := TakesLast.eq_2 table p turns
  have hlooked := looked_word hpeek hpos hlen hcases rfl
  simp only [hpeek, hcases] at hturn hcopied htakes
  by_cases hlast : ((p.userBuffer.read n).read 1).readable = 0
  · refine .refilled _ n hturn hlooked hlast rfl (fun hvaild ↦ ?_) fun turns ↦ ?_
    · rw [hcopied, if_pos ⟨hlast, hvaild⟩]
      rfl
    · rw [htakes]
      exact ⟨hrunning, .inl hlast⟩
  · refine .moved _ n (hturn.trans (refill_of_readable hlast)) hlooked hpos ?_ rfl
      (.inl fun h ↦ h.1 hended) fun turns ↦ ?_
    · rw [hcopied, if_neg fun h ↦ hlast h.1]
    · rw [htakes]
      exact ⟨fun h ↦ h.2.resolve_left hlast, fun h ↦ ⟨hrunning, .inr h⟩⟩

theorem turned (table : HeaderTable) {p : HttpParser}
    (hle : p.userBuffer.readSpot ≤ p.userBuffer.writeSpot) (hrunning : p.running) :
    Turned table p := by
  obtain ⟨ch, rest, hunread⟩ := unread_of_running hle hrunning
  have hswitched := switched_cases table hle ch
  generalize hcases : cases table ch p = result at hswitched
  cases hswitched with
  | taken r request => exact turned_taken hle hrunning hunread r request hcases
  | word n r hpos hlen => exact turned_word hle hrunning hunread hpos hlen r hcases
  | wrong n r hpos hlen hended => exact turned_wrong hrunning hunread hpos hlen r hended hcases
  | short =>
    have hpeek := UserBuffer.peek_of_unread hunread
    have hturn : turn table p = _ := turn_eq hunread
    have hlooked := looked.eq_def table p
    have hcopied := copied.eq_def table p
    have htakes (turns : ℕ) := TakesLast.eq_2 table p turns
    simp only [hpeek, hcases] at hturn hlooked hcopied htakes
    refine .threw hturn ?_ hcopied fun turns ↦ ?_
    · rw [hlooked, hunread]
      rfl
    · rw [htakes]
      exact fun h ↦ h.2

/-! ## Runs -/

/-- The loop looks at a beginning of the readable bytes, copies nothing, and stops. -/
structure Spared (table : HeaderTable) (turns : ℕ) (p : HttpParser) : Prop where
  examined : examined table turns p <+: p.userBuffer.unread
  copies : ∀ part ∈ copies table turns p, part.2 = 0
  stops : ∀ q, loop table turns p = .ok () q → ¬ q.running
  defined : ∀ q, loop table turns p ≠ .error .undefinedBehaviour q

theorem spared_stopped (hstopped : ¬ p.running) (turns : ℕ) : Spared table turns p := by
  have hloop : loop table turns _ = _ := loop_stopped hstopped turns
  constructor
  case examined =>
    rw [examined_stopped hstopped]
    exact List.nil_prefix
  case copies =>
    rw [copies_stopped hstopped]
    simp
  case stops =>
    intro q hq
    rw [hloop] at hq
    cases hq
    exact hstopped
  case defined =>
    intro q hq
    rw [hloop] at hq
    cases hq

theorem examined_of_ok {turns : ℕ} (hrunning : p.running) (hturn : turn table p = .ok () q) :
    examined table (turns + 1) p = looked table p ++ examined table turns q := by
  simp only [examined, if_pos hrunning, hturn]

theorem copies_of_ok {turns : ℕ} (hrunning : p.running) (hturn : turn table p = .ok () q) :
    copies table (turns + 1) p = (copied table p).toList ++ copies table turns q := by
  simp only [copies, if_pos hrunning, hturn]

/-- One turn more in front of a run. -/
theorem Spared.cons {turns : ℕ} (hspared : Spared table turns q) (hrunning : p.running)
    (hturn : turn table p = .ok () q)
    (hexamined : looked table p ++ HttpParser.examined table turns q <+: p.userBuffer.unread)
    (hcopied : ∀ part ∈ copied table p, part.2 = 0) : Spared table (turns + 1) p := by
  have hloop := loop_running hrunning turns hturn
  constructor
  case examined =>
    rw [examined_of_ok hrunning hturn]
    exact hexamined
  case copies =>
    intro part hpart
    rw [copies_of_ok hrunning hturn] at hpart
    rcases List.mem_append.mp hpart with hhere | hlater
    · exact hcopied part (Option.mem_toList.mp hhere)
    · exact hspared.copies part hlater
  case stops =>
    rw [hloop]
    exact hspared.stops
  case defined =>
    rw [hloop]
    exact hspared.defined

/-- Without bytes in the `Extrabuf`, or where the last byte is not taken by a `break`, the refill
copies nothing. -/
theorem spared_run {turns : ℕ} (hle : p.userBuffer.readSpot ≤ p.userBuffer.writeSpot)
    (hvaild : p.extrabuffer.isVaild = true)
    (hspare : p.extrabuffer.extrabufPeek = 0 ∨ ¬ TakesLast table turns p)
    (hturns : p.userBuffer.unread.length ≤ turns) : Spared table turns p := by
  induction turns generalizing p with
  | zero =>
    apply spared_stopped
    intro hrunning
    obtain ⟨ch, rest, hunread⟩ := unread_of_running hle hrunning
    simp [hunread] at hturns
  | succ turns ih =>
    by_cases hrunning : p.running
    swap
    · exact spared_stopped hrunning _
    cases turned table hle hrunning with
    | moved q k hturn hlooked hpos hcopied hextra hrest htakes =>
      have hnone : ∀ part ∈ copied table p, part.2 = 0 := by simp [hcopied]
      rcases hrest with hstopped | ⟨hle', hunread⟩
      · refine (spared_stopped hstopped turns).cons hrunning hturn ?_ hnone
        rw [examined_stopped hstopped, List.append_nil, hlooked]
        exact List.take_prefix k _
      · have hspared : Spared table turns q := by
          apply ih hle'
          · rw [hextra]
            exact hvaild
          · rw [hextra, ← htakes]
            exact hspare
          · rw [hunread, List.length_drop]
            omega
        refine hspared.cons hrunning hturn ?_ hnone
        obtain ⟨rest, hstarts⟩ := hspared.examined
        refine ⟨rest, ?_⟩
        rw [hlooked, List.append_assoc, hstarts, hunread, List.take_append_drop]
    | refilled q k hturn hlooked hreadable hextra hcopied htakes =>
      have hpeek := hspare.resolve_right fun hnot ↦ hnot (htakes turns)
      obtain ⟨q', hrefill, hreadable'⟩ := refill_of_empty (hextra ▸ hpeek) hreadable
      have hstopped : ¬ q'.running := fun h ↦ h.2 hreadable'
      refine (spared_stopped hstopped turns).cons hrunning (hturn.trans hrefill) ?_ ?_
      · rw [examined_stopped hstopped, List.append_nil, hlooked]
        exact List.take_prefix k _
      · intro part hpart
        rw [hcopied hvaild, Option.mem_def, Option.some.injEq] at hpart
        rw [← hpart]
        simp [Extrabuf.getLength, hpeek]
    | threw hturn hlooked hcopied htakes =>
      have hloop := loop_throwing hrunning turns hturn
      constructor
      case examined =>
        simp only [examined, if_pos hrunning, hturn, List.append_nil, hlooked]
        exact List.take_prefix 1 _
      case copies =>
        simp [copies, hturn, hcopied]
      case stops =>
        intro q hq
        rw [hloop] at hq
        cases hq
      case defined =>
        intro q hq
        rw [hloop] at hq
        cases hq

/-- Where the last byte is taken by a `break`, the refill copies what lies behind the valid bytes of
the `Extrabuf`. -/
theorem copies_of_takesLast {turns : ℕ} (hle : p.userBuffer.readSpot ≤ p.userBuffer.writeSpot)
    (hpeek : 0 < p.extrabuffer.extrabufPeek) (htakesLast : TakesLast table turns p) :
    ∃ part ∈ copies table turns p, p.extrabuffer.valid.length ≤ part.1 ∧ 0 < part.2 := by
  induction turns generalizing p with
  | zero => exact absurd htakesLast id
  | succ turns ih =>
    have hrunning : p.running := htakesLast.1
    cases turned table hle hrunning with
    | moved q k hturn hlooked hpos hcopied hextra hrest htakes =>
      rcases hrest with hstopped | ⟨hle', -⟩
      · have hlater := (htakes turns).mp htakesLast
        cases turns with
        | zero => exact absurd hlater id
        | succ turns => exact absurd hlater.1 hstopped
      · obtain ⟨part, hpart, hbounds⟩ := ih hle' (hextra ▸ hpeek) ((htakes turns).mp htakesLast)
        rw [hextra] at hbounds
        refine ⟨part, ?_, hbounds⟩
        rw [copies_of_ok hrunning hturn]
        exact List.mem_append_right _ hpart
    | refilled q k hturn hlooked hreadable hextra hcopied htakes =>
      have hvaild : p.extrabuffer.isVaild = true := by
        simp only [Extrabuf.isVaild, decide_eq_true_eq]
        omega
      obtain ⟨ch, rest, hunread⟩ := unread_of_running hle hrunning
      have hsize : 0 < p.userBuffer.bufferSize := by
        have hlength := congrArg List.length hunread
        rw [UserBuffer.length_unread, List.length_cons] at hlength
        have hbound := p.userBuffer.writeSpot_le
        omega
      refine ⟨((p.extrabuffer.write (min p.extrabuffer.getLength.toNat p.userBuffer.length)).getPtr,
        min p.extrabuffer.getLength.toNat p.userBuffer.length), ?_, ?_⟩
      · simp only [copies, if_pos hrunning, hcopied hvaild, Option.toList_some]
        exact List.mem_append_left _ List.mem_cons_self
      · simp only [Extrabuf.valid, length_load, Extrabuf.getPtr, Extrabuf.write,
          Extrabuf.getLength, UserBuffer.length]
        omega
    | threw hturn hlooked hcopied htakes => exact absurd htakesLast (htakes turns)

theorem unread_length_le_turnBound (p : HttpParser) :
    p.userBuffer.unread.length ≤ p.turnBound := by
  have hbound := p.userBuffer.writeSpot_le
  rw [UserBuffer.length_unread, turnBound]
  calc p.userBuffer.writeSpot - p.userBuffer.readSpot ≤ p.userBuffer.bufferSize := by omega
    _ ≤ p.userBuffer.bufferSize + 2 := Nat.le_add_right _ _
    _ ≤ (p.userBuffer.bufferSize + 2) * (p.extrabuffer.allocated + 1) :=
      Nat.le_mul_of_pos_right _ (Nat.succ_pos _)

/-- With a valid `Extrabuf`, the parser is fed the received bytes exactly where the `Extrabuf` holds
none or the last byte of the `UserBuffer` is not taken by a `break`. -/
theorem fed_iff (hle : p.userBuffer.readSpot ≤ p.userBuffer.writeSpot)
    (hvaild : 0 ≤ p.extrabuffer.extrabufPeek) :
    Fed table p ↔
      p.extrabuffer.extrabufPeek = 0 ∨ ¬ TakesLast table p.turnBound p := by
  constructor
  · intro hfed
    by_contra hnot
    obtain ⟨hpeek, htakesLast⟩ := not_or.mp hnot
    obtain ⟨part, hpart, hstart, hlength⟩ :=
      copies_of_takesLast hle (by omega) (not_not.mp htakesLast)
    have hinside := hfed.copied part hpart part.1 le_rfl (by omega)
    omega
  · intro hspare
    have hvaild' : p.extrabuffer.isVaild = true := by
      simp only [Extrabuf.isVaild, decide_eq_true_eq]
      omega
    have hspared := spared_run hle hvaild' hspare (unread_length_le_turnBound p)
    refine ⟨hspared.examined.trans (List.prefix_append _ _), ?_, hspared.stops, hspared.defined⟩
    intro part hpart i hfrom hto
    rw [hspared.copies part hpart] at hto
    omega

theorem cases_blank (table : HeaderTable) (hstatus : p.parserResult.status = .hpsOK) :
    cases table (ascii ' ') p = .ok .break (p.mapResult fun c ↦ { c with status := .hpsOK }) := by
  unfold cases
  rw [hstatus]
  rfl

/-- Blanks before a method are taken one by one, the last of them too. -/
theorem takesLast_blanks (hle : p.userBuffer.readSpot ≤ p.userBuffer.writeSpot) {n turns : ℕ}
    (hstatus : p.parserResult.status = .hpsOK) (hunread : p.userBuffer.unread = blanks (n + 1))
    (hturns : n < turns) : TakesLast table turns p := by
  induction turns generalizing p n with
  | zero => exact absurd hturns (Nat.not_lt_zero n)
  | succ turns ih =>
    have hcons : p.userBuffer.unread = ascii ' ' :: blanks n := hunread
    obtain ⟨hlt, -, hrest⟩ := UserBuffer.unread_cons hcons
    have hreadable := readable_read hle (hcons ▸ Nat.succ_pos _ : 1 ≤ p.userBuffer.unread.length)
    rw [hcons, List.length_cons, Nat.add_sub_cancel, blanks, List.length_replicate] at hreadable
    have hrunning : p.running := by
      refine ⟨by rw [hstatus]; decide, ?_⟩
      rw [UserBuffer.readable, sizeSub_of_le hle]
      omega
    simp only [TakesLast, UserBuffer.peek_of_unread hcons, cases_blank table hstatus]
    refine ⟨hrunning, ?_⟩
    cases n with
    | zero => exact .inl hreadable
    | succ n => exact .inr (ih hlt rfl hrest (Nat.lt_of_succ_lt_succ hturns))

end

/-- A new parser whose buffer has received some bytes, with some more in the `Extrabuf`. -/
def spilling (input : List Byte) (hfits : input.length ≤ 4048) (more : List Byte) : HttpParser :=
  { holding .zero input hfits with
    extrabuffer := { Extrabuf.init {} with
      extrabuf := store (Extrabuf.init {}).extrabuf 0 more
      extrabufPeek := more.length } }

theorem fed_iff_wordSpilled :
    Fed .sample (spilling (text "GET") (by decide) (text " /")) ↔
      (spilling (text "GET") (by decide) (text " /")).extrabuffer.extrabufPeek = 0 ∨
        ¬ TakesLast .sample (spilling (text "GET") (by decide) (text " /")).turnBound
          (spilling (text "GET") (by decide) (text " /")) :=
  fed_iff (by decide) (by decide)

/-- The `Extrabuf` holds the first byte of a method behind a buffer full of blanks. -/
def methodSpilled : HttpParser :=
  spilling (blanks 4048) (by rw [blanks, List.length_replicate]) (text "G")

theorem not_fed_methodSpilled : ¬ Fed .sample methodSpilled := by
  have hle : methodSpilled.userBuffer.readSpot ≤ methodSpilled.userBuffer.writeSpot :=
    Nat.zero_le _
  have hpeek : 0 < methodSpilled.extrabuffer.extrabufPeek := by decide
  have hunread : methodSpilled.userBuffer.unread = blanks (4047 + 1) := unread_holding .zero _
  have htakesLast : TakesLast .sample methodSpilled.turnBound methodSpilled := by
    apply takesLast_blanks hle rfl hunread
    have hbound := unread_length_le_turnBound methodSpilled
    rw [hunread, blanks, List.length_replicate] at hbound
    exact hbound
  intro hfed
  obtain ⟨part, hpart, hstart, hlength⟩ := copies_of_takesLast hle hpeek htakesLast
  have hinside := hfed.copied part hpart part.1 le_rfl (by omega)
  omega

end HttpParser

end LWebServer
