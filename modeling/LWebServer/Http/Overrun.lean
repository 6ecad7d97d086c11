import LWebServer.Http.Bounds

/-!
# Reading one byte too far

A word that turns out wrong costs its own bytes and, by the `read(1)` behind the `switch`, one byte
more. Where the word was all that was left, the read position passes the write position. Nothing
else in the loop can do this.
-/

namespace LWebServer

open Memory

/-! ## Words in a request line -/

namespace HttpParserStatus

/-- The word that is taken at once in a state, where the next byte is the given one. -/
def word : HttpParserStatus → Byte → Option (List Byte)
  | hpsOption, _ => some (text "PTIONS")
  | hpsGet, _ => some (text "ET")
  | hpsHead, _ => some (text "EAD")
  | hpsDelete, _ => some (text "ELETE")
  | hpsPost, _ => some (text "OST")
  | hpsUriEnd, ch => if ch = ascii ' ' then none else some (text "HTTP/")
  | _, _ => none

/-- The state behind a word. -/
def behindWord : HttpParserStatus → HttpParserStatus
  | hpsUriEnd => hpsVersionMajor
  | _ => hpsBetweenMU

/-- The state behind a single byte of a request line, up to `HTTP/`. -/
def behindByte : HttpParserStatus → Byte → HttpParserStatus
  | hpsOK, ch =>
    if ch = ascii 'G' then hpsGet
    else if ch = ascii 'P' then hpsPost
    else if ch = ascii 'O' then hpsOption
    else if ch = ascii 'H' then hpsHead
    else if ch = ascii 'D' then hpsDelete
    else if ch = ascii ' ' then hpsOK
    else hpsGameOver
  | hpsBetweenMU, ch => if ch = ascii ' ' then hpsUriStart else hpsGameOver
  | hpsUriStart, ch =>
    if ch = ascii ' ' then hpsUriStart else if isUri ch then hpsUriParser else hpsGameOver
  | hpsUriParser, ch =>
    if isUri ch then hpsUriParser else if ch = ascii ' ' then hpsUriEnd else hpsGameOver
  | hpsUriEnd, _ => hpsUriEnd
  | _, _ => hpsGameOver

/-- There is no word from this state on. -/
def wordless : HttpParserStatus → Bool
  | hpsOK | hpsOption | hpsGet | hpsHead | hpsDelete | hpsPost | hpsBetweenMU | hpsUriStart
  | hpsUriParser | hpsUriEnd => false
  | _ => true

/-- The bytes end by a wrong word: behind some of them a word is due, and there are exactly as many
left as it has. -/
inductive EndsWrong : HttpParserStatus → List Byte → Prop
  | wrong {status : HttpParserStatus} {ch : Byte} {rest expected : List Byte}
      (hword : status.word ch = some expected) (hlength : (ch :: rest).length = expected.length)
      (hwrong : ch :: rest ≠ expected) : EndsWrong status (ch :: rest)
  | word {status : HttpParserStatus} {ch : Byte} {rest expected tail : List Byte}
      (hword : status.word ch = some expected) (hseen : ch :: rest = expected ++ tail)
      (htail : EndsWrong status.behindWord tail) : EndsWrong status (ch :: rest)
  | byte {status : HttpParserStatus} {ch : Byte} {rest : List Byte}
      (hnone : status.word ch = none) (hrest : EndsWrong (status.behindByte ch) rest) :
      EndsWrong status (ch :: rest)

theorem word_ne_nil {status : HttpParserStatus} {ch : Byte} {expected : List Byte}
    (hword : status.word ch = some expected) : expected ≠ [] := by
  cases status <;> simp only [HttpParserStatus.word] at hword
  case hpsUriEnd =>
    split_ifs at hword
    cases hword
    decide
  all_goals
    cases hword
    try decide

theorem word_of_wordless {status : HttpParserStatus} (hwordless : status.wordless = true)
    (ch : Byte) : status.word ch = none ∧ (status.behindByte ch).wordless = true := by
  cases status <;> simp_all [wordless, HttpParserStatus.word, behindByte]

theorem not_endsWrong_of_wordless {status : HttpParserStatus} {bytes : List Byte}
    (hwordless : status.wordless = true) : ¬ EndsWrong status bytes := by
  intro hends
  induction hends with
  | @wrong status ch rest expected hword hlength hwrong =>
    rw [(word_of_wordless hwordless ch).1] at hword
    cases hword
  | @word status ch rest expected tail hword hseen htail ih =>
    rw [(word_of_wordless hwordless ch).1] at hword
    cases hword
  | @byte status ch rest hnone hrest ih => exact ih (word_of_wordless hwordless ch).2

theorem endsWrong_cons_of_none {status : HttpParserStatus} {ch : Byte} {rest : List Byte}
    (hnone : status.word ch = none) :
    EndsWrong status (ch :: rest) ↔ EndsWrong (status.behindByte ch) rest := by
  constructor
  · intro hends
    cases hends with
    | wrong hword hlength hwrong => exact absurd (hnone.symm.trans hword) (by simp)
    | word hword hseen htail => exact absurd (hnone.symm.trans hword) (by simp)
    | byte hnone hrest => exact hrest
  · exact .byte hnone

/-- Where a word is due, the bytes end by a wrong one if they are as many as it has and others, or
if they begin by it and the bytes behind it do. -/
theorem endsWrong_cons_of_some {status : HttpParserStatus} {ch : Byte} {rest expected : List Byte}
    (hword : status.word ch = some expected) :
    EndsWrong status (ch :: rest) ↔
      (ch :: rest).length = expected.length ∧ ch :: rest ≠ expected ∨
        ∃ tail, ch :: rest = expected ++ tail ∧ EndsWrong status.behindWord tail := by
  constructor
  · intro hends
    cases hends with
    | wrong hword' hlength hwrong =>
      cases hword.symm.trans hword'
      exact .inl ⟨hlength, hwrong⟩
    | word hword' hseen htail =>
      cases hword.symm.trans hword'
      exact .inr ⟨_, hseen, htail⟩
    | byte hnone hrest => exact absurd (hnone.symm.trans hword) (by simp)
  · rintro (⟨hlength, hwrong⟩ | ⟨tail, hseen, htail⟩)
    · exact .wrong hword hlength hwrong
    · exact .word hword hseen htail

theorem not_endsWrong_of_short {status : HttpParserStatus} {ch : Byte} {rest expected : List Byte}
    (hword : status.word ch = some expected) (hshort : (ch :: rest).length < expected.length) :
    ¬ EndsWrong status (ch :: rest) := by
  rw [endsWrong_cons_of_some hword]
  rintro (⟨hlength, -⟩ | ⟨tail, hseen, -⟩)
  · omega
  · have hlength := congrArg List.length hseen
    rw [List.length_append] at hlength
    omega

theorem endsWrong_iff_of_found {status : HttpParserStatus} {ch : Byte}
    {rest expected tail : List Byte} (hword : status.word ch = some expected)
    (hseen : ch :: rest = expected ++ tail) :
    EndsWrong status (ch :: rest) ↔ EndsWrong status.behindWord tail := by
  rw [endsWrong_cons_of_some hword]
  constructor
  · rintro (⟨hlength, hwrong⟩ | ⟨tail', hseen', htail⟩)
    · have hnil : tail = [] := by
        rw [hseen, List.length_append] at hlength
        exact List.eq_nil_of_length_eq_zero (by omega)
      rw [hnil, List.append_nil] at hseen
      exact absurd hseen hwrong
    · rwa [List.append_cancel_left (hseen.symm.trans hseen')]
  · exact fun htail ↦ .inr ⟨tail, hseen, htail⟩

theorem endsWrong_iff_of_wrong {status : HttpParserStatus} {ch : Byte} {rest expected : List Byte}
    (hword : status.word ch = some expected) (hwrong : ¬ expected <+: ch :: rest) :
    EndsWrong status (ch :: rest) ↔ (ch :: rest).length = expected.length := by
  rw [endsWrong_cons_of_some hword]
  constructor
  · rintro (⟨hlength, -⟩ | ⟨tail, hseen, -⟩)
    · exact hlength
    · exact absurd ⟨tail, hseen.symm⟩ hwrong
  · intro hlength
    refine .inl ⟨hlength, fun hsame ↦ hwrong ?_⟩
    simp only [hsame, List.prefix_rfl]

theorem not_endsWrong_nil (status : HttpParserStatus) : ¬ EndsWrong status [] := by
  intro hends
  cases hends

end HttpParserStatus

/-! ## Turns of the loop -/

namespace HttpParser

open HttpParserStatus

variable {table : HeaderTable} {p : HttpParser} {ch : Byte} {rest expected : List Byte}

/-- A `case` that looks at one byte goes to the state behind it, or to one without words. -/
theorem cases_of_word_none (table : HeaderTable) (hrunning : p.parserResult.status ≠ .hpsGameOver)
    (hnone : p.parserResult.status.word ch = none) : ∃ c r,
      cases table ch p = .ok .break { p with parserResult := c, requestResult := r } ∧
        (c.status = p.parserResult.status.behindByte ch ∨
          c.status.wordless = true ∧ p.parserResult.status.wordless = true) := by
  cases hstatus : p.parserResult.status <;> rw [hstatus] at hnone hrunning <;>
    simp only [cases, hstatus, behindByte]
  case hpsOption | hpsGet | hpsHead | hpsDelete | hpsPost => cases hnone
  case hpsGameOver => exact absurd rfl hrunning
  case hpsUriEnd =>
    have hblank : ch = ascii ' ' := by
      by_contra hother
      simp [HttpParserStatus.word, hother] at hnone
    rw [if_pos hblank]
    exact ⟨_, _, rfl, .inl rfl⟩
  case hpsStoreHeader =>
    simp only [storeHeaderCase]
    split_ifs
    all_goals exact ⟨_, _, rfl, .inr ⟨rfl, rfl⟩⟩
  case hpsOK | hpsBetweenMU | hpsUriStart | hpsUriParser =>
    split_ifs
    all_goals exact ⟨_, _, rfl, .inl rfl⟩
  all_goals
    split_ifs
    all_goals exact ⟨_, _, rfl, .inr ⟨rfl, rfl⟩⟩

/-- A `case` that takes a word. -/
theorem cases_of_word_some (table : HeaderTable)
    (hword : p.parserResult.status.word ch = some expected) :
    ∃ (method : HttpRequestMethod → HttpRequestMethod) (fault : HttpParserFault),
      cases table ch p = readWord expected p.parserResult.status.behindWord
        (fun c ↦ { c with method := method c.method }) fault p := by
  cases hstatus : p.parserResult.status <;> rw [hstatus] at hword <;>
    simp only [cases, hstatus, behindWord, HttpParserStatus.word] at hword ⊢
  case hpsUriEnd =>
    split_ifs at hword with hblank
    cases hword
    rw [if_neg hblank]
    exact ⟨id, _, rfl⟩
  case hpsOption | hpsGet | hpsHead | hpsDelete | hpsPost =>
    cases hword
    exact ⟨fun _ ↦ _, _, rfl⟩
  all_goals cases hword

/-- A turn over one byte. -/
theorem turn_of_word_none (table : HeaderTable) (hunread : p.userBuffer.unread = ch :: rest)
    (hextra : p.extrabuffer.isVaild = false) (hrunning : p.parserResult.status ≠ .hpsGameOver)
    (hnone : p.parserResult.status.word ch = none) : ∃ c r,
      turn table p = .ok () { p with
        userBuffer := p.userBuffer.read 1, parserResult := c, requestResult := r } ∧
        ∀ tail, EndsWrong c.status tail ↔
          EndsWrong (p.parserResult.status.behindByte ch) tail := by
  obtain ⟨c, r, hcases, hstatus⟩ := cases_of_word_none table hrunning hnone
  refine ⟨c, r, ?_, fun tail ↦ ?_⟩
  · rw [turn_eq hunread, hcases]
    exact refill_of_invalid hextra
  · rcases hstatus with hstatus | ⟨hlate, hwordless⟩
    · rw [hstatus]
    · exact iff_of_false (not_endsWrong_of_wordless hlate)
        (not_endsWrong_of_wordless (word_of_wordless hwordless ch).2)

/-- A turn over a word: there are too few bytes for it, it is the right one, or it is wrong. -/
theorem turn_of_word_some (table : HeaderTable) (hunread : p.userBuffer.unread = ch :: rest)
    (hextra : p.extrabuffer.isVaild = false)
    (hle : p.userBuffer.readSpot ≤ p.userBuffer.writeSpot)
    (hword : p.parserResult.status.word ch = some expected) :
    ((ch :: rest).length < expected.length ∧ turn table p = .error .outOfRange p) ∨
    (∃ c tail, ch :: rest = expected ++ tail ∧ turn table p = .ok () { p with
      userBuffer := p.userBuffer.read expected.length, parserResult := c } ∧
        c.status = p.parserResult.status.behindWord) ∨
    (∃ c, expected.length ≤ (ch :: rest).length ∧ ¬ expected <+: ch :: rest ∧
      turn table p = .ok () { p with
        userBuffer := p.userBuffer.read (expected.length + 1), parserResult := c } ∧
        c.status = .hpsGameOver) := by
  obtain ⟨method, fault, hcases⟩ := cases_of_word_some table hword
  have hpos := List.length_pos_of_ne_nil (word_ne_nil hword)
  rw [turn_eq hunread, hcases, ← hunread]
  unfold readWord
  by_cases hshort : p.userBuffer.unread.length < expected.length
  · left
    rw [Sees.readInto_of_lt hle hshort]
    exact ⟨hshort, rfl⟩
  · right
    have hlong := Nat.le_of_not_lt hshort
    rw [Sees.readInto_of_le hlong hpos]
    dsimp only
    by_cases hfound : p.userBuffer.unread.take expected.length = expected
    · left
      rw [if_pos hfound]
      refine ⟨_, p.userBuffer.unread.drop expected.length, ?_, rfl, rfl⟩
      conv_rhs => rw [← hfound]
      rw [List.length_take, min_eq_left hlong, List.take_append_drop]
    · right
      rw [if_neg hfound]
      refine ⟨_, hlong, fun hprefix ↦ hfound ?_, refill_of_invalid hextra, rfl⟩
      exact List.prefix_iff_eq_take.mp hprefix |>.symm

/-! ## Calls -/

/-- The read position has not passed the write position. -/
def InOrder (p : HttpParser) : Prop := p.userBuffer.readSpot ≤ p.userBuffer.writeSpot

theorem not_endsWrong_of_stopped (horder : p.InOrder) (hstopped : ¬ p.running) :
    ¬ EndsWrong p.parserResult.status p.userBuffer.unread := by
  rcases ended_or_unread_of_stopped horder hstopped with hended | hnil
  · rw [hended]
    exact not_endsWrong_of_wordless rfl
  · rw [hnil]
    exact not_endsWrong_nil _

/-- The read position keeps its place as long as no more is taken than there is. -/
theorem inOrder_read (horder : p.InOrder) {n : ℕ} (hfits : n ≤ p.userBuffer.unread.length) :
    (p.userBuffer.read n).readSpot ≤ (p.userBuffer.read n).writeSpot := by
  rw [UserBuffer.length_unread] at hfits
  exact Nat.add_le_of_le_sub' horder hfits

/-- A wrong word takes a byte that is not there exactly if nothing is left behind it. -/
theorem inOrder_read_iff (horder : p.InOrder) {n : ℕ} (hfits : n ≤ p.userBuffer.unread.length) :
    (p.userBuffer.read (n + 1)).readSpot ≤ (p.userBuffer.read (n + 1)).writeSpot ↔
      ¬ p.userBuffer.unread.length = n := by
  rw [UserBuffer.length_unread] at hfits ⊢
  unfold InOrder at horder
  dsimp only [UserBuffer.read]
  omega

theorem inOrder_loop_iff (table : HeaderTable) (hextra : p.extrabuffer.isVaild = false)
    (horder : p.InOrder) {turns : ℕ} (henough : p.userBuffer.unread.length ≤ turns) :
    (Op.finalState (loop table turns p)).InOrder ↔
      ¬ EndsWrong p.parserResult.status p.userBuffer.unread := by
  induction turns generalizing p with
  | zero =>
    have hnil := List.eq_nil_of_length_eq_zero (Nat.le_zero.mp henough)
    rw [hnil]
    exact iff_of_true horder (not_endsWrong_nil _)
  | succ turns ih =>
    by_cases hrunning : p.running
    · obtain ⟨ch, rest, hunread⟩ := unread_of_running horder hrunning
      have hread (n : ℕ) : (p.userBuffer.read n).unread = (ch :: rest).drop n := by
        rw [UserBuffer.unread_read, hunread]
      cases hword : p.parserResult.status.word ch with
      | none =>
        obtain ⟨c, r, hturn, hstatus⟩ :=
          turn_of_word_none table hunread hextra hrunning.1 hword
        rw [loop_running hrunning turns hturn]
        rw [hunread] at henough ⊢
        rw [endsWrong_cons_of_none hword, ← hstatus]
        have hnext := @ih { p with
          userBuffer := p.userBuffer.read 1, parserResult := c, requestResult := r } hextra
        dsimp only at hnext
        rw [hread] at hnext
        exact hnext (inOrder_read horder (by simp [hunread])) (Nat.le_of_succ_le_succ henough)
      | some expected =>
        have hpos := List.length_pos_of_ne_nil (word_ne_nil hword)
        rcases turn_of_word_some table hunread hextra horder hword with
          ⟨hshort, hturn⟩ | ⟨c, tail, hseen, hturn, hstatus⟩ | ⟨c, hlong, hwrong, hturn, hstatus⟩
        · rw [loop_throwing hrunning turns hturn, hunread]
          exact iff_of_true horder (not_endsWrong_of_short hword hshort)
        · have hlength := congrArg List.length (hunread.trans hseen)
          rw [List.length_append] at hlength
          rw [loop_running hrunning turns hturn, hunread, endsWrong_iff_of_found hword hseen]
          have hnext := @ih { p with
            userBuffer := p.userBuffer.read expected.length, parserResult := c } hextra
          dsimp only at hnext
          rw [hread, hseen, List.drop_left, hstatus] at hnext
          exact hnext (inOrder_read horder (by omega)) (by omega)
        · have hlong' : expected.length ≤ p.userBuffer.unread.length := hunread ▸ hlong
          rw [loop_running hrunning turns hturn, loop_of_ended hstatus, hunread,
            endsWrong_iff_of_wrong hword hwrong, ← hunread]
          exact inOrder_read_iff horder hlong'
    · rw [loop_stopped hrunning]
      exact iff_of_true horder (not_endsWrong_of_stopped horder hrunning)

/-- After a call of `Starting_Parser`, however it ends, the positions are in order exactly if the
bytes did not end by a wrong word. -/
theorem inOrder_startingParser_iff (hextra : p.extrabuffer.isVaild = false) (horder : p.InOrder) :
    (Op.finalState (startingParser table p)).InOrder ↔
      ¬ EndsWrong p.parserResult.status p.userBuffer.unread := by
  obtain ⟨hbuffer, hextra', -⟩ := markShort_buffers p
  have hstatus : p.markShort.parserResult.status = p.parserResult.status := by
    unfold HttpParser.markShort
    split_ifs <;> rfl
  have horder' : p.markShort.InOrder := by
    unfold InOrder
    rwa [hbuffer]
  have hloop := inOrder_loop_iff table (hextra' ▸ hextra) horder'
    (unread_le_turnBound p.markShort)
  rw [hstatus, hbuffer] at hloop
  rw [← hloop]
  unfold startingParser parsering
  cases loop table p.markShort.turnBound p.markShort with
  | ok _ q => exact Iff.rfl
  | error e q => exact Iff.rfl

end HttpParser

end LWebServer
