import LWebServer.Library.Excerpts
import LWebServer.Tool.Accounting
import LWebServer.Tool.Printing
import Mathlib.Data.List.Forall2
import Mathlib.Data.List.GetD
import Mathlib.Data.List.Nodup

/-!
# Where the bytes on the wire come from

Whatever the kernel accepts or refuses, a write loop sends nothing but excerpts of what has been put
into its buffer and of the files that are in line, one for each answer of the kernel at most. A
`Send` that gives up leaves its bytes in the buffer, and one that is resumed repeats some and skips
others; but what is due is readable, and what is readable has been put there. Of what has been put
the excerpts never go back, and of a file they follow one another without a gap.
-/

namespace LWebServer

open Memory

/-! ## Writing that fails -/

namespace UserBuffer

variable {b b' : UserBuffer}

theorem Appended.refl (hle : b.readSpot ≤ b.writeSpot) : Appended b [] b :=
  ⟨(List.append_nil _).symm, hle⟩

theorem appended_write_error (hle : b.readSpot ≤ b.writeSpot) {bytes : ℕ} {e : Fail}
    (hwrite : b.write bytes = .error e b') : Appended b [] b' := by
  unfold write at hwrite
  split_ifs at hwrite with hfits
  · have hle' : b.readSpot ≤ b.writeSpot + bytes := hle.trans (Nat.le_add_right _ _)
    rcases Op.bind_error hwrite with hmove | ⟨_, _, -, hpure⟩
    · rcases @moveBuffer_cases { b with writeSpot := b.writeSpot + bytes, writeSpot_le := hfits }
        hle' with h | h <;> rw [h] at hmove <;> cases hmove
    · cases hpure
  · cases hwrite
    exact .refl hle

theorem append_error {block : List Byte} {e : Fail} (happend : b.append block = .error e b') :
    b' = b := by
  unfold append at happend
  split_ifs at happend
  cases happend
  rfl

theorem appended_writeBytes_error (hle : b.readSpot ≤ b.writeSpot) {block : List Byte} {e : Fail}
    (hwrite : b.writeBytes block = .error e b') : Appended b [] b' := by
  unfold writeBytes at hwrite
  rw [Op.bind_get] at hwrite
  dsimp only at hwrite
  split_ifs at hwrite
  · rcases Op.bind_error hwrite with hmove | ⟨_, b₁, hmove, happend⟩
    · rcases moveBuffer_cases hle with h | h <;> rw [h] at hmove <;> cases hmove
    · obtain rfl := append_error happend
      rcases moveBuffer_cases hle with h | h <;> rw [h] at hmove <;> cases hmove
      · exact .refl hle
      · exact appended_moved (.refl b.readSpot_le_moved)
  · obtain rfl := append_error hwrite
    exact .refl hle

end UserBuffer

namespace WriteLoop

variable {w w' : WriteLoop}

theorem Filled.refl (hle : w.userBuffer.readSpot ≤ w.userBuffer.writeSpot) : Filled w [] w :=
  ⟨rfl, rfl, .refl hle⟩

theorem Filled.trans {w'' : WriteLoop} {bytes bytes' : List Byte} (hfirst : Filled w bytes w')
    (hsecond : Filled w' bytes' w'') : Filled w (bytes ++ bytes') w'' where
  que := hsecond.que.trans hfirst.que
  outlet := hsecond.outlet.trans hfirst.outlet
  appended := by
    refine ⟨?_, hsecond.appended.readSpot_le⟩
    rw [hsecond.appended.unread, hfirst.appended.unread, List.append_assoc]

/-- A piece for which there is no room is not there at all. -/
theorem put_error_fills (hle : w.userBuffer.readSpot ≤ w.userBuffer.writeSpot) {piece : Piece}
    {e : Fail} (hput : put piece w = .error e w') : Filled w [] w' := by
  cases piece with
  | block bytes =>
    obtain ⟨b, hwrite, rfl⟩ := onBuffer_error hput
    exact ⟨rfl, rfl, UserBuffer.appended_writeBytes_error hle hwrite⟩
  | formatted characters =>
    obtain ⟨buffer, hsWrite, hbelow⟩ := UserBuffer.sWrite_eq w.userBuffer characters
    rcases Op.bind_error hput with hprint | ⟨ret, w₁, hprint, hput⟩
    · obtain ⟨b, hprinted, -⟩ := onBuffer_error hprint
      rw [hsWrite] at hprinted
      cases hprinted
    obtain ⟨b₁, hprinted, rfl⟩ := onBuffer_ok hprint
    rw [hsWrite] at hprinted
    cases hprinted
    rcases Op.bind_error hput with hwrite | ⟨_, _, -, hpure⟩
    · obtain ⟨b, hwritten, rfl⟩ := onBuffer_error hwrite
      have happended :=
        @UserBuffer.appended_write_error { w.userBuffer with buffer := buffer } b hle _ _ hwritten
      refine ⟨rfl, rfl, ?_, happended.readSpot_le⟩
      rw [happended.unread]
      congr 1
      apply load_congr
      intro i _ hi
      exact hbelow i (hi.trans_eq (Nat.add_sub_cancel' hle))
    · cases hpure

/-- The pieces that have been put, up to the one for which there has been no room. -/
theorem putAll_error_shows (hle : w.userBuffer.readSpot ≤ w.userBuffer.writeSpot)
    {pieces : List Piece} {e : Fail} (hput : putAll pieces w = .error e w') :
    ∃ front showns, front <+: pieces ∧ List.Forall₂
      (fun piece shown ↦ Shown (Piece.characters piece) shown) front showns ∧
        Filled w showns.flatten w' := by
  induction pieces generalizing w with
  | nil => cases hput
  | cons piece pieces ih =>
    rcases Op.bind_error hput with hfirst | ⟨first, w₁, hfirst, hput⟩
    · exact ⟨[], [], List.nil_prefix, .nil, put_error_fills hle hfirst⟩
    obtain ⟨-, shown, hshown, hfilled⟩ := put_shows hle hfirst
    rcases Op.bind_error hput with hrest | ⟨rest, w₂, -, hpure⟩
    · obtain ⟨front, showns, hfront, hshowns, hfilled'⟩ := ih hfilled.appended.readSpot_le hrest
      refine ⟨piece :: front, shown :: showns, ?_, .cons hshown hshowns, hfilled.trans hfilled'⟩
      exact List.cons_prefix_cons.mpr ⟨rfl, hfront⟩
    · cases hpure

/-! ## Supplies -/

/-- What a loop draws on: what has been put into its buffer, and the files in their order. -/
inductive Source where
  | printed
  | file (index : ℕ)
  deriving DecidableEq

/-- The texts of the sources. -/
def supply (text : List Byte) (files : List (List Byte)) : Source → List Byte
  | .printed => text
  | .file index => files.getD index []

/-- On the wire are these excerpts, behind what was there before. -/
structure Shipped (before text : List Byte) (files : List (List Byte))
    (excerpts : List (Excerpt Source)) (wire : List Byte) : Prop where
  quoted : ∃ sent, wire = before ++ sent ∧ Excerpt.Quoted (supply text files) excerpts sent
  printed : Excerpt.Advancing .printed excerpts
  files : ∀ index, Excerpt.Contiguous (.file index) excerpts

/-- The files in line. -/
def pointers (que : List Task) : List FileReader :=
  que.filterMap fun
    | .sendFile ptr => some ptr
    | .send _ | .sendReadable => none

/-- A reader stands in a file of this number where the excerpts of this file have ended. -/
structure Reads (files : List (List Byte)) (excerpts : List (Excerpt Source)) (index : ℕ)
    (ptr : FileReader) : Prop where
  content : files[index]? = some ptr.content
  offest : ptr.offest = Excerpt.taken (.file index) excerpts
  offest_le : ptr.offest ≤ ptr.content.length

/-- What is readable is the end of the text, behind as many bytes as have been sent of it; what is
due is readable, and each file in line is one of its own. -/
structure Supplied (before text : List Byte) (files : List (List Byte))
    (excerpts : List (Excerpt Source)) (w : WriteLoop) : Prop where
  unread : w.userBuffer.unread <:+ text
  due : dueAll w.que ≤ w.userBuffer.writeSpot - w.userBuffer.readSpot
  proper : ∀ task ∈ w.que, task.Proper
  readSpot_le : w.userBuffer.readSpot ≤ w.userBuffer.writeSpot
  shipped : Shipped before text files excerpts w.outlet.wire
  taken : Excerpt.taken .printed excerpts + w.userBuffer.unread.length = text.length
  behind : ∀ e ∈ excerpts, e.source = .printed → e.start ≤ Excerpt.taken .printed excerpts
  reading : ∃ indices : List ℕ, indices.Nodup ∧
    List.Forall₂ (Reads files excerpts) indices (pointers w.que)

/-- There are no more new excerpts than answers that have been used up. -/
def Spends (excerpts excerpts' : List (Excerpt Source)) (o o' : Outlet) : Prop :=
  excerpts'.length + o'.answers.length ≤ excerpts.length + o.answers.length

variable {before text : List Byte} {files : List (List Byte)} {excerpts : List (Excerpt Source)}

theorem supply_grown (text bytes : List Byte) (files more : List (List Byte)) (source : Source) :
    supply text files source <+: supply (text ++ bytes) (files ++ more) source := by
  cases source with
  | printed => exact List.prefix_append _ _
  | file index =>
    simp only [supply]
    by_cases hindex : index < files.length
    · rw [List.getD_append _ _ _ _ hindex]
    · rw [List.getD_eq_default _ _ (Nat.le_of_not_lt hindex)]
      exact List.nil_prefix

theorem Shipped.mono {wire : List Byte} (hshipped : Shipped before text files excerpts wire)
    (bytes : List Byte) (more : List (List Byte)) :
    Shipped before (text ++ bytes) (files ++ more) excerpts wire := by
  obtain ⟨⟨sent, hwire, hquoted⟩, hprinted, hfiles⟩ := hshipped
  exact ⟨⟨sent, hwire, hquoted.mono (supply_grown text bytes files more)⟩, hprinted, hfiles⟩

theorem Reads.mono {index : ℕ} {ptr : FileReader} (hreads : Reads files excerpts index ptr)
    (more : List (List Byte)) : Reads (files ++ more) excerpts index ptr := by
  refine ⟨?_, hreads.offest, hreads.offest_le⟩
  rw [List.getElem?_append_left (List.getElem?_eq_some_iff.1 hreads.content).1]
  exact hreads.content

theorem pointers_append (que que' : List Task) :
    pointers (que ++ que') = pointers que ++ pointers que' := List.filterMap_append

namespace Supplied

theorem filled {bytes : List Byte} (hsupplied : Supplied before text files excerpts w)
    (hfilled : Filled w bytes w') : Supplied before (text ++ bytes) files excerpts w' := by
  have hunread := hfilled.appended.unread
  have hlength := congrArg List.length hunread
  rw [List.length_append, UserBuffer.length_unread, UserBuffer.length_unread] at hlength
  have hdue := hsupplied.due
  have hshipped := hsupplied.shipped.mono bytes []
  have htaken := hsupplied.taken
  rw [List.append_nil] at hshipped
  refine ⟨?_, ?_, ?_, hfilled.appended.readSpot_le, ?_, ?_, hsupplied.behind, ?_⟩
  · rw [hunread]
    exact List.suffix_append_self_iff.mpr hsupplied.unread
  · rw [hfilled.que]
    omega
  · rw [hfilled.que]
    exact hsupplied.proper
  · rw [hfilled.outlet]
    exact hshipped
  · rw [hunread, List.length_append, List.length_append]
    omega
  · rw [hfilled.que]
    exact hsupplied.reading

/-- What has been put is due. -/
theorem addSend {bytes : List Byte} (hsupplied : Supplied before text files excerpts w)
    (hfilled : Filled w bytes w') (hpos : 0 < bytes.length) :
    Supplied before (text ++ bytes) files excerpts (w'.addSend bytes.length) := by
  have hunread := congrArg List.length hfilled.appended.unread
  rw [List.length_append, UserBuffer.length_unread, UserBuffer.length_unread] at hunread
  have hdue := hsupplied.due
  have hfilled' := hsupplied.filled hfilled
  have hpointers : pointers (w'.addSend bytes.length).que = pointers w'.que :=
    (pointers_append _ _).trans (List.append_nil _)
  refine ⟨hfilled'.unread, ?_, ?_, hfilled'.readSpot_le, hfilled'.shipped, hfilled'.taken,
    hfilled'.behind, ?_⟩
  · change dueAll (w'.que ++ [.send bytes.length]) ≤
      w'.userBuffer.writeSpot - w'.userBuffer.readSpot
    rw [dueAll_append, hfilled.que, hunread]
    exact Nat.add_le_add_right hdue _
  · exact List.forall_mem_append.mpr ⟨hfilled'.proper, List.forall_mem_singleton.mpr hpos⟩
  · rw [hpointers]
    exact hfilled'.reading

theorem files_append (hsupplied : Supplied before text files excerpts w)
    (more : List (List Byte)) : Supplied before text (files ++ more) excerpts w := by
  obtain ⟨indices, hnodup, hreads⟩ := hsupplied.reading
  have hshipped := hsupplied.shipped.mono [] more
  rw [List.append_nil] at hshipped
  exact ⟨hsupplied.unread, hsupplied.due, hsupplied.proper, hsupplied.readSpot_le, hshipped,
    hsupplied.taken, hsupplied.behind, indices, hnodup,
    hreads.imp fun index ptr hreads ↦ hreads.mono more⟩

/-- A file that is put in line is read from its beginning. -/
theorem addSendFile (hsupplied : Supplied before text files excerpts w) {ptr : FileReader}
    (hoffest : ptr.offest = 0) :
    Supplied before text (files ++ [ptr.content]) excerpts (w.addSendFile ptr) := by
  have hmore := hsupplied.files_append [ptr.content]
  obtain ⟨indices, hnodup, hreads⟩ := hsupplied.reading
  obtain ⟨sent, -, hquoted⟩ := hsupplied.shipped.quoted
  have hnone : supply text files (.file files.length) = [] :=
    List.getD_eq_default _ _ le_rfl
  have hfresh : Reads (files ++ [ptr.content]) excerpts files.length ptr :=
    ⟨List.getElem?_concat_length, hoffest.trans (Excerpt.taken_eq_zero hquoted hnone).symm,
      hoffest.trans_le (Nat.zero_le _)⟩
  have hothers : files.length ∉ indices := by
    intro hmem
    have hbelow := (List.forall₂_and_left _ _).1 (hreads.imp fun index other hother ↦
      ⟨(List.getElem?_eq_some_iff.1 hother.content).1, hother⟩)
    exact absurd (hbelow.1 _ hmem) (lt_irrefl _)
  have hpointers : pointers (w.addSendFile ptr).que = pointers w.que ++ [ptr] :=
    pointers_append _ _
  refine ⟨hmore.unread, (dueAll_append _ _).trans_le hmore.due, ?_, hmore.readSpot_le,
    hmore.shipped, hmore.taken, hmore.behind, indices ++ [files.length], ?_, ?_⟩
  · exact List.forall_mem_append.mpr ⟨hmore.proper, List.forall_mem_singleton.mpr trivial⟩
  · rw [List.nodup_append_comm, List.singleton_append, List.nodup_cons]
    exact ⟨hothers, hnodup⟩
  · rw [hpointers]
    exact List.rel_append (hreads.imp fun index other hother ↦ hother.mono _) (.cons hfresh .nil)

theorem facing (hsupplied : Supplied before text files excerpts w) (answers : List Accept) :
    Supplied before text files excerpts (w.facing answers) :=
  ⟨hsupplied.unread, hsupplied.due, hsupplied.proper, hsupplied.readSpot_le, hsupplied.shipped,
    hsupplied.taken, hsupplied.behind, hsupplied.reading⟩

theorem report (hsupplied : Supplied before text files excerpts w) :
    Supplied before text files excerpts w.report := by
  unfold WriteLoop.report
  split_ifs
  · exact ⟨hsupplied.unread, hsupplied.due, hsupplied.proper, hsupplied.readSpot_le,
      hsupplied.shipped, hsupplied.taken, hsupplied.behind, hsupplied.reading⟩
  · exact hsupplied

end Supplied

/-! ## Sending -/

/-- What the loop in `Send` has shipped, at a position of the text. -/
structure Ships (before text : List Byte) (files : List (List Byte)) (start : ℕ)
    (excerpts : List (Excerpt Source)) (s : Sending) : Prop where
  shipped : Shipped before text files excerpts s.outlet.wire
  taken : Excerpt.taken .printed excerpts = start + s.sent
  behind : ∀ e ∈ excerpts, e.source = .printed → e.start ≤ start

/-- Nothing of a file is sent by a `Send`. -/
def SameFiles (excerpts excerpts' : List (Excerpt Source)) : Prop :=
  ∀ index, Excerpt.taken (.file index) excerpts' = Excerpt.taken (.file index) excerpts

/-- Each turn of the loop in `Send` sends an excerpt from the same position on. -/
theorem ships_sendLoop (answers : List Accept) {block : List Byte} {start : ℕ}
    (hblock : block <+: text.drop start) (hstart : start ≤ text.length) {s : Sending}
    (hships : Ships before text files start excerpts s) :
    ∃ excerpts', Ships before text files start excerpts' (sendLoop block answers s) ∧
      SameFiles excerpts excerpts' ∧
        excerpts'.length + (sendLoop block answers s).outlet.answers.length ≤
          excerpts.length + answers.length := by
  induction answers generalizing s excerpts with
  | nil => exact ⟨excerpts, ⟨hships.shipped, hships.taken, hships.behind⟩, fun _ ↦ rfl, le_rfl⟩
  | cons answer answers ih =>
    rw [sendLoop.eq_def]
    by_cases hall : s.sent = block.length
    · simp only [if_pos hall]
      exact ⟨excerpts, ⟨hships.shipped, hships.taken, hships.behind⟩, fun _ ↦ rfl, le_rfl⟩
    simp only [if_neg hall]
    cases answer with
    | accepts more =>
      let e : Excerpt Source := ⟨.printed, start, min (more + 1) (block.length - s.sent)⟩
      obtain ⟨⟨⟨sent, hwire, hquoted⟩, hprinted, hfiles⟩, htaken, hbehind⟩ := hships
      have hroom := hblock.length_le
      rw [List.length_drop] at hroom
      have hwithin : e.Within (supply text files) := by
        change start + min (more + 1) (block.length - s.sent) ≤ text.length
        omega
      have hitems : e.items (supply text files) =
          block.take (min (more + 1) (block.length - s.sent)) := by
        obtain ⟨rest, hrest⟩ := hblock
        change (text.drop start).take (min (more + 1) (block.length - s.sent)) = _
        rw [← hrest, List.take_append_of_le_length (by omega)]
      have hmore := hquoted.snoc hwithin
      rw [hitems] at hmore
      have hnext : Ships before text files start (excerpts ++ [e]) { s with
          outlet.wire := s.outlet.wire ++ block.take (min (more + 1) (block.length - s.sent))
          sent := s.sent + min (more + 1) (block.length - s.sent)
          throughout :=
            (s.throughout + (s.sent + min (more + 1) (block.length - s.sent))) % 2 ^ 32
          interval := (s.interval + 1) % 2 ^ 32 } := by
        refine ⟨⟨⟨_, ?_, hmore⟩, ?_, fun index ↦ ?_⟩, ?_, ?_⟩
        · rw [hwire, List.append_assoc]
        · refine hprinted.snoc (fun e' he' hsource _ ↦ hbehind e' he' hsource) fun _ ↦ ?_
          rw [htaken]
          exact Nat.le_add_right _ _
        · exact (hfiles index).snoc fun hsource ↦ by cases hsource
        · rw [Excerpt.taken_snoc, htaken]
          exact Nat.add_assoc _ _ _
        · exact List.forall_mem_append.2 ⟨hbehind, List.forall_mem_singleton.2 fun _ ↦ le_rfl⟩
      obtain ⟨excerpts', hships', hsame, hspends⟩ := ih hnext
      refine ⟨excerpts', hships', fun index ↦ ?_, hspends.trans ?_⟩
      · rw [hsame, Excerpt.taken_snoc]
        rfl
      · rw [List.length_append, List.length_singleton, List.length_cons]
        omega
    | eagain =>
      exact ⟨excerpts, ⟨hships.shipped, hships.taken, hships.behind⟩, fun _ ↦ rfl,
        Nat.add_le_add_left (Nat.le_succ _) _⟩
    | reset =>
      exact ⟨excerpts, ⟨hships.shipped, hships.taken, hships.behind⟩, fun _ ↦ rfl,
        Nat.add_le_add_left (Nat.le_succ _) _⟩
    | failed =>
      exact ⟨excerpts, ⟨hships.shipped, hships.taken, hships.behind⟩, fun _ ↦ rfl,
        Nat.add_le_add_left (Nat.le_succ _) _⟩

/-- What `settle` needs to know of the loop and of the queue behind the task. -/
theorem supplied_settle {start length : ℕ} {excerpts₀ : List (Excerpt Source)} {s : Sending}
    (hsupplied : Supplied before text files excerpts₀ w)
    (hdue : length + dueAll w.que ≤ w.userBuffer.writeSpot - w.userBuffer.readSpot)
    (hle : s.sent ≤ length) (hstart : start + w.userBuffer.unread.length = text.length)
    (hships : Ships before text files start excerpts s) (hsame : SameFiles excerpts₀ excerpts) :
    ∃ answer w', settle length s w = .ok answer w' ∧
      Supplied before text files excerpts w' ∧ w'.outlet = s.outlet := by
  have hreadSpot := hsupplied.readSpot_le
  have hunread : (w.userBuffer.read s.sent).unread <:+ text := by
    rw [UserBuffer.unread_read]
    exact (List.drop_suffix _ _).trans hsupplied.unread
  have htaken : Excerpt.taken .printed excerpts + (w.userBuffer.read s.sent).unread.length =
      text.length := by
    rw [UserBuffer.unread_read, List.length_drop, hships.taken]
    rw [UserBuffer.length_unread] at hstart ⊢
    omega
  have hbehind : ∀ e ∈ excerpts, e.source = .printed →
      e.start ≤ Excerpt.taken .printed excerpts := by
    intro e he hsource
    rw [hships.taken]
    exact (hships.behind e he hsource).trans (Nat.le_add_right _ _)
  obtain ⟨indices, hnodup, hreads⟩ := hsupplied.reading
  have hreads' : List.Forall₂ (Reads files excerpts) indices (pointers w.que) :=
    hreads.imp fun index ptr hreads ↦
      ⟨hreads.content, hreads.offest.trans (hsame index).symm, hreads.offest_le⟩
  unfold settle
  dsimp only
  split_ifs with hmore
  · refine ⟨_, _, rfl, ⟨hunread, ?_, ?_, ?_, hships.shipped, htaken, hbehind, indices, hnodup,
      hreads'⟩, rfl⟩
    · change length - s.sent + dueAll w.que ≤
        w.userBuffer.writeSpot - (w.userBuffer.readSpot + s.sent)
      omega
    · exact List.forall_mem_cons.mpr ⟨hmore.2, hsupplied.proper⟩
    · change w.userBuffer.readSpot + s.sent ≤ w.userBuffer.writeSpot
      omega
  · refine ⟨_, _, rfl, ⟨hunread, ?_, hsupplied.proper, ?_, hships.shipped, htaken, hbehind,
      indices, hnodup, hreads'⟩, rfl⟩
    · change dueAll w.que ≤ w.userBuffer.writeSpot - (w.userBuffer.readSpot + s.sent)
      omega
    · change w.userBuffer.readSpot + s.sent ≤ w.userBuffer.writeSpot
      omega

/-- A `Send` finds its length in the buffer: it neither throws nor reads beyond the array. -/
theorem supplied_send {length : ℕ} {que : List Task}
    (hsupplied : Supplied before text files excerpts w) (hque : w.que = .send length :: que) :
    ∃ answer w' excerpts', send length { w with que := que } = .ok answer w' ∧
      Supplied before text files excerpts' w' ∧ Spends excerpts excerpts' w.outlet w'.outlet := by
  have hpos : 0 < length := hsupplied.proper (.send length) (hque ▸ List.mem_cons_self)
  have hdue : length + dueAll que ≤ w.userBuffer.writeSpot - w.userBuffer.readSpot := by
    have hall := hsupplied.due
    rwa [hque] at hall
  have hsize := w.userBuffer.writeSpot_le
  have hlength := hsupplied.taken
  have hblock : load w.userBuffer.buffer w.userBuffer.readSpot length <+:
      text.drop (Excerpt.taken .printed excerpts) := by
    have hrest : text.drop (Excerpt.taken .printed excerpts) = w.userBuffer.unread := by
      obtain ⟨front, hfront⟩ := hsupplied.unread
      rw [← hfront, List.length_append] at hlength
      rw [← hfront, List.drop_left' (by omega)]
    have hsplit : w.userBuffer.unread =
        load w.userBuffer.buffer w.userBuffer.readSpot length ++
          load w.userBuffer.buffer (w.userBuffer.readSpot + length)
            (w.userBuffer.writeSpot - w.userBuffer.readSpot - length) := by
      rw [← load_add]
      unfold UserBuffer.unread
      congr 1
      omega
    rw [hrest, hsplit]
    exact List.prefix_append _ _
  have hstarting : Ships before text files (Excerpt.taken .printed excerpts) excerpts w.starting :=
    ⟨hsupplied.shipped, rfl, hsupplied.behind⟩
  obtain ⟨excerpts', hships, hsame, hspends⟩ :=
    ships_sendLoop w.outlet.answers hblock (by omega) hstarting
  have hsent : (sendLoop (load w.userBuffer.buffer w.userBuffer.readSpot length)
      w.outlet.answers w.starting).sent ≤ length :=
    (sent_sendLoop_le (Nat.zero_le _)).trans_eq (length_load _ _ _)
  have htail : Supplied before text files excerpts { w with que := que } := by
    have hdue' := hsupplied.due
    have hproper := hsupplied.proper
    have hreading := hsupplied.reading
    rw [hque] at hdue' hproper hreading
    exact ⟨hsupplied.unread, (Nat.le_add_left _ _).trans hdue',
      fun other hother ↦ hproper other (List.mem_cons_of_mem _ hother), hsupplied.readSpot_le,
      hsupplied.shipped, hsupplied.taken, hsupplied.behind, hreading⟩
  rw [send_eq, if_neg (by omega), if_neg (by dsimp only; omega)]
  obtain ⟨answer, w', hsettle, hsupplied', houtlet⟩ :=
    supplied_settle htail hdue hsent hlength hships hsame
  refine ⟨answer, w', excerpts', hsettle, hsupplied', ?_⟩
  unfold Spends
  rw [houtlet]
  exact hspends

/-- One `sendfile` sends an excerpt of the file, from where the reader stands, or nothing. -/
theorem excerpt_sendFile {ptr : FileReader} (hle : ptr.offest ≤ ptr.content.length) (o : Outlet) :
    (ptr.sendFile o).1.content = ptr.content ∧
      (((ptr.sendFile o).1 = ptr ∧ (ptr.sendFile o).2.wire = o.wire ∧
          (ptr.sendFile o).2.answers.length ≤ o.answers.length) ∨
        ∃ length, ptr.offest + length ≤ ptr.content.length ∧
          (ptr.sendFile o).1.offest = ptr.offest + length ∧
          (ptr.sendFile o).2.wire = o.wire ++ (ptr.content.drop ptr.offest).take length ∧
          (ptr.sendFile o).2.answers.length < o.answers.length) := by
  obtain ⟨answers, wire⟩ := o
  unfold FileReader.sendFile
  split_ifs with hend
  · exact ⟨rfl, .inl ⟨rfl, rfl, le_rfl⟩⟩
  · cases answers with
    | nil => exact ⟨rfl, .inl ⟨rfl, rfl, le_rfl⟩⟩
    | cons answer answers =>
      cases answer with
      | accepts more =>
        refine ⟨rfl, .inr ⟨min (more + 1) (ptr.length - ptr.offest), ?_, rfl, rfl,
          Nat.lt_succ_self _⟩⟩
        unfold FileReader.length
        omega
      | eagain => exact ⟨rfl, .inl ⟨rfl, rfl, Nat.le_succ _⟩⟩
      | reset => exact ⟨rfl, .inl ⟨rfl, rfl, Nat.le_succ _⟩⟩
      | failed => exact ⟨rfl, .inl ⟨rfl, rfl, Nat.le_succ _⟩⟩

/-- The reader that a `sendfile` leaves stands where the excerpts of its file end, and nothing
changes for the other files. -/
theorem shipped_sendFile {ptr : FileReader} {index : ℕ} {o : Outlet}
    (hshipped : Shipped before text files excerpts o.wire)
    (hreads : Reads files excerpts index ptr) :
    ∃ excerpts', Shipped before text files excerpts' (ptr.sendFile o).2.wire ∧
      Reads files excerpts' index (ptr.sendFile o).1 ∧
      (∀ source, source ≠ .file index →
        Excerpt.taken source excerpts' = Excerpt.taken source excerpts) ∧
      (∀ e ∈ excerpts', e.source = .printed → e ∈ excerpts) ∧
        Spends excerpts excerpts' o (ptr.sendFile o).2 := by
  obtain ⟨hfound, hoffest, hle⟩ := hreads
  obtain ⟨hcontent, ⟨hsame, hwire, hanswers⟩ | ⟨length, hroom, hnext, hwire, hanswers⟩⟩ :=
    excerpt_sendFile hle o
  · refine ⟨excerpts, ?_, ?_, fun _ _ ↦ rfl, fun _ he _ ↦ he, Nat.add_le_add_left hanswers _⟩
    · rw [hwire]
      exact hshipped
    · rw [hsame]
      exact ⟨hfound, hoffest, hle⟩
  · let e : Excerpt Source := ⟨.file index, ptr.offest, length⟩
    have htext : supply text files (.file index) = ptr.content := by
      simp only [supply, List.getD_eq_getElem?_getD, hfound, Option.getD_some]
    have hwithin : e.Within (supply text files) := by
      change ptr.offest + length ≤ (supply text files (.file index)).length
      rw [htext]
      exact hroom
    have hitems : e.items (supply text files) = (ptr.content.drop ptr.offest).take length := by
      change ((supply text files (.file index)).drop ptr.offest).take length = _
      rw [htext]
    obtain ⟨⟨sent, hbefore, hquoted⟩, hprinted, hfiles⟩ := hshipped
    have hmore := hquoted.snoc hwithin
    rw [hitems] at hmore
    refine ⟨excerpts ++ [e], ⟨⟨_, ?_, hmore⟩, ?_, fun other ↦ ?_⟩, ⟨?_, ?_, ?_⟩,
      fun source hsource ↦ ?_, fun e' he' hsource ↦ ?_, ?_⟩
    · rw [hwire, hbefore, List.append_assoc]
    · exact hprinted.snoc (fun _ _ _ hsource ↦ by cases hsource) fun hsource ↦ by cases hsource
    · apply (hfiles other).snoc
      intro hsource
      rw [← hsource]
      exact hoffest
    · rw [hcontent]
      exact hfound
    · rw [hnext, Excerpt.taken_snoc, if_pos rfl, hoffest]
    · rw [hnext, hcontent]
      exact hroom
    · rw [Excerpt.taken_snoc, if_neg hsource.symm, Nat.add_zero]
    · rcases List.mem_append.1 he' with hold | hnew
      · exact hold
      · obtain rfl := List.mem_singleton.1 hnew
        cases hsource
    · unfold Spends
      rw [List.length_append, List.length_singleton]
      omega

theorem supplied_sendFile {ptr : FileReader} {que : List Task}
    (hsupplied : Supplied before text files excerpts w) (hque : w.que = .sendFile ptr :: que) :
    ∃ answer w' excerpts', sendFile ptr { w with que := que } = .ok answer w' ∧
      Supplied before text files excerpts' w' ∧ Spends excerpts excerpts' w.outlet w'.outlet := by
  have hdue := hsupplied.due
  have hproper := hsupplied.proper
  obtain ⟨indices, hnodup, hreading⟩ := hsupplied.reading
  have hpointers : pointers (.sendFile ptr :: que) = ptr :: pointers que := rfl
  rw [hque] at hdue hproper hreading
  rw [hpointers] at hreading
  obtain ⟨index, indices, hreads, hothers, rfl⟩ := List.forall₂_cons_right_iff.1 hreading
  obtain ⟨hindex, hnodup'⟩ := List.nodup_cons.1 hnodup
  obtain ⟨excerpts', hshipped, hreads', hsame, hold, hspends⟩ :=
    shipped_sendFile hsupplied.shipped hreads
  have hothers' : List.Forall₂ (Reads files excerpts') indices (pointers que) := by
    have hfar := (List.forall₂_and_left indices (pointers que)).2
      ⟨fun other hother ↦ ne_of_mem_of_not_mem hother hindex, hothers⟩
    exact hfar.imp fun other ptr ⟨hne, hreads⟩ ↦ ⟨hreads.content,
      hreads.offest.trans (hsame _ fun heq ↦ hne (Source.file.inj heq)).symm, hreads.offest_le⟩
  have htaken := hsame .printed Source.noConfusion
  have hlength : Excerpt.taken .printed excerpts' + w.userBuffer.unread.length = text.length := by
    rw [htaken]
    exact hsupplied.taken
  have hbehind : ∀ e ∈ excerpts', e.source = .printed →
      e.start ≤ Excerpt.taken .printed excerpts' := by
    intro e he hsource
    rw [htaken]
    exact hsupplied.behind e (hold e he hsource) hsource
  have htail : ∀ other ∈ que, other.Proper :=
    fun other hother ↦ hproper other (List.mem_cons_of_mem _ hother)
  have hdue' : dueAll que ≤ w.userBuffer.writeSpot - w.userBuffer.readSpot :=
    (Nat.le_add_left _ _).trans hdue
  unfold sendFile
  dsimp only
  split_ifs
  · exact ⟨_, _, excerpts', rfl, ⟨hsupplied.unread, hdue', htail, hsupplied.readSpot_le, hshipped,
      hlength, hbehind, indices, hnodup', hothers'⟩, hspends⟩
  · refine ⟨_, _, excerpts', rfl, ⟨hsupplied.unread, (dueAll_append _ _).trans_le hdue', ?_,
      hsupplied.readSpot_le, hshipped, hlength, hbehind, indices ++ [index], ?_, ?_⟩, hspends⟩
    · exact List.forall_mem_append.mpr ⟨htail, List.forall_mem_singleton.mpr trivial⟩
    · rw [List.nodup_append_comm]
      exact hnodup
    · have hback : pointers (que ++ [.sendFile (ptr.sendFile w.outlet).1]) =
          pointers que ++ [(ptr.sendFile w.outlet).1] := pointers_append _ _
      change List.Forall₂ _ _ (pointers (que ++ [.sendFile (ptr.sendFile w.outlet).1]))
      rw [hback]
      exact List.rel_append hothers' (.cons hreads' .nil)

theorem supplied_doFirst (hsupplied : Supplied before text files excerpts w) :
    ∃ answer w' excerpts', doFirst w = .ok answer w' ∧
      Supplied before text files excerpts' w' ∧ Spends excerpts excerpts' w.outlet w'.outlet := by
  unfold doFirst
  cases hque : w.que with
  | nil => exact ⟨_, w, excerpts, rfl, hsupplied, le_rfl⟩
  | cons task que =>
    cases task with
    | send length => exact supplied_send hsupplied hque
    | sendReadable => exact (hsupplied.proper .sendReadable (hque ▸ List.mem_cons_self)).elim
    | sendFile ptr => exact supplied_sendFile hsupplied hque

theorem outlet_report (w : WriteLoop) : w.report.outlet = w.outlet := by
  unfold report
  split_ifs <;> rfl

theorem supplied_turns (count : ℕ) (hsupplied : Supplied before text files excerpts w) :
    ∃ answer w' excerpts', turns count w = .ok answer w' ∧
      Supplied before text files excerpts' w' ∧ Spends excerpts excerpts' w.outlet w'.outlet := by
  induction count generalizing w excerpts with
  | zero => exact ⟨_, w, excerpts, rfl, hsupplied, le_rfl⟩
  | succ count ih =>
    obtain ⟨answer, w₁, excerpts₁, hturn, hfirst, hspends⟩ := supplied_doFirst hsupplied
    rw [← outlet_report w₁] at hspends
    unfold turns
    rw [hturn]
    cases answer with
    | complete =>
      obtain ⟨answer, w', excerpts', hrest, hsupplied', hspends'⟩ := ih hfirst.report
      exact ⟨answer, w', excerpts', hrest, hsupplied', hspends'.trans hspends⟩
    | imcomplete => exact ⟨_, _, excerpts₁, rfl, hfirst.report, hspends⟩
    | empty => exact ⟨_, _, excerpts₁, rfl, hfirst.report, hspends⟩

/-- Whatever the kernel answers, `DoAll` returns, and it sends nothing else. -/
theorem supplied_doAll (hsupplied : Supplied before text files excerpts w) :
    ∃ answer w' excerpts', doAll w = .ok answer w' ∧
      Supplied before text files excerpts' w' ∧ Spends excerpts excerpts' w.outlet w'.outlet :=
  supplied_turns (w.que.length + 1) hsupplied

end WriteLoop

end LWebServer
