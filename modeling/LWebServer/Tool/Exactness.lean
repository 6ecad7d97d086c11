import LWebServer.Tool.Queueing

/-!
# Formatted writes at the end of the buffer

`vsnprintf` is given the free part of the buffer and stores one character less than fits there, but
`swrite` commits as many bytes as it returns. The two differ where the characters fill the buffer to
its end: the last of them is replaced by the NUL.
-/

namespace LWebServer

open Memory

namespace WriteLoop

/-- A formatted write has appended the characters and returned their number, or it threw and has
left the readable bytes. -/
def Exact (formatted : List Byte) (w : WriteLoop) : Prop :=
  match swrite formatted w with
  | .ok n w' => n = formatted.length ∧ w'.userBuffer.unread = w.userBuffer.unread ++ formatted
  | .error _ w' => w'.userBuffer.unread = w.userBuffer.unread

/-- The characters would reach the end of the buffer, and the last one is not a NUL. -/
def Overprinted (formatted : List Byte) (w : WriteLoop) : Prop :=
  formatted.length = w.userBuffer.writeable ∧ formatted ≠ [] ∧ formatted.getLast? ≠ some 0

variable {w : WriteLoop} {formatted : List Byte}

/-! ## What `vsnprintf` stores -/

/-- Characters that leave room for the NUL are stored as they are. -/
theorem take_printed_of_lt {room : ℕ} (hlt : formatted.length < room) :
    (printed room formatted).take formatted.length = formatted := by
  have hall : formatted.take (room - 1) = formatted := List.take_of_length_le (by omega)
  unfold printed
  rw [if_neg (by omega), hall]
  exact List.take_left

/-- Of characters that leave no room the last one is lost. -/
theorem take_printed_of_full {init : List Byte} {last : Byte} {room : ℕ}
    (hfull : (init ++ [last]).length = room) :
    (printed room (init ++ [last])).take (init ++ [last]).length = init ++ [0] := by
  have hcount : room - 1 = init.length := by
    rw [← hfull, List.length_append, List.length_singleton, Nat.add_sub_cancel]
  have hpos : room ≠ 0 := by
    rw [← hfull]
    simp
  unfold printed
  rw [if_neg hpos, hcount, List.take_left]
  exact List.take_of_length_le (by simp)

/-! ## What `swrite` commits -/

/-- There is room: so many bytes are committed of those that have been stored. -/
theorem swrite_of_le (hle : w.userBuffer.readSpot ≤ w.userBuffer.writeSpot)
    (hroom : formatted.length ≤ w.userBuffer.writeable) : ∃ w',
      swrite formatted w = .ok formatted.length w' ∧ w'.userBuffer.unread =
        w.userBuffer.unread ++
          (printed w.userBuffer.writeable formatted).take formatted.length := by
  have hfits : w.userBuffer.writeSpot + formatted.length ≤ w.userBuffer.bufferSize :=
    Nat.add_le_of_le_sub' w.userBuffer.writeSpot_le hroom
  have hcommitted := UserBuffer.unread_committed hle (length_le_printed hroom) hfits
  have hsound : UserBuffer.Sound w.userBuffer.bufferSize { w.userBuffer with
      buffer := store w.userBuffer.buffer w.userBuffer.writeSpot
        (printed w.userBuffer.writeable formatted)
      writeSpot := w.userBuffer.writeSpot + formatted.length
      writeSpot_le := hfits } := ⟨hle.trans (Nat.le_add_right _ _), rfl⟩
  obtain ⟨b', hmove, hunread, -⟩ := hsound.moveBuffer
  have hwrite : UserBuffer.write formatted.length { w.userBuffer with
      buffer := store w.userBuffer.buffer w.userBuffer.writeSpot
        (printed w.userBuffer.writeable formatted) } = .ok formatted.length b' := by
    unfold UserBuffer.write
    rw [dif_pos hfits]
    exact Op.bind_of_ok hmove
  refine ⟨{ w with userBuffer := b' }, ?_, hunread.trans hcommitted⟩
  rw [swrite_eq]
  unfold onBuffer
  dsimp only
  rw [hwrite]

/-- There is no room: the write throws. -/
theorem swrite_of_lt (hle : w.userBuffer.readSpot ≤ w.userBuffer.writeSpot)
    (hroom : w.userBuffer.writeable < formatted.length) : ∃ w',
      swrite formatted w = .error .outOfRange w' ∧
        w'.userBuffer.unread = w.userBuffer.unread := by
  have hfits : ¬ w.userBuffer.writeSpot + formatted.length ≤ w.userBuffer.bufferSize := by
    unfold UserBuffer.writeable at hroom
    omega
  have hunread := UserBuffer.unread_put hle (printed w.userBuffer.writeable formatted)
  have hwrite : UserBuffer.write formatted.length { w.userBuffer with
      buffer := store w.userBuffer.buffer w.userBuffer.writeSpot
        (printed w.userBuffer.writeable formatted) } = .error .outOfRange { w.userBuffer with
      buffer := store w.userBuffer.buffer w.userBuffer.writeSpot
        (printed w.userBuffer.writeable formatted) } := dif_neg hfits
  refine ⟨{ w with userBuffer := { w.userBuffer with
    buffer := store w.userBuffer.buffer w.userBuffer.writeSpot
      (printed w.userBuffer.writeable formatted) } }, ?_, hunread⟩
  rw [swrite_eq]
  unfold onBuffer
  dsimp only
  rw [hwrite]

/-- Where the characters reach the end of the buffer, a NUL is committed for the last of them. -/
theorem swrite_of_full (hle : w.userBuffer.readSpot ≤ w.userBuffer.writeSpot) {init : List Byte}
    {last : Byte} (hfull : (init ++ [last]).length = w.userBuffer.writeable) : ∃ w',
      swrite (init ++ [last]) w = .ok (init ++ [last]).length w' ∧
        w'.userBuffer.unread = w.userBuffer.unread ++ (init ++ [0]) := by
  obtain ⟨w', hwrite, hunread⟩ := swrite_of_le hle hfull.le
  rw [take_printed_of_full hfull] at hunread
  exact ⟨w', hwrite, hunread⟩

/-- The last of the characters is replaced, so that they are appended only if it is a NUL. -/
theorem exact_of_full_iff (hle : w.userBuffer.readSpot ≤ w.userBuffer.writeSpot)
    {init : List Byte} {last : Byte}
    (hfull : (init ++ [last]).length = w.userBuffer.writeable) :
    Exact (init ++ [last]) w ↔ last = 0 := by
  obtain ⟨w', hwrite, hunread⟩ := swrite_of_full hle hfull
  unfold Exact
  rw [hwrite]
  dsimp only
  rw [hunread]
  constructor
  · rintro ⟨-, happended⟩
    simpa using (List.append_cancel_left happended).symm
  · rintro rfl
    exact ⟨rfl, rfl⟩

/-- A formatted write is exact or refused unless its characters reach the end of the buffer. -/
theorem exact_iff (hle : w.userBuffer.readSpot ≤ w.userBuffer.writeSpot) :
    Exact formatted w ↔ ¬ Overprinted formatted w := by
  unfold Overprinted
  rcases Nat.lt_trichotomy formatted.length w.userBuffer.writeable with hlt | hfull | hlong
  · obtain ⟨w', hwrite, hunread⟩ := swrite_of_le hle hlt.le
    rw [take_printed_of_lt hlt] at hunread
    have hexact : Exact formatted w := by
      unfold Exact
      rw [hwrite]
      exact ⟨rfl, hunread⟩
    exact iff_of_true hexact fun hover ↦ hlt.ne hover.1
  · rcases List.eq_nil_or_concat formatted with rfl | ⟨init, last, rfl⟩
    · obtain ⟨w', hwrite, hunread⟩ := swrite_of_le hle hfull.le
      have hexact : Exact [] w := by
        unfold Exact
        rw [hwrite]
        exact ⟨rfl, hunread⟩
      exact iff_of_true hexact fun hover ↦ hover.2.1 rfl
    · rw [List.concat_eq_append] at hfull ⊢
      rw [exact_of_full_iff hle hfull]
      simp [hfull]
  · obtain ⟨w', hwrite, hunread⟩ := swrite_of_lt hle hlong
    have hexact : Exact formatted w := by
      unfold Exact
      rw [hwrite]
      exact hunread
    exact iff_of_true hexact fun hover ↦ hlong.ne' hover.1

theorem exact_iff_empty : Exact (text "Close\n") (.new 0 4048) ↔
    ¬ Overprinted (text "Close\n") (.new 0 4048) :=
  exact_iff le_rfl

/-- Characters that fill an empty buffer end by a NUL in it. -/
theorem not_exact_filling : ¬ Exact (List.replicate 4047 (ascii 'a') ++ [ascii 'a'])
    (.new 0 4048) := by
  have hfull : (List.replicate 4047 (ascii 'a') ++ [ascii 'a']).length =
      (new 0 4048).userBuffer.writeable := by
    rw [List.length_append, List.length_replicate]
    rfl
  rw [exact_of_full_iff le_rfl hfull]
  decide

end WriteLoop

end LWebServer
