import LWebServer.Tool.WireOrder

/-!
# Printing into the write loop

What `swrite` and `write` leave in the buffer. `vsnprintf` ends its output by a NUL, which takes the
place of the last character where that fills the buffer.
-/

namespace LWebServer

open Memory

/-- Characters as they are found in the buffer. -/
def Shown (characters shown : List Byte) : Prop :=
  shown = characters ∨ ∃ init last, characters = init ++ [last] ∧ shown = init ++ [0]

theorem Shown.length_eq {characters shown : List Byte} (h : Shown characters shown) :
    shown.length = characters.length := by
  rcases h with rfl | ⟨init, last, rfl, rfl⟩
  · rfl
  · simp

/-- The first of two characters or more is found as it is. -/
theorem Shown.cons {first : Byte} {rest shown : List Byte} (hrest : rest ≠ [])
    (h : Shown (first :: rest) shown) : ∃ shown', shown = first :: shown' ∧ Shown rest shown' := by
  rcases h with rfl | ⟨init, last, hsplit, rfl⟩
  · exact ⟨rest, rfl, .inl rfl⟩
  · cases init with
    | nil =>
      cases hsplit
      exact absurd rfl hrest
    | cons head tail =>
      cases hsplit
      exact ⟨tail ++ [0], rfl, .inr ⟨tail, last, rfl, rfl⟩⟩

/-- All characters but the last one are found as they are. -/
theorem Shown.append {first rest shown : List Byte} (hrest : rest ≠ [])
    (h : Shown (first ++ rest) shown) : ∃ shown', shown = first ++ shown' ∧ Shown rest shown' := by
  induction first generalizing shown with
  | nil => exact ⟨shown, rfl, h⟩
  | cons head tail ih =>
    obtain ⟨shown₁, rfl, hshown₁⟩ := Shown.cons (by simp [hrest]) h
    obtain ⟨shown₂, rfl, hshown₂⟩ := ih hshown₁
    exact ⟨shown₂, rfl, hshown₂⟩

namespace UserBuffer

theorem fits_of_write {b b' : UserBuffer} {bytes n : ℕ} (hwrite : b.write bytes = .ok n b') :
    b.writeSpot + bytes ≤ b.bufferSize := by
  by_contra hfits
  have herror : b.write bytes = .error .outOfRange b := dif_neg hfits
  rw [herror] at hwrite
  cases hwrite

theorem write_of_low {b : UserBuffer} (hlow : b.readSpot < b.bufferSize / 2) {bytes : ℕ}
    (hfits : b.writeSpot + bytes ≤ b.bufferSize) :
    b.write bytes = .ok bytes { b with
      writeSpot := b.writeSpot + bytes
      writeSpot_le := hfits } := by
  have hmove : ({ b with writeSpot := b.writeSpot + bytes, writeSpot_le := hfits } :
      UserBuffer).moveBuffer = .ok () { b with
        writeSpot := b.writeSpot + bytes
        writeSpot_le := hfits } := if_pos hlow
  unfold write
  rw [dif_pos hfits]
  exact Op.bind_of_ok hmove

theorem writeBytes_of_low {b : UserBuffer} (hlow : b.readSpot < b.bufferSize / 2)
    (block : List Byte) : b.writeBytes block = b.append block := by
  unfold writeBytes
  rw [Op.bind_get]
  dsimp only
  split_ifs
  · exact Op.bind_of_ok (if_pos hlow)
  · rfl

end UserBuffer

namespace WriteLoop

/-- The characters of a piece. -/
def Piece.characters : Piece → List Byte
  | .formatted characters => characters
  | .block bytes => bytes

@[simp]
theorem Piece.characters_formatted (formatted : List Byte) :
    (Piece.formatted formatted).characters = formatted := rfl

@[simp]
theorem Piece.characters_block (bytes : List Byte) : (Piece.block bytes).characters = bytes := rfl

/-- All characters of some pieces. -/
def characters (pieces : List Piece) : List Byte := pieces.flatMap Piece.characters

@[simp]
theorem characters_nil : characters [] = [] := rfl

@[simp]
theorem characters_cons (piece : Piece) (pieces : List Piece) :
    characters (piece :: pieces) = piece.characters ++ characters pieces := rfl

@[simp]
theorem characters_append (pieces pieces' : List Piece) :
    characters (pieces ++ pieces') = characters pieces ++ characters pieces' :=
  List.flatMap_append

/-- What `vsnprintf` leaves behind the write position. -/
theorem shown_sWrite (mem : ℕ → Byte) (spot room : ℕ) {formatted : List Byte}
    (hfits : formatted.length ≤ room) :
    Shown formatted (load (store mem spot
      (if room = 0 then [] else formatted.take (room - 1) ++ [0])) spot formatted.length) := by
  by_cases hroom : room = 0
  · obtain rfl : formatted = [] := List.eq_nil_of_length_eq_zero (by omega)
    exact .inl rfl
  rw [if_neg hroom]
  by_cases hlt : formatted.length < room
  · have htake : formatted.take (room - 1) = formatted := List.take_of_length_le (by omega)
    have hload := load_store mem spot (formatted ++ [0])
    rw [List.length_append, load_add] at hload
    rw [htake]
    exact .inl (List.append_inj_left hload (by simp))
  · have hne : formatted ≠ [] := fun hnil ↦ by simp [hnil] at hlt; omega
    have hlength : (formatted.dropLast ++ [(0 : Byte)]).length = formatted.length := by
      have hpos := List.length_pos_of_ne_nil hne
      simp only [List.length_append, List.length_dropLast, List.length_singleton]
      omega
    have htake : formatted.take (room - 1) = formatted.dropLast := by
      rw [List.dropLast_eq_take]
      congr 1
      omega
    have hload := load_store mem spot (formatted.dropLast ++ [0])
    rw [hlength] at hload
    rw [htake, hload]
    exact .inr ⟨formatted.dropLast, formatted.getLast hne, (List.dropLast_append_getLast hne).symm,
      rfl⟩

/-- A piece that has been put. -/
structure Put (w : WriteLoop) (piece : Piece) (n : ℕ) (w' : WriteLoop) : Prop where
  length : n = piece.characters.length
  shown : ∃ shown, Shown piece.characters shown ∧ Filled w shown w'

theorem put_shows {w w' : WriteLoop} (hle : w.userBuffer.readSpot ≤ w.userBuffer.writeSpot)
    {piece : Piece} {n : ℕ} (hput : put piece w = .ok n w') : Put w piece n w' := by
  cases piece with
  | block bytes =>
    obtain ⟨b, hwrite, rfl⟩ := onBuffer_ok hput
    obtain ⟨hn, happended⟩ := UserBuffer.appended_writeBytes hle hwrite
    exact ⟨hn, bytes, .inl rfl, rfl, rfl, happended⟩
  | formatted formatted =>
    obtain ⟨ret, w₁, hprint, hput⟩ := Op.bind_ok hput
    obtain ⟨_, w₂, hwrite, hpure⟩ := Op.bind_ok hput
    cases hpure
    obtain ⟨b₁, hprinted, rfl⟩ := onBuffer_ok hprint
    obtain ⟨b₂, hwritten, rfl⟩ := onBuffer_ok hwrite
    obtain ⟨rfl, rfl⟩ := EStateM.Result.ok.inj hprinted
    have hroom := UserBuffer.fits_of_write hwritten
    have hfits : formatted.length ≤ w.userBuffer.writeable := Nat.le_sub_of_add_le' hroom
    have happended := fun hle₁ ↦ UserBuffer.appended_write hle₁ hwritten
    obtain ⟨-, hunread, hle₂⟩ := happended hle
    refine ⟨rfl, _, shown_sWrite w.userBuffer.buffer w.userBuffer.writeSpot _ hfits, rfl, rfl,
      ?_, hle₂⟩
    rw [hunread]
    congr 1
    apply load_congr
    intro i _ hi
    apply store_of_lt
    exact hi.trans_eq (Nat.add_sub_cancel' hle)

/-- Pieces that have been put one after another. -/
theorem putAll_shows {w w' : WriteLoop} (hle : w.userBuffer.readSpot ≤ w.userBuffer.writeSpot)
    {pieces : List Piece} {n : ℕ} (hput : putAll pieces w = .ok n w') :
    n = (characters pieces).length ∧ ∃ showns, List.Forall₂
      (fun piece shown ↦ Shown (Piece.characters piece) shown) pieces showns ∧
        Filled w showns.flatten w' := by
  induction pieces generalizing w n with
  | nil =>
    cases hput
    exact ⟨rfl, [], .nil, rfl, rfl, by simp, hle⟩
  | cons piece pieces ih =>
    obtain ⟨first, w₁, hfirst, hput⟩ := Op.bind_ok hput
    obtain ⟨rest, w₂, hrest, hpure⟩ := Op.bind_ok hput
    cases hpure
    obtain ⟨hlength, shown, hshown, hfilled⟩ := put_shows hle hfirst
    obtain ⟨hlength', showns, hshowns, hfilled'⟩ := ih hfilled.appended.readSpot_le hrest
    refine ⟨?_, shown :: showns, .cons hshown hshowns, hfilled'.que.trans hfilled.que,
      hfilled'.outlet.trans hfilled.outlet, ?_, hfilled'.appended.readSpot_le⟩
    · rw [hlength, hlength', characters_cons, List.length_append]
    · rw [hfilled'.appended.unread, hfilled.appended.unread, List.append_assoc, List.flatten_cons]

theorem putAll_append {w w' : WriteLoop} {pieces pieces' : List Piece} {n : ℕ}
    (hput : putAll (pieces ++ pieces') w = .ok n w') : ∃ first w₁ second,
      putAll pieces w = .ok first w₁ ∧ putAll pieces' w₁ = .ok second w' ∧ n = first + second := by
  induction pieces generalizing w n with
  | nil => exact ⟨0, w, n, rfl, hput, (Nat.zero_add n).symm⟩
  | cons piece pieces ih =>
    obtain ⟨head, w₀, hhead, hput⟩ := Op.bind_ok hput
    obtain ⟨rest, w₂, hrest, hpure⟩ := Op.bind_ok hput
    cases hpure
    obtain ⟨first, w₁, second, hfirst, hsecond, rfl⟩ := ih hrest
    have hpieces : putAll (piece :: pieces) w = .ok (head + first) w₁ :=
      (Op.bind_of_ok hhead).trans (Op.bind_of_ok hfirst)
    exact ⟨head + first, w₁, second, hpieces, hsecond, (Nat.add_assoc _ _ _).symm⟩

/-! ## Room in the buffer -/

/-- The buffer after some bytes have been written behind the others. -/
structure Grown (w : WriteLoop) (n : ℕ) (w' : WriteLoop) : Prop where
  readSpot : w'.userBuffer.readSpot = w.userBuffer.readSpot
  writeSpot : w'.userBuffer.writeSpot = w.userBuffer.writeSpot + n
  bufferSize : w'.userBuffer.bufferSize = w.userBuffer.bufferSize

/-- In the lower half of the buffer nothing is shifted, so that a piece can be put exactly if there
is room for it. -/
theorem put_room {w : WriteLoop} (hlow : w.userBuffer.readSpot < w.userBuffer.bufferSize / 2)
    (piece : Piece) :
    if w.userBuffer.writeSpot + piece.characters.length ≤ w.userBuffer.bufferSize then
      ∃ w', put piece w = .ok piece.characters.length w' ∧ Grown w piece.characters.length w'
    else ∃ w', put piece w = .error .outOfRange w' := by
  cases piece with
  | block bytes =>
    have hwrite := UserBuffer.writeBytes_of_low hlow bytes
    by_cases hfits : w.userBuffer.writeSpot + bytes.length ≤ w.userBuffer.bufferSize
    · have hput : put (.block bytes) w = .ok bytes.length
          { w with userBuffer := w.userBuffer.stored bytes hfits } := by
        have happend : w.userBuffer.append bytes =
            .ok bytes.length (w.userBuffer.stored bytes hfits) := dif_pos hfits
        simp only [put, writeBytes, onBuffer, hwrite, happend]
      exact (if_pos hfits).mpr ⟨_, hput, rfl, rfl, rfl⟩
    · have hput : put (.block bytes) w = .error .outOfRange w := by
        have happend : w.userBuffer.append bytes = .error .outOfRange w.userBuffer := dif_neg hfits
        simp only [put, writeBytes, onBuffer, hwrite, happend]
      exact (if_neg hfits).mpr ⟨_, hput⟩
  | formatted formatted =>
    obtain ⟨buffer, hprint, -⟩ := UserBuffer.sWrite_eq w.userBuffer formatted
    have hprinted : onBuffer (UserBuffer.sWrite formatted) w =
        .ok formatted.length { w with userBuffer.buffer := buffer } := by
      unfold onBuffer
      rw [hprint]
    have hput : put (.formatted formatted) w = (do
        let _ ← write formatted.length
        pure formatted.length) { w with userBuffer.buffer := buffer } := Op.bind_of_ok hprinted
    by_cases hfits : w.userBuffer.writeSpot + formatted.length ≤ w.userBuffer.bufferSize
    · have hwrite := @UserBuffer.write_of_low { w.userBuffer with buffer := buffer } hlow _ hfits
      have hwritten : write formatted.length { w with userBuffer.buffer := buffer } =
          .ok formatted.length { w with userBuffer := { w.userBuffer with
            buffer := buffer
            writeSpot := w.userBuffer.writeSpot + formatted.length
            writeSpot_le := hfits } } := by
        unfold write onBuffer
        rw [hwrite]
      exact (if_pos hfits).mpr ⟨_, hput.trans (Op.bind_of_ok hwritten), rfl, rfl, rfl⟩
    · have hwritten : write formatted.length { w with userBuffer.buffer := buffer } =
          .error .outOfRange { w with userBuffer.buffer := buffer } := by
        unfold write onBuffer UserBuffer.write
        rw [dif_neg hfits]
      exact (if_neg hfits).mpr ⟨_, hput.trans (Op.bind_of_error hwritten)⟩

/-- Pieces can be put exactly if there is room for all of them. -/
theorem putAll_room {w : WriteLoop} (hlow : w.userBuffer.readSpot < w.userBuffer.bufferSize / 2)
    (pieces : List Piece) :
    if w.userBuffer.writeSpot + (characters pieces).length ≤ w.userBuffer.bufferSize then
      ∃ w', putAll pieces w = .ok (characters pieces).length w' ∧
        Grown w (characters pieces).length w'
    else ∃ w', putAll pieces w = .error .outOfRange w' := by
  induction pieces generalizing w with
  | nil =>
    exact (if_pos w.userBuffer.writeSpot_le).mpr ⟨w, rfl, rfl, rfl, rfl⟩
  | cons piece pieces ih =>
    have hfirst := put_room hlow piece
    rw [characters_cons, List.length_append]
    unfold putAll
    by_cases hroom : w.userBuffer.writeSpot + piece.characters.length ≤ w.userBuffer.bufferSize
    · rw [if_pos hroom] at hfirst
      obtain ⟨w₁, hput, hread, hwrite, hsize⟩ := hfirst
      have hlow₁ : w₁.userBuffer.readSpot < w₁.userBuffer.bufferSize / 2 := by
        rw [hread, hsize]
        exact hlow
      have hrest := ih hlow₁
      rw [hwrite, hsize, Nat.add_assoc] at hrest
      by_cases hall : w.userBuffer.writeSpot + (piece.characters.length +
          (characters pieces).length) ≤ w.userBuffer.bufferSize
      · rw [if_pos hall] at hrest
        obtain ⟨w₂, hputAll, hread', hwrite', hsize'⟩ := hrest
        rw [if_pos hall, Op.bind_of_ok hput, Op.bind_of_ok hputAll]
        exact ⟨w₂, rfl, hread'.trans hread, by rw [hwrite', hwrite, Nat.add_assoc],
          hsize'.trans hsize⟩
      · rw [if_neg hall] at hrest
        obtain ⟨w₂, hputAll⟩ := hrest
        rw [if_neg hall, Op.bind_of_ok hput, Op.bind_of_error hputAll]
        exact ⟨w₂, rfl⟩
    · rw [if_neg hroom] at hfirst
      obtain ⟨w₁, hput⟩ := hfirst
      rw [if_neg (by omega), Op.bind_of_error hput]
      exact ⟨w₁, rfl⟩

end WriteLoop

end LWebServer
