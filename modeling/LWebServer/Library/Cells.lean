import Mathlib.Data.List.Basic

/-!
# Writing into an array

A write into an array is undefined where the array has no cell. Cells that are written one after the
other are a block.
-/

namespace LWebServer.Cells

variable {α : Type*}

/-- Write one cell. -/
def poke (cells : List α) (spot : ℕ) (cell : α) : Option (List α) :=
  if spot < cells.length then some (cells.set spot cell) else none

/-- Write a block. -/
def copy (cells : List α) : ℕ → List α → Option (List α)
  | _, [] => some cells
  | spot, cell :: block => (poke cells spot cell).bind fun cells ↦ copy cells (spot + 1) block

/-- Reverse the cells from `first` to before `last`. -/
def reverse (first last : ℕ) (cells : List α) : List α :=
  cells.take first ++ ((cells.take last).drop first).reverse ++ cells.drop last

variable {cells : List α} {spot : ℕ}

theorem copy_append (first second : List α) :
    copy cells spot (first ++ second) =
      (copy cells spot first).bind fun cells ↦ copy cells (spot + first.length) second := by
  induction first generalizing cells spot with
  | nil => rfl
  | cons cell first ih =>
    rw [List.cons_append, copy, copy, Option.bind_assoc]
    congr 1
    funext cells
    rw [ih, List.length_cons, Nat.add_assoc, Nat.add_comm 1]

/-- A block that has room is written, and nothing else changes. -/
theorem copy_eq_some {block : List α} (hroom : spot + block.length ≤ cells.length) :
    copy cells spot block =
      some (cells.take spot ++ block ++ cells.drop (spot + block.length)) := by
  induction block generalizing cells spot with
  | nil => simp [copy]
  | cons cell block ih =>
    rw [List.length_cons] at hroom
    have hspot : spot < cells.length := by omega
    have hnext : spot + 1 + block.length ≤ (cells.set spot cell).length := by
      rw [List.length_set]
      omega
    have htake : (cells.set spot cell).take (spot + 1) = cells.take spot ++ [cell] := by
      have hlength : (cells.take spot).length = spot :=
        List.length_take_of_le (Nat.le_of_lt hspot)
      rw [List.take_set, List.take_succ_eq_append_getElem hspot,
        List.set_append_right _ _ (Nat.le_of_eq hlength), hlength, Nat.sub_self]
      rfl
    have hdrop : (cells.set spot cell).drop (spot + 1 + block.length) =
        cells.drop (spot + (cell :: block).length) := by
      rw [List.drop_set_of_lt (by omega), List.length_cons, Nat.add_right_comm, Nat.add_assoc]
    rw [copy, poke, if_pos hspot, Option.bind_some, ih hnext, htake, hdrop,
      List.append_assoc (cells.take spot), List.singleton_append]

/-- The cells of a block are reversed. -/
theorem reverse_append (front block back : List α) :
    reverse front.length (front.length + block.length) (front ++ block ++ back) =
      front ++ block.reverse ++ back := by
  have htake : (front ++ block ++ back).take (front.length + block.length) = front ++ block := by
    rw [← List.length_append, List.take_left]
  have hdrop : (front ++ block ++ back).drop (front.length + block.length) = back := by
    rw [← List.length_append, List.drop_left]
  rw [reverse, htake, hdrop, List.drop_left, List.append_assoc front, List.take_left]

/-- Cells that are written backwards, with one more behind them, and then turned round. -/
theorem copy_reverse {block : List α} {last : α}
    (hroom : spot + (block.length + 1) ≤ cells.length) :
    (copy cells spot (block.reverse ++ [last])).map (reverse spot (spot + block.length)) =
      some (cells.take spot ++ block ++ last :: cells.drop (spot + (block.length + 1))) := by
  have hblock : (block.reverse ++ [last]).length = block.length + 1 := by simp
  have hspot : (cells.take spot).length = spot := List.length_take_of_le (by omega)
  have hreverse := reverse_append (cells.take spot) block.reverse
    (last :: cells.drop (spot + (block.length + 1)))
  rw [List.length_reverse, List.reverse_reverse, hspot] at hreverse
  rw [copy_eq_some (by rw [hblock]; exact hroom), hblock, Option.map_some, ← hreverse]
  simp

end LWebServer.Cells
