import Mathlib.Data.List.Basic
import Mathlib.Tactic.Ring

/-!
# Addressed memory

A memory is a function from addresses to cells. `load` reads a block of consecutive cells and
`store` overwrites one. The lemmas say how blocks concatenate and which writes a read does not
see; nothing here fixes the cell type or a size.
-/

namespace LWebServer.Memory

variable {α : Type*}

/-- The block of `count` cells that starts at `spot`. -/
def load (mem : ℕ → α) (spot count : ℕ) : List α :=
  (List.range count).map fun i ↦ mem (spot + i)

/-- Overwrite the cells from `spot` on with `block`. -/
def store (mem : ℕ → α) (spot : ℕ) (block : List α) : ℕ → α :=
  fun i ↦ if i < spot then mem i else (block[i - spot]?).getD (mem i)

/-! ## Reading -/

@[simp]
theorem length_load (mem : ℕ → α) (spot count : ℕ) : (load mem spot count).length = count := by
  simp [load]

@[simp]
theorem load_zero (mem : ℕ → α) (spot : ℕ) : load mem spot 0 = [] := rfl

theorem load_succ (mem : ℕ → α) (spot count : ℕ) :
    load mem spot (count + 1) = mem spot :: load mem (spot + 1) count := by
  simp only [load, List.range_succ_eq_map, List.map_cons, List.map_map, Nat.add_zero]
  congr 1
  apply List.map_congr_left
  intro i _
  simp only [Function.comp_apply]
  congr 1
  omega

theorem load_succ_last (mem : ℕ → α) (spot count : ℕ) :
    load mem spot (count + 1) = load mem spot count ++ [mem (spot + count)] := by
  simp [load, List.range_succ]

theorem load_add (mem : ℕ → α) (spot first second : ℕ) :
    load mem spot (first + second) = load mem spot first ++ load mem (spot + first) second := by
  induction second with
  | zero => simp
  | succ n ih =>
    rw [← Nat.add_assoc, load_succ_last, ih, load_succ_last, List.append_assoc, Nat.add_assoc]

theorem getElem?_load (mem : ℕ → α) (spot count i : ℕ) (hi : i < count) :
    (load mem spot count)[i]? = some (mem (spot + i)) := by
  simp [load, hi]

/-- Two memories that agree on a block read it alike. -/
theorem load_congr {mem mem' : ℕ → α} {spot count : ℕ}
    (hagree : ∀ i, spot ≤ i → i < spot + count → mem i = mem' i) :
    load mem spot count = load mem' spot count := by
  apply List.map_congr_left
  intro i hi
  have hlt : i < count := List.mem_range.mp hi
  exact hagree _ (by omega) (by omega)

/-- A block that splits as `first ++ second` is read in two steps. -/
theorem load_eq_append {mem : ℕ → α} {spot count : ℕ} {first second : List α}
    (hload : load mem spot count = first ++ second) :
    load mem spot first.length = first ∧
      load mem (spot + first.length) second.length = second := by
  have hcount : count = first.length + second.length := by
    simpa using congrArg List.length hload
  rw [hcount, load_add] at hload
  exact List.append_inj hload (by simp)

/-! ## Writing -/

theorem store_of_lt (mem : ℕ → α) {spot i : ℕ} (block : List α) (hi : i < spot) :
    store mem spot block i = mem i := by
  simp [store, hi]

theorem store_of_ge (mem : ℕ → α) {spot i : ℕ} (block : List α) (hi : spot + block.length ≤ i) :
    store mem spot block i = mem i := by
  unfold store
  have hbeyond : block.length ≤ i - spot := by omega
  simp [List.getElem?_eq_none hbeyond]

/-- The block just written is read back. -/
@[simp]
theorem load_store (mem : ℕ → α) (spot : ℕ) (block : List α) :
    load (store mem spot block) spot block.length = block := by
  apply List.ext_getElem?
  intro i
  by_cases hi : i < block.length
  · rw [getElem?_load _ _ _ _ hi]
    simp [store, hi]
  · have hge : block.length ≤ i := Nat.le_of_not_lt hi
    simp [hge]

/-- A block below the written one keeps its content. -/
theorem load_store_below (mem : ℕ → α) {spot count written : ℕ} (block : List α)
    (hbelow : spot + count ≤ written) :
    load (store mem written block) spot count = load mem spot count :=
  load_congr fun i _ hi ↦ store_of_lt mem block (by omega)

/-- Writing right after a block extends it. -/
theorem load_store_extend (mem : ℕ → α) (spot count : ℕ) (block : List α) :
    load (store mem (spot + count) block) spot (count + block.length) =
      load mem spot count ++ block := by
  rw [load_add, load_store_below mem block le_rfl, load_store]

end LWebServer.Memory
