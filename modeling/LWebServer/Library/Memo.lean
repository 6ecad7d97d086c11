import Mathlib.Data.List.Chain

/-!
# Remembering one result

A function of a setting and a key keeps its last key with the result, and gives the result again as
long as the key stays the same, whatever has become of the setting.
-/

namespace LWebServer

/-- The last key with its result. -/
@[ext]
structure Memo (κ ν : Type*) where
  key : κ
  result : ν

namespace Memo

variable {γ κ ν : Type*} [DecidableEq κ] (compute : γ → κ → ν)

/-- What is remembered behind a call. -/
def fetch (setting : γ) (key : κ) (memo : Memo κ ν) : Memo κ ν :=
  if key ≠ memo.key then ⟨key, compute setting key⟩ else memo

/-- The results of calls in order, each with the setting at its time. -/
def results : Memo κ ν → List (γ × κ) → List ν
  | _, [] => []
  | memo, (setting, key) :: calls =>
    (fetch compute setting key memo).result :: results (fetch compute setting key memo) calls

/-- The first call finds nothing for its key, or the right result, and two calls after each other
with the same key have the same result under their settings. -/
def Steady (memo : Memo κ ν) (calls : List (γ × κ)) : Prop :=
  (∀ call, calls.head? = some call → call.2 = memo.key → memo.result = compute call.1 call.2) ∧
    calls.IsChain fun earlier later ↦
      later.2 = earlier.2 → compute earlier.1 earlier.2 = compute later.1 later.2

variable {compute} {memo : Memo κ ν} {setting : γ} {key : κ} {calls : List (γ × κ)}

@[simp]
theorem key_fetch : (fetch compute setting key memo).key = key := by
  unfold fetch
  split_ifs with hkey
  · rfl
  · exact (not_not.1 hkey).symm

/-- A call is right if nothing is found for its key, or the right result. -/
theorem result_fetch_iff :
    (fetch compute setting key memo).result = compute setting key ↔
      (key = memo.key → memo.result = compute setting key) := by
  unfold fetch
  split_ifs with hkey
  · exact iff_of_true rfl fun h ↦ absurd h hkey
  · exact ⟨fun h _ ↦ h, fun h ↦ h (not_not.1 hkey)⟩

omit [DecidableEq κ] in
/-- Behind a right call, the others are steady if they were before. -/
theorem steady_cons :
    Steady compute memo ((setting, key) :: calls) ↔
      (key = memo.key → memo.result = compute setting key) ∧
        Steady compute ⟨key, compute setting key⟩ calls := by
  have hhead : (∀ call, ((setting, key) :: calls).head? = some call → call.2 = memo.key →
      memo.result = compute call.1 call.2) ↔
      (key = memo.key → memo.result = compute setting key) := by
    constructor
    · intro hall
      exact hall (setting, key) rfl
    · intro hright call hcall
      obtain rfl := Option.some.inj hcall
      exact hright
  unfold Steady
  rw [hhead]
  cases calls with
  | nil => simp
  | cons call calls =>
    rw [List.isChain_cons_cons]
    simp

/-- The results are all right exactly if the calls are steady. -/
theorem results_eq_iff :
    results compute memo calls = calls.map (fun call ↦ compute call.1 call.2) ↔
      Steady compute memo calls := by
  induction calls generalizing memo with
  | nil => simp [results, Steady]
  | cons call calls ih =>
    obtain ⟨setting, key⟩ := call
    rw [results, List.map_cons, List.cons.injEq, result_fetch_iff, steady_cons]
    apply and_congr_right
    intro hright
    have hmemo : fetch compute setting key memo = ⟨key, compute setting key⟩ := by
      ext
      · exact key_fetch
      · exact result_fetch_iff.2 hright
    rw [hmemo]
    exact ih

end Memo

end LWebServer
