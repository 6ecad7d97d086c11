import Mathlib.Data.List.Nodup
import Mathlib.Logic.Function.Basic
import Mathlib.Logic.Relation

/-!
# Linked chains

Nodes that point to the next one. A chain lists the nodes of a linked list in order: what each of
them points to is the one that comes after it, and the last one points to nothing.
-/

namespace LWebServer

variable {ν : Type*}

/-- The pointers of the nodes of a chain. -/
def Linked (next : ν → Option ν) (chain : List ν) : Prop :=
  ∀ i a, chain[i]? = some a → next a = chain[i + 1]?

/-- A node is at one place of a chain only. -/
theorem index_unique {chain : List ν} {a : ν} {i j : ℕ} (hnodup : chain.Nodup)
    (hi : chain[i]? = some a) (hj : chain[j]? = some a) : i = j := by
  have hlt := (List.getElem?_eq_some_iff.mp hi).1
  exact (List.getElem?_inj hlt hnodup).mp (hi.trans hj.symm)

namespace Linked

variable {next : ν → Option ν} {chain : List ν} {a b : ν} {i j : ℕ}

theorem singleton (hnext : next a = none) : Linked next [a] := by
  intro i b hb
  obtain ⟨hlt, rfl⟩ := List.getElem?_eq_some_iff.mp hb
  have hzero : i = 0 := by simpa using hlt
  subst hzero
  exact hnext

/-- A node points to what comes after it. -/
theorem next_eq_some (hlinked : Linked next chain) (ha : chain[i]? = some a)
    (hnext : next a = some b) : chain[i + 1]? = some b :=
  (hlinked i a ha).symm.trans hnext

/-- A node that points to nothing is the last one. -/
theorem length_eq (hlinked : Linked next chain) (ha : chain[i]? = some a) (hnext : next a = none) :
    chain.length = i + 1 := by
  have hlt := (List.getElem?_eq_some_iff.mp ha).1
  have hend : chain[i + 1]? = none := (hlinked i a ha).symm.trans hnext
  have hge := List.getElem?_eq_none_iff.mp hend
  omega

/-- Pointers of other nodes do not matter. -/
theorem congr {next' : ν → Option ν} (hlinked : Linked next chain)
    (hsame : ∀ a ∈ chain, next' a = next a) : Linked next' chain :=
  fun i a ha ↦ (hsame a (List.mem_of_getElem? ha)).trans (hlinked i a ha)

/-- The last node is made to point to a node that is not in the chain. -/
theorem snoc [DecidableEq ν] (hlinked : Linked next chain) (hnodup : chain.Nodup)
    (ha : chain[i]? = some a) (hlast : next a = none) (hfresh : b ∉ chain)
    (hnext : next b = none) : Linked (Function.update next a (some b)) (chain ++ [b]) := by
  have hlength := hlinked.length_eq ha hlast
  intro j c hc
  by_cases hj : j < chain.length
  · rw [List.getElem?_append_left hj] at hc
    by_cases hca : c = a
    · have hji : j = i := index_unique hnodup hc (hca ▸ ha)
      rw [hca, Function.update_self, hji, ← hlength, List.getElem?_concat_length]
    · rw [Function.update_of_ne hca, hlinked j c hc]
      by_cases hnextj : j + 1 < chain.length
      · rw [List.getElem?_append_left hnextj]
      · have hji : j = i := by omega
        rw [hji, ha] at hc
        exact absurd (Option.some.inj hc).symm hca
  · have hlt := (List.getElem?_eq_some_iff.mp hc).1
    rw [List.length_append, List.length_singleton] at hlt
    have hjlength : j = chain.length := by omega
    rw [hjlength, List.getElem?_concat_length] at hc
    cases hc
    have hne : b ≠ a := fun h ↦ hfresh (h ▸ List.mem_of_getElem? ha)
    rw [Function.update_of_ne hne, hnext, hjlength]
    exact (List.getElem?_eq_none (by simp)).symm

/-- From a node one gets to every later one along the pointers. -/
theorem reaches (hlinked : Linked next chain) (ha : chain[i]? = some a) (hb : chain[j]? = some b)
    (hle : i ≤ j) : Relation.ReflTransGen (fun a b ↦ next a = some b) a b := by
  induction hle generalizing b with
  | refl =>
    cases ha.symm.trans hb
    exact .refl
  | @step j hle ih =>
    have hlt := (List.getElem?_eq_some_iff.mp hb).1
    obtain ⟨c, hc⟩ : ∃ c, chain[j]? = some c :=
      ⟨_, List.getElem?_eq_getElem (Nat.lt_of_succ_lt hlt)⟩
    exact (ih hc).tail ((hlinked j c hc).trans hb)

end Linked

end LWebServer
