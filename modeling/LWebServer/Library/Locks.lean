import Mathlib.Data.Nat.Notation
import Mathlib.Logic.Basic

/-!
# Locks that are taken in an order

A thread that waits for a lock holds only locks that come before it. Then not all threads that wait
can wait for each other: behind whoever holds what a thread waits for there is one that can go on.
-/

namespace LWebServer.Locks

variable {ι : Type*}

/-- `owner` says who holds a lock, and `wants` for which of the locks below `count` a thread
waits. -/
structure Ordered (count : ℕ) (owner : ℕ → Option ι) (wants : ι → Option ℕ) : Prop where
  lt_count : ∀ {t l}, wants t = some l → l < count
  below : ∀ {t l m}, owner l = some t → wants t = some m → l < m

/-- The thread waits for no lock, or for one that is free. -/
def Free (owner : ℕ → Option ι) (wants : ι → Option ℕ) (t : ι) : Prop :=
  ∀ l, wants t = some l → owner l = none

variable {count : ℕ} {owner : ℕ → Option ι} {wants : ι → Option ℕ}

/-- Following who waits for whom leads to a thread that can go on. -/
theorem Ordered.exists_free_owner (hordered : Ordered count owner wants) {l : ℕ} {t : ι}
    (howner : owner l = some t) : ∃ l' t', owner l' = some t' ∧ Free owner wants t' := by
  by_cases hfree : Free owner wants t
  · exact ⟨l, t, howner, hfree⟩
  · obtain ⟨m, hm⟩ := not_forall.mp hfree
    obtain ⟨hwants, htaken⟩ := Classical.not_imp.mp hm
    obtain ⟨t', howner'⟩ := Option.ne_none_iff_exists'.mp htaken
    have hlt : l < m := hordered.below howner hwants
    have hbound : m < count := hordered.lt_count hwants
    exact hordered.exists_free_owner howner'
termination_by count - l

theorem Ordered.exists_free (hordered : Ordered count owner wants) (t : ι) :
    Free owner wants t ∨ ∃ l t', owner l = some t' ∧ Free owner wants t' := by
  by_cases hfree : Free owner wants t
  · exact .inl hfree
  · obtain ⟨m, hm⟩ := not_forall.mp hfree
    obtain ⟨t', howner⟩ := Option.ne_none_iff_exists'.mp (Classical.not_imp.mp hm).2
    exact .inr (hordered.exists_free_owner howner)

end LWebServer.Locks
