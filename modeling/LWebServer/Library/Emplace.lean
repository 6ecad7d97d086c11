import Mathlib.Data.List.Induction
import Mathlib.Data.List.Nodup
import Mathlib.Data.List.Pairwise
import Mathlib.Data.List.Perm.Basic

/-!
# Maps whose hash and equality disagree

An `emplace` keeps an old entry that it finds equal. It looks at the entries of the same hash, and
may look at others. Where the hash tells keys apart that the equality identifies, or the equality
identifies keys that mean different things, the outcome depends on where it looks.
-/

namespace Emplace

variable {K V H N : Type*}

/-- What one call may do. An entry that compares equal may stop it, and must if the hashes agree. -/
inductive Step (hash : K → H) (same : K → K → Prop) :
    List (K × V) → K × V → List (K × V) → Prop
  | kept {entries : List (K × V)} {new : K × V} (hsome : ∃ old ∈ entries, same old.1 new.1) :
      Step hash same entries new entries
  | added {entries : List (K × V)} {new : K × V}
      (hnone : ∀ old ∈ entries, hash old.1 = hash new.1 → ¬ same old.1 new.1) :
      Step hash same entries new (entries ++ [new])

/-- What a sequence of calls on an empty map may lead to. -/
inductive Run (hash : K → H) (same : K → K → Prop) : List (K × V) → List (K × V) → Prop
  | nil : Run hash same [] []
  | snoc {calls entries entries' : List (K × V)} {new : K × V} (hrun : Run hash same calls entries)
      (hstep : Step hash same entries new entries') : Run hash same (calls ++ [new]) entries'

/-- The value under a name: that of the first entry, in the given order. -/
def lookup [DecidableEq N] (name : K → N) (entries : List (K × V)) (n : N) : Option V :=
  (entries.find? fun entry ↦ name entry.1 = n).map Prod.snd

section

variable [DecidableEq N] {name : K → N}

theorem lookup_append (entries more : List (K × V)) (n : N) :
    lookup name (entries ++ more) n = (lookup name entries n).or (lookup name more n) := by
  unfold lookup
  rw [List.find?_append]
  cases entries.find? fun entry ↦ name entry.1 = n <;> rfl

theorem lookup_eq_none_iff {entries : List (K × V)} {n : N} :
    lookup name entries n = none ↔ ∀ entry ∈ entries, name entry.1 ≠ n := by
  simp [lookup]

theorem exists_of_lookup_ne_none {entries : List (K × V)} {n : N}
    (hsome : lookup name entries n ≠ none) : ∃ entry ∈ entries, name entry.1 = n := by
  by_contra hnone
  push Not at hnone
  exact hsome (lookup_eq_none_iff.mpr hnone)

theorem lookup_of_mem {entries : List (K × V)} {entry : K × V} (hmem : entry ∈ entries)
    (hdistinct : (entries.map fun entry ↦ name entry.1).Nodup) :
    lookup name entries (name entry.1) = some entry.2 := by
  unfold lookup
  cases hfind : entries.find? fun other ↦ name other.1 = name entry.1 with
  | none =>
    have hnot := List.find?_eq_none.mp hfind entry hmem
    exact absurd (decide_eq_true rfl) hnot
  | some other =>
    have hname : name other.1 = name entry.1 := by simpa using List.find?_some hfind
    have hsame := List.inj_on_of_nodup_map hdistinct (List.mem_of_find?_eq_some hfind) hmem hname
    rw [hsame, Option.map_some]

/-- Where every name has one entry, their order does not matter. -/
theorem lookup_perm {entries entries' : List (K × V)} (hperm : entries'.Perm entries)
    (hdistinct : (entries.map fun entry ↦ name entry.1).Nodup) (n : N) :
    lookup name entries' n = lookup name entries n := by
  by_cases hsome : ∃ entry ∈ entries, name entry.1 = n
  · obtain ⟨entry, hmem, rfl⟩ := hsome
    have hdistinct' : (entries'.map fun entry ↦ name entry.1).Nodup :=
      (hperm.map _).nodup_iff.mpr hdistinct
    rw [lookup_of_mem hmem hdistinct, lookup_of_mem (hperm.mem_iff.mpr hmem) hdistinct']
  · push Not at hsome
    rw [lookup_eq_none_iff.mpr hsome,
      lookup_eq_none_iff.mpr fun entry hmem ↦ hsome entry (hperm.mem_iff.mp hmem)]

end

variable {hash : K → H} {same : K → K → Prop} {name : K → N} {calls entries : List (K × V)}

theorem Run.subset (hrun : Run hash same calls entries) : entries ⊆ calls := by
  induction hrun with
  | nil => exact List.Subset.refl _
  | snoc hrun hstep ih =>
    cases hstep with
    | kept hsome => exact List.subset_append_of_subset_left _ ih
    | added hnone =>
      exact List.append_subset.mpr
        ⟨List.subset_append_of_subset_left _ ih, List.subset_append_right _ _⟩

/-! ## One entry a name -/

/-- The entries have distinct names, and stand for the first calls of these names. -/
structure First [DecidableEq N] (name : K → N) (calls entries : List (K × V)) : Prop where
  distinct : (entries.map fun entry ↦ name entry.1).Nodup
  lookup_eq : ∀ n, lookup name entries n = lookup name calls n

/-- Neither the hash nor the equality tells another story than the name. -/
structure Compatible (hash : K → H) (same : K → K → Prop) (name : K → N)
    (calls : List (K × V)) : Prop where
  hash_eq : ∀ a ∈ calls, ∀ b ∈ calls, name a.1 = name b.1 → hash a.1 = hash b.1
  name_eq : ∀ a ∈ calls, ∀ b ∈ calls, same a.1 b.1 → name a.1 = name b.1

theorem Compatible.of_append {more : List (K × V)}
    (hcompatible : Compatible hash same name (calls ++ more)) :
    Compatible hash same name calls where
  hash_eq a ha b hb := hcompatible.hash_eq a (List.mem_append_left _ ha) b
    (List.mem_append_left _ hb)
  name_eq a ha b hb := hcompatible.name_eq a (List.mem_append_left _ ha) b
    (List.mem_append_left _ hb)

/-- One call. -/
theorem First.step [DecidableEq N] {entries' : List (K × V)} {new : K × V}
    (hfirst : First name calls entries) (hsubset : entries ⊆ calls)
    (hsame : ∀ old ∈ calls, name old.1 = name new.1 → same old.1 new.1)
    (hcompatible : Compatible hash same name (calls ++ [new]))
    (hstep : Step hash same entries new entries') : First name (calls ++ [new]) entries' := by
  have hnew : new ∈ calls ++ [new] := List.mem_append_right _ (List.mem_singleton_self _)
  have hold {old : K × V} (hmem : old ∈ entries) : old ∈ calls ++ [new] :=
    List.mem_append_left _ (hsubset hmem)
  cases hstep with
  | kept hsome =>
    obtain ⟨old, hmem, hequal⟩ := hsome
    have hname := hcompatible.name_eq old (hold hmem) new hnew hequal
    refine ⟨hfirst.distinct, fun n ↦ ?_⟩
    rw [lookup_append, hfirst.lookup_eq]
    by_cases hn : name new.1 = n
    · have hsome : lookup name calls n ≠ none := fun hnone ↦
        lookup_eq_none_iff.mp hnone old (hsubset hmem) (hname.trans hn)
      obtain ⟨v, hv⟩ := Option.ne_none_iff_exists'.mp hsome
      rw [hv, Option.some_or]
    · have hnone : lookup name [new] n = none := by
        rw [lookup_eq_none_iff]
        exact fun entry hmem ↦ List.mem_singleton.mp hmem ▸ hn
      rw [hnone, Option.or_none]
  | added hnone =>
    refine ⟨?_, fun n ↦ ?_⟩
    · rw [List.map_append, List.map_singleton]
      refine List.nodup_append.mpr ⟨hfirst.distinct, List.nodup_singleton _, ?_⟩
      intro n hn n' hn' heq
      obtain ⟨old, hmem, rfl⟩ := List.mem_map.mp hn
      rw [List.mem_singleton.mp hn'] at heq
      exact hnone old hmem (hcompatible.hash_eq old (hold hmem) new hnew heq)
        (hsame old (hsubset hmem) heq)
    · rw [lookup_append, lookup_append, hfirst.lookup_eq]

theorem Run.first [DecidableEq N] (hrun : Run hash same calls entries)
    (hsame : ∀ a ∈ calls, ∀ b ∈ calls, name a.1 = name b.1 → same a.1 b.1)
    (hcompatible : Compatible hash same name calls) : First name calls entries := by
  induction hrun with
  | nil => exact ⟨List.nodup_nil, fun _ ↦ rfl⟩
  | snoc hrun hstep ih =>
    have hearlier := ih (fun a ha b hb ↦
      hsame a (List.mem_append_left _ ha) b (List.mem_append_left _ hb)) hcompatible.of_append
    exact hearlier.step hrun.subset (fun old hold ↦ hsame old (List.mem_append_left _ hold) _
      (List.mem_append_right _ (List.mem_singleton_self _))) hcompatible hstep

/-! ## Two ways to look -/

/-- An `emplace` that looks at all entries keeps no two that compare equal. -/
theorem exists_run_looking_everywhere (hash : K → H) (same : K → K → Prop)
    (calls : List (K × V)) : ∃ entries, Run hash same calls entries ∧
      entries.Pairwise fun old new ↦ ¬ same old.1 new.1 := by
  classical
  induction calls using List.reverseRecOn with
  | nil => exact ⟨[], .nil, .nil⟩
  | append_singleton calls new ih =>
    obtain ⟨entries, hrun, hpairwise⟩ := ih
    by_cases hsome : ∃ old ∈ entries, same old.1 new.1
    · exact ⟨entries, hrun.snoc (.kept hsome), hpairwise⟩
    · push Not at hsome
      refine ⟨entries ++ [new], hrun.snoc (.added fun old hmem _ ↦ hsome old hmem), ?_⟩
      rw [List.pairwise_append]
      refine ⟨hpairwise, List.pairwise_singleton _ _, fun old hmem last hlast ↦ ?_⟩
      rw [List.mem_singleton.mp hlast]
      exact hsome old hmem

/-- An `emplace` that looks at the entries of the same hash alone keeps one for each hash. -/
theorem exists_run_looking_by_hash (hash : K → H) (calls : List (K × V))
    (hrefl : ∀ call ∈ calls, same call.1 call.1) : ∃ entries, Run hash same calls entries ∧
      ∀ call ∈ calls, ∃ entry ∈ entries, hash entry.1 = hash call.1 ∧ same entry.1 call.1 := by
  classical
  induction calls using List.reverseRecOn with
  | nil => exact ⟨[], .nil, fun _ h ↦ absurd h List.not_mem_nil⟩
  | append_singleton calls new ih =>
    obtain ⟨entries, hrun, hcovers⟩ := ih fun call hcall ↦ hrefl call (List.mem_append_left _ hcall)
    by_cases hsome : ∃ old ∈ entries, hash old.1 = hash new.1 ∧ same old.1 new.1
    · obtain ⟨old, hmem, hhash, hequal⟩ := hsome
      refine ⟨entries, hrun.snoc (.kept ⟨old, hmem, hequal⟩), fun call hcall ↦ ?_⟩
      rcases List.mem_append.mp hcall with hcall | hlast
      · exact hcovers call hcall
      · rw [List.mem_singleton.mp hlast]
        exact ⟨old, hmem, hhash, hequal⟩
    · push Not at hsome
      refine ⟨entries ++ [new], hrun.snoc (.added hsome), fun call hcall ↦ ?_⟩
      rcases List.mem_append.mp hcall with hcall | hlast
      · obtain ⟨entry, hmem, hentry⟩ := hcovers call hcall
        exact ⟨entry, List.mem_append_left _ hmem, hentry⟩
      · rw [List.mem_singleton.mp hlast]
        have hnew := hrefl new (List.mem_append_right _ (List.mem_singleton_self _))
        exact ⟨new, List.mem_append_right _ (List.mem_singleton_self _), rfl, hnew⟩

/-- Every outcome has one entry a name, that of its first call, exactly if the hash and the equality
are compatible with the names. -/
theorem first_iff [DecidableEq N] {sameName : N → N → Prop}
    (hsame : ∀ a ∈ calls, ∀ b ∈ calls, same a.1 b.1 ↔ sameName (name a.1) (name b.1))
    (hrefl : ∀ n, sameName n n) (hsymm : ∀ n n', sameName n n' → sameName n' n) :
    (∀ entries, Run hash same calls entries → First name calls entries) ↔
      Compatible hash same name calls := by
  have hself : ∀ a ∈ calls, ∀ b ∈ calls, name a.1 = name b.1 → same a.1 b.1 := by
    intro a ha b hb hname
    rw [hsame a ha b hb, hname]
    exact hrefl _
  constructor
  · intro hall
    have hpresent {entries : List (K × V)} (hrun : Run hash same calls entries) {call : K × V}
        (hcall : call ∈ calls) : ∃ entry ∈ entries, name entry.1 = name call.1 := by
      apply exists_of_lookup_ne_none
      rw [(hall entries hrun).lookup_eq]
      exact fun hnone ↦ lookup_eq_none_iff.mp hnone call hcall rfl
    have hnames : ∀ a ∈ calls, ∀ b ∈ calls, same a.1 b.1 → name a.1 = name b.1 := by
      intro a ha b hb hequal
      obtain ⟨entries, hrun, hpairwise⟩ := exists_run_looking_everywhere hash same calls
      obtain ⟨x, hx, hxa⟩ := hpresent hrun ha
      obtain ⟨y, hy, hyb⟩ := hpresent hrun hb
      by_contra hne
      have hapart : entries.Pairwise fun old new ↦ ¬ sameName (name old.1) (name new.1) := by
        refine hpairwise.imp_of_mem fun hold hnew hnot ↦ ?_
        rwa [← hsame _ (hrun.subset hold) _ (hrun.subset hnew)]
      have hsymmetric : Std.Symm fun old new : K × V ↦ ¬ sameName (name old.1) (name new.1) :=
        ⟨fun old new hnot hback ↦ hnot (hsymm _ _ hback)⟩
      have hother : x ≠ y := by
        rintro rfl
        exact hne (hxa.symm.trans hyb)
      apply hapart.forall hx hy hother
      rw [hxa, hyb]
      exact (hsame a ha b hb).mp hequal
    refine ⟨fun a ha b hb hname ↦ ?_, hnames⟩
    obtain ⟨entries, hrun, hcovers⟩ :=
      exists_run_looking_by_hash hash calls fun call hcall ↦ hself call hcall call hcall rfl
    obtain ⟨x, hx, hxhash, hxa⟩ := hcovers a ha
    obtain ⟨y, hy, hyhash, hyb⟩ := hcovers b hb
    have hxname := hnames x (hrun.subset hx) a ha hxa
    have hyname := hnames y (hrun.subset hy) b hb hyb
    have hone := List.inj_on_of_nodup_map (hall entries hrun).distinct hx hy
      (hxname.trans (hname.trans hyname.symm))
    rw [← hxhash, ← hyhash, hone]
  · exact fun hcompatible entries hrun ↦ hrun.first hself hcompatible

end Emplace
