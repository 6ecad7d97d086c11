import Mathlib.Algebra.BigOperators.Group.List.Basic
import Mathlib.Algebra.GroupWithZero.Nat
import Mathlib.Data.List.Infix

/-!
# Excerpts

A stream is made of excerpts where each part of it, one behind the other, is a part of one of some
texts. An excerpt tells which text it is of, and from where to where. A text can be excerpted
without gaps from its beginning on, or with gaps and repetitions, but never backwards.
-/

namespace LWebServer

/-- A part of one of some texts: so many items from a position on. -/
structure Excerpt (ι : Type*) where
  source : ι
  start : ℕ
  length : ℕ

namespace Excerpt

variable {ι α : Type*} [DecidableEq ι] {texts texts' : ι → List α} {source : ι}
  {excerpts : List (Excerpt ι)} {e : Excerpt ι} {stream : List α}

/-- The part itself. -/
def items (texts : ι → List α) (e : Excerpt ι) : List α :=
  ((texts e.source).drop e.start).take e.length

/-- The text is long enough. -/
def Within (texts : ι → List α) (e : Excerpt ι) : Prop :=
  e.start + e.length ≤ (texts e.source).length

/-- The stream consists of the excerpts, one behind the other. -/
structure Quoted (texts : ι → List α) (excerpts : List (Excerpt ι)) (stream : List α) : Prop where
  within : ∀ e ∈ excerpts, e.Within texts
  stream_eq : stream = excerpts.flatMap (items texts)

/-- The number of items that have been taken from a text. -/
def taken (source : ι) (excerpts : List (Excerpt ι)) : ℕ :=
  ((excerpts.filter (·.source = source)).map length).sum

/-- Each excerpt of the text begins where the one before it ends, and the first one at the
beginning. -/
def Contiguous (source : ι) (excerpts : List (Excerpt ι)) : Prop :=
  ∀ front e, front ++ [e] <+: excerpts → e.source = source → e.start = taken source front

/-- No excerpt of the text begins before an earlier one, or further on than as many items have been
taken before it. -/
structure Advancing (source : ι) (excerpts : List (Excerpt ι)) : Prop where
  forward : (excerpts.filter (·.source = source)).Pairwise fun e e' ↦ e.start ≤ e'.start
  reached : ∀ front e, front ++ [e] <+: excerpts → e.source = source →
    e.start ≤ taken source front

omit [DecidableEq ι] in
theorem items_eq_of_grown (hgrows : texts e.source <+: texts' e.source)
    (hwithin : e.Within texts) : e.items texts' = e.items texts := by
  obtain ⟨rest, hrest⟩ := hgrows
  unfold Within at hwithin
  unfold items
  rw [← hrest, List.drop_append_of_le_length (by omega), List.take_append_of_le_length]
  rw [List.length_drop]
  omega

omit [DecidableEq ι] in
theorem Quoted.nil (texts : ι → List α) : Quoted texts [] [] :=
  ⟨fun _ hmem ↦ absurd hmem List.not_mem_nil, rfl⟩

omit [DecidableEq ι] in
theorem Quoted.snoc (hquoted : Quoted texts excerpts stream) (hwithin : e.Within texts) :
    Quoted texts (excerpts ++ [e]) (stream ++ e.items texts) where
  within := List.forall_mem_append.2 ⟨hquoted.within, List.forall_mem_singleton.2 hwithin⟩
  stream_eq := by rw [hquoted.stream_eq, List.flatMap_append, List.flatMap_singleton]

omit [DecidableEq ι] in
/-- The texts may grow. -/
theorem Quoted.mono (hquoted : Quoted texts excerpts stream)
    (hgrows : ∀ source, texts source <+: texts' source) : Quoted texts' excerpts stream where
  within e he := (hquoted.within e he).trans (hgrows e.source).length_le
  stream_eq := by
    rw [hquoted.stream_eq]
    apply List.flatMap_congr
    intro e he
    exact (items_eq_of_grown (hgrows e.source) (hquoted.within e he)).symm

theorem taken_snoc (source : ι) (excerpts : List (Excerpt ι)) (e : Excerpt ι) :
    taken source (excerpts ++ [e]) =
      taken source excerpts + if e.source = source then e.length else 0 := by
  unfold taken
  rw [List.filter_append, List.map_append, List.sum_append, List.filter_singleton]
  split_ifs with hsource <;> simp [hsource]

/-- From a text that is not there nothing has been taken. -/
theorem taken_eq_zero (hquoted : Quoted texts excerpts stream) (hnone : texts source = []) :
    taken source excerpts = 0 := by
  apply List.sum_eq_zero
  intro count hcount
  obtain ⟨e, he, rfl⟩ := List.mem_map.1 hcount
  obtain ⟨hmem, hsource⟩ := List.mem_filter.1 he
  have hwithin := hquoted.within e hmem
  rw [Within, of_decide_eq_true hsource, hnone, List.length_nil] at hwithin
  omega

theorem Contiguous.nil (source : ι) : Contiguous source [] := by
  intro front e hfront
  simp at hfront

theorem Contiguous.snoc (hcontiguous : Contiguous source excerpts)
    (hstart : e.source = source → e.start = taken source excerpts) :
    Contiguous source (excerpts ++ [e]) := by
  intro front e' hfront hsource
  rcases List.prefix_concat_iff.1 hfront with hlast | hbefore
  · obtain ⟨rfl, heq⟩ := List.append_inj' hlast rfl
    obtain rfl := List.singleton_inj.1 heq
    exact hstart hsource
  · exact hcontiguous front e' hbefore hsource

theorem Advancing.nil (source : ι) : Advancing source [] where
  forward := List.Pairwise.nil
  reached front e hfront := by simp at hfront

theorem Advancing.snoc (hadvancing : Advancing source excerpts)
    (hforward : ∀ e' ∈ excerpts, e'.source = source → e.source = source → e'.start ≤ e.start)
    (hreached : e.source = source → e.start ≤ taken source excerpts) :
    Advancing source (excerpts ++ [e]) where
  forward := by
    rw [List.filter_append, List.pairwise_append]
    refine ⟨hadvancing.forward, ?_, ?_⟩
    · exact (List.pairwise_singleton _ e).sublist List.filter_sublist
    · intro e' he' last hlast
      obtain ⟨hmem', hsource'⟩ := List.mem_filter.1 he'
      obtain ⟨hmem, hsource⟩ := List.mem_filter.1 hlast
      obtain rfl := List.mem_singleton.1 hmem
      exact hforward e' hmem' (of_decide_eq_true hsource') (of_decide_eq_true hsource)
  reached front e' hfront hsource := by
    rcases List.prefix_concat_iff.1 hfront with hlast | hbefore
    · obtain ⟨rfl, heq⟩ := List.append_inj' hlast rfl
      obtain rfl := List.singleton_inj.1 heq
      exact hreached hsource
    · exact hadvancing.reached front e' hbefore hsource

end Excerpt

end LWebServer
