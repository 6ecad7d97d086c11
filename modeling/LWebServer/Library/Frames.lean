import Mathlib.Algebra.BigOperators.Group.List.Defs
import Mathlib.Algebra.Ring.Nat
import Mathlib.Data.List.Basic

/-!
# Streams of frames

A frame is read off the front of a stream by a function that also returns what follows it. A stream
that is a sequence of frames and nothing else is so in one way only.
-/

namespace LWebServer.Frames

variable {β φ : Type*}

/-- A stream is these frames and nothing else. -/
inductive Splits (next : List β → Option (φ × List β)) : List β → List φ → Prop where
  | nil : Splits next [] []
  | cons {b : β} {stream rest : List β} {frame : φ} {frames : List φ}
      (hnext : next (b :: stream) = some (frame, rest)) (hrest : Splits next rest frames) :
      Splits next (b :: stream) (frame :: frames)

variable {next : List β → Option (φ × List β)} {stream rest : List β} {frame : φ}
  {frames frames' : List φ}

theorem Splits.of_next (hne : stream ≠ []) (hnext : next stream = some (frame, rest))
    (hrest : Splits next rest frames) : Splits next stream (frame :: frames) := by
  cases stream with
  | nil => exact absurd rfl hne
  | cons b stream => exact .cons hnext hrest

/-- The first frame of a stream, and the others. -/
theorem Splits.after (hsplits : Splits next stream frames) (hne : stream ≠ [])
    (hnext : next stream = some (frame, rest)) :
    ∃ frames', frames = frame :: frames' ∧ Splits next rest frames' := by
  cases hsplits with
  | nil => exact absurd rfl hne
  | cons hnext' hrest =>
    rw [hnext', Option.some.injEq, Prod.mk.injEq] at hnext
    obtain ⟨rfl, rfl⟩ := hnext
    exact ⟨_, rfl, hrest⟩

theorem Splits.unique (hsplits : Splits next stream frames)
    (hsplits' : Splits next stream frames') : frames = frames' := by
  induction hsplits generalizing frames' with
  | nil =>
    cases hsplits'
    rfl
  | cons hnext _ ih =>
    obtain ⟨others, rfl, hothers⟩ := hsplits'.after (List.cons_ne_nil _ _) hnext
    rw [ih hothers]

/-- A stream that begins with encoded items is split into what they are decoded to and the frames
of the rest. -/
theorem splits_flatMap_append {ι : Type*} {encode : ι → List β} {decode : ι → φ} {items : List ι}
    (hne : ∀ item ∈ items, encode item ≠ [])
    (hnext : ∀ item ∈ items, ∀ rest, next (encode item ++ rest) = some (decode item, rest)) :
    Splits next (items.flatMap encode ++ rest) frames ↔
      ∃ frames', frames = items.map decode ++ frames' ∧ Splits next rest frames' := by
  induction items generalizing frames with
  | nil => simp
  | cons item items ih =>
    obtain ⟨hfirst, hothers⟩ := List.forall_mem_cons.mp hnext
    obtain ⟨hne', hnes⟩ := List.forall_mem_cons.mp hne
    have hstream : encode item ++ (items.flatMap encode ++ rest) ≠ [] :=
      List.append_ne_nil_of_left_ne_nil hne' _
    rw [List.flatMap_cons, List.append_assoc, List.map_cons]
    constructor
    · intro hsplits
      obtain ⟨others, rfl, hafter⟩ := hsplits.after hstream (hfirst _)
      obtain ⟨frames', rfl, hrest⟩ := (ih hnes hothers).mp hafter
      exact ⟨frames', rfl, hrest⟩
    · rintro ⟨frames', rfl, hrest⟩
      exact .of_next hstream (hfirst _) ((ih hnes hothers).mpr ⟨frames', rfl, hrest⟩)

theorem splits_flatMap {ι : Type*} {encode : ι → List β} {decode : ι → φ} {items : List ι}
    (hne : ∀ item ∈ items, encode item ≠ [])
    (hnext : ∀ item ∈ items, ∀ rest, next (encode item ++ rest) = some (decode item, rest)) :
    Splits next (items.flatMap encode) (items.map decode) := by
  have hall : Splits next (items.flatMap encode ++ []) (items.map decode ++ []) :=
    (splits_flatMap_append hne hnext).mpr ⟨[], rfl, .nil⟩
  rwa [List.append_nil, List.append_nil] at hall

/-- Where each frame weighs no more than what is read for it, all frames weigh no more than the
stream. -/
theorem Splits.weight_le (weight : φ → ℕ)
    (hweight : ∀ stream frame rest, next stream = some (frame, rest) →
      weight frame + rest.length ≤ stream.length)
    (hsplits : Splits next stream frames) : (frames.map weight).sum ≤ stream.length := by
  induction hsplits with
  | nil => exact Nat.zero_le _
  | cons hnext _ ih =>
    have hfirst := hweight _ _ _ hnext
    rw [List.map_cons, List.sum_cons]
    omega

/-- A property of every frame that is read. -/
theorem Splits.forall_mem {p : φ → Prop}
    (hp : ∀ stream frame rest, next stream = some (frame, rest) → p frame)
    (hsplits : Splits next stream frames) : ∀ frame ∈ frames, p frame := by
  induction hsplits with
  | nil => simp
  | cons hnext _ ih => exact List.forall_mem_cons.mpr ⟨hp _ _ _ hnext, ih⟩

/-- Two lists in which the first frame of a kind is marked out agree before it, at it and after
it. -/
theorem append_cons_inj {p : φ → Prop} {before before' after after' : List φ} {mark mark' : φ}
    (hbefore : ∀ frame ∈ before, ¬ p frame) (hbefore' : ∀ frame ∈ before', ¬ p frame)
    (hmark : p mark) (hmark' : p mark')
    (heq : before ++ mark :: after = before' ++ mark' :: after') :
    before = before' ∧ mark = mark' ∧ after = after' := by
  induction before generalizing before' with
  | nil =>
    cases before' with
    | nil => exact ⟨rfl, List.cons.inj heq⟩
    | cons first before' =>
      obtain ⟨rfl, -⟩ := List.cons.inj heq
      exact absurd hmark (hbefore' mark List.mem_cons_self)
  | cons first before ih =>
    cases before' with
    | nil =>
      obtain ⟨rfl, -⟩ := List.cons.inj heq
      exact absurd hmark' (hbefore first List.mem_cons_self)
    | cons first' before' =>
      obtain ⟨rfl, hrest⟩ := List.cons.inj heq
      obtain ⟨rfl, hmarks⟩ := ih (fun frame hmem ↦ hbefore frame (List.mem_cons_of_mem first hmem))
        (fun frame hmem ↦ hbefore' frame (List.mem_cons_of_mem first hmem)) hrest
      exact ⟨rfl, hmarks⟩

end LWebServer.Frames
