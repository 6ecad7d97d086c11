import LWebServer.Tool.Weights

/-!
# How even the distribution is

Between two extractions `Distribution` goes by the same weights. However often it has been called,
and whichever calls are looked at, no thread has been picked much more often or much less often than
its weight says; a thread without weight is not picked, and where no thread has any weight they all
go to the first one.
-/

namespace LWebServer

open Apportion Schedule

/-- A balancer at work: whether there has been an extraction, and the threads that `Distribution`
has picked since. -/
structure Balancing (n : ℕ) where
  balance : LoadBalance n
  extracted : Bool
  picked : List (Fin n)

namespace Balancing

variable {n : ℕ}

/-- What the accept thread asks of the balancer. -/
inductive Act where
  | distribution
  | extract (items : List ThreadLoadData)

def step [NeZero n] : Act → Balancing n → Option (Balancing n)
  | .distribution, s =>
    let (index, balance) := s.balance.distribution
    some { s with balance := balance, picked := s.picked ++ [index] }
  | .extract items, s => (s.balance.extract items).map fun balance ↦
    { balance := balance, extracted := true, picked := [] }

/-- A balancer that has not been used. -/
def new (balance : LoadBalance n) : Balancing n where
  balance := balance
  extracted := false
  picked := []

/-- The sum of the weights. -/
def total (s : Balancing n) : ℤ := ∑ i, s.balance.weights i

/-- The picks since the last extraction, if the weights are such that `TotalWeight` is right. With
`calls` of them, a thread of weight `w` has got less than one more, and `n - 1` less at most, than
`calls * w / total`; of consecutive ones, less than `n` more and less than `n` less. -/
structure Even (s : Balancing n) : Prop where
  ahead : 0 < s.total → ∀ i,
    s.picked.count i * s.total < s.picked.length * s.balance.weights i + s.total
  behind : 0 < s.total → ∀ i,
    s.picked.length * s.balance.weights i + s.total ≤ s.picked.count i * s.total + n * s.total
  between : 0 < s.total → ∀ before during, before ++ during <+: s.picked → ∀ i,
    |during.count i * s.total - during.length * s.balance.weights i| < n * s.total
  unpicked : 0 < s.total → ∀ i, s.balance.weights i = 0 → i ∉ s.picked
  idle : s.total = 0 → ∀ i ∈ s.picked, i.val = 0

/-- A balancer that counts right. -/
structure Regular (s : Balancing n) : Prop where
  totalWeight : s.balance.totalWeight = s.total
  currentWeight : s.balance.currentWeight = serveAll s.balance.weights s.total s.picked 0
  level : 0 < s.total → ∀ past, past <+: s.picked →
    Level s.total (serveAll s.balance.weights s.total past 0)
  idle : s.total = 0 → ∀ i ∈ s.picked, i.val = 0

theorem weights_of_total {s : Balancing n} (hzero : s.total = 0) (i : Fin n) :
    s.balance.weights i = 0 :=
  (Finset.sum_eq_zero_iff_of_nonneg fun i _ ↦ s.balance.weights_nonneg i).mp hzero i
    (Finset.mem_univ i)

theorem Regular.even {s : Balancing n} (hregular : s.Regular) : s.Even := by
  have hahead (hpos : 0 < s.total) (i : Fin n) :
      s.picked.count i * s.total < s.picked.length * s.balance.weights i + s.total := by
    have hcount := (hregular.level hpos s.picked (List.prefix_refl _)).count_lt i
    simpa using hcount
  refine ⟨hahead, fun hpos i ↦ ?_, fun hpos before during hpast i ↦ ?_,
    fun hpos i hzero hmem ↦ ?_, hregular.idle⟩
  · have hcount := (hregular.level hpos s.picked (List.prefix_refl _)).le_count i
    simpa using hcount
  · have hbefore := hregular.level hpos before ((List.prefix_append before during).trans hpast)
    have hafter := hregular.level hpos (before ++ during) hpast
    rw [serveAll_append] at hafter
    have hless := hafter.count_lt i
    have hmore := hafter.le_count i
    have habove := hbefore.above i
    have hle := hbefore.le i
    rw [Fintype.card_fin] at hmore hle
    rw [abs_lt]
    constructor <;> linarith
  · have hcount := hahead hpos i
    rw [hzero, mul_zero, zero_add] at hcount
    have hone : 1 ≤ s.picked.count i := List.one_le_count_iff.mpr hmem
    have hless : (s.picked.count i : ℤ) < 1 := by
      by_contra hge
      have hmul : 1 * s.total ≤ s.picked.count i * s.total :=
        mul_le_mul_of_nonneg_right (not_lt.mp hge) hpos.le
      linarith
    omega

section

variable [NeZero n] {s s' : Balancing n}

/-- Without weights the first thread is picked. -/
theorem distribution_of_idle (hregular : s.Regular) (hzero : s.total = 0) :
    s.balance.distribution.1 = 0 := by
  have hserved (served : List (Fin n)) (balance : Fin n → ℤ) :
      serveAll s.balance.weights s.total served balance = balance := by
    funext i
    rw [serveAll_apply, weights_of_total hzero, hzero]
    ring
  have hcredited (i : Fin n) : s.balance.credited i = 0 := by
    unfold LoadBalance.credited
    rw [hregular.currentWeight, hserved, Pi.zero_apply, zero_add]
    exact weights_of_total hzero i
  have hscan (elements : List (Fin n)) : elements.foldl (fun largest i ↦
      if s.balance.credited largest < s.balance.credited i then i else largest) 0 = 0 := by
    induction elements with
    | nil => rfl
    | cons i elements ih =>
      rw [List.foldl_cons, hcredited, hcredited, if_neg (lt_irrefl 0)]
      exact ih
  exact hscan (List.finRange n)

theorem regular_distribution (hregular : s.Regular) (hstep : step .distribution s = some s') :
    s'.Regular := by
  cases hstep
  have hserved : serveAll s.balance.weights s.total (s.picked ++ [s.balance.distribution.1]) 0 =
      s.balance.distribution.2.currentWeight := by
    rw [serveAll_append, ← hregular.currentWeight, LoadBalance.currentWeight_distribution,
      hregular.totalWeight]
    rfl
  refine ⟨hregular.totalWeight, hserved.symm, fun hpos past hpast ↦ ?_, fun hzero i hi ↦ ?_⟩
  · rcases List.prefix_concat_iff.mp hpast with rfl | hearlier
    · have hweighted : s.balance.Weighted :=
        ⟨hregular.totalWeight.symm, hregular.totalWeight ▸ hpos⟩
      have hlevel := hregular.level hpos s.picked (List.prefix_refl _)
      rw [← hregular.currentWeight, ← hregular.totalWeight] at hlevel
      have hnext := LoadBalance.level_distribution hweighted hlevel
      rw [hregular.totalWeight, ← hserved] at hnext
      exact hnext
    · exact hregular.level hpos past hearlier
  · rcases List.mem_append.mp hi with hearlier | hlast
    · exact hregular.idle hzero i hearlier
    · have hfirst := congrArg Fin.val (distribution_of_idle hregular hzero)
      rw [List.mem_singleton.mp hlast]
      exact hfirst

theorem regular_extract {items : List ThreadLoadData} (hstep : step (.extract items) s = some s')
    (hfits : s'.total < 2 ^ 31) : s'.Regular := by
  obtain ⟨balance, hextract, rfl⟩ := Option.map_eq_some_iff.mp hstep
  obtain ⟨b, -, rfl⟩ := Option.map_eq_some_iff.mp hextract
  have hsum : ∑ i, b.endExtract.weights i = ∑ i, b.weights i := b.sum_weights_endExtract
  refine ⟨?_, rfl, fun hpos past hpast ↦ ?_, fun _ _ hi ↦ absurd hi List.not_mem_nil⟩
  · have haccumulate : b.accumulate = ∑ i, ((b.perThreadThroughput i).toNat : ℤ) :=
      b.accumulate_eq_sum_iff.mpr (hsum ▸ hfits)
    exact haccumulate.trans hsum.symm
  · rw [List.prefix_nil.mp hpast]
    exact level_zero hpos

/-- There has been no extraction, or the balancer counts right. -/
def Sound (s : Balancing n) : Prop := s.extracted = true → s.total < 2 ^ 31 → s.Regular

theorem sound_step {act : Act} (hsound : s.Sound) (hstep : step act s = some s') : s'.Sound := by
  intro hextracted hfits
  cases act with
  | distribution =>
    have hbefore : s.Regular := by
      cases hstep
      exact hsound hextracted hfits
    exact regular_distribution hbefore hstep
  | extract items => exact regular_extract hstep hfits

/-- Whatever has been distributed and extracted: since the last extraction, if the throughputs add
up to less than 2^31, the picks are even. -/
theorem even_run (balance : LoadBalance n) (schedule : List Act) :
    Along step (new balance) (fun s ↦ s.extracted = true → s.total < 2 ^ 31 → s.Even) schedule := by
  have hstart : (new balance).Sound := fun hextracted ↦ absurd hextracted Bool.false_ne_true
  exact (along_of_invariant hstart (fun _ _ _ ↦ sound_step) schedule).imp
    fun _ hsound hextracted hfits ↦ (hsound hextracted hfits).even

/-- Two threads that have not reported anything. -/
def silent : LoadBalance 2 where
  perThreadThroughput := fun _ ↦ 0
  currentWeight := fun _ ↦ 0
  totalWeight := 0
  perThreadConnectNumber := fun _ ↦ 0
  keepData := false

/-- One thread reports twice as much as the other, and three connections are distributed. -/
theorem even_run_silent : ∃ s,
    run step [.extract [⟨2, 0, 0⟩, ⟨1, 1, 0⟩], .distribution, .distribution, .distribution]
      (new silent) = some s ∧ s.total = 3 ∧ s.picked.length = 3 ∧ s.Even := by
  have haccounted : ∃ b, LoadBalance.accountAll [⟨2, 0, 0⟩, ⟨1, 1, 0⟩] silent.beginExtract =
      some b ∧ ∑ i, b.weights i = 3 := ⟨_, rfl, by decide⟩
  obtain ⟨b, hitems, hsum⟩ := haccounted
  have hextract : LoadBalance.extract [⟨2, 0, 0⟩, ⟨1, 1, 0⟩] silent = some b.endExtract := by
    unfold LoadBalance.extract
    rw [hitems, Option.map_some]
  have hfirst : step (.extract [⟨2, 0, 0⟩, ⟨1, 1, 0⟩]) (new silent) =
      some ⟨b.endExtract, true, []⟩ := by
    simp only [step, new, hextract, Option.map_some]
  have hrun : ∃ s, run step [.extract [⟨2, 0, 0⟩, ⟨1, 1, 0⟩], .distribution, .distribution,
      .distribution] (new silent) = some s ∧ s.extracted = true ∧ s.picked.length = 3 ∧
        s.balance.weights = b.endExtract.weights := by
    refine ⟨_, by rw [run, hfirst]; rfl, rfl, rfl, rfl⟩
  obtain ⟨s, hrun, hextracted, hlength, hweights⟩ := hrun
  have htotal : s.total = 3 := by
    unfold total
    rw [hweights, b.sum_weights_endExtract, hsum]
  exact ⟨s, hrun, htotal, hlength,
    (even_run silent _).last hrun hextracted (htotal.trans_lt (by decide))⟩

end

end Balancing

end LWebServer
