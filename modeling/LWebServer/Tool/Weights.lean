import LWebServer.Library.Ranking
import LWebServer.Library.Schedule
import LWebServer.Tool.LoadBalance
import Mathlib.Data.Prod.Lex

/-!
# Weights from throughputs

`ExtractDataDromLockFreeQueue` adds up what the threads report and then mirrors the sums among the
threads. `TotalWeight` is added up as an `int`, and with `KeepData` the mirrored sums are what the
next call adds to.
-/

namespace LWebServer

open Ranking Schedule

namespace LoadBalance

variable {n : ℕ} {b b' : LoadBalance n}

/-- The items that `ExtractDataDromLockFreeQueue` has popped, one after another. -/
def accountAll : List ThreadLoadData → LoadBalance n → Option (LoadBalance n)
  | [], b => some b
  | item :: items, b => (b.account item).bind (accountAll items)

/-- `ExtractDataDromLockFreeQueue`, which finds the given items in the queue. -/
def extract (items : List ThreadLoadData) (b : LoadBalance n) : Option (LoadBalance n) :=
  (accountAll items b.beginExtract).map endExtract

/-- What the items say that a thread has sent. -/
def total (items : List ThreadLoadData) (i : Fin n) : ℕ :=
  ((items.filter fun item ↦ item.threadId.toNat = i.val).map fun item ↦ item.throughput.toNat).sum

/-! ## The sum of the weights -/

theorem accumulate_eq (b : LoadBalance n) :
    b.accumulate = Int.bmod (∑ i, ((b.perThreadThroughput i).toNat : ℤ)) (2 ^ 32) := by
  have hscan (threads : List (Fin n)) (sum : ℤ) :
      threads.foldl (fun sum i ↦ Int.bmod (sum + (b.perThreadThroughput i).toNat) (2 ^ 32))
          (Int.bmod sum (2 ^ 32)) =
        Int.bmod (sum + (threads.map fun i ↦ ((b.perThreadThroughput i).toNat : ℤ)).sum)
          (2 ^ 32) := by
    induction threads generalizing sum with
    | nil => rw [List.foldl_nil, List.map_nil, List.sum_nil, add_zero]
    | cons i threads ih =>
      rw [List.foldl_cons, Int.bmod_add_bmod, ih, List.map_cons, List.sum_cons, add_assoc]
  have hall := hscan (List.finRange n) 0
  rw [zero_add, Int.zero_bmod] at hall
  rw [Fin.sum_univ_def]
  exact hall

theorem accumulate_eq_sum_iff (b : LoadBalance n) :
    b.accumulate = ∑ i, ((b.perThreadThroughput i).toNat : ℤ) ↔
      ∑ i, ((b.perThreadThroughput i).toNat : ℤ) < 2 ^ 31 := by
  have hnonneg : 0 ≤ ∑ i, ((b.perThreadThroughput i).toNat : ℤ) :=
    Finset.sum_nonneg fun i _ ↦ Int.natCast_nonneg _
  rw [accumulate_eq]
  generalize ∑ i, ((b.perThreadThroughput i).toNat : ℤ) = sum at hnonneg ⊢
  constructor
  · intro hsum
    have hlt := Int.bmod_lt (x := sum) (m := 2 ^ 32) (by decide)
    omega
  · exact fun hlt ↦ Int.bmod_eq_of_le (by omega) (by omega)

/-! ## The order of the throughputs -/

/-- By what `ExtractDataDromLockFreeQueue` sorts the threads. -/
def load (v : Fin n → UInt32) (i : Fin n) : ℕ ×ₗ Fin n := toLex ((v i).toNat, i)

theorem load_injective (v : Fin n → UInt32) : Function.Injective (load v) :=
  fun _ _ hload ↦ congrArg (fun pair ↦ (ofLex pair).2) hload

theorem le_of_load_le {v : Fin n → UInt32} {i j : Fin n} (hload : load v i ≤ load v j) :
    v i ≤ v j := by
  rcases Prod.Lex.le_iff.mp hload with hlt | ⟨heq, -⟩
  · exact UInt32.le_iff_toNat_le.mpr hlt.le
  · exact UInt32.le_iff_toNat_le.mpr heq.le

theorem load_lt_of_lt {v : Fin n → UInt32} {i j : Fin n} (hlt : v i < v j) :
    load v i < load v j :=
  Prod.Lex.lt_iff.mpr (Or.inl (UInt32.lt_iff_toNat_lt.mp hlt))

theorem ranking_perm (b : LoadBalance n) :
    b.ranking.Perm ((List.finRange n).map fun i ↦ (b.perThreadThroughput i, i)) :=
  List.mergeSort_perm _ _

theorem length_ranking (b : LoadBalance n) : b.ranking.length = n := by
  rw [b.ranking_perm.length_eq, List.length_map, List.length_finRange]

theorem fst_of_mem_ranking {b : LoadBalance n} {pair : UInt32 × Fin n}
    (hpair : pair ∈ b.ranking) : pair.1 = b.perThreadThroughput pair.2 := by
  obtain ⟨i, -, rfl⟩ := List.mem_map.mp (b.ranking_perm.mem_iff.mp hpair)
  rfl

theorem sorted_ranking (b : LoadBalance n) :
    b.ranking.Pairwise fun p q ↦ p.1 < q.1 ∨ p.1 = q.1 ∧ p.2 ≤ q.2 := by
  have htrans (p q r : UInt32 × Fin n)
      (hpq : decide (p.1 < q.1 ∨ p.1 = q.1 ∧ p.2 ≤ q.2) = true)
      (hqr : decide (q.1 < r.1 ∨ q.1 = r.1 ∧ q.2 ≤ r.2) = true) :
      decide (p.1 < r.1 ∨ p.1 = r.1 ∧ p.2 ≤ r.2) = true := by
    rw [decide_eq_true_iff] at *
    rcases hpq with hpq | ⟨hpq, hpq'⟩ <;> rcases hqr with hqr | ⟨hqr, hqr'⟩
    · exact Or.inl (UInt32.lt_trans hpq hqr)
    · exact Or.inl (hqr ▸ hpq)
    · exact Or.inl (hpq ▸ hqr)
    · exact Or.inr ⟨hpq.trans hqr, hpq'.trans hqr'⟩
  have htotal (p q : UInt32 × Fin n) :
      (decide (p.1 < q.1 ∨ p.1 = q.1 ∧ p.2 ≤ q.2) ||
        decide (q.1 < p.1 ∨ q.1 = p.1 ∧ q.2 ≤ p.2)) = true := by
    rw [Bool.or_eq_true, decide_eq_true_iff, decide_eq_true_iff]
    by_cases heq : p.1 = q.1
    · exact (le_total p.2 q.2).imp (fun h ↦ Or.inr ⟨heq, h⟩) fun h ↦ Or.inr ⟨heq.symm, h⟩
    · exact (UInt32.lt_or_lt_of_ne heq).imp Or.inl Or.inl
  exact (List.pairwise_mergeSort htrans htotal _).imp of_decide_eq_true

/-- The threads in the order of `temp`. -/
def order (b : LoadBalance n) : List (Fin n) := b.ranking.map Prod.snd

theorem order_perm (b : LoadBalance n) : b.order.Perm (List.finRange n) := by
  have hperm := b.ranking_perm.map Prod.snd
  rw [List.map_map] at hperm
  exact hperm.trans (List.Perm.of_eq (List.map_id _))

theorem sorted_order (b : LoadBalance n) :
    b.order.Pairwise fun i j ↦ load b.perThreadThroughput i < load b.perThreadThroughput j := by
  have hle : b.order.Pairwise fun i j ↦
      load b.perThreadThroughput i ≤ load b.perThreadThroughput j := by
    refine List.pairwise_map.mpr (sorted_ranking b |>.imp_of_mem fun {p q} hp hq hle ↦ ?_)
    have hp := fst_of_mem_ranking hp
    have hq := fst_of_mem_ranking hq
    rw [hp, hq] at hle
    refine Prod.Lex.le_iff.mpr (hle.imp UInt32.lt_iff_toNat_lt.mp fun h ↦ ?_)
    exact ⟨congrArg UInt32.toNat h.1, h.2⟩
  have hnodup : b.order.Nodup := b.order_perm.nodup_iff.mpr (List.nodup_finRange n)
  exact (hle.and hnodup).imp fun ⟨hle, hne⟩ ↦
    hle.lt_of_ne fun heq ↦ hne (load_injective _ heq)

theorem exchange_ranking (b : LoadBalance n) (v : Fin n → UInt32) :
    exchange b.ranking v = exchanges b.order (b.order.length / 2) v := by
  have hlength : b.order.length = n := (List.length_map _).trans b.length_ranking
  unfold exchange exchanges
  rw [hlength]
  congr 1
  funext v i
  unfold order
  rw [List.getElem?_map, List.getElem?_map]
  cases b.ranking[i]? <;> cases b.ranking[n - i - 1]? <;> rfl

/-- The exchanges mirror the throughputs. -/
theorem mirrored_endExtract (b : LoadBalance n) :
    Mirrored (load b.perThreadThroughput) b.perThreadThroughput
      b.endExtract.perThreadThroughput := by
  have hmirrored := mirrored_exchanges b.sorted_order
    (fun i ↦ b.order_perm.mem_iff.mpr (List.mem_finRange i)) b.perThreadThroughput
  rw [← exchange_ranking] at hmirrored
  exact hmirrored

/-- The weights `w` are the throughputs `v` the other way round: the thread of some rank among the
pairs of throughput and index has the throughput of the thread of the mirrored rank. -/
structure Inverts (v w : Fin n → UInt32) : Prop where
  mirrored : ∀ i j, rank (load v) i + rank (load v) j + 1 = n → w i = v j
  perm : ∃ σ : Equiv.Perm (Fin n), w = v ∘ σ
  antitone : ∀ i j, v i < v j → w j ≤ w i
  sum : ∑ i, (w i).toNat = ∑ i, (v i).toNat

theorem inverts_endExtract (b : LoadBalance n) :
    Inverts b.perThreadThroughput b.endExtract.perThreadThroughput := by
  have hcomp := b.mirrored_endExtract.eq_comp (load_injective _)
  refine ⟨fun i j hrank ↦ ?_, ⟨_, hcomp⟩, fun i j hlt ↦ ?_, ?_⟩
  · exact b.mirrored_endExtract i j (hrank.trans (Fintype.card_fin n).symm)
  · exact b.mirrored_endExtract.antitone (load_injective _) (fun _ _ ↦ le_of_load_le)
      (load_lt_of_lt hlt)
  · rw [hcomp]
    exact Equiv.sum_comp _ fun i ↦ (b.perThreadThroughput i).toNat

theorem total_cons (item : ThreadLoadData) (items : List ThreadLoadData) (i : Fin n) :
    total (item :: items) i =
      (if item.threadId.toNat = i.val then item.throughput.toNat else 0) + total items i := by
  unfold total
  by_cases hi : item.threadId.toNat = i.val
  · rw [List.filter_cons_of_pos (by simpa using hi), if_pos hi, List.map_cons, List.sum_cons]
  · rw [List.filter_cons_of_neg (by simpa using hi), if_neg hi, zero_add]

theorem account_off {item : ThreadLoadData} (hkeep : b.keepData = false)
    (hthread : item.threadId.toNat < n) :
    ∃ b', b.account item = some b' ∧ b'.keepData = false ∧ ∀ i, b'.perThreadThroughput i =
      b.perThreadThroughput i + if item.threadId.toNat = i.val then item.throughput else 0 := by
  unfold account
  rw [dif_pos hthread, if_neg (by simp [hkeep])]
  refine ⟨_, rfl, hkeep, fun i ↦ ?_⟩
  dsimp only
  by_cases hi : item.threadId.toNat = i.val
  · obtain rfl : (⟨_, hthread⟩ : Fin n) = i := Fin.ext hi
    rw [Function.update_self, if_pos rfl]
  · rw [Function.update_of_ne (fun h ↦ hi (congrArg Fin.val h).symm), if_neg hi,
      UInt32.add_zero]

/-- Without `KeepData` the items add up, as numbers of 32 bits. -/
theorem accountAll_off {items : List ThreadLoadData} (hkeep : b.keepData = false)
    (hthreads : ∀ item ∈ items, item.threadId.toNat < n) :
    ∃ b', accountAll items b = some b' ∧ ∀ i, b'.perThreadThroughput i =
      b.perThreadThroughput i + UInt32.ofNat (total items i) := by
  induction items generalizing b with
  | nil => exact ⟨b, rfl, fun i ↦ (UInt32.add_zero _).symm⟩
  | cons item items ih =>
    obtain ⟨hthread, hthreads⟩ := List.forall_mem_cons.mp hthreads
    obtain ⟨b₁, haccount, hkeep₁, hload⟩ := account_off hkeep hthread
    obtain ⟨b', hrest, hloads⟩ := ih hkeep₁ hthreads
    refine ⟨b', by rw [accountAll, haccount, Option.bind_some, hrest], fun i ↦ ?_⟩
    rw [hloads, hload, total_cons, UInt32.ofNat_add, ← UInt32.add_assoc]
    split_ifs
    · rw [UInt32.ofNat_toNat]
    · rfl

/-- Without `KeepData` the weights are the throughputs that the items add up to, inverted. -/
theorem inverts_extract (items : List ThreadLoadData) (hkeep : b.keepData = false)
    (hthreads : ∀ item ∈ items, item.threadId.toNat < n) :
    ∃ b', extract items b = some b' ∧
      Inverts (fun i ↦ UInt32.ofNat (total items i)) b'.perThreadThroughput := by
  have hbegin : b.beginExtract =
      { b with perThreadThroughput := fun _ ↦ 0, perThreadConnectNumber := fun _ ↦ 0 } := by
    simp [beginExtract, hkeep]
  obtain ⟨b', hb', hloads⟩ := accountAll_off (b := b.beginExtract) (hbegin ▸ hkeep) hthreads
  refine ⟨b'.endExtract, congrArg (Option.map endExtract) hb', ?_⟩
  have hthroughput : (fun i ↦ UInt32.ofNat (total items i)) = b'.perThreadThroughput := by
    funext i
    rw [hloads i, hbegin]
    exact (UInt32.zero_add _).symm
  rw [hthroughput]
  exact b'.inverts_endExtract

/-- Two reports of the first thread and one of the last. -/
theorem inverts_skewed :
    ∃ b', extract [⟨3, 0, 0⟩, ⟨4, 2, 0⟩, ⟨6, 0, 0⟩] skewed = some b' ∧
      Inverts (fun i ↦ UInt32.ofNat (total [⟨3, 0, 0⟩, ⟨4, 2, 0⟩, ⟨6, 0, 0⟩] i))
        b'.perThreadThroughput :=
  inverts_extract [⟨3, 0, 0⟩, ⟨4, 2, 0⟩, ⟨6, 0, 0⟩] rfl (by decide)

theorem weights_endExtract (b : LoadBalance n) :
    b.endExtract.weights = b.weights ∘ opposite (load_injective b.perThreadThroughput) := by
  have hmirrored := b.mirrored_endExtract.eq_comp (load_injective _)
  funext i
  exact congrArg (fun v : Fin n → UInt32 ↦ ((v i).toNat : ℤ)) hmirrored

theorem sum_weights_endExtract (b : LoadBalance n) :
    ∑ i, b.endExtract.weights i = ∑ i, b.weights i := by
  rw [weights_endExtract]
  exact Equiv.sum_comp _ b.weights

/-! ## The total -/

/-- `TotalWeight` is the sum of the throughputs, and the calls of `Distribution` that follow
subtract what they have added. -/
structure Totalled [NeZero n] (b : LoadBalance n) : Prop where
  totalWeight : b.endExtract.totalWeight = ∑ i, ((b.perThreadThroughput i).toNat : ℤ)
  subtracts : ∀ calls, ∑ i, (distributions calls b.endExtract).2.currentWeight i = 0

theorem sum_currentWeight_distributions [NeZero n] (hsum : ∑ i, b.weights i = b.totalWeight)
    (calls : ℕ) :
    ∑ i, (distributions calls b).2.currentWeight i = ∑ i, b.currentWeight i := by
  induction calls generalizing b with
  | zero => rfl
  | succ calls ih =>
    have hsum' : ∑ i, b.distribution.2.weights i = b.distribution.2.totalWeight := hsum
    refine (ih hsum').trans ?_
    rw [currentWeight_distribution, Apportion.sum_serve, hsum]
    ring

theorem totalled_iff [NeZero n] (b : LoadBalance n) :
    b.Totalled ↔ ∑ i, ((b.perThreadThroughput i).toNat : ℤ) < 2 ^ 31 := by
  refine Iff.trans ⟨Totalled.totalWeight, fun htotal ↦ ⟨htotal, fun calls ↦ ?_⟩⟩
    b.accumulate_eq_sum_iff
  have hsum : ∑ i, b.endExtract.weights i = b.endExtract.totalWeight :=
    b.sum_weights_endExtract.trans htotal.symm
  rw [sum_currentWeight_distributions hsum]
  exact Finset.sum_const_zero

/-- One thread that has sent 2 GiB. -/
def heavy : LoadBalance 1 where
  perThreadThroughput := fun _ ↦ 2147483648
  currentWeight := fun _ ↦ 0
  totalWeight := 0
  perThreadConnectNumber := fun _ ↦ 0
  keepData := false

theorem totalled_skewed : skewed.Totalled ↔
    ∑ i, ((skewed.perThreadThroughput i).toNat : ℤ) < 2 ^ 31 :=
  totalled_iff skewed

theorem not_totalled_heavy : ¬ heavy.Totalled := by
  intro htotalled
  have hnegative : heavy.endExtract.totalWeight = -2 ^ 31 := by decide
  have hsum : ∑ i, ((heavy.perThreadThroughput i).toNat : ℤ) = 2 ^ 31 := by decide
  have htotal := htotalled.totalWeight
  rw [hnegative, hsum] at htotal
  exact absurd htotal (by decide)

/-! ## Extraction after extraction -/

/-- What is to hold of a call that finds the items in the queue and leaves `b'`: a thread with a
larger total has no larger weight, and a call that finds nothing changes no weight. -/
structure CarriesOver (totals : Fin n → ℕ) (items : List ThreadLoadData) (b b' : LoadBalance n) :
    Prop where
  antitone : ∀ i j, totals i < totals j → b'.perThreadThroughput j ≤ b'.perThreadThroughput i
  idle : items = [] → b'.perThreadThroughput = b.perThreadThroughput

/-- After each call the weights are ordered by the totals of all calls so far. -/
def CarriesOverAll (b : LoadBalance n) (queues : List (List ThreadLoadData)) : Prop :=
  ∀ past items b₁ b₂, past ++ [items] <+: queues → run extract past b = some b₁ →
    extract items b₁ = some b₂ → CarriesOver (total (past ++ [items]).flatten) items b₁ b₂

/-- The weights before the call, with the items added as `Resize` adds them, order two threads of
different totals as the totals do, or the threads of the mirrored ranks have the same weight; and if
the queue is empty all weights are the same. -/
structure Aligned (totals : Fin n → ℕ) (items : List ThreadLoadData) (b : LoadBalance n) :
    Prop where
  ordered : ∀ b', accountAll items b = some b' → ∀ i j, totals i < totals j →
    load b'.perThreadThroughput i < load b'.perThreadThroughput j ∨
      ∀ k l, rank (load b'.perThreadThroughput) i + rank (load b'.perThreadThroughput) k + 1 = n →
        rank (load b'.perThreadThroughput) j + rank (load b'.perThreadThroughput) l + 1 = n →
        b'.perThreadThroughput k = b'.perThreadThroughput l
  idle : items = [] → ∀ i j, b.perThreadThroughput i = b.perThreadThroughput j

def AlignedAll (b : LoadBalance n) (queues : List (List ThreadLoadData)) : Prop :=
  ∀ past items b₁, past ++ [items] <+: queues → run extract past b = some b₁ →
    Aligned (total (past ++ [items]).flatten) items b₁

/-- With `KeepData` the items can be popped one after another. -/
theorem accountAll_on {items : List ThreadLoadData} (hkeep : b.keepData = true)
    (hthreads : ∀ item ∈ items, item.threadId.toNat < n) :
    ∃ b', accountAll items b = some b' ∧ b'.keepData = true := by
  induction items generalizing b with
  | nil => exact ⟨b, rfl, hkeep⟩
  | cons item items ih =>
    obtain ⟨hthread, hthreads⟩ := List.forall_mem_cons.mp hthreads
    have haccount : b.account item = some (b.resize item ⟨_, hthread⟩) := by
      unfold account
      rw [dif_pos hthread, if_pos hkeep]
    obtain ⟨b', hrest, hkeep'⟩ := ih (b := b.resize item ⟨_, hthread⟩) hkeep hthreads
    exact ⟨b', by rw [accountAll, haccount, Option.bind_some, hrest], hkeep'⟩

theorem extract_on (items : List ThreadLoadData) (hkeep : b.keepData = true)
    (hthreads : ∀ item ∈ items, item.threadId.toNat < n) :
    ∃ b', accountAll items b = some b' ∧ extract items b = some b'.endExtract ∧
      b'.endExtract.keepData = true := by
  obtain ⟨b', hb', hkeep'⟩ := accountAll_on hkeep hthreads
  refine ⟨b', hb', ?_, hkeep'⟩
  unfold extract beginExtract
  rw [if_pos hkeep, hb', Option.map_some]

theorem carriesOver_iff {totals : Fin n → ℕ} {items : List ThreadLoadData}
    (hb' : accountAll items b = some b') :
    CarriesOver totals items b b'.endExtract ↔ Aligned totals items b := by
  have hmirrored := b'.mirrored_endExtract
  have hkey := load_injective b'.perThreadThroughput
  have hfalls {i j : Fin n} (hlt : load b'.perThreadThroughput i < load b'.perThreadThroughput j) :
      b'.endExtract.perThreadThroughput j ≤ b'.endExtract.perThreadThroughput i :=
    hmirrored.antitone hkey (fun _ _ ↦ le_of_load_le) hlt
  have hself (hnil : items = []) : b' = b := by
    subst hnil
    exact (Option.some.inj hb').symm
  constructor
  · rintro ⟨hantitone, hidle⟩
    refine ⟨fun b'' hb'' i j htotals ↦ ?_, fun hnil i j ↦ ?_⟩
    · obtain rfl := Option.some.inj (hb'.symm.trans hb'')
      rcases lt_trichotomy (load b'.perThreadThroughput i) (load b'.perThreadThroughput j) with
        hlt | heq | hgt
      · exact Or.inl hlt
      · rw [hkey heq] at htotals
        exact absurd htotals (lt_irrefl _)
      · refine Or.inr fun k l hk hl ↦ ?_
        have hequal := UInt32.le_antisymm (hfalls hgt) (hantitone i j htotals)
        rw [← hmirrored i k (hk.trans (Fintype.card_fin n).symm),
          ← hmirrored j l (hl.trans (Fintype.card_fin n).symm), hequal]
    · have hsame := hidle hnil
      rw [hself hnil] at hsame hmirrored
      rw [hsame] at hmirrored
      exact hmirrored.eq_of_self (load_injective _) (fun _ _ ↦ le_of_load_le)
        (fun _ _ ↦ UInt32.le_antisymm) i j
  · rintro ⟨hordered, hidle⟩
    refine ⟨fun i j htotals ↦ ?_, fun hnil ↦ ?_⟩
    · rcases hordered b' hb' i j htotals with hlt | hequal
      · exact hfalls hlt
      · have hi := rank_opposite hkey i
        have hj := rank_opposite hkey j
        rw [hmirrored i _ hi, hmirrored j _ hj, hequal (opposite hkey i) (opposite hkey j)
          (hi.trans (Fintype.card_fin n)) (hj.trans (Fintype.card_fin n))]
        exact UInt32.le_refl _
    · obtain rfl := hself hnil
      rw [hmirrored.eq_comp hkey]
      exact funext fun i ↦ hidle hnil _ i

theorem keepData_run {queues : List (List ThreadLoadData)} (hkeep : b.keepData = true)
    (hthreads : ∀ items ∈ queues, ∀ item ∈ items, item.threadId.toNat < n) :
    ∃ b', run extract queues b = some b' ∧ b'.keepData = true := by
  induction queues generalizing b with
  | nil => exact ⟨b, rfl, hkeep⟩
  | cons items queues ih =>
    obtain ⟨hitems, hthreads⟩ := List.forall_mem_cons.mp hthreads
    obtain ⟨b₁, -, hextract, hkeep₁⟩ := extract_on _ hkeep hitems
    obtain ⟨b', hrest, hkeep'⟩ := ih hkeep₁ hthreads
    exact ⟨b', by rw [run, hextract, Option.bind_some, hrest], hkeep'⟩

/-- With `KeepData` a call adds to the weights that the call before it has inverted, so that the
weights are ordered by the totals after each call exactly if every call finds them aligned. -/
theorem carriesOverAll_iff {queues : List (List ThreadLoadData)} (hkeep : b.keepData = true)
    (hthreads : ∀ items ∈ queues, ∀ item ∈ items, item.threadId.toNat < n) :
    (∃ b', run extract queues b = some b') ∧ (CarriesOverAll b queues ↔ AlignedAll b queues) := by
  obtain ⟨b', hrun, -⟩ := keepData_run hkeep hthreads
  have hcall {past : List (List ThreadLoadData)} {items : List ThreadLoadData}
      {b₁ : LoadBalance n} (hpast : past ++ [items] <+: queues)
      (hrun : run extract past b = some b₁) :
      ∃ u, accountAll items b₁ = some u ∧ extract items b₁ = some u.endExtract := by
    have hmem (q : List ThreadLoadData) (hq : q ∈ past ++ [items]) :
        ∀ item ∈ q, item.threadId.toNat < n := hthreads q (hpast.subset hq)
    obtain ⟨b₁', hrun', hkeep₁⟩ := keepData_run hkeep fun q hq ↦ hmem q (List.mem_append_left _ hq)
    obtain rfl := Option.some.inj (hrun.symm.trans hrun')
    obtain ⟨u, hu, hextract, -⟩ := extract_on _ hkeep₁
      (hmem items (List.mem_append_right _ (List.mem_singleton_self _)))
    exact ⟨u, hu, hextract⟩
  refine ⟨⟨b', hrun⟩, fun hcarries past items b₁ hpast hrun ↦ ?_,
    fun haligned past items b₁ b₂ hpast hrun hextract ↦ ?_⟩
  · obtain ⟨u, hu, hextract⟩ := hcall hpast hrun
    exact (carriesOver_iff hu).mp (hcarries past items b₁ _ hpast hrun hextract)
  · obtain ⟨u, hu, hextract'⟩ := hcall hpast hrun
    obtain rfl := Option.some.inj (hextract'.symm.trans hextract)
    exact (carriesOver_iff hu).mpr (haligned past items b₁ hpast hrun)

/-- Two threads, with `KeepData`. -/
def keeping : LoadBalance 2 where
  perThreadThroughput := fun _ ↦ 0
  currentWeight := fun _ ↦ 0
  totalWeight := 0
  perThreadConnectNumber := fun _ ↦ 0
  keepData := true

/-- Both threads report, then one of them, and then none. -/
def reports : List (List ThreadLoadData) :=
  [[⟨5, 0, 0⟩, ⟨1, 1, 0⟩], [⟨9, 0, 3⟩], []]

theorem carriesOverAll_keeping :
    (∃ b', run extract reports keeping = some b') ∧
      (CarriesOverAll keeping reports ↔ AlignedAll keeping reports) :=
  carriesOverAll_iff rfl (by decide)

/-- A call that finds the queue empty exchanges the weights. -/
theorem not_carriesOverAll_keeping :
    ¬ CarriesOverAll keeping [[⟨5, 0, 0⟩, ⟨1, 1, 0⟩], []] := by
  intro hcarries
  obtain ⟨u, hu, hfirst, hkeep⟩ :=
    @extract_on 2 keeping [⟨5, 0, 0⟩, ⟨1, 1, 0⟩] rfl (by decide)
  obtain ⟨u', hu', hsecond, -⟩ := extract_on [] hkeep (by simp)
  have hrun : run extract [[⟨5, 0, 0⟩, ⟨1, 1, 0⟩]] keeping = some u.endExtract := by
    rw [run, hfirst, Option.bind_some, run]
  have hlast := hcarries _ _ _ _ (List.prefix_refl _) hrun hsecond
  have hsame := ((carriesOver_iff hu').mp hlast).idle rfl 0 1
  obtain ⟨σ, hσ⟩ := u.inverts_endExtract.perm
  rw [hσ] at hsame
  have hdistinct : ∀ i j, u.perThreadThroughput i = u.perThreadThroughput j → i = j := by
    obtain rfl := Option.some.inj hu
    decide
  exact absurd (σ.injective (hdistinct _ _ hsame)) (by decide)

end LoadBalance

end LWebServer
