import Mathlib.Algebra.BigOperators.Group.Finset.Basic
import Mathlib.Data.Fintype.Card
import Mathlib.Data.Fintype.EquivFin
import Mathlib.Data.List.Nodup
import Mathlib.Logic.Equiv.Basic
import Mathlib.Order.Fin.Basic

/-!
# Ranks and mirrored ranks

Keys from a linear order rank finitely many participants. Exchanging the values of the first and the
last, of the second and the last but one, and so on up to the middle gives everyone the value of the
one with the mirrored rank.
-/

namespace LWebServer.Ranking

variable {ι κ α : Type*} [LinearOrder κ] {key : ι → κ} {order : List ι}

section

variable [Fintype ι]

/-- How many participants have a smaller key. -/
def rank (key : ι → κ) (i : ι) : ℕ := (Finset.univ.filter fun j ↦ key j < key i).card

theorem rank_lt_card (key : ι → κ) (i : ι) : rank key i < Fintype.card ι := by
  refine Finset.card_lt_card (Finset.filter_ssubset.mpr ⟨i, Finset.mem_univ i, lt_irrefl _⟩)

theorem rank_lt_rank_iff {i j : ι} : rank key i < rank key j ↔ key i < key j := by
  constructor
  · intro hrank
    by_contra hkey
    have hsubset : (Finset.univ.filter fun k ↦ key k < key j) ⊆
        Finset.univ.filter fun k ↦ key k < key i :=
      Finset.monotone_filter_right _ fun k _ hk ↦ hk.trans_le (not_lt.mp hkey)
    exact absurd (Finset.card_le_card hsubset) (not_le.mpr hrank)
  · intro hkey
    refine Finset.card_lt_card ((Finset.ssubset_iff_of_subset ?_).mpr ⟨i, ?_, ?_⟩)
    · exact Finset.monotone_filter_right _ fun k _ hk ↦ hk.trans hkey
    · exact Finset.mem_filter.mpr ⟨Finset.mem_univ i, hkey⟩
    · simp

theorem rank_injective (hkey : Function.Injective key) : Function.Injective (rank key) := by
  intro i j hrank
  refine hkey (le_antisymm ?_ ?_)
  · exact not_lt.mp fun hlt ↦ (rank_lt_rank_iff.mpr hlt).ne' hrank
  · exact not_lt.mp fun hlt ↦ (rank_lt_rank_iff.mpr hlt).ne hrank

/-- The participants in the order of their ranks. -/
noncomputable def byRank (hkey : Function.Injective key) : ι ≃ Fin (Fintype.card ι) :=
  Equiv.ofBijective (fun i ↦ ⟨rank key i, rank_lt_card key i⟩) <|
    (Fintype.bijective_iff_injective_and_card _).mpr
      ⟨fun _ _ hrank ↦ rank_injective hkey (Fin.val_eq_of_eq hrank), (Fintype.card_fin _).symm⟩

/-- The participant with the mirrored rank. -/
noncomputable def opposite (hkey : Function.Injective key) : Equiv.Perm ι :=
  (byRank hkey).trans (Fin.revPerm.trans (byRank hkey).symm)

theorem rank_opposite (hkey : Function.Injective key) (i : ι) :
    rank key i + rank key (opposite hkey i) + 1 = Fintype.card ι := by
  have hrank : (byRank hkey (opposite hkey i)).val = (Fin.rev (byRank hkey i)).val := by
    unfold opposite
    simp
  rw [Fin.val_rev] at hrank
  have hopposite : rank key (opposite hkey i) = Fintype.card ι - (rank key i + 1) := hrank
  have hlt := rank_lt_card key i
  omega

/-! ## Mirrored values -/

/-- Everyone has the value that the one with the mirrored rank had. -/
def Mirrored (key : ι → κ) (v w : ι → α) : Prop :=
  ∀ i j, rank key i + rank key j + 1 = Fintype.card ι → w i = v j

variable {v w : ι → α}

theorem Mirrored.eq_comp (hmirrored : Mirrored key v w) (hkey : Function.Injective key) :
    w = v ∘ opposite hkey :=
  funext fun i ↦ hmirrored i (opposite hkey i) (rank_opposite hkey i)

/-- If the values rise with the keys, one with a smaller key has no smaller value afterwards. -/
theorem Mirrored.antitone {le : α → α → Prop} (hmirrored : Mirrored key v w)
    (hkey : Function.Injective key) (hmono : ∀ i j, key i ≤ key j → le (v i) (v j)) {i j : ι}
    (hlt : key i < key j) : le (w j) (w i) := by
  have hrank := rank_lt_rank_iff.mpr hlt
  have hi := rank_opposite hkey i
  have hj := rank_opposite hkey j
  have hopposite : key (opposite hkey j) < key (opposite hkey i) :=
    rank_lt_rank_iff.mp (by omega)
  rw [hmirrored.eq_comp hkey]
  exact hmono _ _ hopposite.le

/-- Values that rise with the keys and are their own mirror image are all equal. -/
theorem Mirrored.eq_of_self {le : α → α → Prop} (hmirrored : Mirrored key v v)
    (hkey : Function.Injective key) (hmono : ∀ i j, key i ≤ key j → le (v i) (v j))
    (hantisymm : ∀ x y, le x y → le y x → x = y) (i j : ι) : v i = v j := by
  rcases lt_trichotomy (key i) (key j) with hlt | heq | hgt
  · exact hantisymm _ _ (hmono i j hlt.le) (hmirrored.antitone hkey hmono hlt)
  · rw [hkey heq]
  · exact hantisymm _ _ (hmirrored.antitone hkey hmono hgt) (hmono j i hgt.le)

end

/-! ## Exchanges -/

variable [DecidableEq ι]

/-- The exchanges of the first and the last values of an order, of the second and the last but one,
and so on. -/
def exchanges (order : List ι) (count : ℕ) (v : ι → α) : ι → α :=
  (List.range count).foldl
    (fun v i ↦ match order[i]?, order[order.length - i - 1]? with
      | some p, some q => v ∘ Equiv.swap p q
      | _, _ => v) v

theorem exchanges_succ {count : ℕ} (hcount : count < order.length) (v : ι → α) :
    exchanges order (count + 1) v = exchanges order count v ∘
      Equiv.swap order[count] order[order.length - count - 1] := by
  have hlast : order.length - count - 1 < order.length := by omega
  unfold exchanges
  rw [List.range_succ, List.foldl_append, List.foldl_cons, List.foldl_nil,
    List.getElem?_eq_getElem hcount, List.getElem?_eq_getElem hlast]

theorem exchanges_getElem (hnodup : order.Nodup) {count : ℕ} (hcount : count ≤ order.length / 2)
    (v : ι → α) {r : ℕ} (hr : r < order.length) :
    exchanges order count v order[r] =
      if r < count ∨ order.length - r - 1 < count then
        v order[order.length - r - 1]
      else v order[r] := by
  induction count generalizing r with
  | zero => rw [if_neg (by omega)]; rfl
  | succ count ih =>
    have hlast : order.length - count - 1 < order.length := by omega
    rw [exchanges_succ (by omega), Function.comp_apply]
    by_cases hfirst : r = count
    · subst hfirst
      rw [Equiv.swap_apply_left, ih (by omega) hlast, if_neg (by omega), if_pos (by omega)]
    by_cases hsecond : r = order.length - count - 1
    · subst hsecond
      have hback : order.length - (order.length - count - 1) - 1 = count := by omega
      rw [Equiv.swap_apply_right, ih (by omega) (by omega), if_neg (by omega), if_pos (by omega)]
      simp only [hback]
    · rw [Equiv.swap_apply_of_ne_of_ne (fun h ↦ hfirst (hnodup.getElem_inj_iff.mp h))
        (fun h ↦ hsecond (hnodup.getElem_inj_iff.mp h)), ih (by omega) hr]
      simp only [show (r < count + 1 ∨ order.length - r - 1 < count + 1) ↔
        (r < count ∨ order.length - r - 1 < count) by omega]

/-- After the exchanges up to the middle every place has the value of the mirrored one. -/
theorem exchanges_half (hnodup : order.Nodup) (v : ι → α) {r : ℕ} (hr : r < order.length) :
    exchanges order (order.length / 2) v order[r] = v order[order.length - r - 1] := by
  rw [exchanges_getElem hnodup le_rfl v hr]
  split_ifs with houter
  · rfl
  · have hmiddle : order.length - r - 1 = r := by omega
    simp only [hmiddle]

variable [Fintype ι]

theorem rank_getElem (hsorted : order.Pairwise fun i j ↦ key i < key j) (hall : ∀ i, i ∈ order)
    {r : ℕ} (hr : r < order.length) : rank key order[r] = r := by
  have hnodup : order.Nodup := hsorted.imp fun hlt heq ↦ hlt.ne (congrArg key heq)
  have hbelow : (Finset.univ.filter fun j ↦ key j < key order[r]) = (order.take r).toFinset := by
    ext j
    obtain ⟨s, hs, rfl⟩ := List.getElem_of_mem (hall j)
    have hlt : key order[s] < key order[r] ↔ s < r := by
      constructor
      · intro hkey
        by_contra hle
        rcases (not_lt.mp hle).eq_or_lt with rfl | hgt
        · exact lt_irrefl _ hkey
        · exact lt_asymm hkey (List.pairwise_iff_getElem.mp hsorted r s hr hs hgt)
      · exact List.pairwise_iff_getElem.mp hsorted s r hs hr
    rw [Finset.mem_filter, List.mem_toFinset, hlt]
    simp only [Finset.mem_univ, true_and]
    constructor
    · exact fun h ↦ List.mem_take_iff_getElem.mpr ⟨s, by omega, rfl⟩
    · intro hmem
      obtain ⟨t, ht, heq⟩ := List.mem_take_iff_getElem.mp hmem
      have := hnodup.getElem_inj_iff.mp heq
      omega
  unfold rank
  rw [hbelow, List.toFinset_card_of_nodup (hnodup.sublist (List.take_sublist r order)),
    List.length_take]
  omega

/-- The exchanges along an order by keys mirror the values. -/
theorem mirrored_exchanges (hsorted : order.Pairwise fun i j ↦ key i < key j)
    (hall : ∀ i, i ∈ order) (v : ι → α) :
    Mirrored key v (exchanges order (order.length / 2) v) := by
  have hnodup : order.Nodup := hsorted.imp fun hlt heq ↦ hlt.ne (congrArg key heq)
  have hlength : order.length = Fintype.card ι := by
    rw [← List.toFinset_card_of_nodup hnodup]
    have huniv : order.toFinset = Finset.univ :=
      Finset.eq_univ_iff_forall.mpr fun i ↦ List.mem_toFinset.mpr (hall i)
    exact congrArg Finset.card huniv
  intro i j hranks
  obtain ⟨r, hr, rfl⟩ := List.getElem_of_mem (hall i)
  obtain ⟨s, hs, rfl⟩ := List.getElem_of_mem (hall j)
  rw [rank_getElem hsorted hall hr, rank_getElem hsorted hall hs] at hranks
  have hmirror : order.length - r - 1 = s := by omega
  rw [exchanges_half hnodup v hr]
  simp only [hmirror]

end LWebServer.Ranking
