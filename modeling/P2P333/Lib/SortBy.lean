import Mathlib

/-!
# Stable sorting by a key

What is sorted by a key keeps the order of values with one key. So two lists are sorted into one if
and only if they have, for each key, the same values in the same order.
-/

namespace P2P333.Lib

variable {α κ : Type*} [LinearOrder κ] {key : α → κ} {l l' : List α}

/-- `sort_by` with the order of the keys. -/
def sortBy (key : α → κ) (l : List α) : List α := l.insertionSort fun a b => key a ≤ key b

abbrev SortedBy (key : α → κ) (l : List α) : Prop := l.Pairwise fun a b => key a ≤ key b

theorem sortBy_perm (key : α → κ) (l : List α) : (sortBy key l).Perm l :=
  List.perm_insertionSort _ l

theorem sortedBy_sortBy (key : α → κ) (l : List α) : SortedBy key (sortBy key l) := by
  have : Std.Total fun a b : α => key a ≤ key b := ⟨fun a b => le_total (key a) (key b)⟩
  have : IsTrans α fun a b => key a ≤ key b := ⟨fun _ _ _ => le_trans⟩
  exact List.pairwise_insertionSort _ l

/-- Permuted lists are sorted into lists with the same keys. -/
theorem keys_sortBy_of_perm (key : α → κ) (h : l.Perm l') :
    (sortBy key l).map key = (sortBy key l').map key := by
  have hperm : ((sortBy key l).map key).Perm ((sortBy key l').map key) :=
    (((sortBy_perm key l).trans h).trans (sortBy_perm key l').symm).map key
  refine hperm.eq_of_pairwise (fun a b _ _ => le_antisymm) ?_ ?_
  · exact List.pairwise_map.mpr (sortedBy_sortBy key l)
  · exact List.pairwise_map.mpr (sortedBy_sortBy key l')

theorem filter_sortBy (key : α → κ) (l : List α) (k : κ) :
    ((sortBy key l).filter fun a => key a = k) = l.filter fun a => key a = k := by
  have hsorted : SortedBy key (l.filter fun a => key a = k) := by
    refine List.pairwise_of_forall_mem_list fun a ha b hb => ?_
    have ha := of_decide_eq_true (List.mem_filter.mp ha).2
    have hb := of_decide_eq_true (List.mem_filter.mp hb).2
    exact (ha.trans hb.symm).le
  have hsub : (l.filter fun a => key a = k).Sublist (sortBy key l) :=
    List.sublist_insertionSort hsorted List.filter_sublist
  have hsub := hsub.filter fun a => decide (key a = k)
  rw [List.filter_filter] at hsub
  simp only [Bool.and_self] at hsub
  exact (hsub.eq_of_length ((sortBy_perm key l).filter _).length_eq.symm).symm

/-- What is sorted is determined by the values of each key. -/
theorem eq_of_filter_eq (hl : SortedBy key l) (hl' : SortedBy key l')
    (h : ∀ k, (l.filter fun a => key a = k) = l'.filter fun a => key a = k) : l = l' := by
  induction l generalizing l' with
  | nil =>
    cases l' with
    | nil => rfl
    | cons b l' => exact absurd (h (key b)) (by simp)
  | cons a l ih =>
    cases l' with
    | nil => exact absurd (h (key a)) (by simp)
    | cons b l' =>
      have hmem : ∀ c, c ∈ a :: l ↔ c ∈ b :: l' := fun c => by
        have hc := congrArg (c ∈ ·) (h (key c))
        simpa only [List.mem_filter, decide_true, and_true, eq_iff_iff] using hc
      -- The two heads have the least key.
      have hba : key b ≤ key a := by
        rcases List.mem_cons.mp ((hmem a).mp List.mem_cons_self) with rfl | ha
        · exact le_rfl
        · exact List.rel_of_pairwise_cons hl' ha
      have hab : key a ≤ key b := by
        rcases List.mem_cons.mp ((hmem b).mpr List.mem_cons_self) with rfl | hb
        · exact le_rfl
        · exact List.rel_of_pairwise_cons hl hb
      have hkey : key b = key a := le_antisymm hba hab
      have hhead := h (key a)
      rw [List.filter_cons_of_pos (by simp), List.filter_cons_of_pos (by simp [hkey])] at hhead
      obtain ⟨rfl, hrest⟩ := List.cons.inj hhead
      refine congrArg (a :: ·) (ih hl.of_cons hl'.of_cons fun k => ?_)
      by_cases hk : key a = k
      · rw [← hk]
        exact hrest
      · have hk' := h k
        rw [List.filter_cons_of_neg (by simp [hk]), List.filter_cons_of_neg (by simp [hk])] at hk'
        exact hk'

theorem sortBy_eq_iff (key : α → κ) : sortBy key l = sortBy key l' ↔
    ∀ k, (l.filter fun a => key a = k) = l'.filter fun a => key a = k := by
  constructor
  · intro h k
    rw [← filter_sortBy, h, filter_sortBy]
  · intro h
    refine eq_of_filter_eq (sortedBy_sortBy key l) (sortedBy_sortBy key l') fun k => ?_
    rw [filter_sortBy, filter_sortBy, h]

end P2P333.Lib
