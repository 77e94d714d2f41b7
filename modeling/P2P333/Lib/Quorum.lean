import Mathlib

/-!
# Quorum intersection

Two large enough subsets of a finite set meet outside a small exceptional set, and smaller ones need
not. A subset that is small wherever it has been counted is small.
-/

namespace P2P333.Lib

variable {α : Type*} [DecidableEq α]

/-- Two subsets of `M` whose sizes together exceed `|M| + |B|` share an element outside `B`. -/
theorem exists_mem_inter_notMem {M A A' B : Finset α} (hA : A ⊆ M) (hA' : A' ⊆ M)
    (hcard : M.card + B.card < A.card + A'.card) : ∃ x, x ∈ A ∧ x ∈ A' ∧ x ∉ B := by
  have hunion : (A ∪ A').card ≤ M.card := Finset.card_le_card (Finset.union_subset hA hA')
  have hsum := Finset.card_union_add_card_inter A A'
  have hlt : B.card < (A ∩ A').card := by omega
  obtain ⟨x, hx, hB⟩ := Finset.exists_mem_notMem_of_card_lt_card hlt
  exact ⟨x, (Finset.mem_inter.mp hx).1, (Finset.mem_inter.mp hx).2, hB⟩

/-- Two subsets of `M` that are no larger than that may meet in `B` only. -/
theorem exists_inter_subset {M B : Finset α} (hB : B ⊆ M) {q : Nat} (hq : q ≤ M.card)
    (hcard : 2 * q ≤ M.card + B.card) :
    ∃ A A', A ⊆ M ∧ A' ⊆ M ∧ q ≤ A.card ∧ q ≤ A'.card ∧ A ∩ A' ⊆ B := by
  -- `A` is `B` and as much of the rest as it needs, and `A'` is `B` and what is left.
  have hrest : (M \ B).card = M.card - B.card := Finset.card_sdiff_of_subset hB
  have hle : B.card ≤ M.card := Finset.card_le_card hB
  obtain ⟨C, hC, hCcard⟩ := Finset.exists_subset_card_eq (s := M \ B) (n := q - B.card) (by omega)
  have hCM : C ⊆ M := hC.trans Finset.sdiff_subset
  have hdisjoint : Disjoint B C := Finset.disjoint_sdiff.mono_right hC
  refine ⟨B ∪ C, M \ C, Finset.union_subset hB hCM, Finset.sdiff_subset, ?_, ?_, ?_⟩
  · rw [Finset.card_union_of_disjoint hdisjoint]
    omega
  · rw [Finset.card_sdiff_of_subset hCM]
    omega
  · rw [Finset.union_inter_distrib_right, Finset.inter_sdiff_self, Finset.union_empty]
    exact Finset.inter_subset_left

/-- A subset `S` of `M` whose elements in the counted part `W` all lie in `A` or in `B`. -/
theorem card_le_of_counted {M S W A B : Finset α} (hS : S ⊆ M) (hW : W ⊆ M)
    (h : ∀ x ∈ S, x ∈ W → x ∈ A ∨ x ∈ B) : S.card ≤ A.card + B.card + (M.card - W.card) := by
  have hsub : S ⊆ A ∪ B ∪ M \ W := by
    intro x hx
    by_cases hw : x ∈ W
    · exact Finset.mem_union_left _ (Finset.mem_union.mpr (h x hx hw))
    · exact Finset.mem_union_right _ (Finset.mem_sdiff.mpr ⟨hS hx, hw⟩)
  calc S.card ≤ (A ∪ B ∪ M \ W).card := Finset.card_le_card hsub
    _ ≤ (A ∪ B).card + (M \ W).card := Finset.card_union_le _ _
    _ ≤ A.card + B.card + (M \ W).card := Nat.add_le_add_right (Finset.card_union_le _ _) _
    _ = A.card + B.card + (M.card - W.card) := by rw [Finset.card_sdiff_of_subset hW]

end P2P333.Lib
