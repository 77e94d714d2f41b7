import Mathlib

/-!
# The last values

What was seen, oldest first, and of it the last `k` distinct values, in the order in which each was
seen last. A list that moves a value to its back when it is seen again, and drops its front for a
new one when it is full, holds exactly those. A list that takes every value at its back, and drops
its front when it is longer than `k`, holds the last `k` values.
-/

namespace P2P333.Lib

variable {α : Type*} [DecidableEq α] {k : Nat} {l : List α} {a : α}

/-! ## Distinct values -/

/-- The last `k` distinct values, the one seen last at the end. -/
def recent (k : Nat) (l : List α) : List α := l.dedup.rtake k

theorem dedup_concat (l : List α) (a : α) : (l ++ [a]).dedup = l.dedup.erase a ++ [a] := by
  induction l with
  | nil => rfl
  | cons b l ih =>
    rw [List.cons_append]
    by_cases hb : b ∈ l
    · rw [List.dedup_cons_of_mem hb, List.dedup_cons_of_mem (List.mem_append_left _ hb), ih]
    by_cases hba : b = a
    · subst hba
      have hgone : b ∉ l.dedup := fun h => hb (List.mem_dedup.mp h)
      rw [List.dedup_cons_of_mem (List.mem_append_right _ List.mem_cons_self), ih,
        List.dedup_cons_of_notMem hb, List.erase_cons_head, List.erase_of_not_mem hgone]
    · have hnew : b ∉ l ++ [a] := by
        rw [List.mem_append, List.mem_singleton]
        exact not_or.mpr ⟨hb, hba⟩
      rw [List.dedup_cons_of_notMem hnew, List.dedup_cons_of_notMem hb, ih,
        List.erase_cons_tail (by simpa using hba), List.cons_append]

theorem nodup_recent : (recent k l).Nodup :=
  (List.nodup_dedup l).sublist (List.drop_sublist _ _)

theorem mem_of_recent (h : a ∈ recent k l) : a ∈ l :=
  List.mem_dedup.mp (List.mem_of_mem_drop h)

theorem length_recent : (recent k l).length = min k l.dedup.length := by
  rw [recent, List.rtake, List.length_drop]
  omega

/-- All values are there exactly if they are few enough. -/
theorem subset_recent_iff : l ⊆ recent k l ↔ l.dedup.length ≤ k := by
  constructor
  · intro hsub
    have hdedup : l.dedup ⊆ recent k l := fun a ha => hsub (List.mem_dedup.mp ha)
    have hle := ((List.nodup_dedup l).subperm hdedup).length_le
    rw [length_recent] at hle
    omega
  · intro hle a ha
    rw [recent, List.rtake, Nat.sub_eq_zero_of_le hle, List.drop_zero]
    exact List.mem_dedup.mpr ha

/-- A value that is there moves to the back. -/
theorem recent_concat_of_mem (h : a ∈ recent k l) :
    recent k (l ++ [a]) = (recent k l).erase a ++ [a] := by
  have hsplit := List.take_append_drop (l.dedup.length - k) l.dedup
  have hdisjoint : a ∉ l.dedup.take (l.dedup.length - k) := by
    have hnodup := List.nodup_dedup l
    rw [← hsplit] at hnodup
    exact fun hleft => (List.disjoint_of_nodup_append hnodup) hleft h
  have herase : l.dedup.erase a =
      l.dedup.take (l.dedup.length - k) ++ (recent k l).erase a := by
    conv_lhs => rw [← hsplit]
    exact List.erase_append_right _ hdisjoint
  have hlength : (l.dedup.take (l.dedup.length - k)).length = l.dedup.length - k := by
    rw [List.length_take]
    omega
  have hwhole : (l.dedup.erase a ++ [a]).length = l.dedup.length := by
    have hmem : a ∈ l.dedup := List.mem_of_mem_drop h
    rw [List.length_append, List.length_erase_of_mem hmem, List.length_singleton]
    have hpos := List.length_pos_of_mem hmem
    omega
  rw [recent, dedup_concat, List.rtake, hwhole, herase, List.append_assoc,
    List.drop_append_of_le_length hlength.ge, List.drop_of_length_le hlength.le, List.nil_append]

/-- A value that is not there is added; the oldest leaves if there is no room. -/
theorem recent_concat_of_notMem (hk : 0 < k) (h : a ∉ recent k l) :
    recent k (l ++ [a]) =
      (if (recent k l).length ≥ k then (recent k l).tail else recent k l) ++ [a] := by
  obtain ⟨k, rfl⟩ := Nat.exists_eq_add_one_of_ne_zero hk.ne'
  have hrest : (l.dedup.erase a).rtake k =
      if (recent (k + 1) l).length ≥ k + 1 then (recent (k + 1) l).tail
      else recent (k + 1) l := by
    by_cases hmem : a ∈ l.dedup
    · -- It was seen before, and has left since.
      have hsplit := List.take_append_drop (l.dedup.length - (k + 1)) l.dedup
      have hleft : a ∈ l.dedup.take (l.dedup.length - (k + 1)) := by
        rw [← hsplit, List.mem_append] at hmem
        exact hmem.resolve_right h
      have hlong : l.dedup.length ≥ k + 2 := by
        have hpos := List.length_pos_of_mem hleft
        rw [List.length_take] at hpos
        omega
      have herase : l.dedup.erase a =
          (l.dedup.take (l.dedup.length - (k + 1))).erase a ++ recent (k + 1) l := by
        conv_lhs => rw [← hsplit]
        exact List.erase_append_left _ hleft
      have hlength : ((l.dedup.take (l.dedup.length - (k + 1))).erase a).length =
          l.dedup.length - (k + 2) := by
        rw [List.length_erase_of_mem hleft, List.length_take]
        omega
      have hdrop : l.dedup.length - 1 - k = l.dedup.length - (k + 2) + 1 := by omega
      rw [if_pos (by rw [length_recent]; omega), List.rtake, List.length_erase_of_mem hmem, hdrop,
        herase, ← hlength, List.drop_length_add_append, List.drop_one]
    · rw [List.erase_of_not_mem hmem, List.rtake, length_recent]
      split
      · have hdrop : l.dedup.length - k = l.dedup.length - (k + 1) + 1 := by omega
        rw [hdrop, ← List.tail_drop]
        rfl
      · have hdrop : l.dedup.length - k = l.dedup.length - (k + 1) := by omega
        rw [hdrop]
        rfl
  rw [← hrest, recent, dedup_concat, List.rtake_concat_succ]

/-! ## Rings -/

section Rings

variable {α : Type*} {k : Nat} {l : List α} {a : α}

/-- A new value at the back; the front leaves if there is no room. -/
def pushRing (k : Nat) (l : List α) (a : α) : List α :=
  if (l ++ [a]).length > k then (l ++ [a]).tail else l ++ [a]

theorem pushRing_rtake (k : Nat) (l : List α) (a : α) :
    pushRing k (l.rtake k) a = (l ++ [a]).rtake k := by
  have hlength : (l.rtake k ++ [a]).length = min k l.length + 1 := by
    rw [List.length_append, List.rtake, List.length_drop, List.length_singleton]
    omega
  have hsplit : l.rtake k ++ [a] = (l ++ [a]).drop (l.length - k) :=
    (List.drop_append_of_le_length (Nat.sub_le _ _)).symm
  rw [pushRing, hlength, hsplit, List.tail_drop]
  unfold List.rtake
  rw [List.length_append, List.length_singleton]
  split
  · congr 1
    omega
  · congr 1
    omega

theorem foldl_pushRing (k : Nat) (l more : List α) :
    more.foldl (pushRing k) (l.rtake k) = (l ++ more).rtake k := by
  induction more generalizing l with
  | nil => rw [List.append_nil, List.foldl_nil]
  | cons a more ih =>
    rw [List.foldl_cons, pushRing_rtake, ih, List.append_assoc, List.singleton_append]

/-- A value that is added at the back, without anything leaving, fits if there is room. -/
theorem rtake_concat_iff : l.rtake k ++ [a] = (l ++ [a]).rtake k ↔ l.length < k := by
  constructor
  · intro heq
    have hlength := congrArg List.length heq
    simp only [List.rtake, List.length_append, List.length_drop, List.length_singleton] at hlength
    omega
  · intro hlt
    rw [List.rtake, List.rtake, List.length_append, List.length_singleton,
      Nat.sub_eq_zero_of_le hlt.le, Nat.sub_eq_zero_of_le (Nat.succ_le_of_lt hlt), List.drop_zero,
      List.drop_zero]

end Rings

end P2P333.Lib
