import Mathlib

/-!
# The newest of a set of writes

Writes carry stamps from a linear order. `Newest stamp S o` says that `o` is a write of `S` that no
other one of `S` is newer than, or that `S` is empty. Where different writes have different stamps
there is one such write only.
-/

namespace P2P333.Lib

variable {ω τ : Type*} [LinearOrder τ] {stamp : ω → τ}

/-- No write of the set is newer. -/
inductive Newest (stamp : ω → τ) (S : Set ω) : Option ω → Prop
  | none (empty : ∀ x, x ∉ S) : Newest stamp S none
  | some {x : ω} (mem : x ∈ S) (le : ∀ y ∈ S, stamp y ≤ stamp x) : Newest stamp S (some x)

namespace Newest

variable {S T : Set ω} {o o' : Option ω} {x : ω}

/-- A write that is newer than all others. -/
theorem insert_newer (h : ∀ y ∈ S, stamp y ≤ stamp x) : Newest stamp (insert x S) (.some x) := by
  refine .some (Set.mem_insert x S) fun y hy => ?_
  rcases Set.mem_insert_iff.mp hy with rfl | hy
  · exact le_rfl
  · exact h y hy

/-- What is not newer changes nothing. -/
theorem absorb (h : Newest stamp S o) (hsub : S ⊆ T)
    (hle : ∀ y ∈ T, ∃ x ∈ S, stamp y ≤ stamp x) : Newest stamp T o := by
  cases h with
  | none hempty =>
    refine .none fun y hy => ?_
    obtain ⟨x, hx, -⟩ := hle y hy
    exact hempty x hx
  | some hmem hnewest =>
    refine .some (hsub hmem) fun y hy => ?_
    obtain ⟨x, hx, hyx⟩ := hle y hy
    exact hyx.trans (hnewest x hx)

theorem insert_older (h : Newest stamp S o) {y : ω} (hy : o = .some y) (hle : stamp x ≤ stamp y) :
    Newest stamp (insert x S) o := by
  subst hy
  cases h with
  | some hmem hnewest =>
    refine .some (Set.mem_insert_of_mem x hmem) fun z hz => ?_
    rcases Set.mem_insert_iff.mp hz with rfl | hz
    · exact hle
    · exact hnewest z hz

/-- The newest write is determined by the set. -/
theorem unique (h : Newest stamp S o) (h' : Newest stamp S o')
    (hinj : ∀ x ∈ S, ∀ y ∈ S, stamp x = stamp y → x = y) : o = o' := by
  cases h with
  | none hempty =>
    cases h' with
    | none => rfl
    | some hmem => exact absurd hmem (hempty _)
  | some hmem hnewest =>
    cases h' with
    | none hempty => exact absurd hmem (hempty _)
    | some hmem' hnewest' =>
      exact congrArg Option.some
        (hinj _ hmem _ hmem' (le_antisymm (hnewest' _ hmem) (hnewest _ hmem')))

end Newest

end P2P333.Lib
