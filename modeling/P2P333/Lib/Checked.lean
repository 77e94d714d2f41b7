import Mathlib

/-!
# Checked and saturating arithmetic

Differences, products and successors of machine words that fail where the result does not fit, sums
and differences that stay at the last word that fits, and the larger of two words.
-/

namespace P2P333.Lib

variable {w : Nat} {x y z : BitVec w}

/-- `none` when the difference would be negative. -/
def checkedSub (x y : BitVec w) : Option (BitVec w) := if y ≤ x then some (x - y) else none

/-- `none` when the product does not fit. -/
def checkedMul (x y : BitVec w) : Option (BitVec w) :=
  if x.toNat * y.toNat < 2 ^ w then some (x * y) else none

theorem checkedSub_eq_some : checkedSub x y = some z ↔ z.toNat + y.toNat = x.toNat := by
  unfold checkedSub
  split_ifs with h
  · rw [Option.some.injEq, ← BitVec.toNat_inj, BitVec.toNat_sub_of_le h]
    have hle := BitVec.le_def.mp h
    omega
  · have hlt := BitVec.le_def.not.mp h
    exact iff_of_false nofun fun hsum => by omega

theorem checkedMul_eq_some : checkedMul x y = some z ↔ z.toNat = x.toNat * y.toNat := by
  unfold checkedMul
  split_ifs with h
  · rw [Option.some.injEq, ← BitVec.toNat_inj, BitVec.toNat_mul, Nat.mod_eq_of_lt h, eq_comm]
  · have hlt := z.isLt
    exact iff_of_false nofun fun hproduct => by omega

/-- `none` when the next number does not fit. -/
def checkedSucc (x : UInt64) : Option UInt64 := if x.toNat + 1 < 2 ^ 64 then some (x + 1) else none

theorem checkedSucc_eq_some {x y : UInt64} : checkedSucc x = some y ↔ y.toNat = x.toNat + 1 := by
  unfold checkedSucc
  split_ifs with h
  · rw [Option.some.injEq, ← UInt64.toNat_inj, UInt64.toNat_add, UInt64.toNat_one,
      Nat.mod_eq_of_lt h, eq_comm]
  · have hlt := y.toNat_lt
    exact iff_of_false nofun fun hsum => by omega

/-- A successor that fits, or whose overflow has been ruled out. -/
theorem toNat_succ_of_guarded {c : Prop} {x : UInt64} (hok : c ∨ x.toNat + 1 < 2 ^ 64)
    (hno : ¬ (c ∧ x.toNat + 1 = 2 ^ 64)) : (x + 1).toNat = x.toNat + 1 := by
  have hmax := x.toNat_lt
  have hlt : x.toNat + 1 < 2 ^ 64 := by
    rcases hok with hc | hlt
    · have hne : x.toNat + 1 ≠ 2 ^ 64 := fun heq => hno ⟨hc, heq⟩
      omega
    · exact hlt
  rw [UInt64.toNat_add]
  exact Nat.mod_eq_of_lt hlt

/-! ## Saturating -/

/-- The sum, or the largest word where it does not fit. -/
def saturatingAdd (x y : BitVec w) : BitVec w := .ofNat w (min (2 ^ w - 1) (x.toNat + y.toNat))

theorem toNat_saturatingAdd (x y : BitVec w) :
    (saturatingAdd x y).toNat = min (2 ^ w - 1) (x.toNat + y.toNat) := by
  have hlt : min (2 ^ w - 1) (x.toNat + y.toNat) < 2 ^ w :=
    (Nat.min_le_left _ _).trans_lt (Nat.sub_one_lt (Nat.two_pow_pos w).ne')
  rw [saturatingAdd, BitVec.toNat_ofNat, Nat.mod_eq_of_lt hlt]

def saturatingSucc (n : UInt64) : UInt64 := ⟨saturatingAdd n.toBitVec 1⟩

theorem toNat_saturatingSucc {n : UInt64} (h : n.toNat + 1 < 2 ^ 64) :
    (saturatingSucc n).toNat = n.toNat + 1 :=
  (toNat_saturatingAdd n.toBitVec 1).trans (Nat.min_eq_right (Nat.le_sub_one_of_lt h))

theorem le_saturatingSucc (n : UInt64) : n.toNat ≤ (saturatingSucc n).toNat :=
  (Nat.le_min.mpr ⟨Nat.le_sub_one_of_lt n.toNat_lt, Nat.le_succ _⟩).trans_eq
    (toNat_saturatingAdd n.toBitVec 1).symm

/-- The difference, or zero. -/
def saturatingSub (a b : UInt64) : UInt64 := if b ≤ a then a - b else 0

/-- The larger of two words, as a number. -/
theorem toNat_max (a b : UInt64) : (max a b).toNat = max a.toNat b.toNat := by
  show (if a ≤ b then b else a).toNat = _
  rw [Nat.max_def, apply_ite UInt64.toNat]
  simp only [UInt64.le_iff_toNat_le]

end P2P333.Lib
