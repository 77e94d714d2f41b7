import Mathlib

/-!
# Newton's square root

The integer square root by Newton's steps, ended by the first step that does not go down or by the
number of steps. From a guess that is not far from the root each step squares the distance in
proportion to the root, so that the number of steps it takes is logarithmic in the number of bits.
-/

namespace P2P333.Lib

def newtonStep (n x : Nat) : Nat := (x + n / x) / 2

/-- So many steps at most, as long as they go down. -/
def newtonSqrt (n : Nat) : Nat → Nat → Nat
  | 0, x => x
  | fuel + 1, x => if newtonStep n x ≥ x then x else newtonSqrt n fuel (newtonStep n x)

variable {n x m d e q k : Nat}

/-- No step goes below the root. -/
theorem sqrt_le_newtonStep (hx : 0 < x) : n.sqrt ≤ newtonStep n x := by
  have hroot := Nat.sqrt_le n
  have htwice : 2 * n.sqrt ≤ x + n / x := by
    obtain hfar | hnear := Nat.le_total (2 * n.sqrt) x
    · exact hfar.trans (Nat.le_add_right _ _)
    · obtain ⟨t, ht⟩ := Nat.exists_eq_add_of_le hnear
      have hle : t ≤ n / x := by
        rw [Nat.le_div_iff_mul_le hx]
        nlinarith [sq_nonneg ((t : ℤ) - x)]
      omega
  unfold newtonStep
  omega

theorem newtonStep_lt (h : n.sqrt < x) : newtonStep n x < x := by
  have hx : 0 < x := by omega
  have hquot : n / x < x := (Nat.div_lt_iff_lt_mul hx).mpr (Nat.sqrt_lt.mp h)
  unfold newtonStep
  omega

/-- How far from the root a step ends. -/
theorem newtonStep_gap (hd : x = n.sqrt + d) (he : newtonStep n x = n.sqrt + e) :
    2 * (n.sqrt + d) * e ≤ d * d + 2 * n.sqrt := by
  have hroot := Nat.sqrt_le_add n
  have hstep : 2 * newtonStep n x ≤ x + n / x := Nat.mul_div_le _ 2
  have hquot : x * (n / x) ≤ n := Nat.mul_div_le n x
  have hmul := Nat.mul_le_mul_left x hstep
  rw [he, Nat.mul_add] at hmul
  subst hd
  nlinarith

theorem newtonSqrt_root (n fuel : Nat) : newtonSqrt n fuel n.sqrt = n.sqrt := by
  cases fuel with
  | zero => rfl
  | succ fuel =>
    rw [newtonSqrt, if_pos]
    obtain hzero | hpos := Nat.eq_zero_or_pos n.sqrt
    · rw [hzero]
      exact Nat.zero_le _
    · exact sqrt_le_newtonStep hpos

theorem newtonSqrt_succ (h : n.sqrt < x) (fuel : Nat) :
    newtonSqrt n (fuel + 1) x = newtonSqrt n fuel (newtonStep n x) := by
  rw [newtonSqrt, if_neg (Nat.not_le.mpr (newtonStep_lt h))]

/-- A distance of a `q`-th of the root becomes one of a `2 * q * q`-th, up to two. -/
theorem gap_squares (hpos : 0 < m + d) (hd : q * d ≤ m + 2 * q)
    (he : 2 * (m + d) * e ≤ d * d + 2 * m) : 2 * q * q * e ≤ m + 2 * (2 * q * q) := by
  by_contra hlt
  have hlt := Nat.succ_le_of_lt (Nat.not_le.mp hlt)
  have hscaled := Nat.mul_le_mul_left (q * q) he
  have hover := Nat.mul_le_mul_left (m + d) hlt
  have hsquare : q * d * (q * d) ≤ (m + 2 * q) * (q * d) := Nat.mul_le_mul_right _ hd
  have hlinear : m * (q * d) ≤ m * (m + 2 * q) := Nat.mul_le_mul_left m hd
  have hmq : m * q ≤ m * (q * q) := Nat.mul_le_mul_left m (Nat.le_mul_self q)
  nlinarith

/-- From where the distance is below three, two steps are enough. -/
theorem newtonSqrt_near (hle : n.sqrt ≤ x) (hnear : x ≤ n.sqrt + 2) :
    newtonSqrt n 2 x = n.sqrt := by
  obtain ⟨d, rfl⟩ := Nat.exists_eq_add_of_le hle
  obtain rfl | hd := Nat.eq_zero_or_pos d
  · exact newtonSqrt_root n 2
  have hbelow := sqrt_le_newtonStep (n := n) (x := n.sqrt + d) (by omega)
  obtain ⟨e, he⟩ := Nat.exists_eq_add_of_le hbelow
  have hgap := newtonStep_gap rfl he
  have hsmall : e ≤ 1 := by
    have hd2 : d ≤ 2 := by omega
    by_contra he2
    nlinarith
  rw [newtonSqrt_succ (by omega), he]
  obtain rfl | rfl : e = 0 ∨ e = 1 := by omega
  · exact newtonSqrt_root n 1
  · -- One step more ends at the root.
    have hbelow' := sqrt_le_newtonStep (n := n) (x := n.sqrt + 1) (by omega)
    have hlt := newtonStep_lt (n := n) (x := n.sqrt + 1) (by omega)
    rw [newtonSqrt_succ (by omega)]
    show newtonStep n (n.sqrt + 1) = n.sqrt
    omega

/-- From a distance of a `q`-th of the root. -/
theorem newtonSqrt_eq_sqrt (hle : n.sqrt ≤ x) (hgap : q * (x - n.sqrt) ≤ n.sqrt + 2 * q)
    (hk : 2 * n.sqrt < (2 * q) ^ 2 ^ k) : newtonSqrt n (k + 2) x = n.sqrt := by
  induction k generalizing x q with
  | zero =>
    rw [pow_zero, pow_one] at hk
    have hnear : x - n.sqrt ≤ 2 := by
      by_contra hfar
      nlinarith
    exact newtonSqrt_near hle (by omega)
  | succ k ih =>
    obtain ⟨d, rfl⟩ := Nat.exists_eq_add_of_le hle
    obtain rfl | hd := Nat.eq_zero_or_pos d
    · exact newtonSqrt_root n _
    have hbelow := sqrt_le_newtonStep (n := n) (x := n.sqrt + d) (by omega)
    obtain ⟨e, he⟩ := Nat.exists_eq_add_of_le hbelow
    rw [newtonSqrt_succ (by omega), he]
    rw [Nat.add_sub_cancel_left] at hgap
    refine ih (Nat.le_add_right _ _) (q := 2 * q * q) ?_ ?_
    · rw [Nat.add_sub_cancel_left]
      exact gap_squares (by omega) hgap (newtonStep_gap rfl he)
    · have hsquare : 2 * (2 * q * q) = (2 * q) ^ 2 := by ring
      rw [hsquare, ← pow_mul, ← pow_succ']
      exact hk

end P2P333.Lib
