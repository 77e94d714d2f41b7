import P2P333.Lib.Newton

/-!
# Fixed-point square roots

`Fixed32::sqrt` in `333-platform/src/determinism/fixed_point.rs`. The raw value is an `i32`; the
root is computed in `i64`, where a value that does not fit and a division by zero are `none`.

Results:
1. `newton_eq`: as long as nothing overflows, the loop is `newtonSqrt`.
2. `sqrt_exact`: the root is the integer square root of the shifted value, for every positive input.
-/

namespace P2P333.Platform333.Determinism

open Lib

/-- Q16.16 fixed-point number backed by i32. -/
structure Fixed32 where
  raw : Int32
deriving DecidableEq

namespace Fixed32

def zero : Fixed32 := ⟨0⟩

/-! ## The computation in `i64` -/

/-- The value, if it is an `i64`. -/
def i64 (v : Int) : Option Int := if -2 ^ 63 ≤ v ∧ v < 2 ^ 63 then some v else none

/-- `a / b`, which rounds towards zero. -/
def divI64 (a b : Int) : Option Int := if b = 0 then none else i64 (a.tdiv b)

/-- Of the 64 bits of two's complement. -/
def leadingZeros (v : Int) : Nat := 64 - (v % 2 ^ 64).toNat.size

/-- The Newton-Raphson loop, for so many iterations. -/
def newton (nShifted : Int) : Nat → Int → Option Int
  | 0, x => some x
  | rounds + 1, x => do
    let sum ← i64 (x + (← divI64 nShifted x))
    let xNew := sum >>> (1 : Nat)
    if xNew ≥ x then some x else newton nShifted rounds xNew

/-- Square root via Newton-Raphson in fixed-point. -/
def sqrt (s : Fixed32) : Option Fixed32 :=
  if s.raw ≤ 0 then some zero
  else do
    let nShifted ← i64 (s.raw.toInt * 2 ^ 16)
    -- Initial guess: bit-shift estimate.
    let bits := 64 - leadingZeros nShifted
    let guess ← i64 (2 ^ ((bits + 1) / 2))
    let x ← newton nShifted 8 guess
    some ⟨Int32.ofInt x⟩

/-! ## The integer square root -/

variable {n x : Nat}

theorem i64_natCast (h : x < 2 ^ 63) : i64 x = some (x : Int) := by
  rw [i64, if_pos]
  omega

theorem newton_succ {nShifted y q sum : Int} {rounds : Nat} (hdiv : divI64 nShifted y = some q)
    (hsum : i64 (y + q) = some sum) : newton nShifted (rounds + 1) y =
      if sum >>> (1 : Nat) ≥ y then some y else newton nShifted rounds (sum >>> (1 : Nat)) := by
  rw [newton, hdiv, Option.bind_eq_bind, Option.bind_some, hsum, Option.bind_some]

/-- Nothing overflows, and the loop does what it does on natural numbers. -/
theorem newton_eq (hpos : 0 < n) (hn : n < 2 ^ 62) (rounds : Nat) (hx : x < 2 ^ 62)
    (hroot : n.sqrt ≤ x) : newton n rounds x = some (newtonSqrt n rounds x : Int) := by
  induction rounds generalizing x with
  | zero => rfl
  | succ rounds ih =>
    have hsqrt : 0 < n.sqrt := Nat.sqrt_pos.mpr hpos
    have hx0 : 0 < x := by omega
    have hquot : n / x ≤ n := Nat.div_le_self n x
    have hdiv : divI64 n x = some ((n / x : Nat) : Int) := by
      rw [divI64, if_neg (by omega)]
      exact i64_natCast (by omega)
    have hsum : i64 ((x : Int) + (n / x : Nat)) = some ((x + n / x : Nat) : Int) :=
      i64_natCast (by omega)
    have hhalf : ((x + n / x : Nat) : Int) >>> (1 : Nat) = (newtonStep n x : Nat) := by
      rw [Int.shiftRight_eq_div_pow]
      rfl
    rw [newton_succ hdiv hsum, hhalf, newtonSqrt]
    by_cases hend : newtonStep n x ≥ x
    · rw [if_pos (Int.ofNat_le.mpr hend), if_pos hend]
    · rw [if_neg (mt Int.ofNat_le.mp hend), if_neg hend]
      exact ih (by omega) (sqrt_le_newtonStep hx0)

/-- The first guess is not below the root and at most twice as large. -/
theorem guess_bounds (hpos : 1 < n) :
    n.sqrt ≤ 2 ^ ((n.size + 1) / 2) ∧ 2 ^ ((n.size + 1) / 2) ≤ 2 * n.sqrt := by
  have hupper := Nat.lt_size_self n
  have hsize : 0 < n.size := Nat.size_pos.mpr (by omega)
  have hlower : 2 ^ (n.size - 1) ≤ n := Nat.lt_size.mp (by omega)
  generalize hj : (n.size + 1) / 2 = j
  constructor
  · have hsquare : n < 2 ^ j * 2 ^ j := by
      rw [← pow_add]
      exact hupper.trans_le (Nat.pow_le_pow_right (by decide) (by omega))
    exact (Nat.sqrt_lt.mpr hsquare).le
  · obtain ⟨i, rfl⟩ : ∃ i, j = i + 1 := ⟨j - 1, by omega⟩
    have hsquare : 2 ^ i * 2 ^ i ≤ n := by
      rw [← pow_add]
      exact (Nat.pow_le_pow_right (by decide) (by omega)).trans hlower
    have hle := Nat.le_sqrt.mpr hsquare
    omega

theorem leadingZeros_natCast (hn : n < 2 ^ 63) : 64 - leadingZeros n = n.size := by
  have hsize : n.size ≤ 63 := Nat.size_le.mpr hn
  have hmod : ((n : Int) % 2 ^ 64).toNat = n := by omega
  rw [leadingZeros, hmod]
  omega

/-- The root of every positive value is exact; nothing overflows and nothing is divided by zero. -/
theorem sqrt_exact (s : Fixed32) (hs : 0 < s.raw.toInt) : ∃ root, s.sqrt = some root ∧
    0 ≤ root.raw.toInt ∧ root.raw.toInt * root.raw.toInt ≤ s.raw.toInt * 65536 ∧
    s.raw.toInt * 65536 < (root.raw.toInt + 1) * (root.raw.toInt + 1) := by
  obtain ⟨r, hr⟩ := Int.eq_ofNat_of_zero_le hs.le
  have hmax := s.raw.toInt_lt
  generalize hn : r * 65536 = n
  have hn47 : n < 2 ^ 47 := by omega
  have hbig : 1 < n := by omega
  have hcast : s.raw.toInt * 2 ^ 16 = (n : Int) := by omega
  have hroot24 : n.sqrt < 2 ^ 24 := Nat.sqrt_lt.mpr (by omega)
  obtain ⟨habove, htwice⟩ := guess_bounds hbig
  have hguess : i64 (2 ^ ((n.size + 1) / 2)) = some ((2 ^ ((n.size + 1) / 2) : Nat) : Int) := by
    rw [← i64_natCast (by omega)]
    push_cast
    rfl
  -- Six steps reach every root below `2 ^ 31`; the loop has eight.
  have hsteps : newtonSqrt n 8 (2 ^ ((n.size + 1) / 2)) = n.sqrt :=
    newtonSqrt_eq_sqrt (q := 1) (k := 6) habove (by omega) (by norm_num; omega)
  have hsqrt : s.sqrt = some ⟨Int32.ofInt n.sqrt⟩ := by
    have hnot : ¬ s.raw ≤ 0 := by
      rw [Int32.le_iff_toInt_le]
      exact Int.not_le.mpr hs
    have hbits : 64 - leadingZeros n = n.size := leadingZeros_natCast (by omega)
    rw [sqrt, if_neg hnot, hcast, i64_natCast (by omega), Option.bind_eq_bind, Option.bind_some,
      hbits]
    dsimp only
    rw [hguess, Option.bind_some, newton_eq (by omega) (by omega) 8 (by omega) habove, hsteps,
      Option.bind_some]
  have hroot : (Int32.ofInt n.sqrt).toInt = n.sqrt :=
    Int32.toInt_ofInt_of_le (by omega) (by omega)
  refine ⟨_, hsqrt, ?_⟩
  have hlower := Nat.sqrt_le n
  have hupper := Nat.lt_succ_sqrt n
  have hcast' : s.raw.toInt * 65536 = (n : Int) := hcast
  rw [hcast']
  show 0 ≤ (Int32.ofInt n.sqrt).toInt ∧ _
  rw [hroot]
  exact ⟨by omega, by exact_mod_cast hlower, by exact_mod_cast hupper⟩

/-- The root of two. -/
theorem sqrt_exact_two : ∃ root, sqrt ⟨131072⟩ = some root ∧ 0 ≤ root.raw.toInt ∧
    root.raw.toInt * root.raw.toInt ≤ 131072 * 65536 ∧
    131072 * 65536 < (root.raw.toInt + 1) * (root.raw.toInt + 1) :=
  sqrt_exact ⟨131072⟩ (by decide)

end Fixed32

end P2P333.Platform333.Determinism
