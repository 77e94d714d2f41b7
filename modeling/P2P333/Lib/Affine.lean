import Mathlib.Data.BitVec
import Mathlib.Dynamics.PeriodicPts.Lemmas
import Mathlib.SetTheory.Cardinal.Finite
import Mathlib.Tactic.LinearCombination
import Mathlib.Tactic.Ring

/-!
# Affine maps of full period

A map that moves every point `x` by an odd number `4 * t * x + 2 * s + 1`, such as `x ↦ a * x + c`
with `a % 4 = 1` and `c` odd: `2 ^ k` steps move every point by an odd multiple of `2 ^ k`. On the
words of `w` bits every orbit is therefore the whole type, and a count along `2 ^ w` steps of it is
a count over all words.
-/

namespace P2P333.Lib

open Function

section Ring

variable {R : Type*} [CommRing R] {m : R} {g : R → R}

/-- `g` moves every point by an odd multiple of `m`. -/
def OddStride (m : R) (g : R → R) : Prop := ∃ t s, ∀ x, g x = x + m * (4 * t * x + (s + s) + 1)

theorem oddStride_affine (t s : R) : OddStride 1 fun x => (4 * t + 1) * x + (2 * s + 1) :=
  ⟨t, s, fun x => by ring⟩

theorem OddStride.twice (h : OddStride m g) : OddStride (2 * m) (g ∘ g) := by
  obtain ⟨t, s, hg⟩ := h
  refine ⟨t + 2 * t ^ 2 * m, s + t * m * (2 * s + 1), fun x => ?_⟩
  rw [comp_apply, hg (g x), hg x]
  ring

theorem OddStride.iterate (h : OddStride 1 g) (k : Nat) : OddStride (2 ^ k) g^[2 ^ k] := by
  induction k with
  | zero => simpa using h
  | succ k ih =>
    have htwice := ih.twice
    rwa [← iterate_add, ← two_mul, ← pow_succ', ← pow_succ'] at htwice

/-- The period is exact: half of it still moves the point. -/
theorem OddStride.minimalPeriod_eq (h : OddStride 1 g) {k : Nat} (hzero : (2 : R) ^ (k + 1) = 0)
    (hne : (2 : R) ^ k ≠ 0) (x : R) : minimalPeriod g x = 2 ^ (k + 1) := by
  have : Fact (Nat.Prime 2) := ⟨Nat.prime_two⟩
  refine minimalPeriod_eq_prime_pow (fun hhalf => hne ?_) ?_
  · obtain ⟨t, s, hg⟩ := h.iterate k
    have hx : x + 2 ^ k * (4 * t * x + (s + s) + 1) = x := (hg x).symm.trans hhalf
    linear_combination hx - (2 * t * x + s) * hzero
  · obtain ⟨t, s, hg⟩ := h.iterate (k + 1)
    show g^[2 ^ (k + 1)] x = x
    rw [hg, hzero, zero_mul, add_zero]

end Ring

/-! ## Counting along an orbit -/

section Orbit

variable {α : Type*} {f : α → α} {x : α} {n : Nat}

/-- An orbit as long as the type passes every point exactly once. -/
theorem bijective_iterate [Finite α] (hperiod : minimalPeriod f x = n) (hcard : Nat.card α = n) :
    Bijective fun i : Fin n => f^[i] x := by
  have hinj : Injective fun i : Fin n => f^[i] x := fun i j h =>
    Fin.ext (iterate_injOn_Iio_minimalPeriod (hperiod ▸ i.isLt) (hperiod ▸ j.isLt) h)
  refine ⟨hinj, ?_⟩
  rw [← Nat.card_fin n] at hcard
  exact (Nat.bijective_iff_injective_and_card _).mpr ⟨hinj, hcard.symm⟩ |>.2

theorem card_orbit_eq [Finite α] (hperiod : minimalPeriod f x = n) (hcard : Nat.card α = n)
    (P : α → Prop) : Nat.card {i : Fin n // P (f^[i] x)} = Nat.card {a : α // P a} :=
  Nat.card_congr ((Equiv.ofBijective _ (bijective_iterate hperiod hcard)).subtypeEquiv
    fun _ => Iff.rfl)

end Orbit

/-! ## Counting values -/

/-- A function that a second one completes to an injection takes every value equally often. -/
theorem card_preimage_eq {α β γ : Type*} [Finite β] [Finite γ] {f : α → β} {g : α → γ}
    (hinj : Injective fun a => (f a, g a)) (hcard : Nat.card α = Nat.card (β × γ)) (Q : β → Prop) :
    Nat.card {a : α // Q (f a)} = Nat.card {b : β // Q b} * Nat.card γ := by
  have hbij := (Nat.bijective_iff_injective_and_card _).mpr ⟨hinj, hcard⟩
  calc Nat.card {a : α // Q (f a)}
    _ = Nat.card {p : β × γ // Q p.1} :=
      Nat.card_congr ((Equiv.ofBijective _ hbij).subtypeEquiv fun _ => Iff.rfl)
    _ = Nat.card ({b : β // Q b} × γ) := Nat.card_congr Equiv.prodSubtypeFstEquivSubtypeProd
    _ = Nat.card {b : β // Q b} * Nat.card γ := Nat.card_prod _ _

/-- What is left of `n` numbers without the first `n % b` has every residue `n / b` times. -/
theorem card_residue {n b k : Nat} (hk : k < b) :
    Nat.card {r : Fin n // n % b ≤ r ∧ (r : Nat) % b = k} = n / b := by
  have hb : 0 < b := k.zero_le.trans_lt hk
  have hn : n % b < b := Nat.mod_lt n hb
  have hlen := Nat.mod_add_div n b
  refine (Nat.card_eq_of_bijective (β := Fin (n / b))
    (fun r => ⟨(r.1 - n % b) / b, ?_⟩) ⟨?_, fun q => ?_⟩).trans (Nat.card_fin _)
  · refine Nat.div_lt_of_lt_mul ?_
    have hr := r.1.isLt
    have hlow := r.2.1
    omega
  · rintro ⟨r, hr, hrk⟩ ⟨r', hr', hrk'⟩ hq
    have hdiv : (r - n % b) / b = (r' - n % b) / b := congrArg Fin.val hq
    have hmod : (r - n % b) % b = (r' - n % b) % b := by
      refine Nat.ModEq.add_right_cancel' (n % b) ?_
      rw [Nat.sub_add_cancel hr, Nat.sub_add_cancel hr']
      exact hrk.trans hrk'.symm
    have hr1 := Nat.div_add_mod (r - n % b) b
    have hr2 := Nat.div_add_mod (r' - n % b) b
    rw [hdiv, hmod, hr2] at hr1
    exact Subtype.ext (Fin.ext (by show (r : Nat) = r'; omega))
  · have hρ : (k + (b - n % b)) % b < b := Nat.mod_lt _ hb
    have hq : b * q + (k + (b - n % b)) % b < b * (n / b) := calc
      b * q + (k + (b - n % b)) % b < b * q + b := Nat.add_lt_add_left hρ _
      _ = b * (q + 1) := (Nat.mul_succ ..).symm
      _ ≤ b * (n / b) := Nat.mul_le_mul_left b q.isLt
    refine ⟨⟨⟨n % b + (b * q + (k + (b - n % b)) % b), by omega⟩, Nat.le_add_right .., ?_⟩, ?_⟩
    · show (n % b + (b * q + (k + (b - n % b)) % b)) % b = k
      rw [Nat.add_left_comm, Nat.mul_add_mod, Nat.add_mod_mod,
        show n % b + (k + (b - n % b)) = k + b by omega, Nat.add_mod_right, Nat.mod_eq_of_lt hk]
    · refine Fin.ext ?_
      show (n % b + (b * q + (k + (b - n % b)) % b) - n % b) / b = q
      rw [Nat.add_sub_cancel_left, Nat.mul_add_div hb, Nat.div_eq_of_lt hρ, Nat.add_zero]

/-! ## Words -/

theorem card_bitVec (w : Nat) : Nat.card (BitVec w) = 2 ^ w := by
  rw [Nat.card_congr (BitVec.equivFin (m := w)).toEquiv, Nat.card_fin]

theorem finite_bitVec (w : Nat) : Finite (BitVec w) :=
  Finite.of_equiv _ (BitVec.equivFin (m := w)).toEquiv.symm

theorem toNat_two_pow (w k : Nat) : ((2 : BitVec w) ^ k).toNat = 2 ^ k % 2 ^ w := by
  have hcast : (2 : BitVec w) ^ k = ((2 ^ k : Nat) : BitVec w) := by push_cast; rfl
  rw [hcast, BitVec.natCast_eq_ofNat, BitVec.toNat_ofNat]

/-- On words, a map that moves every point by an odd number has one orbit. -/
theorem OddStride.period_bitVec {w : Nat} {g : BitVec (w + 1) → BitVec (w + 1)}
    (h : OddStride 1 g) (x : BitVec (w + 1)) : minimalPeriod g x = 2 ^ (w + 1) := by
  refine h.minimalPeriod_eq (BitVec.eq_of_toNat_eq ?_) (fun hzero => ?_) x
  · rw [toNat_two_pow, Nat.mod_self]
    rfl
  · have hval := toNat_two_pow (w + 1) w
    rw [hzero, Nat.mod_eq_of_lt (Nat.pow_lt_pow_right one_lt_two w.lt_succ_self)] at hval
    exact (Nat.two_pow_pos w).ne hval

end P2P333.Lib
