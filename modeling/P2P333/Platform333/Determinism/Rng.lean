import P2P333.Lib.Affine
import P2P333.Platform333.Determinism.FixedPoint

/-!
# Deterministic random numbers

`333-platform/src/determinism/rng.rs`: PCG32, seeded per frame. The words are bit vectors, on which
`+` and `*` wrap. The rejection loop of `next_u32_below` takes a number of draws as fuel.

Results:
1. `DeterministicRng.minimalPeriod_step`: the state runs through all `2 ^ 64` words.
2. `nextU32_uniform`: along a period every number is drawn equally often.
3. `nextU32Below_returns`: from every state the loop ends, with a number below the bound.
4. `accepted_uniform`: along a period every number below the bound is returned equally often.
5. `nextFixedRange_mem_iff`: a fixed-point draw lies in its range when the width fits in an `i32`.
-/

namespace P2P333.Platform333.Determinism

open Lib Function

def pcgMultiplier : BitVec 64 := 6364136223846793005

/-- PCG32 advance step: state = state * multiplier + inc. -/
def pcg32Step (state inc : BitVec 64) : BitVec 64 := state * pcgMultiplier + inc

def xorshifted (state : BitVec 64) : BitVec 32 := (((state >>> 18) ^^^ state) >>> 27).setWidth 32

/-- PCG32 output function: XSH-RR (xorshift high bits, random rotate). -/
def pcg32Output (state : BitVec 64) : BitVec 32 :=
  (xorshifted state).rotateRight (state >>> 59).toNat

/-- xorshift64 mixing function for seeding. -/
def xorshift64Mix (x : BitVec 64) : BitVec 64 :=
  let x := x ^^^ (x <<< 13)
  let x := x ^^^ (x >>> 7)
  let x := x ^^^ (x <<< 17)
  let x := (x ^^^ (x >>> 30)) * 0xBF58476D1CE4E5B9
  let x := (x ^^^ (x >>> 27)) * 0x94D049BB133111EB
  x ^^^ (x >>> 31)

theorem odd_stream (stream : BitVec 64) : (stream <<< 1 ||| 1).toNat % 2 = 1 := by
  rw [BitVec.toNat_or, Nat.or_mod_two_eq_one]
  exact .inr rfl

/-- PCG32-based deterministic RNG, seeded per frame. -/
structure DeterministicRng where
  state : BitVec 64
  inc : BitVec 64
  /-- PCG32 stream (must be odd). -/
  odd : inc.toNat % 2 = 1
deriving DecidableEq

namespace DeterministicRng

def new (state stream : BitVec 64) : DeterministicRng where
  state := pcg32Step (pcg32Step (0 + (stream <<< 1 ||| 1)) (stream <<< 1 ||| 1) + state)
    (stream <<< 1 ||| 1)
  inc := stream <<< 1 ||| 1
  odd := odd_stream stream

def seedForFrame (globalSeed frameN : BitVec 64) : DeterministicRng :=
  let mixed := xorshift64Mix (globalSeed ^^^ frameN * 0x9E3779B97F4A7C15)
  let stream := xorshift64Mix (mixed ^^^ 0x6C62272E07BB0142)
  new mixed stream

def advance (rng : DeterministicRng) : DeterministicRng :=
  { rng with state := pcg32Step rng.state rng.inc }

@[simp] theorem advance_inc (rng : DeterministicRng) : rng.advance.inc = rng.inc := by
  cases rng
  rfl

@[simp] theorem advance_state (rng : DeterministicRng) :
    rng.advance.state = pcg32Step rng.state rng.inc := by
  cases rng
  rfl

/-- Advance RNG and return next u32. -/
def nextU32 (rng : DeterministicRng) : BitVec 32 × DeterministicRng :=
  (pcg32Output rng.state, rng.advance)

/-- `bound.wrapping_neg() % bound`. -/
def threshold (bound : BitVec 32) : BitVec 32 := -bound % bound

/-- The loop of `next_u32_below`, for so many draws. -/
def reject (bound : BitVec 32) : Nat → DeterministicRng → Option (BitVec 32 × DeterministicRng)
  | 0, _ => none
  | draws + 1, rng =>
    let (r, rng) := rng.nextU32
    if threshold bound ≤ r then some (r % bound, rng) else reject bound draws rng

/-- Return a random u32 in [0, bound) using rejection sampling (unbiased). -/
def nextU32Below (draws : Nat) (rng : DeterministicRng) (bound : BitVec 32) :
    Option (BitVec 32 × DeterministicRng) :=
  if bound = 0 then some (0, rng) else reject bound draws rng

/-! ## The period -/

variable {rng : DeterministicRng} {bound : BitVec 32}

/-- The state after so many draws. -/
def after (rng : DeterministicRng) (n : Nat) : DeterministicRng := advance^[n] rng

section

variable (rng)

theorem after_succ (n : Nat) : rng.after (n + 1) = rng.advance.after n :=
  iterate_succ_apply _ _ _

theorem after_inc (n : Nat) : (rng.after n).inc = rng.inc := by
  induction n generalizing rng with
  | zero => rfl
  | succ n ih => rw [after_succ, ih, advance_inc]

theorem after_state (n : Nat) : (rng.after n).state = (pcg32Step · rng.inc)^[n] rng.state := by
  induction n generalizing rng with
  | zero => rfl
  | succ n ih => rw [after_succ, ih, iterate_succ_apply, advance_inc, advance_state]

theorem oddStride_pcg32Step : OddStride 1 (pcg32Step · rng.inc) := by
  have hmul : pcgMultiplier = 4 * 1591034055961698251 + 1 := by decide
  have hinc : rng.inc = (2 : BitVec 64) * (rng.inc >>> 1) + 1 := by
    have hodd := rng.odd
    bv_omega
  have hstride := oddStride_affine (1591034055961698251 : BitVec 64) (rng.inc >>> 1)
  rw [← hmul, ← hinc] at hstride
  simpa only [pcg32Step, mul_comm] using hstride

/-- The state runs through all words. -/
theorem minimalPeriod_step : minimalPeriod (pcg32Step · rng.inc) rng.state = 2 ^ 64 :=
  rng.oddStride_pcg32Step.period_bitVec rng.state

/-- What holds for some states holds for as many of the states of a period. -/
theorem card_after (P : BitVec 64 → Prop) :
    Nat.card {n : Fin (2 ^ 64) // P (rng.after n).state} = Nat.card {s : BitVec 64 // P s} := by
  have := finite_bitVec 64
  simp only [after_state]
  exact card_orbit_eq rng.minimalPeriod_step (card_bitVec 64) P

end

end DeterministicRng

/-! ## The output function -/

theorem rotateRight_inj {w r : Nat} (hr : r < w) {x y : BitVec w}
    (h : x.rotateRight r = y.rotateRight r) : x = y := by
  refine BitVec.eq_of_getLsbD_eq fun j hj => ?_
  by_cases hlow : j < r
  · have hbit := congrArg (BitVec.getLsbD · (j + (w - r))) h
    simpa only [BitVec.getLsbD_rotateRight_of_lt hr, show ¬ j + (w - r) < w - r by omega,
      show j + (w - r) < w by omega, decide_false, decide_true, cond_false, Bool.true_and,
      Nat.add_sub_cancel] using hbit
  · have hbit := congrArg (BitVec.getLsbD · (j - r)) h
    simpa only [BitVec.getLsbD_rotateRight_of_lt hr, show j - r < w - r by omega,
      show r + (j - r) = j by omega, decide_true, cond_true] using hbit

/-- The five bits that say how far to rotate and the bits that are shifted out. -/
def hidden (s : BitVec 64) : BitVec 5 × BitVec 27 := ((s >>> 59).setWidth 5, s.setWidth 27)

/-- The output and the hidden bits give the state back, from the highest bit down. -/
theorem output_hidden_injective : Injective fun s => (pcg32Output s, hidden s) := by
  intro s s' h
  obtain ⟨hout, hhid⟩ := Prod.mk.inj h
  obtain ⟨htop, hlow⟩ := Prod.mk.inj hhid
  have hrot : s >>> 59 = s' >>> 59 := by
    refine BitVec.eq_of_getLsbD_eq fun i hi => ?_
    have hbit := congrArg (BitVec.getLsbD · i) htop
    by_cases h5 : i < 5
    · simpa [h5] using hbit
    · simp [BitVec.getLsbD_of_ge, show 64 ≤ 59 + i by omega]
  have hxor : xorshifted s = xorshifted s' := by
    rw [pcg32Output, pcg32Output, hrot] at hout
    refine rotateRight_inj ?_ hout
    rw [BitVec.toNat_ushiftRight, Nat.shiftRight_eq_div_pow]
    have hlt := s'.isLt
    omega
  have hbits : ∀ k i, 64 ≤ i + k → s.getLsbD i = s'.getLsbD i := by
    intro k
    induction k with
    | zero => exact fun i hi => by simp [BitVec.getLsbD_of_ge, show 64 ≤ i from hi]
    | succ k ih =>
      intro i hi
      by_cases hhigh : 59 ≤ i
      · have hbit := congrArg (BitVec.getLsbD · (i - 59)) hrot
        simpa [show 59 + (i - 59) = i by omega] using hbit
      by_cases hmid : 27 ≤ i
      · have hbit := congrArg (BitVec.getLsbD · (i - 27)) hxor
        have hnext := ih (18 + i) (by omega)
        simpa [xorshifted, show 27 + (i - 27) = i by omega, show i - 27 < 32 by omega, hnext]
          using hbit
      · have hbit := congrArg (BitVec.getLsbD · i) hlow
        simpa [show i < 27 by omega] using hbit
  exact BitVec.eq_of_getLsbD_eq fun i _ => hbits 64 i (by omega)

/-- Every output comes from the same number of states. -/
theorem card_pcg32Output (Q : BitVec 32 → Prop) :
    Nat.card {s : BitVec 64 // Q (pcg32Output s)} = Nat.card {r : BitVec 32 // Q r} * 2 ^ 32 := by
  have := finite_bitVec
  have hhidden : Nat.card (BitVec 5 × BitVec 27) = 2 ^ 32 := by
    rw [Nat.card_prod, card_bitVec, card_bitVec]
    norm_num
  rw [card_preimage_eq output_hidden_injective ?_ Q, hhidden]
  rw [Nat.card_prod, hhidden, card_bitVec, card_bitVec]
  norm_num

namespace DeterministicRng

variable {rng rng' : DeterministicRng} {bound r k : BitVec 32} {draws : Nat}

/-- Along a period the draws with a property are as frequent as the numbers with it. -/
theorem card_nextU32 (rng : DeterministicRng) (Q : BitVec 32 → Prop) :
    Nat.card {n : Fin (2 ^ 64) // Q (rng.after n).nextU32.1} =
      Nat.card {r : BitVec 32 // Q r} * 2 ^ 32 :=
  (rng.card_after fun s => Q (pcg32Output s)).trans (card_pcg32Output Q)

/-- Along a period every number is drawn equally often. -/
theorem nextU32_uniform (rng : DeterministicRng) (r : BitVec 32) :
    Nat.card {n : Fin (2 ^ 64) // (rng.after n).nextU32.1 = r} = 2 ^ 32 := by
  rw [rng.card_nextU32 (· = r), Nat.card_unique, one_mul]

/-! ## The rejection loop -/

/-- The first accepted draw is the one after `n` rejected ones. -/
def Accepts (bound : BitVec 32) (rng : DeterministicRng) (n : Nat) : Prop :=
  threshold bound ≤ (rng.after n).nextU32.1 ∧ ∀ i < n, ¬ threshold bound ≤ (rng.after i).nextU32.1

theorem reject_succ (bound : BitVec 32) (draws : Nat) (rng : DeterministicRng) :
    reject bound (draws + 1) rng =
      if threshold bound ≤ rng.nextU32.1 then some (rng.nextU32.1 % bound, rng.advance)
      else reject bound draws rng.advance := rfl

theorem Accepts.reject {n : Nat} (h : Accepts bound rng n) (hdraws : n < draws) :
    reject bound draws rng = some ((rng.after n).nextU32.1 % bound, rng.after (n + 1)) := by
  induction draws generalizing rng n with
  | zero => exact absurd hdraws n.not_lt_zero
  | succ draws ih =>
    rw [reject_succ]
    cases n with
    | zero => exact if_pos h.1
    | succ n =>
      have hnext : Accepts bound rng.advance n := by
        refine ⟨?_, fun i hi => ?_⟩
        · rw [← after_succ]
          exact h.1
        · rw [← after_succ]
          exact h.2 (i + 1) (Nat.succ_lt_succ hi)
      have hfirst : ¬ threshold bound ≤ rng.nextU32.1 := h.2 0 n.succ_pos
      rw [if_neg hfirst, after_succ, after_succ rng (n + 1)]
      exact ih hnext (Nat.lt_of_succ_lt_succ hdraws)

theorem exists_accepts (rng : DeterministicRng) (bound : BitVec 32) :
    ∃ n < 2 ^ 64, Accepts bound rng n := by
  have hpos : 0 < Nat.card {n : Fin (2 ^ 64) // (rng.after n).nextU32.1 = BitVec.allOnes 32} := by
    rw [rng.nextU32_uniform]
    exact Nat.two_pow_pos 32
  obtain ⟨n, hn⟩ := (Nat.card_pos_iff.mp hpos).1.some
  have haccept : threshold bound ≤ (rng.after n).nextU32.1 := by
    rw [hn, BitVec.le_def, BitVec.toNat_allOnes]
    exact Nat.le_pred_of_lt (threshold bound).isLt
  have hex : ∃ n, threshold bound ≤ (rng.after n).nextU32.1 := ⟨n, haccept⟩
  classical
  refine ⟨Nat.find hex, (Nat.find_min' hex haccept).trans_lt n.isLt,
    Nat.find_spec hex, fun i hi => Nat.find_min hex hi⟩

theorem pos_of_ne_zero (h : bound ≠ 0) : 0 < bound.toNat :=
  Nat.pos_of_ne_zero fun hzero => h (BitVec.eq_of_toNat_eq hzero)

/-- From every state the loop ends, with a number below the bound. -/
theorem nextU32Below_returns (rng : DeterministicRng) (bound : BitVec 32) :
    ∃ n ≤ 2 ^ 64, ∃ r rng', (∀ draws ≥ n, nextU32Below draws rng bound = some (r, rng')) ∧
      (bound ≠ 0 → r < bound) ∧ rng'.inc = rng.inc := by
  by_cases hbound : bound = 0
  · exact ⟨0, Nat.zero_le _, 0, rng, fun draws _ => if_pos hbound, fun h => absurd hbound h, rfl⟩
  · obtain ⟨n, hn, haccepts⟩ := rng.exists_accepts bound
    refine ⟨n + 1, hn, (rng.after n).nextU32.1 % bound, rng.after (n + 1), fun draws hdraws => ?_,
      fun _ => ?_, rng.after_inc _⟩
    · rw [nextU32Below, if_neg hbound]
      exact haccepts.reject hdraws
    · exact BitVec.umod_lt _ (BitVec.lt_def.mpr (pos_of_ne_zero hbound))

theorem toNat_threshold (hbound : bound ≠ 0) :
    (threshold bound).toNat = 2 ^ 32 % bound.toNat := by
  have hlt : 2 ^ 32 - bound.toNat < 2 ^ 32 :=
    Nat.sub_lt (Nat.two_pow_pos 32) (pos_of_ne_zero hbound)
  rw [threshold, BitVec.toNat_umod, BitVec.toNat_neg, Nat.mod_eq_of_lt hlt,
    ← Nat.mod_eq_sub_mod bound.isLt.le]

/-- What one pass through the loop returns. -/
theorem nextU32Below_one (rng : DeterministicRng) (hbound : bound ≠ 0) :
    (∃ rng', nextU32Below 1 rng bound = some (k, rng')) ↔
      threshold bound ≤ rng.nextU32.1 ∧ rng.nextU32.1 % bound = k := by
  rw [nextU32Below, if_neg hbound, reject_succ]
  split_ifs with haccept
  · simp [haccept]
  · exact iff_of_false nofun fun h => haccept h.1

/-- Along a period every number below the bound is returned without a rejection equally often. -/
theorem accepted_uniform (rng : DeterministicRng) (h : k < bound) :
    Nat.card {n : Fin (2 ^ 64) // ∃ rng', nextU32Below 1 (rng.after n) bound = some (k, rng')} =
      2 ^ 32 / bound.toNat * 2 ^ 32 := by
  have hbound : bound ≠ 0 := by
    rintro rfl
    exact absurd h BitVec.not_lt_zero
  have hone (n : Fin (2 ^ 64)) := nextU32Below_one (k := k) (rng.after n) hbound
  rw [Nat.card_congr (Equiv.subtypeEquivRight hone),
    rng.card_nextU32 fun r => threshold bound ≤ r ∧ r % bound = k,
    ← card_residue (BitVec.lt_def.mp h)]
  refine congrArg (· * 2 ^ 32) (Nat.card_congr ?_)
  refine (BitVec.equivFin (m := 32)).toEquiv.subtypeEquiv fun r => ?_
  rw [BitVec.le_def, toNat_threshold hbound, ← BitVec.toNat_inj, BitVec.toNat_umod]
  rfl

theorem accepted_uniform_die :
    Nat.card {n : Fin (2 ^ 64) // ∃ rng',
      nextU32Below 1 ((seedForFrame 7 42).after n) 6 = some (5, rng')} =
        2 ^ 32 / (6 : BitVec 32).toNat * 2 ^ 32 :=
  accepted_uniform (seedForFrame 7 42) (by decide)

end DeterministicRng

/-! ## Fixed-point draws -/

namespace Fixed32

instance instAddFixed32 : Add Fixed32 := ⟨fun a b => ⟨a.raw + b.raw⟩⟩

instance instSubFixed32 : Sub Fixed32 := ⟨fun a b => ⟨a.raw - b.raw⟩⟩

/-- Multiplication with i64 intermediate to prevent overflow. -/
def mulFixed (a b : Fixed32) : Fixed32 := ⟨Int32.ofInt ((a.raw.toInt * b.raw.toInt) >>> (16 : Nat))⟩

instance instMulFixed32 : Mul Fixed32 := ⟨mulFixed⟩

end Fixed32

namespace DeterministicRng

/-- Return a random Fixed32 in [0, 1) via bridge from u32. -/
def nextFixedUnit (rng : DeterministicRng) : Fixed32 × DeterministicRng :=
  let (bits, rng) := rng.nextU32
  (⟨Int32.ofInt (bits >>> 16).toNat⟩, rng)

/-- Return a random Fixed32 in [min, max). -/
def nextFixedRange (rng : DeterministicRng) (min max : Fixed32) : Fixed32 × DeterministicRng :=
  let (unit, rng) := rng.nextFixedUnit
  (min + (max - min) * unit, rng)

variable {lo hi : Fixed32}

/-- The raw value of a draw of `unit / 2 ^ 16`. Each of the three operators wraps. -/
def drawn (lo hi : Int) (unit : Nat) : Int :=
  (lo + ((hi - lo).bmod (2 ^ 32) * unit / 2 ^ 16).bmod (2 ^ 32)).bmod (2 ^ 32)

theorem toInt_nextFixedRange (rng : DeterministicRng) (lo hi : Fixed32) :
    (rng.nextFixedRange lo hi).1.raw.toInt =
      drawn lo.raw.toInt hi.raw.toInt (rng.nextU32.1.toNat / 2 ^ 16) := by
  have hunit : (Int32.ofInt (rng.nextU32.1 >>> 16).toNat).toInt =
      (rng.nextU32.1.toNat / 2 ^ 16 : Nat) := by
    have hlt := rng.nextU32.1.isLt
    rw [BitVec.toNat_ushiftRight, Nat.shiftRight_eq_div_pow]
    exact Int32.toInt_ofInt_of_le (by omega) (by omega)
  show (lo.raw + Int32.ofInt (((hi.raw - lo.raw).toInt *
    (Int32.ofInt (rng.nextU32.1 >>> 16).toNat).toInt) >>> (16 : Nat))).toInt = _
  rw [Int32.toInt_add, Int32.toInt_ofInt, Int32.toInt_sub, hunit, Int.shiftRight_eq_div_pow]
  rfl

/-- The `i32` that `n` wraps to. -/
theorem bmod_eq {n c : Int} (k : Int) (hwrap : c = n + 2 ^ 32 * k) (hlo : -2 ^ 31 ≤ c)
    (hhi : c < 2 ^ 31) : n.bmod (2 ^ 32) = c :=
  (Int.bmod_eq_iff (by decide)).mpr ⟨hlo, hhi, k, by rw [hwrap]; simp⟩

theorem bmod_of_fits {n : Int} (hlo : -2 ^ 31 ≤ n) (hhi : n < 2 ^ 31) : n.bmod (2 ^ 32) = n :=
  bmod_eq 0 (by rw [mul_zero, add_zero]) hlo hhi

section Width

variable {a b : Int} {unit : Nat} (ha : -2 ^ 31 ≤ a) (hb : b < 2 ^ 31)
include ha hb

theorem drawn_mem (hab : a < b) (hwidth : b - a < 2 ^ 31) (hunit : unit < 2 ^ 16) :
    a ≤ drawn a b unit ∧ drawn a b unit < b := by
  have hpos : 0 < b - a := Int.sub_pos_of_lt hab
  have hnonneg : 0 ≤ (b - a) * unit / 2 ^ 16 := by positivity
  have hbelow : (b - a) * unit / 2 ^ 16 < b - a := by
    refine Int.ediv_lt_of_lt_mul (by decide) (Int.mul_lt_mul_of_pos_left ?_ hpos)
    exact_mod_cast hunit
  have hmul : ((b - a) * unit / 2 ^ 16).bmod (2 ^ 32) = (b - a) * unit / 2 ^ 16 :=
    bmod_of_fits (by omega) (by omega)
  rw [drawn, bmod_of_fits (by omega) hwidth, hmul, bmod_of_fits (by omega) (by omega)]
  constructor <;> omega

/-- The wrapped width carries the least positive unit below `a`, or around to `b` and above. -/
theorem drawn_one_notMem (hwide : 2 ^ 31 ≤ b - a) : ¬ (a ≤ drawn a b 1 ∧ drawn a b 1 < b) := by
  have hinner : ((b - a).bmod (2 ^ 32) * (1 : Nat) / 2 ^ 16).bmod (2 ^ 32) =
      (b - a - 2 ^ 32) / 2 ^ 16 := by
    have hwrap : (b - a).bmod (2 ^ 32) = b - a - 2 ^ 32 :=
      bmod_eq (-1) (by ring) (by omega) (by omega)
    rw [hwrap, Nat.cast_one, mul_one]
    exact bmod_of_fits (by omega) (by omega)
  rintro ⟨hge, hle⟩
  rw [drawn, hinner] at hge hle
  by_cases hunder : a + (b - a - 2 ^ 32) / 2 ^ 16 < -2 ^ 31
  · rw [bmod_eq 1 rfl (by omega) (by omega)] at hle
    omega
  · rw [bmod_of_fits (by omega) (by omega)] at hge
    omega

end Width

/-- A fixed-point draw lies in its range, whatever the state, when the width fits in an `i32`. -/
theorem nextFixedRange_mem_iff (h : lo.raw < hi.raw) :
    (∀ rng : DeterministicRng, lo.raw ≤ (rng.nextFixedRange lo hi).1.raw ∧
      (rng.nextFixedRange lo hi).1.raw < hi.raw) ↔
    hi.raw.toInt - lo.raw.toInt < 2 ^ 31 := by
  have hlt := Int32.lt_iff_toInt_lt.mp h
  simp only [Int32.le_iff_toInt_le, Int32.lt_iff_toInt_lt, toInt_nextFixedRange]
  constructor
  · intro hmem
    by_contra hwide
    obtain ⟨s, hs⟩ : Nonempty {s : BitVec 64 // pcg32Output s = 65536} := by
      refine (Nat.card_pos_iff.mp ?_).1
      rw [card_pcg32Output (· = 65536), Nat.card_unique, one_mul]
      exact Nat.two_pow_pos 32
    have hone : (nextU32 ⟨s, 1, rfl⟩).1.toNat / 2 ^ 16 = 1 := by
      show (pcg32Output s).toNat / 2 ^ 16 = 1
      rw [hs]
      rfl
    have hmem := hmem ⟨s, 1, rfl⟩
    rw [hone] at hmem
    exact drawn_one_notMem lo.raw.le_toInt hi.raw.toInt_lt (not_lt.mp hwide) hmem
  · intro hwidth rng
    have hunit : rng.nextU32.1.toNat / 2 ^ 16 < 2 ^ 16 :=
      Nat.div_lt_of_lt_mul (by have hbits := rng.nextU32.1.isLt; omega)
    exact drawn_mem lo.raw.le_toInt hi.raw.toInt_lt hlt hwidth hunit

theorem nextFixedRange_mem_iff_unit :
    (∀ rng : DeterministicRng, (0 : Int32) ≤ (rng.nextFixedRange ⟨0⟩ ⟨65536⟩).1.raw ∧
      (rng.nextFixedRange ⟨0⟩ ⟨65536⟩).1.raw < 65536) ↔
    (65536 : Int32).toInt - (0 : Int32).toInt < 2 ^ 31 :=
  nextFixedRange_mem_iff (by decide)

end DeterministicRng

end P2P333.Platform333.Determinism
