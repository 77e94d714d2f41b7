import P2P333.Token333.Ledger

/-!
# The emission curve

`EmissionCurve` of `333-token/src/lib.rs`: the reward of an epoch, halved after each interval, and
its sum. The number of halvings is a `u64` that is cut down to `u32`, so that after 2³² of them the
curve starts again.

Results:
1. `paid_eq`: what an epoch pays.
2. `loop_eq`, `loop_le`, `loop_eq_none`: what the summation returns.
3. `halves_iff`: how far the curve halves.
-/

namespace P2P333.Token333

open Lib
open Transfer333 (checkedAdd checkedAdd_eq_some checkedAdd_eq_none)

/-- The interval is positive: the constructor asserts it. -/
structure EmissionCurve where
  initialReward : Amount
  halvingInterval : Epoch
  positive : 0 < halvingInterval.toNat

namespace EmissionCurve

def rewardAt (c : EmissionCurve) (e : Epoch) : Except TokenError Amount :=
  let steps : UInt32 := (e / c.halvingInterval).toUInt32
  if 128 ≤ steps then .ok 0 else .ok (c.initialReward >>> steps.toNat)

/-- The loop of `cumulative_through`. It gives `none` where the increment of the epoch panics, which
it does before a reward of zero ends the loop. -/
def cumulativeLoop (c : EmissionCurve) (lastEpoch e : Epoch) (total : Amount) :
    Option (Except TokenError Amount) :=
  if e ≤ lastEpoch then
    match c.rewardAt e with
    | .error err => some (.error err)
    | .ok r =>
      match checkedAdd total r with
      | none => some (.error .overflow)
      | some total =>
        if e.toNat + 1 = 2 ^ 64 then none
        else if r = 0 then some (.ok total)
        else c.cumulativeLoop lastEpoch (e + 1) total
  else some (.ok total)
termination_by 2 ^ 64 - e.toNat
decreasing_by
  have hlt := e.toNat_lt
  have hnext : (e + 1).toNat = e.toNat + 1 := by
    rw [UInt64.toNat_add]
    exact Nat.mod_eq_of_lt (by simp only [UInt64.toNat_one]; omega)
  omega

def cumulativeThrough (c : EmissionCurve) (lastEpoch : Epoch) : Option (Except TokenError Amount) :=
  c.cumulativeLoop lastEpoch 0 0

/-- What an epoch pays. -/
def paid (c : EmissionCurve) (e : Epoch) : Nat :=
  match c.rewardAt e with
  | .ok r => r.toNat
  | .error _ => 0

/-- The reward halved once for each interval before the epoch. -/
def halved (c : EmissionCurve) (e : Nat) : Nat :=
  c.initialReward.toNat / 2 ^ (e / c.halvingInterval.toNat)

/-- What the epochs up to the last one pay. -/
def paidThrough (c : EmissionCurve) (lastEpoch : Epoch) : Nat :=
  ∑ e ∈ Finset.range (lastEpoch.toNat + 1), c.paid (UInt64.ofNat e)

/-- Up to the last epoch the curve halves, and the summation gives what the epochs pay. -/
structure Halves (c : EmissionCurve) (lastEpoch : Epoch) : Prop where
  reward : ∀ e ≤ lastEpoch, ∃ r, c.rewardAt e = .ok r ∧
    r.toNat = c.initialReward.toNat / 2 ^ (e.toNat / c.halvingInterval.toNat)
  falling : ∀ e e', e ≤ e' → e' ≤ lastEpoch → c.paid e' ≤ c.paid e
  cumulative : c.paidThrough lastEpoch < 2 ^ 128 → ∃ total, c.cumulativeThrough lastEpoch =
    some (.ok total) ∧
    total.toNat = c.paidThrough lastEpoch
  bounded : ∀ total, c.cumulativeThrough lastEpoch = some (.ok total) →
    total.toNat ≤ 2 * c.initialReward.toNat * c.halvingInterval.toNat

variable {c : EmissionCurve} {lastEpoch e : Epoch}

/-! ## Rewards -/

/-- The shift by 128 or more places gives zero as well. -/
theorem rewardAt_eq (c : EmissionCurve) (e : Epoch) : ∃ r, c.rewardAt e = .ok r ∧
    r.toNat = c.initialReward.toNat / 2 ^ (e.toNat / c.halvingInterval.toNat % 2 ^ 32) := by
  have hsteps : (e / c.halvingInterval).toUInt32.toNat =
    e.toNat / c.halvingInterval.toNat % 2 ^ 32 := by
    rw [UInt64.toNat_toUInt32, UInt64.toNat_div]
  unfold rewardAt
  dsimp only
  split_ifs with hmany
  · refine ⟨0, rfl, ?_⟩
    have hle : 128 ≤ e.toNat / c.halvingInterval.toNat % 2 ^ 32 :=
      hsteps ▸ UInt32.le_iff_toNat_le.mp hmany
    have hlt : c.initialReward.toNat < 2 ^ (e.toNat / c.halvingInterval.toNat % 2 ^ 32) :=
      c.initialReward.isLt.trans_le (Nat.pow_le_pow_right (by decide) hle)
    rw [Nat.div_eq_of_lt hlt]
    rfl
  · exact ⟨_, rfl, by rw [BitVec.toNat_ushiftRight, Nat.shiftRight_eq_div_pow, hsteps]⟩

theorem paid_eq (c : EmissionCurve) (e : Epoch) :
    c.paid e = c.initialReward.toNat / 2 ^ (e.toNat / c.halvingInterval.toNat % 2 ^ 32) := by
  obtain ⟨r, hr, hreward⟩ := c.rewardAt_eq e
  rw [paid, hr, ← hreward]

theorem halved_anti (c : EmissionCurve) {n m : Nat} (h : n ≤ m) : c.halved m ≤ c.halved n :=
  Nat.div_le_div_left (Nat.pow_le_pow_right (by decide) (Nat.div_le_div_right h))
    (Nat.two_pow_pos _)

/-- The halvings fit into 32 bits up to the last epoch, or there is nothing to halve. -/
def Unwrapped (c : EmissionCurve) (lastEpoch : Epoch) : Prop :=
  lastEpoch.toNat / c.halvingInterval.toNat < 2 ^ 32 ∨ c.initialReward = 0

theorem paid_eq_halved (h : c.Unwrapped lastEpoch) {e : Epoch} (he : e ≤ lastEpoch) :
    c.paid e = c.halved e.toNat := by
  rw [paid_eq, halved]
  rcases h with hfits | hzero
  · have hle : e.toNat / c.halvingInterval.toNat ≤ lastEpoch.toNat / c.halvingInterval.toNat :=
      Nat.div_le_div_right (UInt64.le_iff_toNat_le.mp he)
    rw [Nat.mod_eq_of_lt (hle.trans_lt hfits)]
  · rw [hzero]
    show 0 / _ = 0 / _
    rw [Nat.zero_div, Nat.zero_div]

/-- After 2³² halvings the curve starts again. -/
theorem unwrapped_of_reward (h : ∀ e ≤ lastEpoch, c.paid e = c.halved e.toNat) :
    c.Unwrapped lastEpoch := by
  by_contra hnot
  obtain ⟨hmany, hpositive⟩ := not_or.mp hnot
  have hle : 2 ^ 32 * c.halvingInterval.toNat ≤ lastEpoch.toNat :=
    (Nat.le_div_iff_mul_le c.positive).mp (Nat.not_lt.mp hmany)
  have hlt := lastEpoch.toNat_lt
  have hepoch : (UInt64.ofNat (2 ^ 32 * c.halvingInterval.toNat)).toNat =
    2 ^ 32 * c.halvingInterval.toNat :=
    UInt64.toNat_ofNat_of_lt' (hle.trans_lt hlt)
  have hpaid :=
    h (UInt64.ofNat (2 ^ 32 * c.halvingInterval.toNat)) (UInt64.le_iff_toNat_le.mpr (hepoch ▸ hle))
  rw [paid_eq, halved, hepoch, Nat.mul_div_cancel _ c.positive, Nat.mod_self, Nat.pow_zero,
    Nat.div_one] at hpaid
  have hsmall : c.initialReward.toNat < 2 ^ 2 ^ 32 :=
    c.initialReward.isLt.trans_le (Nat.pow_le_pow_right (by decide) (by decide))
  rw [Nat.div_eq_of_lt hsmall] at hpaid
  exact hpositive (BitVec.eq_of_toNat_eq hpaid)

/-! ## The summation -/

variable {total t : Amount}

theorem toNat_succ (h : ¬ e.toNat + 1 = 2 ^ 64) : (e + 1).toNat = e.toNat + 1 := by
  have hlt := e.toNat_lt
  rw [UInt64.toNat_add]
  exact Nat.mod_eq_of_lt (by simp only [UInt64.toNat_one]; omega)

/-- Induction along the increments of an epoch. -/
theorem epoch_induction {P : Epoch → Prop}
    (step : ∀ e : Epoch, (¬ e.toNat + 1 = 2 ^ 64 → P (e + 1)) → P e)
    (e : Epoch) : P e := by
  induction hn : 2 ^ 64 - e.toNat generalizing e with
  | zero =>
    have hlt := e.toNat_lt
    omega
  | succ n ih =>
    refine step e fun hlast => ih (e + 1) ?_
    rw [toNat_succ hlast]
    omega

/-- One round of the loop. -/
theorem loop_of_le (he : e ≤ lastEpoch) (total : Amount) :
    (2 ^ 128 ≤ total.toNat + c.paid e ∧ c.cumulativeLoop lastEpoch e total =
      some (.error .overflow)) ∨
    ∃ total' : Amount, total'.toNat = total.toNat + c.paid e ∧ c.cumulativeLoop lastEpoch e total =
      if e.toNat + 1 = 2 ^ 64 then none
      else if c.paid e = 0 then some (.ok total')
      else c.cumulativeLoop lastEpoch (e + 1) total' := by
  obtain ⟨r, hr, -⟩ := c.rewardAt_eq e
  have hpaid : c.paid e = r.toNat := by rw [paid, hr]
  have hzero : r = 0 ↔ c.paid e = 0 := by
    rw [hpaid, ← BitVec.toNat_inj]
    rfl
  rw [cumulativeLoop, if_pos he, hr]
  dsimp only
  cases hadd : checkedAdd total r with
  | none => exact .inl ⟨hpaid ▸ checkedAdd_eq_none.mp hadd, rfl⟩
  | some total' =>
    refine .inr ⟨total', hpaid ▸ checkedAdd_eq_some.mp hadd, ?_⟩
    simp only [hzero]

/-- What the epochs between two numbers pay. -/
def paidBetween (c : EmissionCurve) (n m : Nat) : Nat :=
  ∑ e ∈ Finset.Ico n m, c.paid (UInt64.ofNat e)

theorem paidBetween_self (c : EmissionCurve) {n m : Nat} (h : m ≤ n) : c.paidBetween n m = 0 := by
  rw [paidBetween, Finset.Ico_eq_empty_of_le h, Finset.sum_empty]

theorem paidBetween_succ (he : e ≤ lastEpoch) : c.paidBetween e.toNat (lastEpoch.toNat + 1) =
    c.paid e + c.paidBetween (e.toNat + 1) (lastEpoch.toNat + 1) := by
  have hlt : e.toNat < lastEpoch.toNat + 1 := Nat.lt_succ_of_le (UInt64.le_iff_toNat_le.mp he)
  rw [paidBetween, Finset.sum_eq_sum_Ico_succ_bot hlt, UInt64.ofNat_toNat]
  rfl

/-- The sum is never more than what the epochs pay. -/
theorem loop_le (h : c.cumulativeLoop lastEpoch e total = some (.ok t)) :
    t.toNat ≤ total.toNat + c.paidBetween e.toNat (lastEpoch.toNat + 1) := by
  induction e using epoch_induction generalizing total with
  | step e ih =>
    by_cases he : e ≤ lastEpoch
    · rw [paidBetween_succ he]
      rcases c.loop_of_le he total with ⟨-, heq⟩ | ⟨total', htotal, heq⟩ <;> rw [heq] at h
      · cases h
      · split_ifs at h with hlast hzero
        · cases h
          omega
        · have hrest := ih hlast h
          rw [toNat_succ hlast] at hrest
          omega
    · rw [cumulativeLoop, if_neg he] at h
      cases h
      exact Nat.le_add_right ..

/-- Once an epoch pays nothing, the later ones do not either. -/
def Dries (c : EmissionCurve) (lastEpoch : Epoch) : Prop :=
  ∀ e e', e ≤ e' → e' ≤ lastEpoch → c.paid e = 0 → c.paid e' = 0

theorem paidBetween_dry (hdries : c.Dries lastEpoch) (hzero : c.paid e = 0) :
    c.paidBetween (e.toNat + 1) (lastEpoch.toNat + 1) = 0 := by
  refine Finset.sum_eq_zero fun i hi => ?_
  obtain ⟨hle, hlt⟩ := Finset.mem_Ico.mp hi
  have hlast := lastEpoch.toNat_lt
  have hi : (UInt64.ofNat i).toNat = i := UInt64.toNat_ofNat_of_lt' (by
    show i < 2 ^ 64
    omega)
  exact hdries e _ (UInt64.le_iff_toNat_le.mpr (by omega))
    (UInt64.le_iff_toNat_le.mpr (by omega)) hzero

/-- The sum is complete if it fits and the increment of the epoch does not come to its end. -/
theorem loop_eq (hdries : c.Dries lastEpoch) (total : Amount)
    (hfits : total.toNat + c.paidBetween e.toNat (lastEpoch.toNat + 1) < 2 ^ 128)
    (hstop : lastEpoch.toNat + 1 < 2 ^ 64 ∨ ∃ e', e ≤ e' ∧ e' < lastEpoch ∧ c.paid e' = 0) :
    ∃ t, c.cumulativeLoop lastEpoch e total = some (.ok t) ∧
      t.toNat = total.toNat + c.paidBetween e.toNat (lastEpoch.toNat + 1) := by
  induction e using epoch_induction generalizing total with
  | step e ih =>
    by_cases he : e ≤ lastEpoch
    · rw [paidBetween_succ he] at hfits ⊢
      rcases c.loop_of_le he total with ⟨hover, -⟩ | ⟨total', htotal, heq⟩
      · omega
      have hle := UInt64.le_iff_toNat_le.mp he
      have hlast : ¬ e.toNat + 1 = 2 ^ 64 := by
        rcases hstop with hlt | ⟨e', hee', hlt, -⟩
        · omega
        · have hge := UInt64.le_iff_toNat_le.mp hee'
          have hlt' := UInt64.lt_iff_toNat_lt.mp hlt
          have hbound := lastEpoch.toNat_lt
          omega
      rw [heq, if_neg hlast]
      split_ifs with hzero
      · exact ⟨total', rfl, by rw [paidBetween_dry hdries hzero, htotal, Nat.add_zero]⟩
      · have hnext := toNat_succ hlast
        have hlater : lastEpoch.toNat + 1 < 2 ^ 64 ∨ ∃ e', e + 1 ≤ e' ∧ e' < lastEpoch ∧
          c.paid e' = 0 := by
          refine hstop.imp_right fun ⟨e', hee', hlt, hdry⟩ =>
            ⟨e', UInt64.le_iff_toNat_le.mpr ?_, hlt, hdry⟩
          have hge := UInt64.le_iff_toNat_le.mp hee'
          have hne' : e.toNat ≠ e'.toNat := fun heq => hzero (UInt64.toNat_inj.mp heq ▸ hdry)
          omega
        obtain ⟨t, ht, hsum⟩ := ih hlast total' (by rw [hnext]; omega) hlater
        rw [hnext] at hsum
        exact ⟨t, ht, by omega⟩
    · have hlt := Nat.not_le.mp (mt UInt64.le_iff_toNat_le.mpr he)
      rw [cumulativeLoop, if_neg he, paidBetween_self c hlt, Nat.add_zero]
      exact ⟨total, rfl, rfl⟩

/-- Otherwise the increment panics. -/
theorem loop_eq_none (hlast : lastEpoch.toNat + 1 = 2 ^ 64) (total : Amount)
    (hfits : total.toNat + c.paidBetween e.toNat (lastEpoch.toNat + 1) < 2 ^ 128)
    (hpaid : ∀ e', e ≤ e' → e' < lastEpoch → c.paid e' ≠ 0) :
    c.cumulativeLoop lastEpoch e total = none := by
  induction e using epoch_induction generalizing total with
  | step e ih =>
    have hbound := e.toNat_lt
    have he : e ≤ lastEpoch := UInt64.le_iff_toNat_le.mpr (by omega)
    rw [paidBetween_succ he] at hfits
    rcases c.loop_of_le he total with ⟨hover, -⟩ | ⟨total', htotal, heq⟩
    · omega
    rw [heq]
    split_ifs with hend hzero
    · rfl
    · exact absurd hzero (hpaid e (UInt64.le_refl e) (UInt64.lt_iff_toNat_lt.mpr (by omega)))
    · have hnext := toNat_succ hend
      refine ih hend total' (by rw [hnext]; omega) fun e' hee' =>
        hpaid e' (UInt64.le_iff_toNat_le.mpr ?_)
      have hge := UInt64.le_iff_toNat_le.mp hee'
      omega

/-! ## The whole curve -/

/-- Every block of an interval pays half of the block before it. -/
theorem sum_halved_le (c : EmissionCurve) (k : Nat) :
    ∑ e ∈ Finset.range (c.halvingInterval.toNat * k), c.halved e ≤
      2 * c.initialReward.toNat * c.halvingInterval.toNat := by
  have hblocks : ∑ e ∈ Finset.range (c.halvingInterval.toNat * k), c.halved e =
      c.halvingInterval.toNat * ∑ q ∈ Finset.range k, c.initialReward.toNat / 2 ^ q := by
    induction k with
    | zero => rfl
    | succ k ih =>
      have hblock : ∀ i ∈ Finset.range c.halvingInterval.toNat,
          c.halved (c.halvingInterval.toNat * k + i) = c.initialReward.toNat / 2 ^ k := by
        intro i hi
        rw [halved, Nat.mul_add_div c.positive,
          Nat.div_eq_of_lt (Finset.mem_range.mp hi), Nat.add_zero]
      rw [Nat.mul_succ, Finset.sum_range_add, ih, Finset.sum_congr rfl hblock, Finset.sum_const,
        Finset.card_range,
        smul_eq_mul, Finset.sum_range_succ, Nat.mul_add]
  have hgeometric :
    ∑ q ∈ Finset.range k, c.initialReward.toNat / 2 ^ q ≤ 2 * c.initialReward.toNat := by
    have hsum := Nat.geom_sum_le (le_refl 2) c.initialReward.toNat k
    omega
  rw [hblocks, Nat.mul_comm]
  exact Nat.mul_le_mul_right _ hgeometric

theorem paidThrough_eq (h : c.Unwrapped lastEpoch) :
    c.paidThrough lastEpoch = ∑ e ∈ Finset.range (lastEpoch.toNat + 1), c.halved e := by
  refine Finset.sum_congr rfl fun i hi => ?_
  have hlt := Finset.mem_range.mp hi
  have hlast := lastEpoch.toNat_lt
  have hi : (UInt64.ofNat i).toNat = i := UInt64.toNat_ofNat_of_lt' (by
    show i < 2 ^ 64
    omega)
  rw [paid_eq_halved h (UInt64.le_iff_toNat_le.mpr (by omega)), hi]

theorem paidBetween_zero (c : EmissionCurve) (lastEpoch : Epoch) :
    c.paidBetween 0 (lastEpoch.toNat + 1) = c.paidThrough lastEpoch := by
  rw [paidBetween, paidThrough, Finset.range_eq_Ico]

theorem paidThrough_le (h : c.Unwrapped lastEpoch) :
    c.paidThrough lastEpoch ≤ 2 * c.initialReward.toNat * c.halvingInterval.toNat := by
  have hmore : lastEpoch.toNat + 1 ≤ c.halvingInterval.toNat * (lastEpoch.toNat + 1) :=
    Nat.le_mul_of_pos_left _ c.positive
  rw [paidThrough_eq h]
  exact (Finset.sum_le_sum_of_subset (Finset.range_subset_range.mpr hmore)).trans
    (c.sum_halved_le _)

theorem Halves.unwrapped (h : c.Halves lastEpoch) : c.Unwrapped lastEpoch := by
  refine unwrapped_of_reward fun e he => ?_
  obtain ⟨r, hr, hreward⟩ := h.reward e he
  rw [paid, hr, halved]
  exact hreward

/-- What the loop adds up from the first epoch on. -/
theorem zero_paidBetween (c : EmissionCurve) (lastEpoch : Epoch) :
    (0 : Amount).toNat + c.paidBetween (0 : Epoch).toNat (lastEpoch.toNat + 1) =
      c.paidThrough lastEpoch := by
  show 0 + c.paidBetween 0 (lastEpoch.toNat + 1) = c.paidThrough lastEpoch
  rw [Nat.zero_add, paidBetween_zero]

/-- At the last epoch of all there is a sum only if the rewards have ended, or none fits. -/
theorem Halves.last (h : c.Halves lastEpoch) (hlast : lastEpoch.toNat + 1 = 2 ^ 64) :
    c.initialReward.toNat < 2 ^ ((lastEpoch.toNat - 1) / c.halvingInterval.toNat) ∨
      2 ^ 128 ≤ ∑ e ∈ Finset.range (lastEpoch.toNat + 1), c.initialReward.toNat / 2 ^
        (e / c.halvingInterval.toNat) := by
  have hunwrapped := h.unwrapped
  by_contra hnot
  obtain ⟨hpays, hfits⟩ := not_or.mp hnot
  have hsum : c.paidThrough lastEpoch < 2 ^ 128 := by
    rw [paidThrough_eq hunwrapped]
    exact Nat.not_le.mp hfits
  obtain ⟨total, htotal, -⟩ := h.cumulative hsum
  have hnone : c.cumulativeThrough lastEpoch = none := by
    refine loop_eq_none hlast 0 ?_ fun e' _ hlt hzero => hpays ?_
    · rwa [zero_paidBetween]
    · have hle : e'.toNat ≤ lastEpoch.toNat - 1 :=
        Nat.le_sub_one_of_lt (UInt64.lt_iff_toNat_lt.mp hlt)
      rw [paid_eq_halved hunwrapped (UInt64.le_of_lt hlt)] at hzero
      have hdry : c.halved (lastEpoch.toNat - 1) = 0 := Nat.le_zero.mp (hzero ▸ c.halved_anti hle)
      exact (Nat.div_eq_zero_iff_lt (Nat.two_pow_pos _)).mp hdry
  rw [hnone] at htotal
  cases htotal

/-- Where the rewards do not rise, the loop ends before the last epoch of all or finds an epoch
without a reward, and then it has added up all of them. -/
theorem cumulativeThrough_total (hunwrapped : c.Unwrapped lastEpoch)
    (hfalling : ∀ e e', e ≤ e' → e' ≤ lastEpoch → c.paid e' ≤ c.paid e)
    (hlast : lastEpoch.toNat + 1 = 2 ^ 64 → c.halved (lastEpoch.toNat - 1) = 0)
    (hsum : c.paidThrough lastEpoch < 2 ^ 128) :
    ∃ total, c.cumulativeThrough lastEpoch = some (.ok total) ∧
      total.toNat = c.paidThrough lastEpoch := by
  have hdries : c.Dries lastEpoch :=
    fun e e' hle he' hzero => Nat.le_zero.mp (hzero ▸ hfalling e e' hle he')
  have hstop : lastEpoch.toNat + 1 < 2 ^ 64 ∨ ∃ e', 0 ≤ e' ∧ e' < lastEpoch ∧ c.paid e' = 0 := by
    have hbound := lastEpoch.toNat_lt
    by_cases hend : lastEpoch.toNat + 1 = 2 ^ 64
    · have hepoch : (UInt64.ofNat (lastEpoch.toNat - 1)).toNat = lastEpoch.toNat - 1 :=
        UInt64.toNat_ofNat_of_lt' ((Nat.sub_le _ 1).trans_lt lastEpoch.toNat_lt)
      have hlt : UInt64.ofNat (lastEpoch.toNat - 1) < lastEpoch :=
        UInt64.lt_iff_toNat_lt.mpr (by omega)
      refine .inr ⟨_, UInt64.zero_le, hlt, ?_⟩
      rw [paid_eq_halved hunwrapped (UInt64.le_of_lt hlt), hepoch]
      exact hlast hend
    · exact .inl (by omega)
  obtain ⟨total, htotal, heq⟩ := loop_eq (e := 0) hdries 0 (by rwa [zero_paidBetween]) hstop
  exact ⟨total, htotal, heq.trans (zero_paidBetween c lastEpoch)⟩

/-- The curve halves up to an epoch exactly if the halvings fit into 32 bits there or the reward is
zero, and if the summation does not reach the last epoch of all: it has an epoch without a reward
before, or overflows. -/
theorem halves_iff (c : EmissionCurve) (lastEpoch : Epoch) : c.Halves lastEpoch ↔
    (lastEpoch.toNat / c.halvingInterval.toNat < 2 ^ 32 ∨ c.initialReward = 0) ∧
      (lastEpoch.toNat + 1 = 2 ^ 64 →
        c.initialReward.toNat < 2 ^ ((lastEpoch.toNat - 1) / c.halvingInterval.toNat) ∨
        2 ^ 128 ≤ ∑ e ∈ Finset.range (lastEpoch.toNat + 1), c.initialReward.toNat / 2 ^
          (e / c.halvingInterval.toNat)) := by
  constructor
  · exact fun h => ⟨h.unwrapped, h.last⟩
  · rintro ⟨hfits, hlast⟩
    have hunwrapped : c.Unwrapped lastEpoch := hfits
    have hfalling : ∀ e e', e ≤ e' → e' ≤ lastEpoch → c.paid e' ≤ c.paid e := by
      intro e e' hle he'
      rw [paid_eq_halved hunwrapped he', paid_eq_halved hunwrapped (UInt64.le_trans hle he')]
      exact c.halved_anti (UInt64.le_iff_toNat_le.mp hle)
    refine ⟨fun e he => ?_, hfalling, fun hsum => ?_, fun total htotal => ?_⟩
    · obtain ⟨r, hr, -⟩ := c.rewardAt_eq e
      have hpaid := paid_eq_halved hunwrapped he
      rw [paid, hr] at hpaid
      exact ⟨r, hr, hpaid⟩
    · refine cumulativeThrough_total hunwrapped hfalling (fun hend => ?_) hsum
      rw [paidThrough_eq hunwrapped] at hsum
      exact Nat.div_eq_of_lt ((hlast hend).resolve_right (Nat.not_le.mpr hsum))
    · have hle := loop_le htotal
      rw [zero_paidBetween] at hle
      exact hle.trans (paidThrough_le hunwrapped)

namespace Demo

/-- One token, halved in each epoch. -/
def hasty : EmissionCurve := ⟨1, 1, by decide⟩

/-- After 2³² epochs the token is there again. -/
theorem paid_again : ¬ ∀ (c : EmissionCurve) (lastEpoch : Epoch), c.Halves lastEpoch := by
  intro h
  rcases (h hasty 4294967296).unwrapped with hfits | hzero
  · exact absurd hfits (by decide)
  · exact absurd hzero (by decide)

end Demo

end EmissionCurve

end P2P333.Token333
