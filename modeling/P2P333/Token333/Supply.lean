import P2P333.Token333.Ledger

/-!
# Tokens: supply

What has been minted and not burned is in the ledger, staked or slashed. That is so as long as no
sum gets too large: several operations change one thing before they find out that they cannot change
the other one. A failed mint leaves the balance higher, a failed stake takes the tokens out of the
ledger, and a failed unbonding loses the stake.

Results:
1. `judged`: which calls are clean, that is, return and leave no trace when they fail.
2. `keeps_tokens_iff`: in a run, the supply is kept exactly if every call fits (`Fits`).
3. `minted_for_nothing`: a failed mint raises a balance.
-/

namespace P2P333.Token333

open Std Lib Machine
open Transfer333 (checkedAdd checkedAdd_of_lt checkedAdd_eq_some checkedAdd_eq_none)

/-! ## Ledger -/

namespace InMemoryLedger

variable {l : InMemoryLedger} {acct sender recipient : NodeId} {amount : Amount}

theorem mint_ok (acct : NodeId) (hl : l.total.toNat = l.sum) (h0 : amount ≠ 0)
    (hfits : l.total.toNat + amount.toNat < 2 ^ 128) : ∃ l', l.mint acct amount = (.ok (), l') ∧
      l'.total.toNat = l.total.toNat + amount.toNat ∧ l'.total.toNat = l'.sum := by
  have hle : (l.balance acct).toNat ≤ l.sum := balance_le_sum
  obtain ⟨b, hb⟩ : ∃ b, checkedAdd (l.balance acct) amount = some b :=
    ⟨_, checkedAdd_of_lt (by omega)⟩
  obtain ⟨total, htotal⟩ : ∃ total, checkedAdd l.total amount = some total :=
    ⟨_, checkedAdd_of_lt hfits⟩
  have hsum := sum_setBalance l acct b
  rw [checkedAdd_eq_some.mp hb] at hsum
  refine ⟨⟨(l.setBalance acct b).balances, total⟩, ?_, checkedAdd_eq_some.mp htotal, ?_⟩
  · simp only [mint, h0, if_false, hb]
    simp only [setBalance, htotal]
  · rw [checkedAdd_eq_some.mp htotal]
    exact (by omega : l.total.toNat + amount.toNat = (l.setBalance acct b).sum)

/-- A mint that fails leaves no trace only if the balance itself does not fit. -/
theorem mint_error (acct : NodeId) (h0 : amount ≠ 0)
    (hfull : 2 ^ 128 ≤ l.total.toNat + amount.toNat) :
    ∃ l', l.mint acct amount = (.error .overflow, l') ∧
      (l' = l ↔ 2 ^ 128 ≤ (l.balance acct).toNat + amount.toNat) := by
  simp only [mint, h0, if_false]
  cases hb : checkedAdd (l.balance acct) amount with
  | none =>
    refine ⟨l.touch acct, rfl, iff_of_true ?_ (checkedAdd_eq_none.mp hb)⟩
    rw [touch_eq_self]
    by_contra hnone
    have hzero : l.balance acct = 0 := by
      rw [balance, ExtTreeMap.getElem?_eq_none hnone, Option.getD_none]
    rw [hzero, checkedAdd_of_lt (by have := amount.isLt; simpa using this)] at hb
    cases hb
  | some b =>
    have htotal : checkedAdd (l.setBalance acct b).total amount = none :=
      checkedAdd_eq_none.mpr hfull
    simp only [htotal]
    have hsum := checkedAdd_eq_some.mp hb
    have hlt := b.isLt
    refine ⟨l.setBalance acct b, rfl, iff_of_false (fun hsame => h0 ?_) (by omega)⟩
    have hbalance := congrArg (fun l => balance l acct) hsame
    simp only [balance_setBalance, if_true] at hbalance
    rw [hbalance] at hsum
    exact BitVec.eq_of_toNat_eq (by simpa using hsum)

theorem burn_ok (hl : l.total.toNat = l.sum) (h0 : amount ≠ 0) (hle : amount ≤ l.balance acct) :
    ∃ l', l.burn acct amount = some (.ok (), l') ∧
      l'.total.toNat + amount.toNat = l.total.toNat ∧ l'.total.toNat = l'.sum := by
  have hamount := BitVec.le_def.mp hle
  have hbalance : (l.balance acct).toNat ≤ l.sum := balance_le_sum
  have hsub : (l.total - amount).toNat + amount.toNat = l.total.toNat := by
    rw [BitVec.toNat_sub_of_le (BitVec.le_def.mpr (by omega))]
    omega
  have hsum := sum_setBalance l acct (l.balance acct - amount)
  rw [BitVec.toNat_sub_of_le hle] at hsum
  have hnlt : ¬ l.balance acct < amount := BitVec.not_lt.mpr hle
  refine ⟨⟨(l.setBalance acct (l.balance acct - amount)).balances, l.total - amount⟩, ?_, hsub, ?_⟩
  · simp only [burn, h0, if_false, hnlt, checkedSub_eq_some.mpr hsub, Option.map_some]
  · exact (by omega : (l.total - amount).toNat = (l.setBalance acct (l.balance acct - amount)).sum)

theorem burn_error (h0 : amount ≠ 0) (hlt : l.balance acct < amount) : l.burn acct amount =
    some (.error (.insufficient (l.balance acct) amount), l.touch acct) := by
  simp only [burn, h0, if_false, hlt, if_true]

theorem transfer_ok (recipient : NodeId) (hl : l.total.toNat = l.sum) (h0 : amount ≠ 0)
    (hle : amount ≤ l.balance sender) : ∃ l', l.transfer sender recipient amount = (.ok (), l') ∧
      l'.total = l.total ∧ l'.total.toNat = l'.sum := by
  have hamount := BitVec.le_def.mp hle
  have hbound := l.total.isLt
  have hsent := sum_setBalance l sender (l.balance sender - amount)
  rw [BitVec.toNat_sub_of_le hle] at hsent
  have hnlt : ¬ l.balance sender < amount := BitVec.not_lt.mpr hle
  have hrecipient : ((l.setBalance sender (l.balance sender - amount)).balance recipient).toNat ≤
    (l.setBalance sender (l.balance sender - amount)).sum := balance_le_sum
  obtain ⟨b, hb⟩ : ∃ b, checkedAdd
      ((l.setBalance sender (l.balance sender - amount)).balance recipient) amount = some b :=
    ⟨_, checkedAdd_of_lt (by omega)⟩
  have hreceived := sum_setBalance (l.setBalance sender (l.balance sender - amount)) recipient b
  rw [checkedAdd_eq_some.mp hb] at hreceived
  refine ⟨(l.setBalance sender (l.balance sender - amount)).setBalance recipient b, ?_, rfl, ?_⟩
  · simp only [transfer, h0, if_false, hnlt, hb]
  · exact (by omega : l.total.toNat = ((l.setBalance sender
      (l.balance sender - amount)).setBalance recipient b).sum)

theorem transfer_error (recipient : NodeId) (h0 : amount ≠ 0) (hlt : l.balance sender < amount) :
    l.transfer sender recipient amount =
      (.error (.insufficient (l.balance sender) amount), l.touch sender) := by
  simp only [transfer, h0, if_false, hlt, if_true]

end InMemoryLedger

/-! ## Statement -/

namespace World

/-- The answers to the calls; a call that panics has none. -/
def answers (l : List Call) : List (Option Answer) := outputs (failing step) (some new) l

/-- What the call has minted, if it is a mint that has succeeded. -/
def mintedBy : Call × Option Answer → Nat
  | (.mint _ amount, some (.ok _)) => amount.toNat
  | _ => 0

def burnedBy : Call × Option Answer → Nat
  | (.burn _ amount, some (.ok _)) => amount.toNat
  | _ => 0

def minted (l : List Call) : Nat := ((l.zip (answers l)).map mintedBy).sum

def burned (l : List Call) : Nat := ((l.zip (answers l)).map burnedBy).sum

/-- Tokens are neither created nor lost in a run: no call panics, the total is the sum of the
balances, what is in the ledger, staked or slashed is what has been minted and not burned, and a
call that fails leaves everything as it was. -/
structure KeepsTokens (l : List Call) : Prop where
  returns : ∀ done, done <+: l → (run done).isSome
  total : ∀ done w, done <+: l → run done = some w → w.ledger.total.toNat = w.ledger.sum
  supply : ∀ done w, done <+: l → run done = some w → w.ledger.total.toNat + w.pool.totalStaked +
    w.pool.slashedTotal.toNat + burned done = minted done
  atomic : ∀ done c w e w', done ++ [c] <+: l → run done = some w →
    w.step c = some (.error e, w') → w' = w

/-- The call has room: sums do not get too large, an account without an entry is not charged, and a
fraction is at most one. -/
def Fits (w : World) : Call → Prop
  | .mint acct amount => amount = 0 ∨ w.ledger.total.toNat + amount.toNat < 2 ^ 128 ∨
      2 ^ 128 ≤ (w.ledger.balance acct).toNat + amount.toNat
  | .burn acct amount => amount = 0 ∨ amount ≤ w.ledger.balance acct ∨ acct ∈ w.ledger.balances
  | .transfer sender _ amount =>
    amount = 0 ∨ amount ≤ w.ledger.balance sender ∨ sender ∈ w.ledger.balances
  | .stake acct amount _ => amount = 0 ∨
      (w.ledger.balance acct < amount ∧ acct ∈ w.ledger.balances) ∨
      (amount ≤ w.ledger.balance acct ∧
        w.pool.stakeOf acct + amount.toNat < 2 ^ 128)
  | .unbond acct => ∀ st : Stake, w.pool.stakes[acct]? = some st →
      st.unlockEpoch ≤ w.pool.currentEpoch → w.ledger.total.toNat + st.amount.toNat < 2 ^ 128
  | .slash acct numer denom => (0 < denom ∧ numer ≤ denom) ∧
      ∀ st : Stake, w.pool.stakes[acct]? = some st → st.amount.toNat * numer.toNat < 2 ^ 128 ∧
        w.pool.slashedTotal.toNat + st.amount.toNat * numer.toNat / denom.toNat < 2 ^ 128
  | .setEpoch _ => True

/-! ## Steps -/

/-- The total is the sum of the balances, and there are no empty stakes. -/
structure Sound (w : World) : Prop where
  total : w.ledger.total.toNat = w.ledger.sum
  positive : ∀ (acct : NodeId) (st : Stake), w.pool.stakes[acct]? = some st → 0 < st.amount.toNat

/-- What is in the ledger, staked and slashed. -/
def supply (w : World) : Nat :=
  w.ledger.total.toNat + w.pool.totalStaked + w.pool.slashedTotal.toNat

/-- The call returns, and if it fails it leaves no trace; if not, the world stays sound and the
supply changes by what has been minted and burned. -/
structure Clean (w : World) (c : Call) (a : Answer) (w' : World) : Prop where
  unchanged : ∀ e, a = .error e → w' = w
  sound : w'.Sound
  supply : w'.supply + burnedBy (c, some a) = w.supply + mintedBy (c, some a)

variable {w w' : World} {acct sender recipient : NodeId} {amount : Amount} {c : Call} {a : Answer}

/-- A call that fails and leaves no trace is clean. -/
theorem Clean.of_error (h : w.Sound) (c : Call) (e : TokenError) : w.Clean c (.error e) w := by
  refine ⟨fun _ _ => rfl, h, ?_⟩
  have hminted : mintedBy (c, some (.error e)) = 0 := by cases c <;> rfl
  have hburned : burnedBy (c, some (.error e)) = 0 := by cases c <;> rfl
  rw [hminted, hburned]

/-- A call that fits is clean; one that does not panics, or fails and leaves a trace. -/
structure Judged (w : World) (c : Call) : Prop where
  clean : w.Fits c → ∃ a w', w.step c = some (a, w') ∧ w.Clean c a w'
  unclean : ¬ w.Fits c → ∀ a w', w.step c = some (a, w') → ∃ e, a = .error e ∧ w' ≠ w

theorem Judged.of_clean (hfits : w.Fits c) (hstep : w.step c = some (a, w'))
    (hclean : w.Clean c a w') : w.Judged c :=
  ⟨fun _ => ⟨a, w', hstep, hclean⟩, fun hnot => absurd hfits hnot⟩

theorem Judged.of_error {e : TokenError} (h : w.Sound) (hstep : w.step c = some (.error e, w'))
    (hfits : w.Fits c ↔ w' = w) : w.Judged c := by
  constructor
  · intro hroom
    obtain rfl := hfits.mp hroom
    exact ⟨_, _, hstep, .of_error h c e⟩
  · intro hnot a w'' hstep'
    obtain ⟨rfl, rfl⟩ := Prod.mk.inj (Option.some.inj (hstep.symm.trans hstep'))
    exact ⟨e, rfl, fun hsame => hnot (hfits.mpr hsame)⟩

theorem Judged.of_panic (hnot : ¬ w.Fits c) (hstep : w.step c = none) : w.Judged c :=
  ⟨fun hfits => absurd hfits hnot, fun _ _ _ hstep' => nomatch hstep.symm.trans hstep'⟩

theorem touch_iff : ({ w with ledger := w.ledger.touch acct } : World) = w ↔
    acct ∈ w.ledger.balances := by
  rw [← InMemoryLedger.touch_eq_self]
  exact ⟨fun h => congrArg ledger h, fun h => by rw [h]⟩

theorem judged_mint (h : w.Sound) : w.Judged (.mint acct amount) := by
  by_cases h0 : amount = 0
  · have hmint : w.ledger.mint acct amount = (.error .zeroAmount, w.ledger) := if_pos h0
    exact .of_error h (by simp only [step, hmint]; rfl) (iff_of_true (.inl h0) rfl)
  by_cases hfits : w.ledger.total.toNat + amount.toNat < 2 ^ 128
  · obtain ⟨l', hmint, htotal, hsum⟩ := InMemoryLedger.mint_ok acct h.total h0 hfits
    have hstep : w.step (.mint acct amount) = some (.ok none, { w with ledger := l' }) := by
      simp only [step, hmint]
      rfl
    refine .of_clean (.inr (.inl hfits)) hstep ⟨nofun, ⟨hsum, h.positive⟩, ?_⟩
    simp only [supply, mintedBy, burnedBy, htotal]
    omega
  · obtain ⟨l', hmint, hsame⟩ := InMemoryLedger.mint_error acct h0 (Nat.not_lt.mp hfits)
    have hstep : w.step (.mint acct amount) = some (.error .overflow, { w with ledger := l' }) := by
      simp only [step, hmint]
      rfl
    refine .of_error h hstep ?_
    simp only [Fits, h0, hfits, false_or, ← hsame]
    exact ⟨fun h => by rw [h], fun h => congrArg ledger h⟩

theorem judged_burn (h : w.Sound) : w.Judged (.burn acct amount) := by
  by_cases h0 : amount = 0
  · have hburn : w.ledger.burn acct amount = some (.error .zeroAmount, w.ledger) := if_pos h0
    exact .of_error h (by simp only [step, hburn]; rfl) (iff_of_true (.inl h0) rfl)
  by_cases hle : amount ≤ w.ledger.balance acct
  · obtain ⟨l', hburn, htotal, hsum⟩ := InMemoryLedger.burn_ok h.total h0 hle
    have hstep : w.step (.burn acct amount) = some (.ok none, { w with ledger := l' }) := by
      simp only [step, hburn]
      rfl
    refine .of_clean (.inr (.inl hle)) hstep ⟨nofun, ⟨hsum, h.positive⟩, ?_⟩
    simp only [supply, mintedBy, burnedBy]
    omega
  · have hburn := InMemoryLedger.burn_error h0 (BitVec.not_le.mp hle)
    have hstep : w.step (.burn acct amount) = some
        (.error (.insufficient (w.ledger.balance acct) amount),
        { w with ledger := w.ledger.touch acct }) := by
      simp only [step, hburn]
      rfl
    refine .of_error h hstep ?_
    simp only [Fits, h0, hle, false_or, touch_iff]

theorem judged_transfer (h : w.Sound) : w.Judged (.transfer sender recipient amount) := by
  by_cases h0 : amount = 0
  · have htransfer : w.ledger.transfer sender recipient amount = (.error .zeroAmount, w.ledger) :=
      if_pos h0
    exact .of_error h (by simp only [step, htransfer]; rfl) (iff_of_true (.inl h0) rfl)
  by_cases hle : amount ≤ w.ledger.balance sender
  · obtain ⟨l', htransfer, htotal, hsum⟩ :=
      InMemoryLedger.transfer_ok recipient h.total h0 hle
    have hstep : w.step (.transfer sender recipient amount) =
        some (.ok none, { w with ledger := l' }) := by
      simp only [step, htransfer]
      rfl
    refine .of_clean (.inr (.inl hle)) hstep ⟨nofun, ⟨hsum, h.positive⟩, ?_⟩
    simp only [supply, mintedBy, burnedBy, htotal]
  · have htransfer := InMemoryLedger.transfer_error recipient h0 (BitVec.not_le.mp hle)
    have hstep : w.step (.transfer sender recipient amount) = some
        (.error (.insufficient (w.ledger.balance sender) amount),
        { w with ledger := w.ledger.touch sender }) := by
      simp only [step, htransfer]
      rfl
    refine .of_error h hstep ?_
    simp only [Fits, h0, hle, false_or, touch_iff]

theorem judged_stake {unlockEpoch : Epoch} (h : w.Sound) :
    w.Judged (.stake acct amount unlockEpoch) := by
  by_cases h0 : amount = 0
  · have hstake : w.stake acct amount unlockEpoch = some (.error .zeroAmount, w) := if_pos h0
    exact .of_error h (by simp only [step, hstake]; rfl) (iff_of_true (.inl h0) rfl)
  by_cases hle : amount ≤ w.ledger.balance acct
  · obtain ⟨l', hburn, htotal, hsum⟩ := InMemoryLedger.burn_ok h.total h0 hle
    have hnlt : ¬ w.ledger.balance acct < amount := BitVec.not_lt.mpr hle
    have hentry : (w.pool.stakes[acct]?.getD ⟨0, unlockEpoch⟩).amount.toNat =
        w.pool.stakeOf acct := by
      unfold StakePool.stakeOf
      cases w.pool.stakes[acct]? <;> rfl
    cases hadd : checkedAdd (w.pool.stakes[acct]?.getD ⟨0, unlockEpoch⟩).amount amount with
    | none =>
      have hfull := checkedAdd_eq_none.mp hadd
      rw [hentry] at hfull
      have hstep : w.step (.stake acct amount unlockEpoch) = some (.error .overflow,
          ⟨l', w.pool.setStake acct (w.pool.stakes[acct]?.getD ⟨0, unlockEpoch⟩)⟩) := by
        simp only [step, stake, h0, if_false, hburn, Option.map_some, hadd]
        rfl
      refine .of_error h hstep (iff_of_false ?_ fun hsame => ?_)
      · simp only [Fits, h0, hnlt, hle, false_and, true_and, false_or]
        omega
      · have hpositive : amount.toNat ≠ 0 := fun hzero => h0 (BitVec.eq_of_toNat_eq (by simpa))
        have hledger : l' = w.ledger := congrArg ledger hsame
        rw [hledger] at htotal
        omega
    | some total =>
      have hgrown := checkedAdd_eq_some.mp hadd
      rw [hentry] at hgrown
      have hlt := total.isLt
      obtain ⟨epoch, hstep⟩ : ∃ epoch, w.step (.stake acct amount unlockEpoch) =
          some (.ok none, ⟨l', w.pool.setStake acct ⟨total, epoch⟩⟩) :=
        ⟨_, by simp only [step, stake, h0, if_false, hburn, Option.map_some, hadd]; rfl⟩
      have hstaked : (w.pool.setStake acct ⟨total, epoch⟩).totalStaked + w.pool.stakeOf acct =
        w.pool.totalStaked + total.toNat := StakePool.totalStaked_setStake
      refine .of_clean (.inr (.inr ⟨hle, by omega⟩)) hstep
        ⟨fun _ heq => (by cases heq), ⟨hsum, fun acct' st hst => ?_⟩, ?_⟩
      · rw [StakePool.getElem?_setStake] at hst
        split_ifs at hst
        · cases hst
          have hpositive : amount.toNat ≠ 0 := fun hzero => h0 (BitVec.eq_of_toNat_eq (by simpa))
          exact (by omega : 0 < total.toNat)
        · exact h.positive acct' st hst
      · simp only [supply, mintedBy, burnedBy, StakePool.setStake_slashedTotal]
        omega
  · have hburn := InMemoryLedger.burn_error h0 (BitVec.not_le.mp hle)
    have hstep : w.step (.stake acct amount unlockEpoch) = some
        (.error (.insufficient (w.ledger.balance acct) amount),
        { w with ledger := w.ledger.touch acct }) := by
      simp only [step, stake, h0, if_false, hburn, Option.map_some]
      rfl
    have hlt := BitVec.not_le.mp hle
    refine .of_error h hstep ?_
    simp only [Fits, h0, hle, hlt, false_or, touch_iff, true_and, false_and, or_false]

theorem judged_unbond (h : w.Sound) : w.Judged (.unbond acct) := by
  cases hst : w.pool.stakes[acct]? with
  | none =>
    have hunbond : w.unbond acct = (.error .noStake, w) := by simp only [unbond, hst]
    refine .of_error h (by simp only [step, hunbond]; rfl) (iff_of_true (fun st hst' => ?_) rfl)
    cases hst.symm.trans hst'
  | some st =>
    by_cases hlocked : w.pool.currentEpoch < st.unlockEpoch
    · have hunbond : w.unbond acct = (.error (.stakeLocked st.unlockEpoch), w) := by
        simp only [unbond, hst, hlocked, if_true]
      refine .of_error h (by simp only [step, hunbond]; rfl)
        (iff_of_true (fun st' hst' hle => ?_) rfl)
      cases hst.symm.trans hst'
      exact absurd hlocked (UInt64.not_lt.mpr hle)
    have hpositive := h.positive acct st hst
    have h0 : st.amount ≠ 0 := by
      intro hzero
      rw [hzero] at hpositive
      exact absurd hpositive (by decide)
    have hstaked := StakePool.totalStaked_removeStake hst
    by_cases hfits : w.ledger.total.toNat + st.amount.toNat < 2 ^ 128
    · obtain ⟨l', hmint, htotal, hsum⟩ := InMemoryLedger.mint_ok acct h.total h0 hfits
      have hstep : w.step (.unbond acct) =
          some (.ok (some st.amount), ⟨l', w.pool.removeStake acct⟩) := by
        simp only [step, unbond, hst, hlocked, if_false, hmint]
        rfl
      refine .of_clean (fun st' hst' _ => ?_) hstep ⟨nofun, ⟨hsum, fun acct' st' hst' => ?_⟩, ?_⟩
      · cases hst.symm.trans hst'
        exact hfits
      · rw [StakePool.getElem?_removeStake] at hst'
        split_ifs at hst'
        exact h.positive acct' st' hst'
      · simp only [supply, mintedBy, burnedBy, htotal, StakePool.removeStake_slashedTotal]
        omega
    · obtain ⟨l', hmint, -⟩ := InMemoryLedger.mint_error acct h0 (Nat.not_lt.mp hfits)
      have hstep : w.step (.unbond acct) =
          some (.error .overflow, ⟨l', w.pool.removeStake acct⟩) := by
        simp only [step, unbond, hst, hlocked, if_false, hmint]
        rfl
      refine .of_error h hstep (iff_of_false (fun hroom => ?_) fun hsame => ?_)
      · exact hfits (hroom st hst (UInt64.not_lt.mp hlocked))
      · have hgone : (w.pool.removeStake acct).stakes[acct]? = none := by
          rw [StakePool.getElem?_removeStake, if_pos rfl]
        have hpool : w.pool.removeStake acct = w.pool := congrArg pool hsame
        rw [hpool, hst] at hgone
        cases hgone

theorem toNat_ofNat_u32 (x : UInt32) : (BitVec.ofNat 128 x.toNat).toNat = x.toNat := by
  have hlt := x.toNat_lt
  rw [BitVec.toNat_ofNat, Nat.mod_eq_of_lt (by omega)]

/-- The slashed part of a stake, and what is left of it. -/
theorem slash_arith {st : Amount} {numer denom : UInt32} (hle : numer ≤ denom)
    (hmul : st.toNat * numer.toNat < 2 ^ 128) : ∃ product left : Amount,
      checkedMul st (.ofNat 128 numer.toNat) = some product ∧
      (product / .ofNat 128 denom.toNat).toNat = st.toNat * numer.toNat / denom.toNat ∧
      checkedSub st (product / .ofNat 128 denom.toNat) = some left ∧
      left.toNat + st.toNat * numer.toNat / denom.toNat = st.toNat := by
  have hproduct : (st * .ofNat 128 numer.toNat).toNat = st.toNat * numer.toNat := by
    rw [BitVec.toNat_mul, toNat_ofNat_u32, Nat.mod_eq_of_lt hmul]
  have hslashed : (st * .ofNat 128 numer.toNat / .ofNat 128 denom.toNat).toNat =
      st.toNat * numer.toNat / denom.toNat := by
    rw [BitVec.toNat_udiv, hproduct, toNat_ofNat_u32]
  have hsmall : st.toNat * numer.toNat / denom.toNat ≤ st.toNat := by
    refine Nat.div_le_of_le_mul ?_
    rw [Nat.mul_comm denom.toNat]
    exact Nat.mul_le_mul_left _ (UInt32.le_iff_toNat_le.mp hle)
  have hleft : (st - st * .ofNat 128 numer.toNat / .ofNat 128 denom.toNat).toNat +
      st.toNat * numer.toNat / denom.toNat = st.toNat := by
    rw [BitVec.toNat_sub_of_le (BitVec.le_def.mpr (hslashed ▸ hsmall)), hslashed]
    omega
  refine ⟨_, _, checkedMul_eq_some.mpr ?_, hslashed, checkedSub_eq_some.mpr ?_, hleft⟩
  · rw [hproduct, toNat_ofNat_u32]
  · rw [hslashed, hleft]

theorem judged_slash {numer denom : UInt32} (h : w.Sound) : w.Judged (.slash acct numer denom) := by
  by_cases hfraction : 0 < denom ∧ numer ≤ denom
  swap
  · have hslash : w.slash acct numer denom = none := if_pos hfraction
    exact .of_panic (fun hroom => hfraction hroom.1) (by simp only [step, hslash]; rfl)
  cases hst : w.pool.stakes[acct]? with
  | none =>
    have hslash : w.slash acct numer denom = some (.error .noStake, w) := by
      simp only [slash, hfraction, hst, not_true, if_false, and_self]
    refine .of_error h (by simp only [step, hslash]; rfl)
      (iff_of_true ⟨hfraction, fun st hst' => ?_⟩ rfl)
    cases hst.symm.trans hst'
  | some st =>
    by_cases hmul : st.amount.toNat * numer.toNat < 2 ^ 128
    swap
    · have hproduct : checkedMul st.amount (.ofNat 128 numer.toNat) = none := by
        rw [checkedMul, if_neg (by rwa [toNat_ofNat_u32])]
      refine .of_panic (fun hroom => hmul (hroom.2 st hst).1) ?_
      simp only [step, slash, hfraction, hst, hproduct, not_true, if_false, and_self]
      rfl
    obtain ⟨product, left, hproduct, hslashed, hsub, hleft⟩ := slash_arith hfraction.2 hmul
    cases hadd : checkedAdd w.pool.slashedTotal (product / .ofNat 128 denom.toNat) with
    | none =>
      have hfull := checkedAdd_eq_none.mp hadd
      rw [hslashed] at hfull
      refine .of_panic (fun hroom => absurd (hroom.2 st hst).2 (Nat.not_lt.mpr hfull)) ?_
      simp only [step, slash, hfraction, hst, hproduct, hsub, hadd, not_true, if_false, and_self,
        Option.bind_eq_bind, Option.bind_some]
      rfl
    | some total =>
      have hgrown := checkedAdd_eq_some.mp hadd
      rw [hslashed] at hgrown
      have hlt := total.isLt
      have hfits : w.Fits (.slash acct numer denom) := by
        refine ⟨hfraction, fun st' hst' => ?_⟩
        cases hst.symm.trans hst'
        exact ⟨hmul, by omega⟩
      have hstep : w.step (.slash acct numer denom) =
          some (.ok (some (product / .ofNat 128 denom.toNat)), { w with
            pool := StakePool.reduceStake { w.pool with slashedTotal := total } acct
              st left }) := by
        simp only [step, slash, hfraction, hst, hproduct, hsub, hadd, not_true, if_false, and_self,
          Option.bind_eq_bind, Option.bind_some]
        rfl
      refine .of_clean hfits hstep ⟨nofun, ⟨h.total, fun acct' st' hst' => ?_⟩, ?_⟩
      · exact (StakePool.getElem?_reduceStake hst').elim id (h.positive acct' st')
      · have hstaked : (StakePool.reduceStake { w.pool with slashedTotal := total } acct st
            left).totalStaked + st.amount.toNat = w.pool.totalStaked + left.toNat :=
          StakePool.totalStaked_reduceStake hst
        dsimp only at hstaked
        simp only [supply, mintedBy, burnedBy, StakePool.reduceStake_slashedTotal]
        omega

theorem judged (h : w.Sound) (c : Call) : w.Judged c := by
  cases c with
  | mint => exact judged_mint h
  | burn => exact judged_burn h
  | transfer => exact judged_transfer h
  | stake => exact judged_stake h
  | unbond => exact judged_unbond h
  | slash => exact judged_slash h
  | setEpoch e =>
    have hstep : w.step (.setEpoch e) = some (.ok none, { w with pool := w.pool.setEpoch e }) := rfl
    exact .of_clean trivial hstep ⟨nofun, ⟨h.total, h.positive⟩, rfl⟩

/-! ## Runs -/

theorem run_concat {l : List Call} : run (l ++ [c]) = some w' ↔
    ∃ w a, run l = some w ∧ w.step c = some (a, w') := after_failing_concat

theorem sound_new : new.Sound :=
  ⟨rfl, fun _ _ h => by cases h⟩

theorem zip_answers_concat {l : List Call} (hrun : run l = some w)
    (hstep : w.step c = some (a, w')) :
    (l ++ [c]).zip (answers (l ++ [c])) = l.zip (answers l) ++ [(c, some a)] := by
  have hlength : l.length = (answers l).length := (length_outputs ..).symm
  have hanswers : answers (l ++ [c]) = answers l ++ [some a] := by
    unfold answers run at *
    rw [outputs_append, hrun, outputs, failing, hstep]
    rfl
  rw [hanswers, List.zip_append hlength]
  rfl

theorem minted_concat {l : List Call} (hrun : run l = some w) (hstep : w.step c = some (a, w')) :
    minted (l ++ [c]) = minted l + mintedBy (c, some a) := by
  rw [minted, zip_answers_concat hrun hstep, List.map_append, List.sum_append]
  rfl

theorem burned_concat {l : List Call} (hrun : run l = some w) (hstep : w.step c = some (a, w')) :
    burned (l ++ [c]) = burned l + burnedBy (c, some a) := by
  rw [burned, zip_answers_concat hrun hstep, List.map_append, List.sum_append]
  rfl

/-- As long as every call fits, the world is sound and its supply is what has been minted and not
burned. -/
theorem sound_of_fits {l : List Call}
    (hfits : ∀ done c w, done ++ [c] <+: l → run done = some w → w.Fits c) :
    ∃ w, run l = some w ∧ w.Sound ∧ w.supply + burned l = minted l := by
  induction l using List.reverseRecOn with
  | nil => exact ⟨new, rfl, sound_new, rfl⟩
  | append_singleton l c ih =>
    obtain ⟨w, hrun, hsound, hsupply⟩ :=
      ih fun done c' w hdone => hfits done c' w (hdone.trans (List.prefix_append _ _))
    obtain ⟨a, w', hstep, hclean⟩ := (judged hsound c).clean (hfits l c w List.prefix_rfl hrun)
    refine ⟨w', run_concat.mpr ⟨w, a, hrun, hstep⟩, hclean.sound, ?_⟩
    rw [minted_concat hrun hstep, burned_concat hrun hstep]
    have hchange := hclean.supply
    omega

theorem KeepsTokens.of_append {l rest : List Call} (h : KeepsTokens (l ++ rest)) :
    KeepsTokens l := by
  have hbefore : ∀ {done}, done <+: l → done <+: l ++ rest :=
    fun hdone => hdone.trans (List.prefix_append _ _)
  exact ⟨fun done hdone => h.returns done (hbefore hdone),
    fun done w hdone => h.total done w (hbefore hdone),
    fun done w hdone => h.supply done w (hbefore hdone),
    fun done c w e w' hdone => h.atomic done c w e w' (hbefore hdone)⟩

/-! ## Main theorem -/

/-- In a run, tokens are neither created nor lost exactly if every call fits. -/
theorem keeps_tokens_iff (l : List Call) : KeepsTokens l ↔
    ∀ done c w, done ++ [c] <+: l → run done = some w → w.Fits c := by
  constructor
  · intro hkeeps
    induction l using List.reverseRecOn with
    | nil => exact fun done c w hdone => absurd (List.prefix_nil.mp hdone) (by simp)
    | append_singleton l c ih =>
      intro done c' w hdone hrun
      have hfits := ih hkeeps.of_append
      rcases List.prefix_concat_iff.mp hdone with hlast | hdone
      · obtain ⟨rfl, hc⟩ := List.append_inj' hlast rfl
        obtain rfl := List.singleton_inj.mp hc
        obtain ⟨w₀, hrun₀, hsound, -⟩ := sound_of_fits hfits
        cases hrun.symm.trans hrun₀
        by_contra hnot
        obtain ⟨w', hnext⟩ := Option.isSome_iff_exists.mp (hkeeps.returns _ List.prefix_rfl)
        obtain ⟨w₁, a, hrun₁, hstep⟩ := run_concat.mp hnext
        cases hrun.symm.trans hrun₁
        obtain ⟨e, rfl, hchanged⟩ := (judged hsound c').unclean hnot a w' hstep
        exact hchanged (hkeeps.atomic done c' w e w' List.prefix_rfl hrun hstep)
      · exact hfits done c' w hdone hrun
  · intro hfits
    have hdone : ∀ done, done <+: l →
        ∃ w, run done = some w ∧ w.Sound ∧ w.supply + burned done = minted done :=
      fun done hdone => sound_of_fits fun done' c w hc => hfits done' c w (hc.trans hdone)
    constructor
    · intro done hbefore
      obtain ⟨w, hrun, -⟩ := hdone done hbefore
      rw [hrun]
      rfl
    · intro done w hbefore hrun
      obtain ⟨w₀, hrun₀, hsound, -⟩ := hdone done hbefore
      cases hrun.symm.trans hrun₀
      exact hsound.total
    · intro done w hbefore hrun
      obtain ⟨w₀, hrun₀, -, hsupply⟩ := hdone done hbefore
      cases hrun.symm.trans hrun₀
      exact hsupply
    · intro done c w e w' hbefore hrun hstep
      obtain ⟨w₀, hrun₀, hsound, -⟩ := hdone done ((List.prefix_append _ _).trans hbefore)
      cases hrun.symm.trans hrun₀
      obtain ⟨a, w'', hstep', hclean⟩ := (judged hsound c).clean (hfits done c w hbefore hrun)
      cases hstep.symm.trans hstep'
      exact hclean.unchanged e rfl

end World

namespace Demo

def node (k : UInt8) : NodeId := .replicate 32 k

/-- The second mint does not fit into the total, but into the balance of its account. -/
def overfull : List Call := [.mint (node 1) (.allOnes 128), .mint (node 2) 1]

/-- A mint that has failed leaves a balance that nobody has minted. -/
theorem minted_for_nothing : ¬ ∀ l, World.KeepsTokens l := by
  intro h
  have hrun : (World.run overfull).map (fun w => decide (w.ledger.total.toNat = w.ledger.sum)) =
      some false := by
    decide +kernel
  obtain ⟨w, hw, hdiffers⟩ := Option.map_eq_some_iff.mp hrun
  exact of_decide_eq_false hdiffers ((h overfull).total overfull w List.prefix_rfl hw)

end Demo

end P2P333.Token333
