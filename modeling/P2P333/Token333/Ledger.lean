import P2P333.Lib.Checked
import P2P333.Lib.Machine
import P2P333.Transfer333.Basic

/-!
# Tokens: ledger and stake pool

`333-token/src/lib.rs`: the ledger in memory, with its balances and its total, and the pool of
stakes over it. What is staked is burned in the ledger, and minted again when it is unbonded.

An operation that panics gives `none`: on a sum, difference or product that does not fit, and where
`slash` asserts that its fraction is one. Of an operation that fails the state is told as well, as
it may have changed.
-/

namespace P2P333.Token333

open Std Lib
open Transfer333 (checkedAdd checkedAdd_eq_some checkedAdd_eq_none)

abbrev NodeId := List.Vector UInt8 32
abbrev Amount := BitVec 128
abbrev Epoch := UInt64

/-- Why a call fails. -/
inductive TokenError where
  | insufficient (have_ need : Amount)
  | noStake
  | stakeLocked (epoch : Epoch)
  | zeroAmount
  | overflow
deriving DecidableEq

/-! ## Ledger -/

structure InMemoryLedger where
  balances : OrdMap NodeId Amount
  total : Amount

namespace InMemoryLedger

def new : InMemoryLedger := ⟨∅, 0⟩

def balance (l : InMemoryLedger) (acct : NodeId) : Amount := l.balances[acct]?.getD 0

def setBalance (l : InMemoryLedger) (acct : NodeId) (b : Amount) : InMemoryLedger :=
  { l with balances := l.balances.insert acct b }

/-- `entry(acct).or_insert(0)`: the account has an entry from now on. -/
def touch (l : InMemoryLedger) (acct : NodeId) : InMemoryLedger :=
  l.setBalance acct (l.balance acct)

/-- The balance grows before it is known whether the total can. -/
def mint (l : InMemoryLedger) (acct : NodeId) (amount : Amount) :
    Except TokenError Unit × InMemoryLedger :=
  if amount = 0 then (.error .zeroAmount, l)
  else match checkedAdd (l.balance acct) amount with
    | none => (.error .overflow, l.touch acct)
    | some b =>
      let l := l.setBalance acct b
      match checkedAdd l.total amount with
      | none => (.error .overflow, l)
      | some total => (.ok (), { l with total := total })

def burn (l : InMemoryLedger) (acct : NodeId) (amount : Amount) :
    Option (Except TokenError Unit × InMemoryLedger) :=
  if amount = 0 then some (.error .zeroAmount, l)
  else
    let b := l.balance acct
    if b < amount then some (.error (.insufficient b amount), l.touch acct)
    else (checkedSub l.total amount).map fun total =>
      (.ok (), { l.setBalance acct (b - amount) with total := total })

def transfer (l : InMemoryLedger) (sender recipient : NodeId) (amount : Amount) :
    Except TokenError Unit × InMemoryLedger :=
  if amount = 0 then (.error .zeroAmount, l)
  else
    let b := l.balance sender
    if b < amount then (.error (.insufficient b amount), l.touch sender)
    else
      let l := l.setBalance sender (b - amount)
      match checkedAdd (l.balance recipient) amount with
      | none => (.error .overflow, l.touch recipient)
      | some b => (.ok (), l.setBalance recipient b)

/-! ### Sums -/

/-- The sum of all balances. -/
def sum (l : InMemoryLedger) : Nat := OrdMap.sumBy BitVec.toNat l.balances

variable {l : InMemoryLedger} {acct acct' : NodeId} {amount b : Amount}

theorem balance_setBalance :
    (l.setBalance acct b).balance acct' = if acct = acct' then b else l.balance acct' := by
  simp only [balance, setBalance, ExtTreeMap.getElem?_insert, LawfulEqCmp.compare_eq_iff_eq]
  split_ifs <;> rfl

theorem sum_setBalance (l : InMemoryLedger) (acct : NodeId) (b : Amount) :
    (l.setBalance acct b).sum + (l.balance acct).toNat = l.sum + b.toNat := by
  have hinsert := OrdMap.sumBy_insert BitVec.toNat l.balances acct b
  have hold : l.balances[acct]?.elim 0 BitVec.toNat = (l.balance acct).toNat := by
    unfold balance
    cases l.balances[acct]? <;> rfl
  rwa [hold] at hinsert

theorem balance_le_sum : (l.balance acct).toNat ≤ l.sum := by
  unfold balance
  cases h : l.balances[acct]? with
  | none => exact Nat.zero_le _
  | some b => exact OrdMap.le_sumBy BitVec.toNat h

/-- An account that has an entry is touched without a trace. -/
theorem touch_eq_self : l.touch acct = l ↔ acct ∈ l.balances := by
  constructor
  · intro h
    rw [← h]
    exact ExtTreeMap.mem_insert_self
  · intro h
    have hsame : l.balances.insert acct (l.balance acct) = l.balances := by
      apply ExtTreeMap.ext_getElem?
      intro k
      by_cases hk : acct = k
      · subst hk
        rw [ExtTreeMap.getElem?_insert_self, balance, ExtTreeMap.getElem?_eq_some_getElem h]
        rfl
      · rw [OrdMap.getElem?_insert_of_ne _ hk]
    unfold touch setBalance
    rw [hsame]

end InMemoryLedger

/-! ## Stake pool -/

structure Stake where
  amount : Amount
  unlockEpoch : Epoch
deriving DecidableEq

structure StakePool where
  stakes : OrdMap NodeId Stake
  currentEpoch : Epoch
  slashedTotal : Amount

namespace StakePool

def new : StakePool := ⟨∅, 0, 0⟩

def setEpoch (p : StakePool) (e : Epoch) : StakePool := { p with currentEpoch := e }

def setStake (p : StakePool) (acct : NodeId) (st : Stake) : StakePool :=
  { p with stakes := p.stakes.insert acct st }

def removeStake (p : StakePool) (acct : NodeId) : StakePool :=
  { p with stakes := p.stakes.erase acct }

/-- What is left of a stake; a stake of which nothing is left is gone. -/
def reduceStake (p : StakePool) (acct : NodeId) (st : Stake) (left : Amount) : StakePool :=
  if left = 0 then p.removeStake acct else p.setStake acct { st with amount := left }

/-- The amount that the account has staked. -/
def stakeOf (p : StakePool) (acct : NodeId) : Nat :=
  p.stakes[acct]?.elim 0 fun (st : Stake) => st.amount.toNat

/-- The sum of all stakes. -/
def totalStaked (p : StakePool) : Nat := OrdMap.sumBy (fun st => st.amount.toNat) p.stakes

variable {p : StakePool} {acct acct' : NodeId} {st : Stake}

@[simp] theorem setStake_slashedTotal : (p.setStake acct st).slashedTotal = p.slashedTotal := rfl

@[simp] theorem removeStake_slashedTotal : (p.removeStake acct).slashedTotal = p.slashedTotal := rfl

theorem totalStaked_setStake :
    (p.setStake acct st).totalStaked + p.stakeOf acct = p.totalStaked + st.amount.toNat :=
  OrdMap.sumBy_insert (fun st : Stake => st.amount.toNat) p.stakes acct st

theorem totalStaked_removeStake (h : p.stakes[acct]? = some st) :
    (p.removeStake acct).totalStaked + st.amount.toNat = p.totalStaked :=
  OrdMap.sumBy_erase (fun st : Stake => st.amount.toNat) h

theorem getElem?_setStake : (p.setStake acct st).stakes[acct']? =
    if acct = acct' then some st else p.stakes[acct']? := by
  simp only [setStake, ExtTreeMap.getElem?_insert, LawfulEqCmp.compare_eq_iff_eq]

theorem getElem?_removeStake : (p.removeStake acct).stakes[acct']? =
    if acct = acct' then none else p.stakes[acct']? := by
  simp only [removeStake, ExtTreeMap.getElem?_erase, LawfulEqCmp.compare_eq_iff_eq]

theorem reduceStake_slashedTotal {left : Amount} :
    (p.reduceStake acct st left).slashedTotal = p.slashedTotal := by
  unfold reduceStake
  split_ifs <;> rfl

theorem totalStaked_reduceStake {left : Amount} (h : p.stakes[acct]? = some st) :
    (p.reduceStake acct st left).totalStaked + st.amount.toNat = p.totalStaked + left.toNat := by
  unfold reduceStake
  split_ifs with hzero
  · rw [hzero]
    exact totalStaked_removeStake h
  · have hset : (p.setStake acct { st with amount := left }).totalStaked + p.stakeOf acct =
      p.totalStaked + left.toNat := totalStaked_setStake
    rwa [stakeOf, h] at hset

/-- What is left is not nothing. -/
theorem getElem?_reduceStake {left : Amount} {st' : Stake}
    (h : (p.reduceStake acct st left).stakes[acct']? = some st') :
    0 < st'.amount.toNat ∨ p.stakes[acct']? = some st' := by
  unfold reduceStake at h
  split_ifs at h with hzero
  · rw [getElem?_removeStake] at h
    split_ifs at h
    exact .inr h
  · rw [getElem?_setStake] at h
    split_ifs at h
    · cases h
      exact .inl (Nat.pos_of_ne_zero fun hnone =>
        hzero (BitVec.eq_of_toNat_eq (by simpa using hnone)))
    · exact .inr h

end StakePool

/-- The ledger and the pool over it. -/
structure World where
  ledger : InMemoryLedger
  pool : StakePool

namespace World

def new : World := ⟨.new, .new⟩

/-- What is staked leaves the ledger before it is known whether the stake can grow. -/
def stake (w : World) (acct : NodeId) (amount : Amount) (unlockEpoch : Epoch) :
    Option (Except TokenError Unit × World) :=
  if amount = 0 then some (.error .zeroAmount, w)
  else (w.ledger.burn acct amount).map fun
    | (.error e, ledger) => (.error e, { w with ledger := ledger })
    | (.ok (), ledger) =>
      let entry := w.pool.stakes[acct]?.getD ⟨0, unlockEpoch⟩
      match checkedAdd entry.amount amount with
      | none => (.error .overflow, ⟨ledger, w.pool.setStake acct entry⟩)
      | some sum =>
        let unlockEpoch := if entry.unlockEpoch < unlockEpoch then unlockEpoch
          else entry.unlockEpoch
        (.ok (), ⟨ledger, w.pool.setStake acct ⟨sum, unlockEpoch⟩⟩)

/-- The stake is gone before it is known whether it can be minted again. -/
def unbond (w : World) (acct : NodeId) : Except TokenError Amount × World :=
  match w.pool.stakes[acct]? with
  | none => (.error .noStake, w)
  | some entry =>
    if w.pool.currentEpoch < entry.unlockEpoch then (.error (.stakeLocked entry.unlockEpoch), w)
    else
      let pool := w.pool.removeStake acct
      match w.ledger.mint acct entry.amount with
      | (.error e, ledger) => (.error e, ⟨ledger, pool⟩)
      | (.ok (), ledger) => (.ok entry.amount, ⟨ledger, pool⟩)

/-- `numer/denom` of the stake is destroyed. -/
def slash (w : World) (acct : NodeId) (numer denom : UInt32) :
    Option (Except TokenError Amount × World) :=
  if ¬ (0 < denom ∧ numer ≤ denom) then none
  else match w.pool.stakes[acct]? with
    | none => some (.error .noStake, w)
    | some entry => do
      let product ← checkedMul entry.amount (.ofNat 128 numer.toNat)
      let slashed := product / .ofNat 128 denom.toNat
      let left ← checkedSub entry.amount slashed
      let total ← checkedAdd w.pool.slashedTotal slashed
      let pool := { w.pool with slashedTotal := total }
      return (.ok slashed, { w with pool := pool.reduceStake acct entry left })

end World

/-! ## Calls -/

/-- The calls of ledger and pool. -/
inductive Call where
  | mint (acct : NodeId) (amount : Amount)
  | burn (acct : NodeId) (amount : Amount)
  | transfer (sender recipient : NodeId) (amount : Amount)
  | stake (acct : NodeId) (amount : Amount) (unlockEpoch : Epoch)
  | unbond (acct : NodeId)
  | slash (acct : NodeId) (numer denom : UInt32)
  | setEpoch (e : Epoch)

/-- What is returned; an unbonding and a slashing return an amount. -/
abbrev Answer := Except TokenError (Option Amount)

namespace World

def step (w : World) : Call → Option (Answer × World)
  | .mint acct amount =>
    let r := w.ledger.mint acct amount
    some (r.1.map fun _ => none, { w with ledger := r.2 })
  | .burn acct amount => (w.ledger.burn acct amount).map fun r =>
    (r.1.map fun _ => none, { w with ledger := r.2 })
  | .transfer sender recipient amount =>
    let r := w.ledger.transfer sender recipient amount
    some (r.1.map fun _ => none, { w with ledger := r.2 })
  | .stake acct amount unlockEpoch => (w.stake acct amount unlockEpoch).map fun r =>
    (r.1.map fun _ => none, r.2)
  | .unbond acct =>
    let r := w.unbond acct
    some (r.1.map some, r.2)
  | .slash acct numer denom => (w.slash acct numer denom).map fun r => (r.1.map some, r.2)
  | .setEpoch e => some (.ok none, { w with pool := w.pool.setEpoch e })

/-- The ledger and the pool after some calls, if none of them has panicked. -/
def run (l : List Call) : Option World := Machine.after (Machine.failing step) (some new) l

end World

end P2P333.Token333
