import P2P333.Lib.Checked
import P2P333.Lib.Machine
import P2P333.Transfer333.Basic

/-!
# The coin ledger

`333-platform/src/tokenomics.rs`: accounts with a balance, of which a part may be staked, and the
counters of what has been minted and burned. Sums and differences of `u64` that do not fit panic,
which is `none`.

The coins in circulation are those minted and not burned only as long as nobody slashes a stake,
donates or bids: a slashed stake is burned but stays in the balance, and what is donated or bid is
taken from the balance without being burned.

Results:
1. `Sound.of_execute`, `broken_of_execute`: what a transaction does to the books.
2. `balances_iff`: in a run, the books balance exactly if the first validators are different ones
   and every transaction fits (`Fits`).
3. `slashed_stake`: a slashed stake is burned and stays.
-/

namespace P2P333.Platform333.Tokenomics

open Std Lib Machine
open Transfer333 (U64 checkedAdd checkedAdd_of_lt checkedAdd_eq_some checkedAdd_eq_none)

abbrev NodeId := UInt32

def maxSupply : U64 := 333333333
def genesisReward : U64 := 10000
def blockReward : U64 := 33
def halvingInterval : U64 := 1000000
def storageFeePerMb : U64 := 1
def maxAccounts : Nat := 1000000

structure CoinAccount where
  balance : U64 := 0
  staked : U64 := 0
  nonce : U64 := 0
  reputation : UInt32 := 500
deriving DecidableEq

/-- `min`. -/
def least (x y : U64) : U64 := if x ≤ y then x else y

theorem toNat_least (x y : U64) : (least x y).toNat = min x.toNat y.toNat := by
  unfold least
  split_ifs with h
  · exact (min_eq_left (BitVec.le_def.mp h)).symm
  · exact (min_eq_right (Nat.le_of_lt (BitVec.lt_def.mp (BitVec.not_le.mp h)))).symm

/-- `saturating_sub(100)`. -/
def lowered (reputation : UInt32) : UInt32 := if 100 ≤ reputation then reputation - 100 else 0

/-- `saturating_sub`. -/
def CoinAccount.availableBalance (a : CoinAccount) : U64 :=
  if a.staked ≤ a.balance then a.balance - a.staked else 0

/-- What is rewarded. -/
inductive RewardReason where
  | dhtStorage | uptime | relay

/-- What a stake is slashed for. -/
inductive SlashReason where
  | invalidData | downtime | equivocation

/-- The transactions of the ledger. -/
inductive TokenTx where
  | transfer (sender recipient : NodeId) (amount nonce : U64)
  | stake (nodeId : NodeId) (amount : U64)
  | unstake (nodeId : NodeId) (amount : U64)
  | rewardPoUW (nodeId : NodeId) (amount : U64) (reason : RewardReason)
  | blockReward (leader : NodeId) (blockHeight : U64)
  | slash (nodeId : NodeId) (amount : U64) (reason : SlashReason)
  | storageFee (nodeId : NodeId) (megabytes : U64)
  | donate (donor : NodeId) (poolId amount : U64)
  | auction (bidder : NodeId) (itemId bidAmount nonce : U64)

/-- What became of a transaction. -/
inductive TokenResult where
  | success
  | insufficientBalance
  | insufficientStake
  | invalidNonce
  | selfTransfer
  | supplyExceeded
deriving DecidableEq

structure TokenLedger where
  accounts : OrdMap NodeId CoinAccount
  totalMinted : U64
  totalBurned : U64
  blockHeight : U64

namespace TokenLedger

def new : TokenLedger := ⟨∅, 0, 0, 0⟩

/-- `entry(id).or_default()`. -/
def entry (s : TokenLedger) (id : NodeId) : CoinAccount := s.accounts[id]?.getD {}

def setAccount (s : TokenLedger) (id : NodeId) (acc : CoinAccount) : TokenLedger :=
  { s with accounts := s.accounts.insert id acc }

/-- The account has an entry from now on. -/
def touch (s : TokenLedger) (id : NodeId) : TokenLedger := s.setAccount id (s.entry id)

def genesis (s : TokenLedger) (validators : List NodeId) : Option TokenLedger :=
  validators.foldlM
    (fun s v => do
      let totalMinted ← checkedAdd s.totalMinted genesisReward
      return { s.setAccount v { s.entry v with balance := genesisReward } with
        totalMinted := totalMinted })
    s

/-- The sum of all balances. -/
def circulatingSupply (s : TokenLedger) : Nat := OrdMap.sumBy (fun a => a.balance.toNat) s.accounts

def currentBlockReward (s : TokenLedger) : U64 :=
  let halvings := s.blockHeight / halvingInterval
  if 64 ≤ halvings then 0 else blockReward >>> halvings

def executeTransfer (s : TokenLedger) (sender recipient : NodeId) (amount nonce : U64) :
    Option (TokenResult × TokenLedger) :=
  if sender = recipient then some (.selfTransfer, s)
  else if recipient ∉ s.accounts ∧ maxAccounts ≤ s.accounts.size then some (.insufficientBalance, s)
  else
    let acc := s.entry sender
    if acc.nonce ≠ nonce then some (.invalidNonce, s.touch sender)
    else if acc.availableBalance < amount then some (.insufficientBalance, s.touch sender)
    else do
      let balance ← checkedSub acc.balance amount
      let nonce ← checkedAdd acc.nonce 1
      let s := s.setAccount sender { acc with balance := balance, nonce := nonce }
      let receiver := s.entry recipient
      let balance ← checkedAdd receiver.balance amount
      return (.success, s.setAccount recipient { receiver with balance := balance })

def executeStake (s : TokenLedger) (nodeId : NodeId) (amount : U64) :
    Option (TokenResult × TokenLedger) :=
  let acc := s.entry nodeId
  if acc.availableBalance < amount then some (.insufficientBalance, s.touch nodeId)
  else (checkedAdd acc.staked amount).map fun staked =>
    (.success, s.setAccount nodeId { acc with staked := staked })

def executeUnstake (s : TokenLedger) (nodeId : NodeId) (amount : U64) :
    Option (TokenResult × TokenLedger) :=
  let acc := s.entry nodeId
  if acc.staked < amount then some (.insufficientStake, s.touch nodeId)
  else (checkedSub acc.staked amount).map fun staked =>
    (.success, s.setAccount nodeId { acc with staked := staked })

def executeReward (s : TokenLedger) (nodeId : NodeId) (amount : U64) :
    Option (TokenResult × TokenLedger) := do
  let totalMinted ← checkedAdd s.totalMinted amount
  if maxSupply < totalMinted then return (.supplyExceeded, s)
  else
    let acc := s.entry nodeId
    let balance ← checkedAdd acc.balance amount
    return (.success, { s.setAccount nodeId { acc with balance := balance } with
      totalMinted := totalMinted })

/-- The stake is slashed first, then the balance. -/
def executeSlash (s : TokenLedger) (nodeId : NodeId) (amount : U64) :
    Option (TokenResult × TokenLedger) := do
  let acc := s.entry nodeId
  let totalAvailable ← checkedAdd acc.staked acc.balance
  if totalAvailable = 0 then return (.insufficientBalance, s.touch nodeId)
  else
    let effectiveAmount := least amount totalAvailable
    let slashFromStake := least effectiveAmount acc.staked
    let staked ← checkedSub acc.staked slashFromStake
    let balance ← checkedSub acc.balance (effectiveAmount - slashFromStake)
    let totalBurned ← checkedAdd s.totalBurned effectiveAmount
    return (.success, { s.setAccount nodeId { acc with
      staked := staked, balance := balance, reputation := lowered acc.reputation } with
      totalBurned := totalBurned })

/-- The coins leave the balance, and the nonce goes up. -/
def spend (s : TokenLedger) (nodeId : NodeId) (amount : U64) : Option (TokenResult × TokenLedger) :=
  let acc := s.entry nodeId
  if acc.availableBalance < amount then some (.insufficientBalance, s.touch nodeId)
  else do
    let balance ← checkedSub acc.balance amount
    let nonce ← checkedAdd acc.nonce 1
    return (.success, s.setAccount nodeId { acc with balance := balance, nonce := nonce })

def execute (s : TokenLedger) : TokenTx → Option (TokenResult × TokenLedger)
  | .transfer sender recipient amount nonce => s.executeTransfer sender recipient amount nonce
  | .stake nodeId amount => s.executeStake nodeId amount
  | .unstake nodeId amount => s.executeUnstake nodeId amount
  | .rewardPoUW nodeId amount _ => s.executeReward nodeId amount
  | .blockReward leader blockHeight => do
    let s := { s with blockHeight := blockHeight }
    let reward := s.currentBlockReward
    let totalMinted ← checkedAdd s.totalMinted reward
    if maxSupply < totalMinted then return (.supplyExceeded, s) else s.executeReward leader reward
  | .slash nodeId amount _ => s.executeSlash nodeId amount
  | .donate donor _ amount => s.spend donor amount
  | .auction bidder _ bidAmount nonce =>
    if (s.entry bidder).nonce ≠ nonce then some (.invalidNonce, s.touch bidder)
    else s.spend bidder bidAmount
  | .storageFee nodeId megabytes => do
    let fee ← checkedMul megabytes storageFeePerMb
    let acc := s.entry nodeId
    if acc.availableBalance < fee then return (.insufficientBalance, s.touch nodeId)
    else
      let balance ← checkedSub acc.balance fee
      let totalBurned ← checkedAdd s.totalBurned fee
      return (.success, { s.setAccount nodeId { acc with balance := balance } with
        totalBurned := totalBurned })

/-- The ledger after some transactions, if none of them has panicked. -/
def run (start : TokenLedger) (l : List TokenTx) : Option TokenLedger :=
  after (failing execute) (some start) l

/-! ## Statement -/

/-- No account and no counter has changed. -/
structure Same (s s' : TokenLedger) : Prop where
  accounts : ∀ id, s'.entry id = s.entry id
  totalMinted : s'.totalMinted = s.totalMinted
  totalBurned : s'.totalBurned = s.totalBurned
  blockHeight : s'.blockHeight = s.blockHeight

/-- The books balance in a run: what circulates is what has been minted and not burned, stakes are
part of the balance, and a transaction that does not succeed changes nothing. -/
structure Balances (start : TokenLedger) (l : List TokenTx) : Prop where
  supply : ∀ done s, done <+: l → run start done = some s →
    s.circulatingSupply + s.totalBurned.toNat = s.totalMinted.toNat
  stakes : ∀ done s id, done <+: l → run start done = some s →
    (s.entry id).staked.toNat ≤ (s.entry id).balance.toNat
  refused : ∀ done tx s r s', done ++ [tx] <+: l → run start done = some s →
    s.execute tx = some (r, s') → r ≠ .success → s.Same s'

/-- The transaction slashes no stake, neither donates nor bids what it can pay, and is not a block
reward that exceeds the supply and comes with another height. A spender whose nonce is used up
panics. -/
def Fits (s : TokenLedger) : TokenTx → Prop
  | .slash nodeId amount _ => amount = 0 ∨ (s.entry nodeId).staked = 0
  | .donate donor _ amount => amount = 0 ∨ (s.entry donor).availableBalance < amount ∨
      (s.entry donor).nonce = .allOnes 64
  | .auction bidder _ bidAmount nonce => bidAmount = 0 ∨ (s.entry bidder).nonce ≠ nonce ∨
      (s.entry bidder).availableBalance < bidAmount ∨ (s.entry bidder).nonce = .allOnes 64
  | .blockReward _ blockHeight => blockHeight = s.blockHeight ∨ s.totalMinted.toNat +
      ({ s with blockHeight := blockHeight } :
        TokenLedger).currentBlockReward.toNat ≤ maxSupply.toNat
  | _ => True

/-! ## Accounts -/

variable {s s' : TokenLedger} {id id' : NodeId} {acc : CoinAccount} {amount : U64} {r : TokenResult}

theorem entry_setAccount :
    (s.setAccount id acc).entry id' = if id = id' then acc else s.entry id' := by
  simp only [entry, setAccount, ExtTreeMap.getElem?_insert, LawfulEqCmp.compare_eq_iff_eq]
  split_ifs <;> rfl

theorem circulating_setAccount (s : TokenLedger) (id : NodeId) (acc : CoinAccount) :
    (s.setAccount id acc).circulatingSupply + (s.entry id).balance.toNat =
      s.circulatingSupply + acc.balance.toNat := by
  have hinsert := OrdMap.sumBy_insert (fun a : CoinAccount => a.balance.toNat) s.accounts id acc
  have hold : (s.accounts[id]?.elim 0 fun a : CoinAccount => a.balance.toNat) =
      (s.entry id).balance.toNat := by
    unfold entry
    cases s.accounts[id]? <;> rfl
  rwa [hold] at hinsert

theorem balance_le (s : TokenLedger) (id : NodeId) :
    (s.entry id).balance.toNat ≤ s.circulatingSupply := by
  unfold entry
  cases h : s.accounts[id]? with
  | none => exact Nat.zero_le _
  | some acc => exact OrdMap.le_sumBy (fun a : CoinAccount => a.balance.toNat) h

theorem entry_touch : (s.touch id).entry id' = s.entry id' := by
  rw [touch, entry_setAccount]
  split_ifs with h
  · rw [h]
  · rfl

theorem Same.touch : s.Same (s.touch id) := ⟨fun _ => entry_touch, rfl, rfl, rfl⟩

/-- The books balance, and there are no more coins than the first validators or the cap allow. -/
structure Sound (s : TokenLedger) : Prop where
  supply : s.circulatingSupply + s.totalBurned.toNat = s.totalMinted.toNat
  stakes : ∀ id, (s.entry id).staked.toNat ≤ (s.entry id).balance.toNat
  bounded : s.totalMinted.toNat ≤ 2 ^ 46

/-- An account and the counters change together. -/
theorem Sound.set (h : s.Sound) {minted burned height : U64}
    (hstakes : acc.staked.toNat ≤ acc.balance.toNat)
    (hsum : acc.balance.toNat + burned.toNat + s.totalMinted.toNat =
      (s.entry id).balance.toNat + s.totalBurned.toNat + minted.toNat)
    (hbounded : minted.toNat ≤ 2 ^ 46) :
    (⟨(s.setAccount id acc).accounts, minted, burned, height⟩ : TokenLedger).Sound := by
  have hcirculating := circulating_setAccount s id acc
  have hold := balance_le s id
  have hsupply := h.supply
  refine ⟨?_, fun id' => ?_, hbounded⟩
  · show (s.setAccount id acc).circulatingSupply + burned.toNat = minted.toNat
    omega
  · have hentry : (⟨(s.setAccount id acc).accounts, minted, burned, height⟩ :
      TokenLedger).entry id' =
        if id = id' then acc else s.entry id' := entry_setAccount
    rw [hentry]
    split_ifs
    · exact hstakes
    · exact h.stakes id'

theorem Sound.touch (h : s.Sound) (id : NodeId) : (s.touch id).Sound :=
  h.set (h.stakes id) rfl h.bounded

theorem available_toNat (h : s.Sound) (id : NodeId) : (s.entry id).availableBalance.toNat +
    (s.entry id).staked.toNat = (s.entry id).balance.toNat := by
  have hle := h.stakes id
  rw [CoinAccount.availableBalance, if_pos (BitVec.le_def.mpr hle),
    BitVec.toNat_sub_of_le (BitVec.le_def.mpr hle)]
  omega

/-! ## Transactions -/

/-- The books still balance, and nothing has changed unless the transaction has succeeded. -/
structure Kept (s : TokenLedger) (r : TokenResult) (s' : TokenLedger) : Prop where
  sound : s'.Sound
  same : r ≠ .success → s.Same s'

section

variable (h : s.Sound)
include h

theorem Kept.touch (r : TokenResult) (id : NodeId) : s.Kept r (s.touch id) :=
  ⟨h.touch id, fun _ => .touch⟩

theorem Kept.refl (r : TokenResult) : s.Kept r s :=
  ⟨h, fun _ => ⟨fun _ => rfl, rfl, rfl, rfl⟩⟩

theorem kept_stake (hex : s.executeStake id amount = some (r, s')) : s.Kept r s' := by
  have havailable := available_toNat h id
  unfold executeStake at hex
  dsimp only at hex
  split_ifs at hex with hlow
  · cases hex
    exact .touch h _ id
  · obtain ⟨staked, hstaked, heq⟩ := Option.map_eq_some_iff.mp hex
    cases heq
    have hadded := checkedAdd_eq_some.mp hstaked
    have hle := BitVec.le_def.mp (BitVec.not_lt.mp hlow)
    exact ⟨h.set (by dsimp only; omega) rfl h.bounded, fun hne => absurd rfl hne⟩

theorem kept_unstake (hex : s.executeUnstake id amount = some (r, s')) : s.Kept r s' := by
  have hstakes := h.stakes id
  unfold executeUnstake at hex
  dsimp only at hex
  split_ifs at hex with hlow
  · cases hex
    exact .touch h _ id
  · obtain ⟨staked, hstaked, heq⟩ := Option.map_eq_some_iff.mp hex
    cases heq
    have hleft := checkedSub_eq_some.mp hstaked
    exact ⟨h.set (by dsimp only; omega) rfl h.bounded, fun hne => absurd rfl hne⟩

theorem kept_reward (hex : s.executeReward id amount = some (r, s')) : s.Kept r s' := by
  have hstakes := h.stakes id
  obtain ⟨minted, hminted, hex⟩ := Option.bind_eq_some_iff.mp hex
  split_ifs at hex with hexceeds
  · cases hex
    exact .refl h _
  · obtain ⟨balance, hbalance, hex⟩ := Option.bind_eq_some_iff.mp hex
    cases hex
    have hgrown := checkedAdd_eq_some.mp hminted
    have hpaid := checkedAdd_eq_some.mp hbalance
    have hcap : minted.toNat ≤ maxSupply.toNat := BitVec.le_def.mp (BitVec.not_lt.mp hexceeds)
    have hmax : maxSupply.toNat = 333333333 := by decide
    exact ⟨h.set (by dsimp only; omega) (by dsimp only [setAccount]; omega) (by omega),
      fun hne => absurd rfl hne⟩

/-- Coins move from one account to another. -/
theorem Sound.set_two {acc' : CoinAccount} (hne : id ≠ id')
    (hstakes : acc.staked.toNat ≤ acc.balance.toNat)
    (hstakes' : acc'.staked.toNat ≤ acc'.balance.toNat)
    (hsum : acc.balance.toNat + acc'.balance.toNat =
      (s.entry id).balance.toNat + (s.entry id').balance.toNat) :
    ((s.setAccount id acc).setAccount id' acc').Sound := by
  have hdebit := circulating_setAccount s id acc
  have hcredit := circulating_setAccount (s.setAccount id acc) id' acc'
  rw [entry_setAccount, if_neg hne] at hcredit
  have hsupply := h.supply
  refine ⟨?_, fun i => ?_, h.bounded⟩
  · show ((s.setAccount id acc).setAccount id' acc').circulatingSupply + s.totalBurned.toNat =
      s.totalMinted.toNat
    omega
  · rw [entry_setAccount, entry_setAccount]
    split_ifs
    · exact hstakes'
    · exact hstakes
    · exact h.stakes i

theorem kept_transfer {sender recipient : NodeId} {nonce : U64}
    (hex : s.executeTransfer sender recipient amount nonce = some (r, s')) : s.Kept r s' := by
  have havailable := available_toNat h sender
  have hstakes := h.stakes recipient
  unfold executeTransfer at hex
  dsimp only at hex
  split_ifs at hex with hself hfull hnonce hlow
  · cases hex
    exact .refl h _
  · cases hex
    exact .refl h _
  · cases hex
    exact .touch h _ sender
  · cases hex
    exact .touch h _ sender
  · have hother : ∀ acc, (s.setAccount sender acc).entry recipient = s.entry recipient :=
      fun acc => by rw [entry_setAccount, if_neg hself]
    simp only [hother] at hex
    obtain ⟨left, hleft, hex⟩ := Option.bind_eq_some_iff.mp hex
    obtain ⟨next, -, hex⟩ := Option.bind_eq_some_iff.mp hex
    obtain ⟨balance, hbalance, hex⟩ := Option.bind_eq_some_iff.mp hex
    cases hex
    have hsent := checkedSub_eq_some.mp hleft
    have hreceived := checkedAdd_eq_some.mp hbalance
    have hle := BitVec.le_def.mp (BitVec.not_lt.mp hlow)
    exact ⟨h.set_two hself (by dsimp only; omega) (by dsimp only; omega) (by dsimp only; omega),
      fun hne => absurd rfl hne⟩

theorem kept_spend (hex : s.spend id amount = some (r, s'))
    (hnone : amount = 0 ∨ r ≠ .success) : s.Kept r s' := by
  have havailable := available_toNat h id
  unfold spend at hex
  dsimp only at hex
  split_ifs at hex with hlow
  · cases hex
    exact .touch h _ id
  · obtain ⟨balance, hbalance, hex⟩ := Option.bind_eq_some_iff.mp hex
    obtain ⟨nonce, -, hex⟩ := Option.bind_eq_some_iff.mp hex
    cases hex
    obtain rfl := hnone.resolve_right fun hne => hne rfl
    have hsame : balance = (s.entry id).balance :=
      BitVec.eq_of_toNat_eq (by simpa using checkedSub_eq_some.mp hbalance)
    subst hsame
    exact ⟨h.set (h.stakes id) rfl h.bounded, fun hne => absurd rfl hne⟩

theorem kept_storageFee {megabytes : U64}
    (hex : s.execute (.storageFee id megabytes) = some (r, s')) : s.Kept r s' := by
  have havailable := available_toNat h id
  obtain ⟨fee, -, hex⟩ := Option.bind_eq_some_iff.mp hex
  dsimp only at hex
  split_ifs at hex with hlow
  · cases hex
    exact .touch h _ id
  · obtain ⟨balance, hbalance, hex⟩ := Option.bind_eq_some_iff.mp hex
    obtain ⟨burned, hburned, hex⟩ := Option.bind_eq_some_iff.mp hex
    cases hex
    have hpaid := checkedSub_eq_some.mp hbalance
    have hgrown := checkedAdd_eq_some.mp hburned
    have hle := BitVec.le_def.mp (BitVec.not_lt.mp hlow)
    exact ⟨h.set (by dsimp only; omega) (by dsimp only [setAccount]; omega) h.bounded,
      fun hne => absurd rfl hne⟩

end

/-- What a slashing takes from the stake, it burns without taking it from the balance. -/
theorem slash_eq_some (hex : s.executeSlash id amount = some (r, s')) :
    (r = .insufficientBalance ∧ s' = s.touch id ∧ (s.entry id).staked = 0 ∧
      (s.entry id).balance = 0) ∨
    (r = .success ∧ ∃ staked balance burned, s' = { s.setAccount id { s.entry id with
        staked := staked, balance := balance, reputation := lowered (s.entry id).reputation } with
        totalBurned := burned } ∧
      staked.toNat = (s.entry id).staked.toNat - amount.toNat ∧
      balance.toNat = (s.entry id).balance.toNat - (amount.toNat - (s.entry id).staked.toNat) ∧
      burned.toNat = s.totalBurned.toNat +
        min amount.toNat ((s.entry id).staked.toNat + (s.entry id).balance.toNat)) := by
  obtain ⟨total, htotal, hex⟩ := Option.bind_eq_some_iff.mp hex
  have hsum := checkedAdd_eq_some.mp htotal
  dsimp only at hex
  split_ifs at hex with hzero
  · cases hex
    rw [hzero] at hsum
    have hstaked : (s.entry id).staked.toNat = 0 := by simp at hsum; omega
    have hbalance : (s.entry id).balance.toNat = 0 := by simp at hsum; omega
    exact .inl ⟨rfl, rfl, BitVec.eq_of_toNat_eq hstaked, BitVec.eq_of_toNat_eq hbalance⟩
  · obtain ⟨staked, hstaked, hex⟩ := Option.bind_eq_some_iff.mp hex
    obtain ⟨balance, hbalance, hex⟩ := Option.bind_eq_some_iff.mp hex
    obtain ⟨burned, hburned, hex⟩ := Option.bind_eq_some_iff.mp hex
    cases hex
    have hle : least (least amount total) (s.entry id).staked ≤ least amount total := by
      rw [BitVec.le_def, toNat_least]
      exact min_le_left _ _
    have hstaked' := checkedSub_eq_some.mp hstaked
    have hbalance' := checkedSub_eq_some.mp hbalance
    have hburned' := checkedAdd_eq_some.mp hburned
    rw [BitVec.toNat_sub_of_le hle] at hbalance'
    simp only [toNat_least, hsum] at hstaked' hbalance' hburned'
    exact .inr ⟨rfl, staked, balance, burned, rfl, by omega, by omega, hburned'⟩

theorem kept_slash (h : s.Sound) (hex : s.executeSlash id amount = some (r, s'))
    (hnone : amount = 0 ∨ (s.entry id).staked = 0) : s.Kept r s' := by
  rcases slash_eq_some hex with ⟨rfl, rfl, -⟩ | ⟨rfl, staked, balance, burned, rfl, hs, hb, hburned⟩
  · exact .touch h _ id
  · have hstakes := h.stakes id
    have hzero : amount.toNat = 0 ∨ (s.entry id).staked.toNat = 0 := by
      rcases hnone with hnone | hnone <;> rw [hnone] <;> simp
    exact ⟨h.set (by dsimp only; omega) (by dsimp only [setAccount]; omega) h.bounded,
      fun hne => absurd rfl hne⟩

theorem kept_blockReward {height : U64} (h : s.Sound) (hfits : s.Fits (.blockReward id height))
    (hex : s.execute (.blockReward id height) = some (r, s')) : s.Kept r s' := by
  have hraised : ({ s with blockHeight := height } : TokenLedger).Sound :=
    ⟨h.supply, h.stakes, h.bounded⟩
  obtain ⟨minted, hminted, hex⟩ := Option.bind_eq_some_iff.mp hex
  split_ifs at hex with hexceeds
  · cases hex
    have hgrown := checkedAdd_eq_some.mp hminted
    have hmore : maxSupply.toNat < minted.toNat := BitVec.lt_def.mp hexceeds
    have hsame : height = s.blockHeight := hfits.resolve_right fun hle => by
      dsimp only at hgrown hle
      omega
    exact ⟨hraised, fun _ => ⟨fun _ => rfl, rfl, rfl, hsame⟩⟩
  · have hkept := kept_reward hraised hex
    refine ⟨hkept.sound, fun hne => ?_⟩
    obtain ⟨minted', hminted', hex⟩ := Option.bind_eq_some_iff.mp hex
    cases hminted.symm.trans hminted'
    rw [if_neg hexceeds] at hex
    obtain ⟨balance, -, hex⟩ := Option.bind_eq_some_iff.mp hex
    cases hex
    exact absurd rfl hne

/-- Spending that fails, or comes to nothing. -/
theorem spend_none (hex : s.spend id amount = some (r, s')) (hfits : amount = 0 ∨
    (s.entry id).availableBalance < amount ∨ (s.entry id).nonce = .allOnes 64) :
    amount = 0 ∨ r ≠ .success := by
  unfold spend at hex
  dsimp only at hex
  rcases hfits with hzero | hlow | hused
  · exact .inl hzero
  · rw [if_pos hlow] at hex
    cases hex
    exact .inr nofun
  · split_ifs at hex with hlow
    · cases hex
      exact .inr nofun
    · obtain ⟨balance, -, hex⟩ := Option.bind_eq_some_iff.mp hex
      obtain ⟨nonce, hnonce, -⟩ := Option.bind_eq_some_iff.mp hex
      have hnext := checkedAdd_eq_some.mp hnonce
      have hlt := nonce.isLt
      rw [hused, BitVec.toNat_allOnes] at hnext
      simp at hnext
      omega

/-- A transaction that fits keeps the books. -/
theorem Sound.of_execute {tx : TokenTx} (h : s.Sound) (hfits : s.Fits tx)
    (hex : s.execute tx = some (r, s')) : s.Kept r s' := by
  cases tx with
  | transfer => exact kept_transfer h hex
  | stake => exact kept_stake h hex
  | unstake => exact kept_unstake h hex
  | rewardPoUW => exact kept_reward h hex
  | blockReward => exact kept_blockReward h hfits hex
  | slash => exact kept_slash h hex hfits
  | storageFee => exact kept_storageFee h hex
  | donate => exact kept_spend h hex (spend_none hex hfits)
  | auction bidder itemId bidAmount nonce =>
    rw [execute] at hex
    split_ifs at hex with hnonce
    · cases hex
      exact .touch h _ bidder
    · refine kept_spend h hex (spend_none hex ?_)
      rcases hfits with hzero | hother | hfits
      · exact .inl hzero
      · exact absurd hother hnonce
      · exact .inr hfits

/-! ## Books that do not balance -/

/-- The books have stopped balancing, or a transaction without success has left a trace. -/
def Broken (s : TokenLedger) (r : TokenResult) (s' : TokenLedger) : Prop :=
  s'.circulatingSupply + s'.totalBurned.toNat ≠ s'.totalMinted.toNat ∨ (r ≠ .success ∧ ¬ s.Same s')

theorem broken_spend (h : s.Sound) (hpositive : amount ≠ 0)
    (henough : ¬ (s.entry id).availableBalance < amount)
    (hnonce : (s.entry id).nonce ≠ .allOnes 64) :
    ∃ r s', s.spend id amount = some (r, s') ∧ s.Broken r s' := by
  have havailable := available_toNat h id
  have hold := balance_le s id
  have hle := BitVec.le_def.mp (BitVec.not_lt.mp henough)
  have hzero : amount.toNat ≠ 0 := fun hzero => hpositive (BitVec.eq_of_toNat_eq hzero)
  have hunused : (s.entry id).nonce.toNat ≠ 2 ^ 64 - 1 := fun hused =>
    hnonce (BitVec.eq_of_toNat_eq (by rw [hused, BitVec.toNat_allOnes]))
  have hlt := (s.entry id).nonce.isLt
  obtain ⟨balance, hbalance⟩ : ∃ balance, checkedSub (s.entry id).balance amount = some balance :=
    ⟨_, if_pos (BitVec.le_def.mpr (by omega))⟩
  have hnext : checkedAdd (s.entry id).nonce 1 = some ((s.entry id).nonce + 1) :=
    checkedAdd_of_lt (by simp; omega)
  refine ⟨.success, _, by
    simp only [spend, if_neg henough, hbalance, hnext, Option.bind_eq_bind, Option.bind_some]
    rfl, .inl ?_⟩
  have hleft := checkedSub_eq_some.mp hbalance
  have hcirculating := circulating_setAccount s id { s.entry id with
    balance := balance, nonce := (s.entry id).nonce + 1 }
  have hsupply := h.supply
  dsimp only [setAccount] at hcirculating ⊢
  omega

/-- There are too few coins for a slashing to overflow. -/
theorem slash_returns (h : s.Sound) (id : NodeId) (amount : U64) :
    ∃ r s', s.executeSlash id amount = some (r, s') := by
  have hstakes := h.stakes id
  have hold := balance_le s id
  have hsupply := h.supply
  have hbounded := h.bounded
  have hsum : checkedAdd (s.entry id).staked (s.entry id).balance =
      some ((s.entry id).staked + (s.entry id).balance) := checkedAdd_of_lt (by omega)
  have htotal := checkedAdd_eq_some.mp hsum
  unfold executeSlash
  simp only [hsum, Option.bind_eq_bind, Option.bind_some]
  split_ifs
  · exact ⟨_, _, rfl⟩
  · have hle : least (least amount ((s.entry id).staked + (s.entry id).balance)) (s.entry id).staked
        ≤ least amount ((s.entry id).staked + (s.entry id).balance) := by
      rw [BitVec.le_def, toNat_least]
      exact min_le_left _ _
    have heffective := toNat_least amount ((s.entry id).staked + (s.entry id).balance)
    have hfrom := toNat_least (least amount ((s.entry id).staked + (s.entry id).balance))
      (s.entry id).staked
    obtain ⟨staked, hstaked⟩ : ∃ staked, checkedSub (s.entry id).staked (least (least amount
        ((s.entry id).staked + (s.entry id).balance)) (s.entry id).staked) = some staked :=
      ⟨_, if_pos (BitVec.le_def.mpr (by omega))⟩
    obtain ⟨balance, hbalance⟩ : ∃ balance, checkedSub (s.entry id).balance (least amount
        ((s.entry id).staked + (s.entry id).balance) - least (least amount
        ((s.entry id).staked + (s.entry id).balance)) (s.entry id).staked) = some balance :=
      ⟨_, if_pos (BitVec.le_def.mpr (by rw [BitVec.toNat_sub_of_le hle]; omega))⟩
    simp only [hstaked, hbalance, Option.bind_some,
      checkedAdd_of_lt (show s.totalBurned.toNat + (least amount ((s.entry id).staked +
        (s.entry id).balance)).toNat < 2 ^ 64 by omega)]
    exact ⟨_, _, rfl⟩

theorem broken_slash (h : s.Sound) (hpositive : amount ≠ 0) (hstaked : (s.entry id).staked ≠ 0) :
    ∃ r s', s.executeSlash id amount = some (r, s') ∧ s.Broken r s' := by
  have hstakes := h.stakes id
  have hold := balance_le s id
  have hsupply := h.supply
  have hbounded := h.bounded
  have hzero : amount.toNat ≠ 0 := fun hzero => hpositive (BitVec.eq_of_toNat_eq hzero)
  have hzero' : (s.entry id).staked.toNat ≠ 0 := fun hzero =>
    hstaked (BitVec.eq_of_toNat_eq hzero)
  obtain ⟨r, s', hex⟩ := slash_returns h id amount
  refine ⟨r, s', hex, .inl ?_⟩
  rcases slash_eq_some hex with ⟨-, -, hnone, -⟩ | ⟨rfl, staked, balance, burned, rfl,
    hs, hb, hburned⟩
  · exact absurd hnone hstaked
  · have hcirculating := circulating_setAccount s id { s.entry id with
      staked := staked, balance := balance, reputation := lowered (s.entry id).reputation }
    dsimp only at hcirculating
    show (s.setAccount id ⟨balance, staked, (s.entry id).nonce, _⟩).circulatingSupply +
      burned.toNat ≠ s.totalMinted.toNat
    omega

theorem reward_le (s : TokenLedger) : s.currentBlockReward.toNat ≤ 33 := by
  unfold currentBlockReward
  dsimp only
  split_ifs
  · decide
  · rw [BitVec.ushiftRight_eq', BitVec.toNat_ushiftRight, Nat.shiftRight_eq_div_pow]
    exact Nat.div_le_self ..

theorem broken_blockReward {height : U64} (h : s.Sound)
    (hfits : ¬ s.Fits (.blockReward id height)) :
    ∃ r s', s.execute (.blockReward id height) = some (r, s') ∧ s.Broken r s' := by
  obtain ⟨hother, hexceeds⟩ := not_or.mp hfits
  have hbounded := h.bounded
  have hreward : ({ s with blockHeight := height } : TokenLedger).currentBlockReward.toNat ≤ 33 :=
    reward_le _
  have hsum : checkedAdd s.totalMinted
      ({ s with blockHeight := height } : TokenLedger).currentBlockReward = some (s.totalMinted +
        ({ s with blockHeight := height } : TokenLedger).currentBlockReward) :=
    checkedAdd_of_lt (by omega)
  have hmore : maxSupply < s.totalMinted +
      ({ s with blockHeight := height } : TokenLedger).currentBlockReward := by
    rw [BitVec.lt_def, checkedAdd_eq_some.mp hsum]
    omega
  refine ⟨.supplyExceeded, { s with blockHeight := height }, ?_, .inr ⟨nofun, fun hsame =>
    hother hsame.blockHeight⟩⟩
  simp only [execute, hsum, Option.bind_eq_bind, Option.bind_some, if_pos hmore]
  rfl

/-- A transaction that does not fit returns, and breaks the books. -/
theorem broken_of_execute {tx : TokenTx} (h : s.Sound) (hfits : ¬ s.Fits tx) :
    ∃ r s', s.execute tx = some (r, s') ∧ s.Broken r s' := by
  cases tx with
  | transfer => exact absurd trivial hfits
  | stake => exact absurd trivial hfits
  | unstake => exact absurd trivial hfits
  | rewardPoUW => exact absurd trivial hfits
  | storageFee => exact absurd trivial hfits
  | blockReward => exact broken_blockReward h hfits
  | slash =>
    obtain ⟨hpositive, hstaked⟩ := not_or.mp hfits
    exact broken_slash h hpositive hstaked
  | donate =>
    obtain ⟨hpositive, hfits⟩ := not_or.mp hfits
    obtain ⟨henough, hnonce⟩ := not_or.mp hfits
    exact broken_spend h hpositive henough hnonce
  | auction =>
    obtain ⟨hpositive, hfits⟩ := not_or.mp hfits
    obtain ⟨hsame, hfits⟩ := not_or.mp hfits
    obtain ⟨henough, hnonce⟩ := not_or.mp hfits
    rw [execute, if_neg hsame]
    exact broken_spend h hpositive henough hnonce

/-! ## The first validators -/

theorem genesis_cons {v : NodeId} {vs : List NodeId} (h : s.genesis (v :: vs) = some s') :
    ∃ minted : U64, minted.toNat = s.totalMinted.toNat + 10000 ∧
      (⟨(s.setAccount v { s.entry v with balance := genesisReward }).accounts, minted,
        s.totalBurned, s.blockHeight⟩ : TokenLedger).genesis vs = some s' := by
  rw [genesis, List.foldlM_cons] at h
  obtain ⟨s₁, hs₁, h⟩ := Option.bind_eq_some_iff.mp h
  obtain ⟨minted, hminted, hs₁⟩ := Option.bind_eq_some_iff.mp hs₁
  cases hs₁
  exact ⟨minted, checkedAdd_eq_some.mp hminted, h⟩

theorem genesis_counters {validators : List NodeId} (h : s.genesis validators = some s') :
    s'.totalMinted.toNat = s.totalMinted.toNat + 10000 * validators.length ∧
      s'.totalBurned = s.totalBurned ∧ ∀ id, (s'.entry id).staked = (s.entry id).staked := by
  induction validators generalizing s with
  | nil =>
    cases h
    exact ⟨rfl, rfl, fun _ => rfl⟩
  | cons v vs ih =>
    obtain ⟨minted, hminted, h⟩ := genesis_cons h
    obtain ⟨htotal, hburned, hstaked⟩ := ih h
    refine ⟨?_, hburned, fun id => ?_⟩
    · dsimp only at htotal
      rw [htotal, hminted, List.length_cons]
      omega
    · have hentry : (s.setAccount v { s.entry v with balance := genesisReward }).entry id =
          if v = id then _ else s.entry id := entry_setAccount
      refine (hstaked id).trans ((congrArg CoinAccount.staked hentry).trans ?_)
      split_ifs with hv
      · rw [hv]
      · rfl

/-- A validator that is listed twice, or has had coins before, gets fewer coins than are minted. -/
theorem genesis_circulating {validators : List NodeId} (h : s.genesis validators = some s') :
    s'.circulatingSupply ≤ s.circulatingSupply + 10000 * validators.length ∧
      (s'.circulatingSupply = s.circulatingSupply + 10000 * validators.length ↔
        validators.Nodup ∧ ∀ v ∈ validators, (s.entry v).balance.toNat = 0) := by
  induction validators generalizing s with
  | nil =>
    cases h
    exact ⟨le_rfl, iff_of_true rfl ⟨List.nodup_nil, nofun⟩⟩
  | cons v vs ih =>
    obtain ⟨minted, -, h⟩ := genesis_cons h
    obtain ⟨hle, hiff⟩ := ih h
    have hset : (⟨(s.setAccount v { s.entry v with balance := genesisReward }).accounts, minted,
        s.totalBurned, s.blockHeight⟩ : TokenLedger).circulatingSupply +
        (s.entry v).balance.toNat = s.circulatingSupply + 10000 := circulating_setAccount ..
    have hentry : ∀ v', (⟨(s.setAccount v { s.entry v with balance := genesisReward }).accounts,
        minted, s.totalBurned, s.blockHeight⟩ : TokenLedger).entry v' =
        if v = v' then { s.entry v with balance := genesisReward } else s.entry v' :=
      fun _ => entry_setAccount
    have hrest : (∀ v' ∈ vs, (TokenLedger.entry ⟨(s.setAccount v { s.entry v with
        balance := genesisReward }).accounts, minted, s.totalBurned, s.blockHeight⟩
        v').balance.toNat = 0) ↔ v ∉ vs ∧ ∀ v' ∈ vs, (s.entry v').balance.toNat = 0 := by
      constructor
      · refine fun hall => ⟨fun hv => ?_, fun v' hv' => ?_⟩
        · have hzero := hall v hv
          rw [hentry, if_pos rfl] at hzero
          cases hzero
        · have hzero := hall v' hv'
          rw [hentry] at hzero
          split_ifs at hzero
          · cases hzero
          · exact hzero
      · rintro ⟨hv, hall⟩ v' hv'
        rw [hentry, if_neg (ne_of_mem_of_not_mem hv' hv).symm]
        exact hall v' hv'
    rw [List.length_cons, List.nodup_cons, List.forall_mem_cons]
    refine ⟨by omega, ?_⟩
    constructor
    · intro heq
      obtain ⟨hnodup, hall⟩ := hiff.mp (by omega)
      obtain ⟨hv, hall⟩ := hrest.mp hall
      exact ⟨⟨hv, hnodup⟩, by omega, hall⟩
    · rintro ⟨⟨hv, hnodup⟩, hzero, hall⟩
      have heq := hiff.mpr ⟨hnodup, hrest.mpr ⟨hv, hall⟩⟩
      omega

theorem length_validators_le {validators : List NodeId} (h : validators.Nodup) :
    validators.length ≤ 2 ^ 32 := by
  have hnodup : (validators.map UInt32.toNat).Nodup :=
    h.map fun _ _ heq => UInt32.toNat_inj.mp heq
  have hsub : (validators.map UInt32.toNat).toFinset ⊆ Finset.range (2 ^ 32) := by
    intro n hn
    obtain ⟨v, -, rfl⟩ := List.mem_map.mp (List.mem_toFinset.mp hn)
    exact Finset.mem_range.mpr v.toNat_lt
  have hcard := Finset.card_le_card hsub
  rwa [List.toFinset_card_of_nodup hnodup, List.length_map, Finset.card_range] at hcard

variable {validators : List NodeId} {start : TokenLedger}

theorem entry_new : new.entry id = {} := by
  unfold entry new
  rw [ExtTreeMap.getElem?_empty]
  rfl

theorem nodup_of_supply (h : new.genesis validators = some start)
    (hsupply : start.circulatingSupply + start.totalBurned.toNat = start.totalMinted.toNat) :
    validators.Nodup := by
  obtain ⟨hminted, hburned, -⟩ := genesis_counters h
  have hiff := (genesis_circulating h).2
  have hnew : new.circulatingSupply = 0 := rfl
  have hzero : new.totalMinted.toNat = 0 := rfl
  have hzero' : new.totalBurned.toNat = 0 := rfl
  rw [hburned] at hsupply
  exact (hiff.mp (by omega)).1

theorem sound_genesis (h : new.genesis validators = some start) (hnodup : validators.Nodup) :
    start.Sound := by
  obtain ⟨hminted, hburned, hstaked⟩ := genesis_counters h
  have hnew : new.circulatingSupply = 0 := rfl
  have hcirculating := (genesis_circulating h).2.mpr ⟨hnodup, fun v _ => by rw [entry_new]; rfl⟩
  have hlength := length_validators_le hnodup
  have hzero : new.totalMinted.toNat = 0 := rfl
  refine ⟨?_, fun id => ?_, ?_⟩
  · rw [hburned, hminted, hcirculating, hnew]
    rfl
  · rw [hstaked, entry_new]
    exact Nat.zero_le _
  · rw [hminted, hzero]
    omega

/-! ## Runs -/

variable {l : List TokenTx}

theorem run_concat {tx : TokenTx} : run start (l ++ [tx]) = some s' ↔
    ∃ s r, run start l = some s ∧ s.execute tx = some (r, s') := after_failing_concat

/-- As long as every transaction fits, the books are sound. -/
theorem sound_of_fits (h : start.Sound)
    (hfits : ∀ done tx s, done ++ [tx] <+: l → run start done = some s → s.Fits tx)
    (hrun : run start l = some s) : s.Sound := by
  induction l using List.reverseRecOn generalizing s with
  | nil =>
    cases hrun
    exact h
  | append_singleton l tx ih =>
    obtain ⟨s₀, r, hs₀, hex⟩ := run_concat.mp hrun
    have hbefore := ih (fun done tx s hdone =>
      hfits done tx s (hdone.trans (List.prefix_append _ _))) hs₀
    exact (hbefore.of_execute (hfits l tx s₀ List.prefix_rfl hs₀) hex).sound

theorem balances_of_fits (h : start.Sound)
    (hfits : ∀ done tx s, done ++ [tx] <+: l → run start done = some s → s.Fits tx) :
    Balances start l := by
  have hsound : ∀ done s, done <+: l → run start done = some s → s.Sound :=
    fun done s hdone hrun => sound_of_fits h
      (fun done' tx s hdone' => hfits done' tx s (hdone'.trans hdone)) hrun
  exact ⟨fun done s hdone hrun => (hsound done s hdone hrun).supply,
    fun done s id hdone hrun => (hsound done s hdone hrun).stakes id,
    fun done tx s r s' hdone hrun hex hne =>
      ((hsound done s ((List.prefix_append _ _).trans hdone) hrun).of_execute
        (hfits done tx s hdone hrun) hex).same hne⟩

theorem Balances.of_append {rest : List TokenTx} (h : Balances start (l ++ rest)) :
    Balances start l where
  supply done s hdone := h.supply done s (hdone.trans (List.prefix_append _ _))
  stakes done s id hdone := h.stakes done s id (hdone.trans (List.prefix_append _ _))
  refused done tx s r s' hdone :=
    h.refused done tx s r s' (hdone.trans (List.prefix_append _ _))

theorem fits_of_balances (h : start.Sound) (hbalances : Balances start l) :
    ∀ done tx s, done ++ [tx] <+: l → run start done = some s → s.Fits tx := by
  induction l using List.reverseRecOn with
  | nil =>
    intro done tx s hdone
    cases List.append_eq_nil_iff.mp (List.prefix_nil.mp hdone) |>.2
  | append_singleton l tx ih =>
    have hbefore := ih hbalances.of_append
    intro done tx' s hdone hrun
    rcases List.prefix_concat_iff.mp hdone with heq | hdone
    · obtain ⟨rfl, ⟨⟩⟩ := List.append_inj' heq rfl
      by_contra hnot
      obtain ⟨r, s', hex, hbroken⟩ := broken_of_execute (sound_of_fits h hbefore hrun) hnot
      rcases hbroken with hsupply | ⟨hne, htrace⟩
      · exact hsupply (hbalances.supply (done ++ [tx]) s' List.prefix_rfl
          (run_concat.mpr ⟨s, r, hrun, hex⟩))
      · exact htrace (hbalances.refused done tx s r s' List.prefix_rfl hrun hex hne)
    · exact hbefore done tx' s hdone hrun

/-- The books balance exactly if no validator is listed twice at the beginning and every transaction
fits. -/
theorem balances_iff (h : new.genesis validators = some start) :
    Balances start l ↔ validators.Nodup ∧
      ∀ done tx s, done ++ [tx] <+: l → run start done = some s → s.Fits tx := by
  constructor
  · intro hbalances
    have hnodup := nodup_of_supply h (hbalances.supply [] start (List.nil_prefix) rfl)
    exact ⟨hnodup, fits_of_balances (sound_genesis h hnodup) hbalances⟩
  · rintro ⟨hnodup, hfits⟩
    exact balances_of_fits (sound_genesis h hnodup) hfits

end TokenLedger

namespace Demo

open TokenLedger

theorem balances_iff_staked : ∃ start, new.genesis [1, 2] = some start ∧
    Balances start [.stake 1 500, .transfer 1 2 100 0] := by
  obtain ⟨start, hstart⟩ := Option.isSome_iff_exists.mp
    (by decide +kernel : (new.genesis [1, 2]).isSome)
  refine ⟨start, hstart, (balances_iff hstart).mpr ⟨by decide, fun done tx s hdone _ => ?_⟩⟩
  have htx : tx ∈ [TokenTx.stake 1 500, .transfer 1 2 100 0] :=
    hdone.subset (List.mem_append_right _ (List.mem_singleton_self tx))
  rcases List.mem_cons.mp htx with rfl | htx
  · trivial
  · cases List.mem_singleton.mp htx
    trivial

/-- The slashed coins are burned, but the balance is what it was. -/
theorem slashed_stake : ∃ start, new.genesis [1] = some start ∧
    ¬ Balances start [.stake 1 500, .slash 1 200 .downtime] := by
  obtain ⟨start, hstart⟩ := Option.isSome_iff_exists.mp
    (by decide +kernel : (new.genesis [1]).isSome)
  have hcoins : (((new.genesis [1]).bind fun s => run s [.stake 1 500, .slash 1 200 .downtime]).map
      fun s => (s.circulatingSupply + s.totalBurned.toNat, s.totalMinted.toNat)) =
      some (10200, 10000) := by decide +kernel
  rw [hstart] at hcoins
  obtain ⟨s, hrun, hs⟩ := Option.map_eq_some_iff.mp hcoins
  refine ⟨start, hstart, fun h => ?_⟩
  have hsupply := h.supply _ s List.prefix_rfl hrun
  rw [Prod.mk.injEq] at hs
  omega

end Demo

end P2P333.Platform333.Tokenomics
