import P2P333.Platform333.Tokenomics

/-!
# The cap in a release build

`333-platform/src/tokenomics.rs` once more, where sums and differences of `u64` wrap around instead
of panicking.

The cap is tested on the wrapped sum of what has been minted and the reward. A reward close to `2 ^
64` passes the test, and unless the balance wraps as well, the account gets all of it. The first
validators are not tested at all.

Results:
1. `Within.execute`: what a transaction that fits keeps.
2. `capped_iff_fitting`: when a run stays below the cap.
3. `reward_above_cap`: a reward that does not fit.
-/

namespace P2P333.Platform333.Tokenomics.Release

open Std Lib Machine TokenLedger
open Transfer333 (U64 checkedAdd checkedAdd_of_lt checkedAdd_eq_some checkedAdd_eq_none)

/-! ## Transactions -/

def genesis (s : TokenLedger) (validators : List NodeId) : TokenLedger :=
  validators.foldl
    (fun s v => { s.setAccount v { s.entry v with balance := genesisReward } with
      totalMinted := s.totalMinted + genesisReward })
    s

def executeTransfer (s : TokenLedger) (sender recipient : NodeId) (amount nonce : U64) :
    TokenResult × TokenLedger :=
  if sender = recipient then (.selfTransfer, s)
  else if recipient ∉ s.accounts ∧ maxAccounts ≤ s.accounts.size then (.insufficientBalance, s)
  else
    let acc := s.entry sender
    if acc.nonce ≠ nonce then (.invalidNonce, s.touch sender)
    else if acc.availableBalance < amount then (.insufficientBalance, s.touch sender)
    else
      let s := s.setAccount sender { acc with
        balance := acc.balance - amount, nonce := acc.nonce + 1 }
      let receiver := s.entry recipient
      (.success, s.setAccount recipient { receiver with balance := receiver.balance + amount })

def executeStake (s : TokenLedger) (nodeId : NodeId) (amount : U64) : TokenResult × TokenLedger :=
  let acc := s.entry nodeId
  if acc.availableBalance < amount then (.insufficientBalance, s.touch nodeId)
  else (.success, s.setAccount nodeId { acc with staked := acc.staked + amount })

def executeUnstake (s : TokenLedger) (nodeId : NodeId) (amount : U64) : TokenResult × TokenLedger :=
  let acc := s.entry nodeId
  if acc.staked < amount then (.insufficientStake, s.touch nodeId)
  else (.success, s.setAccount nodeId { acc with staked := acc.staked - amount })

def executeReward (s : TokenLedger) (nodeId : NodeId) (amount : U64) : TokenResult × TokenLedger :=
  if maxSupply < s.totalMinted + amount then (.supplyExceeded, s)
  else
    let acc := s.entry nodeId
    (.success, { s.setAccount nodeId { acc with balance := acc.balance + amount } with
      totalMinted := s.totalMinted + amount })

def executeSlash (s : TokenLedger) (nodeId : NodeId) (amount : U64) : TokenResult × TokenLedger :=
  let acc := s.entry nodeId
  let totalAvailable := acc.staked + acc.balance
  if totalAvailable = 0 then (.insufficientBalance, s.touch nodeId)
  else
    let effectiveAmount := least amount totalAvailable
    let slashFromStake := least effectiveAmount acc.staked
    (.success, { s.setAccount nodeId { acc with
      staked := acc.staked - slashFromStake
      balance := acc.balance - (effectiveAmount - slashFromStake)
      reputation := lowered acc.reputation } with
      totalBurned := s.totalBurned + effectiveAmount })

/-- The coins leave the balance, and the nonce goes up. -/
def spend (s : TokenLedger) (nodeId : NodeId) (amount : U64) : TokenResult × TokenLedger :=
  let acc := s.entry nodeId
  if acc.availableBalance < amount then (.insufficientBalance, s.touch nodeId)
  else (.success, s.setAccount nodeId { acc with
    balance := acc.balance - amount, nonce := acc.nonce + 1 })

def execute (s : TokenLedger) : TokenTx → TokenResult × TokenLedger
  | .transfer sender recipient amount nonce => executeTransfer s sender recipient amount nonce
  | .stake nodeId amount => executeStake s nodeId amount
  | .unstake nodeId amount => executeUnstake s nodeId amount
  | .rewardPoUW nodeId amount _ => executeReward s nodeId amount
  | .blockReward leader blockHeight =>
    let s := { s with blockHeight := blockHeight }
    let reward := s.currentBlockReward
    if maxSupply < s.totalMinted + reward then (.supplyExceeded, s)
    else executeReward s leader reward
  | .slash nodeId amount _ => executeSlash s nodeId amount
  | .donate donor _ amount => spend s donor amount
  | .auction bidder _ bidAmount nonce =>
    if (s.entry bidder).nonce ≠ nonce then (.invalidNonce, s.touch bidder)
    else spend s bidder bidAmount
  | .storageFee nodeId megabytes =>
    let fee := megabytes * storageFeePerMb
    let acc := s.entry nodeId
    if acc.availableBalance < fee then (.insufficientBalance, s.touch nodeId)
    else (.success, { s.setAccount nodeId { acc with balance := acc.balance - fee } with
      totalBurned := s.totalBurned + fee })

/-- The ledger after the first validators and some transactions. -/
def run (validators : List NodeId) (l : List TokenTx) : TokenLedger :=
  after execute (genesis new validators) l

/-! ## Statement -/

/-- Neither the balances nor what has been minted exceed the cap, at any time. -/
def Capped (validators : List NodeId) (l : List TokenTx) : Prop :=
  ∀ done, done <+: l → (run validators done).circulatingSupply ≤ maxSupply.toNat ∧
    (run validators done).totalMinted ≤ maxSupply

/-- A reward that does not wrap what has been minted, or wraps the balance too. -/
def Fits (s : TokenLedger) : TokenTx → Prop
  | .rewardPoUW nodeId amount _ => s.totalMinted.toNat + amount.toNat < 2 ^ 64 ∨
      2 ^ 64 ≤ (s.entry nodeId).balance.toNat + amount.toNat
  | _ => True

variable {s : TokenLedger} {id : NodeId} {acc : CoinAccount} {amount : U64}

/-! ## Ledgers below the cap -/

theorem toNat_maxSupply : maxSupply.toNat = 333333333 := by decide

/-- No more circulates than has been minted, and no more is staked than could be minted. -/
structure Within (s : TokenLedger) : Prop where
  supply : s.circulatingSupply ≤ s.totalMinted.toNat
  minted : s.totalMinted.toNat ≤ maxSupply.toNat
  stakes : ∀ id, (s.entry id).staked.toNat ≤ maxSupply.toNat

/-- An account and the counters change together. -/
theorem Within.set (h : Within s) {minted burned height : U64}
    (hstakes : acc.staked.toNat ≤ maxSupply.toNat)
    (hsum : acc.balance.toNat + s.totalMinted.toNat ≤ (s.entry id).balance.toNat + minted.toNat)
    (hminted : minted.toNat ≤ maxSupply.toNat) :
    Within ⟨(s.setAccount id acc).accounts, minted, burned, height⟩ := by
  have hcirculating := circulating_setAccount s id acc
  have hold := balance_le s id
  have hsupply := h.supply
  refine ⟨?_, hminted, fun id' => ?_⟩
  · show (s.setAccount id acc).circulatingSupply ≤ minted.toNat
    omega
  · have hentry :
        (⟨(s.setAccount id acc).accounts, minted, burned, height⟩ : TokenLedger).entry id' =
          if id = id' then acc else s.entry id' := entry_setAccount
    rw [hentry]
    split_ifs
    · exact hstakes
    · exact h.stakes id'

theorem Within.touch (h : Within s) (id : NodeId) : Within (s.touch id) :=
  h.set (h.stakes id) le_rfl h.minted

theorem Within.balance_le (h : Within s) (id : NodeId) :
    (s.entry id).balance.toNat ≤ s.totalMinted.toNat :=
  (TokenLedger.balance_le s id).trans h.supply

theorem toNat_availableBalance (a : CoinAccount) :
    a.availableBalance.toNat = a.balance.toNat - a.staked.toNat := by
  unfold CoinAccount.availableBalance
  split_ifs with hle
  · exact BitVec.toNat_sub_of_le hle
  · have hlt := BitVec.lt_def.mp (BitVec.not_le.mp hle)
    exact (Nat.sub_eq_zero_of_le hlt.le).symm

/-- What is available can be taken from the balance. -/
theorem toNat_spent (h : ¬ acc.availableBalance < amount) :
    (acc.balance - amount).toNat + amount.toNat = acc.balance.toNat := by
  have hle := BitVec.le_def.mp (BitVec.not_lt.mp h)
  rw [toNat_availableBalance] at hle
  rw [BitVec.toNat_sub_of_le (BitVec.le_def.mpr (by omega))]
  omega

theorem within_stake (h : Within s) : Within (executeStake s id amount).2 := by
  unfold executeStake
  dsimp only
  split_ifs with hlow
  · exact h.touch id
  · have hle := BitVec.le_def.mp (BitVec.not_lt.mp hlow)
    rw [toNat_availableBalance] at hle
    have hstakes := h.stakes id
    have hbalance := h.balance_le id
    have hminted := h.minted
    have hsum := BitVec.toNat_add (s.entry id).staked amount
    rw [toNat_maxSupply] at hstakes hminted
    refine h.set ?_ le_rfl h.minted
    dsimp only
    rw [toNat_maxSupply]
    omega

theorem within_unstake (h : Within s) : Within (executeUnstake s id amount).2 := by
  unfold executeUnstake
  dsimp only
  split_ifs with hlow
  · exact h.touch id
  · refine h.set ?_ le_rfl h.minted
    dsimp only
    rw [BitVec.toNat_sub_of_le (BitVec.not_lt.mp hlow)]
    exact (Nat.sub_le ..).trans (h.stakes id)

/-- What has been minted and the balance wrap together, or neither does. -/
theorem within_reward (h : Within s) (hfits : s.totalMinted.toNat + amount.toNat < 2 ^ 64 ∨
    2 ^ 64 ≤ (s.entry id).balance.toNat + amount.toNat) : Within (executeReward s id amount).2 := by
  unfold executeReward
  split_ifs with hexceeds
  · exact h
  · have hbalance := h.balance_le id
    have hlt := amount.isLt
    have hgrown := BitVec.toNat_add s.totalMinted amount
    have hpaid := BitVec.toNat_add (s.entry id).balance amount
    refine h.set (h.stakes id) ?_ (BitVec.le_def.mp (BitVec.not_lt.mp hexceeds))
    dsimp only
    omega

theorem within_slash (h : Within s) : Within (executeSlash s id amount).2 := by
  unfold executeSlash
  dsimp only
  split_ifs with hzero
  · exact h.touch id
  · have hstakes := h.stakes id
    have hbalance := h.balance_le id
    have hminted := h.minted
    rw [toNat_maxSupply] at hstakes hminted
    have hsum := BitVec.toNat_add (s.entry id).staked (s.entry id).balance
    generalize htotal : (s.entry id).staked + (s.entry id).balance = total at hsum
    have heffective := toNat_least amount total
    generalize least amount total = effective at heffective
    have hfrom := toNat_least effective (s.entry id).staked
    generalize least effective (s.entry id).staked = slashed at hfrom
    have hrest : (effective - slashed).toNat = effective.toNat - slashed.toNat :=
      BitVec.toNat_sub_of_le (BitVec.le_def.mpr (by omega))
    have hpaid : ((s.entry id).balance - (effective - slashed)).toNat =
        (s.entry id).balance.toNat - (effective - slashed).toNat :=
      BitVec.toNat_sub_of_le (BitVec.le_def.mpr (by omega))
    have hleft : ((s.entry id).staked - slashed).toNat =
      (s.entry id).staked.toNat - slashed.toNat :=
      BitVec.toNat_sub_of_le (BitVec.le_def.mpr (by omega))
    refine h.set ?_ ?_ h.minted
    · dsimp only
      rw [hleft]
      exact (Nat.sub_le ..).trans (h.stakes id)
    · dsimp only
      rw [hpaid]
      exact Nat.add_le_add_right (Nat.sub_le ..) _

theorem within_spend (h : Within s) : Within (spend s id amount).2 := by
  unfold spend
  dsimp only
  split_ifs with hlow
  · exact h.touch id
  · have hspent := toNat_spent hlow
    exact h.set (h.stakes id) (by dsimp only; omega) h.minted

/-- Coins move from one account to another. -/
theorem Within.set_two (h : Within s) {id' : NodeId} {acc' : CoinAccount} (hne : id ≠ id')
    (hstakes : acc.staked.toNat ≤ maxSupply.toNat) (hstakes' : acc'.staked.toNat ≤ maxSupply.toNat)
    (hsum : acc.balance.toNat + acc'.balance.toNat =
      (s.entry id).balance.toNat + (s.entry id').balance.toNat) :
    Within ((s.setAccount id acc).setAccount id' acc') := by
  have hdebit := circulating_setAccount s id acc
  have hcredit := circulating_setAccount (s.setAccount id acc) id' acc'
  rw [entry_setAccount, if_neg hne] at hcredit
  have hsupply := h.supply
  refine ⟨?_, h.minted, fun i => ?_⟩
  · show ((s.setAccount id acc).setAccount id' acc').circulatingSupply ≤ s.totalMinted.toNat
    omega
  · rw [entry_setAccount, entry_setAccount]
    split_ifs
    · exact hstakes'
    · exact hstakes
    · exact h.stakes i

/-- Two accounts together hold no more than circulates. -/
theorem add_balance_le (s : TokenLedger) {id id' : NodeId} (hne : id ≠ id') :
    (s.entry id).balance.toNat + (s.entry id').balance.toNat ≤ s.circulatingSupply := by
  have hdebit := circulating_setAccount s id {}
  have hother := TokenLedger.balance_le (s.setAccount id {}) id'
  rw [entry_setAccount, if_neg hne] at hother
  have hzero : (CoinAccount.balance {}).toNat = 0 := rfl
  omega

theorem within_transfer {sender recipient : NodeId} {nonce : U64} (h : Within s) :
    Within (executeTransfer s sender recipient amount nonce).2 := by
  unfold executeTransfer
  dsimp only
  split_ifs with hself hfull hnonce hlow
  · exact h
  · exact h
  · exact h.touch sender
  · exact h.touch sender
  · have hspent := toNat_spent hlow
    have hother : ∀ acc, (s.setAccount sender acc).entry recipient = s.entry recipient :=
      fun acc => by rw [entry_setAccount, if_neg hself]
    have hboth := (add_balance_le s hself).trans (h.supply.trans h.minted)
    rw [toNat_maxSupply] at hboth
    have hreceived := BitVec.toNat_add (s.entry recipient).balance amount
    simp only [hother]
    exact h.set_two hself (h.stakes sender) (h.stakes recipient) (by dsimp only; omega)

theorem within_storageFee {megabytes : U64} (h : Within s) :
    Within (execute s (.storageFee id megabytes)).2 := by
  rw [execute]
  dsimp only
  split_ifs with hlow
  · exact h.touch id
  · have hspent := toNat_spent hlow
    exact h.set (h.stakes id) (by dsimp only [setAccount]; omega) h.minted

theorem within_blockReward {height : U64} (h : Within s) :
    Within (execute s (.blockReward id height)).2 := by
  have hraised : Within { s with blockHeight := height } := ⟨h.supply, h.minted, h.stakes⟩
  rw [execute]
  dsimp only
  split_ifs
  · exact hraised
  · have hreward := reward_le { s with blockHeight := height }
    have hminted := h.minted
    rw [toNat_maxSupply] at hminted
    exact within_reward hraised (.inl (by dsimp only; omega))

/-- A transaction that fits keeps the ledger below the cap. -/
theorem Within.execute {tx : TokenTx} (h : Within s) (hfits : Fits s tx) :
    Within (Release.execute s tx).2 := by
  cases tx with
  | transfer => exact within_transfer h
  | stake => exact within_stake h
  | unstake => exact within_unstake h
  | rewardPoUW => exact within_reward h hfits
  | blockReward => exact within_blockReward h
  | slash => exact within_slash h
  | storageFee => exact within_storageFee h
  | donate => exact within_spend h
  | auction bidder itemId bidAmount nonce =>
    rw [Release.execute]
    split_ifs
    · exact h.touch bidder
    · exact within_spend h

/-- What circulates after a reward that does not fit is more than the cap. -/
theorem fits_of_execute {tx : TokenTx} (h : Within s)
    (hcapped : (execute s tx).2.circulatingSupply ≤ maxSupply.toNat) : Fits s tx := by
  cases tx with
  | rewardPoUW nodeId amount reason =>
    by_contra hnot
    obtain ⟨hwraps, hgrows⟩ := not_or.mp hnot
    have hminted := h.minted
    have hlt := amount.isLt
    have hgrown := BitVec.toNat_add s.totalMinted amount
    have hpaid := BitVec.toNat_add (s.entry nodeId).balance amount
    rw [toNat_maxSupply] at hminted
    have hpasses : ¬ maxSupply < s.totalMinted + amount := by
      rw [BitVec.lt_def, toNat_maxSupply]
      omega
    have hcirculating := circulating_setAccount s nodeId { s.entry nodeId with
      balance := (s.entry nodeId).balance + amount }
    rw [execute, executeReward, if_neg hpasses, toNat_maxSupply] at hcapped
    change (s.setAccount nodeId _).circulatingSupply ≤ 333333333 at hcapped
    dsimp only at hcirculating
    omega
  | _ => trivial

/-! ## The first validators -/

variable {validators : List NodeId}

theorem circulating_mk (s : TokenLedger) (minted burned height : U64) :
    (⟨s.accounts, minted, burned, height⟩ : TokenLedger).circulatingSupply = s.circulatingSupply :=
    rfl

theorem entry_mk (s : TokenLedger) (minted burned height : U64) (id : NodeId) :
    (⟨s.accounts, minted, burned, height⟩ : TokenLedger).entry id = s.entry id := rfl

theorem genesis_counters (s : TokenLedger) (validators : List NodeId) :
    (genesis s validators).totalMinted.toNat =
      (s.totalMinted.toNat + 10000 * validators.length) % 2 ^ 64 ∧
    (genesis s validators).circulatingSupply ≤ s.circulatingSupply + 10000 * validators.length ∧
    ∀ id, ((genesis s validators).entry id).staked = (s.entry id).staked := by
  induction validators generalizing s with
  | nil => exact ⟨(Nat.mod_eq_of_lt s.totalMinted.isLt).symm, le_rfl, fun _ => rfl⟩
  | cons v vs ih =>
    obtain ⟨hminted, hcirculating, hstaked⟩ := ih
      ⟨(s.setAccount v { s.entry v with balance := genesisReward }).accounts,
        s.totalMinted + genesisReward, s.totalBurned, s.blockHeight⟩
    have hgrown := BitVec.toNat_add s.totalMinted genesisReward
    have hreward : genesisReward.toNat = 10000 := rfl
    have hset : (s.setAccount v { s.entry v with balance := genesisReward }).circulatingSupply +
        (s.entry v).balance.toNat = s.circulatingSupply + genesisReward.toNat :=
      circulating_setAccount s v _
    refine ⟨hminted.trans ?_, hcirculating.trans ?_, fun id => (hstaked id).trans ?_⟩
    · rw [List.length_cons]
      dsimp only
      omega
    · rw [circulating_mk, List.length_cons]
      omega
    · rw [entry_mk, entry_setAccount]
      split_ifs with hv
      · rw [hv]
      · rfl

theorem within_genesis (h : 10000 * validators.length ≤ maxSupply.toNat) :
    Within (genesis new validators) := by
  obtain ⟨hminted, hcirculating, hstaked⟩ := genesis_counters new validators
  have hnew : new.circulatingSupply = 0 := rfl
  have hzero : new.totalMinted.toNat = 0 := rfl
  rw [hzero, Nat.zero_add, Nat.mod_eq_of_lt (by rw [toNat_maxSupply] at h; omega)] at hminted
  refine ⟨by omega, by omega, fun id => ?_⟩
  rw [hstaked, entry_new]
  exact Nat.zero_le _

/-! ## Runs -/

variable {l : List TokenTx}

/-- At most 33333 validators are listed, and every transaction fits. -/
structure Fitting (validators : List NodeId) (l : List TokenTx) : Prop where
  genesis : 10000 * validators.length ≤ maxSupply.toNat
  fits : ∀ done tx, done ++ [tx] <+: l → Fits (run validators done) tx

theorem Fitting.within (h : Fitting validators l) {done : List TokenTx} (hdone : done <+: l) :
    Within (run validators done) := by
  induction done using List.reverseRecOn with
  | nil => exact within_genesis h.genesis
  | append_singleton done tx ih =>
    have hbefore := ih ((List.prefix_append done [tx]).trans hdone)
    rw [run, after_concat]
    exact hbefore.execute (h.fits done tx hdone)

theorem fitting_of_capped (hfew : 10000 * validators.length < 2 ^ 64) (h : Capped validators l) :
    Fitting validators l := by
  have hfirst : 10000 * validators.length ≤ maxSupply.toNat := by
    have hminted := (genesis_counters new validators).1
    have hzero : new.totalMinted.toNat = 0 := rfl
    rw [hzero, Nat.zero_add, Nat.mod_eq_of_lt hfew] at hminted
    exact hminted ▸ BitVec.le_def.mp (h [] List.nil_prefix).2
  have hfits : ∀ done tx, Within (run validators done) → done ++ [tx] <+: l →
      Fits (run validators done) tx := by
    intro done tx hwithin hdone
    refine fits_of_execute hwithin ?_
    have hafter := (h _ hdone).1
    rwa [run, after_concat] at hafter
  have hwithin : ∀ done, done <+: l → Within (run validators done) := by
    intro done hdone
    induction done using List.reverseRecOn with
    | nil => exact within_genesis hfirst
    | append_singleton done tx ih =>
      have hbefore := ih ((List.prefix_append done [tx]).trans hdone)
      rw [run, after_concat]
      exact hbefore.execute (hfits done tx hbefore hdone)
  exact ⟨hfirst, fun done tx hdone =>
    hfits done tx (hwithin done ((List.prefix_append done [tx]).trans hdone)) hdone⟩

/-- A run stays below the cap if at most 33333 validators are listed and every transaction fits.
Unless the counter has already wrapped in the listing, it does so only then. -/
theorem capped_iff_fitting (validators : List NodeId) (l : List TokenTx) :
    (Fitting validators l → Capped validators l) ∧
      (10000 * validators.length < 2 ^ 64 → Capped validators l → Fitting validators l) := by
  refine ⟨fun h done hdone => ?_, fitting_of_capped⟩
  have hwithin := h.within hdone
  exact ⟨hwithin.supply.trans hwithin.minted, BitVec.le_def.mpr hwithin.minted⟩

namespace Demo

theorem capped_iff_fitting_paid : Capped [1, 2] [.rewardPoUW 1 50 .relay, .transfer 1 2 100 0] := by
  refine (capped_iff_fitting _ _).1 ⟨by decide, fun done tx hdone => ?_⟩
  rcases done with _ | ⟨first, _ | ⟨second, rest⟩⟩
  · cases (List.cons_prefix_cons.mp hdone).1
    exact .inl (by decide +kernel)
  · obtain ⟨-, hdone⟩ := List.cons_prefix_cons.mp hdone
    cases (List.cons_prefix_cons.mp hdone).1
    trivial
  · have hlength := hdone.length_le
    simp only [List.length_append, List.length_cons, List.length_nil] at hlength
    omega

/-- What has been minted wraps to less than the cap, and the account gets all of the reward. -/
theorem reward_above_cap : ¬ Capped [1] [.rewardPoUW 2 (-5000) .uptime] := by
  intro h
  have hcapped := (h _ List.prefix_rfl).1
  have hcoins : (run [1] [.rewardPoUW 2 (-5000) .uptime]).circulatingSupply = 2 ^ 64 + 5000 := by
    decide +kernel
  rw [hcoins, toNat_maxSupply] at hcapped
  omega

end Demo

end P2P333.Platform333.Tokenomics.Release
