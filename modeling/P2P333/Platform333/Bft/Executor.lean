import P2P333.Lib.Machine
import P2P333.Platform333.Bft.Crypto

/-!
# HotStuff: the accounts

`333-platform/src/bft/executor.rs`: what the transactions of the committed blocks do to the
accounts. The sums of `u64` panic where they do not fit, which is `none`.

The sender of a transfer is debited in the entry that it has. Without one the nonce stays where it
was, so that a transfer of nothing from an account that does not exist succeeds over and over.

Results:
1. `supply_executeOne`: the balances keep their sum.
2. `replays_fail_iff`: in which runs a transfer succeeds only once.
-/

namespace P2P333.Platform333.Bft

open Std Lib Machine

structure Account where
  balance : UInt64
  nonce : UInt64
deriving DecidableEq

/-- What became of a transaction. -/
inductive TxResult where
  | success
  | insufficientBalance (available required : UInt64)
  | invalidNonce (expected got : UInt64)
  | selfTransfer
deriving DecidableEq

structure Executor where
  accounts : OrdMap NodeId Account

namespace Account

def debit (a : Account) (amount : UInt64) : Option Account :=
  if amount ≤ a.balance ∧ a.nonce.toNat + 1 < 2 ^ 64 then some ⟨a.balance - amount, a.nonce + 1⟩
    else none

def credit (a : Account) (amount : UInt64) : Option Account :=
  if a.balance.toNat + amount.toNat < 2 ^ 64 then some ⟨a.balance + amount, a.nonce⟩ else none

end Account

namespace Executor

def new : Executor := ⟨∅⟩

def initAccount (e : Executor) (nodeId : NodeId) (balance : UInt64) : Executor :=
  ⟨e.accounts.insert nodeId ⟨balance, 0⟩⟩

def balance (e : Executor) (nodeId : NodeId) : UInt64 := e.accounts[nodeId]?.elim 0 Account.balance

def nonce (e : Executor) (nodeId : NodeId) : UInt64 := e.accounts[nodeId]?.elim 0 Account.nonce

/-- `entry(id).and_modify(..)` with the debit. -/
def debit (e : Executor) (nodeId : NodeId) (amount : UInt64) : Option Executor :=
  match e.accounts[nodeId]? with
  | some a => (a.debit amount).map fun a => ⟨e.accounts.insert nodeId a⟩
  | none => some e

/-- `entry(id).or_insert(..)` with the credit. -/
def credit (e : Executor) (nodeId : NodeId) (amount : UInt64) : Option Executor :=
  ((e.accounts[nodeId]?.getD ⟨0, 0⟩).credit amount).map fun a => ⟨e.accounts.insert nodeId a⟩

def executeTransfer (e : Executor) (sender recipient : NodeId) (amount nonce : UInt64) :
    Option (TxResult × Executor) :=
  if sender = recipient then some (.selfTransfer, e)
  else if nonce ≠ e.nonce sender then some (.invalidNonce (e.nonce sender) nonce, e)
  else if e.balance sender < amount then some (.insufficientBalance (e.balance sender) amount, e)
  else (e.debit sender amount).bind fun e => (e.credit recipient amount).map fun e => (.success, e)

def executeOne (e : Executor) : OrderedTx → Option (TxResult × Executor)
  | .transfer sender recipient amount nonce => e.executeTransfer sender recipient amount nonce
  | .auctionBid bidder _ amount => e.executeTransfer bidder 0 amount (e.nonce bidder)
  | .rankedAction .. => some (.success, e)

def executeBlock (e : Executor) : List OrderedTx → Option (List TxResult × Executor)
  | [] => some ([], e)
  | tx :: txs => (e.executeOne tx).bind fun r =>
    (executeBlock r.2 txs).map fun rs => (r.1 :: rs.1, rs.2)

/-- The sum of all balances. -/
def totalSupply (e : Executor) : Nat := OrdMap.sumBy (fun a => a.balance.toNat) e.accounts

/-! ## A transfer -/

section Transfer

variable {e e' : Executor} {sender recipient id : NodeId} {amount nonce : UInt64}
    {r : TxResult} {a : Account}

/-- The checks of a transfer. -/
def Accepts (e : Executor) (sender recipient : NodeId) (amount nonce : UInt64) : Prop :=
  sender ≠ recipient ∧ nonce = e.nonce sender ∧ amount ≤ e.balance sender

/-- The nonce of the sender has no successor. -/
def Spent (e : Executor) (sender : NodeId) : Prop := (e.nonce sender).toNat + 1 = 2 ^ 64

instance : Decidable (e.Spent sender) := inferInstanceAs (Decidable (_ = _))

theorem executeTransfer_of_not_accepts (h : ¬ e.Accepts sender recipient amount nonce) :
    ∃ r, r ≠ .success ∧ e.executeTransfer sender recipient amount nonce = some (r, e) := by
  unfold executeTransfer
  split_ifs with hself hnonce hbalance
  · exact ⟨.selfTransfer, nofun, rfl⟩
  · exact ⟨.invalidNonce _ _, nofun, rfl⟩
  · exact ⟨.insufficientBalance _ _, nofun, rfl⟩
  · exact absurd ⟨hself, not_not.mp hnonce, UInt64.not_lt.mp hbalance⟩ h

theorem executeTransfer_of_accepts (h : e.Accepts sender recipient amount nonce) :
    e.executeTransfer sender recipient amount nonce =
      (e.debit sender amount).bind fun e => (e.credit recipient amount).map fun e =>
        (.success, e) := by
  obtain ⟨hself, hnonce, hbalance⟩ := h
  rw [executeTransfer, if_neg hself, if_neg (not_not.mpr hnonce),
    if_neg (UInt64.not_lt.mpr hbalance)]

theorem nonce_of_some (h : e.accounts[id]? = some a) : e.nonce id = a.nonce := by
  rw [Executor.nonce, h, Option.elim_some]

theorem balance_of_some (h : e.accounts[id]? = some a) : e.balance id = a.balance := by
  rw [Executor.balance, h, Option.elim_some]

theorem nonce_of_none (h : e.accounts[id]? = none) : e.nonce id = 0 := by
  rw [Executor.nonce, h, Option.elim_none]

theorem balance_of_none (h : e.accounts[id]? = none) : e.balance id = 0 := by
  rw [Executor.balance, h, Option.elim_none]

/-- A credit that fits adds its amount to the sum, and moves no nonce. -/
theorem credit_spec (e : Executor) (id : NodeId) (amount : UInt64)
    (hfits : e.totalSupply + amount.toNat < 2 ^ 64) : ∃ e', e.credit id amount = some e' ∧
    e'.totalSupply = e.totalSupply + amount.toNat ∧ (∀ i, e'.nonce i = e.nonce i) ∧
    ∀ i, i ≠ id → e'.accounts[i]? = e.accounts[i]? := by
  set a := e.accounts[id]?.getD ⟨0, 0⟩ with ha
  have hheld : e.accounts[id]?.elim 0 (fun a => a.balance.toNat) = a.balance.toNat := by
    rw [ha]
    cases e.accounts[id]? <;> rfl
  have hle : a.balance.toNat ≤ e.totalSupply := by
    rw [← hheld]
    cases h : e.accounts[id]? with
    | none => exact Nat.zero_le _
    | some a => exact OrdMap.le_sumBy (fun a => a.balance.toNat) h
  have hsum : a.balance.toNat + amount.toNat < 2 ^ 64 := by omega
  refine ⟨⟨e.accounts.insert id ⟨a.balance + amount, a.nonce⟩⟩, ?_, ?_, ?_, ?_⟩
  · rw [credit, ← ha, Account.credit, if_pos hsum, Option.map_some]
  · have hinsert :=
      OrdMap.sumBy_insert (fun a => a.balance.toNat) e.accounts id ⟨a.balance + amount, a.nonce⟩
    rw [hheld] at hinsert
    have hnew : (a.balance + amount).toNat = a.balance.toNat + amount.toNat := by
      rw [UInt64.toNat_add, Nat.mod_eq_of_lt hsum]
    unfold totalSupply at hle ⊢
    dsimp only at hinsert ⊢
    omega
  · intro i
    by_cases hi : id = i
    · subst hi
      rw [Executor.nonce, ExtTreeMap.getElem?_insert_self, Option.elim_some, Executor.nonce, ha]
      cases e.accounts[id]? <;> rfl
    · rw [Executor.nonce, OrdMap.getElem?_insert_of_ne _ hi, Executor.nonce]
  · exact fun i hi => OrdMap.getElem?_insert_of_ne _ (Ne.symm hi) _

/-- A debit takes its amount out of the sum, and moves the nonce of its account. -/
theorem debit_spec (ha : e.accounts[id]? = some a) (hamount : amount ≤ e.balance id) :
    (e.Spent id → e.debit id amount = none) ∧ (¬ e.Spent id → ∃ e', e.debit id amount = some e' ∧
      e'.totalSupply + amount.toNat = e.totalSupply ∧ (e'.nonce id).toNat = (e.nonce id).toNat + 1 ∧
      ∀ i, i ≠ id → e'.accounts[i]? = e.accounts[i]?) := by
  have hlt := a.nonce.toNat_lt
  rw [balance_of_some ha] at hamount
  rw [Spent, nonce_of_some ha, debit, ha]
  dsimp only
  rw [Account.debit]
  constructor
  · intro hspent
    rw [if_neg fun h => by omega, Option.map_none]
  · intro hleft
    have hnext : a.nonce.toNat + 1 < 2 ^ 64 := by omega
    refine ⟨⟨e.accounts.insert id ⟨a.balance - amount, a.nonce + 1⟩⟩, ?_, ?_, ?_, ?_⟩
    · rw [if_pos ⟨hamount, hnext⟩, Option.map_some]
    · have hinsert :=
        OrdMap.sumBy_insert (fun a => a.balance.toNat) e.accounts id
        ⟨a.balance - amount, a.nonce + 1⟩
      rw [ha, Option.elim_some] at hinsert
      have hnew : (a.balance - amount).toNat = a.balance.toNat - amount.toNat :=
        UInt64.toNat_sub_of_le _ _ hamount
      have hle := UInt64.le_iff_toNat_le.mp hamount
      unfold totalSupply
      dsimp only at hinsert ⊢
      omega
    · rw [Executor.nonce, ExtTreeMap.getElem?_insert_self, Option.elim_some, UInt64.toNat_add,
        UInt64.toNat_one,
        Nat.mod_eq_of_lt hnext]
    · exact fun i hi => OrdMap.getElem?_insert_of_ne _ (Ne.symm hi) _

/-- What an accepted transfer does. -/
inductive Transferred (e : Executor) (sender : NodeId) : Option (TxResult × Executor) → Prop
  | overflow (hspent : e.Spent sender) : Transferred e sender none
  | moved (e' : Executor) (hleft : ¬ e.Spent sender) (hin : sender ∈ e.accounts)
    (hsum : e'.totalSupply = e.totalSupply)
      (hnonce : (e'.nonce sender).toNat = (e.nonce sender).toNat + 1)
      (hothers : ∀ i, i ≠ sender → e'.nonce i = e.nonce i) :
        Transferred e sender (some (.success, e'))
  | stayed (e' : Executor) (hleft : ¬ e.Spent sender) (hout : e.accounts[sender]? = none)
      (hout' : e'.accounts[sender]? = none) (hsum : e'.totalSupply = e.totalSupply)
      (hnonce : ∀ i, e'.nonce i = e.nonce i) : Transferred e sender (some (.success, e'))

theorem transferred (h : e.Accepts sender recipient amount nonce) (hfits : e.totalSupply < 2 ^ 64) :
    e.Transferred sender (e.executeTransfer sender recipient amount nonce) := by
  rw [executeTransfer_of_accepts h]
  obtain ⟨hne, -, hamount⟩ := h
  cases hsender : e.accounts[sender]? with
  | none =>
    have hleft : ¬ e.Spent sender := by
      rw [Spent, nonce_of_none hsender]
      decide
    have hzero : amount.toNat = 0 := by
      rw [balance_of_none hsender, UInt64.le_iff_toNat_le] at hamount
      exact Nat.le_zero.mp hamount
    obtain ⟨e', he', hsum, hnonce, hothers⟩ := e.credit_spec recipient amount (by omega)
    rw [debit, hsender]
    dsimp only
    rw [Option.bind_some, he', Option.map_some]
    exact .stayed e' hleft hsender ((hothers sender hne).trans hsender) (by omega) hnonce
  | some a =>
    obtain ⟨hnone, hsome⟩ := debit_spec hsender hamount
    by_cases hspent : e.Spent sender
    · rw [hnone hspent, Option.bind_none]
      exact .overflow hspent
    · obtain ⟨e₁, he₁, hsum₁, hnonce₁, hothers₁⟩ := hsome hspent
      obtain ⟨e', he', hsum, hnonce, -⟩ := e₁.credit_spec recipient amount (by omega)
      rw [he₁, Option.bind_some, he', Option.map_some]
      refine .moved e' hspent ?_ (by omega) (by rw [hnonce, hnonce₁]) fun i hi => ?_
      · exact ExtTreeMap.mem_iff_isSome_getElem?.mpr (by rw [hsender, Option.isSome_some])
      · rw [hnonce, Executor.nonce, hothers₁ i hi, Executor.nonce]

end Transfer

/-! ## Transactions -/

section Transactions

variable {e e' : Executor} {tx : OrderedTx} {r : TxResult}

/-- The balances keep their sum. -/
theorem supply_executeOne (hfits : e.totalSupply < 2 ^ 64) (h : e.executeOne tx = some (r, e')) :
    e'.totalSupply = e.totalSupply ∧ (r ≠ .success → e' = e) := by
  have htransfer : ∀ {sender recipient amount nonce},
      e.executeTransfer sender recipient amount nonce = some (r, e') →
      e'.totalSupply = e.totalSupply ∧ (r ≠ .success → e' = e) := by
    intro sender recipient amount nonce h
    by_cases haccepts : e.Accepts sender recipient amount nonce
    · have htransferred := transferred haccepts hfits
      rw [h] at htransferred
      cases htransferred with
      | moved _ _ _ hsum | stayed _ _ _ _ hsum => exact ⟨hsum, fun hr => absurd rfl hr⟩
    · obtain ⟨r', -, hr'⟩ := executeTransfer_of_not_accepts haccepts
      rw [h] at hr'
      cases hr'
      exact ⟨rfl, fun _ => rfl⟩
  cases tx with
  | transfer | auctionBid => exact htransfer h
  | rankedAction =>
    cases h
    exact ⟨rfl, fun _ => rfl⟩

end Transactions

end Executor

/-! ## Blocks -/

/-- The accounts with the transfers that have succeeded. -/
structure Books where
  executor : Executor
  done : List OrderedTx

namespace Books

variable {s s' : Books} {tx : OrderedTx} {supply : Nat}

def start (e : Executor) : Books := ⟨e, []⟩

def step (s : Books) (tx : OrderedTx) : Option (TxResult × Books) :=
  (s.executor.executeOne tx).map fun r => (r.1, ⟨r.2, match tx, r.1 with
    | .transfer .., .success => s.done ++ [tx]
    | _, _ => s.done⟩)

/-- A transfer whose sender's nonce has moved on. -/
def PassedBy (e : Executor) : OrderedTx → Prop
  | .transfer sender _ _ nonce => nonce < e.nonce sender
  | _ => False

instance (e : Executor) : DecidablePred (PassedBy e)
  | .transfer sender _ _ nonce => inferInstanceAs (Decidable (nonce < e.nonce sender))
  | .auctionBid .. | .rankedAction .. => inferInstanceAs (Decidable False)

/-- The sum is the one of the beginning. The next transaction changes nothing unless it succeeds,
which a transfer that has succeeded does not. -/
structure Kept (supply : Nat) (s : Books) : Prop where
  supply_eq : s.executor.totalSupply = supply
  passed : ∀ tx ∈ s.done, PassedBy s.executor tx
  failed : ∀ tx r s', s.step tx = some (r, s') → r ≠ .success → s'.executor = s.executor
  once : ∀ tx ∈ s.done, ∀ r s', s.step tx = some (r, s') → r ≠ .success

/-- A transfer that passes the checks is from an account that exists, and a nonce that moves on has
a successor. -/
def Moves (s : Books) : OrderedTx → Prop
  | .transfer sender recipient amount nonce => s.executor.Accepts sender recipient amount nonce →
    sender ∈ s.executor.accounts ∧ ¬ s.executor.Spent sender
  | .auctionBid bidder _ amount => s.executor.Accepts bidder 0 amount (s.executor.nonce bidder) →
    ¬ s.executor.Spent bidder
  | .rankedAction .. => True

/-! ## Steps -/

theorem step_eq_some {r : TxResult} (h : s.step tx = some (r, s')) :
    s.executor.executeOne tx = some (r, s'.executor) := by
  obtain ⟨⟨r', e'⟩, he', heq⟩ := Option.map_eq_some_iff.mp h
  cases heq
  exact he'

/-- The state keeps what it has to when the sum is right and the nonces have moved on. -/
theorem Kept.of_passed (hfits : supply < 2 ^ 64) (hsupply : s.executor.totalSupply = supply)
    (hpassed : ∀ tx ∈ s.done, PassedBy s.executor tx) : Kept supply s where
  supply_eq := hsupply
  passed := hpassed
  failed _ _ _ h := (Executor.supply_executeOne (hsupply.trans_lt hfits) (step_eq_some h)).2
  once tx hdone r s' h := by
    cases tx with
    | auctionBid | rankedAction => exact (hpassed _ hdone).elim
    | transfer sender recipient amount nonce =>
      have hlate : ¬ s.executor.Accepts sender recipient amount nonce := fun haccepts =>
        UInt64.ne_of_lt (hpassed _ hdone) haccepts.2.1
      obtain ⟨r', hr', htransfer⟩ := Executor.executeTransfer_of_not_accepts hlate
      have hresult := step_eq_some h
      rw [Executor.executeOne, htransfer, Option.some.injEq, Prod.mk.injEq] at hresult
      exact hresult.1 ▸ hr'

/-- Nonces only grow. -/
theorem PassedBy.mono {e e' : Executor} (h : PassedBy e tx) (hle : ∀ i, e.nonce i ≤ e'.nonce i) :
    PassedBy e' tx := by
  cases tx with
  | transfer sender => exact UInt64.lt_of_lt_of_le h (hle sender)
  | auctionBid | rankedAction => exact h.elim

theorem nonce_le_of_moved {e e' : Executor} {sender : NodeId}
    (hnonce : (e'.nonce sender).toNat = (e.nonce sender).toNat + 1)
    (hothers : ∀ i, i ≠ sender → e'.nonce i = e.nonce i) (i : NodeId) : e.nonce i ≤ e'.nonce i := by
  by_cases hi : i = sender
  · subst hi
    rw [UInt64.le_iff_toNat_le, hnonce]
    exact Nat.le_succ _
  · exact UInt64.le_of_eq (hothers i hi).symm

/-- One transaction. -/
theorem kept_step (hfits : supply < 2 ^ 64) (h : Kept supply s) (tx : OrderedTx) :
    (∃ s', (failing step (some s) tx).2 = some s' ∧ Kept supply s') ↔ s.Moves tx := by
  have hroom : s.executor.totalSupply < 2 ^ 64 := h.supply_eq.trans_lt hfits
  have hstay : (failing step (some s) tx).2 = some s →
      ∃ s', (failing step (some s) tx).2 = some s' ∧ Kept supply s' :=
    fun hs => ⟨s, hs, h⟩
  cases tx with
  | rankedAction => exact iff_of_true (hstay rfl) trivial
  | auctionBid bidder itemId amount =>
    by_cases haccepts : s.executor.Accepts bidder 0 amount (s.executor.nonce bidder)
    · have htransferred := Executor.transferred haccepts hroom
      rw [failing, step, Executor.executeOne, Moves]
      generalize s.executor.executeTransfer bidder 0 amount (s.executor.nonce bidder) =
        o at htransferred
      cases htransferred with
      | overflow hspent =>
        refine iff_of_false ?_ fun hmoves => hmoves haccepts hspent
        rintro ⟨_, hs, -⟩
        cases hs
      | moved e' hleft _ hsum hnonce hothers =>
        refine iff_of_true ⟨_, rfl, .of_passed hfits (hsum.trans h.supply_eq) fun tx htx => ?_⟩
          fun _ => hleft
        exact (h.passed tx htx).mono (nonce_le_of_moved hnonce hothers)
      | stayed e' hleft _ _ hsum hnonce =>
        refine iff_of_true ⟨_, rfl, .of_passed hfits (hsum.trans h.supply_eq) fun tx htx => ?_⟩
          fun _ => hleft
        exact (h.passed tx htx).mono fun i => UInt64.le_of_eq (hnonce i).symm
    · obtain ⟨r, hr, htransfer⟩ := Executor.executeTransfer_of_not_accepts haccepts
      refine iff_of_true (hstay ?_) fun hmoves => absurd hmoves haccepts
      rw [failing, step, Executor.executeOne, htransfer]
      rfl
  | transfer sender recipient amount nonce =>
    by_cases haccepts : s.executor.Accepts sender recipient amount nonce
    · have htransferred := Executor.transferred haccepts hroom
      have hlast : .transfer sender recipient amount nonce ∈
          s.done ++ [.transfer sender recipient amount nonce] :=
        List.mem_append_right _ List.mem_cons_self
      rw [failing, step, Executor.executeOne, Moves]
      generalize s.executor.executeTransfer sender recipient amount nonce = o at htransferred
      cases htransferred with
      | overflow hspent =>
        refine iff_of_false ?_ fun hmoves => (hmoves haccepts).2 hspent
        rintro ⟨_, hs, -⟩
        cases hs
      | moved e' hleft hin hsum hnonce hothers =>
        refine iff_of_true ⟨_, rfl, .of_passed hfits (hsum.trans h.supply_eq) fun tx htx => ?_⟩
          fun _ => ⟨hin, hleft⟩
        rcases List.mem_append.mp htx with hbefore | hnew
        · exact (h.passed tx hbefore).mono (nonce_le_of_moved hnonce hothers)
        · cases List.mem_singleton.mp hnew
          rw [PassedBy, haccepts.2.1, UInt64.lt_iff_toNat_lt, hnonce]
          exact Nat.lt_succ_self _
      | stayed e' _ hout _ _ hnonce =>
        -- The nonce of a sender without an account stays, so that the transfer passes again.
        refine iff_of_false ?_ fun hmoves => ?_
        · rintro ⟨s', hs', hkept⟩
          cases hs'
          have hpassed := hkept.passed _ hlast
          rw [PassedBy, hnonce, haccepts.2.1] at hpassed
          exact UInt64.lt_irrefl _ hpassed
        · have hin := ExtTreeMap.mem_iff_isSome_getElem?.mp (hmoves haccepts).1
          rw [hout] at hin
          cases hin
    · obtain ⟨r, hr, htransfer⟩ := Executor.executeTransfer_of_not_accepts haccepts
      refine iff_of_true (hstay ?_) fun hmoves => absurd hmoves haccepts
      rw [failing, step, Executor.executeOne, htransfer]
      cases r with
      | success => exact absurd rfl hr
      | _ => rfl

/-! ## Runs -/

theorem kept_start {e : Executor} (hfits : e.totalSupply < 2 ^ 64) : Kept e.totalSupply (start e) :=
  .of_passed hfits rfl nofun

/-- The sum stays, what fails changes nothing and no transfer succeeds twice, in exactly the runs
whose accepted transfers are from accounts that exist. The nonces that move on have a successor. -/
theorem replays_fail_iff (e : Executor) (hfits : e.totalSupply < 2 ^ 64)
    (blocks : List (List OrderedTx)) :
    (∀ done, done <+: blocks.flatten →
      ∃ s, after (failing step) (some (start e)) done = some s ∧ Kept e.totalSupply s) ↔
    ∀ done tx, done ++ [tx] <+: blocks.flatten →
      ∀ s, after (failing step) (some (start e)) done = some s → s.Moves tx := by
  refine Machine.invariant_iff (I := fun _ => True)
    (P := fun st => ∃ s, st = some s ∧ Kept e.totalSupply s)
    (Q := fun st tx => ∀ s, st = some s → s.Moves tx) (fun _ _ _ => trivial) ?_ trivial
    ⟨start e, rfl, kept_start hfits⟩ blocks.flatten
  rintro _ tx - ⟨s, rfl, hkept⟩
  rw [kept_step hfits hkept tx]
  exact ⟨fun h s' hs' => Option.some.inj hs' ▸ h, fun h => h s rfl⟩

namespace Demo

def funded : Executor := Executor.new.initAccount 1 1000

def paid : List (List OrderedTx) := [[.transfer 1 2 300 0]]

/-- A payment by an account that exists. -/
theorem replays_fail_iff_paid : ∃ s, after (failing step) (some (start funded)) paid.flatten =
    some s ∧ Kept funded.totalSupply s := by
  refine (replays_fail_iff funded (by decide) paid).mpr (fun done tx hdone s hs => ?_) _
    List.prefix_rfl
  obtain ⟨rfl, rfl⟩ : done = [] ∧ tx = .transfer 1 2 300 0 := by
    have hlength := hdone.length_le
    cases done with
    | nil => exact ⟨rfl, (List.cons.inj (hdone.eq_of_length rfl)).1⟩
    | cons a done =>
      rw [List.cons_append, List.length_cons, List.length_append] at hlength
      exact absurd hlength (by simp [paid])
  cases hs
  exact fun _ => ⟨by decide, by decide⟩

/-- Nothing is sent from an account that does not exist, twice. -/
theorem transferred_again : ¬ ∀ (e : Executor), e.totalSupply < 2 ^ 64 → ∀
    (blocks : List (List OrderedTx)),
    ∀ done, done <+: blocks.flatten →
      ∃ s, after (failing step) (some (start e)) done = some s ∧ Kept e.totalSupply s := by
  intro h
  obtain ⟨s, hs, hkept⟩ :=
    h .new (by decide) [[.transfer 1 2 0 0]] [.transfer 1 2 0 0] List.prefix_rfl
  have hpassed := hkept.passed (.transfer 1 2 0 0)
  cases hs
  exact absurd (hpassed (by decide)) (by decide)

end Demo

end Books

end P2P333.Platform333.Bft
