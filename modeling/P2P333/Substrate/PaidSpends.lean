import P2P333.Substrate.Billing

/-!
# Every finalized spend is paid

The books of an account over a run of `meter_and_bill` and `replay_debit_at`: the version counts the
paid forwards, and the balance is what they left of the funds. A paid forward costs one rate for
each started KiB, as a product of numbers without a bound.

Two calls break the books. A product that does not fit into 64 bits is charged at its low bits. A
replay at the current version is finalized like a fresh spend, and nobody pays for it.

Results:
1. `Books.apply_lawful_iff`: what a call does to balanced books, exactly.
2. `paid_once_iff`: the law holds along a run if and only if no call of it is one of the two.
-/

namespace P2P333.Substrate

open Lib Std

/-! ## Definitions -/

/-- The price without a bound: the rate for each started KiB. -/
def exactCost (bytes ratePerKib : UInt64) : Nat := (bytes.toNat + 1023) / 1024 * ratePerKib.toNat

/-- The calls of an account. -/
inductive AccountCall where
  | bill (cid : String) (bytes ratePerKib : UInt64)
  | replay (cid : String) (version : UInt64)

/-- An account with what it was funded with and the calls of `meter_and_bill` that succeeded. -/
structure Books where
  account : Account
  funded : UInt64
  paid : List (UInt64 × UInt64)

namespace Books

def start (cid object : String) (balance : UInt64) : Books :=
  ⟨(Account.new cid object balance).1, balance, []⟩

def apply (b : Books) : AccountCall → Books
  | .bill cid bytes ratePerKib =>
    let r := b.account.meterAndBill cid bytes ratePerKib
    { b with
      account := r.2.1
      paid := if r.1 then (bytes, ratePerKib) :: b.paid else b.paid }
  | .replay cid version => { b with account := (b.account.replayDebitAt cid version).2.1 }

def spent (b : Books) : Nat := (b.paid.map fun c => exactCost c.1 c.2).sum

/-- The version counts what was paid, and the balance is the rest of the funds. -/
structure Balanced (b : Books) : Prop where
  version : b.account.version.toNat = b.paid.length
  balance : b.account.balance.toNat + b.spent = b.funded.toNat

/-- The books are balanced after the call, and a replay has changed nothing. -/
def Lawful (b : Books) (call : AccountCall) : Prop :=
  (b.apply call).Balanced ∧ ∀ cid version, call = .replay cid version →
    (b.apply call).account.version = b.account.version ∧
      (b.apply call).account.balance = b.account.balance

/-- A charge fits into 64 bits and has a next version, or the account cannot pay even its low bits.
A replay names another version than the current one. -/
def Sound (b : Books) : AccountCall → Prop
  | .bill _ bytes ratePerKib =>
    b.account.balance.toNat < exactCost bytes ratePerKib % 2 ^ 64 ∨
      exactCost bytes ratePerKib < 2 ^ 64 ∧ b.account.version.toNat + 1 < 2 ^ 64
  | .replay _ version => version ≠ b.account.version

end Books

/-- The books after the calls of a run. -/
def billingRun (cid object : String) (balance : UInt64) (calls : List AccountCall) : Books :=
  calls.foldl Books.apply (.start cid object balance)

/-! ## One call -/

theorem toNat_cost (bytes ratePerKib : UInt64) :
    (cost bytes ratePerKib).toNat = exactCost bytes ratePerKib % 2 ^ 64 := by
  have hceil : (bytes / 1024 + if bytes % 1024 > 0 then 1 else 0).toNat =
      (bytes.toNat + 1023) / 1024 := by
    have hdiv : (bytes / 1024).toNat = bytes.toNat / 1024 := UInt64.toNat_div ..
    have hmod : (bytes % 1024).toNat = bytes.toNat % 1024 := UInt64.toNat_mod ..
    have hlt := bytes.toNat_lt
    rw [UInt64.toNat_add, hdiv]
    split
    · next h =>
      have hpos : 0 < bytes.toNat % 1024 := hmod ▸ UInt64.lt_iff_toNat_lt.mp h
      rw [UInt64.toNat_one]
      omega
    · next h =>
      have hzero : ¬ 0 < bytes.toNat % 1024 := fun hpos =>
        h (UInt64.lt_iff_toNat_lt.mpr (hmod ▸ hpos))
      rw [UInt64.toNat_zero]
      omega
  rw [cost, UInt64.toNat_mul, hceil, exactCost]

namespace Account

theorem getElem?_version (a : Account) : a.ledger.versions[a.object]? = some a.version := by
  obtain ⟨cur, hcur⟩ := Option.isSome_iff_exists.mp
    (ExtTreeMap.isSome_getElem?_iff_mem.mpr a.registered)
  unfold version Ledger.currentVersion
  rw [hcur]
  rfl

/-- A spend at the current version moves to the next one. -/
theorem spend_current (a : Account) (cid txn : String) :
    (a.ledger.spend cid a.object a.version txn).1 = true ∧
      (a.ledger.spend cid a.object a.version txn).2.1.versions[a.object]? =
        some (a.version + 1) := by
  unfold Ledger.spend
  rw [a.getElem?_version]
  simp only [if_pos, ExtTreeMap.getElem?_insert_self, and_self]

/-- At another version it is refused. -/
theorem spend_other (a : Account) (cid txn : String) {version : UInt64} (h : version ≠ a.version) :
    (a.ledger.spend cid a.object version txn).2.1 = a.ledger := by
  unfold Ledger.spend
  rw [a.getElem?_version]
  simp only [if_neg (Ne.symm h)]

theorem meterAndBill_paid {a : Account} {bytes ratePerKib : UInt64}
    (h : ¬ a.balance < cost bytes ratePerKib) (cid : String) :
    (a.meterAndBill cid bytes ratePerKib).1 = true ∧
      (a.meterAndBill cid bytes ratePerKib).2.1.version = a.version + 1 ∧
      (a.meterAndBill cid bytes ratePerKib).2.1.balance = a.balance - cost bytes ratePerKib := by
  obtain ⟨hdone, hnext⟩ := a.spend_current cid "debit"
  unfold meterAndBill
  dsimp only
  rw [if_neg h]
  exact ⟨hdone, congrArg (·.getD 0) hnext, rfl⟩

theorem replayDebitAt_current (a : Account) (cid : String) :
    (a.replayDebitAt cid a.version).2.1.version = a.version + 1 :=
  congrArg (·.getD 0) (a.spend_current cid "replayed-debit").2

theorem replayDebitAt_other {a : Account} {version : UInt64} (h : version ≠ a.version)
    (cid : String) : (a.replayDebitAt cid version).2.1 = a := by
  have hledger := a.spend_other cid "replayed-debit" h
  unfold replayDebitAt
  dsimp only
  congr

end Account

theorem succ_toNat_iff (v : UInt64) : (v + 1).toNat = v.toNat + 1 ↔ v.toNat + 1 < 2 ^ 64 := by
  have hlt := v.toNat_lt
  rw [UInt64.toNat_add, UInt64.toNat_one]
  omega

namespace Books

variable {b : Books}

/-- A call that cannot be paid changes nothing. -/
theorem apply_bill_gated {bytes ratePerKib : UInt64}
    (h : b.account.balance < cost bytes ratePerKib) (cid : String) :
    b.apply (.bill cid bytes ratePerKib) = b := by
  simp only [apply, Account.meterAndBill, if_pos h, Bool.false_eq_true, if_false]

/-- A call that is paid keeps the books balanced if the price and the version fit. -/
theorem apply_bill_balanced_iff (hb : b.Balanced) {bytes ratePerKib : UInt64}
    (h : ¬ b.account.balance < cost bytes ratePerKib) (cid : String) :
    (b.apply (.bill cid bytes ratePerKib)).Balanced ↔
      exactCost bytes ratePerKib < 2 ^ 64 ∧ b.account.version.toNat + 1 < 2 ^ 64 := by
  obtain ⟨hdone, hversion, hbalance⟩ := Account.meterAndBill_paid h cid
  have hpaid : (b.apply (.bill cid bytes ratePerKib)).paid = (bytes, ratePerKib) :: b.paid := by
    simp only [apply, hdone, if_true]
  have hspent : (b.apply (.bill cid bytes ratePerKib)).spent =
      exactCost bytes ratePerKib + b.spent := by
    rw [spent, hpaid, List.map_cons, List.sum_cons, spent]
  have hle : cost bytes ratePerKib ≤ b.account.balance := UInt64.not_lt.mp h
  have hrest : (b.account.balance - cost bytes ratePerKib).toNat =
      b.account.balance.toNat - exactCost bytes ratePerKib % 2 ^ 64 := by
    rw [UInt64.toNat_sub_of_le _ _ hle, toNat_cost]
  have hcovered : exactCost bytes ratePerKib % 2 ^ 64 ≤ b.account.balance.toNat :=
    toNat_cost bytes ratePerKib ▸ UInt64.le_iff_toNat_le.mp hle
  have hversion_iff : (b.apply (.bill cid bytes ratePerKib)).account.version.toNat =
      (b.apply (.bill cid bytes ratePerKib)).paid.length ↔
        b.account.version.toNat + 1 < 2 ^ 64 := by
    rw [hpaid, List.length_cons, ← hb.version, ← succ_toNat_iff]
    exact iff_of_eq (congrArg (fun v : UInt64 => v.toNat = _) hversion)
  have hbalance_iff : (b.apply (.bill cid bytes ratePerKib)).account.balance.toNat +
      (b.apply (.bill cid bytes ratePerKib)).spent = b.funded.toNat ↔
        exactCost bytes ratePerKib < 2 ^ 64 := by
    have hnow : (b.apply (.bill cid bytes ratePerKib)).account.balance.toNat =
        b.account.balance.toNat - exactCost bytes ratePerKib % 2 ^ 64 :=
      (congrArg UInt64.toNat hbalance).trans hrest
    have hold := hb.balance
    rw [hnow, hspent]
    omega
  constructor
  · intro h'
    exact ⟨hbalance_iff.mp h'.balance, hversion_iff.mp h'.version⟩
  · rintro ⟨hfits, hnext⟩
    exact ⟨hversion_iff.mpr hnext, hbalance_iff.mpr hfits⟩

/-- What a call does to balanced books. -/
theorem apply_lawful_iff (hb : b.Balanced) (call : AccountCall) : b.Lawful call ↔ b.Sound call := by
  cases call with
  | bill cid bytes ratePerKib =>
    have hlaw : b.Lawful (.bill cid bytes ratePerKib) ↔
        (b.apply (.bill cid bytes ratePerKib)).Balanced :=
      ⟨And.left, fun h => ⟨h, fun _ _ heq => by cases heq⟩⟩
    have hgate : b.account.balance < cost bytes ratePerKib ↔
        b.account.balance.toNat < exactCost bytes ratePerKib % 2 ^ 64 := by
      rw [UInt64.lt_iff_toNat_lt, toNat_cost]
    rw [hlaw]
    by_cases h : b.account.balance < cost bytes ratePerKib
    · rw [apply_bill_gated h]
      exact iff_of_true hb (.inl (hgate.mp h))
    · rw [apply_bill_balanced_iff hb h]
      exact (or_iff_right (hgate.not.mp h)).symm
  | replay cid version =>
    by_cases h : version = b.account.version
    · subst h
      refine iff_of_false (fun hlaw => ?_) fun hsound => hsound rfl
      have hmoved : (b.apply (.replay cid b.account.version)).account.version.toNat =
          b.account.version.toNat := (hlaw.1.version.trans hb.version.symm)
      have hnext : (b.apply (.replay cid b.account.version)).account.version =
          b.account.version + 1 := b.account.replayDebitAt_current cid
      have hlt := b.account.version.toNat_lt
      rw [hnext, UInt64.toNat_add, UInt64.toNat_one] at hmoved
      omega
    · have hsame : b.apply (.replay cid version) = b := by
        simp only [apply, Account.replayDebitAt_other h]
      refine iff_of_true ⟨by rwa [hsame], fun _ _ _ => by rw [hsame]; exact ⟨rfl, rfl⟩⟩ h

end Books

/-! ## Runs -/

theorem start_balanced (cid object : String) (balance : UInt64) :
    (Books.start cid object balance).Balanced where
  version := by
    simp [Books.start, Account.new, Account.version, Ledger.register, Ledger.currentVersion]
  balance := rfl

/-- The books are balanced after calls that keep them balanced. -/
theorem billingRun_balanced {cid object : String} {balance : UInt64} {calls : List AccountCall}
    (h : ∀ done call, done ++ [call] <+: calls → (billingRun cid object balance done).Balanced →
      ((billingRun cid object balance done).apply call).Balanced) {done : List AccountCall}
    (hdone : done <+: calls) : (billingRun cid object balance done).Balanced := by
  induction done using List.reverseRecOn with
  | nil => exact start_balanced cid object balance
  | append_singleton done call ih =>
    rw [billingRun, List.foldl_append]
    exact h done call hdone (ih ((List.prefix_append done [call]).trans hdone))

/-- Every finalized spend is paid exactly once, in exactly the runs in which every charge fits and
no replay names the current version: after each call the version counts the paid forwards and the
balance is the rest of the funds, and a replay changes neither. -/
theorem paid_once_iff (cid object : String) (balance : UInt64) (calls : List AccountCall) :
    (∀ done call, done ++ [call] <+: calls → (billingRun cid object balance done).Lawful call) ↔
      ∀ done call, done ++ [call] <+: calls → (billingRun cid object balance done).Sound call := by
  constructor
  · intro h done call hcall
    have hb : (billingRun cid object balance done).Balanced :=
      billingRun_balanced (fun done call hc _ => (h done call hc).1)
        ((List.prefix_append done [call]).trans hcall)
    exact (Books.apply_lawful_iff hb call).mp (h done call hcall)
  · intro h done call hcall
    have hb : (billingRun cid object balance done).Balanced :=
      billingRun_balanced
        (fun done call hc hb => ((Books.apply_lawful_iff hb call).mpr (h done call hc)).1)
        ((List.prefix_append done [call]).trans hcall)
    exact (Books.apply_lawful_iff hb call).mpr (h done call hcall)

/-- A replay that names the version ahead is finalized without a charge, and a price of `2 ^ 64`
credits is charged as nothing. -/
theorem unpaid_spends :
    ¬ (∀ done call, done ++ [call] <+: [AccountCall.bill "s" 1024 3, .replay "s" 1] →
      (billingRun "s" "acct" 10 done).Lawful call) ∧
    ¬ (∀ done call, done ++ [call] <+: [AccountCall.bill "s" (0 - 1) 1024] →
      (billingRun "s" "acct" 10 done).Lawful call) := by
  constructor
  · intro h
    have hlaw := h [.bill "s" 1024 3] (.replay "s" 1) (List.prefix_rfl)
    exact absurd hlaw.1.version (by decide +kernel)
  · intro h
    have hlaw := h [] (.bill "s" (0 - 1) 1024) (List.prefix_rfl)
    exact absurd hlaw.1.balance (by decide +kernel)

end P2P333.Substrate
