import P2P333.Substrate.Ltdd.Event

/-!
# Metered billing

`Ledger` of `substrate/crates/consensus`, `cost` of `substrate/crates/metering` and `Account` of
`substrate/crates/billing`. A function that takes a store returns the batches that it ships, in
order. Amounts are 64 bits wide; a product that does not fit wraps, as in a release build.

A forward that is paid for ships three events: the spend of the account object, then the forward and
the debit. The law of the trace is `Conserved`.

Results:
1. `meterAndBill_step`: what a metered call ships is one of the shapes of `BillingStep`.
2. `conserved_take_iff`: a prefix of the trace of whole calls is conserved if and only if it does
   not end inside a paid forward.
-/

namespace P2P333.Substrate

open Lib Std

/-! ## Definitions -/

def num (n : UInt64) : Value := .number (.posInt n)

/-- Credits for `bytes`, by started KiB. -/
def cost (bytes ratePerKib : UInt64) : UInt64 :=
  (bytes / 1024 + if bytes % 1024 > 0 then 1 else 0) * ratePerKib

/-- The current version of every registered object. -/
structure Ledger where
  versions : OrdMap String UInt64

/-! ### Events -/

def objectRegistered (cid object : String) : Event :=
  (Event.new cid "object_registered").withAttr "object" (.string object)

def accountFunded (cid object : String) (balance : UInt64) : Event :=
  ((Event.new cid "account_funded").withAttr "object" (.string object)).withAttr "balance"
    (num balance)

/-- `spend_finalized` or `equivocation_rejected`. -/
def spendEvent (name cid object : String) (version : UInt64) (txn : String) : Event :=
  (((Event.new cid name).withAttr "object" (.string object)).withAttr "version"
    (num version)).withAttr "txn" (.string txn)

def relayGated (cid : String) (bytes : UInt64) : Event :=
  ((Event.new cid "relay_gated").withAttr "requested_bytes" (num bytes)).withAttr "reason"
    (.string "insufficient_credit")

def relayForwarded (cid : String) (bytes c : UInt64) : Event :=
  ((Event.new cid "relay_forwarded").withAttr "bytes" (num bytes)).withAttr "cost" (num c)

def creditDebited (cid : String) (c version remaining : UInt64) : Event :=
  (((Event.new cid "credit_debited").withAttr "amount" (num c)).withAttr "version"
    (num version)).withAttr "remaining" (num remaining)

/-! ### The ledger and the account -/

namespace Ledger

def register (g : Ledger) (cid object : String) : Ledger × List Event :=
  (⟨g.versions.insert object 0⟩, [objectRegistered cid object])

def currentVersion (g : Ledger) (object : String) : Option UInt64 := g.versions[object]?

/-- Only a spend of the current version is finalized. -/
def spend (g : Ledger) (cid object : String) (version : UInt64) (txn : String) :
    Bool × Ledger × List Event :=
  match g.versions[object]? with
  | some cur =>
    if cur = version then
      (true, ⟨g.versions.insert object (cur + 1)⟩,
        [spendEvent "spend_finalized" cid object version txn])
    else (false, g, [spendEvent "equivocation_rejected" cid object version txn])
  | none => (false, g, [spendEvent "equivocation_rejected" cid object version txn])

theorem mem_spend {g : Ledger} {object : String} (h : object ∈ g.versions) (cid : String)
    (version : UInt64) (txn : String) : object ∈ (g.spend cid object version txn).2.1.versions := by
  unfold spend
  split
  · split
    · exact ExtTreeMap.mem_insert_self
    · exact h
  · exact h

end Ledger

/-- An account is registered with its own ledger. -/
structure Account where
  object : String
  balance : UInt64
  ledger : Ledger
  registered : object ∈ ledger.versions

namespace Account

def new (cid object : String) (balance : UInt64) : Account × List (List Event) :=
  let r := Ledger.register ⟨∅⟩ cid object
  (⟨object, balance, r.1, ExtTreeMap.mem_insert_self⟩, [r.2, [accountFunded cid object balance]])

def version (a : Account) : UInt64 := (a.ledger.currentVersion a.object).getD 0

def meterAndBill (a : Account) (cid : String) (bytes ratePerKib : UInt64) :
    Bool × Account × List (List Event) :=
  let c := cost bytes ratePerKib
  if a.balance < c then (false, a, [[relayGated cid bytes]])
  else
    let r := a.ledger.spend cid a.object a.version "debit"
    (r.1, ⟨a.object, a.balance - c, r.2.1, Ledger.mem_spend a.registered ..⟩,
      [r.2.2, [relayForwarded cid bytes c, creditDebited cid c a.version (a.balance - c)]])

/-- A debit message that comes in again, at the version that it names. -/
def replayDebitAt (a : Account) (cid : String) (version : UInt64) :
    Bool × Account × List (List Event) :=
  let r := a.ledger.spend cid a.object version "replayed-debit"
  (r.1, ⟨a.object, a.balance, r.2.1, Ledger.mem_spend a.registered ..⟩, [r.2.2])

end Account

/-- What one call ships. -/
inductive BillingStep : List Event → Prop
  | opened (cid object : String) (balance : UInt64) :
      BillingStep [objectRegistered cid object, accountFunded cid object balance]
  | gated (cid : String) (bytes : UInt64) : BillingStep [relayGated cid bytes]
  | paid (cid object : String) (bytes c version remaining : UInt64) :
      BillingStep [spendEvent "spend_finalized" cid object version "debit",
        relayForwarded cid bytes c, creditDebited cid c version remaining]

theorem new_step (cid object : String) (balance : UInt64) :
    BillingStep (Account.new cid object balance).2.flatten := .opened cid object balance

/-- The spend of the current version is always finalized. -/
theorem meterAndBill_step (a : Account) (cid : String) (bytes ratePerKib : UInt64) :
    BillingStep (a.meterAndBill cid bytes ratePerKib).2.2.flatten := by
  unfold Account.meterAndBill
  dsimp only
  split
  · exact .gated cid bytes
  · have hspend : (a.ledger.spend cid a.object a.version "debit").2.2 =
        [spendEvent "spend_finalized" cid a.object a.version "debit"] := by
      obtain ⟨cur, hcur⟩ := Option.isSome_iff_exists.mp
        (ExtTreeMap.isSome_getElem?_iff_mem.mpr a.registered)
      have hversion : cur = a.version := by
        unfold Account.version Ledger.currentVersion
        rw [hcur]
        rfl
      unfold Ledger.spend
      rw [hcur]
      dsimp only
      rw [if_pos hversion]
    rw [hspend]
    exact .paid ..

/-! ## Reading the trace -/

def u64Attr (e : Event) (field : String) : Option UInt64 := e.attrs[field]?.bind Value.asU64

/-- The sum of a field over the events of one name. -/
def sumAttr (name field : String) (es : List Event) : Nat :=
  ((es.filter fun e => e.event == name).map fun e =>
    ((u64Attr e field).map UInt64.toNat).getD 0).sum

/-- An event of this name, id and version. -/
def isVersion (name cid : String) (version : UInt64) (e : Event) : Bool :=
  e.event == name && e.cid == cid && u64Attr e "version" == some version

/-- What was forwarded was debited, and every finalized spend has a debit of its own. -/
def Conserved (es : List Event) : Prop :=
  sumAttr "relay_forwarded" "cost" es = sumAttr "credit_debited" "amount" es ∧
    ∀ cid version, es.countP (isVersion "spend_finalized" cid version) ≤
      es.countP (isVersion "credit_debited" cid version)

/-- The first `n` events do not end inside a paid forward. -/
def Whole : List (List Event) → Nat → Prop
  | [], _ => True
  | step :: rest, n =>
    if step.length ≤ n then Whole rest (n - step.length) else n = 0 ∨ step.length ≠ 3

instance : (steps : List (List Event)) → (n : Nat) → Decidable (Whole steps n)
  | [], _ => .isTrue trivial
  | step :: rest, n => by
    unfold Whole
    have := instDecidableWhole rest (n - step.length)
    infer_instance

/-! ## Conservation -/

@[simp] theorem getElem?_withAttr (e : Event) (key field : String) (v : Value) :
    (e.withAttr key v).attrs[field]? = if key = field then some v else e.attrs[field]? := by
  unfold Event.withAttr
  rw [ExtTreeMap.getElem?_insert]
  simp only [LawfulEqCmp.compare_eq_iff_eq]

@[simp] theorem getElem?_new (cid name field : String) :
    (Event.new cid name).attrs[field]? = none := ExtTreeMap.getElem?_empty

@[simp] theorem event_withAttr (e : Event) (key : String) (v : Value) :
    (e.withAttr key v).event = e.event := rfl

@[simp] theorem cid_withAttr (e : Event) (key : String) (v : Value) :
    (e.withAttr key v).cid = e.cid := rfl

@[simp] theorem event_new (cid name : String) : (Event.new cid name).event = name := rfl

@[simp] theorem cid_new (cid name : String) : (Event.new cid name).cid = cid := rfl

@[simp] theorem asU64_num (n : UInt64) : (num n).asU64 = some n := rfl

@[simp] theorem sumAttr_append (name field : String) (es fs : List Event) :
    sumAttr name field (es ++ fs) = sumAttr name field es + sumAttr name field fs := by
  simp [sumAttr]

/-- A whole call is balanced. -/
theorem BillingStep.balanced {step : List Event} (h : BillingStep step) :
    sumAttr "relay_forwarded" "cost" step = sumAttr "credit_debited" "amount" step ∧
      ∀ cid version, step.countP (isVersion "spend_finalized" cid version) =
        step.countP (isVersion "credit_debited" cid version) := by
  cases h with
  | opened cid object balance => simp [sumAttr, isVersion, objectRegistered, accountFunded]
  | gated cid bytes => simp [sumAttr, isVersion, relayGated]
  | paid cid object bytes c version remaining =>
    simp [sumAttr, isVersion, List.countP_cons, spendEvent, relayForwarded, creditDebited, u64Attr]

theorem conserved_append {step : List Event} (h : BillingStep step) (es : List Event) :
    Conserved (step ++ es) ↔ Conserved es := by
  obtain ⟨hsum, hcount⟩ := h.balanced
  unfold Conserved
  simp only [sumAttr_append, List.countP_append, hsum, hcount, Nat.add_left_cancel_iff,
    Nat.add_le_add_iff_left]

/-- A call that was cut off is not, if it had begun to spend. -/
theorem conserved_take {step : List Event} (h : BillingStep step) {n : Nat} (hn : n < step.length) :
    Conserved (step.take n) ↔ n = 0 ∨ step.length ≠ 3 := by
  cases h with
  | opened cid object balance =>
    have hn : n = 0 ∨ n = 1 := by simp at hn; omega
    rcases hn with rfl | rfl
    · simp [Conserved, sumAttr]
    · simp [Conserved, sumAttr, isVersion, objectRegistered]
  | gated cid bytes =>
    have hn : n = 0 := by simp at hn; omega
    subst hn
    simp [Conserved, sumAttr]
  | paid cid object bytes c version remaining =>
    have hn : n = 0 ∨ n = 1 ∨ n = 2 := by simp at hn; omega
    rcases hn with rfl | rfl | rfl
    · simp [Conserved, sumAttr]
    all_goals
      simp only [Conserved, List.take_succ_cons, List.take_zero, List.length_cons, List.length_nil,
        Nat.reduceAdd, Nat.succ_ne_zero, ne_eq, not_true_eq_false, or_self, iff_false, not_and,
        not_forall]
      intro _
      refine ⟨cid, version, ?_⟩
      simp [isVersion, spendEvent, relayForwarded, u64Attr]

theorem conserved_take_iff {steps : List (List Event)} (h : ∀ step ∈ steps, BillingStep step)
    (n : Nat) : Conserved (steps.flatten.take n) ↔ Whole steps n := by
  induction steps generalizing n with
  | nil => simp [Conserved, Whole, sumAttr]
  | cons step rest ih =>
    have hstep := h step List.mem_cons_self
    rw [Whole, List.flatten_cons, List.take_append]
    split
    · next hle =>
      rw [List.take_of_length_le hle, conserved_append hstep,
        ih (fun s hs => h s (List.mem_cons_of_mem _ hs))]
    · next hlt =>
      rw [Nat.sub_eq_zero_of_le (by omega), List.take_zero, List.append_nil]
      exact conserved_take hstep (by omega)

/-- No event of a call has an attribute under a reserved key. -/
theorem BillingStep.keys {step : List Event} (h : BillingStep step) {e : Event} (he : e ∈ step)
    {k : String} (hk : k ∈ reserved) : e.attrs[k]? = none := by
  simp only [reserved, List.mem_cons, List.not_mem_nil, or_false] at hk
  cases h with
  | opened cid object balance =>
    simp only [List.mem_cons, List.not_mem_nil, or_false] at he
    rcases he with rfl | rfl
    all_goals rcases hk with rfl | rfl | rfl <;> simp [objectRegistered, accountFunded]
  | gated cid bytes =>
    rw [List.mem_singleton.mp he]
    rcases hk with rfl | rfl | rfl <;> simp [relayGated]
  | paid cid object bytes c version remaining =>
    simp only [List.mem_cons, List.not_mem_nil, or_false] at he
    rcases he with rfl | rfl | rfl
    all_goals
      rcases hk with rfl | rfl | rfl <;> simp [spendEvent, relayForwarded, creditDebited]

end P2P333.Substrate
