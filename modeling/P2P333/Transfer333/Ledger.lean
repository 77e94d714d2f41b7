import P2P333.Transfer333.Basic

/-!
# The single-owner ledger

`Ledger` of `333-transfer/src/lib.rs`: genesis, restore from a snapshot, the preflight checks and
`apply`. Value enters at genesis only. A transfer debits the sender, credits the recipient and
spends exactly one sequence number of the sender.

Results:
1. `Ledger.Sound`: the balances add up to a representable amount. Genesis, restore and `apply`
   keep it.
2. `supply_conserved`: over any list of transfers the total never changes, it never overflows, and
   each transfer moves what it says and nothing else.
-/

namespace P2P333.Transfer333

open Std Lib

/-! ## Definitions -/

structure Account where
  balance : Amount
  nextSeq : U64
deriving DecidableEq

/-- Why a transfer was not applied. -/
inductive Reject where
  | unknownSender
  | staleSequence (expected got : U64)
  | insufficient (have_ need : Amount)
  | sequenceExhausted (account : AccountId)
  | balanceOverflow (account : AccountId) (have_ credit : Amount)
  | noCertificate
deriving DecidableEq

/-- Why a list of balances is no genesis. -/
inductive GenesisError where
  | duplicateAccount (account : AccountId)
  | totalSupplyOverflow
deriving DecidableEq

structure Ledger where
  accounts : OrdMap AccountId Account
deriving DecidableEq

namespace Ledger

/-- The loop of `try_genesis`, with the accounts and the total so far. -/
def tryGenesisLoop : List (AccountId × Amount) → OrdMap AccountId Account → Amount →
    Except GenesisError Ledger
  | [], accounts, _ => .ok ⟨accounts⟩
  | (id, balance) :: alloc, accounts, total =>
    if accounts.contains id then .error (.duplicateAccount id)
    else match checkedAdd total balance with
      | none => .error .totalSupplyOverflow
      | some total => tryGenesisLoop alloc (accounts.insert id ⟨balance, 0⟩) total

/-- The fallible constructor for the premint state. -/
def tryGenesis (alloc : List (AccountId × Amount)) : Except GenesisError Ledger :=
  tryGenesisLoop alloc ∅ 0

/-- The loop of `restore`. It adds to the total before it looks for a duplicate. -/
def restoreLoop : List (AccountId × Amount × U64) → OrdMap AccountId Account → Amount →
    Except GenesisError Ledger
  | [], accounts, _ => .ok ⟨accounts⟩
  | (id, balance, nextSeq) :: entries, accounts, total =>
    match checkedAdd total balance with
    | none => .error .totalSupplyOverflow
    | some total =>
      if accounts.contains id then .error (.duplicateAccount id)
      else restoreLoop entries (accounts.insert id ⟨balance, nextSeq⟩) total

/-- Rebuild a ledger from the `(account, balance, next_seq)` entries of a snapshot. -/
def restore (entries : List (AccountId × Amount × U64)) : Except GenesisError Ledger :=
  restoreLoop entries ∅ 0

def balance (l : Ledger) (id : AccountId) : Amount := (l.accounts[id]?.map (·.balance)).getD 0

def containsAccount (l : Ledger) (id : AccountId) : Bool := l.accounts.contains id

/-- The balances in account order. -/
def balances (l : Ledger) : List (AccountId × Amount) :=
  l.accounts.toList.map fun e => (e.1, e.2.balance)

def nextSeq (l : Ledger) (id : AccountId) : U64 := (l.accounts[id]?.map (·.nextSeq)).getD 0

/-- Adding up the balances in account order; `none` is the panic of `total_supply`. -/
def totalSupply (l : Ledger) : Option Amount :=
  (l.accounts.toList.map fun e => e.2.balance).foldlM checkedAdd 0

/-- Every arithmetic and state guard of `apply`, without mutation. -/
def preflight (l : Ledger) (t : Transfer) : Except Reject Unit :=
  match l.accounts[t.sender]? with
  | none => .error .unknownSender
  | some sender =>
    if t.fromSeq ≠ sender.nextSeq then .error (.staleSequence sender.nextSeq t.fromSeq)
    else if sender.balance < t.amount then .error (.insufficient sender.balance t.amount)
    else match checkedAdd sender.nextSeq 1 with
      | none => .error (.sequenceExhausted t.sender)
      | some _ =>
        if t.sender ≠ t.recipient then
          match checkedAdd (l.balance t.recipient) t.amount with
          | none => .error (.balanceOverflow t.recipient (l.balance t.recipient) t.amount)
          | some _ => .ok ()
        else .ok ()

/-- Debit the sender, credit the recipient (created if absent), spend the sequence number.
The `getD` defaults stand where the source has an `expect`; `preflight` excludes them. -/
def apply (l : Ledger) (t : Transfer) : Except Reject Unit × Ledger :=
  match l.preflight t with
  | .error e => (.error e, l)
  | .ok () =>
    let sender := (l.accounts[t.sender]?).getD ⟨0, 0⟩
    let nextSeq := (checkedAdd sender.nextSeq 1).getD 0
    if t.sender = t.recipient then
      (.ok (), ⟨l.accounts.insert t.sender { sender with nextSeq }⟩)
    else
      let credited := (checkedAdd (l.balance t.recipient) t.amount).getD 0
      let debited := l.accounts.insert t.sender ⟨sender.balance - t.amount, nextSeq⟩
      let recipient := (debited[t.recipient]?).getD ⟨0, 0⟩
      (.ok (), ⟨debited.insert t.recipient { recipient with balance := credited }⟩)

end Ledger

/-! ## What `preflight` and `apply` do -/

namespace Ledger

/-- The facts behind a passed preflight. -/
structure Admits (l : Ledger) (t : Transfer) (sender : Account) : Prop where
  found : l.accounts[t.sender]? = some sender
  seq : t.fromSeq = sender.nextSeq
  funds : t.amount.toNat ≤ sender.balance.toNat
  room : sender.nextSeq.toNat + 1 < 2 ^ 64
  credit : t.sender ≠ t.recipient → (l.balance t.recipient).toNat + t.amount.toNat < 2 ^ 128

variable {l : Ledger} {t : Transfer}

theorem preflight_eq_ok : l.preflight t = .ok () ↔ ∃ sender, l.Admits t sender := by
  unfold preflight
  cases hs : l.accounts[t.sender]? with
  | none =>
    refine ⟨fun h => (by cases h), ?_⟩
    rintro ⟨sender, h⟩
    cases hs.symm.trans h.found
  | some sender =>
    constructor
    · intro h
      simp only at h
      split at h
      · cases h
      · next hseq =>
        split at h
        · cases h
        · next hfunds =>
          split at h
          · cases h
          · next next hroom =>
            refine ⟨sender, hs, not_not.mp hseq, BitVec.not_lt.mp hfunds, ?_, ?_⟩
            · exact (checkedAdd_eq_some.mp hroom : next.toNat = sender.nextSeq.toNat +
                1) ▸ next.isLt
            · intro hne
              rw [if_pos hne] at h
              split at h
              · cases h
              · next c hc => exact checkedAdd_eq_some.mp hc ▸ c.isLt
    · rintro ⟨sender', h⟩
      obtain rfl : sender = sender' := Option.some.inj (hs.symm.trans h.found)
      have hfunds : ¬ sender.balance < t.amount := BitVec.not_lt.mpr h.funds
      have hroom : checkedAdd sender.nextSeq 1 = some (sender.nextSeq + 1) :=
        checkedAdd_of_lt h.room
      simp only [h.seq, ne_eq, not_true_eq_false, if_false, hfunds, hroom]
      split
      · next hne => rw [checkedAdd_of_lt (h.credit hne)]
      · rfl

theorem apply_of_error {e : Reject} (h : l.preflight t = .error e) : l.apply t = (.error e, l) := by
  unfold apply
  rw [h]

variable {sender : Account}

/-- A self-transfer only spends the sequence number. -/
theorem apply_self (h : l.Admits t sender) (hself : t.sender = t.recipient) :
    l.apply t =
      (.ok (), ⟨l.accounts.insert t.sender ⟨sender.balance, sender.nextSeq + 1⟩⟩) := by
  have hroom : checkedAdd sender.nextSeq 1 = some (sender.nextSeq + 1) := checkedAdd_of_lt h.room
  unfold apply
  rw [preflight_eq_ok.mpr ⟨sender, h⟩]
  simp only [h.found, Option.getD_some, hroom, if_pos hself]

/-- A transfer between two accounts debits the one and credits the other. -/
theorem apply_other (h : l.Admits t sender) (hne : t.sender ≠ t.recipient) :
    l.apply t =
      (.ok (), ⟨(l.accounts.insert t.sender ⟨sender.balance - t.amount, sender.nextSeq + 1⟩).insert
        t.recipient ⟨l.balance t.recipient + t.amount, l.nextSeq t.recipient⟩⟩) := by
  have hroom : checkedAdd sender.nextSeq 1 = some (sender.nextSeq + 1) := checkedAdd_of_lt h.room
  have hseq : ((l.accounts[t.recipient]?).getD ⟨0, 0⟩).nextSeq = l.nextSeq t.recipient := by
    unfold nextSeq
    cases l.accounts[t.recipient]? <;> rfl
  unfold apply
  rw [preflight_eq_ok.mpr ⟨sender, h⟩]
  simp only [h.found, Option.getD_some, hroom, if_neg hne, checkedAdd_of_lt (h.credit hne),
    OrdMap.getElem?_insert_of_ne _ hne, hseq]

/-- `apply` succeeds exactly when the preflight does. -/
theorem apply_eq_ok : (l.apply t).1 = .ok () ↔ ∃ sender, l.Admits t sender := by
  constructor
  · intro h
    cases hp : l.preflight t with
    | error e => rw [apply_of_error hp] at h; cases h
    | ok _ => exact preflight_eq_ok.mp hp
  · rintro ⟨sender, h⟩
    by_cases hself : t.sender = t.recipient
    · rw [apply_self h hself]
    · rw [apply_other h hself]

/-- A rejected transfer leaves the ledger as it was. -/
theorem apply_error {e : Reject} (h : (l.apply t).1 = .error e) :
    l.preflight t = .error e ∧ (l.apply t).2 = l := by
  cases hp : l.preflight t with
  | error e' =>
    rw [apply_of_error hp] at h ⊢
    exact ⟨by rw [Except.error.inj h], rfl⟩
  | ok _ => rw [apply_eq_ok.mpr (preflight_eq_ok.mp hp)] at h; cases h

/-! ## Frame: what one transfer changes -/

/-- `l'` is `l` after the transfer `t`: the amount moved (nothing for a self-transfer), the
sender's sequence number advanced by one, and no other account was touched. -/
structure Moved (l l' : Ledger) (t : Transfer) : Prop where
  self : t.sender = t.recipient → l'.balance t.sender = l.balance t.sender
  debit : t.sender ≠ t.recipient →
    (l'.balance t.sender).toNat + t.amount.toNat = (l.balance t.sender).toNat
  credit : t.sender ≠ t.recipient →
    (l'.balance t.recipient).toNat = (l.balance t.recipient).toNat + t.amount.toNat
  seq : (l'.nextSeq t.sender).toNat = (l.nextSeq t.sender).toNat + 1
  seqOther : ∀ a, a ≠ t.sender → l'.nextSeq a = l.nextSeq a
  other : ∀ a, a ≠ t.sender → a ≠ t.recipient → l'.accounts[a]? = l.accounts[a]?

variable {id : AccountId}

theorem balance_of_getElem? {a : Account}
    (h : l.accounts[id]? = some a) : l.balance id = a.balance := by
  simp [balance, h]

theorem nextSeq_of_getElem? {a : Account}
    (h : l.accounts[id]? = some a) : l.nextSeq id = a.nextSeq := by
  simp [nextSeq, h]

theorem nextSeq_congr {l' : Ledger} (h : l'.accounts[id]? = l.accounts[id]?) :
    l'.nextSeq id = l.nextSeq id := by
  simp [nextSeq, h]

theorem toNat_add_one {x : U64} (h : x.toNat + 1 < 2 ^ 64) : (x + 1).toNat = x.toNat + 1 :=
  (BitVec.toNat_add x 1).trans (Nat.mod_eq_of_lt h)

theorem moved_self (h : l.Admits t sender)
    (hself : t.sender = t.recipient) : Moved l (l.apply t).2 t := by
  have hsender : (l.apply t).2.accounts[t.sender]? =
      some ⟨sender.balance, sender.nextSeq + 1⟩ := by
    rw [apply_self h hself]
    exact ExtTreeMap.getElem?_insert_self
  have hother : ∀ a, a ≠ t.sender → (l.apply t).2.accounts[a]? = l.accounts[a]? := by
    intro a ha
    rw [apply_self h hself]
    exact OrdMap.getElem?_insert_of_ne _ (Ne.symm ha) _
  refine ⟨fun _ => ?_, fun hne => absurd hself hne, fun hne => absurd hself hne, ?_,
    fun a ha => nextSeq_congr (hother a ha), fun a ha _ => hother a ha⟩
  · rw [balance_of_getElem? hsender, balance_of_getElem? h.found]
  · rw [nextSeq_of_getElem? hsender, nextSeq_of_getElem? h.found, toNat_add_one h.room]

theorem moved_other (h : l.Admits t sender)
    (hne : t.sender ≠ t.recipient) : Moved l (l.apply t).2 t := by
  have hsender : (l.apply t).2.accounts[t.sender]? =
      some ⟨sender.balance - t.amount, sender.nextSeq + 1⟩ := by
    rw [apply_other h hne]
    simp only [OrdMap.getElem?_insert_of_ne _ (Ne.symm hne), ExtTreeMap.getElem?_insert_self]
  have hrecipient : (l.apply t).2.accounts[t.recipient]? =
      some ⟨l.balance t.recipient + t.amount, l.nextSeq t.recipient⟩ := by
    rw [apply_other h hne]
    exact ExtTreeMap.getElem?_insert_self
  have hother : ∀ a, a ≠ t.sender → a ≠ t.recipient →
      (l.apply t).2.accounts[a]? = l.accounts[a]? := by
    intro a ha ha'
    rw [apply_other h hne]
    simp only [OrdMap.getElem?_insert_of_ne _ (Ne.symm ha),
      OrdMap.getElem?_insert_of_ne _ (Ne.symm ha')]
  refine ⟨fun hself => absurd hself hne, fun _ => ?_, fun _ => ?_, ?_, fun a ha => ?_, hother⟩
  · rw [balance_of_getElem? hsender, balance_of_getElem? h.found, BitVec.toNat_sub_of_le h.funds]
    exact Nat.sub_add_cancel h.funds
  · rw [balance_of_getElem? hrecipient, BitVec.toNat_add, Nat.mod_eq_of_lt (h.credit hne)]
  · rw [nextSeq_of_getElem? hsender, nextSeq_of_getElem? h.found, toNat_add_one h.room]
  · by_cases ha' : a = t.recipient
    · subst ha'
      rw [nextSeq_of_getElem? hrecipient]
    · exact nextSeq_congr (hother a ha ha')

/-- A successful `apply` moves the amount, spends one sequence number and touches nothing else. -/
theorem apply_moved (h : (l.apply t).1 = .ok ()) : Moved l (l.apply t).2 t := by
  obtain ⟨sender, hs⟩ := apply_eq_ok.mp h
  by_cases hself : t.sender = t.recipient
  · exact moved_self hs hself
  · exact moved_other hs hself

/-! ## Supply -/

/-- The sum of all balances, as a number without a bound. -/
def supply (l : Ledger) : Nat := OrdMap.sumBy (fun a : Account => a.balance.toNat) l.accounts

/-- The supply is representable as a `u128`. -/
def Sound (l : Ledger) : Prop := l.supply < 2 ^ 128

theorem supply_insert (l : Ledger) (id : AccountId) (a : Account) :
    (⟨l.accounts.insert id a⟩ : Ledger).supply + (l.balance id).toNat =
      l.supply + a.balance.toNat := by
  have h := OrdMap.sumBy_insert (fun a : Account => a.balance.toNat) l.accounts id a
  unfold supply balance
  cases hm : l.accounts[id]? <;> rw [hm] at h <;> exact h

theorem balance_le_supply (l : Ledger) (id : AccountId) : (l.balance id).toNat ≤ l.supply := by
  unfold balance
  cases h : l.accounts[id]? with
  | none => simp
  | some a => exact OrdMap.le_sumBy (fun a : Account => a.balance.toNat) h

/-- Two different accounts together hold at most the supply. -/
theorem balance_add_le_supply (l : Ledger) {id' : AccountId} (hne : id ≠ id') :
    (l.balance id).toNat + (l.balance id').toNat ≤ l.supply := by
  cases h : l.accounts[id]? with
  | none => simpa [balance, h] using balance_le_supply l id'
  | some a =>
    cases h' : l.accounts[id']? with
    | none => simpa [balance, h, h'] using balance_le_supply l id
    | some a' =>
      rw [balance_of_getElem? h, balance_of_getElem? h']
      exact OrdMap.add_le_sumBy (fun a : Account => a.balance.toNat) hne h h'

/-- Every `apply`, accepted or rejected, keeps the supply. -/
theorem supply_apply (l : Ledger) (t : Transfer) : (l.apply t).2.supply = l.supply := by
  cases hp : l.preflight t with
  | error e => rw [apply_of_error hp]
  | ok _ =>
    obtain ⟨sender, h⟩ := preflight_eq_ok.mp hp
    by_cases hself : t.sender = t.recipient
    · rw [apply_self h hself]
      have hins := supply_insert l t.sender ⟨sender.balance, sender.nextSeq + 1⟩
      rw [balance_of_getElem? h.found] at hins
      exact Nat.add_right_cancel hins
    · rw [apply_other h hself]
      have hdebit := supply_insert l t.sender
        ⟨sender.balance - t.amount, sender.nextSeq + 1⟩
      have hcredit := supply_insert
        ⟨l.accounts.insert t.sender ⟨sender.balance - t.amount, sender.nextSeq + 1⟩⟩ t.recipient
        ⟨l.balance t.recipient + t.amount, l.nextSeq t.recipient⟩
      have hrec : balance ⟨l.accounts.insert t.sender
          ⟨sender.balance - t.amount, sender.nextSeq + 1⟩⟩ t.recipient = l.balance t.recipient := by
        simp only [balance, OrdMap.getElem?_insert_of_ne _ hself]
      rw [balance_of_getElem? h.found] at hdebit
      simp only [hrec, BitVec.toNat_sub_of_le h.funds, BitVec.toNat_add,
        Nat.mod_eq_of_lt (h.credit hself)] at hdebit hcredit
      have := h.funds
      dsimp only
      omega

/-- On a ledger with a representable supply no credit overflows. -/
theorem Sound.apply_ne_balanceOverflow (hl : l.Sound) (t : Transfer) (a : AccountId)
    (x y : Amount) : (l.apply t).1 ≠ .error (.balanceOverflow a x y) := by
  intro h
  have hp := (apply_error h).1
  unfold preflight at hp
  split at hp
  · cases hp
  · next sender hs =>
    split at hp
    · cases hp
    split at hp
    · cases hp
    next hfunds =>
    split at hp
    · cases hp
    split at hp
    · next hne =>
      split at hp
      · next hnone =>
        have hfunds' : t.amount.toNat ≤ sender.balance.toNat := BitVec.not_lt.mp hfunds
        have htwo := balance_add_le_supply l hne
        rw [balance_of_getElem? hs] at htwo
        have := checkedAdd_eq_none.mp hnone
        unfold Sound at hl
        omega
      · cases hp
    · cases hp

theorem foldlM_checkedAdd (l : List Amount) (start : Amount)
    (h : start.toNat + (l.map BitVec.toNat).sum < 2 ^ 128) :
    ∃ s, l.foldlM checkedAdd start = some s ∧ s.toNat = start.toNat + (l.map BitVec.toNat).sum := by
  induction l generalizing start with
  | nil => exact ⟨start, rfl, by simp⟩
  | cons x l ih =>
    simp only [List.map_cons, List.sum_cons] at h ⊢
    have hadd : checkedAdd start x = some (start + x) := checkedAdd_of_lt (by omega)
    have hnat : (start + x).toNat = start.toNat + x.toNat := checkedAdd_eq_some.mp hadd
    obtain ⟨s, hs, hsum⟩ := ih (start + x) (by omega)
    exact ⟨s, by rw [List.foldlM_cons, hadd]; exact hs, by omega⟩

/-- `total_supply` does not panic on a ledger with a representable supply. -/
theorem Sound.totalSupply (hl : l.Sound) : ∃ s, l.totalSupply = some s ∧ s.toNat = l.supply := by
  have hsum : ((l.accounts.toList.map fun e => e.2.balance).map BitVec.toNat).sum = l.supply := by
    rw [List.map_map]
    rfl
  obtain ⟨s, hs, hnat⟩ := foldlM_checkedAdd (l.accounts.toList.map fun e => e.2.balance) 0
    (by rw [hsum]; exact (Nat.zero_add l.supply).symm ▸ hl)
  exact ⟨s, hs, by rw [hnat, hsum]; exact Nat.zero_add _⟩

/-! ## Genesis and restore -/

theorem supply_empty : (⟨∅⟩ : Ledger).supply = 0 := rfl

variable {m : OrdMap AccountId Account}

/-- Inserting a fresh account adds its balance to the supply. -/
theorem supply_insert_fresh (h : m.contains id = false)
    (a : Account) : (⟨m.insert id a⟩ : Ledger).supply = (⟨m⟩ : Ledger).supply +
    a.balance.toNat := by
  have hnone : m[id]? = none := ExtTreeMap.getElem?_eq_none_of_contains_eq_false h
  have hins := supply_insert ⟨m⟩ id a
  simpa [balance, hnone] using hins

variable {total : Amount}

theorem tryGenesisLoop_sound {alloc : List (AccountId × Amount)}
    (hm : (⟨m⟩ : Ledger).supply = total.toNat)
    (h : tryGenesisLoop alloc m total = .ok l) : l.Sound := by
  induction alloc generalizing m total with
  | nil =>
    cases h
    exact lt_of_eq_of_lt hm total.isLt
  | cons e alloc ih =>
    simp only [tryGenesisLoop] at h
    split at h
    · cases h
    · next hfresh =>
      split at h
      · cases h
      · next total' htotal =>
        refine ih ?_ h
        rw [supply_insert_fresh (Bool.eq_false_iff.mpr hfresh), hm, checkedAdd_eq_some.mp htotal]

theorem restoreLoop_sound {entries : List (AccountId × Amount × U64)}
    (hm : (⟨m⟩ : Ledger).supply = total.toNat) (h : restoreLoop entries m total = .ok l) :
    l.Sound := by
  induction entries generalizing m total with
  | nil =>
    cases h
    exact lt_of_eq_of_lt hm total.isLt
  | cons e entries ih =>
    simp only [restoreLoop] at h
    split at h
    · cases h
    · next total' htotal =>
      split at h
      · cases h
      · next hfresh =>
        refine ih ?_ h
        rw [supply_insert_fresh (Bool.eq_false_iff.mpr hfresh), hm, checkedAdd_eq_some.mp htotal]

/-- Every ledger that genesis accepts has a representable supply. -/
theorem tryGenesis_sound {alloc : List (AccountId × Amount)}
    (h : tryGenesis alloc = .ok l) : l.Sound := tryGenesisLoop_sound supply_empty h

/-- Every ledger that `restore` accepts has a representable supply. -/
theorem restore_sound {entries : List (AccountId × Amount × U64)}
    (h : restore entries = .ok l) : l.Sound := restoreLoop_sound supply_empty h

theorem Sound.apply (h : l.Sound) (t : Transfer) : (l.apply t).2.Sound := by
  unfold Sound
  rw [supply_apply]
  exact h

/-- The `(account, balance, next_seq)` entries of a ledger, in account order. -/
def entries (l : Ledger) : List (AccountId × Amount × U64) :=
  l.accounts.toList.map fun e => (e.1, e.2.balance, e.2.nextSeq)

theorem restoreLoop_entries {es : List (AccountId × Account)}
    (hdistinct : es.Pairwise fun a b => ¬ compare a.1 b.1 = .eq)
    (hfresh : ∀ e ∈ es, m.contains e.1 = false)
    (hsum : total.toNat + (es.map fun e => e.2.balance.toNat).sum < 2 ^ 128) :
    restoreLoop (es.map fun e => (e.1, e.2.balance, e.2.nextSeq)) m total =
      .ok ⟨m.insertMany es⟩ := by
  induction es generalizing m total with
  | nil => rfl
  | cons e es ih =>
    simp only [List.map_cons, List.sum_cons] at hsum
    have hadd : checkedAdd total e.2.balance = some (total + e.2.balance) :=
      checkedAdd_of_lt (by omega)
    have hnat : (total + e.2.balance).toNat = total.toNat + e.2.balance.toNat :=
      checkedAdd_eq_some.mp hadd
    obtain ⟨hhead, htail⟩ := List.pairwise_cons.mp hdistinct
    simp only [List.map_cons, restoreLoop, hadd, hfresh e List.mem_cons_self]
    rw [if_neg Bool.false_ne_true, ih htail, ExtTreeMap.insertMany_cons]
    · intro e' he'
      rw [ExtTreeMap.contains_insert, hfresh e' (List.mem_cons_of_mem _ he'), Bool.or_false,
        beq_eq_false_iff_ne]
      exact hhead e' he'
    · omega

/-- A snapshot of a ledger with a representable supply restores that ledger. -/
theorem Sound.restore_entries (h : l.Sound) : restore l.entries = .ok l := by
  unfold restore entries
  rw [restoreLoop_entries ExtTreeMap.distinct_keys_toList (fun e _ => rfl)
    ((Nat.zero_add l.supply).symm ▸ h)]
  have hm : (∅ : OrdMap AccountId Account).insertMany l.accounts.toList = l.accounts := by
    rw [← ExtTreeMap.ofList_eq_insertMany_empty]
    exact OrdMap.ofEntries_of_perm (List.Perm.refl _)
  rw [hm]

/-! ## Sequence numbers only grow -/

theorem nextSeq_le_apply (l : Ledger) (t : Transfer) (a : AccountId) :
    (l.nextSeq a).toNat ≤ ((l.apply t).2.nextSeq a).toNat := by
  cases hp : l.preflight t with
  | error e => rw [apply_of_error hp]
  | ok _ =>
    have hmoved := apply_moved (apply_eq_ok.mpr (preflight_eq_ok.mp hp))
    by_cases ha : a = t.sender
    · subst ha
      rw [hmoved.seq]
      exact Nat.le_succ _
    · rw [hmoved.seqOther a ha]

/-! ## Conservation over whole runs -/

/-- Give a list of transfers to `apply`, one after the other. -/
def run (l : Ledger) (ts : List Transfer) : Ledger := ts.foldl (fun l t => (l.apply t).2) l

theorem supply_run (l : Ledger) (ts : List Transfer) : (l.run ts).supply = l.supply := by
  induction ts generalizing l with
  | nil => rfl
  | cons t ts ih => exact (ih (l.apply t).2).trans (supply_apply l t)

end Ledger

/-- Supply conservation. From any ledger that `try_genesis` or `restore` accepts, and after any
list of transfers: the sum of the balances is what it was, it fits a `u128`, `total_supply` does
not panic, and the next `apply` either moves exactly its amount and spends exactly one sequence
number, or changes nothing; it never answers `BalanceOverflow`. -/
theorem supply_conserved {l : Ledger}
    (hl : (∃ alloc, Ledger.tryGenesis alloc = .ok l) ∨ (∃ entries, Ledger.restore entries = .ok l))
    (ts : List Transfer) (t : Transfer) :
    (l.run ts).supply = l.supply ∧ (l.run ts).supply ≤ 2 ^ 128 - 1 ∧
    (∃ s, (l.run ts).totalSupply = some s ∧ s.toNat = l.supply) ∧
    (∀ a x y, ((l.run ts).apply t).1 ≠ .error (.balanceOverflow a x y)) ∧
    (((l.run ts).apply t).1 = .ok () → Ledger.Moved (l.run ts) ((l.run ts).apply t).2 t) ∧
    (∀ e, ((l.run ts).apply t).1 = .error e → ((l.run ts).apply t).2 = l.run ts) := by
  have hl' : l.Sound := by
    rcases hl with ⟨alloc, h⟩ | ⟨entries, h⟩
    · exact Ledger.tryGenesis_sound h
    · exact Ledger.restore_sound h
  have hsupply := Ledger.supply_run l ts
  have hrun : (l.run ts).Sound := by
    unfold Ledger.Sound
    rw [hsupply]
    exact hl'
  obtain ⟨s, hs, hnat⟩ := hrun.totalSupply
  exact ⟨hsupply, Nat.le_pred_of_lt hrun, ⟨s, hs, hnat.trans hsupply⟩,
    hrun.apply_ne_balanceOverflow t, Ledger.apply_moved, fun e h => (Ledger.apply_error h).2⟩

def alice : AccountId := ⟨"alice", Str.fits_alice⟩
def bob : AccountId := ⟨"bob", Str.fits_bob⟩
def carol : AccountId := ⟨"carol", by decide⟩

/-- Alice owns the whole supply, as in the crate's own tests. -/
def demoAlloc : List (AccountId × Amount) := [(alice, 100), (bob, 0)]

def demoLedger : Ledger := ⟨OrdMap.ofEntries [(alice, ⟨100, 0⟩), (bob, ⟨0, 0⟩)]⟩

/-- Alice pays bob 30, then carol, whose account is created by the transfer, 20. -/
theorem supply_conserved_demo :
    Ledger.tryGenesis demoAlloc = .ok demoLedger ∧
    (demoLedger.run [⟨alice, 0, bob, 30⟩]).supply = demoLedger.supply ∧
    ((demoLedger.run [⟨alice, 0, bob, 30⟩]).apply ⟨alice, 1, carol, 20⟩).1 = .ok () ∧
    ((demoLedger.run [⟨alice, 0, bob, 30⟩]).apply ⟨alice, 1, carol, 20⟩).2.balance alice = 50 := by
  have hgen : Ledger.tryGenesis demoAlloc = .ok demoLedger := by decide +kernel
  exact ⟨hgen, (supply_conserved (.inl ⟨_, hgen⟩) [⟨alice, 0, bob, 30⟩] ⟨alice, 1, carol, 20⟩).1,
    by decide +kernel, by decide +kernel⟩

end P2P333.Transfer333
