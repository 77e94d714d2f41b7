import P2P333.Crdt333.CausalOrder
import P2P333.Transfer333.Ledger

/-!
# Replicas without consensus

`Replica` of `333-transfer/src/lib.rs`: an owner's ledger beside the causal broadcaster. `submit`
applies a transfer of the owner's own account and broadcasts it; `deliver` applies everything that
has become causally ready.

A transfer may spend what its owner received from others. That a replica accepts it rests on two
facts about its history: the owner's own earlier transfers in it are those the owner had made at
submit time, and everything the owner had received by then is in it too.

Results:
1. `Ledger.Accepts.run_perm`: lists of accepted transfers that agree up to order lead to one ledger.
2. `Ledger.Accepts.admits`: a transfer that was accepted after `past` is accepted after any list
   that contains `past` and no other transfer of the sender.
3. `replicas_converge`: no delivered transfer is ever rejected, and replicas that have delivered
   the same messages have the same ledger.
-/

namespace P2P333.Transfer333

open Std Lib Function

/-! ## The order of accepted transfers -/

namespace Ledger

/-- Every transfer of the list is applied. -/
def Accepts : Ledger → List Transfer → Prop
  | _, [] => True
  | l, t :: ts => (l.apply t).1 = .ok () ∧ Accepts (l.apply t).2 ts

def debits (a : AccountId) (ts : List Transfer) : Nat :=
  ((ts.filter fun t => decide (t.sender = a)).map fun t => t.amount.toNat).sum

def credits (a : AccountId) (ts : List Transfer) : Nat :=
  ((ts.filter fun t => decide (t.recipient = a)).map fun t => t.amount.toNat).sum

def spends (a : AccountId) (ts : List Transfer) : Nat :=
  (ts.filter fun t => decide (t.sender = a)).length

theorem debits_cons (a : AccountId) (t : Transfer) (ts : List Transfer) :
    debits a (t :: ts) = (if t.sender = a then t.amount.toNat else 0) + debits a ts := by
  by_cases ha : t.sender = a <;> simp [debits, ha]

theorem credits_cons (a : AccountId) (t : Transfer) (ts : List Transfer) :
    credits a (t :: ts) = (if t.recipient = a then t.amount.toNat else 0) + credits a ts := by
  by_cases ha : t.recipient = a <;> simp [credits, ha]

theorem spends_cons (a : AccountId) (t : Transfer) (ts : List Transfer) :
    spends a (t :: ts) = (if t.sender = a then 1 else 0) + spends a ts := by
  by_cases ha : t.sender = a <;> simp [spends, ha, Nat.add_comm]

theorem accepts_append {l : Ledger} {ts ts' : List Transfer} :
    l.Accepts (ts ++ ts') ↔ l.Accepts ts ∧ (l.run ts).Accepts ts' := by
  induction ts generalizing l with
  | nil => exact ⟨fun h => ⟨trivial, h⟩, fun h => h.2⟩
  | cons t ts ih =>
    rw [List.cons_append, Accepts, Accepts, ih, and_assoc]
    rfl

theorem run_append (l : Ledger) (ts ts' : List Transfer) :
    l.run (ts ++ ts') = (l.run ts).run ts' := List.foldl_append

variable {l : Ledger} {t : Transfer} {ts ts' : List Transfer}

theorem apply_balance (h : (l.apply t).1 = .ok ()) (a : AccountId) :
    ((l.apply t).2.balance a).toNat + (if t.sender = a then t.amount.toNat else 0) =
      (l.balance a).toNat + (if t.recipient = a then t.amount.toNat else 0) := by
  have hmoved := apply_moved h
  by_cases hself : t.sender = t.recipient
  · by_cases ha : t.sender = a
    · rw [← ha, hmoved.self hself, if_pos rfl, if_pos hself.symm]
    · have ha' : t.recipient ≠ a := hself ▸ ha
      rw [if_neg ha, if_neg ha', balance, balance, hmoved.other a (Ne.symm ha) (Ne.symm ha')]
  · by_cases ha : t.sender = a
    · have ha' : t.recipient ≠ a := fun hc => hself (ha.trans hc.symm)
      rw [if_pos ha, if_neg ha', ← ha]
      exact hmoved.debit hself
    · by_cases ha' : t.recipient = a
      · rw [if_neg ha, if_pos ha', ← ha']
        exact hmoved.credit hself
      · rw [if_neg ha, if_neg ha', balance, balance, hmoved.other a (Ne.symm ha) (Ne.symm ha')]

theorem apply_nextSeq (h : (l.apply t).1 = .ok ()) (a : AccountId) :
    ((l.apply t).2.nextSeq a).toNat = (l.nextSeq a).toNat + (if t.sender = a then 1 else 0) := by
  have hmoved := apply_moved h
  split
  · next ha => rw [← ha, hmoved.seq]
  · next ha => rw [hmoved.seqOther a (Ne.symm ha), Nat.add_zero]

theorem apply_mem (h : (l.apply t).1 = .ok ()) (a : AccountId) :
    a ∈ (l.apply t).2.accounts ↔ a ∈ l.accounts ∨ t.recipient = a := by
  obtain ⟨sender, hadmits⟩ := apply_eq_ok.mp h
  have hsender : t.sender ∈ l.accounts :=
    (ExtTreeMap.isSome_getElem?_iff_mem ..).mp (Option.isSome_of_eq_some hadmits.found)
  have hinsert : ∀ (m : OrdMap AccountId Account) (k : AccountId) (x : Account),
      a ∈ m.insert k x ↔ k = a ∨ a ∈ m := by
    intro m k x
    rw [ExtTreeMap.mem_insert, LawfulEqCmp.compare_eq_iff_eq]
  by_cases hself : t.sender = t.recipient
  · rw [apply_self hadmits hself, hinsert, hself, or_comm]
  · rw [apply_other hadmits hself, hinsert, hinsert]
    constructor
    · rintro (ha | rfl | ha)
      · exact .inr ha
      · exact .inl hsender
      · exact .inl ha
    · rintro (ha | ha)
      · exact .inr (.inr ha)
      · exact .inl ha

/-- Balances after accepted transfers: what came in, less what went out. -/
theorem Accepts.balance_run (h : l.Accepts ts) (a : AccountId) :
    ((l.run ts).balance a).toNat + debits a ts = (l.balance a).toNat + credits a ts := by
  induction ts generalizing l with
  | nil => rfl
  | cons t ts ih =>
    have hfirst := apply_balance h.1 a
    have hrest := ih h.2
    have hrun : l.run (t :: ts) = (l.apply t).2.run ts := rfl
    rw [hrun, debits_cons, credits_cons]
    omega

theorem Accepts.nextSeq_run (h : l.Accepts ts) (a : AccountId) :
    ((l.run ts).nextSeq a).toNat = (l.nextSeq a).toNat + spends a ts := by
  induction ts generalizing l with
  | nil => rfl
  | cons t ts ih =>
    have hfirst := apply_nextSeq h.1 a
    have hrun : l.run (t :: ts) = (l.apply t).2.run ts := rfl
    rw [hrun, ih h.2, hfirst, spends_cons, Nat.add_assoc]

theorem Accepts.mem_run (h : l.Accepts ts) (a : AccountId) :
    a ∈ (l.run ts).accounts ↔ a ∈ l.accounts ∨ ∃ t ∈ ts, t.recipient = a := by
  induction ts generalizing l with
  | nil => exact ⟨.inl, fun hc => hc.elim id fun ⟨_, hm, _⟩ => by cases hm⟩
  | cons t ts ih =>
    have hrun : l.run (t :: ts) = (l.apply t).2.run ts := rfl
    rw [hrun, ih h.2, apply_mem h.1]
    simp only [List.mem_cons, exists_eq_or_imp, or_assoc]

theorem getElem?_of_mem {a : AccountId} (h : a ∈ l.accounts) :
    l.accounts[a]? = some ⟨l.balance a, l.nextSeq a⟩ := by
  obtain ⟨x, hx⟩ := Option.isSome_iff_exists.mp ((ExtTreeMap.isSome_getElem?_iff_mem ..).mpr h)
  rw [hx, balance_of_getElem? hx, nextSeq_of_getElem? hx]

/-- A ledger is determined by its accounts, balances and sequence numbers. -/
theorem ext_accounts {l' : Ledger} (hmem : ∀ a : AccountId, a ∈ l.accounts ↔ a ∈ l'.accounts)
    (hbalance : ∀ a, l.balance a = l'.balance a) (hseq : ∀ a, l.nextSeq a = l'.nextSeq a) :
    l = l' := by
  have hget : ∀ a : AccountId, l.accounts[a]? = l'.accounts[a]? := by
    intro a
    by_cases ha : a ∈ l.accounts
    · rw [getElem?_of_mem ha, getElem?_of_mem ((hmem a).mp ha), hbalance, hseq]
    · rw [ExtTreeMap.getElem?_eq_none ha,
        ExtTreeMap.getElem?_eq_none fun hc => ha ((hmem a).mpr hc)]
  cases l
  cases l'
  exact congrArg Ledger.mk (ExtTreeMap.ext_getElem? hget)

/-- The order of accepted transfers does not matter. -/
theorem Accepts.run_perm (h : l.Accepts ts) (h' : l.Accepts ts') (hperm : ts.Perm ts') :
    l.run ts = l.run ts' := by
  refine ext_accounts (fun a => ?_) (fun a => ?_) fun a => ?_
  · rw [h.mem_run, h'.mem_run]
    simp only [hperm.mem_iff]
  · apply BitVec.eq_of_toNat_eq
    have hbal := h.balance_run a
    have hbal' := h'.balance_run a
    have hdebits : debits a ts = debits a ts' := ((hperm.filter _).map _).sum_eq
    have hcredits : credits a ts = credits a ts' := ((hperm.filter _).map _).sum_eq
    omega
  · apply BitVec.eq_of_toNat_eq
    rw [h.nextSeq_run, h'.nextSeq_run]
    exact congrArg _ (hperm.filter _).length_eq

/-- What was accepted after `past` is accepted after a longer list without further transfers of the
sender. -/
theorem Accepts.admits {past : List Transfer} (hl : l.Sound) (hpast : l.Accepts past)
    (ht : ((l.run past).apply t).1 = .ok ()) (h : l.Accepts ts) (hsub : past.Subperm ts)
    (hown : (past.filter fun x => decide (x.sender = t.sender)).Perm
      (ts.filter fun x => decide (x.sender = t.sender))) :
    ((l.run ts).apply t).1 = .ok () := by
  obtain ⟨sender, hadmits⟩ := apply_eq_ok.mp ht
  have hseq : (l.run ts).nextSeq t.sender = (l.run past).nextSeq t.sender := by
    apply BitVec.eq_of_toNat_eq
    rw [h.nextSeq_run, hpast.nextSeq_run]
    exact congrArg _ hown.length_eq.symm
  have hfunds : t.amount.toNat ≤ ((l.run ts).balance t.sender).toNat := by
    have hbal := h.balance_run t.sender
    have hbal' := hpast.balance_run t.sender
    have hdebits : debits t.sender past = debits t.sender ts := (hown.map _).sum_eq
    have hcredits : credits t.sender past ≤ credits t.sender ts := by
      obtain ⟨ts', hperm, hsublist⟩ := hsub
      have hsum : credits t.sender past = credits t.sender ts' :=
        ((hperm.filter _).map _).sum_eq.symm
      rw [hsum]
      exact ((hsublist.filter _).map _).sum_le_sum fun _ _ => Nat.zero_le _
    have hle := hadmits.funds
    rw [← balance_of_getElem? hadmits.found] at hle
    omega
  have hmem : t.sender ∈ (l.run ts).accounts := by
    have hold := (ExtTreeMap.isSome_getElem?_iff_mem ..).mp (Option.isSome_of_eq_some hadmits.found)
    rcases (hpast.mem_run _).mp hold with hin | ⟨x, hx, hr⟩
    · exact (h.mem_run _).mpr (.inl hin)
    · exact (h.mem_run _).mpr (.inr ⟨x, hsub.subset hx, hr⟩)
  refine apply_eq_ok.mpr ⟨_, getElem?_of_mem hmem, ?_, hfunds, ?_, fun hne => ?_⟩
  · rw [hseq, nextSeq_of_getElem? hadmits.found]
    exact hadmits.seq
  · rw [hseq, nextSeq_of_getElem? hadmits.found]
    exact hadmits.room
  · -- the sender holds the amount, and both together at most the supply
    have hsupply := balance_add_le_supply (l.run ts) hne
    rw [supply_run] at hsupply
    have hsound : l.supply < 2 ^ 128 := hl
    omega

end Ledger

/-! ## Replicas -/

open Crdt333

structure Replica where
  me : AccountId
  ledger : Ledger
  rcb : VectorClockBroadcaster Transfer
deriving DecidableEq

/-- What `deliver` did with the transfers that were ready. -/
structure DeliveryOutcome where
  applied : List Transfer
  rejected : List (Transfer × Reject)
deriving DecidableEq

namespace Replica

def new (me : AccountId) (ledger : Ledger) : Replica := ⟨me, ledger, .new me⟩

/-- Author a transfer from the replica's own account at its next sequence number. `none` is a panic
of the broadcaster. -/
def submit (r : Replica) (recipient : AccountId) (amount : Amount) :
    Option (Except Reject (CausalMsg Transfer) × Replica) :=
  let t : Transfer := ⟨r.me, r.ledger.nextSeq r.me, recipient, amount⟩
  match r.ledger.apply t with
  | (.error e, ledger) => some (.error e, { r with ledger })
  | (.ok (), ledger) => (r.rcb.submit t).map fun p => (.ok p.1, { r with ledger, rcb := p.2 })

/-- The loop of `deliver`. -/
def applyReady : Ledger → List (CausalMsg Transfer) → DeliveryOutcome → DeliveryOutcome × Ledger
  | ledger, [], outcome => (outcome, ledger)
  | ledger, m :: ready, outcome =>
    match ledger.apply m.payload with
    | (.ok (), ledger) =>
      applyReady ledger ready { outcome with applied := outcome.applied ++ [m.payload] }
    | (.error e, ledger) =>
      applyReady ledger ready { outcome with rejected := outcome.rejected ++ [(m.payload, e)] }

def deliver (r : Replica) (msg : CausalMsg Transfer) : Option (DeliveryOutcome × Replica) :=
  (r.rcb.receive msg).map fun p =>
    let applied := applyReady r.ledger p.1 ⟨[], []⟩
    (applied.1, { r with ledger := applied.2, rcb := p.2 })

/-- The transfer that the replica authors next. -/
def draft (r : Replica) (recipient : AccountId) (amount : Amount) : Transfer :=
  ⟨r.me, r.ledger.nextSeq r.me, recipient, amount⟩

/-- A rejected submit changes nothing; an accepted one is applied and broadcast. -/
theorem submit_eq_some {r r' : Replica} {recipient : AccountId} {amount : Amount}
    {result : Except Reject (CausalMsg Transfer)}
    (h : r.submit recipient amount = some (result, r')) :
    (∃ e, result = .error e ∧ r' = r) ∨
    ∃ m b, result = .ok m ∧ r.rcb.submit (r.draft recipient amount) = some (m, b) ∧
      (r.ledger.apply (r.draft recipient amount)).1 = .ok () ∧
      r' = { r with ledger := (r.ledger.apply (r.draft recipient amount)).2, rcb := b } := by
  unfold submit at h
  rw [show Transfer.mk r.me (r.ledger.nextSeq r.me) recipient amount = r.draft recipient amount
    from rfl] at h
  simp only at h
  split at h
  · next e ledger happly =>
    have herror := Ledger.apply_error (congrArg Prod.fst happly)
    rw [happly] at herror
    have hledger : ledger = r.ledger := herror.2
    cases h
    exact .inl ⟨e, rfl, by rw [hledger]⟩
  · next ledger happly =>
    obtain ⟨⟨m, b⟩, hsubmit, he⟩ := Option.map_eq_some_iff.mp h
    cases he
    exact .inr ⟨m, b, rfl, hsubmit, by rw [happly], by rw [happly]⟩

end Replica

/-- The transfers of a list of messages. -/
def payloads (ms : List (CausalMsg Transfer)) : List Transfer := ms.map CausalMsg.payload

theorem payloads_append (ms ms' : List (CausalMsg Transfer)) :
    payloads (ms ++ ms') = payloads ms ++ payloads ms' := List.map_append

/-- A list of ready messages whose transfers are all acceptable is applied without a reject. -/
theorem Replica.applyReady_accepts {ledger : Ledger} {ready : List (CausalMsg Transfer)}
    (h : ledger.Accepts (payloads ready)) (outcome : DeliveryOutcome) :
    applyReady ledger ready outcome =
      ({ outcome with applied := outcome.applied ++ payloads ready },
        ledger.run (payloads ready)) := by
  induction ready generalizing ledger outcome with
  | nil =>
    simp only [applyReady, payloads, List.map_nil, List.append_nil]
    rfl
  | cons m ready ih =>
    have hfirst : ledger.apply m.payload = (.ok (), (ledger.apply m.payload).2) := Prod.ext h.1 rfl
    rw [applyReady, hfirst]
    simp only
    rw [ih h.2]
    simp only [payloads, List.map_cons, List.append_assoc, List.singleton_append]
    rfl

/-! ## Acceptance at other replicas -/

/-- The message carries a transfer of its sender, accepted after the messages in `past`. -/
structure Authored (genesis : Ledger) (m : CausalMsg Transfer) (past : List (CausalMsg Transfer)) :
    Prop where
  owner : m.payload.sender = m.sender
  nodup : past.Nodup
  accepted : genesis.Accepts (payloads past)
  applied : ((genesis.run (payloads past)).apply m.payload).1 = .ok ()

section Acceptance

variable {genesis : Ledger} {s : Causal Transfer} {p : AccountId}

/-- At a replica where `m` is ready, the earlier messages of its sender are those in its past. -/
theorem own_messages_perm (h : s.Inv)
    (hauth : ∀ m past, (m, past) ∈ s.sent → Authored genesis m past) {m : CausalMsg Transfer}
    {past : List (CausalMsg Transfer)} (hm : (m, past) ∈ s.sent) (hready : m.Ready (s.clock p)) :
    (past.filter fun a => decide (a.payload.sender = m.payload.sender)).Perm
      ((s.history p).filter fun a => decide (a.payload.sender = m.payload.sender)) := by
  rw [List.perm_ext_iff_of_nodup ((hauth m past hm).nodup.filter _)
    ((List.Nodup.of_map _ (h.nodup p)).filter _)]
  intro a
  simp only [List.mem_filter, decide_eq_true_eq]
  refine and_congr_left fun hsender => ?_
  rw [h.past m past hm a, h.mem_history p a]
  refine and_congr_right fun hsent => ?_
  obtain ⟨past', ha⟩ := hsent
  rw [(hauth a past' ha).owner, (hauth m past hm).owner] at hsender
  have hstamp : (m.context.get m.sender).toNat = m.counter :=
    congrArg BitVec.toNat (h.stamped m ⟨past, hm⟩)
  have hnext : s.count p m.sender + 1 = m.counter := hready.next
  rw [ne_eq, CausalMsg.dot_eq, hsender, hstamp]
  simp only [true_and]
  omega

/-- A ready transfer is accepted. -/
theorem accepts_ready (hl : genesis.Sound) (h : s.Inv)
    (hauth : ∀ m past, (m, past) ∈ s.sent → Authored genesis m past)
    (hacc : genesis.Accepts (payloads (s.history p))) {m : CausalMsg Transfer} (hm : s.Sent m)
    (hready : m.Ready (s.clock p)) :
    ((genesis.run (payloads (s.history p))).apply m.payload).1 = .ok () := by
  obtain ⟨past, hpast⟩ := hm
  have ha := hauth m past hpast
  have hsubset : past ⊆ s.history p := fun a hmem => h.parent_mem hready ⟨past, hpast, hmem⟩
  refine Ledger.Accepts.admits hl ha.accepted ha.applied hacc ?_ ?_
  · obtain ⟨l, hperm, hsub⟩ := List.Nodup.subperm ha.nodup hsubset
    exact ⟨payloads l, hperm.map _, hsub.map _⟩
  · simp only [payloads, List.filter_map]
    exact (own_messages_perm h hauth hpast hready).map _

theorem accepts_delivery (hl : genesis.Sound) (h : s.Inv)
    (hauth : ∀ m past, (m, past) ∈ s.sent → Authored genesis m past)
    (hacc : genesis.Accepts (payloads (s.history p))) {out : List (CausalMsg Transfer)}
    {v : VersionVector} (hsent : ∀ m ∈ out, s.Sent m)
    (hdel : VectorClockBroadcaster.Delivery (s.clock p) out v) :
    genesis.Accepts (payloads (s.history p ++ out)) := by
  induction out generalizing s with
  | nil =>
    rw [List.append_nil]
    exact hacc
  | cons m out ih =>
    cases hdel with
    | cons hready hdel =>
      have hm := hsent m List.mem_cons_self
      have hself := Causal.history_deliver_self (s := s) p m
      have hacc' : genesis.Accepts (payloads ((s.deliver p m).history p)) := by
        rw [hself, payloads_append, Ledger.accepts_append]
        exact ⟨hacc, accepts_ready hl h hauth hacc hm hready, trivial⟩
      have hclock : (s.deliver p m).clock p = (s.clock p).set m.sender m.senderCounter :=
        update_self ..
      rw [← hclock] at hdel
      have hrest := ih (h.deliver hm hready) hauth hacc'
        (fun a ha => hsent a (List.mem_cons_of_mem _ ha)) hdel
      rwa [hself, List.append_assoc, List.singleton_append] at hrest

end Acceptance

/-! ## Any number of replicas -/

/-- The replicas of a common genesis. Beside them runs the network of their broadcasters alone,
with its record of what was sent, delivered and returned. -/
structure Replicas where
  replica : AccountId → Replica
  net : CausalNet Transfer
  rejected : List (Transfer × Reject)

/-- A certificate is submitted to a replica, or reaches it. -/
inductive ReplicaOp where
  | submit (p recipient : AccountId) (amount : Amount)
  | deliver (p : AccountId) (m : CausalMsg Transfer)
deriving DecidableEq

namespace Replicas

def start (genesis : Ledger) : Replicas := ⟨fun p => .new p genesis, .start, []⟩

def step (s : Replicas) : ReplicaOp → Option Replicas
  | .submit p recipient amount =>
    match (s.replica p).submit recipient amount with
    | none => none
    | some (.error _, r) => some { s with replica := update s.replica p r }
    | some (.ok m, r) =>
      (s.net.step (.submit p m.payload)).map fun net =>
        { s with replica := update s.replica p r, net }
  | .deliver p m =>
    match (s.replica p).deliver m with
    | none => none
    | some (outcome, r) =>
      (s.net.step (.receive p m)).map fun net =>
        { replica := update s.replica p r
          net
          rejected := s.rejected ++ outcome.rejected }

/-- What is delivered was submitted. -/
def Genuine (s : Replicas) : ReplicaOp → Prop
  | .submit _ _ _ => True
  | .deliver p m => s.net.Genuine (.receive p m)

structure Inv (genesis : Ledger) (s : Replicas) : Prop where
  me : ∀ p, (s.replica p).me = p
  rcb : ∀ p, (s.replica p).rcb = s.net.peer p
  net : s.net.Inv
  authored : ∀ m past, (m, past) ∈ s.net.sent → Authored genesis m past
  accepts : ∀ p, genesis.Accepts (payloads (s.net.history p))
  ledger : ∀ p, (s.replica p).ledger = genesis.run (payloads (s.net.history p))
  rejected : s.rejected = []

variable {genesis : Ledger} {s s' : Replicas}

theorem inv_start (genesis : Ledger) : Inv genesis (start genesis) where
  me _ := rfl
  rcb _ := rfl
  net := CausalNet.inv_start
  authored m past hm := by cases hm
  accepts _ := trivial
  ledger _ := rfl
  rejected := rfl

/-- The invariant after accepted messages were added to the history of `p`, in the net and in the
ledger. -/
theorem Inv.extend (h : Inv genesis s) {p : AccountId} {out : List (CausalMsg Transfer)}
    {net : CausalNet Transfer} {b : VectorClockBroadcaster Transfer} (hnet : net.Inv)
    (hpeer : net.peer = update s.net.peer p b)
    (hhistory : net.history = update s.net.history p (s.net.history p ++ out))
    (hauthored : ∀ m past, (m, past) ∈ net.sent → Authored genesis m past)
    (haccepts : genesis.Accepts (payloads (s.net.history p ++ out))) :
    Inv genesis
      { s with
        replica := update s.replica p
          ⟨(s.replica p).me, (s.replica p).ledger.run (payloads out), b⟩
        net } where
  net := hnet
  authored := hauthored
  rejected := h.rejected
  me := CausalNet.forall_update (P := fun q (r : Replica) => r.me = q) (h.me p) fun q _ => h.me q
  rcb q := by
    simp only [hpeer]
    by_cases hq : q = p
    · rw [hq, update_self, update_self]
    · rw [update_of_ne hq, update_of_ne hq]
      exact h.rcb q
  accepts := by
    simp only [hhistory]
    exact CausalNet.forall_update (P := fun _ l => genesis.Accepts (payloads l)) haccepts
      fun q _ => h.accepts q
  ledger q := by
    simp only [hhistory]
    by_cases hq : q = p
    · subst hq
      rw [update_self, update_self, payloads_append, Ledger.run_append,
        ← h.ledger q]
    · rw [update_of_ne hq, update_of_ne hq]
      exact h.ledger q

theorem Inv.submit (h : Inv genesis s) {p recipient : AccountId} {amount : Amount}
    (hstep : step s (.submit p recipient amount) = some s') : Inv genesis s' := by
  simp only [step] at hstep
  split at hstep
  · cases hstep
  · next e r hsubmit =>
    rcases Replica.submit_eq_some hsubmit with ⟨e', -, rfl⟩ | ⟨m, b, hc, -⟩
    · cases hstep
      rw [update_eq_self]
      exact h
    · cases hc
  · next m r hsubmit =>
    rcases Replica.submit_eq_some hsubmit with ⟨e', hc, -⟩ | ⟨m', b, hm, hrcb, happly, rfl⟩
    · cases hc
    · cases hm
      obtain ⟨net, hnet, rfl⟩ := Option.map_eq_some_iff.mp hstep
      rw [h.rcb p] at hrcb
      obtain ⟨hstamps, -, hpayload⟩ := CausalNet.submit_stamps (h.net.me p) hrcb
      rw [← hpayload] at hrcb happly ⊢
      have hinv := h.net.submit hnet
      simp only [CausalNet.step, hrcb, Option.map_some, Option.some.injEq] at hnet
      have haccepts : genesis.Accepts (payloads (s.net.history p ++ [m])) := by
        rw [payloads_append, Ledger.accepts_append, ← h.ledger p]
        exact ⟨h.accepts p, happly, trivial⟩
      have hnew : Authored genesis m (s.net.history p) := by
        refine ⟨?_, List.Nodup.of_map _ (h.net.causal.nodup p), h.accepts p, h.ledger p ▸ happly⟩
        rw [hpayload, hstamps.sender]
        exact h.me p
      refine h.extend hinv (by rw [← hnet]) (by rw [← hnet]) ?_ haccepts
      intro m' past hmem
      rw [← hnet] at hmem
      rcases List.mem_append.mp hmem with hold | hlast
      · exact h.authored m' past hold
      · cases List.mem_singleton.mp hlast
        exact hnew

theorem Inv.deliver (hl : genesis.Sound) (h : Inv genesis s) {p : AccountId}
    {m : CausalMsg Transfer} (hm : s.Genuine (.deliver p m))
    (hstep : step s (.deliver p m) = some s') : Inv genesis s' := by
  simp only [step] at hstep
  split at hstep
  · cases hstep
  · next outcome r hdeliver =>
    obtain ⟨⟨out, b⟩, hreceive, he⟩ := Option.map_eq_some_iff.mp hdeliver
    obtain ⟨net, hnet, rfl⟩ := Option.map_eq_some_iff.mp hstep
    rw [h.rcb p] at hreceive
    have hinv := h.net.receive hm hnet
    obtain ⟨-, hsent, hdel, -, -⟩ := h.net.receive_spec hm hreceive
    simp only [CausalNet.step, hreceive, Option.map_some, Option.some.injEq] at hnet
    have haccepts := accepts_delivery hl h.net.causal h.authored (h.accepts p) hsent hdel
    have hready : (s.replica p).ledger.Accepts (payloads out) := by
      have happend := haccepts
      rw [show s.net.causal.history p = s.net.history p from rfl, payloads_append,
        Ledger.accepts_append, ← h.ledger p] at happend
      exact happend.2
    rw [Replica.applyReady_accepts hready] at he
    simp only [Prod.mk.injEq] at he
    obtain ⟨rfl, rfl⟩ := he
    simp only [List.append_nil]
    refine h.extend hinv (by rw [← hnet]) (by rw [← hnet]) ?_ haccepts
    rw [← hnet]
    exact h.authored

theorem inv_of_reachable (hl : genesis.Sound)
    (hs : Reachable step Genuine (start genesis) s) : Inv genesis s := by
  refine hs.invariant (inv_start genesis) ?_
  intro s op s' _ hI hop hstep
  cases op with
  | submit p recipient amount => exact hI.submit hstep
  | deliver p m => exact hI.deliver hl hop hstep

end Replicas

/-- From one genesis with a representable supply, under any interleaving of submits and deliveries:
no delivered transfer is rejected; replicas that have submitted or been handed the same messages
have equal ledgers, and so do replicas at which everything that others submitted has arrived. -/
theorem replicas_converge {genesis : Ledger} (hl : genesis.Sound) {s : Replicas}
    (hs : Reachable Replicas.step Replicas.Genuine (.start genesis) s) :
    s.rejected = [] ∧
    (∀ p q, (∀ m, m ∈ s.net.history p ↔ m ∈ s.net.history q) →
      (s.replica p).ledger = (s.replica q).ledger) ∧
    ∀ p q, (∀ m, s.net.causal.Sent m → m.sender ≠ p → m ∈ s.net.arrived p) →
      (∀ m, s.net.causal.Sent m → m.sender ≠ q → m ∈ s.net.arrived q) →
      (s.replica p).ledger = (s.replica q).ledger := by
  have h := Replicas.inv_of_reachable hl hs
  have hequal : ∀ p q, (∀ m, m ∈ s.net.history p ↔ m ∈ s.net.history q) →
      (s.replica p).ledger = (s.replica q).ledger := by
    intro p q hsame
    have hperm : (s.net.history p).Perm (s.net.history q) :=
      (List.perm_ext_iff_of_nodup (List.Nodup.of_map _ (h.net.causal.nodup p))
        (List.Nodup.of_map _ (h.net.causal.nodup q))).mpr hsame
    rw [h.ledger p, h.ledger q]
    exact (h.accepts p).run_perm (h.accepts q) (hperm.map _)
  refine ⟨h.rejected, hequal, ?_⟩
  have hall : ∀ p, (∀ m, s.net.causal.Sent m → m.sender ≠ p → m ∈ s.net.arrived p) →
      ∀ m, m ∈ s.net.history p ↔ s.net.causal.Sent m := by
    intro p harrived m
    refine ⟨fun hm => ((h.net.causal.mem_history p m).mp hm).1, fun hm => ?_⟩
    refine h.net.closed_mem (S := { a | s.net.causal.Sent a }) ?_ harrived hm hm
    rintro a b - ⟨past, hb, ha⟩
    exact ((h.net.causal.past b past hb a).mp ha).1
  intro p q hp hq
  exact hequal p q fun m => (hall p hp m).trans (hall q hq m).symm

instance (s : Replicas) : (op : ReplicaOp) → Decidable (s.Genuine op)
  | .submit _ _ _ => inferInstanceAs (Decidable True)
  | .deliver p m => inferInstanceAs (Decidable (s.net.Genuine (.receive p m)))

namespace Demo

/-- Alice pays bob 30. -/
def payment : CausalMsg Transfer :=
  ⟨alice, 1, VersionVector.new.set alice 1, ⟨alice, 0, bob, 30⟩⟩

/-- Bob, who had nothing at genesis, pays carol 20 of it. -/
def onward : CausalMsg Transfer :=
  ⟨bob, 1, (VersionVector.new.set alice 1).set bob 1, ⟨bob, 0, carol, 20⟩⟩

/-- Carol hears of the second payment first. -/
def paymentRun : List ReplicaOp :=
  [.submit alice bob 30, .deliver bob payment, .submit bob carol 20, .deliver carol onward,
    .deliver carol payment, .deliver alice onward]

end Demo

open Demo in
theorem replicas_converge_demo :
    ∃ s, Reachable Replicas.step Replicas.Genuine (.start demoLedger) s ∧
      (s.replica carol).ledger.balance carol = 20 ∧ s.rejected = [] ∧
      (s.replica carol).ledger = (s.replica alice).ledger := by
  obtain ⟨s, hs, hbalance, hsame⟩ : ∃ s, Reachable Replicas.step Replicas.Genuine
      (.start demoLedger) s ∧ (s.replica carol).ledger.balance carol = 20 ∧
      s.net.history carol = s.net.history alice :=
    Reachable.of_exec paymentRun (by decide +kernel)
  have hl : demoLedger.Sound := by
    show demoLedger.supply < 2 ^ 128
    decide +kernel
  obtain ⟨hrejected, hequal, -⟩ := replicas_converge hl hs
  exact ⟨s, hs, hbalance, hrejected, hequal carol alice fun m => by rw [hsame]⟩

end P2P333.Transfer333
