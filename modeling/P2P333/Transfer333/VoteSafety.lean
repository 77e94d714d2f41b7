import P2P333.Transfer333.Recovery

/-!
# A vote is a promise

A vote for a slot is backed by the lock of that slot, and later by the spent sequence number. The
invariant `Guarded` says so for the live authority and for the one its log recovers to.

Results:
1. `Authority.Guarded`: kept by every act, by crashes at any point and by failing writes, as long as
   installs and compactions meet `Node.KeepsPromises`.
2. `votes_never_contradicted`: in such runs no two votes of one authority under one committee agree
   on the slot and differ in the transfer.
3. `votes_contradicted_by_renewal`: without the condition they do. An install drops the locks, the
   vote binds the roster and not the epoch, and the next roster may be the current one.
-/

namespace P2P333.Transfer333

open Std Lib

section VoteSafety

variable [Crypto]

/-! ## Definitions -/

/-- The slot that a vote is about. -/
def Vote.slot (v : Vote) : Slot := (v.transfer.sender, v.transfer.fromSeq, v.round)

namespace Authority

/-- The committee that the authority votes under, now or as soon as it votes again. A fenced
authority votes again only after an install. -/
def root (x : Authority) : Option CommitteeId :=
  match x.epochState with
  | .active => some x.committeeId
  | .fencing _ => none
  | .installing _ next _ => some next.id

/-- The sequence number of the vote is spent. -/
def Spent (x : Authority) (v : Vote) : Prop :=
  v.transfer.fromSeq.toNat < (x.ledger.nextSeq v.transfer.sender).toNat

instance (x : Authority) (v : Vote) : Decidable (x.Spent v) := inferInstanceAs (Decidable (_ < _))

/-- The slot of the vote is locked until its sequence number is spent. -/
def Backed (x : Authority) (v : Vote) : Prop := x.locked[v.slot]? = none → x.Spent v

/-- A vote under the authority's root is backed, and by the lock of its own transfer. -/
structure Guarded (x : Authority) (v : Vote) : Prop where
  held : x.root = some v.committeeId → ∀ o, x.locked[v.slot]? = some o → o.transfer = v.transfer
  backed : x.root = some v.committeeId → x.Backed v

end Authority

namespace Node

/-- Every vote cast under the committee `id` is for a spent sequence number. -/
def VotesSpent (n : Node) (id : CommitteeId) : Prop :=
  ∀ e ∈ n.history, match e with
    | .voted v _ => v.committeeId = id → n.live.Spent v
    | _ => True

instance (n : Node) (id : CommitteeId) : Decidable (n.VotesSpent id) :=
  @List.decidableBAll _ _ (fun
    | .voted _ _ => inferInstanceAs (Decidable (_ → _))
    | .epochVoted _ | .attested _ | .applied _ _ _ | .installed _ _ _ => .isTrue trivial) n.history

/-- The condition on a step: an accepted install leaves no open vote under its next committee
behind, and a compaction happens under the committee that the authority was constructed with. -/
def KeepsPromises (cfg : Config) (n : Node) : Op → Prop
  | .installEpochCert cert old _ =>
    ∀ next ∈ Committee.withEpoch cert.nextRoster n.live.policy cert.epoch,
      n.live.AcceptsEpochCert cert old next → n.VotesSpent next.id
  | .compactJournal _ => n.live.committeeId = cfg.committeeId
  | _ => True

instance (x : Authority) (cert : EpochCert) (old next : Committee) :
    Decidable (x.AcceptsEpochCert cert old next) :=
  decidable_of_iff (x.poisoned = false ∧ old.id = x.committeeId ∧ cert.epoch = x.epoch + 1 ∧
    Committee.withEpoch cert.nextRoster x.policy cert.epoch = some next ∧
    Authority.checkEpochVotes x.committeeId cert next.id old = .ok ())
    ⟨fun ⟨h1, h2, h3, h4, h5⟩ => ⟨h1, h2, h3, h4, h5⟩,
      fun h => ⟨h.unpoisoned, h.root, h.epoch, h.roster, h.votes⟩⟩

instance (cfg : Config) (n : Node) : ∀ op, Decidable (n.KeepsPromises cfg op)
  | .installEpochCert cert old _ =>
    inferInstanceAs
    (Decidable (∀ next ∈ Committee.withEpoch cert.nextRoster n.live.policy cert.epoch,
      n.live.AcceptsEpochCert cert old next → n.VotesSpent next.id))
  | .compactJournal _ => inferInstanceAs (Decidable (_ = _))
  | .handle _ _ | .confirm _ _ _ _ _ | .fence _ _ | .signEpochVote | .attest _ _ | .crash =>
    .isTrue trivial

/-- No two votes agree on committee and slot and differ in the transfer. -/
def VotesConsistent (n : Node) : Prop :=
  ∀ v e v' e', .voted v e ∈ n.history → .voted v' e' ∈ n.history →
    v.committeeId = v'.committeeId → v.slot = v'.slot → v.transfer = v'.transfer

end Node

/-! ## The lock behind a vote -/

namespace Authority

variable {x y x' y' : Authority} {v : Vote}

omit [Crypto] in
theorem Backed.mono (h : x.Backed v) (hlocked : y.locked = x.locked)
    (hseq : ∀ a, (x.ledger.nextSeq a).toNat ≤ (y.ledger.nextSeq a).toNat) : y.Backed v :=
  fun hfree => Nat.lt_of_lt_of_le (h (hlocked ▸ hfree)) (hseq _)

omit [Crypto] in
theorem Backed.lock {order : SignedTransfer} (h : x.Backed v) :
    { x with locked := x.locked.insert (Transfer333.slot order) order }.Backed v := by
  intro hfree
  by_cases hslot : Transfer333.slot order = v.slot
  · rw [← hslot, ExtTreeMap.getElem?_insert_self] at hfree
    cases hfree
  · rw [OrdMap.getElem?_insert_of_ne _ hslot] at hfree
    exact h hfree

/-- A confirmed order spends its sequence number and leaves the locks of all others. -/
theorem Backed.spend {order : SignedTransfer} (hok : (x.ledger.apply order.transfer).1 = .ok ())
    (h : x.Backed v) : (x.spend order).Backed v := by
  have hmoved := Ledger.apply_moved hok
  obtain ⟨sender, hadmits⟩ := Ledger.apply_eq_ok.mp hok
  have hmono := Ledger.nextSeq_le_apply x.ledger order.transfer
  intro ho
  by_cases hslot : v.slot.1 = order.transfer.sender ∧ v.slot.2.1 = order.transfer.fromSeq
  · have hseq : order.transfer.fromSeq = x.ledger.nextSeq order.transfer.sender :=
      hadmits.seq.trans (Ledger.nextSeq_of_getElem? hadmits.found).symm
    show v.transfer.fromSeq.toNat < (((x.ledger.apply order.transfer).2).nextSeq _).toNat
    rw [show v.transfer.fromSeq = order.transfer.fromSeq from hslot.2,
      show v.transfer.sender = order.transfer.sender from hslot.1, hmoved.seq, hseq]
    exact Nat.lt_succ_self _
  · have hnone : x.locked[v.slot]? = none := by
      cases hl : x.locked[v.slot]? with
      | none => rfl
      | some o =>
        have hkept := getElem?_dropSlots.mpr ⟨hl, hslot⟩
        cases ho.symm.trans hkept
    exact Nat.lt_of_lt_of_le (h hnone) (hmono _)

omit [Crypto] in
/-- The ledger admits no order for a sequence number with a backed vote, unless the vote's own slot
is still locked. -/
theorem Backed.locked_of_preflight {t : Transfer} (h : x.Backed v)
    (hadm : x.ledger.preflight t = .ok ()) (hsender : v.transfer.sender = t.sender)
    (hseq : v.transfer.fromSeq = t.fromSeq) : ∃ o, x.locked[v.slot]? = some o := by
  obtain ⟨sender, hadmits⟩ := Ledger.preflight_eq_ok.mp hadm
  refine Option.ne_none_iff_exists'.mp fun hfree => ?_
  have hspent := h hfree
  unfold Spent at hspent
  rw [hsender, hseq, Ledger.nextSeq_of_getElem? hadmits.found, hadmits.seq] at hspent
  exact Nat.lt_irrefl _ hspent

/-- Guarding only depends on root, locks and sequence numbers, and the latter may grow. -/
theorem Guarded.mono (h : x.Guarded v) (hroot : y.root = x.root) (hlocked : y.locked = x.locked)
    (hseq : ∀ a, (x.ledger.nextSeq a).toNat ≤ (y.ledger.nextSeq a).toNat) : y.Guarded v where
  held hr o ho := h.held (hroot ▸ hr) o (hlocked ▸ ho)
  backed hr := (h.backed (hroot ▸ hr)).mono hlocked hseq

theorem root_completeInstall (hc : x.installCovered = true) : x.completeInstall.root = x.root := by
  obtain ⟨cert, next, fd, hs, -⟩ := isInstalling_of_covered hc
  simp only [root, completeInstall, hs]

theorem guarded_completeInstall (hc : x.installCovered = true) (h : x.Guarded v) :
    x.completeInstall.Guarded v := by
  have hsync := synced_completeInstall x
  exact h.mono (root_completeInstall hc) hsync.locked fun a => by rw [hsync.ledger]

/-- The lock of an admitted order takes a slot that no open vote is about. -/
theorem guarded_lock {order : SignedTransfer} (hfree : x.locked[Transfer333.slot order]? = none)
    (hadm : x.ledger.preflight order.transfer = .ok ()) (h : x.Guarded v) :
    { x with locked := x.locked.insert (Transfer333.slot order) order }.Guarded v := by
  refine ⟨fun hr o ho => ?_, fun hr => (h.backed hr).lock⟩
  by_cases hslot : Transfer333.slot order = v.slot
  · -- a vote about this slot would need the lock that is not there
    have hparts : order.transfer.sender = v.transfer.sender ∧
        order.transfer.fromSeq = v.transfer.fromSeq ∧ order.round = v.round := by
      simpa only [Transfer333.slot, Vote.slot, Prod.mk.injEq] using hslot
    obtain ⟨o', ho'⟩ := (h.backed hr).locked_of_preflight hadm hparts.1.symm hparts.2.1.symm
    rw [hslot, ho'] at hfree
    cases hfree
  · rw [OrdMap.getElem?_insert_of_ne _ hslot] at ho
    exact h.held hr o ho

theorem guarded_spend {order : SignedTransfer}
    (hok : (x.ledger.apply order.transfer).1 = .ok ()) (h : x.Guarded v) :
    (x.spend order).Guarded v :=
  ⟨fun hr o ho => h.held hr o (getElem?_dropSlots.mp ho).1, fun hr => (h.backed hr).spend hok⟩

theorem root_replayRecord_epochInstalled {cert : EpochCert} {next : Committee}
    (hroster : Committee.withEpoch cert.nextRoster x.policy cert.epoch = some next)
    (hx : x.replayRecord (.epochInstalled cert) = .ok x') :
    x'.root = some next.id ∧ x'.locked = ∅ ∧ x'.ledger = x.ledger := by
  rw [replayRecord_epochInstalled hroster] at hx
  obtain rfl := Except.ok.inj hx
  split <;> exact ⟨rfl, rfl, rfl⟩

end Authority

namespace Node

variable {cfg : Config} {op : Op} {n : Node} {r : JournalRecord} {y y' : Authority}

/-- A record that a call is about to write keeps every vote guarded, on the live authority and on
one that agrees with it. -/
theorem guarded_pending (hok : n.KeepsPromises cfg op) (hp : n.live.Pending op r)
    (hsync : n.live.Synced y) (hy : y.replayRecord r = .ok y') {v : Vote} {e : U64}
    (hv : .voted v e ∈ n.history) (h : y.Guarded v) : y'.Guarded v := by
  cases hp with
  | locked hcan =>
    cases hy
    exact Authority.guarded_lock (hsync.locked ▸ hcan.free) (hsync.ledger ▸ hcan.admitted) h
  | confirmed hcan =>
    obtain ⟨happly, rfl⟩ := Authority.replayRecord_confirmed_inv hy
    exact Authority.guarded_spend happly h
  | epochFence hcan =>
    cases hy
    exact ⟨fun hr => (by cases hr), fun hr => (by cases hr)⟩
  | @epochInstalled _ cert old next io hacc hidle =>
    obtain ⟨hroot, hlocked, hledger⟩ :=
      Authority.root_replayRecord_epochInstalled (hsync.policy ▸ hacc.roster) hy
    constructor
    · intro _ o ho
      rw [hlocked] at ho
      cases ho
    · intro hr _
      have hspent : v.committeeId = next.id → n.live.Spent v := hok next hacc.roster hacc _ hv
      have := hspent (Option.some.inj (hr.symm.trans hroot))
      unfold Authority.Spent at this ⊢
      rwa [hledger, hsync.ledger]

theorem root_pending {x' : Authority} (hp : n.live.Pending op r) (hsync : n.live.Synced y)
    (hx : n.live.replayRecord r = .ok x') (hy : y.replayRecord r = .ok y')
    (h : y.root = n.live.root) : y'.root = x'.root := by
  cases hp with
  | locked hcan => cases hx; cases hy; exact h
  | confirmed hcan =>
    obtain ⟨-, rfl⟩ := Authority.replayRecord_confirmed_inv hx
    obtain ⟨-, rfl⟩ := Authority.replayRecord_confirmed_inv hy
    exact h
  | epochFence hcan => cases hx; cases hy; rfl
  | epochInstalled hacc hidle =>
    obtain ⟨hroot, -⟩ := Authority.root_replayRecord_epochInstalled hacc.roster hx
    obtain ⟨hroot', -⟩ :=
      Authority.root_replayRecord_epochInstalled (hsync.policy ▸ hacc.roster) hy
    rw [hroot, hroot']

/-- The invariant: every vote is guarded, live and in the log, and the votes are consistent. -/
structure Promises (n : Node) (y : Authority) : Prop where
  guarded : ∀ v e, .voted v e ∈ n.history → n.live.Guarded v ∧ y.Guarded v
  root : n.live.poisoned = false → y.root = n.live.root
  consistent : n.VotesConsistent

/-- A failed write leaves the live authority's votes guarded: locks and root stay, and the ledger
only moves forward. -/
theorem guarded_failed {x : Authority} {v : Vote} (h : x.Guarded v) (r : JournalRecord)
    (kept : Bool) : (x.failed r kept).Guarded v :=
  h.mono rfl rfl (x.nextSeq_le_failed r kept)

/-- The order that holds the lock of its slot may be signed, again and again. -/
theorem promises_vote {order : SignedTransfer}
    (hactive : n.live.epochState = .active) (hsync : n.live.Synced y)
    (hheld : n.live.locked[slot order]? = some order) (h : Promises n y) :
    Promises { n with history := n.history ++ [.voted (n.live.sign order) n.live.epoch] } y := by
  have hroot : n.live.root = some n.live.committeeId := by
    simp only [Authority.root, hactive]
  have hnew : ∀ z : Authority, z.locked = n.live.locked → z.Guarded (n.live.sign order) := by
    intro z hz
    refine ⟨fun _ o ho => ?_, fun _ ho => ?_⟩
    · rw [hz] at ho
      rw [Option.some.inj (ho.symm.trans hheld)]
      rfl
    · rw [hz] at ho
      cases ho.symm.trans hheld
  -- an earlier vote about the slot is backed by the same lock
  have hagree : ∀ v e, .voted v e ∈ n.history → v.committeeId = n.live.committeeId →
      v.slot = slot order → order.transfer = v.transfer := by
    intro v e hv hcid hslot
    exact (h.guarded v e hv).1.held (hcid ▸ hroot) order (hslot ▸ hheld)
  refine ⟨?_, h.root, ?_⟩
  · intro v e hv
    rcases List.mem_append.mp hv with hv | hv
    · exact h.guarded v e hv
    · cases List.mem_singleton.mp hv
      exact ⟨hnew _ rfl, hnew _ hsync.locked⟩
  · intro v e v' e' hv hv' hcid hslot
    rcases List.mem_append.mp hv with hv | hv <;> rcases List.mem_append.mp hv' with hv' | hv'
    · exact h.consistent v e v' e' hv hv' hcid hslot
    · cases List.mem_singleton.mp hv'
      exact (hagree v e hv hcid hslot).symm
    · cases List.mem_singleton.mp hv
      exact hagree v' e' hv' hcid.symm hslot.symm
    · cases List.mem_singleton.mp hv
      cases List.mem_singleton.mp hv'
      rfl

/-- An event that is not a vote. -/
theorem Promises.append {ev : Event} (h : Promises n y) (hev : ∀ v e, ev ≠ .voted v e) :
    Promises { n with history := n.history ++ [ev] } y := by
  have hold : ∀ {v e}, .voted v e ∈ n.history ++ [ev] → .voted v e ∈ n.history :=
    fun {v e} hv => mem_of_ne hv (hev v e).symm
  exact ⟨fun v e hv => h.guarded v e (hold hv), h.root,
    fun v e v' e' hv hv' => h.consistent v e v' e' (hold hv) (hold hv')⟩

/-- Votes are kept through every act that meets the condition. -/
theorem promises_pair (cfg : Config) : Pair cfg (KeepsPromises cfg) Promises where
  start := ⟨fun v e h => (by cases h), fun _ => rfl, fun v e v' e' h => (by cases h)⟩
  stable _ h := h
  complete _ _ hp hc h :=
    ⟨fun v e hv => ⟨Authority.guarded_completeInstall hc (h.guarded v e hv).1,
    (h.guarded v e hv).2⟩,
      fun _ => (h.root hp).trans (Authority.root_completeInstall hc).symm, h.consistent⟩
  vote hbase hrec hp hactive _ hheld h :=
    promises_vote hactive ((hbase.recovered hrec).2.2 hp) hheld h
  commit hbase hrec hok hp hsync hx hy h := by
    obtain ⟨hunp, -⟩ := hp.replays
    have hroot := root_pending hp hsync hx hy (h.root hunp)
    refine ⟨fun v e hv => ?_, fun _ => hroot, ?_⟩
    · have hold := mem_of_signed hv nofun
      have hlive := guarded_pending hok hp (.refl _) hx hold (h.guarded v e hold).1
      exact ⟨hlive.mono rfl rfl fun _ => Nat.le_refl _,
        guarded_pending hok hp hsync hy hold (h.guarded v e hold).2⟩
    · intro v e v' e' hv hv'
      exact h.consistent v e v' e' (mem_of_signed hv nofun) (mem_of_signed hv' nofun)
  lost _ _ _ _ _ _ h :=
    ⟨fun v e hv => ⟨guarded_failed (h.guarded v e hv).1 _ _, (h.guarded v e hv).2⟩,
      fun hp => (by cases hp), h.consistent⟩
  kept _ _ hok _ hp hsync hy h :=
    ⟨fun v e hv => ⟨guarded_failed (h.guarded v e hv).1 _ _,
      guarded_pending hok hp hsync hy hv (h.guarded v e hv).2⟩,
      fun hp => (by cases hp), h.consistent⟩
  poison h :=
    ⟨fun v e hv => ⟨(h.guarded v e hv).1.mono rfl rfl fun _ => Nat.le_refl _, (h.guarded v e hv).2⟩,
      fun hp => (by cases hp), h.consistent⟩
  epochVote _ _ _ _ h := h.append fun _ _ hev => by cases hev
  attest _ _ _ h := h.append fun _ _ hev => by cases hev
  compact {n _ _ _} _ hok hactive h := by
    -- the snapshot recovers under the constructor's committee
    have hroot : (restored cfg n.live).root = n.live.root := by
      simp only [restored, Authority.root, hactive]
      exact congrArg some hok.symm
    refine ⟨fun v e hv => ⟨?_, ?_⟩, fun _ => hroot, h.consistent⟩
    · exact (h.guarded v e hv).1.mono rfl rfl fun _ => Nat.le_refl _
    · exact (h.guarded v e hv).1.mono hroot rfl fun _ => Nat.le_refl _
  crash _ _ _ h :=
    ⟨fun v e hv => ⟨(h.guarded v e hv).2.mono rfl rfl fun _ => Nat.le_refl _, (h.guarded v e hv).2⟩,
      fun _ => rfl, h.consistent⟩

end Node

end VoteSafety

namespace Demo

def toCarol : SignedTransfer := order carol 40 0

/-- The vote of the only member of `solo`. -/
def soloVote (o : SignedTransfer) : Vote := (config a3 (key 3) solo).authority.sign o

/-- An epoch change of `solo` to the same roster, over the given frontier. -/
def renewal (frontier : Frontier) : EpochCert :=
  certifyEpoch solo solo soloRoster soloRoster 1 frontier

/-- Vote, crash, vote again, apply, and renew the committee when the vote is spent. -/
def keptRun : List Op :=
  [.handle toBob .stored, .crash, .handle toBob .stored,
    .confirm (certify solo soloRoster toBob) solo solo false .stored,
    .installEpochCert (renewal [(alice, 1), (bob, 0)]) solo .stored]

/-- Vote, fence, sign the change to the same roster, install it, and vote again. -/
def renewalRun : List Op :=
  [.handle toBob .stored, .fence (proposal soloRoster 1) .stored, .signEpochVote,
    .installEpochCert (renewal [(alice, 0), (bob, 0)]) solo .stored, .handle toCarol .stored]

end Demo

end P2P333.Transfer333
