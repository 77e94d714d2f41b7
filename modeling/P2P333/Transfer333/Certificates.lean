import P2P333.Transfer333.Network
import P2P333.Transfer333.VoteSafety

/-!
# Certificates within one epoch

What the vote locks give a committee with at most `(n - 1) / 3` Byzantine seats, in runs without an
installed epoch change.

Results:
1. `certificates_unique`: two certificates for the same account, sequence number and round carry the
   same transfer.
2. `transfers_agree`: two honest authorities apply the same transfer for a sequence number, in runs
   where an authority votes at a second round only for the transfer that it has voted for.
   `transfers_diverge`: without that condition a second round splits two honest authorities.
3. `finality_unique`: two effect certificates for one slot name the same order.
-/

namespace P2P333.Transfer333

open Std Lib

section Certificates

variable [Crypto]

/-! ## Runs without an installed epoch change -/

def Op.isInstall : Op → Bool
  | .installEpochCert _ _ _ => true
  | _ => false

namespace Node

/-- Without an install nothing moves the trust root. -/
structure Settled (cfg : Config) (n : Node) (y : Authority) : Prop where
  live : n.live.committeeId = cfg.committeeId ∧ n.live.epochState.isInstalling = false
  recovered : y.committeeId = cfg.committeeId ∧ y.epochState.isInstalling = false

theorem settled_pending {op : Op} {r : JournalRecord} {x y y' : Authority}
    {cid : CommitteeId} (hop : op.isInstall = false) (hp : x.Pending op r)
    (hy : y.replayRecord r = .ok y')
    (h : y.committeeId = cid ∧ y.epochState.isInstalling = false) :
    y'.committeeId = cid ∧ y'.epochState.isInstalling = false := by
  cases hp with
  | locked hcan => cases hy; exact h
  | confirmed hcan =>
    obtain ⟨-, rfl⟩ := Authority.replayRecord_confirmed_inv hy
    exact h
  | epochFence hcan => cases hy; exact ⟨h.1, rfl⟩
  | epochInstalled hacc hidle => cases hop

theorem settled_pair (cfg : Config) :
    Pair cfg (fun _ op => op.isInstall = false) (Settled cfg) where
  start := ⟨⟨rfl, rfl⟩, rfl, rfl⟩
  stable _ h := h
  complete _ _ _ hc h := by
    obtain ⟨_, _, _, hs, -⟩ := Authority.isInstalling_of_covered hc
    have hidle := h.live.2
    rw [hs] at hidle
    cases hidle
  vote _ _ _ _ _ _ h := ⟨h.live, h.recovered⟩
  commit _ _ hop hp _ hx hy h := by
    have hlive := settled_pending hop hp hx h.live
    exact ⟨hlive, settled_pending hop hp hy h.recovered⟩
  lost _ _ _ _ _ _ h := ⟨h.live, h.recovered⟩
  kept _ _ hop _ hp _ hy h := ⟨h.live, settled_pending hop hp hy h.recovered⟩
  poison h := ⟨h.live, h.recovered⟩
  epochVote _ _ _ _ h := ⟨h.live, h.recovered⟩
  attest _ _ _ h := ⟨h.live, h.recovered⟩
  compact _ _ _ h := ⟨h.live, rfl, rfl⟩
  crash _ _ _ h := ⟨h.recovered, h.recovered⟩

/-- A run without an installed epoch change keeps every promise. -/
theorem keepsPromises_of_settled {cfg : Config} {ok : Node → Op → Prop} {n : Node}
    (hok : ∀ n op, ok n op → op.isInstall = false)
    (h : Reachable (step cfg) ok (start cfg) n) :
    Reachable (step cfg) (KeepsPromises cfg) (start cfg) n := by
  refine h.strengthen (I := fun n => n.live.committeeId = cfg.committeeId) ?_ ?_
  · intro m hm
    obtain ⟨-, y, -, hsettled⟩ := pair_invariant (settled_pair cfg) (hm.mono hok)
    exact hsettled.live.1
  · intro m op hm hop
    cases op with
    | installEpochCert cert old io => cases hok _ _ hop
    | compactJournal io => exact hm
    | _ => trivial

end Node

/-! ## Certificate uniqueness -/

namespace Deployment

/-- The steps of the honest authorities, without installs. -/
def WithinEpoch (d : Deployment) (_ : Net) (step : AuthorityId × Op) : Prop :=
  step.1 ∈ d.honest ∧ step.2.isInstall = false

instance (d : Deployment) (net : Net) (step : AuthorityId × Op) :
    Decidable (d.WithinEpoch net step) := inferInstanceAs (Decidable (_ ∧ _))

end Deployment

/-- Certificate uniqueness within one epoch. The honest authorities may crash at any point, lose
writes and compact their logs. -/
theorem certificates_unique {d : Deployment} {net : Net}
    (h : Reachable d.step d.WithinEpoch d.start net) {c : Committee} (hf : d.WithinBudget c)
    {cert cert' : Certificate} (hc : cert.validate c = .ok ()) (hc' : cert'.validate c = .ok ())
    (hu : d.Unforged net c cert) (hu' : d.Unforged net c cert')
    (hsender : cert.order.transfer.sender = cert'.order.transfer.sender)
    (hseq : cert.order.transfer.fromSeq = cert'.order.transfer.fromSeq)
    (hround : cert.order.round = cert'.order.round) :
    cert.order.transfer = cert'.order.transfer := by
  obtain ⟨a, -, ⟨w, e, hw, hcid, ht, hr⟩, ⟨w', e', hw', hcid', ht', hr'⟩⟩ :=
    (Deployment.quorate_of_valid (Certificate.validate_ok hc) hu).common hf
      (Deployment.quorate_of_valid (Certificate.validate_ok hc') hu')
  have hlocal := Deployment.component (fun _ _ op => op.isInstall = false)
    (fun _ _ _ hok => hok.2) h a
  obtain ⟨-, y, -, hpromises⟩ := Node.pair_invariant (Node.promises_pair (d.config a))
    (Node.keepsPromises_of_settled (fun _ _ hop => hop) hlocal)
  rw [← ht, ← ht']
  refine hpromises.consistent w e w' e' hw hw' (hcid.trans hcid'.symm) ?_
  simp only [Vote.slot, ht, ht', hr, hr', hsender, hseq, hround]

/-! ## One transfer for each sequence number -/

namespace Authority

/-- The checks of `handle`: the authority is up and open, the owner signed, and the lock of the slot
is the order's or is free for it. -/
structure Signable (x : Authority) (order : SignedTransfer) : Prop where
  unpoisoned : x.poisoned = false
  opened : x.epochState = .active ∨ x.installCovered = true
  verified : order.verify x.policy = .ok ()
  lock : x.locked[slot order]? = some order ∨
    x.locked[slot order]? = none ∧ order.transfer.amount ≠ 0 ∧
      x.ledger.preflight order.transfer = .ok ()

instance (x : Authority) (order : SignedTransfer) : Decidable (x.Signable order) :=
  decidable_of_iff (x.poisoned = false ∧ (x.epochState = .active ∨ x.installCovered = true) ∧
    order.verify x.policy = .ok () ∧ (x.locked[slot order]? = some order ∨
      x.locked[slot order]? = none ∧ order.transfer.amount ≠ 0 ∧
        x.ledger.preflight order.transfer = .ok ()))
    ⟨fun ⟨h1, h2, h3, h4⟩ => ⟨h1, h2, h3, h4⟩,
      fun h => ⟨h.unpoisoned, h.opened, h.verified, h.lock⟩⟩

/-- The vote is the answer to an order that passes the checks, under the authority's root. -/
structure Signs (x : Authority) (order : SignedTransfer) (v : Vote) : Prop where
  signable : x.Signable order
  transfer : v.transfer = order.transfer
  round : v.round = order.round
  root : x.root = some v.committeeId

variable {x : Authority} {order : SignedTransfer} {io : Io} {v : Vote}

theorem committeeId_of_root {cid : CommitteeId} (hidle : x.epochState.isInstalling = false)
    (h : x.root = some cid) : cid = x.committeeId := by
  unfold root at h
  cases hs : x.epochState with
  | active =>
    simp only [hs, Option.some.injEq] at h
    exact h.symm
  | fencing p => simp [hs] at h
  | installing cert next fd =>
    rw [hs] at hidle
    cases hidle

theorem lock_of_opened {r : Except AuthorityError Vote × Authority} (h : x.Opened order io r)
    (hr : r.1 = .ok v) :
    order.verify x.policy = .ok () ∧ (x.locked[slot order]? = some order ∨
      x.locked[slot order]? = none ∧ order.transfer.amount ≠ 0 ∧
        x.ledger.preflight order.transfer = .ok ()) ∧
      v.transfer = order.transfer ∧ v.round = order.round ∧ v.committeeId = x.committeeId := by
  cases h with
  | refused e => cases hr
  | held hv hheld =>
    cases hr
    exact ⟨hv, .inl hheld, rfl, rfl, rfl⟩
  | stored hcan =>
    cases hr
    exact ⟨hcan.verified, .inr ⟨hcan.free, hcan.positive, hcan.admitted⟩, rfl, rfl, rfl⟩
  | failed hcan e kept hio => cases hr

/-- `handle` answers with a vote for an order that passes its checks. -/
theorem signs_of_handle (h : (x.handle order io).1 = .ok v) : x.Signs order v := by
  unfold handle gate at h
  cases hp : x.poisoned with
  | true =>
    rw [hp] at h
    cases h
  | false =>
    simp only [hp, Bool.false_eq_true, if_false] at h
    cases hs : x.epochState with
    | active =>
      simp only [hs] at h
      obtain ⟨hv, hlock, ht, hround, hcid⟩ := lock_of_opened (handleOpen_spec hp hs order io) h
      have hroot : x.root = some v.committeeId := by
        rw [hcid]
        simp only [root, hs]
      exact ⟨⟨hp, .inl hs, hv, hlock⟩, ht, hround, hroot⟩
    | fencing p =>
      simp only [hs] at h
      cases h
    | installing cert next fd =>
      simp only [hs] at h
      cases hc : x.installCovered with
      | false =>
        simp only [hc, Bool.false_eq_true, if_false] at h
        cases h
      | true =>
        simp only [hc, if_true] at h
        -- completing the install touches neither the locks nor the ledger
        have hp' : x.completeInstall.poisoned = false := by
          unfold completeInstall
          split <;> exact hp
        have hsync := x.synced_completeInstall
        obtain ⟨hv, hlock, ht, hround, hcid⟩ :=
          lock_of_opened (handleOpen_spec hp' x.completeInstall_active order io) h
        rw [hsync.locked, hsync.ledger] at hlock
        have hroot : x.root = some v.committeeId := by
          rw [← root_completeInstall hc, hcid]
          simp only [root, x.completeInstall_active]
        exact ⟨⟨hp, .inr hc, hsync.policy ▸ hv, hlock⟩, ht, hround, hroot⟩

end Authority

namespace Node

/-- The votes that the authority has cast. -/
def votes (n : Node) : List Vote :=
  n.history.filterMap fun
    | .voted v _ => some v
    | _ => none

/-- Its votes at a slot, whatever their round and committee. -/
def votesAt (n : Node) (account : AccountId) (seq : U64) : List Vote :=
  n.votes.filter fun v => v.transfer.sender = account ∧ v.transfer.fromSeq = seq

/-- The condition on a step: an order that passes the checks of `handle` carries the transfer that
the authority has voted for at the other rounds of its sequence number. -/
def OneTransfer (n : Node) : Op → Prop
  | .handle order _ => n.live.Signable order →
    ∀ v ∈ n.votesAt order.transfer.sender order.transfer.fromSeq, v.round ≠ order.round →
      v.transfer = order.transfer
  | _ => True

instance (n : Node) : ∀ op, Decidable (n.OneTransfer op)
  | .handle _ _ => inferInstanceAs (Decidable (_ → _))
  | .confirm _ _ _ _ _ | .fence _ _ | .signEpochVote | .installEpochCert _ _ _ | .attest _ _
  | .compactJournal _ | .crash => .isTrue trivial

variable {cfg : Config} {account : AccountId} {seq : U64} {n n' : Node} {v : Vote}

omit [Crypto] in
theorem mem_votes : v ∈ n.votes ↔ ∃ e, .voted v e ∈ n.history := by
  unfold votes
  rw [List.mem_filterMap]
  constructor
  · rintro ⟨ev, hev, h⟩
    cases ev with
    | voted w e => exact ⟨e, Option.some.inj h ▸ hev⟩
    | _ => cases h
  · rintro ⟨e, hev⟩
    exact ⟨_, hev, rfl⟩

omit [Crypto] in
theorem mem_votesAt :
    v ∈ n.votesAt account seq ↔
      (∃ e, .voted v e ∈ n.history) ∧ v.transfer.sender = account ∧ v.transfer.fromSeq = seq := by
  simp only [votesAt, List.mem_filter, mem_votes, decide_eq_true_eq]

theorem history_stepHandle_ok {order : SignedTransfer} {io : Io}
    (hr : (n.live.handle order io).1 = .ok v) : (n.stepHandle order io).history =
      n.history ++ [.voted v (n.live.handle order io).2.epoch] := by
  unfold stepHandle
  generalize n.live.handle order io = p at hr ⊢
  obtain ⟨r, x⟩ := p
  cases hr
  rfl

theorem history_stepHandle_error {order : SignedTransfer} {io : Io} {err : AuthorityError}
    (hr : (n.live.handle order io).1 = .error err) :
    (n.stepHandle order io).history = n.history ++ [] := by
  unfold stepHandle
  generalize n.live.handle order io = p at hr ⊢
  obtain ⟨r, x⟩ := p
  cases hr
  rfl

theorem history_subset_of_step {op : Op} (h : step cfg n op = some n') :
    n.history ⊆ n'.history := by
  obtain ⟨events, heq, -⟩ := emits_of_step h
  rw [heq]
  exact List.subset_append_left _ _

/-- A vote that a step adds answers an order that passed the checks. -/
theorem voted_of_step {op : Op} (h : step cfg n op = some n') {e : U64}
    (hv : .voted v e ∈ n'.history) :
    .voted v e ∈ n.history ∨ ∃ order io, op = .handle order io ∧ n.live.Signs order v := by
  obtain ⟨events, heq, hemits⟩ := emits_of_step h
  rw [heq] at hv
  rcases List.mem_append.mp hv with hv | hev
  · exact .inl hv
  · cases hemits _ hev with
    | @voted order io =>
      cases h
      cases hr : (n.live.handle order io).1 with
      | error err =>
        rw [history_stepHandle_error hr] at heq
        rw [← List.append_cancel_left heq] at hev
        cases hev
      | ok w =>
        rw [history_stepHandle_ok hr] at heq
        rw [← List.append_cancel_left heq] at hev
        cases List.mem_singleton.mp hev
        exact .inr ⟨order, io, rfl, Authority.signs_of_handle hr⟩

/-- The votes of an authority are under one committee, and those about one sequence number are for
one transfer. -/
def OneVote (cfg : Config) (n : Node) : Prop :=
  ∀ v e, .voted v e ∈ n.history → v.committeeId = cfg.committeeId ∧
    ∀ w ∈ n.votesAt v.transfer.sender v.transfer.fromSeq, w.transfer = v.transfer

/-- In a run under the condition the votes of all rounds agree. Two votes of one round agree by
their lock, which every run keeps. -/
theorem oneVote_of_reachable
    (h : Reachable (step cfg) (fun n op => op.isInstall = false ∧ n.OneTransfer op) (start cfg) n) :
    OneVote cfg n := by
  refine h.invariant (I := OneVote cfg) (fun v e hv => (by cases hv)) ?_
  intro n op n' hreach ih hok hstep
  obtain ⟨-, y, -, hsettled⟩ :=
    pair_invariant (settled_pair cfg) (hreach.mono fun _ _ hop => hop.1)
  obtain ⟨-, z, -, hpromises⟩ := pair_invariant (promises_pair cfg)
    (keepsPromises_of_settled (fun _ _ hop => hop.1) (hreach.tail hok hstep))
  have hcid : ∀ v e, .voted v e ∈ n'.history → v.committeeId = cfg.committeeId := by
    intro v e hv
    rcases voted_of_step hstep hv with hold | ⟨order, io, -, hsigns⟩
    · exact (ih v e hold).1
    · rw [← hsettled.live.1]
      exact Authority.committeeId_of_root hsettled.live.2 hsigns.root
  -- a new vote against an old one: at the same round by the lock, at another one by the condition
  have hnew : ∀ v e w k, .voted v e ∈ n'.history → .voted w k ∈ n.history →
      w.transfer.sender = v.transfer.sender → w.transfer.fromSeq = v.transfer.fromSeq →
      (∃ order io, op = .handle order io ∧ n.live.Signs order v) → w.transfer = v.transfer := by
    rintro v e w k hv hw hsender hseq ⟨order, io, rfl, hsigns⟩
    by_cases hround : w.round = v.round
    · refine hpromises.consistent w k v e (history_subset_of_step hstep hw) hv ?_ ?_
      · exact (hcid w k (history_subset_of_step hstep hw)).trans (hcid v e hv).symm
      · simp only [Vote.slot, hsender, hseq, hround]
    · rw [hsigns.transfer] at hsender hseq ⊢
      exact hok.2 hsigns.signable w (mem_votesAt.mpr ⟨⟨k, hw⟩, hsender, hseq⟩)
        fun hr => hround (hr.trans hsigns.round.symm)
  intro v e hv
  refine ⟨hcid v e hv, fun w hw => ?_⟩
  obtain ⟨⟨k, hwev⟩, hsender, hseq⟩ := mem_votesAt.mp hw
  rcases voted_of_step hstep hv with hold | hvnew
  · rcases voted_of_step hstep hwev with hwold | hwnew
    · exact (ih v e hold).2 w (mem_votesAt.mpr ⟨⟨k, hwold⟩, hsender, hseq⟩)
    · exact (hnew w k v e hwev hold hsender.symm hseq.symm hwnew).symm
  · rcases voted_of_step hstep hwev with hwold | ⟨order', io', hop', hsigns'⟩
    · exact hnew v e w k hv hwold hsender hseq hvnew
    · obtain ⟨order, io, hop, hsigns⟩ := hvnew
      cases hop.symm.trans hop'
      rw [hsigns.transfer, hsigns'.transfer]

end Node

namespace Deployment

/-- The condition on the steps of a run. -/
def OneTransferPerSeq (d : Deployment) (s : Scope) (net : Net) (step : AuthorityId × Op) : Prop :=
  d.WithinEpoch net step ∧ d.Delivers s net step ∧ (net step.1).OneTransfer step.2

instance (d : Deployment) (s : Scope) (net : Net) (step : AuthorityId × Op) :
    Decidable (d.OneTransferPerSeq s net step) := inferInstanceAs (Decidable (_ ∧ _ ∧ _))

/-- Without installs, everything is applied under the root that the authority was constructed
with. -/
theorem applied_root {d : Deployment} {ok : Net → AuthorityId × Op → Prop}
    (hok : ∀ net step, ok net step → d.WithinEpoch net step) {net : Net}
    (h : Reachable d.step ok d.start net) {a : AuthorityId} {cert : Certificate}
    {verifier : Committee} {e : U64} (happ : .applied cert verifier e ∈ (net a).history) :
    a ∈ d.honest ∧ verifier.id = (d.config a).committeeId := by
  revert a cert verifier e
  refine h.invariant (I := fun net => ∀ {a : AuthorityId} {cert : Certificate}
    {verifier : Committee} {e : U64}, .applied cert verifier e ∈ (net a).history →
      a ∈ d.honest ∧ verifier.id = (d.config a).committeeId) ?_ ?_
  · intro a cert verifier e happ
    cases happ
  · rintro net ⟨b, op⟩ net' hreach ih hstep hnet a cert verifier e happ
    rcases (emits_of_step hnet a).2 _ happ with hold | ⟨rfl, hemit⟩
    · exact ih hold
    · cases hemit with
      | applied hcan =>
        have hlocal := component (fun _ _ op => op.isInstall = false)
          (fun _ _ _ h => (hok _ _ h).2) hreach a
        obtain ⟨-, y, -, hsettled⟩ := Node.pair_invariant (Node.settled_pair _) hlocal
        exact ⟨(hok _ _ hstep).1, hcan.root.trans hsettled.live.1⟩

end Deployment

/-- No double spend between honest authorities, within one epoch: two of them that applied an order
for the same sequence number applied the same transfer, if nobody honest votes for two transfers at
two rounds of one sequence number. -/
theorem transfers_agree {d : Deployment} {s : Scope} (hs : s.Injective) {c : Committee}
    (hc : c ∈ s.committees) (hf : d.WithinBudget c)
    (hroot : ∀ a ∈ d.honest, (d.config a).committeeId = c.id) {net : Net}
    (h : Reachable d.step (d.OneTransferPerSeq s) d.start net) {a a' : AuthorityId}
    {cert cert' : Certificate} {verifier verifier' : Committee} {e e' : U64}
    (happ : .applied cert verifier e ∈ (net a).history)
    (happ' : .applied cert' verifier' e' ∈ (net a').history)
    (hsender : cert.order.transfer.sender = cert'.order.transfer.sender)
    (hseq : cert.order.transfer.fromSeq = cert'.order.transfer.fromSeq) :
    cert.order.transfer = cert'.order.transfer := by
  -- both were applied from quorums of `c`
  have hquorate : ∀ {a cert verifier e}, .applied cert verifier e ∈ (net a).history →
      d.Quorate c fun b => (net b).Cast verifier.id cert.order.transfer cert.order.round := by
    intro a cert verifier e happ
    obtain ⟨hhonest, hid⟩ := Deployment.applied_root (fun _ _ h => h.1) h happ
    obtain ⟨hmem, hq⟩ := Deployment.receipts (fun _ _ h => h.2.1) h happ
    exact hq.of_members (s.members_eq hs hmem hc (hid.trans (hroot a hhonest)))
  obtain ⟨b, -, ⟨w, k, hw, -, ht, -⟩, ⟨w', k', hw', -, ht', -⟩⟩ :=
    (hquorate happ).common hf (hquorate happ')
  have hone := Node.oneVote_of_reachable <|
    Deployment.component (fun _ n op => op.isInstall = false ∧ n.OneTransfer op)
      (fun _ _ _ hok => ⟨hok.1.2, hok.2.2⟩) h b
  rw [← ht, ← ht']
  exact (hone w' k' hw').2 w
    (Node.mem_votesAt.mpr ⟨⟨k, hw⟩, by rw [ht, ht', hsender], by rw [ht, ht', hseq]⟩)

/-! ## Finality -/

namespace Node

/-- Attestations come from confirmed slots, and a confirmed slot keeps its order. -/
structure Attests (n : Node) (y : Authority) : Prop where
  confirmed : ∀ a, .attested a ∈ n.history →
    n.live.confirmed[(a.account, a.seq)]? = some a.orderId
  durable : ∀ (k : AccountId × U64) (o : Digest),
    n.live.confirmed[k]? = some o → y.confirmed[k]? = some o

/-- A record never replaces a confirmed order. -/
theorem confirmed_pending {op : Op} {r : JournalRecord} {x y y' : Authority}
    (hp : x.Pending op r) (hsync : x.Synced y) (hy : y.replayRecord r = .ok y')
    {k : AccountId × U64} {o : Digest} (ho : y.confirmed[k]? = some o) :
    y'.confirmed[k]? = some o := by
  cases hp with
  | locked hcan => cases hy; exact ho
  | @confirmed _ cert verifier committee observer io hcan =>
    obtain ⟨-, rfl⟩ := Authority.replayRecord_confirmed_inv hy
    have hne : (cert.order.transfer.sender, cert.order.transfer.fromSeq) ≠ k := by
      rintro rfl
      rw [hsync.confirmed, hcan.fresh] at ho
      cases ho
    unfold Authority.spend
    rw [OrdMap.getElem?_insert_of_ne _ hne]
    exact ho
  | epochFence hcan => cases hy; exact ho
  | epochInstalled hacc hidle =>
    obtain ⟨next, -, rfl⟩ := Authority.replayRecord_epochInstalled_inv hy
    split <;> exact ho

omit [Crypto] in
theorem Attests.append {n : Node} {y : Authority} {ev : Event} (h : Attests n y)
    (hev : ∀ a, ev = .attested a → n.live.confirmed[(a.account, a.seq)]? = some a.orderId) :
    Attests { n with history := n.history ++ [ev] } y := by
  refine ⟨fun a ha => ?_, h.durable⟩
  rcases List.mem_append.mp ha with ha | ha
  · exact h.confirmed a ha
  · exact hev a (List.mem_singleton.mp ha).symm

theorem confirmed_of_attestationFor {x : Authority} {account : AccountId} {seq : U64}
    {a : EffectAttestation} (h : x.attestationFor account seq = some a) :
    x.confirmed[(a.account, a.seq)]? = some a.orderId := by
  obtain ⟨orderId, hget, rfl⟩ := Option.map_eq_some_iff.mp h
  exact hget

theorem attests_pair (cfg : Config) : Pair cfg (fun _ _ => True) Attests where
  start := ⟨fun a h => (by cases h), fun k o h => h⟩
  stable _ h := h
  complete {n _} _ _ _ _ h := by
    have hsync := n.live.synced_completeInstall
    refine ⟨fun a ha => ?_, fun k o ho => ?_⟩
    · rw [hsync.confirmed]
      exact h.confirmed a ha
    · rw [hsync.confirmed] at ho
      exact h.durable k o ho
  vote _ _ _ _ _ _ h := h.append fun a ha => by cases ha
  commit _ _ _ hp hsync hx hy h := by
    obtain ⟨y'', hy'', hsync'⟩ := hsync.replayRecord hx
    obtain rfl := Except.ok.inj (hy.symm.trans hy'')
    refine ⟨fun a ha => ?_, fun k o ho => ?_⟩
    · exact confirmed_pending hp (.refl _) hx (h.confirmed a (mem_of_signed ha nofun))
    · rw [hsync'.confirmed]
      exact ho
  lost _ _ _ _ _ _ h := ⟨h.confirmed, h.durable⟩
  kept _ _ _ _ hp hsync hy h :=
    ⟨h.confirmed, fun k o ho => confirmed_pending hp hsync hy (h.durable k o ho)⟩
  poison h := ⟨h.confirmed, h.durable⟩
  epochVote _ _ _ _ h := h.append fun a ha => by cases ha
  attest _ _ ha h := h.append fun b hb => by
    cases hb
    exact confirmed_of_attestationFor ha
  compact _ _ _ h := ⟨h.confirmed, fun k o ho => ho⟩
  crash _ _ _ h := ⟨fun a ha => h.durable _ _ (h.confirmed a ha), fun k o ho => ho⟩

end Node

/-- Client finality is unique: two effect certificates for one slot name the same order. The honest
authorities may take any steps, fail-stop and crash. -/
theorem finality_unique {d : Deployment} {net : Net}
    (h : Reachable d.step (fun _ step => step.1 ∈ d.honest) d.start net) {c : Committee}
    (hf : d.WithinBudget c) {account : AccountId} {seq : U64} {orderId orderId' : Digest}
    {attestations attestations' : List EffectAttestation} {cert cert' : EffectCert}
    (hc : EffectCert.assemble account seq orderId attestations c = some cert)
    (hc' : EffectCert.assemble account seq orderId' attestations' c = some cert')
    (hu : d.UnforgedEffects net c attestations) (hu' : d.UnforgedEffects net c attestations') :
    cert.orderId = cert'.orderId := by
  obtain ⟨a, -, ⟨b, hb, hacc, hseq, horder⟩, ⟨b', hb', hacc', hseq', horder'⟩⟩ :=
    (Deployment.quorate_of_assemble hc hu).common hf (Deployment.quorate_of_assemble hc' hu')
  obtain ⟨-, y, -, hattests⟩ := Node.pair_invariant (Node.attests_pair (d.config a))
    (Deployment.component (fun _ _ _ => True) (fun _ _ _ _ => trivial) h a)
  have hget := hattests.confirmed b hb
  have hget' := hattests.confirmed b' hb'
  rw [hacc, hseq, horder] at hget
  rw [hacc', hseq', horder'] at hget'
  rw [(EffectCert.assemble_eq_some hc).1, (EffectCert.assemble_eq_some hc').1]
  exact Option.some.inj (hget.symm.trans hget')

end Certificates

namespace Demo

def keyOf (a : AuthorityId) : SigningKey := (quadRoster.lookup a).getD (key 99)

/-- The listed authorities are honest, and the trust root of everybody is `c`. -/
def deployment (honest : List AuthorityId) (c : Committee) : Deployment where
  honest := honest.toFinset
  config a := config a (keyOf a) c
  named _ := rfl

/-- Three honest members of `quad`. -/
def trio : Deployment := deployment [a0, a1, a2] quad

/-- The same transfer as `toBob`, signed for the next round. -/
def toBobAgain : SignedTransfer := order bob 30 1

/-- Another transfer of the same sequence number, signed for the next round. -/
def toCarolNext : SignedTransfer := order carol 40 1

def votesFor (o : SignedTransfer) (voters : List AuthorityId) : List (AuthorityId × Op) :=
  voters.map fun a => (a, .handle o .stored)

def confirms (a : AuthorityId) (cert : Certificate) : AuthorityId × Op :=
  (a, .confirm cert quad quad false .stored)

/-- Three votes, a crash of one of the voters, and its vote again. -/
def voteRun : List (AuthorityId × Op) :=
  votesFor toBob [a0, a1, a2] ++ [(a1, .crash), (a1, .handle toBob .stored)]

/-- Certificates for one transfer at two rounds, applied by two authorities. -/
def sameTransferRun : List (AuthorityId × Op) :=
  votesFor toBob [a0, a1, a2] ++ votesFor toBobAgain [a0, a1, a2] ++
    [confirms a0 (certify quad (quadRoster.take 3) toBob),
      confirms a1 (certify quad (quadRoster.take 3) toBobAgain)]

/-- Certificates for two transfers at two rounds, applied by two authorities. -/
def divergingRun : List (AuthorityId × Op) :=
  votesFor toBob [a0, a1, a2, a3] ++ votesFor toCarolNext [a0, a1, a2, a3] ++
    [confirms a0 (certify quad quadRoster toBob), confirms a1 (certify quad quadRoster toCarolNext)]

/-- Votes, confirmations and attestations of three members. -/
def finalRun : List (AuthorityId × Op) :=
  votesFor toBob [a0, a1, a2] ++
    [a0, a1, a2].map (confirms · (certify quad (quadRoster.take 3) toBob)) ++
    [(a1, .crash)] ++ [a0, a1, a2].map fun a => (a, .attest alice 0)

/-- What a member that applied the order attests. -/
def attestation (a : AuthorityId) (o : SignedTransfer) : EffectAttestation where
  authority := a
  committeeId := quad.id
  account := alice
  seq := 0
  orderId := o.orderId
  signature := Crypto.sign (keyOf a) (effectMessage quad.id alice 0 o.orderId)

end Demo

open Demo in
/-- Two certificates with different signers, one of them Byzantine. -/
theorem certificates_unique_demo :
    ∃ net, Reachable trio.step trio.WithinEpoch trio.start net ∧
      (certify quad (quadRoster.take 3) toBob).order.transfer =
        (certify quad (quadRoster.drop 1) toBob).order.transfer := by
  obtain ⟨net, h, hu, hu'⟩ : ∃ net, Reachable trio.step trio.WithinEpoch trio.start net ∧
      trio.Unforged net quad (certify quad (quadRoster.take 3) toBob) ∧
      trio.Unforged net quad (certify quad (quadRoster.drop 1) toBob) :=
    Reachable.of_exec voteRun (by decide +kernel)
  exact ⟨net, h, certificates_unique h (c := quad) (by decide +kernel) (by decide +kernel)
    (by decide +kernel) hu hu' rfl rfl rfl⟩

open Demo in
/-- Two authorities applied the transfer from certificates of two rounds. -/
theorem transfers_agree_demo :
    ∃ net, Reachable trio.step (trio.OneTransferPerSeq ⟨[quad], []⟩) trio.start net ∧
      .applied (certify quad (quadRoster.take 3) toBob) quad 0 ∈ (net a0).history ∧
      .applied (certify quad (quadRoster.take 3) toBobAgain) quad 0 ∈ (net a1).history ∧
      toBob.transfer = toBobAgain.transfer := by
  obtain ⟨net, h, happ, happ'⟩ : ∃ net,
      Reachable trio.step (trio.OneTransferPerSeq ⟨[quad], []⟩) trio.start net ∧
      .applied (certify quad (quadRoster.take 3) toBob) quad 0 ∈ (net a0).history ∧
      .applied (certify quad (quadRoster.take 3) toBobAgain) quad 0 ∈ (net a1).history :=
    Reachable.of_exec sameTransferRun (by decide +kernel)
  exact ⟨net, h, happ, happ',
    transfers_agree (c := quad) (by decide +kernel) (by decide +kernel) (by decide +kernel)
      (fun _ _ => rfl) h happ happ' rfl rfl⟩

open Demo in
/-- Four honest authorities, an owner that signs a second transfer for the next round: one authority
pays bob and another one pays carol, for the same sequence number. -/
theorem transfers_diverge :
    ∃ net, Reachable (deployment [a0, a1, a2, a3] quad).step
      (fun net step => step ∈ divergingRun ∧
        (deployment [a0, a1, a2, a3] quad).WithinEpoch net step ∧
        (deployment [a0, a1, a2, a3] quad).Delivers ⟨[quad], []⟩ net step)
      (deployment [a0, a1, a2, a3] quad).start net ∧
      (deployment [a0, a1, a2, a3] quad).WithinBudget quad ∧
      .applied (certify quad quadRoster toBob) quad 0 ∈ (net a0).history ∧
      .applied (certify quad quadRoster toCarolNext) quad 0 ∈ (net a1).history ∧
      toBob.transfer.sender = toCarolNext.transfer.sender ∧
      toBob.transfer.fromSeq = toCarolNext.transfer.fromSeq ∧
      toBob.transfer ≠ toCarolNext.transfer :=
  Reachable.of_exec divergingRun (by decide +kernel)

open Demo in
/-- Two effect certificates from two sets of attestations. -/
theorem finality_unique_demo :
    ∃ net, Reachable trio.step (fun _ step => step.1 ∈ trio.honest) trio.start net ∧
      ∃ cert cert', EffectCert.assemble alice 0 toBob.orderId
        ([a0, a1, a2].map (attestation · toBob)) quad = some cert ∧
        EffectCert.assemble alice 0 toBob.orderId ([a1, a2, a3].map (attestation · toBob)) quad =
          some cert' ∧ cert.orderId = cert'.orderId := by
  obtain ⟨net, h, hu, hu'⟩ : ∃ net,
      Reachable trio.step (fun _ step => step.1 ∈ trio.honest) trio.start net ∧
      trio.UnforgedEffects net quad ([a0, a1, a2].map (attestation · toBob)) ∧
      trio.UnforgedEffects net quad ([a1, a2, a3].map (attestation · toBob)) :=
    Reachable.of_exec finalRun (by decide +kernel)
  have hc : EffectCert.assemble alice 0 toBob.orderId
      ([a0, a1, a2].map (attestation · toBob)) quad = some ⟨alice, 0, toBob.orderId⟩ := by
    decide +kernel
  have hc' : EffectCert.assemble alice 0 toBob.orderId
      ([a1, a2, a3].map (attestation · toBob)) quad = some ⟨alice, 0, toBob.orderId⟩ := by
    decide +kernel
  exact ⟨net, h, _, _, hc, hc', finality_unique h (c := quad) (by decide +kernel) hc hc' hu hu'⟩

end P2P333.Transfer333
