import P2P333.Transfer333.Certificates
import P2P333.Transfer333.Preimages

/-!
# One transfer, two orders

A vote binds the transfer and the round of an order, an attestation binds its id, and the id also
hashes the owner's signature. An owner that signs one transfer twice has two orders, and the votes
for either certify both of them. An authority applies the first one it is shown, and from then on
attests that one.

Results:
1. `Node.applies_pair`: an applied order stays confirmed, through crashes and compactions.
2. `attestations_aggregate_iff`: once all honest members of a committee have applied a transfer,
   their attestations make an effect certificate exactly if they applied it with one signature of
   the owner.
3. `attestations_split`: two signatures, and no order is final.
-/

namespace P2P333.Transfer333

open Std Lib

section Attestations

variable [Crypto]

/-- An accepted order names the network and the policy of its verifier. -/
theorem SignedTransfer.verify_ok {o : SignedTransfer} {p : TransferPolicy}
    (h : o.verify p = .ok ()) :
    o.networkId = p.networkId ∧ o.policyId = p.id := by
  unfold verify TransferPolicy.validate at h
  by_cases hnetwork : o.networkId = p.networkId
  · rw [if_neg (not_not.mpr hnetwork)] at h
    by_cases hpolicy : o.policyId = p.id
    · exact ⟨hnetwork, hpolicy⟩
    · rw [if_pos hpolicy] at h
      cases h
  · rw [if_pos hnetwork] at h
    cases h

/-! ## Applied orders -/

namespace Node

/-- An applied order was accepted under the policy, and is the one that its slot confirms. -/
structure Applies (cfg : Config) (n : Node) (y : Authority) : Prop where
  verified : ∀ cert verifier e, .applied cert verifier e ∈ n.history →
    cert.order.verify cfg.policy = .ok ()
  confirmed : ∀ cert verifier e, .applied cert verifier e ∈ n.history →
    n.live.confirmed[(cert.order.transfer.sender, cert.order.transfer.fromSeq)]? =
      some cert.order.orderId
  durable : ∀ (k : AccountId × U64) (o : Digest),
    n.live.confirmed[k]? = some o → y.confirmed[k]? = some o

theorem Applies.append {cfg : Config} {n : Node} {y : Authority} {ev : Event} (h : Applies cfg n y)
    (hev : ∀ cert verifier e, .applied cert verifier e ≠ ev) :
    Applies cfg { n with history := n.history ++ [ev] } y :=
  ⟨fun cert verifier e hmem => h.verified cert verifier e (mem_of_ne hmem (hev cert verifier e)),
    fun cert verifier e hmem => h.confirmed cert verifier e (mem_of_ne hmem (hev cert verifier e)),
    h.durable⟩

/-- The order that a call applies is the one that it confirms. -/
theorem confirmed_of_events {op : Op} {r : JournalRecord} {x x' : Authority} (hp : x.Pending op r)
    (hx : x.replayRecord r = .ok x') {cert : Certificate} {verifier : Committee} {e : U64}
    (hev : .applied cert verifier e ∈ op.events x) :
    cert.order.verify x.policy = .ok () ∧
      x'.confirmed[(cert.order.transfer.sender, cert.order.transfer.fromSeq)]? =
        some cert.order.orderId := by
  cases hp with
  | locked hcan => cases hev
  | epochFence hcan => cases hev
  | confirmed hcan =>
    cases List.mem_singleton.mp hev
    obtain ⟨-, rfl⟩ := Authority.replayRecord_confirmed_inv hx
    exact ⟨hcan.verified, ExtTreeMap.getElem?_insert_self⟩
  | epochInstalled hacc hidle =>
    simp only [Op.events, hacc.roster] at hev
    cases List.mem_singleton.mp hev

theorem applies_pair (cfg : Config) : Pair cfg (fun _ _ => True) (Applies cfg) where
  start := ⟨nofun, nofun, fun _ _ h => h⟩
  stable _ h := h
  complete {n _} _ _ _ _ h := by
    have hsync := n.live.synced_completeInstall
    refine ⟨h.verified, fun cert verifier e hmem => ?_, fun k o ho => ?_⟩
    · rw [hsync.confirmed]
      exact h.confirmed cert verifier e hmem
    · rw [hsync.confirmed] at ho
      exact h.durable k o ho
  vote _ _ _ _ _ _ h := h.append nofun
  commit hbase _ _ hp hsync hx hy h := by
    obtain ⟨y'', hy'', hsync'⟩ := hsync.replayRecord hx
    obtain rfl := Except.ok.inj (hy.symm.trans hy'')
    refine ⟨fun cert verifier e hmem => ?_, fun cert verifier e hmem => ?_, fun k o ho => ?_⟩
    · rcases List.mem_append.mp hmem with hmem | hmem
      · exact h.verified cert verifier e hmem
      · exact hbase.wf.policy ▸ (confirmed_of_events hp hx hmem).1
    · rcases List.mem_append.mp hmem with hmem | hmem
      · exact confirmed_pending hp (.refl _) hx (h.confirmed cert verifier e hmem)
      · exact (confirmed_of_events hp hx hmem).2
    · rw [hsync'.confirmed]
      exact ho
  lost _ _ _ _ _ _ h := ⟨h.verified, h.confirmed, h.durable⟩
  kept _ _ _ _ hp hsync hy h :=
    ⟨h.verified, h.confirmed, fun k o ho => confirmed_pending hp hsync hy (h.durable k o ho)⟩
  poison h := ⟨h.verified, h.confirmed, h.durable⟩
  epochVote _ _ _ _ h := h.append nofun
  attest _ _ _ h := h.append nofun
  compact _ _ _ h := ⟨h.verified, h.confirmed, fun _ _ ho => ho⟩
  crash _ _ _ h := ⟨h.verified, fun cert verifier e hmem =>
    h.durable _ _ (h.confirmed cert verifier e hmem), fun _ _ ho => ho⟩

/-- The node has applied the transfer at the round, with this signature of the owner. -/
def AppliedWith (n : Node) (t : Transfer) (round : U64) (proof : Signature) : Prop :=
  ∃ cert verifier e, .applied cert verifier e ∈ n.history ∧ cert.order.transfer = t ∧
    cert.order.round = round ∧ cert.order.ownerSignature = proof

end Node

/-! ## Statement -/

namespace Deployment

/-- The members that are honest. -/
def honestSeats (d : Deployment) (c : Committee) : List AuthorityId :=
  c.members.keys.filter (d.HonestSeat c)

/-- The attestations that the honest members serve for the slot. -/
def served (d : Deployment) (c : Committee) (net : Net) (account : AccountId) (seq : U64) :
    List EffectAttestation :=
  (d.honestSeats c).filterMap fun a => (net a).live.attestationFor account seq

/-- The honest members attest one order, and their attestations make an effect certificate. -/
def Aggregates (d : Deployment) (c : Committee) (net : Net) (t : Transfer) : Prop :=
  ∃ orderId, (∀ x ∈ d.served c net t.sender t.fromSeq, x.orderId = orderId) ∧
    (EffectCert.assemble t.sender t.fromSeq orderId (d.served c net t.sender t.fromSeq) c).isSome

/-- The orders that have been applied. -/
def applied (d : Deployment) (c : Committee) (net : Net) : List SignedTransfer :=
  (d.honestSeats c).flatMap fun a => (net a).history.filterMap fun
    | .applied cert _ _ => some cert.order
    | _ => none

/-! ## Honest attestations -/

variable {d : Deployment} {c : Committee} {net : Net}

theorem mem_honestSeats {a : AuthorityId} : a ∈ d.honestSeats c ↔ d.HonestSeat c a := by
  rw [honestSeats, List.mem_filter, decide_eq_true_eq]
  refine ⟨And.right, fun h => ⟨List.mem_toFinset.mp (Committee.mem_seats h.2), h⟩⟩

theorem nodup_honestSeats (d : Deployment) (c : Committee) : (d.honestSeats c).Nodup :=
  ExtTreeMap.nodup_keys.filter _

/-- The honest members are a quorum. -/
theorem quorum_le_honestSeats (hf : d.WithinBudget c) : c.quorum ≤ (d.honestSeats c).length := by
  have hseats : c.seats.card = c.size := by
    rw [Committee.seats, List.toFinset_card_of_nodup ExtTreeMap.nodup_keys, ExtTreeMap.length_keys]
    rfl
  have hhonest : (c.seats.filter fun a => d.HonestSeat c a).card = (d.honestSeats c).length := by
    rw [← List.toFinset_card_of_nodup (d.nodup_honestSeats c), honestSeats, List.toFinset_filter]
    simp only [decide_eq_true_eq]
    rfl
  have hsplit := Finset.card_filter_add_card_filter_not (s := c.seats) fun a => d.HonestSeat c a
  unfold WithinBudget faulty at hf
  unfold Committee.quorum quorum
  have hsome := c.size_ne_zero
  rw [if_neg hsome]
  omega

theorem exists_honestSeat (hf : d.WithinBudget c) : ∃ a, d.HonestSeat c a := by
  have hquorum := quorum_le_honestSeats hf
  have hsome := c.size_ne_zero
  unfold Committee.quorum quorum at hquorum
  rw [if_neg hsome] at hquorum
  obtain ⟨a, ha⟩ := List.exists_mem_of_length_pos (l := d.honestSeats c) (by omega)
  exact ⟨a, mem_honestSeats.mp ha⟩

/-- What an honest member that has applied an order serves. -/
theorem attestation_of_applied (h : Reachable d.step d.WithinEpoch d.start net)
    (hroot : ∀ a ∈ d.honest, (d.config a).committeeId = c.id)
    (hsign : ∀ k m, Crypto.verifyStrict (Crypto.verifyingKey k) m (Crypto.sign k m) = true)
    {a : AuthorityId} (hseat : d.HonestSeat c a) {cert : Certificate}
      {verifier : Committee} {e : U64}
    (happ : .applied cert verifier e ∈ (net a).history) :
    ∃ x, (net a).live.attestationFor cert.order.transfer.sender cert.order.transfer.fromSeq =
      some x ∧
      x.authority = a ∧ x.account = cert.order.transfer.sender ∧
      x.seq = cert.order.transfer.fromSeq ∧ x.orderId = cert.order.orderId ∧
        x.isValid c = true := by
  have hlocal := component (fun _ _ op => op.isInstall = false) (fun _ _ _ hok => hok.2) h a
  obtain ⟨hbase, y, -, hsettled⟩ := Node.pair_invariant (Node.settled_pair _) hlocal
  obtain ⟨-, y', -, happlies⟩ := Node.pair_invariant (Node.applies_pair _)
    (hlocal.mono fun _ _ _ => trivial)
  have hid : (net a).live.id = a := hbase.wf.id.trans (d.named a)
  have hcommittee : (net a).live.committeeId = c.id := hsettled.live.1.trans (hroot a hseat.1)
  have hkey : c.keyOf (net a).live.id = some (Crypto.verifyingKey (net a).live.signing) := by
    rw [hid, hbase.wf.signing]
    exact hseat.2
  refine ⟨_, by rw [Authority.attestationFor, happlies.confirmed cert verifier e happ]; rfl, hid,
    rfl,
    rfl, rfl, EffectAttestation.isValid_iff.mpr ⟨hcommittee, _, hkey, hsign _ _⟩⟩

/-- Attestations of one order by the honest members make an effect certificate. -/
theorem assemble_of_served (hf : d.WithinBudget c) {account : AccountId} {seq : U64}
    {orderId : Digest} (h : ∀ a, d.HonestSeat c a → ∃ x,
      (net a).live.attestationFor account seq = some x ∧ x.authority = a ∧ x.account = account ∧
        x.seq = seq ∧ x.orderId = orderId ∧ x.isValid c = true) :
    (∀ x ∈ d.served c net account seq, x.orderId = orderId) ∧
      (EffectCert.assemble account seq orderId (d.served c net account seq) c).isSome := by
  constructor
  · intro x hx
    obtain ⟨a, ha, hserves⟩ := List.mem_filterMap.mp hx
    obtain ⟨x', hx', -, -, -, horder, -⟩ := h a (mem_honestSeats.mp ha)
    cases hserves.symm.trans hx'
    exact horder
  · have hsub : d.honestSeats c ⊆ ((EffectCert.counted account seq orderId
        (d.served c net account seq) c).map (·.authority)).dedup := by
      intro a ha
      obtain ⟨x, hx, rfl, rfl, rfl, rfl, hvalid⟩ := h a (mem_honestSeats.mp ha)
      refine List.mem_dedup.mpr (List.mem_map.mpr ⟨x, List.mem_filter.mpr ⟨?_, ?_⟩, rfl⟩)
      · exact List.mem_filterMap.mpr ⟨_, ha, hx⟩
      · simp only [decide_true, Bool.true_and, hvalid]
    have hlength := (List.subperm_of_subset (d.nodup_honestSeats c) hsub).length_le
    unfold EffectCert.assemble
    dsimp only
    rw [if_pos ((quorum_le_honestSeats hf).trans hlength)]
    rfl

end Deployment

/-- Orders of one transfer at one round, accepted under one policy, differ at most in the owner's
signature. -/
theorem SignedTransfer.eq_of_verified {o o' : SignedTransfer} {p : TransferPolicy}
    (h : o.verify p = .ok ()) (h' : o'.verify p = .ok ()) (htransfer : o.transfer = o'.transfer)
    (hround : o.round = o'.round) (hproof : o.ownerSignature = o'.ownerSignature) : o = o' := by
  obtain ⟨hnetwork, hpolicy⟩ := verify_ok h
  obtain ⟨hnetwork', hpolicy'⟩ := verify_ok h'
  cases o
  cases o'
  simp only [mk.injEq]
  exact ⟨hnetwork.trans hnetwork'.symm, hpolicy.trans hpolicy'.symm, htransfer, hround, hproof⟩

/-- If all honest members of a committee have applied a transfer at a round, their attestations
aggregate exactly if they have applied it with one and the same signature of the owner. -/
theorem attestations_aggregate_iff {d : Deployment} {c : Committee} {net : Net}
    (h : Reachable d.step d.WithinEpoch d.start net) (hf : d.WithinBudget c)
    (hroot : ∀ a ∈ d.honest, (d.config a).committeeId = c.id)
    (hpolicy : ∀ a ∈ d.honest, (d.config a).policy = c.policy)
    (hsign : ∀ k m, Crypto.verifyStrict (Crypto.verifyingKey k) m (Crypto.sign k m) = true)
    (hfree : CollisionFree ((d.applied c net).map orderIdPreimage)) {t : Transfer} {round : U64}
    (happ : ∀ a, d.HonestSeat c a → ∃ proof, (net a).AppliedWith t round proof) :
    d.Aggregates c net t ↔
      ∃ proof, ∀ a, d.HonestSeat c a → (net a).AppliedWith t round proof := by
  have hverified : ∀ a, d.HonestSeat c a → ∀ {cert verifier e},
      .applied cert verifier e ∈ (net a).history → cert.order.verify c.policy = .ok () := by
    intro a hseat cert verifier e hmem
    have hlocal := Deployment.component (fun _ _ _ => True) (fun _ _ _ _ => trivial) h a
    obtain ⟨-, y, -, happlies⟩ := Node.pair_invariant (Node.applies_pair _) hlocal
    exact hpolicy a hseat.1 ▸ happlies.verified cert verifier e hmem
  have hserves : ∀ a, d.HonestSeat c a → ∀ {cert verifier e},
      .applied cert verifier e ∈ (net a).history → cert.order.transfer = t → ∃ x,
        (net a).live.attestationFor t.sender t.fromSeq = some x ∧ x.authority = a ∧
          x.account = t.sender ∧ x.seq = t.fromSeq ∧ x.orderId = cert.order.orderId ∧
          x.isValid c = true := by
    rintro a hseat cert verifier e hmem rfl
    exact Deployment.attestation_of_applied h hroot hsign hseat hmem
  constructor
  · rintro ⟨orderId, hsame, -⟩
    have hid : ∀ a, d.HonestSeat c a → ∀ {cert verifier e},
        .applied cert verifier e ∈ (net a).history → cert.order.transfer = t →
          cert.order.orderId = orderId := by
      intro a hseat cert verifier e hmem htransfer
      obtain ⟨x, hx, -, -, -, horder, -⟩ := hserves a hseat hmem htransfer
      exact horder.symm.trans (hsame x (List.mem_filterMap.mpr
        ⟨a, Deployment.mem_honestSeats.mpr hseat, hx⟩))
    have hmem : ∀ a, d.HonestSeat c a → ∀ {cert verifier e},
        .applied cert verifier e ∈ (net a).history → cert.order ∈ d.applied c net := by
      intro a hseat cert verifier e hmem
      exact List.mem_flatMap.mpr ⟨a, Deployment.mem_honestSeats.mpr hseat,
        List.mem_filterMap.mpr ⟨_, hmem, rfl⟩⟩
    obtain ⟨b, hb⟩ := Deployment.exists_honestSeat hf
    obtain ⟨proof, cert, verifier, e, happlied, htransfer, hround, hproof⟩ := happ b hb
    refine ⟨proof, fun a ha => ?_⟩
    obtain ⟨proof', cert', verifier', e', happlied', htransfer', hround', hproof'⟩ := happ a ha
    have hids : cert'.order.orderId = cert.order.orderId :=
      (hid a ha happlied' htransfer').trans (hid b hb happlied htransfer).symm
    -- One order id is one order, with one signature of the owner.
    have horder : cert'.order = cert.order := orderIdPreimage_inj (hfree _
      (List.mem_map_of_mem (hmem a ha happlied')) _ (List.mem_map_of_mem (hmem b hb happlied)) hids)
    exact ⟨cert', verifier', e', happlied', htransfer', hround', horder ▸ hproof⟩
  · rintro ⟨proof, hall⟩
    obtain ⟨b, hb⟩ := Deployment.exists_honestSeat hf
    obtain ⟨cert, verifier, e, happlied, htransfer, hround, hproof⟩ := hall b hb
    refine ⟨cert.order.orderId, Deployment.assemble_of_served hf fun a ha => ?_⟩
    obtain ⟨cert', verifier', e', happlied', htransfer', hround', hproof'⟩ := hall a ha
    have horder : cert'.order = cert.order :=
      SignedTransfer.eq_of_verified (hverified a ha happlied')
      (hverified b hb happlied) (htransfer'.trans htransfer.symm) (hround'.trans hround.symm)
      (hproof'.trans hproof.symm)
    exact horder ▸ hserves a ha happlied' htransfer'

end Attestations

namespace Demo

/-- The three honest members of `quad` vote for an order and apply it, and one of them crashes. -/
def appliedRun : List (AuthorityId × Op) :=
  votesFor toBob [a0, a1, a2] ++
    [a0, a1, a2].map (confirms · (certify quad (quadRoster.take 3) toBob)) ++ [(a1, .crash)]

end Demo

open Demo in
/-- One certificate, applied by three of four members. -/
theorem attestations_aggregate_iff_demo :
    ∃ net, Reachable trio.step trio.WithinEpoch trio.start net ∧
      trio.Aggregates quad net toBob.transfer := by
  obtain ⟨net, h, happ, hfree⟩ : ∃ net, Reachable trio.step trio.WithinEpoch trio.start net ∧
      (∀ a ∈ trio.honest, .applied (certify quad (quadRoster.take 3) toBob) quad 0 ∈
        (net a).history) ∧
      CollisionFree ((trio.applied quad net).map orderIdPreimage) :=
    Reachable.of_exec appliedRun (by decide +kernel)
  have hall : ∀ a, trio.HonestSeat quad a →
      (net a).AppliedWith toBob.transfer toBob.round toBob.ownerSignature :=
    fun a ha => ⟨_, _, _, happ a ha.1, rfl, rfl, rfl⟩
  exact ⟨net, h, (attestations_aggregate_iff h (by decide +kernel) (fun _ _ => rfl) (fun _ _ => rfl)
    (fun _ _ => decide_eq_true rfl) hfree fun a ha => ⟨_, hall a ha⟩).mpr ⟨_, hall⟩⟩

/-! ## An owner that signs twice -/

namespace Resigned

open Demo (mix policy quad quadRoster keyOf a0 a1 a2 a3 key)

/-- Toy signatures with a nonce that the signer chooses, as in Ed25519. -/
def signWith (nonce : UInt8) (key : SigningKey) (m : Bytes) : Signature :=
  nonce ::ᵥ mix 63 (nonce :: key.toList ++ m)

scoped instance nonceCrypto : Crypto where
  sha256 := mix 32
  verifyingKey key := key
  sign := signWith 0
  verifyStrict key m signature := decide (signature = signWith signature.head key m)
  verify key m signature := decide (signature = signWith signature.head key m)

/-- Four honest members. -/
def quartet : Deployment where
  honest := {a0, a1, a2, a3}
  config a := ⟨a, keyOf a, policy, quad.id, demoLedger, Demo.demoLedger_sound⟩
  named _ := rfl

def first : SignedTransfer := .signAtRound policy ⟨alice, 0, bob, 30⟩ 0 (key 100)

/-- The same transfer at the same round, with another nonce. -/
def again : SignedTransfer :=
  { first with
    ownerSignature :=
      signWith 1 (key 100) (ownerSigningMessage policy.id policy.networkId first.transfer 0) }

/-- The votes of three members. -/
def certify (o : SignedTransfer) : Certificate :=
  ⟨o, [a0, a1, a2].map fun a => (quartet.config a).authority.sign o⟩

/-- Three members vote for the first order; two are shown a certificate for it, and two a
certificate for the other one, with the same votes. -/
def run : List (AuthorityId × Op) :=
  [a0, a1, a2].map (·, .handle first .stored) ++
    [a0, a1].map (·, .confirm (certify first) quad quad false .stored) ++
    [a2, a3].map (·, .confirm (certify again) quad quad false .stored)

/-- Everybody has applied the transfer, and their attestations do not aggregate. -/
theorem attestations_split :
    ∃ net, Reachable quartet.step
      (fun net step => quartet.WithinEpoch net step ∧ quartet.Delivers ⟨[quad], []⟩ net step)
      quartet.start net ∧ quartet.WithinBudget quad ∧
      (∀ k m, Crypto.verifyStrict (Crypto.verifyingKey k) m (Crypto.sign k m) = true) ∧
      (∀ a, quartet.HonestSeat quad a → ∃ proof, (net a).AppliedWith first.transfer 0 proof) ∧
      ¬ quartet.Aggregates quad net first.transfer := by
  obtain ⟨net, h, happ, happ', hids⟩ : ∃ net, Reachable quartet.step
      (fun net step => quartet.WithinEpoch net step ∧ quartet.Delivers ⟨[quad], []⟩ net step)
      quartet.start net ∧
      (∀ a ∈ [a0, a1], .applied (certify first) quad 0 ∈ (net a).history) ∧
      (∀ a ∈ [a2, a3], .applied (certify again) quad 0 ∈ (net a).history) ∧
      (quartet.served quad net alice 0).map (·.orderId) =
        [first.orderId, first.orderId, again.orderId, again.orderId] :=
    Reachable.of_exec run (by decide +kernel)
  refine ⟨net, h, by decide +kernel, fun _ _ => decide_eq_true rfl, fun a ha => ?_, ?_⟩
  · have hmem : a ∈ [a0, a1] ∨ a ∈ [a2, a3] := by
      have hhonest : a ∈ ({a0, a1, a2, a3} : Finset AuthorityId) := ha.1
      simpa [or_assoc] using hhonest
    rcases hmem with hmem | hmem
    · exact ⟨_, _, _, _, happ a hmem, rfl, rfl, rfl⟩
    · exact ⟨_, _, _, _, happ' a hmem, rfl, rfl, rfl⟩
  · rintro ⟨orderId, hsame, -⟩
    have hall : ∀ o ∈ [first.orderId, first.orderId, again.orderId, again.orderId],
      o = orderId := by
      rw [← hids]
      intro o ho
      obtain ⟨x, hx, rfl⟩ := List.mem_map.mp ho
      exact hsame x hx
    have heq : first.orderId = again.orderId :=
      (hall _ (.head _)).trans (hall _ (by simp)).symm
    exact absurd heq (by decide +kernel)

end Resigned

end P2P333.Transfer333
