import P2P333.Transfer333.Replay

/-!
# Authorities in a network

The honest authorities of a deployment run side by side and in any order. Everybody else may send
any message at any time, so a step takes its arguments from anywhere. What the others cannot do is
sign for an honest authority: that is what `Unforged` says about the signatures in a message.

Results:
1. `Node.cast_of_signed` and its siblings: bytes of one kind that an authority signed come from a
   vote, an epoch vote or an attestation of that kind, with the same content.
2. `Node.emits_of_step`: what a step adds to the history, and what was checked for it.
3. `Deployment.component`: seen from one authority, a run of the network is a run of that authority.
4. `Deployment.Quorate`: a quorum of a committee stands behind a property of its honest members. Two
   such properties are shared by one honest authority (`Quorate.common`), and every certificate of
   the protocol is of this form.
5. `Deployment.receipts`: behind every applied order and every installed epoch stands such a quorum.
-/

namespace P2P333.Transfer333

open Std Lib

variable [Crypto]

/-! ## What an authority signs -/

namespace Node

/-- Everything the authority has signed. -/
def signedBytes (n : Node) : List Bytes := n.history.filterMap Event.signed

/-- The authority voted for the transfer, under this committee id and at this round. -/
def Cast (n : Node) (cid : CommitteeId) (t : Transfer) (round : U64) : Prop :=
  ∃ v e, .voted v e ∈ n.history ∧ v.committeeId = cid ∧ v.transfer = t ∧ v.round = round

/-- The authority signed the change to the committee `nextId`, over this frontier. -/
def EpochCast (n : Node) (cid : CommitteeId) (epoch : U64) (nextId : CommitteeId) (fd : Digest) :
    Prop :=
  ∃ v, .epochVoted v ∈ n.history ∧ v.committeeId = cid ∧ v.epoch = epoch ∧
    v.nextCommitteeId = nextId ∧ v.frontierDigest = fd

/-- The authority attested the order at the slot. -/
def Attested (n : Node) (account : AccountId) (seq : U64) (orderId : Digest) : Prop :=
  ∃ a, .attested a ∈ n.history ∧ a.account = account ∧ a.seq = seq ∧ a.orderId = orderId

section

omit [Crypto]

theorem mem_signedBytes {n : Node} {m : Bytes} :
    m ∈ n.signedBytes ↔ ∃ e ∈ n.history, e.signed = some m := List.mem_filterMap

/-- Signed bytes of a vote come from a vote. -/
theorem cast_of_signed {n : Node} {v : Vote} (h : v.message ∈ n.signedBytes) :
    n.Cast v.committeeId v.transfer v.round := by
  obtain ⟨event, hmem, hsigned⟩ := mem_signedBytes.mp h
  cases event with
  | voted w e =>
    obtain ⟨-, hc, -, -, ht, hr⟩ := authoritySigningMessage_inj (Option.some.inj hsigned)
    exact ⟨w, e, hmem, hc, ht, hr⟩
  | epochVoted w =>
    exact absurd (Option.some.inj hsigned).symm authoritySigningMessage_ne_epochVoteSigningMessage
  | attested a =>
    exact absurd (Option.some.inj hsigned).symm authoritySigningMessage_ne_effectMessage
  | applied cert verifier e => cases hsigned
  | installed cert old next => cases hsigned

/-- Signed bytes of an epoch vote come from an epoch vote. -/
theorem epochCast_of_signed {n : Node} {v : EpochVote} (h : v.message ∈ n.signedBytes) :
    n.EpochCast v.committeeId v.epoch v.nextCommitteeId v.frontierDigest := by
  obtain ⟨event, hmem, hsigned⟩ := mem_signedBytes.mp h
  cases event with
  | voted w e =>
    exact absurd (Option.some.inj hsigned) authoritySigningMessage_ne_epochVoteSigningMessage
  | epochVoted w =>
    obtain ⟨-, hc, he, hn, hd⟩ := epochVoteSigningMessage_inj (Option.some.inj hsigned)
    exact ⟨w, hmem, hc, he, hn, hd⟩
  | attested a =>
    exact absurd (Option.some.inj hsigned).symm epochVoteSigningMessage_ne_effectMessage
  | applied cert verifier e => cases hsigned
  | installed cert old next => cases hsigned

/-- Signed bytes of an attestation come from an attestation. -/
theorem attested_of_signed {n : Node} {a : EffectAttestation} (h : a.message ∈ n.signedBytes) :
    n.Attested a.account a.seq a.orderId := by
  obtain ⟨event, hmem, hsigned⟩ := mem_signedBytes.mp h
  cases event with
  | voted w e =>
    exact absurd (Option.some.inj hsigned) authoritySigningMessage_ne_effectMessage
  | epochVoted w =>
    exact absurd (Option.some.inj hsigned) epochVoteSigningMessage_ne_effectMessage
  | attested b =>
    obtain ⟨-, ha, hs, ho⟩ := effectMessage_inj (Option.some.inj hsigned)
    exact ⟨b, hmem, ha, hs, ho⟩
  | applied cert verifier e => cases hsigned
  | installed cert old next => cases hsigned

end

/-! ## What a step adds to the history -/

/-- An event that the call `op` can add, with what the call checked for it. -/
inductive Emits (n : Node) : Op → Event → Prop
  | voted {order : SignedTransfer} {io : Io} (v : Vote) (e : U64) :
      Emits n (.handle order io) (.voted v e)
  | epochVoted {v : EpochVote} (h : n.live.signEpochVote = .ok v) :
      Emits n .signEpochVote (.epochVoted v)
  | attested {account : AccountId} {seq : U64} {a : EffectAttestation}
      (h : n.live.attestationFor account seq = some a) :
      Emits n (.attest account seq) (.attested a)
  | applied {cert : Certificate} {verifier committee : Committee} {observer : Bool} {io : Io}
      (h : n.live.CanConfirm cert verifier) :
      Emits n (.confirm cert verifier committee observer io) (.applied cert verifier n.live.epoch)
  | installed {cert : EpochCert} {old next : Committee} {io : Io}
      (h : n.live.AcceptsEpochCert cert old next) :
      Emits n (.installEpochCert cert old io) (.installed cert old next)

theorem emits_of_quiet {op : Op} {n m m' : Node} (h : Quiet op m m') :
    ∃ events, m'.history = m.history ++ events ∧ ∀ ev ∈ events, Emits n op ev := by
  cases h with
  | complete hp hc => exact ⟨[], by simp, by simp⟩
  | vote hp hactive hv hheld =>
    refine ⟨_, rfl, ?_⟩
    intro ev hev
    cases List.mem_singleton.mp hev
    exact .voted _ _

theorem emits_of_act {cfg : Config} {op : Op} {n n' : Node} (h : Act cfg op n n') :
    ∃ events, n'.history = n.history ++ events ∧ ∀ ev ∈ events, Emits n op ev := by
  cases h with
  | commit hp hy =>
    refine ⟨_, rfl, ?_⟩
    intro ev hev
    cases hp with
    | locked hcan => cases hev
    | epochFence hcan => cases hev
    | confirmed hcan =>
      cases List.mem_singleton.mp hev
      exact .applied hcan
    | epochInstalled hacc hidle =>
      simp only [Op.events, hacc.roster] at hev
      cases List.mem_singleton.mp hev
      exact .installed hacc
  | fail hp kept hio => exact ⟨[], by simp, by simp⟩
  | poison => exact ⟨[], by simp, by simp⟩
  | epochVote hv =>
    refine ⟨_, rfl, ?_⟩
    intro ev hev
    cases List.mem_singleton.mp hev
    exact .epochVoted hv
  | attest ha =>
    refine ⟨_, rfl, ?_⟩
    intro ev hev
    cases List.mem_singleton.mp hev
    exact .attested ha
  | compact hactive hp => exact ⟨[], by simp, by simp⟩
  | crash hx => exact ⟨[], by simp, by simp⟩

/-- The history only grows, by events of the call. -/
theorem emits_of_step {cfg : Config} {op : Op} {n n' : Node} (h : step cfg n op = some n') :
    ∃ events, n'.history = n.history ++ events ∧ ∀ ev ∈ events, Emits n op ev := by
  obtain ⟨before, main, after⟩ := step_acts h
  rename_i m m'
  obtain ⟨evs, hafter, hemit⟩ : ∃ events, n'.history = m'.history ++ events ∧
      ∀ ev ∈ events, Emits n op ev := by
    rcases after with rfl | hq
    · exact ⟨[], by simp, by simp⟩
    · exact emits_of_quiet hq
  have hmain : ∃ events, m'.history = n.history ++ events ∧ ∀ ev ∈ events, Emits n op ev := by
    rcases before with rfl | ⟨⟨order, io, rfl⟩, hq⟩
    · rcases main with rfl | ha
      · exact ⟨[], by simp, by simp⟩
      · exact emits_of_act ha
    · -- a call of `handle` adds votes only, before and after the completion of an install
      obtain ⟨evs', hbefore, hemit'⟩ := emits_of_quiet (n := n) hq
      rcases main with rfl | ha
      · exact ⟨evs', hbefore, hemit'⟩
      · obtain ⟨evs'', heq, hemit''⟩ := emits_of_act ha
        refine ⟨evs' ++ evs'', by rw [heq, hbefore, List.append_assoc], ?_⟩
        intro ev hev
        rcases List.mem_append.mp hev with hev | hev
        · exact hemit' ev hev
        · cases hemit'' ev hev
          exact .voted _ _
  obtain ⟨evs', heq, hemit'⟩ := hmain
  refine ⟨evs' ++ evs, by rw [hafter, heq, List.append_assoc], ?_⟩
  intro ev hev
  rcases List.mem_append.mp hev with hev | hev
  · exact hemit' ev hev
  · exact hemit ev hev

omit [Crypto] in
theorem Cast.mono {n n' : Node} (h : n.history ⊆ n'.history) {cid : CommitteeId} {t : Transfer}
    {round : U64} : n.Cast cid t round → n'.Cast cid t round
  | ⟨v, e, hv, hrest⟩ => ⟨v, e, h hv, hrest⟩

omit [Crypto] in
theorem EpochCast.mono {n n' : Node} (h : n.history ⊆ n'.history) {cid nextId : CommitteeId}
    {epoch : U64} {fd : Digest} : n.EpochCast cid epoch nextId fd → n'.EpochCast cid epoch nextId fd
  | ⟨v, hv, hrest⟩ => ⟨v, h hv, hrest⟩

end Node

/-! ## Deployments -/

/-- The authorities that follow the protocol, and what each was constructed from. -/
structure Deployment where
  honest : Finset AuthorityId
  config : AuthorityId → Config
  named : ∀ a, (config a).id = a

abbrev Net := AuthorityId → Node

namespace Deployment

def start (d : Deployment) : Net := fun a => .start (d.config a)

/-- One authority takes a step. -/
def step (d : Deployment) : Net → AuthorityId × Op → Option Net :=
  componentStep fun a => Node.step (d.config a)

/-- The seat is held by an honest authority with its own key. -/
def HonestSeat (d : Deployment) (c : Committee) (a : AuthorityId) : Prop :=
  a ∈ d.honest ∧ c.keyOf a = some (Crypto.verifyingKey (d.config a).signing)

instance (d : Deployment) (c : Committee) (a : AuthorityId) : Decidable (d.HonestSeat c a) :=
  inferInstanceAs (Decidable (_ ∧ _))

/-- The seats that may be Byzantine. -/
def faulty (d : Deployment) (c : Committee) : Finset AuthorityId :=
  c.seats.filter fun a => ¬ d.HonestSeat c a

/-- At most `(n - 1) / 3` seats are Byzantine. -/
def WithinBudget (d : Deployment) (c : Committee) : Prop :=
  (d.faulty c).card ≤ (c.size - 1) / 3

instance (d : Deployment) (c : Committee) : Decidable (d.WithinBudget c) :=
  inferInstanceAs (Decidable (_ ≤ _))

/-- The votes of the certificate that verify under the key of an honest seat were cast by the
authority that holds it. -/
def Unforged (d : Deployment) (net : Net) (c : Committee) (cert : Certificate) : Prop :=
  ∀ v ∈ cert.votes, d.HonestSeat c v.authority →
    Crypto.verifyStrict (Crypto.verifyingKey (d.config v.authority).signing) v.message v.signature =
      true → v.message ∈ (net v.authority).signedBytes

/-- The same for the votes of an epoch certificate. -/
def UnforgedEpoch (d : Deployment) (net : Net) (c : Committee) (cert : EpochCert) : Prop :=
  ∀ v ∈ cert.votes, d.HonestSeat c v.authority →
    Crypto.verify (Crypto.verifyingKey (d.config v.authority).signing) v.message v.signature =
      true → v.message ∈ (net v.authority).signedBytes

/-- The same for a list of attestations. -/
def UnforgedEffects (d : Deployment) (net : Net) (c : Committee) (as : List EffectAttestation) :
    Prop :=
  ∀ a ∈ as, d.HonestSeat c a.authority →
    Crypto.verifyStrict (Crypto.verifyingKey (d.config a.authority).signing) a.message a.signature =
      true → a.message ∈ (net a.authority).signedBytes

instance (d : Deployment) (net : Net) (c : Committee) (cert : Certificate) :
    Decidable (d.Unforged net c cert) :=
  inferInstanceAs (Decidable (∀ v ∈ cert.votes, _ → _ → _))

instance (d : Deployment) (net : Net) (c : Committee) (cert : EpochCert) :
    Decidable (d.UnforgedEpoch net c cert) :=
  inferInstanceAs (Decidable (∀ v ∈ cert.votes, _ → _ → _))

instance (d : Deployment) (net : Net) (c : Committee) (as : List EffectAttestation) :
    Decidable (d.UnforgedEffects net c as) :=
  inferInstanceAs (Decidable (∀ a ∈ as, _ → _ → _))

variable {d : Deployment} {net net' : Net} {c c' : Committee}

/-- A run of the network is, for each authority, a run of that authority. -/
theorem component {ok : Net → AuthorityId × Op → Prop} (ok' : AuthorityId → Node → Op → Prop)
    (hok : ∀ net a op, ok net (a, op) → ok' a (net a) op) (h : Reachable d.step ok d.start net)
    (a : AuthorityId) : Reachable (Node.step (d.config a)) (ok' a) (.start (d.config a)) (net a) :=
  Reachable.component hok h a

/-- A step of the network adds events of the call to the history of the authority that takes it,
and nothing else to any history. -/
theorem emits_of_step {a : AuthorityId} {op : Op} (h : d.step net (a, op) = some net')
    (b : AuthorityId) :
    (net b).history ⊆ (net' b).history ∧
      ∀ ev ∈ (net' b).history, ev ∈ (net b).history ∨ b = a ∧ (net a).Emits op ev := by
  obtain ⟨x, hx, rfl⟩ := componentStep_eq_some.mp h
  by_cases hb : b = a
  · subst hb
    rw [Function.update_self]
    obtain ⟨events, heq, hemits⟩ := Node.emits_of_step hx
    rw [heq]
    refine ⟨List.subset_append_left _ _, fun ev hev => ?_⟩
    rcases List.mem_append.mp hev with hev | hev
    · exact .inl hev
    · exact .inr ⟨rfl, hemits ev hev⟩
  · rw [Function.update_of_ne hb]
    exact ⟨fun _ h => h, fun ev hev => .inl hev⟩

/-! ## Quorums of honest events -/

/-- A quorum of the committee stands behind `P`: distinct members, of which the honest ones
satisfy it. -/
def Quorate (d : Deployment) (c : Committee) (P : AuthorityId → Prop) : Prop :=
  ∃ signers : List AuthorityId, signers.Nodup ∧ c.quorum ≤ signers.length ∧
    (∀ a ∈ signers, a ∈ c.seats) ∧ ∀ a ∈ signers, d.HonestSeat c a → P a

theorem Quorate.mono {P Q : AuthorityId → Prop} (hPQ : ∀ a, P a → Q a) (h : d.Quorate c P) :
    d.Quorate c Q := by
  obtain ⟨signers, hnodup, hq, hmem, hP⟩ := h
  exact ⟨signers, hnodup, hq, hmem, fun a ha hseat => hPQ a (hP a ha hseat)⟩

/-- The roster alone decides, neither the policy nor the epoch of the committee. -/
theorem Quorate.of_members {P : AuthorityId → Prop} (hm : c.members = c'.members)
    (h : d.Quorate c P) : d.Quorate c' P := by
  simpa only [Quorate, Committee.quorum, Committee.size, Committee.seats, HonestSeat,
    Committee.keyOf, hm] using h

/-- Two properties with a quorum behind them are shared by an honest authority, if the committee is
within its budget. -/
theorem Quorate.common {P Q : AuthorityId → Prop} (hf : d.WithinBudget c) (h : d.Quorate c P)
    (h' : d.Quorate c Q) : ∃ a ∈ d.honest, P a ∧ Q a := by
  obtain ⟨S, hS, hq, hmem, hP⟩ := h
  obtain ⟨S', hS', hq', hmem', hQ⟩ := h'
  obtain ⟨a, ha, ha', hn⟩ := Committee.exists_common_seat hS hS' hmem hmem' hq hq' hf
  have hseat : d.HonestSeat c a := by
    by_contra hbad
    exact hn (Finset.mem_filter.mpr ⟨hmem a ha, hbad⟩)
  exact ⟨a, hseat.1, hP a ha hseat, hQ a ha' hseat⟩

/-- Behind a valid, unforged certificate stands a quorum of votes. -/
theorem quorate_of_valid {cert : Certificate} (hc : cert.Valid c) (hu : d.Unforged net c cert) :
    d.Quorate c fun a => (net a).Cast c.id cert.order.transfer cert.order.round := by
  refine ⟨cert.signers, hc.distinct, hc.quorate, hc.signers_subset, ?_⟩
  intro a ha hseat
  obtain ⟨v, hv, rfl⟩ := List.mem_map.mp ha
  have hvote := hc.votes v hv
  obtain ⟨key, hkey, hsig⟩ := hvote.signed
  obtain rfl := Option.some.inj (hkey.symm.trans hseat.2)
  have hcast := Node.cast_of_signed (hu v hv hseat hsig)
  rwa [hvote.committee, hvote.transfer, hvote.round] at hcast

/-- Behind an effect certificate from unforged attestations stands a quorum of attestations. -/
theorem quorate_of_assemble {account : AccountId} {seq : U64} {orderId : Digest}
    {attestations : List EffectAttestation} {cert : EffectCert}
    (h : EffectCert.assemble account seq orderId attestations c = some cert)
    (hu : d.UnforgedEffects net c attestations) :
    d.Quorate c fun a => (net a).Attested account seq orderId := by
  obtain ⟨-, signers, hnodup, hq, hmem, hsigner⟩ := EffectCert.assemble_eq_some h
  refine ⟨signers, hnodup, hq, hmem, ?_⟩
  intro s hs hseat
  obtain ⟨a, ha, rfl, rfl, rfl, rfl, hvalid⟩ := hsigner s hs
  obtain ⟨-, key, hkey, hsig⟩ := EffectAttestation.isValid_iff.mp hvalid
  obtain rfl := Option.some.inj (hkey.symm.trans hseat.2)
  exact Node.attested_of_signed (hu a ha hseat hsig)

/-- Behind an accepted, unforged epoch certificate stands a quorum of epoch votes. -/
theorem quorate_of_checked {cid nextId : CommitteeId} {cert : EpochCert}
    (h : Authority.checkEpochVotes cid cert nextId c = .ok ()) (hu : d.UnforgedEpoch net c cert) :
    d.Quorate c fun a => (net a).EpochCast cid cert.epoch nextId
    (frontierDigest cert.frontier) := by
  obtain ⟨hvotes, hnodup, hq⟩ := Authority.checkEpochVotes_ok h
  refine ⟨cert.signers, hnodup, hq, ?_, ?_⟩
  · intro a ha
    obtain ⟨v, hv, rfl⟩ := List.mem_map.mp ha
    obtain ⟨key, hkey, -⟩ := (hvotes v hv).signed
    exact Committee.mem_seats hkey
  · intro a ha hseat
    obtain ⟨v, hv, rfl⟩ := List.mem_map.mp ha
    have hvote := hvotes v hv
    obtain ⟨key, hkey, hsig⟩ := hvote.signed
    obtain rfl := Option.some.inj (hkey.symm.trans hseat.2)
    have hcast := Node.epochCast_of_signed (hu v hv hseat hsig)
    rwa [hvote.committee, hvote.epoch, hvote.next, hvote.frontier] at hcast

end Deployment

/-! ## Committee ids -/

/-- The bytes behind the committee's id. -/
def Committee.preimage (c : Committee) : Bytes := committeeIdPreimage c.policy.id c.members

/-- The committees and the frontiers that the messages of a run are about. -/
structure Scope where
  committees : List Committee
  frontiers : List Frontier

namespace Scope

/-- No collision among the strings behind their digests. -/
def Injective (s : Scope) : Prop :=
  CollisionFree (s.committees.map Committee.preimage ++ s.frontiers.map frontierPreimage)

instance (s : Scope) : Decidable s.Injective := inferInstanceAs (Decidable (CollisionFree _))

variable {s : Scope}

/-- Committees with the same id have the same roster. -/
theorem members_eq (h : s.Injective) {c c' : Committee} (hc : c ∈ s.committees)
    (hc' : c' ∈ s.committees) (hid : c.id = c'.id) : c.members = c'.members := by
  have hpre : c.preimage = c'.preimage :=
    h _ (List.mem_append_left _ (List.mem_map_of_mem hc)) _
      (List.mem_append_left _ (List.mem_map_of_mem hc')) hid
  exact (committeeIdPreimage_inj hpre).2

/-- Frontiers with the same digest have the same entries. -/
theorem frontier_perm (h : s.Injective) {f f' : Frontier} (hf : f ∈ s.frontiers)
    (hf' : f' ∈ s.frontiers) (hfd : frontierDigest f = frontierDigest f') : f.Perm f' :=
  frontierPreimage_perm <|
    h _ (List.mem_append_right _ (List.mem_map_of_mem hf)) _
      (List.mem_append_right _ (List.mem_map_of_mem hf')) hfd

end Scope

/-! ## What the messages of a run leave behind -/

namespace Deployment

/-- The messages that a step handles carry no forged signature of an honest authority, and are about
committees and frontiers of the scope. -/
def Delivers (d : Deployment) (s : Scope) (net : Net) : AuthorityId × Op → Prop
  | (a, .confirm cert verifier _ _ _) =>
    d.Unforged net verifier cert ∧
      (verifier.id = (net a).live.committeeId → verifier ∈ s.committees)
  | (a, .installEpochCert cert old _) =>
    d.UnforgedEpoch net old cert ∧
      (old.id = (net a).live.committeeId → old ∈ s.committees ∧ cert.frontier ∈ s.frontiers)
  | (a, .signEpochVote) => (net a).live.frontier ∈ s.frontiers
  | _ => True

instance (d : Deployment) (s : Scope) (net : Net) : ∀ step, Decidable (d.Delivers s net step)
  | (_, .confirm _ _ _ _ _) => inferInstanceAs (Decidable (_ ∧ (_ → _)))
  | (_, .installEpochCert _ _ _) => inferInstanceAs (Decidable (_ ∧ (_ → _ ∧ _)))
  | (a, .signEpochVote) => inferInstanceAs (Decidable ((net a).live.frontier ∈ s.frontiers))
  | (_, .handle _ _) | (_, .fence _ _) | (_, .attest _ _) | (_, .compactJournal _)
  | (_, .crash) => .isTrue trivial

/-- The evidence behind an event. -/
def Receipt (d : Deployment) (s : Scope) (net : Net) : Event → Prop
  | .applied cert verifier _ => verifier ∈ s.committees ∧
    d.Quorate verifier fun b => (net b).Cast verifier.id cert.order.transfer cert.order.round
  | .installed cert old next => old ∈ s.committees ∧ cert.frontier ∈ s.frontiers ∧
    d.Quorate old fun b =>
      (net b).EpochCast old.id cert.epoch next.id (frontierDigest cert.frontier)
  | .epochVoted v => v.frontier ∈ s.frontiers ∧ v.frontierDigest = frontierDigest v.frontier
  | _ => True

variable {d : Deployment} {s : Scope} {net net' : Net}

theorem Receipt.mono (hgrow : ∀ b, (net b).history ⊆ (net' b).history) {ev : Event}
    (h : d.Receipt s net ev) : d.Receipt s net' ev := by
  cases ev with
  | applied cert verifier e => exact ⟨h.1, h.2.mono fun b => Node.Cast.mono (hgrow b)⟩
  | installed cert old next =>
    exact ⟨h.1, h.2.1, h.2.2.mono fun b => Node.EpochCast.mono (hgrow b)⟩
  | epochVoted v => exact h
  | _ => trivial

theorem receipt_of_emits {a : AuthorityId} {op : Op} {ev : Event} (hd : d.Delivers s net (a, op))
    (h : (net a).Emits op ev) : d.Receipt s net ev := by
  cases h with
  | voted v e => trivial
  | attested h => trivial
  | epochVoted h =>
    obtain ⟨p, next, -, -, rfl⟩ := Authority.signEpochVote_ok h
    exact ⟨hd, rfl⟩
  | applied hcan =>
    exact ⟨hd.2 hcan.root, quorate_of_valid (Certificate.validate_ok hcan.valid) hd.1⟩
  | installed hacc =>
    obtain ⟨hold, hfrontier⟩ := hd.2 hacc.root
    refine ⟨hold, hfrontier, ?_⟩
    rw [hacc.root]
    exact quorate_of_checked hacc.votes hd.1

/-- Every event of a run has its evidence. -/
theorem receipts {ok : Net → AuthorityId × Op → Prop}
    (hok : ∀ net step, ok net step → d.Delivers s net step) (h : Reachable d.step ok d.start net)
    {a : AuthorityId} {ev : Event} (hev : ev ∈ (net a).history) : d.Receipt s net ev := by
  revert a ev
  refine h.invariant (I := fun net => ∀ {a : AuthorityId} {ev : Event}, ev ∈ (net a).history →
    d.Receipt s net ev) ?_ ?_
  · intro a ev hev
    cases hev
  · rintro net ⟨b, op⟩ net' - ih hstep hnet a ev hev
    refine Receipt.mono (fun b => (emits_of_step hnet b).1) ?_
    rcases (emits_of_step hnet a).2 _ hev with hold | ⟨rfl, hemit⟩
    · exact ih hold
    · exact receipt_of_emits (hok _ _ hstep) hemit

end Deployment

end P2P333.Transfer333
