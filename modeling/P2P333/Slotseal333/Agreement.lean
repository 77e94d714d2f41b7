import P2P333.Slotseal333.Void

/-!
# Single-decree agreement

`333-slotseal/src/lib.rs` and `agreement.rs`: the seals of a slot, the evidence that a proposal
carries, and the nodes that vote once for a valid proposal and decide at a quorum. The messages of a
run come from anywhere: a step delivers any message to any honest node.

Results:
1. `Panel.Inv`: the invariant of runs where counted votes are authentic and no two seals collide.
2. `seals_agree`: in such runs a decision has a quorum of members behind it and no two honest nodes
   decide different seals.
3. `seals_fork`: in general they do. A vote is matched by a digest that leaves out the committee of
   the seal, and counted under the name that the message carries.
-/

namespace P2P333.Slotseal333

open Std Lib Transfer333 Function

section Agreement

variable [Crypto]

/-! ## Seals and proposals -/

/-- The agreed fate of a slot. -/
inductive SealOutcome where
  | finalize (orderId : Digest)
  | void
deriving DecidableEq

/-- The value that one agreement decides. -/
structure SlotSeal where
  account : AccountId
  seq : U64
  committeeId : Digest
  outcome : SealOutcome
deriving DecidableEq

/-- What a seal rests on. -/
inductive SealEvidence where
  | certFor (cert : Certificate)
  | noCertProof (votes : List Vote) (committeeSize : Nat)

/-- A seal with its evidence. -/
structure SealProposal where
  slotSeal : SlotSeal
  evidence : SealEvidence

/-- What a node checks before it votes. A void is checked against the votes of the proposal and
those the node has seen itself. The committee of the seal is not looked at. -/
def SealProposal.isExternallyValid (p : SealProposal) (committee : Committee)
    (ownVotes : List Vote) : Bool :=
  match p.slotSeal.outcome, p.evidence with
  | .finalize orderId, .certFor cert =>
    match cert.verify committee with
    | some v => decide (v.order.orderId = orderId) &&
      decide (v.order.transfer.sender = p.slotSeal.account) &&
      decide (v.order.transfer.fromSeq = p.slotSeal.seq)
    | none => false
  | .void, .noCertProof votes committeeSize =>
    if committeeSize ≠ committee.size then false
    else noCertCanForm (votes ++ ownVotes) committee p.slotSeal.account p.slotSeal.seq
  | _, _ => false

/-- What the members of a committee send one another. -/
inductive Msg where
  | propose (p : SealProposal)
  | vote (sealDigest : Digest) (sender : AuthorityId)

/-- `out[i] ^= b`. -/
def xorAt (out : Digest) (i : Nat) (b : UInt8) : Digest :=
  ⟨out.toList.modify i (· ^^^ b), by rw [List.length_modify, List.Vector.toList_length]⟩

/-- The digest that votes are matched by: the order or a tag, with the bytes of the account and the
last byte of the sequence number folded in. -/
def sealDigest (s : SlotSeal) : Digest :=
  let out : Digest := match s.outcome with
    | .finalize orderId => orderId
    | .void => ⟨tag "VOID" ++ List.replicate 28 0, by decide +kernel⟩
  let out := s.account.bytes.zipIdx.foldl (fun out b => xorAt out (b.2 % 32) b.1) out
  xorAt out 31 (UInt8.ofNat s.seq.toNat)

/-! ## Nodes -/

structure AgreementNode where
  id : AuthorityId
  committee : Committee
  ownVotes : List Vote
  votedFor : Option Digest
  votes : OrdMap Digest (List AuthorityId)
  proposalSeal : Option SlotSeal
  decided : Option SlotSeal

namespace AgreementNode

def new (id : AuthorityId) (committee : Committee) (ownVotes : List Vote) : AgreementNode :=
  ⟨id, committee, ownVotes, none, ∅, none, none⟩

/-- The names that are recorded for a digest. -/
def votesFor (n : AgreementNode) (d : Digest) : List AuthorityId := n.votes[d]?.getD []

def recordVote (n : AgreementNode) (d : Digest) (sender : AuthorityId) : AgreementNode :=
  let set := (n.votesFor d).insert sender
  { n with
    votes := n.votes.insert d set
    decided :=
      if n.decided = none ∧ n.votedFor = some d ∧ n.committee.quorum ≤ set.length then
        n.proposalSeal
      else n.decided }

/-- The vote for the seal of a proposal, and the node that has cast it. -/
def accept (n : AgreementNode) (p : SealProposal) : AgreementNode :=
  { n with votedFor := some (sealDigest p.slotSeal), proposalSeal := some p.slotSeal }.recordVote
    (sealDigest p.slotSeal) n.id

/-- One delivered message, and the vote that the node casts in answer to it. -/
def process (n : AgreementNode) : Msg → Option Msg × AgreementNode
  | .propose p =>
    if n.votedFor = none ∧ p.isExternallyValid n.committee n.ownVotes = true then
      (some (.vote (sealDigest p.slotSeal) n.id), n.accept p)
    else (none, n)
  | .vote d sender => (none, if n.votedFor = some d then n.recordVote d sender else n)

variable {n : AgreementNode} {d : Digest} {sender : AuthorityId}

/-- What a message can do to a node. -/
inductive Processed (n : AgreementNode) : Msg → AgreementNode → Prop
  | ignored (m : Msg) : Processed n m n
  | accepted {p : SealProposal} (hfree : n.votedFor = none)
      (hvalid : p.isExternallyValid n.committee n.ownVotes = true) :
      Processed n (.propose p) (n.accept p)
  | counted {d : Digest} {sender : AuthorityId} (hd : n.votedFor = some d) :
      Processed n (.vote d sender) (n.recordVote d sender)

theorem processed (n : AgreementNode) (m : Msg) : n.Processed m (n.process m).2 := by
  cases m with
  | propose p =>
    simp only [process]
    split
    · next h => exact .accepted h.1 h.2
    · exact .ignored _
  | vote d sender =>
    simp only [process]
    split
    · next h => exact .counted h
    · exact .ignored _

/-! ## What a node knows -/

/-- The state of a node after any messages. `Q d b` says that `b` may be recorded for the digest
`d`. -/
structure Sound (Q : Digest → AuthorityId → Prop) (n : AgreementNode) : Prop where
  voted : ∀ d, n.votedFor = some d ↔ ∃ s, n.proposalSeal = some s ∧ sealDigest s = d
  voters : ∀ d, (n.votesFor d).Nodup ∧ ∀ b ∈ n.votesFor d, Q d b
  decided : ∀ s, n.decided = some s →
    n.proposalSeal = some s ∧ n.committee.quorum ≤ (n.votesFor (sealDigest s)).length

omit [Crypto] in
theorem votesFor_recordVote (e : Digest) :
    (n.recordVote d sender).votesFor e =
      if d = e then (n.votesFor d).insert sender else n.votesFor e := by
  unfold votesFor recordVote
  split
  · next h => rw [← h, ExtTreeMap.getElem?_insert_self, Option.getD_some, votesFor]
  · next h => rw [OrdMap.getElem?_insert_of_ne _ h]

omit [Crypto] in
theorem length_votesFor_le (e : Digest) :
    (n.votesFor e).length ≤ ((n.recordVote d sender).votesFor e).length := by
  rw [votesFor_recordVote]
  split
  · next h =>
    rw [← h]
    exact (List.sublist_insert _ _).length_le
  · exact Nat.le_refl _

variable {Q Q' : Digest → AuthorityId → Prop}

section

omit [Crypto]

theorem Sound.mono (hQ : ∀ d b, Q d b → Q' d b) (h : n.Sound Q) : n.Sound Q' :=
  ⟨h.voted, fun d => ⟨(h.voters d).1, fun b hb => hQ d b ((h.voters d).2 b hb)⟩, h.decided⟩

theorem sound_new (id : AuthorityId) (committee : Committee) (ownVotes : List Vote) :
    (new id committee ownVotes).Sound Q := by
  refine ⟨fun d => ?_, fun d => ?_, fun s hs => by cases hs⟩
  · constructor
    · intro hd
      cases hd
    · rintro ⟨s, hs, -⟩
      cases hs
  · have hnone : (new id committee ownVotes).votesFor d = [] := by simp [votesFor, new]
    rw [hnone]
    exact ⟨List.nodup_nil, fun b hb => by cases hb⟩

/-- A vote for the node's own digest, by somebody who may be recorded. -/
theorem Sound.recordVote (hd : n.votedFor = some d) (hQ : Q d sender) (h : n.Sound Q) :
    (n.recordVote d sender).Sound Q := by
  refine ⟨h.voted, fun e => ?_, fun s hs => ?_⟩
  · rw [votesFor_recordVote]
    split
    · next he =>
      subst he
      refine ⟨(h.voters d).1.insert, fun b hb => ?_⟩
      rcases List.mem_insert_iff.mp hb with rfl | hb
      · exact hQ
      · exact (h.voters d).2 b hb
    · exact h.voters e
  · by_cases hnow : n.decided = none ∧ n.votedFor = some d ∧
        n.committee.quorum ≤ ((n.votesFor d).insert sender).length
    · have hs : n.proposalSeal = some s := by
        simp only [AgreementNode.recordVote, if_pos hnow] at hs
        exact hs
      -- the digest of the node's own proposal is the one that reached the quorum
      obtain ⟨s', hs', hdigest⟩ := (h.voted d).mp hd
      obtain rfl := Option.some.inj (hs.symm.trans hs')
      refine ⟨hs, ?_⟩
      rw [votesFor_recordVote, if_pos hdigest.symm]
      exact hnow.2.2
    · have hs : n.decided = some s := by
        simp only [AgreementNode.recordVote, if_neg hnow] at hs
        exact hs
      exact ⟨(h.decided s hs).1, Nat.le_trans (h.decided s hs).2 (length_votesFor_le _)⟩

end

omit [Crypto] in
theorem Sound.accept {p : SealProposal} (hfree : n.votedFor = none)
    (hQ : Q (sealDigest p.slotSeal) n.id) (h : n.Sound Q) : (n.accept p).Sound Q := by
  have hseal : n.proposalSeal = none := by
    cases hs : n.proposalSeal with
    | none => rfl
    | some s => cases hfree.symm.trans ((h.voted _).mpr ⟨s, hs, rfl⟩)
  refine Sound.recordVote rfl hQ ⟨fun d => ?_, h.voters, fun s hs => ?_⟩
  · simp only [Option.some.injEq, exists_eq_left']
  · cases hseal.symm.trans (h.decided s hs).1

end AgreementNode

/-! ## Runs -/

/-- The honest members of a committee, each with the votes it has seen. -/
structure Panel where
  committee : Committee
  honest : Finset AuthorityId
  seated : honest ⊆ committee.seats
  evidence : AuthorityId → List Vote

namespace Panel

abbrev Nodes := AuthorityId → AgreementNode

def start (P : Panel) : Nodes := fun a => .new a P.committee (P.evidence a)

/-- One message is delivered to one node. -/
def step : Nodes → AuthorityId × Msg → Option Nodes :=
  componentStep fun _ n m => some (n.process m).2

/-- At most `(n - 1) / 3` members are Byzantine. -/
def WithinBudget (P : Panel) : Prop :=
  (P.committee.seats \ P.honest).card ≤ (P.committee.size - 1) / 3

instance (P : Panel) : Decidable P.WithinBudget := inferInstanceAs (Decidable (_ ≤ _))

/-- The name is a member's, and if the member is honest, it has voted for the digest. -/
def Voted (P : Panel) (nodes : Nodes) (d : Digest) (b : AuthorityId) : Prop :=
  b ∈ P.committee.seats ∧ (b ∈ P.honest → (nodes b).votedFor = some d)

instance (P : Panel) (nodes : Nodes) (d : Digest) (b : AuthorityId) :
    Decidable (P.Voted nodes d b) := inferInstanceAs (Decidable (_ ∧ (_ → _)))

/-- The condition on a delivery: a vote that the node counts comes from the member it names, and a
proposal that the node accepts shares its digest with no other seal that an honest node has accepted
before. -/
def Authentic (P : Panel) (nodes : Nodes) : AuthorityId × Msg → Prop
  | (a, .propose p) => a ∈ P.honest ∧ ((nodes a).votedFor = none →
    p.isExternallyValid (nodes a).committee (nodes a).ownVotes = true → ∀ b ∈ P.honest,
      ∀ s ∈ (nodes b).proposalSeal, sealDigest s = sealDigest p.slotSeal → s = p.slotSeal)
  | (a, .vote d sender) => a ∈ P.honest ∧ ((nodes a).votedFor = some d → P.Voted nodes d sender)

instance (P : Panel) (nodes : Nodes) (step : AuthorityId × Msg) :
    Decidable (P.Authentic nodes step) := by
  obtain ⟨a, m⟩ := step
  cases m <;> unfold Authentic <;> infer_instance

/-- The invariant: every node is sound, and no two accepted seals share a digest. -/
structure Inv (P : Panel) (nodes : Nodes) : Prop where
  own : ∀ a ∈ P.honest, (nodes a).id = a ∧ (nodes a).committee = P.committee
  sound : ∀ a ∈ P.honest, (nodes a).Sound (P.Voted nodes)
  distinct : ∀ a ∈ P.honest, ∀ b ∈ P.honest, ∀ s s', (nodes a).proposalSeal = some s →
    (nodes b).proposalSeal = some s' → sealDigest s = sealDigest s' → s = s'

variable {P : Panel} {nodes nodes' : Nodes}

section

omit [Crypto]

/-- Votes are never taken back. -/
theorem Voted.mono (hgrow : ∀ b d, (nodes b).votedFor = some d → (nodes' b).votedFor = some d)
    {d : Digest} {b : AuthorityId} (h : P.Voted nodes d b) : P.Voted nodes' d b :=
  ⟨h.1, fun hb => hgrow b d (h.2 hb)⟩

/-- Nor are they when one node takes a step that keeps its vote. -/
theorem votedFor_update {a : AuthorityId} {x : AgreementNode}
    (hgrow : ∀ d, (nodes a).votedFor = some d → x.votedFor = some d) (b : AuthorityId) (d : Digest)
    (h : (nodes b).votedFor = some d) : (update nodes a x b).votedFor = some d := by
  by_cases hba : b = a
  · subst hba
    rw [update_self]
    exact hgrow d h
  · rwa [update_of_ne hba]

theorem inv_start : P.Inv P.start where
  own _ _ := ⟨rfl, rfl⟩
  sound a _ := AgreementNode.sound_new ..
  distinct a _ b _ s s' hs := by cases hs

/-- Replace one node by `x`, which keeps its name, its vote if it has one, and its evidence. -/
theorem Inv.update {a : AuthorityId} {x : AgreementNode} (ha : a ∈ P.honest) (h : P.Inv nodes)
    (hown : x.id = (nodes a).id ∧ x.committee = (nodes a).committee)
    (hgrow : ∀ d, (nodes a).votedFor = some d → x.votedFor = some d)
    (hsound : x.Sound (P.Voted (update nodes a x)))
    (hdistinct : ∀ b ∈ P.honest, ∀ s s', x.proposalSeal = some s →
      (nodes b).proposalSeal = some s' → sealDigest s' = sealDigest s → s' = s) :
    P.Inv (update nodes a x) := by
  refine ⟨fun b hb => ?_, fun b hb => ?_, fun b hb b' hb' s s' hs hs' heq => ?_⟩
  · by_cases hba : b = a
    · subst hba
      rw [update_self, hown.1, hown.2]
      exact h.own b hb
    · rw [update_of_ne hba]
      exact h.own b hb
  · by_cases hba : b = a
    · subst hba
      rw [update_self]
      exact hsound
    · rw [update_of_ne hba]
      exact (h.sound b hb).mono fun d c => Voted.mono (votedFor_update hgrow)
  · by_cases hba : b = a <;> by_cases hba' : b' = a
    · subst hba hba'
      exact Option.some.inj (hs.symm.trans hs')
    · subst hba
      rw [update_self] at hs
      rw [update_of_ne hba'] at hs'
      exact (hdistinct b' hb' s s' hs hs' heq.symm).symm
    · subst hba'
      rw [update_of_ne hba] at hs
      rw [update_self] at hs'
      exact hdistinct b hb s' s hs' hs heq
    · rw [update_of_ne hba] at hs
      rw [update_of_ne hba'] at hs'
      exact h.distinct b hb b' hb' s s' hs hs' heq

end

theorem inv_step {m : AuthorityId × Msg} (hok : P.Authentic nodes m)
    (hstep : step nodes m = some nodes') (h : P.Inv nodes) : P.Inv nodes' := by
  obtain ⟨a, m⟩ := m
  obtain ⟨x, hx, rfl⟩ := componentStep_eq_some.mp hstep
  obtain rfl := Option.some.inj hx
  have hp := (nodes a).processed m
  generalize ((nodes a).process m).2 = x at hp
  cases hp with
  | ignored => rwa [update_eq_self]
  | @accepted p hfree hvalid =>
    obtain ⟨ha, hcollide⟩ := hok
    have hgrow : ∀ d, (nodes a).votedFor = some d → ((nodes a).accept p).votedFor = some d := by
      intro d hd
      cases hfree.symm.trans hd
    refine h.update ha ⟨rfl, rfl⟩ hgrow (AgreementNode.Sound.accept hfree ?_ ?_) ?_
    · rw [(h.own a ha).1]
      refine ⟨P.seated ha, fun _ => ?_⟩
      rw [update_self]
      rfl
    · exact (h.sound a ha).mono fun d b => Voted.mono (votedFor_update hgrow)
    · intro b hb s s' hs hs' heq
      obtain rfl := Option.some.inj hs
      exact hcollide hfree hvalid b hb s' hs' heq
  | @counted d sender hd =>
    obtain ⟨ha, hvoted⟩ := hok
    have hgrow : ∀ b e, (nodes b).votedFor = some e →
        (update nodes a ((nodes a).recordVote d sender) b).votedFor = some e :=
      votedFor_update fun _ he => he
    refine h.update ha ⟨rfl, rfl⟩ (fun _ he => he) ?_ ?_
    · exact ((h.sound a ha).mono fun e b => Voted.mono hgrow).recordVote hd
        (Voted.mono hgrow (hvoted hd))
    · intro b hb s s' hs hs' heq
      exact h.distinct b hb a ha s' s hs' hs heq

theorem inv_reachable (h : Reachable step P.Authentic P.start nodes) : P.Inv nodes :=
  h.invariant inv_start fun _ _ _ _ ih hok hstep => inv_step hok hstep ih

omit [Crypto] in
/-- Behind the decision of an honest node stands a quorum of members, of which the honest ones have
voted for the seal. -/
theorem Inv.quorum (h : P.Inv nodes) {a : AuthorityId} (ha : a ∈ P.honest) {s : SlotSeal}
    (hs : (nodes a).decided = some s) :
    ∃ voters : List AuthorityId, voters.Nodup ∧ P.committee.quorum ≤ voters.length ∧
      (∀ b ∈ voters, b ∈ P.committee.seats) ∧
      ∀ b ∈ voters, b ∈ P.honest → (nodes b).proposalSeal = some s := by
  obtain ⟨hseal, hq⟩ := (h.sound a ha).decided s hs
  obtain ⟨hnodup, hvoters⟩ := (h.sound a ha).voters (sealDigest s)
  refine ⟨_, hnodup, (h.own a ha).2 ▸ hq, fun b hb => (hvoters b hb).1, fun b hb hhonest => ?_⟩
  obtain ⟨s', hs', hdigest⟩ := ((h.sound b hhonest).voted _).mp ((hvoters b hb).2 hhonest)
  rw [hs', h.distinct b hhonest a ha s' s hs' hseal hdigest]

end Panel

end Agreement

/-- No fork, in runs where counted votes are authentic and no two accepted seals share a digest: a
decision has a quorum of distinct members behind it, and all honest decisions are the same. -/
theorem seals_agree [Crypto] {P : Panel} (hf : P.WithinBudget) {nodes : Panel.Nodes}
    (h : Reachable Panel.step P.Authentic P.start nodes) :
    (∀ a ∈ P.honest, ∀ s, (nodes a).decided = some s →
      ∃ voters : List AuthorityId, voters.Nodup ∧ P.committee.quorum ≤ voters.length ∧
        (∀ b ∈ voters, b ∈ P.committee.seats) ∧
        ∀ b ∈ voters, b ∈ P.honest → (nodes b).proposalSeal = some s) ∧
    ∀ a ∈ P.honest, ∀ a' ∈ P.honest, ∀ s s', (nodes a).decided = some s →
      (nodes a').decided = some s' → s = s' := by
  have hinv := Panel.inv_reachable h
  refine ⟨fun a ha s hs => hinv.quorum ha hs, fun a ha a' ha' s s' hs hs' => ?_⟩
  obtain ⟨S, hS, hq, hmem, hvoted⟩ := hinv.quorum ha hs
  obtain ⟨S', hS', hq', hmem', hvoted'⟩ := hinv.quorum ha' hs'
  obtain ⟨b, hb, hb', hn⟩ := Committee.exists_common_seat hS hS' hmem hmem' hq hq' hf
  have hhonest : b ∈ P.honest := by
    by_contra hbad
    exact hn (Finset.mem_sdiff.mpr ⟨hmem b hb, hbad⟩)
  exact Option.some.inj ((hvoted b hb hhonest).symm.trans (hvoted' b hb' hhonest))

namespace Demo

open Transfer333.Demo

/-- Three honest members of `quad` that have seen no votes. -/
def panel : Panel where
  committee := quad
  honest := [a0, a1, a2].toFinset
  seated := by decide +kernel
  evidence _ := []

/-- The seal of alice's first transfer, for the committee with the given id. -/
def finalizeFor (committeeId : Digest) : SlotSeal :=
  ⟨alice, 0, committeeId, .finalize toBob.orderId⟩

/-- The seal with a certificate as its evidence. -/
def proposalFor (committeeId : Digest) : Msg :=
  .propose ⟨finalizeFor committeeId, .certFor (certify quad (quadRoster.take 3) toBob)⟩

/-- The vote that a node casts in answer to the proposal. -/
def voteOf (a : AuthorityId) : Msg := .vote (sealDigest (finalizeFor quad.id)) a

/-- One proposal for everybody, and each vote is delivered to `a0` and `a1`. -/
def agreedRun : List (AuthorityId × Msg) :=
  [(a0, proposalFor quad.id), (a1, proposalFor quad.id), (a2, proposalFor quad.id),
    (a0, voteOf a1), (a0, voteOf a2), (a1, voteOf a2), (a1, voteOf a0)]

/-- The leader sends `a1` the same seal for another committee. -/
def forkRun : List (AuthorityId × Msg) :=
  [(a0, proposalFor quad.id), (a1, proposalFor solo.id), (a2, proposalFor quad.id),
    (a0, voteOf a1), (a0, voteOf a2), (a1, voteOf a2), (a1, voteOf a0)]

/-- The leader sends `a0` two votes in names that it made up. -/
def forgedRun : List (AuthorityId × Msg) :=
  [(a0, proposalFor quad.id), (a0, voteOf alice), (a0, voteOf bob)]

end Demo

open Demo Transfer333.Demo in
/-- Two nodes decide the seal of one proposal, with three votes behind it. -/
theorem seals_agree_demo :
    ∃ nodes, Reachable Panel.step panel.Authentic panel.start nodes ∧
      (nodes a0).decided = some (finalizeFor quad.id) ∧
      (nodes a1).decided = some (finalizeFor quad.id) ∧
      ∃ voters : List AuthorityId, voters.Nodup ∧ quad.quorum ≤ voters.length ∧
        (∀ b ∈ voters, b ∈ quad.seats) ∧
        ∀ b ∈ voters, b ∈ panel.honest → (nodes b).proposalSeal = some (finalizeFor quad.id) := by
  obtain ⟨nodes, h, hd, hd'⟩ : ∃ nodes, Reachable Panel.step panel.Authentic panel.start nodes ∧
      (nodes a0).decided = some (finalizeFor quad.id) ∧
      (nodes a1).decided = some (finalizeFor quad.id) :=
    Reachable.of_exec agreedRun (by decide +kernel)
  exact ⟨nodes, h, hd, hd',
    (seals_agree (by decide +kernel) h).1 a0 (by decide +kernel) _ hd⟩

open Demo Transfer333.Demo in
/-- Every honest node votes once and every vote is delivered under the name of its voter, and two
honest nodes decide different seals. In the other run `a0` decides although no other honest member
has voted, and the Byzantine one and `a0` together are no quorum. -/
theorem seals_fork :
    panel.WithinBudget ∧
    (∃ nodes, Reachable Panel.step (fun _ step => step.1 ∈ panel.honest) panel.start nodes ∧
      (nodes a0).decided = some (finalizeFor quad.id) ∧
      (nodes a1).decided = some (finalizeFor solo.id) ∧
      finalizeFor quad.id ≠ finalizeFor solo.id) ∧
    ∃ nodes, Reachable Panel.step (fun _ step => step.1 ∈ panel.honest) panel.start nodes ∧
      (nodes a0).decided = some (finalizeFor quad.id) ∧
      (nodes a1).votedFor = none ∧ (nodes a2).votedFor = none ∧
      [a0, a3].length < panel.committee.quorum :=
  ⟨by decide +kernel, Reachable.of_exec forkRun (by decide +kernel),
    Reachable.of_exec forgedRun (by decide +kernel)⟩

end P2P333.Slotseal333
