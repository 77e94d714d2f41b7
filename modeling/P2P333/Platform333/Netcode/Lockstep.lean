import P2P333.Platform333.Bft.Certificates
import P2P333.Platform333.Netcode.BftMultiNode

/-!
# A node in lockstep

One node of an honest cluster while a block goes through its phases: the proposals that come in are
all for this block and from the leader, and the votes are those of the validators in the phase at
hand. A leader may act on more than one quorum in a phase, since its count starts anew after each.

Results:
1. `Works.drain_proposals`, `Works.drain_last`: a node votes for each proposal, and on the one for
   the commit phase it leaves the view.
2. `Works.drain_votes`: how often the leader moves on to the next phase.
3. `Works.drain_commits`: the leader decides.
-/

namespace P2P333.Platform333.Netcode

open Std Lib Platform333.Bft HotStuffState

section Lockstep

variable [Ed25519]

/-! ## Honest signatures -/

/-- What is signed with these keys verifies. -/
def SignsSoundly (key : NodeId → Identity) : Prop :=
  ∀ id msg noise, Ed25519.verify (key id).peerId msg (Ed25519.sign (key id).secret msg noise) = true

/-- The state of this validator, who knows the keys of all. -/
structure Member (vs : ValidatorSet) (key : NodeId → Identity) (id : NodeId) (s : HotStuffState) :
    Prop where
  mem : id ∈ vs.validators
  nodeId : s.nodeId = id
  identity : s.identity = key id
  keys : ∀ i ∈ vs.validators, s.keyring.peerId i = some (key i).peerId
  validators : s.validators = vs

/-- A vote with an honest signature. -/
structure Ballot (vs : ValidatorSet) (key : NodeId → Identity) (blockHash : UInt64) (phase : Phase)
    (sig : Signature) : Prop where
  mem : sig.signer ∈ vs.validators
  signed : ∃ noise, sig = signVote sig.signer blockHash phase (key sig.signer) noise

/-- A certificate that holds up. -/
structure Valid (vs : ValidatorSet) (key : NodeId → Identity) (qc : QuorumCert) : Prop where
  quorum : qc.hasQuorum vs.n = true
  ballots : ∀ sig ∈ qc.signatures, Ballot vs key qc.blockHash qc.phase sig

variable {vs : ValidatorSet} {key : NodeId → Identity} {id i : NodeId} {s s' : HotStuffState}
  {qc : QuorumCert} {phase : Phase}

theorem Member.congr (h : Member vs key id s) (hsetup : s'.setup = s.setup) :
    Member vs key id s' := by
  simp only [setup, Prod.mk.injEq] at hsetup
  obtain ⟨hnode, hidentity, hkeyring, hvalidators⟩ := hsetup
  exact ⟨h.mem, hnode.trans h.nodeId, hidentity.trans h.identity,
    fun i hi => hkeyring ▸ h.keys i hi, hvalidators.trans h.validators⟩

theorem verifyMsg_sign (hsound : SignsSoundly key) {k : ValidatorKeyring}
    (hk : k.peerId i = some (key i).peerId) (msg : Bytes) (noise : Noise) :
    verifyMsg ⟨i, (key i).sign msg noise⟩ msg k = true := by
  have hlen : ((key i).sign msg noise).length = 64 := List.Vector.toList_length _
  simp only [verifyMsg, hk, verifyBytes, dif_pos hlen]
  exact hsound i msg noise

theorem Ballot.verifies (hsound : SignsSoundly key) {k : ValidatorKeyring}
    (hk : ∀ i ∈ vs.validators, k.peerId i = some (key i).peerId) {blockHash : UInt64}
    {sig : Signature} (h : Ballot vs key blockHash phase sig) :
    verifyVote sig blockHash phase k = true := by
  obtain ⟨noise, hsig⟩ := h.signed
  rw [hsig]
  exact verifyMsg_sign hsound (hk _ h.mem) _ noise

theorem Valid.verifies (hsound : SignsSoundly key) {k : ValidatorKeyring}
    (hk : ∀ i ∈ vs.validators, k.peerId i = some (key i).peerId) (h : Valid vs key qc) :
    ∀ sig ∈ qc.signatures, verifyVote sig qc.blockHash qc.phase k = true :=
  fun sig hsig => (h.ballots sig hsig).verifies hsound hk

theorem Valid.signatures_ne_nil (h : Valid vs key qc) : qc.signatures ≠ [] := by
  intro hnil
  have hquorum := of_decide_eq_true h.quorum
  rw [QuorumCert.signers, hnil] at hquorum
  exact absurd hquorum (Nat.not_succ_le_zero _)

/-- The certificate for the beginning, or one that holds up. -/
def Justifies (vs : ValidatorSet) (key : NodeId → Identity) (qc : QuorumCert) : Prop :=
  qc = .genesis ∨ Valid vs key qc

theorem Justifies.accepted (hsound : SignsSoundly key) (hm : Member vs key id s)
    (h : Justifies vs key qc) : s.justifyIsValid qc = true := by
  rcases h with rfl | h
  · rfl
  · unfold justifyIsValid
    rw [hm.validators, h.quorum, if_neg (not_not.mpr rfl), if_neg]
    · refine List.all_eq_true.mpr fun sig hsig => ?_
      rw [h.verifies hsound hm.keys sig hsig, ValidatorSet.contains,
        List.contains_iff_mem.mpr (h.ballots sig hsig).mem]
      rfl
    · rw [List.isEmpty_iff]
      exact fun hgenesis => h.signatures_ne_nil hgenesis.1

/-! ## One block -/

variable (vs key) (v : UInt64) (block : Block)

/-- The block that the leader of this view has proposed. -/
structure Proposed : Prop where
  proposer : block.proposer = leaderForView v vs
  nonempty : block.transactions ≠ []
  justified : Justifies vs key block.justify

/-- A node that the block can go through. -/
structure Works (id : NodeId) (s : HotStuffState) : Prop where
  member : Member vs key id s
  view : s.view = v
  pending : id = block.proposer → s.pendingBlock = some block
  pool : s.txPool = []
  tracked : ∀ (k : NodeId × Phase × UInt64) hash, s.voteTracker[k]? = some hash → hash = block.hash
  ballots : ∀ phase, ∀ sig ∈ s.bucket block.hash phase, Ballot vs key block.hash phase sig
  high : Justifies vs key s.highQc
  safe : s.Safe block

/-- The node is locked on the block. -/
def Locked (s : HotStuffState) : Prop :=
  s.lockedQc.blockHash = block.hash ∧ s.lockedQc.view = v

/-- A node that has left the view. -/
structure Left (id : NodeId) (s : HotStuffState) : Prop where
  member : Member vs key id s
  view : s.view = v + 1
  pool : s.txPool = []
  votes : s.votes = ∅
  tracker : s.voteTracker = ∅
  high : Justifies vs key s.highQc
  locked : s.lockedQc.view = v

def IsProposal (phase : Phase) (msg : HotStuffMsg) : Prop :=
  ∃ noise, msg = .proposal block phase
    (signWithIdentity block.proposer block.hash (key block.proposer) noise)

def IsVote (phase : Phase) (i : NodeId) (msg : HotStuffMsg) : Prop :=
  ∃ noise, msg = .vote block.hash v phase (signVote i block.hash phase (key i) noise)

variable {vs key v block} {msg : HotStuffMsg} {msgs : List HotStuffMsg} {m : Moment}
  {moment : Nat → Moment}

omit [Ed25519] in
theorem leader_mem (vs : ValidatorSet) (v : UInt64) : leaderForView v vs ∈ vs.validators :=
  List.get_mem ..

theorem Works.currentLeader (hw : Works vs key v block id s) :
    s.currentLeader = leaderForView v vs := by
  rw [HotStuffState.currentLeader, hw.view, hw.member.validators]

theorem Works.isLeader_iff (hblock : Proposed vs key v block) (hw : Works vs key v block id s) :
    s.isLeader = true ↔ id = block.proposer := by
  rw [isLeader, hw.currentLeader, hw.member.nodeId, beq_iff_eq, hblock.proposer, eq_comm]

/-! ## Proposals -/

theorem Works.accepts (hsound : SignsSoundly key) (hblock : Proposed vs key v block)
    (hw : Works vs key v block id s) (noise : Noise) :
    s.Accepts block (signWithIdentity block.proposer block.hash (key block.proposer) noise) where
  verified := by
    refine verifyMsg_sign hsound (hw.member.keys _ ?_) _ noise
    rw [hblock.proposer]
    exact leader_mem vs v
  proposer := by rw [hw.currentLeader, hblock.proposer]
  justified := hblock.justified.accepted hsound hw.member
  safe := hw.safe

omit [Ed25519] in
theorem afterProposal_of_stays (h : ¬ (phase = .commit ∧ ¬ s.isLeader)) :
    s.afterProposal m block phase =
      { s with
        blocks := s.blocks.insert block.hash block, pendingBlock := some block, phase := phase
        lockedQc := if phase = .preCommit then
            ⟨block.hash, s.view, block.justify.phase, block.justify.signatures⟩
          else s.lockedQc } :=
  if_neg h

/-- A node that stays works on, and a `PreCommit` proposal locks it. -/
theorem Works.afterProposal (hw : Works vs key v block id s)
    (hstays : ¬ (phase = .commit ∧ ¬ s.isLeader)) :
    Works vs key v block id (s.afterProposal m block phase) ∧
      (s.afterProposal m block phase).votes = s.votes ∧
      (phase = .preCommit ∨ Locked v block s → Locked v block (s.afterProposal m block phase)) := by
  have hlock : (s.afterProposal m block phase).lockedQc = if phase = .preCommit then
      ⟨block.hash, s.view, block.justify.phase, block.justify.signatures⟩ else s.lockedQc :=
    afterProposal_lockedQc
  have hlocked : phase = .preCommit → Locked v block (s.afterProposal m block phase) := by
    rintro rfl
    rw [if_pos rfl] at hlock
    exact ⟨congrArg QuorumCert.blockHash hlock, (congrArg QuorumCert.view hlock).trans hw.view⟩
  -- A lock on this very block does not stand in its way.
  have hsafe : (s.afterProposal m block phase).Safe block := by
    by_cases hphase : phase = .preCommit
    · exact .inr (.inr (hlocked hphase).1.symm)
    · have hsafe := hw.safe
      rw [if_neg hphase] at hlock
      unfold Safe at hsafe ⊢
      rwa [hlock]
  refine ⟨?_, ?_, fun h => h.elim hlocked fun hold => ?_⟩
  · have hmember : Member vs key id (s.afterProposal m block phase) :=
      hw.member.congr setup_afterProposal
    rw [afterProposal_of_stays hstays] at hsafe hmember ⊢
    exact ⟨hmember, hw.view, fun _ => rfl, hw.pool, hw.tracked, hw.ballots, hw.high, hsafe⟩
  · rw [afterProposal_of_stays hstays]
  · by_cases hphase : phase = .preCommit
    · exact hlocked hphase
    · rw [if_neg hphase] at hlock
      unfold Locked
      rw [hlock]
      exact hold

theorem Works.process_proposal (hsound : SignsSoundly key) (hblock : Proposed vs key v block)
    (hw : Works vs key v block id s) (hmsg : IsProposal key block phase msg) :
    ∃ vote, IsVote key v block phase id vote ∧
      s.process m msg = (.sendToLeader vote, s.afterProposal m block phase) := by
  obtain ⟨noise, rfl⟩ := hmsg
  refine ⟨s.castVote m block phase, ⟨m.noise, ?_⟩, ?_⟩
  · rw [castVote, hw.view, hw.member.nodeId, hw.member.identity]
  · rw [HotStuffState.process_proposal, if_pos (hw.accepts hsound hblock noise)]

/-- A node that stays votes for every proposal. -/
theorem Works.drain_proposals (moment : Nat → Moment) (hsound : SignsSoundly key)
    (hblock : Proposed vs key v block)
    (hw : Works vs key v block id s) (hstays : phase ≠ .commit ∨ id = block.proposer)
    (hmsgs : ∀ msg ∈ msgs, IsProposal key block phase msg) :
    ∃ votes s', drain moment s msgs = ⟨votes, none, s', []⟩ ∧ Works vs key v block id s' ∧
      s'.votes = s.votes ∧ votes.length = msgs.length ∧
      (∀ vote ∈ votes, IsVote key v block phase id vote) ∧
      (phase = .preCommit ∧ msgs ≠ [] ∨ Locked v block s → Locked v block s') := by
  induction msgs generalizing s with
  | nil =>
    exact ⟨[], s, rfl, hw, rfl, rfl, by simp, fun h => h.elim (fun h => absurd rfl h.2) fun h => h⟩
  | cons msg rest ih =>
    obtain ⟨vote, hvote, hprocess⟩ := hw.process_proposal (m := moment rest.length) hsound hblock
      (hmsgs msg List.mem_cons_self)
    have hstill : ¬ (phase = .commit ∧ ¬ s.isLeader) := fun ⟨hcommit, hother⟩ =>
      hstays.elim (absurd hcommit) fun hid => hother ((hw.isLeader_iff hblock).mpr hid)
    obtain ⟨hnext, hvotes, hlock⟩ := hw.afterProposal (m := moment rest.length) hstill
    obtain ⟨votes, s', hdrain, hw', hvotes', hlen, hall, hlock'⟩ :=
      ih hnext fun msg hmem => hmsgs msg (List.mem_cons_of_mem _ hmem)
    refine ⟨vote :: votes, s', ?_, hw', hvotes'.trans hvotes, congrArg Nat.succ hlen, ?_, ?_⟩
    · simp only [drain, hprocess, hdrain]
    · exact List.forall_mem_cons.mpr ⟨hvote, hall⟩
    · exact fun h => hlock' (.inr (hlock (h.imp_left And.left)))

theorem Works.leaves (hblock : Proposed vs key v block) (hw : Works vs key v block id s)
    (hother : id ≠ block.proposer) (hlocked : Locked v block s) :
    Left vs key v id (s.afterProposal m block .commit) := by
  have hmember : Member vs key id (s.afterProposal m block .commit) :=
    hw.member.congr setup_afterProposal
  have hleaves : Phase.commit = .commit ∧ ¬ s.isLeader :=
    ⟨rfl, fun h => hother ((hw.isLeader_iff hblock).mp h)⟩
  unfold HotStuffState.afterProposal at hmember ⊢
  rw [if_pos hleaves] at hmember ⊢
  exact ⟨hmember, congrArg (· + 1) hw.view, hw.pool, rfl, rfl, hw.high, hlocked.2⟩

/-- A node that has left has another leader, and votes no more. -/
theorem Left.refuses (hblock : Proposed vs key v block) (hl : Left vs key v id s)
    (hnext : leaderForView (v + 1) vs ≠ leaderForView v vs)
    (hmsg : IsProposal key block phase msg) : s.process m msg = (.none, s) := by
  obtain ⟨noise, rfl⟩ := hmsg
  rw [HotStuffState.process_proposal, if_neg]
  intro haccepts
  have hproposer := haccepts.proposer
  rw [HotStuffState.currentLeader, hl.view, hl.member.validators, hblock.proposer] at hproposer
  exact hnext hproposer.symm

theorem Left.drain_proposals (hblock : Proposed vs key v block) (hl : Left vs key v id s)
    (hnext : leaderForView (v + 1) vs ≠ leaderForView v vs)
    (hmsgs : ∀ msg ∈ msgs, IsProposal key block phase msg) :
    drain moment s msgs = ⟨[], none, s, []⟩ := by
  induction msgs with
  | nil => rfl
  | cons msg rest ih =>
    simp only [drain, hl.refuses hblock hnext (hmsgs msg List.mem_cons_self)]
    exact ih fun msg hmem => hmsgs msg (List.mem_cons_of_mem _ hmem)

/-- On the proposal for the commit phase a node votes once, and leaves the view. -/
theorem Works.drain_last (moment : Nat → Moment) (hsound : SignsSoundly key)
    (hblock : Proposed vs key v block)
    (hw : Works vs key v block id s) (hother : id ≠ block.proposer) (hlocked : Locked v block s)
    (hnext : leaderForView (v + 1) vs ≠ leaderForView v vs) (hne : msgs ≠ [])
    (hmsgs : ∀ msg ∈ msgs, IsProposal key block .commit msg) :
    ∃ vote s', drain moment s msgs = ⟨[vote], none, s', []⟩ ∧ Left vs key v id s' ∧
      IsVote key v block .commit id vote := by
  obtain ⟨msg, rest, rfl⟩ := List.exists_cons_of_ne_nil hne
  obtain ⟨vote, hvote, hprocess⟩ := hw.process_proposal (m := moment rest.length) hsound hblock
    (hmsgs msg List.mem_cons_self)
  have hleft := hw.leaves (m := moment rest.length) hblock hother hlocked
  refine ⟨vote, _, ?_, hleft, hvote⟩
  simp only [drain, hprocess]
  rw [hleft.drain_proposals hblock hnext fun msg hmem => hmsgs msg (List.mem_cons_of_mem _ hmem)]

/-! ## Votes -/

variable {sig : Signature}

theorem IsVote.signer_eq {phase' : Phase} {j : NodeId} (h : IsVote key v block phase i msg)
    (h' : IsVote key v block phase' j msg) : i = j := by
  obtain ⟨noise, rfl⟩ := h
  obtain ⟨noise', h'⟩ := h'
  simp only [HotStuffMsg.vote.injEq, signVote, Signature.mk.injEq] at h'
  exact h'.2.2.2.1

variable (block) in
/-- Those whose votes for the block are in the bucket. -/
def tally (s : HotStuffState) (phase : Phase) : Finset NodeId :=
  ((s.bucket block.hash phase).map Signature.signer).toFinset

section

omit [Ed25519]

theorem mem_tally : i ∈ tally block s phase ↔
    (s.bucket block.hash phase).any (fun other => other.signer == i) = true := by
  simp [tally]

theorem tally_of_nil (h : s.bucket block.hash phase = []) : tally block s phase = ∅ := by
  rw [tally, h]
  rfl

theorem card_tally_le : (tally block s phase).card ≤ (s.bucket block.hash phase).length := by
  refine (List.toFinset_card_le _).trans ?_
  rw [List.length_map]

theorem hasQuorum_certificate : (s.certificate block.hash phase sig).hasQuorum vs.n = true ↔
    vs.quorumSize ≤ (insert sig.signer (tally block s phase)).card := by
  rw [ValidatorSet.hasQuorum_iff]
  have hsigners : (s.certificate block.hash phase sig).signers =
      insert sig.signer (tally block s phase) := by
    ext i
    simp [QuorumCert.signers, certificate, tally, eq_comm]
  rw [hsigners]

end

theorem Works.track (hw : Works vs key v block id s) :
    Works vs key v block id (s.track block.hash phase sig) := by
  refine ⟨hw.member.congr rfl, hw.view, hw.pending, hw.pool, fun k hash h => ?_,
    hw.ballots, hw.high,
    hw.safe⟩
  simp only [HotStuffState.track, ExtTreeMap.getElem?_insert] at h
  split_ifs at h
  · exact (Option.some.inj h).symm
  · exact hw.tracked k hash h

theorem Works.addVote (hw : Works vs key v block id s) (hsig : Ballot vs key block.hash phase sig) :
    Works vs key v block id (s.addVote block.hash phase sig) := by
  refine ⟨hw.member.congr rfl, hw.view, hw.pending, hw.pool, hw.tracked, fun p other hother => ?_,
    hw.high, hw.safe⟩
  rw [bucket_addVote] at hother
  split_ifs at hother with hsame
  · obtain rfl := congrArg Prod.snd hsame
    rcases List.mem_append.mp hother with hother | hother
    · exact hw.ballots _ other hother
    · rw [List.mem_singleton.mp hother]
      exact hsig
  · exact hw.ballots p other hother

theorem Works.certificate (hw : Works vs key v block id s)
    (hsig : Ballot vs key block.hash phase sig)
    (hquorum : (s.certificate block.hash phase sig).hasQuorum vs.n = true) :
    Valid vs key (s.certificate block.hash phase sig) := by
  refine ⟨hquorum, fun other hother => ?_⟩
  rcases List.mem_append.mp hother with hother | hother
  · exact hw.ballots phase other hother
  · rw [List.mem_singleton.mp hother]
    exact hsig

/-- The vote is counted. -/
structure Counted (vs : ValidatorSet) (block : Block) (phase : Phase) (i : NodeId)
    (s s' : HotStuffState) : Prop where
  lockedQc : s'.lockedQc = s.lockedQc
  others : ∀ p ≠ phase, s'.bucket block.hash p = s.bucket block.hash p
  tally : tally block s' phase = insert i (tally block s phase)
  length : (s'.bucket block.hash phase).length ≤ (s.bucket block.hash phase).length + 1
  few : (Netcode.tally block s phase).card < vs.quorumSize →
    (Netcode.tally block s' phase).card < vs.quorumSize

theorem Works.constant (hw : Works vs key v block id s) : ¬ s.Equivocates block.hash phase sig := by
  unfold Equivocates
  cases htracked : s.voteTracker[(sig.signer, phase, s.view)]? with
  | none => exact not_false
  | some hash => exact not_not.mpr (hw.tracked _ hash htracked)

/-- A vote that does not complete a quorum goes into its bucket. -/
theorem Works.counted (hw : Works vs key v block id s) (hsig : Ballot vs key block.hash phase sig)
    (hfew : ¬ (s.certificate block.hash phase sig).hasQuorum vs.n = true) :
    Works vs key v block id ((s.track block.hash phase sig).addVote block.hash phase sig) ∧
      Counted vs block phase sig.signer s
        ((s.track block.hash phase sig).addVote block.hash phase sig) := by
  have hbucket : ∀ p, ((s.track block.hash phase sig).addVote block.hash phase sig).bucket
      block.hash p = if p = phase then s.bucket block.hash phase ++ [sig]
        else s.bucket block.hash p := by
    intro p
    simp only [bucket_addVote, Prod.mk.injEq, true_and, eq_comm (a := phase)]
    rfl
  have htally :
      tally block ((s.track block.hash phase sig).addVote block.hash phase sig) phase =
        insert sig.signer (tally block s phase) := by
    ext j
    simp [tally, hbucket, eq_comm]
  refine ⟨hw.track.addVote hsig, rfl, fun p hp => ?_, htally, ?_, fun _ => ?_⟩
  · rw [hbucket, if_neg hp]
  · rw [hbucket, if_pos rfl, List.length_append, List.length_singleton]
  · rw [hasQuorum_certificate, Nat.not_le] at hfew
    rw [htally]
    exact hfew

/-- The leader counts a vote, or acts on the quorum that it completes. -/
theorem Works.process_vote (hsound : SignsSoundly key) (hblock : Proposed vs key v block)
    (hw : Works vs key v block id s) (hid : id = block.proposer) (hi : i ∈ vs.validators)
    (hmsg : IsVote key v block phase i msg) :
    (∃ s', s.process m msg = (.none, s') ∧ Works vs key v block id s' ∧
      Counted vs block phase i s s') ∨
    ∃ sig, Ballot vs key block.hash phase sig ∧
      (s.certificate block.hash phase sig).hasQuorum vs.n = true ∧
      s.process m msg =
        (s.cleared block.hash phase sig).onQuorum m (s.certificate block.hash phase sig) := by
  obtain ⟨noise, rfl⟩ := hmsg
  generalize hsig : signVote i block.hash phase (key i) noise = sig
  obtain rfl : sig.signer = i := hsig ▸ rfl
  have hballot : Ballot vs key block.hash phase sig := ⟨hi, noise, hsig.symm⟩
  have hleader := (hw.isLeader_iff hblock).mpr hid
  have hverified := hballot.verifies hsound hw.member.keys
  have hconstant : ¬ s.Equivocates block.hash phase sig := hw.constant
  have hmember : s.validators.contains sig.signer = true := by
    rw [hw.member.validators]
    exact List.contains_iff_mem.mpr hi
  cases hfresh : (s.bucket block.hash phase).any (fun other => other.signer == sig.signer) with
  | true =>
    have hfresh' : ((s.track block.hash phase sig).bucket block.hash phase).any
        (fun other => other.signer == sig.signer) = true := hfresh
    refine .inl ⟨s.track block.hash phase sig, ?_, hw.track, rfl, fun _ _ => rfl,
      (Finset.insert_eq_of_mem (mem_tally.mpr hfresh)).symm, Nat.le_succ _, fun h => h⟩
    simp only [process, onVote, hleader, hw.view, hverified, hmember, hconstant, hfresh', not_true,
      ne_eq, if_false, if_true]
  | false =>
    have hcounts : s.Counts block.hash v phase sig :=
      ⟨hleader, hw.view.symm, hverified, hmember, hconstant, hfresh⟩
    have hsize : s.validators.n = vs.n := congrArg ValidatorSet.n hw.member.validators
    by_cases hquorum : (s.certificate block.hash phase sig).hasQuorum vs.n = true
    · exact .inr ⟨sig, hballot, hquorum, process_of_completes ⟨hcounts, hsize.symm ▸ hquorum⟩⟩
    · obtain ⟨hworks, hcounted⟩ := hw.counted hballot hquorum
      exact .inl ⟨_, process_of_counts hcounts (hsize.symm ▸ hquorum), hworks, hcounted⟩

/-! ## Quorums -/

/-- The phase that a quorum leads to. -/
def nextPhase : Phase → Phase
  | .prepare => .preCommit
  | .preCommit => .commit
  | .commit | .decide => .decide

/-- The leader acts on a quorum of one of the first two phases. -/
theorem Works.advances (hw : Works vs key v block id s) (hid : id = block.proposer)
    (hphase : phase = .prepare ∨ phase = .preCommit) (hsig : Ballot vs key block.hash phase sig)
    (hquorum : (s.certificate block.hash phase sig).hasQuorum vs.n = true) :
    ∃ answer s', (s.cleared block.hash phase sig).onQuorum m
        (s.certificate block.hash phase sig) = (.broadcast answer, s') ∧
      IsProposal key block (nextPhase phase) answer ∧ Works vs key v block id s' ∧ s'.votes = ∅ ∧
      (Locked v block s → Locked v block s') := by
  have hvalid := hw.certificate hsig hquorum
  have htracks : Works vs key v block id (s.track block.hash phase sig) := hw.track
  have htracked := htracks.tracked
  have hempty : ∀ {s' : HotStuffState}, s'.votes = ∅ → ∀ phase,
      ∀ sig ∈ s'.bucket block.hash phase, Ballot vs key block.hash phase sig := by
    intro s' hvotes phase sig hsig
    rw [bucket_nil hvotes] at hsig
    cases hsig
  have hproposal : ∀ next, (s.cleared block.hash phase sig).nextProposal m next =
      .broadcast (.proposal block next
        (signWithIdentity block.proposer block.hash (key block.proposer) m.noise)) := by
    intro next
    have hpending : (s.cleared block.hash phase sig).pendingBlock = some block := hw.pending hid
    have hnode : (s.cleared block.hash phase sig).nodeId = block.proposer :=
      hw.member.nodeId.trans hid
    have hidentity : (s.cleared block.hash phase sig).identity = key block.proposer :=
      hid ▸ hw.member.identity
    simp only [nextProposal, hpending, hnode, hidentity]
  rcases hphase with rfl | rfl
  · refine ⟨_, _, congrArg₂ Prod.mk (hproposal .preCommit) rfl, ⟨m.noise, rfl⟩, ?_, rfl, fun h => h⟩
    exact ⟨hw.member.congr rfl, hw.view, hw.pending, hw.pool, htracked, hempty rfl, .inr hvalid,
      hw.safe⟩
  · refine ⟨_, _, congrArg₂ Prod.mk (hproposal .commit) rfl, ⟨m.noise, rfl⟩, ?_, rfl,
      fun _ => ⟨rfl, hw.view⟩⟩
    exact ⟨hw.member.congr rfl, hw.view, hw.pending, hw.pool, htracked, hempty rfl, .inr hvalid,
      .inr (.inr rfl)⟩

omit [Ed25519] in
theorem commitPending_txPool : s.commitPending.txPool = s.txPool := by
  unfold commitPending
  cases s.pendingBlock <;> rfl

/-- The leader acts on a quorum of the last phase. -/
theorem Works.decides (hblock : Proposed vs key v block) (hw : Works vs key v block id s)
    (hid : id = block.proposer) (hsig : Ballot vs key block.hash .commit sig)
    (hquorum : (s.certificate block.hash .commit sig).hasQuorum vs.n = true) :
    ∃ txs signature s', (s.cleared block.hash .commit sig).onQuorum m
        (s.certificate block.hash .commit sig) =
          (.committed txs (.newView (v + 1) (s.certificate block.hash .commit sig) signature), s') ∧
      Left vs key v id s' ∧ s'.highQc = s.certificate block.hash .commit sig := by
  have hvalid := hw.certificate hsig hquorum
  generalize hc : s.cleared block.hash .commit sig = c
  generalize hqc : s.certificate block.hash .commit sig = qc at hvalid ⊢
  have hphase : qc.phase = .commit := hqc ▸ rfl
  have hview : c.view = v := hc ▸ hw.view
  have hpending : c.pendingBlock = some block := hc ▸ hw.pending hid
  have hsetup : c.setup = s.setup := hc ▸ rfl
  have hlocked : qc.view = v := hqc ▸ hw.view
  have hresult : ∃ signature, (c.onQuorum m qc).1 =
      .committed block.transactions (.newView (v + 1) qc signature) := by
    have htxs : (c.pendingBlock.elim [] Block.transactions).isEmpty = false := by
      rw [hpending, List.isEmpty_eq_false_iff]
      exact hblock.nonempty
    refine ⟨signWithIdentity c.commitPending.nodeId (v + 1) c.commitPending.identity m.noise, ?_⟩
    simp only [onQuorum, hphase, htxs, hview, Bool.false_eq_true, if_false]
    rw [hpending]
    rfl
  obtain ⟨signature, hresult⟩ := hresult
  refine ⟨block.transactions, signature, (c.onQuorum m qc).2, Prod.ext hresult rfl, ?_, ?_⟩
  · constructor
    · exact hw.member.congr (setup_onQuorum.trans hsetup)
    · rw [onQuorum_view, if_pos hphase, hview]
    · have hpool : c.commitPending.txPool = [] := by
        rw [commitPending_txPool, ← hc]
        exact hw.pool
      simp only [onQuorum, hphase]
      exact hpool
    · rw [onQuorum_votes, ← hc]
      rfl
    · simp only [onQuorum, hphase]
    · rw [onQuorum_highQc, if_neg (by rw [hphase]; decide)]
      exact .inr hvalid
    · rw [onQuorum_lockedQc, if_pos (.inr hphase), hlocked]
  · rw [onQuorum_highQc, if_neg (by rw [hphase]; decide)]

/-- How often the leader moves on: it does so with every quorum, for which its count starts anew.
Where it never does, it has the votes of all whose votes came in. -/
theorem Works.drain_votes (moment : Nat → Moment) (hsound : SignsSoundly key)
    (hblock : Proposed vs key v block)
    (hw : Works vs key v block id s) (hid : id = block.proposer)
    (hphase : phase = .prepare ∨ phase = .preCommit)
    (hmsgs : ∀ msg ∈ msgs, ∃ i ∈ vs.validators, IsVote key v block phase i msg)
    (hfew : (tally block s phase).card < vs.quorumSize) :
    ∃ out s', drain moment s msgs = ⟨out, none, s', []⟩ ∧ Works vs key v block id s' ∧
      (Locked v block s → Locked v block s') ∧
      (∀ msg ∈ out, IsProposal key block (nextPhase phase) msg) ∧
      (∀ p ≠ phase, s.bucket block.hash p = [] → s'.bucket block.hash p = []) ∧
      out.length * vs.quorumSize ≤ (s.bucket block.hash phase).length + msgs.length ∧
      (out = [] → (tally block s' phase).card < vs.quorumSize ∧
        tally block s phase ⊆ tally block s' phase ∧
        ∀ msg ∈ msgs, ∀ i, IsVote key v block phase i msg → i ∈ tally block s' phase) := by
  induction msgs generalizing s with
  | nil =>
    exact ⟨[], s, rfl, hw, fun h => h, nofun, fun _ _ h => h, by simp,
      fun _ => ⟨hfew, subset_rfl, nofun⟩⟩
  | cons msg rest ih =>
    obtain ⟨i, hi, hvote⟩ := hmsgs msg List.mem_cons_self
    have hrest : ∀ msg ∈ rest, ∃ i ∈ vs.validators, IsVote key v block phase i msg :=
      fun msg hmem => hmsgs msg (List.mem_cons_of_mem _ hmem)
    rcases hw.process_vote (m := moment rest.length) hsound hblock hid hi hvote with
      ⟨s₁, hprocess, hw₁, hcounted⟩ | ⟨sig, hsig, hquorum, hprocess⟩
    · -- The vote goes into the bucket, which stays short of a quorum.
      obtain ⟨out, s', hdrain, hw', hlock, hout, hothers, hlen, hnone⟩ :=
        ih hw₁ hrest (hcounted.few hfew)
      refine ⟨out, s', ?_, hw', fun h => hlock ?_, hout, fun p hp hnil => ?_, ?_, fun hnil => ?_⟩
      · simp only [drain, hprocess, hdrain]
      · unfold Locked
        rw [hcounted.lockedQc]
        exact h
      · exact hothers p hp ((hcounted.others p hp).trans hnil)
      · have hlength := hcounted.length
        rw [List.length_cons]
        omega
      · obtain ⟨hfew', hsub, hall⟩ := hnone hnil
        rw [hcounted.tally] at hsub
        refine ⟨hfew', (Finset.subset_insert _ _).trans hsub, fun msg' hmem j hj => ?_⟩
        rcases List.mem_cons.mp hmem with rfl | hmem
        · rw [hj.signer_eq hvote]
          exact hsub (Finset.mem_insert_self _ _)
        · exact hall msg' hmem j hj
    · -- The vote completes a quorum, and all buckets are empty again.
      obtain ⟨answer, s₁, hadvance, hproposal, hw₁, hvotes, hlock₁⟩ :=
        hw.advances (m := moment rest.length) hid hphase hsig hquorum
      have hnil : ∀ p, s₁.bucket block.hash p = [] := fun p => bucket_nil hvotes _ p
      have hfew₁ : (tally block s₁ phase).card < vs.quorumSize := by
        rw [tally_of_nil (hnil phase)]
        exact Nat.succ_pos _
      obtain ⟨out, s', hdrain, hw', hlock, hout, hothers, hlen, -⟩ := ih hw₁ hrest hfew₁
      refine ⟨answer :: out, s', ?_, hw', fun h => hlock (hlock₁ h), ?_, fun p hp _ =>
        ?_, ?_, nofun⟩
      · simp only [drain, hprocess, hadvance, hdrain]
      · exact List.forall_mem_cons.mpr ⟨hproposal, hout⟩
      · exact hothers p hp (hnil p)
      · have hcard := hasQuorum_certificate.mp hquorum
        have hinsert := Finset.card_insert_le sig.signer (tally block s phase)
        have hbucket : (tally block s phase).card ≤ (s.bucket block.hash phase).length :=
          card_tally_le
        rw [hnil, List.length_nil] at hlen
        rw [List.length_cons, List.length_cons, Nat.succ_mul]
        omega

omit [Ed25519] in
theorem quorumSize_le_n (vs : ValidatorSet) : vs.quorumSize ≤ vs.n := by
  have hpos := vs.n_pos
  unfold ValidatorSet.quorumSize ValidatorSet.f
  omega

omit [Ed25519] in
/-- A leader with the votes of all has a quorum. -/
theorem not_few_of_all (hdistinct : vs.validators.Nodup)
    (hall : ∀ i ∈ vs.validators, i ∈ tally block s phase) :
    ¬ (tally block s phase).card < vs.quorumSize := by
  have hsub : vs.members ⊆ tally block s phase := fun i hi => hall i (List.mem_toFinset.mp hi)
  have hcard : vs.members.card = vs.n := List.toFinset_card_of_nodup hdistinct
  have hle := Finset.card_le_card hsub
  have hquorum := quorumSize_le_n vs
  omega

/-- The leader decides as soon as a quorum of the last phase is there. The votes after that stay in
its inbox. -/
theorem Works.drain_commits (moment : Nat → Moment) (hsound : SignsSoundly key)
    (hdistinct : vs.validators.Nodup)
    (hblock : Proposed vs key v block) (hw : Works vs key v block id s) (hid : id = block.proposer)
    (hmsgs : ∀ msg ∈ msgs, ∃ i ∈ vs.validators, IsVote key v block .commit i msg)
    (hfew : (tally block s .commit).card < vs.quorumSize)
    (hall : ∀ i ∈ vs.validators, i ∈ tally block s .commit ∨
      ∃ msg ∈ msgs, IsVote key v block .commit i msg) :
    ∃ qc signature s' rest,
      drain moment s msgs = ⟨[], some (.newView (v + 1) qc signature), s', rest⟩ ∧
      Left vs key v id s' ∧ s'.highQc = qc ∧ Valid vs key qc ∧ qc.phase = .commit ∧ qc.view = v ∧
      rest <:+ msgs ∧ rest.length < msgs.length := by
  induction msgs generalizing s with
  | nil =>
    refine absurd hfew (not_few_of_all hdistinct fun i hi => ?_)
    exact (hall i hi).resolve_right nofun
  | cons msg rest ih =>
    obtain ⟨i, hi, hvote⟩ := hmsgs msg List.mem_cons_self
    have hrest : ∀ msg ∈ rest, ∃ i ∈ vs.validators, IsVote key v block .commit i msg :=
      fun msg hmem => hmsgs msg (List.mem_cons_of_mem _ hmem)
    rcases hw.process_vote (m := moment rest.length) hsound hblock hid hi hvote with
      ⟨s₁, hprocess, hw₁, hcounted⟩ | ⟨sig, hsig, hquorum, hprocess⟩
    · have hall₁ : ∀ j ∈ vs.validators, j ∈ tally block s₁ .commit ∨
          ∃ msg ∈ rest, IsVote key v block .commit j msg := by
        intro j hj
        rw [hcounted.tally, Finset.mem_insert]
        rcases hall j hj with hold | ⟨msg', hmem, hj'⟩
        · exact .inl (.inr hold)
        · rcases List.mem_cons.mp hmem with rfl | hmem
          · exact .inl (.inl (hj'.signer_eq hvote))
          · exact .inr ⟨msg', hmem, hj'⟩
      obtain ⟨qc, signature, s', left, hdrain, hdone, hhigh, hvalid, hphase, hview,
        hsuffix, hlen⟩ :=
        ih hw₁ hrest (hcounted.few hfew) hall₁
      refine ⟨qc, signature, s', left, ?_, hdone, hhigh, hvalid, hphase, hview,
        hsuffix.trans (List.suffix_cons _ _), hlen.trans (Nat.lt_succ_self _)⟩
      simp only [drain, hprocess, hdrain]
    · -- The first quorum ends the round, and the rest of the mail is not read.
      obtain ⟨txs, signature, s', hdecide, hdone, hhigh⟩ :=
        hw.decides (m := moment rest.length) hblock hid hsig hquorum
      refine ⟨_, signature, s', rest, ?_, hdone, hhigh, hw.certificate hsig hquorum, rfl, hw.view,
        List.suffix_cons _ _, Nat.lt_succ_self _⟩
      simp only [drain, hprocess, hdecide]

end Lockstep

end P2P333.Platform333.Netcode
