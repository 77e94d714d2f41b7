import P2P333.Platform333.Bft.Cluster

/-!
# HotStuff: agreement

Two commits of honest leaders lie on one chain if a block that has been committed binds the voters
of later views. It binds those who have voted for it in the second phase, as they are locked on it:
what they vote for afterwards extends it, and every quorum has one of them in it. The locks do their
work only in runs where the certificates tell their view, leaders do not contradict themselves, and
quorums meet in an honest node (`Sound`).

In general they do not. The certificate of genesis counts as one of view 0, and so is as recent as a
lock of view 0; a leader that has not heard of the first commit starts a second chain, without
anyone being faulty.

Results:
1. `extends_of_locked`: those who are locked on a block vote for its extensions only.
2. `agreement`: in sound runs, honest nodes commit on one chain, and one block for each view.
3. `two_chains`: four honest nodes commit two blocks that have nothing to do with each other.
-/

namespace P2P333.Platform333.Bft

open Std Lib HotStuffState

section Agreement

variable [Ed25519]

/-! ## Statement -/

/-- The block is the first one or extends it, by way of blocks that honest nodes have voted for. -/
inductive Extends (log : List Event) (first : UInt64) : UInt64 → Prop
  | refl : Extends log first first
  | step {e : Event} {block : Block} {phase : Phase} (he : e ∈ log)
      (hvotes : e.votes = some (block, phase)) (h : Extends log first block.parentHash) :
      Extends log first block.hash

/-- Commits for one view are of one block, and any two lie on one chain. -/
structure Agrees (log : List Event) : Prop where
  sameView : ∀ e ∈ log, ∀ e' ∈ log, ∀ block block', e.commits = some block →
    e'.commits = some block' → block.view = block'.view → block.hash = block'.hash ∧
      block.parentHash = block'.parentHash ∧ block.transactions = block'.transactions
  chain : ∀ e ∈ log, ∀ e' ∈ log, ∀ block block', e.commits = some block →
    e'.commits = some block' → Extends log block.hash block'.hash ∨
      Extends log block'.hash block.hash

/-- The blocks that honest nodes vote for or propose do not collide. -/
def CollisionFree (log : List Event) : Prop :=
  ∀ e ∈ log, ∀ e' ∈ log, ∀ block block', e.block = some block → e'.block = some block' →
    block.expectedHash = block'.expectedHash → block.view = block'.view ∧
      block.parentHash = block'.parentHash ∧ block.transactions = block'.transactions

/-- The node has voted for the block in the second phase of the view. -/
def PreCommitted (log : List Event) (id : NodeId) (blockHash view : UInt64) : Prop :=
  ∃ e ∈ log, e.node = id ∧ e.before.view = view ∧
    ∃ v ∈ e.votes, v.2 = .preCommit ∧ v.1.hash = blockHash

instance (log : List Event) (id : NodeId) (blockHash view : UInt64) :
    Decidable (PreCommitted log id blockHash view) :=
  inferInstanceAs (Decidable (∃ e ∈ log, _ ∧ _ ∧ ∃ v ∈ e.votes, _))

/-- What the handlers take for granted about a call, given what has happened. -/
structure Sound (C : Cluster) (log : List Event) (e : Event) : Prop where
  /-- The view does not go down. -/
  forward : e.before.LeadsForward e.call
  /-- A block that is voted for is one of this view and names its own hash. -/
  current : ∀ v ∈ e.votes, v.1.view = e.before.view ∧ v.1.hash = v.1.expectedHash
  /-- The node has voted for no other block in this view. -/
  once : ∀ v ∈ e.votes, ∀ e' ∈ log, e'.node = e.node → e'.before.view = e.before.view →
    ∀ v' ∈ e'.votes, v'.1.hash = v.1.hash
  /-- A block that neither extends the locked one nor is it extends the block of its justification,
  which is not genesis and tells the view in which that block was voted for. -/
  justified : ∀ v ∈ e.votes, v.1.parentHash = e.before.lockedQc.blockHash ∨
    v.1.hash = e.before.lockedQc.blockHash ∨
    v.1.justify.signatures ≠ [] ∧ v.1.parentHash = v.1.justify.blockHash ∧
      ∀ e' ∈ log, ∀ v' ∈ e'.votes, v'.1.hash = v.1.justify.blockHash →
        e'.before.view = v.1.justify.view
  /-- A quorum of the last two phases is for the pending block. -/
  pending : ∀ qc ∈ e.completes, qc.phase = .preCommit ∨ qc.phase = .commit →
    ∃ block ∈ e.before.pendingBlock, block.hash = qc.blockHash
  /-- A quorum of the last phase comes after one of the phase before, in the same view. -/
  prepared : ∀ qc ∈ e.completes, qc.phase = .commit → C.validators.quorumSize ≤
    (C.validators.members.filter fun id =>
      id ∈ C.honest → PreCommitted log id qc.blockHash e.before.view).card

instance (C : Cluster) (log : List Event) (e : Event) : Decidable (Sound C log e) :=
  decidable_of_iff
    (e.before.LeadsForward e.call ∧
      (∀ v ∈ e.votes, v.1.view = e.before.view ∧ v.1.hash = v.1.expectedHash) ∧
      (∀ v ∈ e.votes, ∀ e' ∈ log, e'.node = e.node → e'.before.view = e.before.view →
        ∀ v' ∈ e'.votes, v'.1.hash = v.1.hash) ∧
      (∀ v ∈ e.votes, v.1.parentHash = e.before.lockedQc.blockHash ∨
        v.1.hash = e.before.lockedQc.blockHash ∨
        v.1.justify.signatures ≠ [] ∧ v.1.parentHash = v.1.justify.blockHash ∧
          ∀ e' ∈ log, ∀ v' ∈ e'.votes, v'.1.hash = v.1.justify.blockHash →
            e'.before.view = v.1.justify.view) ∧
      (∀ qc ∈ e.completes, qc.phase = .preCommit ∨ qc.phase = .commit →
        ∃ block ∈ e.before.pendingBlock, block.hash = qc.blockHash) ∧
      ∀ qc ∈ e.completes, qc.phase = .commit → C.validators.quorumSize ≤
        (C.validators.members.filter fun id =>
          id ∈ C.honest → PreCommitted log id qc.blockHash e.before.view).card)
    ⟨fun h => ⟨h.1, h.2.1, h.2.2.1, h.2.2.2.1, h.2.2.2.2.1, h.2.2.2.2.2⟩,
      fun h => ⟨h.forward, h.current, h.once, h.justified, h.pending, h.prepared⟩⟩

/-! ## Lemmas -/

section Facts

variable {C : Cluster} {log log' : List Event} {e : Event} {first blockHash view : UInt64}

theorem Extends.mono (h : Extends log first blockHash) : Extends (log ++ log') first blockHash := by
  induction h with
  | refl => exact .refl
  | step he hvotes _ ih => exact .step (List.mem_append_left _ he) hvotes ih

variable {id : NodeId}

theorem PreCommitted.mono (h : PreCommitted log id blockHash view) :
    PreCommitted (log ++ log') id blockHash view := by
  obtain ⟨e, he, hrest⟩ := h
  exact ⟨e, List.mem_append_left _ he, hrest⟩

theorem CollisionFree.of_append (h : CollisionFree (log ++ log')) : CollisionFree log :=
  fun e he e' he' => h e (List.mem_append_left _ he) e' (List.mem_append_left _ he')

/-- A run in which signatures are not forged and every call is sound. -/
abbrev SoundRun (C : Cluster) (log : List Event) : Prop :=
  Run C (fun log e => Authentic C log e ∧ Sound C log e) log

theorem SoundRun.forward (h : SoundRun C log) :
    Run C (fun _ e => e.before.LeadsForward e.call) log :=
  h.mono fun _ _ hok => hok.2.forward

/-! ## Locks -/

/-- A node that is bound to a block by its vote of the second phase: in that view it votes for this
block only, and in later views it has that vote behind it. -/
def Bound (log : List Event) (first view : UInt64) (id : NodeId) : Prop :=
  ∀ done e rest, log = done ++ e :: rest → e.node = id → ∀ block phase,
    e.votes = some (block, phase) → (e.before.view = view → block.hash = first) ∧
      (view < e.before.view → PreCommitted done id first view)

theorem Bound.of_append (h : Bound (log ++ log') first view id) : Bound log first view id := by
  rintro done e rest rfl
  exact h done e (rest ++ log') (by rw [List.append_assoc, List.cons_append])

/-- Every quorum has a member of `R` in it. -/
def MeetsQuorums (C : Cluster) (R : Finset NodeId) : Prop :=
  ∀ Q ⊆ C.validators.members, C.validators.quorumSize ≤ Q.card → ∃ id ∈ Q, id ∈ R

/-- Those who are bound to a block vote for its extensions in later views, and stay locked on it or
on one of these. -/
structure Locked (C : Cluster) (log : List Event) (first view : UInt64) (R : Finset NodeId) :
    Prop where
  votes : ∀ e ∈ log, e.node ∈ R → ∀ block phase, e.votes = some (block, phase) →
    view < e.before.view → Extends log first block.hash
  lock : ∀ id ∈ R, PreCommitted log id first view →
    view ≤ (C.state log id).lockedQc.view ∧ Extends log first (C.state log id).lockedQc.blockHash

variable {R : Finset NodeId}
variable {block : Block} {phase : Phase}

/-- The node that the bound ones have in common with a justification has voted for it. -/
theorem voted_of_justify (h : SoundRun C (log ++ [e])) (hhonest : R ⊆ C.honest)
    (hmeets : MeetsQuorums C R)
    (hvotes : e.votes = some (block, phase)) (hsigs : block.justify.signatures ≠ []) :
    ∃ e' ∈ log, e'.node ∈ R ∧ ∃ block' phase', e'.votes = some (block', phase') ∧
      block'.hash = block.justify.blockHash := by
  obtain ⟨-, hbefore, hauthentic, -⟩ := h.last
  obtain ⟨sig, hcall, haccepts⟩ := votedFor_eq_some.mp hvotes
  have hvalidators : e.before.validators = C.validators := by
    rw [hbefore]
    exact h.of_append.validators e.node
  have hjustified := haccepts.justified
  unfold justifyIsValid at hjustified
  split_ifs at hjustified with hgenesis hquorum
  · exact absurd (List.isEmpty_iff.mp hgenesis.1) hsigs
  · rw [hvalidators, ValidatorSet.hasQuorum_iff] at hquorum
    have hall := List.all_eq_true.mp hjustified
    have hmembers : block.justify.signers ⊆ C.validators.members := by
      intro id hid
      obtain ⟨other, hother, rfl⟩ := QuorumCert.mem_signers.mp hid
      have hvalid := (Bool.and_eq_true _ _).mp (hall other hother)
      rw [← hvalidators]
      exact ValidatorSet.contains_iff.mp hvalid.1
    obtain ⟨id, hid, hR⟩ := hmeets _ hmembers hquorum
    obtain ⟨other, hother, rfl⟩ := QuorumCert.mem_signers.mp hid
    have hvalid := (Bool.and_eq_true _ _).mp (hall other hother)
    have hclaim : (other, voteBytes block.justify.blockHash block.justify.phase) ∈
        HotStuffMsg.claims (.proposal block phase sig) :=
      List.mem_cons_of_mem _ (List.mem_map_of_mem hother)
    obtain ⟨e', he', hnode, block', hvotes', hhash⟩ := signed_vote
      (hauthentic (.proposal block phase sig) (congrArg Call.msg hcall) _ hclaim (hhonest hR)
        hvalid.2)
    exact ⟨e', he', hnode ▸ hR, block', _, hvotes', hhash⟩

/-- A vote of someone bound, in a later view. -/
theorem extends_of_vote (h : SoundRun C (log ++ [e])) (hhonest : R ⊆ C.honest)
    (hmeets : MeetsQuorums C R) (hbound : ∀ id ∈ R, Bound (log ++ [e]) first view id)
    (hlocked : Locked C log first view R) (hR : e.node ∈ R)
    (hvotes : e.votes = some (block, phase)) (hlater : view < e.before.view) :
    Extends (log ++ [e]) first block.hash := by
  obtain ⟨-, hbefore, -, hsound⟩ := h.last
  have hlast : e ∈ log ++ [e] := List.mem_append_right _ (List.mem_singleton_self e)
  have hpre := (hbound e.node hR log e [] rfl rfl block phase hvotes).2 hlater
  obtain ⟨hview, hextends⟩ := hlocked.lock e.node hR hpre
  rw [← hbefore] at hview hextends
  obtain ⟨sig, -, haccepts⟩ := votedFor_eq_some.mp hvotes
  by_cases hparent : block.parentHash = e.before.lockedQc.blockHash
  · exact .step hlast hvotes (hparent ▸ hextends.mono)
  by_cases hsame : block.hash = e.before.lockedQc.blockHash
  · exact hsame ▸ hextends.mono
  -- accepted for the view of the justification, which is that of the lock or a later one
  obtain hlock | hlock | ⟨hsigs, hjustify, htells⟩ := hsound.justified _ hvotes
  · exact absurd hlock hparent
  · exact absurd hlock hsame
  have hrecent : e.before.lockedQc.view ≤ block.justify.view := by
    rcases haccepts.safe with hsafe | hsafe | hsafe
    · exact hsafe
    · exact absurd hsafe hparent
    · exact absurd hsafe hsame
  obtain ⟨e', he', hR', block', phase', hvotes', hhash⟩ :=
    voted_of_justify h hhonest hmeets hvotes hsigs
  have hview' := htells e' he' _ hvotes' hhash
  have hle : view ≤ e'.before.view := by
    rw [hview']
    exact UInt64.le_trans hview hrecent
  refine .step hlast hvotes ?_
  rw [hjustify, ← hhash]
  rcases UInt64.lt_or_eq_of_le hle with hlt | heq
  · exact (hlocked.votes e' he' hR' block' phase' hvotes' hlt).mono
  · obtain ⟨done, rest, hsplit⟩ := List.append_of_mem he'
    have honly := (hbound e'.node hR' done e' (rest ++ [e]) (by rw [hsplit]; simp) rfl block' phase'
      hvotes').1 heq.symm
    rw [honly]
    exact .refl

theorem PreCommitted.of_concat (h : PreCommitted (log ++ [e]) id first view)
    (hvotes : ∀ block, e.votes ≠ some (block, .preCommit)) : PreCommitted log id first view := by
  obtain ⟨e', he', hnode, hview, ⟨block, phase⟩, hvote, rfl, hhash⟩ := h
  rcases List.mem_append.mp he' with he' | he'
  · exact ⟨e', he', hnode, hview, _, hvote, rfl, hhash⟩
  · rw [List.mem_singleton.mp he'] at hvote
    exact absurd hvote (hvotes block)

theorem PreCommitted.of_node_ne (h : PreCommitted (log ++ [e]) id first view)
    (hnode : e.node ≠ id) : PreCommitted log id first view := by
  obtain ⟨e', he', hnode', hrest⟩ := h
  rcases List.mem_append.mp he' with he' | he'
  · exact ⟨e', he', hnode', hrest⟩
  · rw [List.mem_singleton.mp he'] at hnode'
    exact absurd hnode' hnode

/-- A node that has voted in a view is not in an earlier one. -/
theorem PreCommitted.view_le (h : SoundRun C (log ++ [e]))
    (hpre : PreCommitted (log ++ [e]) e.node first view) : view ≤ e.before.view := by
  obtain ⟨-, hbefore, -⟩ := h.last
  obtain ⟨e', he', hnode, rfl, -⟩ := hpre
  rcases List.mem_append.mp he' with he' | he'
  · have hrun : SoundRun C log := h.of_append
    have hbound := hrun.forward.view_mono (fun _ _ hok => hok) e' he'
    rw [hbefore, ← hnode]
    exact hbound
  · rw [List.mem_singleton.mp he']
    exact UInt64.le_refl _

/-- Who votes for a block does so in the view of the block. -/
theorem view_of_votes (h : SoundRun C log) (he : e ∈ log) (hvotes : e.votes = some (block, phase)) :
    block.view = e.before.view ∧ block.hash = block.expectedHash := by
  obtain ⟨done, rest, rfl⟩ := List.append_of_mem he
  obtain ⟨-, -, -, hsound⟩ := h done e rest rfl
  exact hsound.current _ hvotes

/-- A leader gets a quorum of the last two phases for an extension of the block only. -/
theorem extends_of_quorum (h : SoundRun C (log ++ [e])) (hcollision : CollisionFree (log ++ [e]))
    (hhonest : R ⊆ C.honest) (hmeets : MeetsQuorums C R)
    (hbound : ∀ id ∈ R, Bound (log ++ [e]) first view id) (hlocked : Locked C log first view R)
    (hview : view ≤ e.before.view) {voteView : UInt64} {sig : Signature}
    (hphase : phase = .preCommit ∨ phase = .commit)
    (hcall : e.call = .process (.vote blockHash voteView phase sig))
    (hcompletes : e.before.Completes blockHash voteView phase sig) :
    Extends log first blockHash := by
  obtain ⟨-, hbefore, -, hsound⟩ := h.last
  obtain ⟨hmembers, hquorum, -⟩ := certificate_delivered h hcall hcompletes
  obtain ⟨id, hid, hR⟩ := hmeets _ hmembers hquorum
  obtain ⟨e', he', rfl, block', hvotes', rfl⟩ :=
    certificate_authentic h hcall hcompletes hid (hhonest hR)
  obtain ⟨hview', hhash'⟩ := view_of_votes h.of_append he' hvotes'
  -- the vote was cast in the view of the pending block, which is that of the leader
  obtain ⟨block, hpending, hhash⟩ :=
    hsound.pending _ (Event.completes_of_call hcall hcompletes) hphase
  replace hpending : e.before.pendingBlock = some block := hpending
  replace hhash : block.hash = block'.hash := hhash
  rw [hbefore] at hpending
  obtain ⟨hcurrent, hexpected, e'', he'', hmade⟩ :=
    pending_of_run h.of_append (fun _ _ hok => hok.2.current) e.node block hpending
  have hsame : block'.view = block.view :=
    (hcollision.of_append e' he' e'' he'' block' block (Event.block_of_votes hvotes') hmade
      (by rw [← hhash', ← hexpected, hhash])).1
  rw [← hbefore] at hcurrent
  have hle : view ≤ e'.before.view := by rwa [← hview', hsame, hcurrent]
  rcases UInt64.lt_or_eq_of_le hle with hlt | heq
  · exact hlocked.votes e' he' hR block' phase hvotes' hlt
  · obtain ⟨done, rest, hsplit⟩ := List.append_of_mem he'
    have honly := (hbound e'.node hR done e' (rest ++ [e]) (by rw [hsplit]; simp) rfl block' phase
      hvotes').1 heq.symm
    rw [honly]
    exact .refl

theorem locked_step (h : SoundRun C (log ++ [e])) (hcollision : CollisionFree (log ++ [e]))
    (hhonest : R ⊆ C.honest) (hmeets : MeetsQuorums C R)
    (hbound : ∀ id ∈ R, Bound (log ++ [e]) first view id) (hlocked : Locked C log first view R) :
    Locked C (log ++ [e]) first view R := by
  obtain ⟨-, hbefore, -⟩ := h.last
  constructor
  · intro e' he' hR block phase hvotes hlater
    rcases List.mem_append.mp he' with he' | he'
    · exact (hlocked.votes e' he' hR block phase hvotes hlater).mono
    · obtain rfl := List.mem_singleton.mp he'
      exact extends_of_vote h hhonest hmeets hbound hlocked hR hvotes hlater
  · intro id hR hpre
    rw [Cluster.state_concat]
    split_ifs with hi
    · subst hi
      have hview := PreCommitted.view_le h hpre
      -- If the lock stays and no pre-commit is cast, the run so far gives the claim.
      have hkept : e.next.lockedQc = e.before.lockedQc →
          (∀ block, e.votes ≠ some (block, .preCommit)) → view ≤ e.next.lockedQc.view ∧
            Extends (log ++ [e]) first e.next.lockedQc.blockHash := by
        intro hlock hvotes
        obtain ⟨hle, hextends⟩ := hlocked.lock e.node hR (hpre.of_concat hvotes)
        rw [hlock, hbefore]
        exact ⟨hle, hextends.mono⟩
      have hstep := e.before.stepped e.moment e.call
      have hnext : (e.before.step (e.moment, e.call)).2 = e.next := rfl
      rw [hnext] at hstep
      generalize (e.before.step (e.moment, e.call)).1 = answer at hstep
      generalize hcall : e.call = call at hstep
      generalize e.next = s' at hstep hkept ⊢
      have hnone : e.before.votedFor call = none → ∀ block, e.votes ≠ some (block, .preCommit) := by
        intro hnone block hvotes
        rw [Event.votes, hcall, hnone] at hvotes
        cases hvotes
      cases hstep with
      | @voted block phase sig haccepts =>
        have hvotes : e.votes = some (block, phase) := votedFor_eq_some.mpr ⟨sig, hcall, haccepts⟩
        by_cases hphase : phase = .preCommit
        · rw [afterProposal_lockedQc, if_pos hphase]
          refine ⟨hview, ?_⟩
          rcases UInt64.lt_or_eq_of_le hview with hlt | heq
          · exact extends_of_vote h hhonest hmeets hbound hlocked hR hvotes hlt
          · have honly := (hbound e.node hR log e [] rfl rfl block phase hvotes).1 heq.symm
            dsimp only
            rw [honly]
            exact .refl
        · refine hkept (by rw [afterProposal_lockedQc, if_neg hphase]) fun block' hvotes' => ?_
          rw [hvotes] at hvotes'
          cases hvotes'
          exact hphase rfl
      | refused hrefused => exact hkept rfl (hnone (if_neg hrefused))
      | @certified blockHash voteView phase sig hcompletes =>
        by_cases hphase : phase = .preCommit ∨ phase = .commit
        · rw [onQuorum_lockedQc, certificate_phase, if_pos hphase]
          exact ⟨hview, (extends_of_quorum h hcollision hhonest hmeets hbound hlocked hview hphase
            hcall hcompletes).mono⟩
        · refine hkept ?_ (hnone rfl)
          rw [onQuorum_lockedQc, certificate_phase, if_neg hphase]
          rfl
      | newView => exact hkept onNewView_lockedQc (hnone rfl)
      | _ => exact hkept rfl (hnone rfl)
    · obtain ⟨hle, hextends⟩ := hlocked.lock id hR (hpre.of_node_ne hi)
      exact ⟨hle, hextends.mono⟩

/-- Those who are locked on a block vote for its extensions only. -/
theorem extends_of_locked (h : SoundRun C log) (hcollision : CollisionFree log)
    (hhonest : R ⊆ C.honest) (hmeets : MeetsQuorums C R)
    (hbound : ∀ id ∈ R, Bound log first view id) : Locked C log first view R := by
  induction log using List.reverseRecOn with
  | nil =>
    refine ⟨fun e he => absurd he List.not_mem_nil, ?_⟩
    rintro id - ⟨e, he, -⟩
    exact absurd he List.not_mem_nil
  | append_singleton log e ih =>
    exact locked_step h hcollision hhonest hmeets hbound
      (ih h.of_append hcollision.of_append fun id hid => (hbound id hid).of_append)

/-! ## Commits -/

/-- Who has voted for a block in the second phase is bound to it. -/
theorem bound_of_preCommitted (h : SoundRun C log)
    (hpre : PreCommitted log id first view) : Bound log first view id := by
  obtain ⟨e', he', rfl, rfl, ⟨block', phase'⟩, hvotes', hphase, rfl⟩ := hpre
  rintro done e rest rfl hnode block phase hvotes
  obtain ⟨-, hbefore, -, hsound⟩ := h done e rest rfl
  rcases List.mem_append.mp he' with he' | he'
  · exact ⟨fun hview => (hsound.once _ hvotes e' he' hnode.symm hview.symm _ hvotes').symm,
      fun _ => ⟨e', he', rfl, rfl, _, hvotes', hphase, rfl⟩⟩
  rcases List.mem_cons.mp he' with rfl | he'
  · cases hvotes.symm.trans hvotes'
    exact ⟨fun _ => rfl, fun hlt => absurd hlt (UInt64.lt_irrefl _)⟩
  · obtain ⟨mid, rest', rfl⟩ := List.append_of_mem he'
    have hsplit : done ++ e :: (mid ++ e' :: rest') = done ++ e :: mid ++ e' :: rest' := by simp
    rw [hsplit] at h
    have hle := h.forward.view_le (fun _ _ hok => hok) hnode
    obtain ⟨-, -, -, hsound'⟩ := h (done ++ e :: mid) e' rest' rfl
    refine ⟨fun hview => ?_, fun hlt => absurd hlt (UInt64.not_lt.mpr hle)⟩
    exact hsound'.once _ hvotes' e (by simp) hnode hview _ hvotes

/-- What a commit tells: the block is the pending one, and a quorum has voted for it in the second
phase of its view. -/
theorem commit_spec (h : SoundRun C log) (he : e ∈ log) (hcommits : e.commits = some block) :
    block.view = e.before.view ∧ block.hash = block.expectedHash ∧
      (∃ e' ∈ log, e'.block = some block) ∧
      ∃ Q ⊆ C.validators.members, C.validators.quorumSize ≤ Q.card ∧
        ∀ id ∈ Q, id ∈ C.honest → PreCommitted log id block.hash e.before.view := by
  obtain ⟨done, rest, rfl⟩ := List.append_of_mem he
  obtain ⟨-, hbefore, -, hsound⟩ := h done e rest rfl
  obtain ⟨blockHash, voteView, sig, hcall, hcompletes, hpending⟩ := commitOf_eq_some.mp hcommits
  have hqc := Event.completes_of_call hcall hcompletes
  obtain ⟨block', hpending', hhash'⟩ := hsound.pending _ hqc (.inr rfl)
  cases hpending.symm.trans hpending'
  have hquorum := hsound.prepared _ hqc rfl
  rw [← hhash'] at hquorum
  rw [hbefore] at hpending
  obtain ⟨hview, hhash, e', he', hmade⟩ :=
    pending_of_run h.of_append (fun _ _ hok => hok.2.current) e.node block hpending
  rw [← hbefore] at hview
  exact ⟨hview, hhash, ⟨e', List.mem_append_left _ he', hmade⟩, _,
    Finset.filter_subset _ _, hquorum,
    fun id hid hhonest => ((Finset.mem_filter.mp hid).2 hhonest).mono⟩

/-- Of two commits, the one of the later view is of an extension of the other one. -/
theorem extends_of_commits (h : SoundRun C log) (hcollision : CollisionFree log)
    (hsize : C.validators.n + C.faulty.card < 2 * C.validators.quorumSize) {e' : Event}
    (he : e ∈ log) (he' : e' ∈ log) {block' : Block} (hcommits : e.commits = some block)
    (hcommits' : e'.commits = some block') (hview : e.before.view ≤ e'.before.view) :
    Extends log block.hash block'.hash ∧
      (e.before.view = e'.before.view → block'.hash = block.hash) := by
  obtain ⟨-, -, -, Q, hQ, hquorum, hpre⟩ := commit_spec h he hcommits
  obtain ⟨-, -, -, Q', hQ', hquorum', hpre'⟩ := commit_spec h he' hcommits'
  have hmeet : ∀ P ⊆ C.validators.members, C.validators.quorumSize ≤ P.card →
      ∃ id ∈ P, id ∈ Q ∩ C.honest := by
    intro P hP hcard
    obtain ⟨id, hid, hidQ, hfaulty⟩ := exists_mem_inter_notMem (B := C.faulty) hP hQ
      (by rw [Cluster.card_members]; omega)
    refine ⟨id, hid, Finset.mem_inter.mpr ⟨hidQ, ?_⟩⟩
    by_contra hnot
    exact hfaulty (Finset.mem_sdiff.mpr ⟨hP hid, hnot⟩)
  have hbound : ∀ id ∈ Q ∩ C.honest, Bound log block.hash e.before.view id := by
    intro id hid
    obtain ⟨hidQ, hhonest⟩ := Finset.mem_inter.mp hid
    exact bound_of_preCommitted h (hpre id hidQ hhonest)
  have hlocked := extends_of_locked h hcollision Finset.inter_subset_right hmeet hbound
  obtain ⟨id, hid', hid⟩ := hmeet Q' hQ' hquorum'
  obtain ⟨v, hv, rfl, hvview, ⟨block'', phase⟩, hvotes, -, hhash⟩ :=
    hpre' id hid' (Finset.mem_inter.mp hid).2
  replace hhash : block''.hash = block'.hash := hhash
  rcases UInt64.lt_or_eq_of_le hview with hlt | heq
  · rw [← hhash]
    refine ⟨hlocked.votes v hv hid block'' _ hvotes (by rwa [hvview]), fun heq => ?_⟩
    exact absurd (heq ▸ hlt) (UInt64.lt_irrefl _)
  · obtain ⟨done, rest, hsplit⟩ := List.append_of_mem hv
    have honly := (hbound v.node hid done v rest hsplit rfl block'' _ hvotes).1
      (hvview.trans heq.symm)
    rw [← hhash, honly]
    exact ⟨.refl, fun _ => rfl⟩

end Facts

/-! ## Main theorem -/

/-- Agreement. If signatures are not forged, blocks do not collide, two quorums meet in an honest
node and every call is sound, then the honest nodes commit on one chain, and one block for each
view. -/
theorem agreement (C : Cluster)
    (hsize : C.validators.n + C.faulty.card < 2 * C.validators.quorumSize) (log : List Event)
    (hrun : Run C (fun log e => Authentic C log e ∧ Sound C log e) log)
    (hcollision : CollisionFree log) : Agrees log := by
  constructor
  · intro e he e' he' block block' hcommits hcommits' hview
    obtain ⟨hcurrent, hexpected, ⟨e₁, he₁, hmade⟩, -⟩ := commit_spec hrun he hcommits
    obtain ⟨hcurrent', hexpected', ⟨e₂, he₂, hmade'⟩, -⟩ := commit_spec hrun he' hcommits'
    have hsame : e.before.view = e'.before.view := by rw [← hcurrent, ← hcurrent', hview]
    have hhash := (extends_of_commits hrun hcollision hsize he he' hcommits hcommits'
      (UInt64.le_of_eq hsame)).2 hsame
    refine ⟨hhash.symm, ?_⟩
    exact (hcollision e₁ he₁ e₂ he₂ block block' hmade hmade'
      (by rw [← hexpected, ← hexpected', hhash])).2
  · intro e he e' he' block block' hcommits hcommits'
    rcases UInt64.le_total e.before.view e'.before.view with hview | hview
    · exact .inl (extends_of_commits hrun hcollision hsize he he' hcommits hcommits' hview).1
    · exact .inr (extends_of_commits hrun hcollision hsize he' he hcommits' hcommits hview).1

end Agreement

namespace Demo

attribute [local instance] plainEd25519

/-- Four honest validators. -/
def cluster : Cluster where
  validators := validators
  distinct := by decide
  honest := validators.members
  honest_subset := Finset.Subset.refl _
  faulty_le := by decide +kernel
  identity := identity
  now _ := 0
  peers _ := [1, 2, 3, 4].map fun id => (id, .inl (identity id))
  registered := by
    intro i hi id hid
    have hi' : i ∈ [1, 2, 3, 4] := List.mem_toFinset.mp hi
    have hid' : id ∈ [1, 2, 3, 4] := List.mem_toFinset.mp hid
    simp only [List.mem_cons, List.not_mem_nil, or_false] at hi' hid'
    rcases hi' with rfl | rfl | rfl | rfl <;> rcases hid' with rfl | rfl | rfl | rfl <;>
      decide +kernel

def tx : OrderedTx := .auctionBid 1 2 3

/-- A block on top of genesis. -/
def block (view : UInt64) (leader : NodeId) : Block :=
  ⟨hashBlock view 0 (toVec [tx]), view, 0, [tx], .genesis, leader⟩

def proposal (view : UInt64) (leader : NodeId) (phase : Phase) : Moment × Call :=
  (moment, .process (.proposal (block view leader) phase
    (signWithIdentity leader (block view leader).hash (identity leader) moment.noise)))

def vote (view : UInt64) (leader : NodeId) (phase : Phase) (id : NodeId) : Moment × Call :=
  (moment, .process (.vote (block view leader).hash view phase
    (signVote id (block view leader).hash phase (identity id) moment.noise)))

/-- A leader proposes a block, and the voters bring it through its phases. -/
def round (view : UInt64) (leader : NodeId) (voters : List NodeId) :
    List (NodeId × Moment × Call) :=
  (leader, moment, .submitTx tx) :: (leader, moment, .propose) ::
    [Phase.prepare, .preCommit, .commit].flatMap fun phase =>
      voters.map (fun id => (id, proposal view leader phase)) ++
        voters.map fun id => (leader, vote view leader phase id)

/-- The first leader commits, and the second one has not heard of it. -/
def twoRounds : List (NodeId × Moment × Call) := round 0 1 [2, 3, 4] ++ round 1 2 [3, 4, 1]

theorem collisionFree_of_blocks {log : List Event}
    (h : ∀ b ∈ log.filterMap Event.block, ∀ b' ∈ log.filterMap Event.block,
      b.expectedHash = b'.expectedHash → b.view = b'.view ∧ b.parentHash = b'.parentHash ∧
        b.transactions = b'.transactions) : CollisionFree log :=
  fun e he e' he' b b' hb hb' => h b (List.mem_filterMap.mpr ⟨e, he, hb⟩) b'
    (List.mem_filterMap.mpr ⟨e', he', hb'⟩)

/-- Without anyone faulty, two blocks on top of genesis are committed. -/
theorem two_chains : ¬ (∀ (C : Cluster) (log : List Event),
    Run C (fun log e => Authentic C log e) log → CollisionFree log → Agrees log) := by
  intro h
  have hrun : Run cluster (fun log e => Authentic cluster log e) (cluster.record twoRounds) :=
    .record twoRounds (by decide +kernel)
  have hagrees := h cluster _ hrun (collisionFree_of_blocks (by decide +kernel))
  have hfirst : block 0 1 ∈ (cluster.record twoRounds).filterMap Event.commits := by
    decide +kernel
  have hsecond : block 1 2 ∈ (cluster.record twoRounds).filterMap Event.commits := by
    decide +kernel
  obtain ⟨e, he, hcommits⟩ := List.mem_filterMap.mp hfirst
  obtain ⟨e', he', hcommits'⟩ := List.mem_filterMap.mp hsecond
  have hvotes : ∀ v ∈ (cluster.record twoRounds).filterMap Event.votes, v.1.parentHash = 0 := by
    decide +kernel
  -- every block of the run is on top of genesis
  have hextends : ∀ first hash, Extends (cluster.record twoRounds) first hash →
      hash = first ∨ first = 0 := by
    intro first hash hextends
    induction hextends with
    | refl => exact .inl rfl
    | step he hv _ ih =>
      rw [hvotes _ (List.mem_filterMap.mpr ⟨_, he, hv⟩)] at ih
      exact .inr (ih.elim Eq.symm id)
  rcases hagrees.chain e he e' he' _ _ hcommits hcommits' with hchain | hchain
  · exact absurd (hextends _ _ hchain) (by decide +kernel)
  · exact absurd (hextends _ _ hchain) (by decide +kernel)

/-- The first round alone is sound. -/
theorem agreement_demo : Agrees (cluster.record (round 0 1 [2, 3, 4])) ∧
    block 0 1 ∈ (cluster.record (round 0 1 [2, 3, 4])).filterMap Event.commits :=
  ⟨agreement cluster (by decide +kernel) _ (.record _ (by decide +kernel))
    (collisionFree_of_blocks (by decide +kernel)), by decide +kernel⟩

end Demo

end P2P333.Platform333.Bft
