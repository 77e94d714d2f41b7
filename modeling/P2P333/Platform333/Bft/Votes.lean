import P2P333.Platform333.Bft.Views

/-!
# HotStuff: the votes of a node

A node votes for every proposal that passes its checks. They look at the proposer that the block
names, and at the signature of whoever has signed; that the two are the same is not among them, nor
that the block has the hash that it names, nor that the node has not voted in this phase before.

Results:
1. `votedFor_iff`: the votes that a node casts are those for the proposals that it accepts.
2. `votes_once_iff`: in a run, a node votes once in each phase of a view and for the block of the
   leader exactly if the proposals that it accepts are those of the leader.
3. `voted_for_strangers`: another validator makes it vote twice.
-/

namespace P2P333.Platform333.Bft

open Std Lib Machine HotStuffState

section Votes

variable [Ed25519]

namespace HotStuffState

variable {s : HotStuffState}

/-- The block that the call makes the node vote for. -/
def votedFor (s : HotStuffState) : Call → Option (Block × Phase)
  | .process (.proposal block phase sig) =>
    if s.Accepts block sig then some (block, phase) else none
  | _ => none

theorem votedFor_eq_some {c : Call} {block : Block} {phase : Phase} :
    s.votedFor c = some (block, phase) ↔
      ∃ sig, c = .process (.proposal block phase sig) ∧ s.Accepts block sig := by
  constructor
  · intro h
    unfold votedFor at h
    split at h
    · split_ifs at h with haccepts
      cases h
      exact ⟨_, rfl, haccepts⟩
    · cases h
  · rintro ⟨sig, rfl, haccepts⟩
    exact if_pos haccepts

/-- The vote message that leaves the node tells what it has voted for. -/
theorem votedFor_iff {c : Moment × Call} {blockHash view : UInt64} {phase : Phase} :
    (∃ sig, (s.step c).1.msg = some (.vote blockHash view phase sig)) ↔
      view = s.view ∧ ∃ block, s.votedFor c.2 = some (block, phase) ∧ block.hash = blockHash := by
  obtain ⟨m, c⟩ := c
  constructor
  · rintro ⟨sig, hmsg⟩
    have hstep := s.stepped m c
    generalize (s.step (m, c)).1 = answer at hstep hmsg
    generalize (s.step (m, c)).2 = s' at hstep
    cases hstep with
    | @voted block phase' sig' haccepts =>
      cases hmsg
      exact ⟨rfl, block, votedFor_eq_some.mpr ⟨sig', rfl, haccepts⟩, rfl⟩
    | @certified blockHash' view' phase' sig' hcompletes =>
      simp only [Answer.msg, onQuorum, certificate_phase, nextProposal] at hmsg
      cases phase' with
      | decide => cases hmsg
      | commit =>
        dsimp only at hmsg
        split_ifs at hmsg <;> cases hmsg
      | _ =>
        dsimp only at hmsg
        split at hmsg <;> cases hmsg
    | _ => cases hmsg
  · rintro ⟨rfl, block, hvoted, rfl⟩
    obtain ⟨sig, hc, haccepts⟩ := votedFor_eq_some.mp hvoted
    subst hc
    have hstep : (s.step (m, .process (.proposal block phase sig))).1 =
        .result (.sendToLeader (s.castVote m block phase)) := by
      simp only [step, process_proposal, if_pos haccepts]
      rfl
    rw [hstep]
    exact ⟨_, rfl⟩

end HotStuffState

/-- A message with the block that the leader of the view has signed. -/
def HotStuffMsg.FromLeader (s : HotStuffState) (block : Block) : HotStuffMsg → Prop
  | .proposal block' _ sig =>
    block' = block ∧ sig.signer = s.currentLeader ∧ verify sig block.hash s.keyring = true
  | _ => False

/-- The messages that have been delivered. -/
def delivered (l : List (Moment × Call)) : List HotStuffMsg := l.filterMap fun c => c.2.msg

/-- The node votes once in each phase of a view, for a block that the leader has signed and that
names its own hash. -/
structure VotesOnce (config : Config) (l : List (Moment × Call)) : Prop where
  once : ∀ done c done' c' blockHash blockHash' view phase sig sig', done ++ [c] <+: l →
    done' ++ [c'] <+: l →
    ((config.run done).step c).1.msg = some (.vote blockHash view phase sig) →
    ((config.run done').step c').1.msg = some (.vote blockHash' view phase sig') →
    blockHash = blockHash'
  led : ∀ done c blockHash view phase sig, done ++ [c] <+: l →
    ((config.run done).step c).1.msg = some (.vote blockHash view phase sig) →
    ∃ block, (∃ sig', c.2 = .process (.proposal block phase sig')) ∧ block.hash = blockHash ∧
      block.hash = block.expectedHash ∧
      ∃ msg ∈ delivered (done ++ [c]), msg.FromLeader (config.run done) block

/-- The proposals that the node accepts are signed by the leader and name their own hash, and those
for one phase of a view are all for one block. -/
def LeaderOnly (config : Config) (l : List (Moment × Call)) : Prop :=
  ∀ done m block phase sig, done ++ [(m, .process (.proposal block phase sig))] <+: l →
    (config.run done).Accepts block sig →
    block.hash = block.expectedHash ∧
    (∃ msg ∈ delivered (done ++ [(m, .process (.proposal block phase sig))]),
      msg.FromLeader (config.run done) block) ∧
    ∀ done' m' block' sig', done' ++ [(m', .process (.proposal block' phase sig'))] <+: l →
      (config.run done').Accepts block' sig' → (config.run done').view = (config.run done).view →
      block'.hash = block.hash

/-- A node votes once, and for the block of the leader, exactly if it accepts the proposals of the
leader only, and one for each phase of a view. -/
theorem votes_once_iff (config : Config) (l : List (Moment × Call)) :
    VotesOnce config l ↔ LeaderOnly config l := by
  have hvote : ∀ done m block phase sig, (config.run done).Accepts block sig →
      ∃ sig', ((config.run done).step (m, .process (.proposal block phase sig))).1.msg =
        some (.vote block.hash (config.run done).view phase sig') := by
    intro done m block phase sig haccepts
    exact votedFor_iff.mpr ⟨rfl, block, votedFor_eq_some.mpr ⟨sig, rfl, haccepts⟩, rfl⟩
  constructor
  · intro h done m block phase sig hdone haccepts
    obtain ⟨sigVote, hmsg⟩ := hvote done m block phase sig haccepts
    obtain ⟨block', ⟨sig', hcall⟩, -, hhash, hleader⟩ := h.led done _ _ _ _ _ hdone hmsg
    cases hcall
    refine ⟨hhash, hleader, ?_⟩
    intro done' m' block' sig' hdone' haccepts' hview
    obtain ⟨sigVote', hmsg'⟩ := hvote done' m' block' phase sig' haccepts'
    rw [hview] at hmsg'
    exact h.once done' _ done _ _ _ _ _ _ _ hdone' hdone hmsg' hmsg
  · intro h
    constructor
    · rintro done ⟨m, c⟩ done'
        ⟨m', c'⟩ blockHash blockHash' view phase sig sig' hdone hdone' hmsg hmsg'
      obtain ⟨hview, block, hvoted, hhash⟩ := votedFor_iff.mp ⟨sig, hmsg⟩
      obtain ⟨hview', block', hvoted', hhash'⟩ := votedFor_iff.mp ⟨sig', hmsg'⟩
      obtain ⟨sigP, rfl, haccepts⟩ := votedFor_eq_some.mp hvoted
      obtain ⟨sigP', rfl, haccepts'⟩ := votedFor_eq_some.mp hvoted'
      obtain ⟨-, -, honly⟩ := h done' m' block' phase sigP' hdone' haccepts'
      rw [← hhash, ← hhash']
      exact honly done m block sigP hdone haccepts (hview.symm.trans hview')
    · rintro done ⟨m, c⟩ blockHash view phase sig hdone hmsg
      obtain ⟨hview, block, hvoted, hhash⟩ := votedFor_iff.mp ⟨sig, hmsg⟩
      obtain ⟨sigP, rfl, haccepts⟩ := votedFor_eq_some.mp hvoted
      obtain ⟨hexpected, hleader, -⟩ := h done m block phase sigP hdone haccepts
      exact ⟨block, ⟨sigP, rfl⟩, hhash, hexpected, hleader⟩

end Votes

namespace Demo

attribute [local instance] plainEd25519

/-- A block that names the leader of the first view and any hash, signed by validator 3. -/
def strangersProposal (hash : UInt64) : Moment × Call :=
  (moment, .process (.proposal ⟨hash, 0, 0, [], .genesis, 1⟩ .prepare
    (signWithIdentity 3 hash (identity 3) moment.noise)))

/-- A validator who is not the leader makes another one vote twice in one phase. -/
theorem voted_for_strangers : ¬ (∀ l, VotesOnce (config 2) l) := by
  intro h
  have htwo := (h [strangersProposal 5, strangersProposal 6]).once [] (strangersProposal 5)
    [strangersProposal 5] (strangersProposal 6) 5 6 0 .prepare
    (signVote 2 5 .prepare (identity 2) moment.noise)
    (signVote 2 6 .prepare (identity 2) moment.noise) (List.prefix_append _ _) List.prefix_rfl
    (by decide +kernel) (by decide +kernel)
  exact absurd htwo (by decide)

end Demo

end P2P333.Platform333.Bft
