import P2P333.Platform333.Bft.Crypto
import P2P333.Lib.Machine

/-!
# HotStuff: the state machine of a node

`333-platform/src/bft/state.rs` and `viewchange.rs`. A block passes three phases, in each of which
the leader collects the votes of a quorum. The proposal of the second phase locks a node on the
block, that of the third one makes it go on to the next view. A node leaves a view as well when it
is told to by a `NewView` message, and when enough `ViewChange` messages for one view have come in.

What a call takes from outside, the clock and the noise of a signature, is its `Moment`. Times are
in milliseconds.

Results:
1. `process_proposal`: a node votes for every proposal that it accepts (`Accepts`).
2. `process_vote`: what becomes of a vote that counts (`Counts`).
-/

namespace P2P333.Platform333.Bft

open Std Lib

/-- The clock and the noise of a call. -/
structure Moment where
  now : Nat
  noise : Noise

/-! ## View changes -/

structure ViewChangeConfig where
  baseTimeout : Nat := 3000
  maxTimeout : Nat := 30000

structure ViewChangeTracker where
  config : ViewChangeConfig
  viewStartMs : Nat
  currentTimeout : Nat
  consecutiveTimeouts : Nat
  /-- The `ViewChange` messages by the view that they ask for: their senders and certificates. -/
  pending : OrdMap UInt64 (List (NodeId × QuorumCert))

/-- The certificate of the highest view, the last one of several. -/
def highestQc : List (NodeId × QuorumCert) → Option QuorumCert
  | [] => none
  | e :: rest => some (rest.foldl (fun best e => if best.2.view ≤ e.2.view then e else best) e).2

namespace ViewChangeTracker

def new (config : ViewChangeConfig) (now : Nat) : ViewChangeTracker :=
  ⟨config, now, config.baseTimeout, 0, ∅⟩

def reset (t : ViewChangeTracker) (now : Nat) : ViewChangeTracker :=
  { t with
    viewStartMs := now, consecutiveTimeouts := 0, currentTimeout := t.config.baseTimeout
    pending := ∅ }

def isTimedOut (t : ViewChangeTracker) (now : Nat) : Bool := t.currentTimeout ≤ now - t.viewStartMs

/-- The timeout doubles each time, up to its cap. The multiplier is a saturating `u32`. -/
def onTimeout [Ed25519] (t : ViewChangeTracker) (m : Moment) (currentView : UInt64)
    (nodeId : NodeId)
    (highQc : QuorumCert) (identity : Identity) : HotStuffMsg × ViewChangeTracker :=
  let timeouts := t.consecutiveTimeouts + 1
  (.viewChange (currentView + 1) nodeId highQc
      (signWithIdentity nodeId (currentView + 1) identity m.noise),
    { t with
      consecutiveTimeouts := timeouts
      currentTimeout := min t.config.maxTimeout
        (t.config.baseTimeout * min (2 ^ timeouts) (2 ^ 32 - 1))
      viewStartMs := m.now })

/-- What has been collected for a view. -/
def entries (t : ViewChangeTracker) (newView : UInt64) : List (NodeId × QuorumCert) :=
  t.pending[newView]?.getD []

def collectViewChange (t : ViewChangeTracker) (newView : UInt64) (sender : NodeId)
    (highQc : QuorumCert) (validators : ValidatorSet) :
    Option (UInt64 × QuorumCert) × ViewChangeTracker :=
  if (t.entries newView).any (fun e => e.1 == sender) then (none, t)
  else
    let entries := t.entries newView ++ [(sender, highQc)]
    (if validators.quorumSize ≤ entries.length then (highestQc entries).map fun qc => (newView, qc)
      else none,
      { t with pending := t.pending.insert newView entries })

end ViewChangeTracker

/-! ## The node -/

structure HotStuffState where
  nodeId : NodeId
  identity : Identity
  keyring : ValidatorKeyring
  view : UInt64
  phase : Phase
  validators : ValidatorSet
  highQc : QuorumCert
  pendingBlock : Option Block
  votes : OrdMap (UInt64 × Phase) (List Signature)
  voteTracker : OrdMap (NodeId × Phase × UInt64) UInt64
  committed : List Block
  blocks : OrdMap UInt64 Block
  committedView : UInt64
  lockedQc : QuorumCert
  txPool : List OrderedTx
  viewChangeTracker : ViewChangeTracker

namespace HotStuffState

def withIdentity (nodeId : NodeId) (validators : ValidatorSet) (identity : Identity) (now : Nat) :
    HotStuffState where
  nodeId := nodeId
  identity := identity
  keyring := ValidatorKeyring.new.registerIdentity nodeId identity
  view := 0
  phase := .prepare
  validators := validators
  highQc := .genesis
  pendingBlock := none
  votes := ∅
  voteTracker := ∅
  committed := []
  blocks := ∅
  committedView := 0
  lockedQc := .genesis
  txPool := []
  viewChangeTracker := .new {} now

def registerPeerIdentity (s : HotStuffState) (nodeId : NodeId) (identity : Identity) :
    HotStuffState :=
  { s with keyring := s.keyring.registerIdentity nodeId identity }

def registerPeerKey (s : HotStuffState) (nodeId : NodeId) (peerId : PeerId) : HotStuffState :=
  { s with keyring := s.keyring.registerPeerId nodeId peerId }

def currentLeader (s : HotStuffState) : NodeId := leaderForView s.view s.validators

def isLeader (s : HotStuffState) : Bool := s.currentLeader == s.nodeId

def maxPoolSize : Nat := 10000

def submitTx (s : HotStuffState) (tx : OrderedTx) : Bool × HotStuffState :=
  if maxPoolSize ≤ s.txPool.length then (false, s)
  else (true, { s with txPool := s.txPool ++ [tx] })

section Handlers

variable [Ed25519]

/-- The block that the leader makes of its pool. -/
def proposedBlock (s : HotStuffState) : Block where
  hash := hashBlock s.view s.highQc.blockHash (toVec s.txPool)
  view := s.view
  parentHash := s.highQc.blockHash
  transactions := s.txPool
  justify := s.highQc
  proposer := s.nodeId

def propose (s : HotStuffState) (m : Moment) : Option HotStuffMsg × HotStuffState :=
  if ¬ s.isLeader ∨ s.txPool.isEmpty then (none, s)
  else
    let block := s.proposedBlock
    (some (.proposal block .prepare (signWithIdentity s.nodeId block.hash s.identity m.noise)),
      { s with
        txPool := [], blocks := s.blocks.insert block.hash block, pendingBlock := some block })

/-- The certificate of genesis has no signatures; another one has a quorum of valid ones. -/
def justifyIsValid (s : HotStuffState) (justify : QuorumCert) : Bool :=
  if justify.signatures.isEmpty ∧ justify.blockHash = 0 ∧ justify.view = 0 then true
  else if ¬ justify.hasQuorum s.validators.n then false
  else justify.signatures.all fun sig => s.validators.contains sig.signer &&
    verifyVote sig justify.blockHash justify.phase s.keyring

/-- The safety rule: the block is as recent as the lock, or extends the locked block, or is it. -/
def Safe (s : HotStuffState) (block : Block) : Prop :=
  s.lockedQc.view ≤ block.justify.view ∨ block.parentHash = s.lockedQc.blockHash ∨
    block.hash = s.lockedQc.blockHash

instance (s : HotStuffState) (block : Block) : Decidable (s.Safe block) :=
  inferInstanceAs (Decidable (_ ∨ _ ∨ _))

/-- A non-leader that votes for a commit goes on to the next view. -/
def leaveView (s : HotStuffState) (now : Nat) : HotStuffState :=
  { s with
    view := s.view + 1, phase := .prepare, pendingBlock := none, votes := ∅, voteTracker := ∅
    viewChangeTracker := s.viewChangeTracker.reset now }

/-- The node after it has accepted a proposal. -/
def afterProposal (s : HotStuffState) (m : Moment) (block : Block) (phase : Phase) :
    HotStuffState :=
  let stored : HotStuffState :=
    { s with
      blocks := s.blocks.insert block.hash block, pendingBlock := some block, phase := phase
      lockedQc := if phase = .preCommit then
          ⟨block.hash, s.view, block.justify.phase, block.justify.signatures⟩
        else s.lockedQc }
  if phase = .commit ∧ ¬ s.isLeader then stored.leaveView m.now else stored

def onProposal (s : HotStuffState) (m : Moment) (block : Block) (phase : Phase) :
    ProcessResult × HotStuffState :=
  if block.proposer ≠ s.currentLeader then (.none, s)
  else if ¬ s.justifyIsValid block.justify then (.none, s)
  else if ¬ s.Safe block then (.none, s)
  else (.sendToLeader (.vote block.hash s.view phase
    (signVote s.nodeId block.hash phase s.identity m.noise)), s.afterProposal m block phase)

/-- The proposal of the pending block for the next phase. -/
def nextProposal (s : HotStuffState) (m : Moment) (phase : Phase) : ProcessResult :=
  match s.pendingBlock with
  | some block => .broadcast (.proposal block phase
      (signWithIdentity s.nodeId block.hash s.identity m.noise))
  | none => .none

/-- The pending block is committed. Blocks of more than ten views ago are forgotten, and of the
committed ones the last sixteen are kept. -/
def commitPending (s : HotStuffState) : HotStuffState :=
  let s : HotStuffState := match s.pendingBlock with
    | some block =>
      { s with
        pendingBlock := none, committedView := block.view, committed := s.committed ++ [block] }
    | none => s
  { s with
    blocks := if 10 ≤ s.committedView then s.blocks.filter fun _ b => s.committedView - 10 ≤ b.view
      else s.blocks
    committed := s.committed.drop (s.committed.length - 16) }

/-- A quorum has voted. -/
def onQuorum (s : HotStuffState) (m : Moment) (qc : QuorumCert) : ProcessResult × HotStuffState :=
  match qc.phase with
  | .prepare => (s.nextProposal m .preCommit, { s with highQc := qc, phase := .preCommit })
  | .preCommit =>
    (s.nextProposal m .commit, { s with lockedQc := qc, highQc := qc, phase := .commit })
  | .commit =>
    let txs := s.pendingBlock.elim [] Block.transactions
    let s : HotStuffState :=
      { s.commitPending with
        highQc := qc, view := s.view + 1, phase := .prepare, voteTracker := ∅, lockedQc := qc
        viewChangeTracker := s.viewChangeTracker.reset m.now }
    let msg := .newView s.view qc (signWithIdentity s.nodeId s.view s.identity m.noise)
    (if txs.isEmpty then .broadcast msg else .committed txs msg, s)
  | .decide => (.none, s)

/-- The votes for a block in a phase. -/
def bucket (s : HotStuffState) (blockHash : UInt64) (phase : Phase) : List Signature :=
  s.votes[(blockHash, phase)]?.getD []

/-- The certificate that the votes for a block would make together with this one. -/
def certificate (s : HotStuffState) (blockHash : UInt64) (phase : Phase) (sig : Signature) :
    QuorumCert :=
  ⟨blockHash, s.view, phase, s.bucket blockHash phase ++ [sig]⟩

/-- The vote is remembered for its signer. -/
def track (s : HotStuffState) (blockHash : UInt64) (phase : Phase) (sig : Signature) :
    HotStuffState :=
  { s with voteTracker := s.voteTracker.insert (sig.signer, phase, s.view) blockHash }

def addVote (s : HotStuffState) (blockHash : UInt64) (phase : Phase) (sig : Signature) :
    HotStuffState :=
  { s with votes := s.votes.insert (blockHash, phase) (s.bucket blockHash phase ++ [sig]) }

/-- The signer has voted for another block in this phase of the view. -/
def Equivocates (s : HotStuffState) (blockHash : UInt64) (phase : Phase) (sig : Signature) : Prop :=
  s.voteTracker[(sig.signer, phase, s.view)]?.elim False (· ≠ blockHash)

instance (s : HotStuffState) (blockHash : UInt64) (phase : Phase) (sig : Signature) :
    Decidable (s.Equivocates blockHash phase sig) := by
  unfold Equivocates
  cases s.voteTracker[(sig.signer, phase, s.view)]? with
  | none => exact isFalse id
  | some h => exact inferInstanceAs (Decidable (h ≠ blockHash))

def onVote (s : HotStuffState) (m : Moment) (blockHash view : UInt64) (phase : Phase)
    (sig : Signature) : ProcessResult × HotStuffState :=
  if ¬ s.isLeader then (.none, s)
  else if view ≠ s.view then (.none, s)
  else if ¬ verifyVote sig blockHash phase s.keyring then (.none, s)
  else if ¬ s.validators.contains sig.signer then (.none, s)
  else if s.Equivocates blockHash phase sig then (.none, s)
  else
    let s := s.track blockHash phase sig
    if (s.bucket blockHash phase).any (fun other => other.signer == sig.signer) then (.none, s)
    else
      let qc := s.certificate blockHash phase sig
      if ¬ qc.hasQuorum s.validators.n then (.none, s.addVote blockHash phase sig)
      else { s with votes := ∅ }.onQuorum m qc

/-- The message is taken as it is: neither its signature nor its certificate is checked. -/
def onNewView (s : HotStuffState) (view : UInt64) (qc : QuorumCert) :
    ProcessResult × HotStuffState :=
  let s : HotStuffState := if s.highQc.view < qc.view then { s with highQc := qc } else s
  (.none, if s.view < view then
      { s with
        view := view, phase := .prepare, pendingBlock := none, votes := ∅, voteTracker := ∅ }
    else s)

def processViewChangeQuorum (s : HotStuffState) (m : Moment) (newView : UInt64) (sender : NodeId)
    (highQc : QuorumCert) : ProcessResult × HotStuffState :=
  match s.viewChangeTracker.collectViewChange newView sender highQc s.validators with
  | (some (agreedView, highestQc), t) =>
    (.none,
      { s with
        view := agreedView, phase := .prepare, pendingBlock := none, votes := ∅, voteTracker := ∅
        highQc := if s.highQc.view < highestQc.view then highestQc else s.highQc
        viewChangeTracker := t.reset m.now })
  | (none, t) => (.none, { s with viewChangeTracker := t })

def process (s : HotStuffState) (m : Moment) : HotStuffMsg → ProcessResult × HotStuffState
  | .proposal block phase signature =>
    if ¬ verify signature block.hash s.keyring then (.none, s) else s.onProposal m block phase
  | .vote blockHash view phase signature => s.onVote m blockHash view phase signature
  | .newView view qc _ => s.onNewView view qc
  | .viewChange newView sender highQc _ => s.processViewChangeQuorum m newView sender highQc

def tick (s : HotStuffState) (m : Moment) : ProcessResult × HotStuffState :=
  if s.viewChangeTracker.isTimedOut m.now ∧ ¬ s.isLeader then
    let vc := s.viewChangeTracker.onTimeout m s.view s.nodeId s.highQc s.identity
    (.viewChange (s.view + 1) vc.1, { s with viewChangeTracker := vc.2 })
  else (.none, s)

/-! ## Messages -/

variable {s : HotStuffState} {m : Moment} {block : Block} {phase : Phase} {sig : Signature}
  {blockHash view newView : UInt64} {qc : QuorumCert} {sender : NodeId}

/-- The proposal passes every check that the node makes. -/
structure Accepts (s : HotStuffState) (block : Block) (sig : Signature) : Prop where
  verified : verify sig block.hash s.keyring = true
  proposer : block.proposer = s.currentLeader
  justified : s.justifyIsValid block.justify = true
  safe : s.Safe block

theorem accepts_iff : s.Accepts block sig ↔ verify sig block.hash s.keyring = true ∧
    block.proposer = s.currentLeader ∧ s.justifyIsValid block.justify = true ∧ s.Safe block :=
  ⟨fun h => ⟨h.verified, h.proposer, h.justified, h.safe⟩, fun h => ⟨h.1, h.2.1, h.2.2.1, h.2.2.2⟩⟩

instance : Decidable (s.Accepts block sig) := decidable_of_iff _ accepts_iff.symm

/-- The vote that a node casts. -/
def castVote (s : HotStuffState) (m : Moment) (block : Block) (phase : Phase) : HotStuffMsg :=
  .vote block.hash s.view phase (signVote s.nodeId block.hash phase s.identity m.noise)

/-- A node votes for every proposal that it accepts. -/
theorem process_proposal : s.process m (.proposal block phase sig) =
    if s.Accepts block sig then
      (.sendToLeader (s.castVote m block phase), s.afterProposal m block phase)
    else (.none, s) := by
  simp only [process, onProposal, accepts_iff, castVote]
  split_ifs <;> first | rfl | (exfalso; tauto)

/-- The vote passes every check of the leader, and its signer has none in the bucket. -/
structure Counts (s : HotStuffState) (blockHash view : UInt64) (phase : Phase) (sig : Signature) :
    Prop where
  leader : s.isLeader = true
  current : view = s.view
  verified : verifyVote sig blockHash phase s.keyring = true
  member : s.validators.contains sig.signer = true
  constant : ¬ s.Equivocates blockHash phase sig
  fresh : (s.bucket blockHash phase).any (fun other => other.signer == sig.signer) = false

theorem counts_iff : s.Counts blockHash view phase sig ↔ s.isLeader = true ∧ view = s.view ∧
    verifyVote sig blockHash phase s.keyring = true ∧ s.validators.contains sig.signer = true ∧
    ¬ s.Equivocates blockHash phase sig ∧
    (s.bucket blockHash phase).any (fun other => other.signer == sig.signer) = false :=
  ⟨fun h => ⟨h.leader, h.current, h.verified, h.member, h.constant, h.fresh⟩,
    fun h => ⟨h.1, h.2.1, h.2.2.1, h.2.2.2.1, h.2.2.2.2.1, h.2.2.2.2.2⟩⟩

instance : Decidable (s.Counts blockHash view phase sig) := decidable_of_iff _ counts_iff.symm

/-- The vote completes a quorum. -/
def Completes (s : HotStuffState) (blockHash view : UInt64) (phase : Phase) (sig : Signature) :
    Prop :=
  s.Counts blockHash view phase sig ∧
    (s.certificate blockHash phase sig).hasQuorum s.validators.n = true

instance : Decidable (s.Completes blockHash view phase sig) := inferInstanceAs (Decidable (_ ∧ _))

/-- The state in which the leader acts on a quorum. -/
def cleared (s : HotStuffState) (blockHash : UInt64) (phase : Phase) (sig : Signature) :
    HotStuffState :=
  { s.track blockHash phase sig with votes := ∅ }

theorem process_of_completes (h : s.Completes blockHash view phase sig) :
    s.process m (.vote blockHash view phase sig) =
      (s.cleared blockHash phase sig).onQuorum m (s.certificate blockHash phase sig) := by
  obtain ⟨h, hquorum⟩ := h
  have hfresh : ((s.track blockHash phase sig).bucket blockHash phase).any
      (fun other => other.signer == sig.signer) = false := h.fresh
  have hfull : ((s.track blockHash phase sig).certificate blockHash phase sig).hasQuorum
      (s.track blockHash phase sig).validators.n = true := hquorum
  simp only [process, onVote, h.leader, h.current, h.verified, h.member, h.constant, hfresh, hfull,
    not_true, ne_eq, if_false, Bool.false_eq_true]
  rfl

theorem process_of_counts (h : s.Counts blockHash view phase sig)
    (hfew : ¬ (s.certificate blockHash phase sig).hasQuorum s.validators.n = true) :
    s.process m (.vote blockHash view phase sig) =
      (.none, (s.track blockHash phase sig).addVote blockHash phase sig) := by
  have hfresh : ((s.track blockHash phase sig).bucket blockHash phase).any
      (fun other => other.signer == sig.signer) = false := h.fresh
  have hfew : ¬ ((s.track blockHash phase sig).certificate blockHash phase sig).hasQuorum
      (s.track blockHash phase sig).validators.n = true := hfew
  simp only [process, onVote, h.leader, h.current, h.verified, h.member, h.constant, hfresh, hfew,
    not_true, not_false_eq_true, ne_eq, if_false, if_true, Bool.false_eq_true]

/-- What becomes of a vote. -/
inductive Tallied (s : HotStuffState) (m : Moment) (blockHash view : UInt64) (phase : Phase)
    (sig : Signature) : ProcessResult × HotStuffState → Prop
  | ignored (h : ¬ s.Completes blockHash view phase sig) :
      Tallied s m blockHash view phase sig (.none, s)
  | repeated (h : ¬ s.Completes blockHash view phase sig) :
      Tallied s m blockHash view phase sig (.none, s.track blockHash phase sig)
  | counted (h : s.Counts blockHash view phase sig)
      (hquorum : ¬ (s.certificate blockHash phase sig).hasQuorum s.validators.n = true) :
      Tallied s m blockHash view phase sig
        (.none, (s.track blockHash phase sig).addVote blockHash phase sig)
  | certified (h : s.Completes blockHash view phase sig) :
      Tallied s m blockHash view phase sig
        ((s.cleared blockHash phase sig).onQuorum m (s.certificate blockHash phase sig))

theorem process_vote : Tallied s m blockHash view phase sig
    (s.process m (.vote blockHash view phase sig)) := by
  by_cases hcompletes : s.Completes blockHash view phase sig
  · rw [process_of_completes hcompletes]
    exact .certified hcompletes
  · simp only [process, onVote]
    split_ifs with hleader hview hverified hmember hconstant hfresh hquorum
    any_goals exact .ignored hcompletes
    · exact .repeated hcompletes
    all_goals
      have hcounts : s.Counts blockHash view phase sig :=
        ⟨hleader, not_not.mp hview, hverified, hmember, hconstant, Bool.eq_false_iff.mpr hfresh⟩
    · exact absurd ⟨hcounts, hquorum⟩ hcompletes
    · exact .counted hcounts hquorum

/-- The sender is new, and with it there are enough senders for the view. -/
def Fills (s : HotStuffState) (newView : UInt64) (sender : NodeId) : Prop :=
  (s.viewChangeTracker.entries newView).any (fun e => e.1 == sender) = false ∧
    s.validators.quorumSize ≤ (s.viewChangeTracker.entries newView).length + 1

instance : Decidable (s.Fills newView sender) := inferInstanceAs (Decidable (_ ∧ _))

/-- The highest certificate that has been sent for a view, with the one that comes in. -/
def bestQc (s : HotStuffState) (newView : UInt64) (sender : NodeId)
    (qc : QuorumCert) : QuorumCert :=
  (highestQc (s.viewChangeTracker.entries newView ++ [(sender, qc)])).getD qc

/-- The node after enough view changes have come in. -/
def enterView (s : HotStuffState) (m : Moment) (newView : UInt64) (best : QuorumCert) :
    HotStuffState :=
  { s with
    view := newView, phase := .prepare, pendingBlock := none, votes := ∅, voteTracker := ∅
    highQc := if s.highQc.view < best.view then best else s.highQc
    viewChangeTracker := s.viewChangeTracker.reset m.now }

theorem process_viewChange : s.process m (.viewChange newView sender qc sig) = (.none,
    if s.Fills newView sender then s.enterView m newView (s.bestQc newView sender qc)
    else
      { s with
        viewChangeTracker :=
          (s.viewChangeTracker.collectViewChange newView sender qc s.validators).2 }) := by
  simp only [process, processViewChangeQuorum, ViewChangeTracker.collectViewChange]
  by_cases hold : (s.viewChangeTracker.entries newView).any (fun e => e.1 == sender) = true
  · have hfills : ¬ s.Fills newView sender := by
      rintro ⟨hnew, -⟩
      rw [hold] at hnew
      cases hnew
    rw [if_pos hold, if_neg hfills]
  · rw [if_neg hold]
    have hlength : (s.viewChangeTracker.entries newView ++ [(sender, qc)]).length =
        (s.viewChangeTracker.entries newView).length + 1 := List.length_append
    by_cases hfull : s.validators.quorumSize ≤ (s.viewChangeTracker.entries newView).length + 1
    · have hfills : s.Fills newView sender := ⟨Bool.eq_false_iff.mpr hold, hfull⟩
      obtain ⟨best, hbest⟩ : ∃ best,
          highestQc (s.viewChangeTracker.entries newView ++ [(sender, qc)]) = some best := by
        cases s.viewChangeTracker.entries newView <;> exact ⟨_, rfl⟩
      rw [if_pos hfills, hlength, if_pos hfull, bestQc, hbest]
      rfl
    · have hfills : ¬ s.Fills newView sender := fun h => hfull h.2
      rw [if_neg hfills, hlength, if_neg hfull]

end Handlers

end HotStuffState

/-! ## Calls -/

/-- What is asked of a node. -/
inductive Call where
  | process (msg : HotStuffMsg)
  | propose
  | tick
  | submitTx (tx : OrderedTx)

/-- What a call of the state machine returns. -/
inductive Answer where
  | result (r : ProcessResult)
  | proposal (msg : Option HotStuffMsg)
  | submitted (ok : Bool)

/-- The message that leaves the node. -/
def Answer.msg : Answer → Option HotStuffMsg
  | .result r => r.msg
  | .proposal msg => msg
  | .submitted _ => none

namespace HotStuffState

section Step

variable [Ed25519]

def step (s : HotStuffState) (c : Moment × Call) : Answer × HotStuffState :=
  match c.2 with
  | .process msg => ((s.process c.1 msg).map .result id)
  | .propose => ((s.propose c.1).map .proposal id)
  | .tick => ((s.tick c.1).map .result id)
  | .submitTx tx => ((s.submitTx tx).map .submitted id)

/-- What a call can do. -/
inductive Stepped (s : HotStuffState) (m : Moment) : Call → Answer → HotStuffState → Prop
  | refused {block : Block} {phase : Phase} {sig : Signature} (h : ¬ s.Accepts block sig) :
      Stepped s m (.process (.proposal block phase sig)) (.result .none) s
  | voted {block : Block} {phase : Phase} {sig : Signature} (h : s.Accepts block sig) :
      Stepped s m (.process (.proposal block phase sig))
        (.result (.sendToLeader (s.castVote m block phase))) (s.afterProposal m block phase)
  | ignored {blockHash view : UInt64} {phase : Phase} {sig : Signature}
      (h : ¬ s.Completes blockHash view phase sig) :
      Stepped s m (.process (.vote blockHash view phase sig)) (.result .none) s
  | repeated {blockHash view : UInt64} {phase : Phase} {sig : Signature}
      (h : ¬ s.Completes blockHash view phase sig) :
      Stepped s m (.process (.vote blockHash view phase sig)) (.result .none)
        (s.track blockHash phase sig)
  | counted {blockHash view : UInt64} {phase : Phase} {sig : Signature}
      (h : s.Counts blockHash view phase sig)
      (hquorum : ¬ (s.certificate blockHash phase sig).hasQuorum s.validators.n = true) :
      Stepped s m (.process (.vote blockHash view phase sig)) (.result .none)
        ((s.track blockHash phase sig).addVote blockHash phase sig)
  | certified {blockHash view : UInt64} {phase : Phase} {sig : Signature}
      (h : s.Completes blockHash view phase sig) :
      Stepped s m (.process (.vote blockHash view phase sig))
        (.result ((s.cleared blockHash phase sig).onQuorum m
          (s.certificate blockHash phase sig)).1)
        ((s.cleared blockHash phase sig).onQuorum m (s.certificate blockHash phase sig)).2
  | newView {view : UInt64} {qc : QuorumCert} {sig : Signature} :
      Stepped s m (.process (.newView view qc sig)) (.result .none) (s.onNewView view qc).2
  | collected {newView : UInt64} {sender : NodeId} {qc : QuorumCert} {sig : Signature}
      (h : ¬ s.Fills newView sender) (t : ViewChangeTracker) :
      Stepped s m (.process (.viewChange newView sender qc sig)) (.result .none)
        { s with viewChangeTracker := t }
  | changed {newView : UInt64} {sender : NodeId} {qc : QuorumCert} {sig : Signature}
      (h : s.Fills newView sender) :
      Stepped s m (.process (.viewChange newView sender qc sig)) (.result .none)
        (s.enterView m newView (s.bestQc newView sender qc))
  | proposed (hleader : s.isLeader = true) (hpool : s.txPool.isEmpty = false) :
      Stepped s m .propose
        (.proposal (some (.proposal s.proposedBlock .prepare
          (signWithIdentity s.nodeId s.proposedBlock.hash s.identity m.noise))))
        { s with
          txPool := [], blocks := s.blocks.insert s.proposedBlock.hash s.proposedBlock
          pendingBlock := some s.proposedBlock }
  | notProposed : Stepped s m .propose (.proposal none) s
  | timedOut (t : ViewChangeTracker) :
      Stepped s m .tick
        (.result (.viewChange (s.view + 1) (.viewChange (s.view + 1) s.nodeId s.highQc
          (signWithIdentity s.nodeId (s.view + 1) s.identity m.noise))))
        { s with viewChangeTracker := t }
  | inTime : Stepped s m .tick (.result .none) s
  | submitted (tx : OrderedTx) (ok : Bool) (pool : List OrderedTx) :
      Stepped s m (.submitTx tx) (.submitted ok) { s with txPool := pool }

theorem stepped (s : HotStuffState) (m : Moment) (c : Call) :
    s.Stepped m c (s.step (m, c)).1 (s.step (m, c)).2 := by
  cases c with
  | process msg =>
    simp only [step, Prod.map_fst, Prod.map_snd, id]
    cases msg with
    | proposal block phase sig =>
      rw [process_proposal]
      split_ifs with h
      · exact .voted h
      · exact .refused h
    | vote blockHash view phase sig =>
      have h : Tallied s m blockHash view phase sig
        (s.process m (.vote blockHash view phase sig)) := process_vote
      generalize s.process m (.vote blockHash view phase sig) = out at h
      cases h with
      | ignored h => exact .ignored h
      | repeated h => exact .repeated h
      | counted h hquorum => exact .counted h hquorum
      | certified h => exact .certified h
    | newView view qc sig => exact .newView
    | viewChange newView sender qc sig =>
      rw [process_viewChange]
      split_ifs with h
      · exact .changed h
      · exact .collected h _
  | propose =>
    simp only [step, propose, Prod.map_fst, Prod.map_snd, id]
    split_ifs with h
    · exact .notProposed
    · obtain ⟨hleader, hpool⟩ := not_or.mp h
      exact .proposed (not_not.mp hleader) (Bool.eq_false_iff.mpr hpool)
  | tick =>
    simp only [step, tick, Prod.map_fst, Prod.map_snd, id]
    split_ifs
    · exact .timedOut _
    · exact .inTime
  | submitTx tx =>
    simp only [step, submitTx, Prod.map_fst, Prod.map_snd, id]
    split_ifs
    · exact .submitted tx false s.txPool
    · exact .submitted tx true _

/-! ## Fields -/

variable {s : HotStuffState} {m : Moment} {block : Block} {phase : Phase} {sig : Signature}
  {blockHash view newView : UInt64} {qc : QuorumCert}

section

omit [Ed25519]

@[simp] theorem certificate_phase : (s.certificate blockHash phase sig).phase = phase := rfl

@[simp] theorem cleared_view : (s.cleared blockHash phase sig).view = s.view := rfl

@[simp] theorem afterProposal_view : (s.afterProposal m block phase).view =
    if phase = .commit ∧ ¬ s.isLeader then s.view + 1 else s.view := by
  unfold afterProposal
  split_ifs <;> rfl

@[simp] theorem afterProposal_highQc : (s.afterProposal m block phase).highQc = s.highQc := by
  unfold afterProposal
  split_ifs <;> rfl

@[simp] theorem afterProposal_lockedQc : (s.afterProposal m block phase).lockedQc =
    if phase = .preCommit then ⟨block.hash, s.view, block.justify.phase, block.justify.signatures⟩
    else s.lockedQc := by
  unfold afterProposal
  split_ifs <;> rfl

@[simp] theorem afterProposal_pendingBlock : (s.afterProposal m block phase).pendingBlock =
    if phase = .commit ∧ ¬ s.isLeader then none else some block := by
  unfold afterProposal
  split_ifs <;> rfl

@[simp] theorem afterProposal_votes : (s.afterProposal m block phase).votes =
    if phase = .commit ∧ ¬ s.isLeader then ∅ else s.votes := by
  unfold afterProposal
  split_ifs <;> rfl

end

@[simp] theorem onQuorum_view : (s.onQuorum m qc).2.view =
    if qc.phase = .commit then s.view + 1 else s.view := by
  unfold onQuorum
  cases qc.phase <;> rfl

@[simp] theorem onQuorum_highQc : (s.onQuorum m qc).2.highQc =
    if qc.phase = .decide then s.highQc else qc := by
  unfold onQuorum
  cases qc.phase <;> rfl

@[simp] theorem onQuorum_lockedQc : (s.onQuorum m qc).2.lockedQc =
    if qc.phase = .preCommit ∨ qc.phase = .commit then qc else s.lockedQc := by
  unfold onQuorum
  cases qc.phase <;> rfl

omit [Ed25519] in
theorem commitPending_votes : s.commitPending.votes = s.votes := by
  unfold commitPending
  cases s.pendingBlock <;> rfl

omit [Ed25519] in
theorem commitPending_pendingBlock : s.commitPending.pendingBlock = none := by
  unfold commitPending
  cases h : s.pendingBlock with
  | none => exact h
  | some block => rfl

@[simp] theorem onQuorum_votes : (s.onQuorum m qc).2.votes = s.votes := by
  unfold onQuorum
  cases qc.phase with
  | commit => exact commitPending_votes
  | _ => rfl

@[simp] theorem onQuorum_pendingBlock : (s.onQuorum m qc).2.pendingBlock =
    if qc.phase = .commit then none else s.pendingBlock := by
  unfold onQuorum
  cases qc.phase with
  | commit => exact commitPending_pendingBlock
  | _ => rfl

section

omit [Ed25519]

@[simp] theorem onNewView_view : (s.onNewView view qc).2.view =
    if s.view < view then view else s.view := by
  dsimp only [onNewView]
  split_ifs <;> rfl

@[simp] theorem onNewView_highQc : (s.onNewView view qc).2.highQc =
    if s.highQc.view < qc.view then qc else s.highQc := by
  dsimp only [onNewView]
  split_ifs <;> rfl

@[simp] theorem onNewView_lockedQc : (s.onNewView view qc).2.lockedQc = s.lockedQc := by
  dsimp only [onNewView]
  split_ifs <;> rfl

@[simp] theorem onNewView_pendingBlock : (s.onNewView view qc).2.pendingBlock =
    if s.view < view then none else s.pendingBlock := by
  dsimp only [onNewView]
  split_ifs <;> rfl

@[simp] theorem onNewView_votes : (s.onNewView view qc).2.votes =
    if s.view < view then ∅ else s.votes := by
  dsimp only [onNewView]
  split_ifs <;> rfl

end

/-- The block that the call makes the node commit. -/
def commitOf (s : HotStuffState) : Call → Option Block
  | .process (.vote blockHash view .commit sig) =>
    if s.Completes blockHash view .commit sig then s.pendingBlock else none
  | _ => none

theorem commitOf_eq_some {c : Call} : s.commitOf c = some block ↔ ∃ blockHash view sig,
    c = .process (.vote blockHash view .commit sig) ∧ s.Completes blockHash view .commit sig ∧
      s.pendingBlock = some block := by
  constructor
  · intro h
    unfold commitOf at h
    split at h
    · split_ifs at h with hcompletes
      exact ⟨_, _, _, rfl, hcompletes, h⟩
    · cases h
  · rintro ⟨blockHash, view, sig, rfl, hcompletes, hpending⟩
    exact (if_pos hcompletes).trans hpending

/-- What a call never changes. -/
def setup (s : HotStuffState) : NodeId × Identity × ValidatorKeyring × ValidatorSet :=
  (s.nodeId, s.identity, s.keyring, s.validators)

omit [Ed25519] in
theorem setup_commitPending : s.commitPending.setup = s.setup := by
  unfold commitPending
  cases s.pendingBlock <;> rfl

theorem setup_onQuorum : (s.onQuorum m qc).2.setup = s.setup := by
  obtain ⟨hash, view, phase, signatures⟩ := qc
  cases phase with
  | commit => exact setup_commitPending
  | _ => rfl

omit [Ed25519] in
theorem setup_afterProposal : (s.afterProposal m block phase).setup = s.setup := by
  unfold afterProposal
  split_ifs <;> rfl

omit [Ed25519] in
theorem setup_onNewView : (s.onNewView view qc).2.setup = s.setup := by
  dsimp only [onNewView]
  split_ifs <;> rfl

@[simp] theorem setup_step (s : HotStuffState) (c : Moment × Call) :
    (s.step c).2.setup = s.setup := by
  obtain ⟨m, c⟩ := c
  have h := s.stepped m c
  generalize (s.step (m, c)).1 = answer at h
  generalize (s.step (m, c)).2 = s' at h ⊢
  cases h with
  | voted => exact setup_afterProposal
  | certified => exact setup_onQuorum
  | newView => exact setup_onNewView
  | _ => rfl

end Step

/-! ## The first state -/

/-- The keys of the other nodes are registered. -/
def registerPeers (s : HotStuffState) (peers : List (NodeId × (Identity ⊕ PeerId))) :
    HotStuffState :=
  peers.foldl
    (fun s peer => match peer.2 with
      | .inl identity => s.registerPeerIdentity peer.1 identity
      | .inr peerId => s.registerPeerKey peer.1 peerId) s

theorem registerPeers_eq (s : HotStuffState) (peers : List (NodeId × (Identity ⊕ PeerId))) :
    ∃ keyring, s.registerPeers peers = { s with keyring := keyring } := by
  induction peers generalizing s with
  | nil => exact ⟨s.keyring, rfl⟩
  | cons peer rest ih =>
    obtain ⟨nodeId, key⟩ := peer
    cases key with
    | inl identity => exact (ih (s.registerPeerIdentity nodeId identity)).imp fun _ h => h
    | inr peerId => exact (ih (s.registerPeerKey nodeId peerId)).imp fun _ h => h

end HotStuffState

/-- What a node is started with: among others the keys of its peers. -/
structure Config where
  nodeId : NodeId
  validators : ValidatorSet
  identity : Identity
  now : Nat
  peers : List (NodeId × (Identity ⊕ PeerId))

namespace Config

def start (config : Config) : HotStuffState :=
  (HotStuffState.withIdentity config.nodeId config.validators config.identity
    config.now).registerPeers config.peers

/-- The node after some calls. -/
def run [Ed25519] (config : Config) (l : List (Moment × Call)) : HotStuffState :=
  Machine.after HotStuffState.step config.start l

theorem run_concat [Ed25519] (config : Config) (l : List (Moment × Call)) (c : Moment × Call) :
    config.run (l ++ [c]) = ((config.run l).step c).2 := Machine.after_concat ..

theorem start_eq (config : Config) : ∃ keyring, config.start =
    { HotStuffState.withIdentity config.nodeId config.validators config.identity config.now with
      keyring := keyring } :=
  HotStuffState.registerPeers_eq _ _

end Config

namespace Demo

/-- One of the four validators, who know each other. -/
def config (nodeId : NodeId) : Config where
  nodeId := nodeId
  validators := validators
  identity := identity nodeId
  now := 0
  peers := [1, 2, 3, 4].map fun id => (id, .inl (identity id))

def moment : Moment := ⟨0, .replicate 16 0⟩

end Demo

end P2P333.Platform333.Bft
