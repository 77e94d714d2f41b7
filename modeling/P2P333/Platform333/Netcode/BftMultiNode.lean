import P2P333.Platform333.Netcode.BftBridge

/-!
# The multi-node harness

`333-platform/src/netcode/bft_multi_node.rs`: nodes in one process, each with an inbox for 256
messages, and the loop that carries a checkpoint through the three phases. A send to a full inbox
waits for room, and nobody makes room while the harness sends; so it never returns. Calls that do
not return are `none`.

In each round of the loop all inboxes are emptied, in the order of the nodes, and what the nodes
answer is sent. The loop ends when a node commits.

The clock and the noise of a call to a node are given by the round, the node and the number of
messages that are left in its inbox.
-/

namespace P2P333.Platform333.Netcode

open Std Lib Platform333.Bft Platform333.Determinism

/-! ## Nodes and inboxes -/

/-- Why a bridge proposes nothing. -/
inductive BftBridgeError where
  | notLeader
  | unexpectedResult (msg : String)
deriving DecidableEq

/-- Why a checkpoint is not committed. -/
inductive MultiNodeError where
  | quorumTimeout (phase : String) (steps : Nat)
  | bridge (e : BftBridgeError)
deriving DecidableEq

structure NodeSlot where
  nodeId : NodeId
  state : HotStuffState
  inbox : List HotStuffMsg
  byzantine : Bool

/-- `sync_channel(256)`. -/
def inboxCapacity : Nat := 256

/-- A blocking send. -/
def NodeSlot.send (slot : NodeSlot) (msg : HotStuffMsg) : Option NodeSlot :=
  if slot.inbox.length < inboxCapacity then some { slot with inbox := slot.inbox ++ [msg] }
  else none

def deliverTo (slots : List NodeSlot) (idx : Nat) (msg : HotStuffMsg) : Option (List NodeSlot) := do
  let slot ← slots[idx]?
  let slot ← slot.send msg
  some (slots.set idx slot)

def broadcastExcept (slots : List NodeSlot) (excludeIdx : Nat) (msg : HotStuffMsg) :
    Option (List NodeSlot) :=
  slots.zipIdx.mapM fun (slot, i) => if i ≠ excludeIdx then slot.send msg else some slot

def broadcastToAll (slots : List NodeSlot) (msg : HotStuffMsg) : Option (List NodeSlot) :=
  slots.mapM fun slot => slot.send msg

/-- Votes and view changes go to the leader, everything else to all. -/
def route (leaderIdx : Nat) (slots : List NodeSlot) (msg : HotStuffMsg) : Option (List NodeSlot) :=
  match msg with
  | .vote .. | .viewChange .. => deliverTo slots leaderIdx msg
  | .proposal .. | .newView .. => broadcastToAll slots msg

/-! ## Rounds -/

section Rounds

variable [Ed25519]

/-- What becomes of an inbox: the answers, and the `NewView` of a commit, after which the rest of
the inbox is left. -/
structure Drained where
  outgoing : List HotStuffMsg
  committed : Option HotStuffMsg
  state : HotStuffState
  inbox : List HotStuffMsg

def drain (moment : Nat → Moment) (s : HotStuffState) : List HotStuffMsg → Drained
  | [] => ⟨[], none, s, []⟩
  | msg :: rest =>
    match s.process (moment rest.length) msg with
    | (.committed _ newView, s) => ⟨[], some newView, s, rest⟩
    | (.sendToLeader answer, s) | (.broadcast answer, s) =>
      let d := drain moment s rest
      { d with outgoing := answer :: d.outgoing }
    | (.none, s) | (.viewChange .., s) => drain moment s rest

/-- A Byzantine node drops its messages. -/
def NodeSlot.drained (slot : NodeSlot) (moment : Nat → Moment) : Drained :=
  if slot.byzantine then ⟨[], none, slot.state, []⟩ else drain moment slot.state slot.inbox

def NodeSlot.put (slot : NodeSlot) (d : Drained) : NodeSlot :=
  { slot with state := d.state, inbox := d.inbox }

/-- What a round leaves: messages to send, or a committed block. -/
inductive Round where
  | outgoing (msgs : List HotStuffMsg) (slots : List NodeSlot)
  | committed (newView : HotStuffMsg) (slots : List NodeSlot)

/-- All inboxes are emptied, unless a node commits. -/
def runRound (moment : NodeId → Nat → Moment) : List NodeSlot → Round
  | [] => .outgoing [] []
  | slot :: rest =>
    let d := slot.drained (moment slot.nodeId)
    match d.committed with
    | some newView => .committed newView (slot.put d :: rest)
    | none =>
      match runRound moment rest with
      | .outgoing msgs slots => .outgoing (d.outgoing ++ msgs) (slot.put d :: slots)
      | .committed newView slots => .committed newView (slot.put d :: slots)

/-- The state after some messages, with the answers thrown away. -/
def settled (moment : Nat → Moment) (s : HotStuffState) : List HotStuffMsg → HotStuffState
  | [] => s
  | msg :: rest => settled moment (s.process (moment rest.length) msg).2 rest

def NodeSlot.settle (slot : NodeSlot) (moment : Nat → Moment) : NodeSlot :=
  { slot with state := settled moment slot.state slot.inbox, inbox := [] }

/-- The loop, for so many rounds at most. -/
def pump (leaderIdx : Nat) (moment : Nat → NodeId → Nat → Moment) (maxSteps : Nat) :
    Nat → List NodeSlot → Option (Except MultiNodeError QuorumCert × List NodeSlot)
  | 0, slots => some (.error (.quorumTimeout "pipeline" maxSteps), slots)
  | left + 1, slots =>
    match runRound (moment (maxSteps - left)) slots with
    | .committed newView slots => do
      let slots ← broadcastToAll slots newView
      let slots := slots.map fun slot => slot.settle (moment (maxSteps + 1) slot.nodeId)
      let leader ← slots[leaderIdx]?
      some (.ok leader.state.highQc, slots)
    | .outgoing [] slots => some (.error (.quorumTimeout "stalled" (maxSteps - left)), slots)
    | .outgoing msgs slots => do
      let slots ← msgs.foldlM (route leaderIdx) slots
      pump leaderIdx moment maxSteps left slots

end Rounds

/-! ## The harness -/

/-- The quorum is looked at when the harness is made, and never again. -/
structure MultiNodeBftHarness where
  slots : List NodeSlot
  maxSteps : Nat
  checkpointRound : UInt64

/-- `1..=(node_count as NodeId)`. -/
def nodeIds (nodeCount : Nat) : List NodeId :=
  (List.range (nodeCount % 2 ^ 32)).map fun i => UInt32.ofNat (i + 1)

/-- The keys come from a seed that holds the id. -/
def testIdentity (fromSeed : List.Vector UInt8 32 → Identity) (nodeId : NodeId) : Identity :=
  fromSeed ⟨beBytes 4 nodeId.toNat ++ List.replicate 28 0, by simp⟩

namespace MultiNodeBftHarness

/-- The two assertions come first. -/
def new (fromSeed : List.Vector UInt8 32 → Identity) (nodeCount quorum : Nat) (now : NodeId → Nat) :
    Option MultiNodeBftHarness :=
  if 1 ≤ nodeCount ∧ 1 ≤ quorum ∧ quorum ≤ nodeCount then
    some {
      slots := if h : nodeIds nodeCount = [] then [] else (nodeIds nodeCount).map fun id =>
        { nodeId := id
          state := .withIdentity id ⟨nodeIds nodeCount, h⟩ (testIdentity fromSeed id) (now id)
          inbox := []
          byzantine := false }
      maxSteps := 512
      checkpointRound := 0 }
  else none

/-- Every node registers the identities of all others. -/
def registerAllPeerIdentities (fromSeed : List.Vector UInt8 32 → Identity)
    (h : MultiNodeBftHarness) : MultiNodeBftHarness :=
  let pairs := h.slots.map fun slot => (slot.nodeId, testIdentity fromSeed slot.nodeId)
  { h with
    slots := h.slots.map fun slot =>
      { slot with
        state := (pairs.filter fun p => p.1 ≠ slot.nodeId).foldl
          (fun s p => s.registerPeerIdentity p.1 p.2) slot.state } }

def findLeaderIdx (h : MultiNodeBftHarness) : Option Nat :=
  h.slots.findIdx? fun slot => slot.state.isLeader

def driveCheckpoint [Ed25519] (h : MultiNodeBftHarness) (handle : CheckpointHandle)
    (moment : Nat → NodeId → Nat → Moment) :
    Option (Except MultiNodeError QuorumCert × MultiNodeBftHarness) :=
  let h := { h with checkpointRound := h.checkpointRound + 1 }
  match h.findLeaderIdx with
  | none => some (.error (.bridge .notLeader), h)
  | some leaderIdx => do
    let leader ← h.slots[leaderIdx]?
    let (accepted, state) :=
      leader.state.submitTx (HotStuffCheckpointProvider.encodeHandle leader.nodeId handle)
    if ¬ accepted then some (.error (.bridge (.unexpectedResult "tx pool full")), h)
    else
      match state.propose (moment 0 leader.nodeId 0) with
      | (none, state) =>
        some (.error (.bridge .notLeader),
          { h with slots := h.slots.set leaderIdx { leader with state } })
      | (some proposal, state) => do
        let slots := h.slots.set leaderIdx { leader with state }
        let slots ← broadcastExcept slots leaderIdx proposal
        let slots ← deliverTo slots leaderIdx proposal
        let (result, slots) ← pump leaderIdx moment h.maxSteps h.maxSteps slots
        some (result, { h with slots })

end MultiNodeBftHarness

end P2P333.Platform333.Netcode
