import P2P333.Lib.Bytes
import P2P333.Lib.OrdMap

/-!
# HotStuff: blocks, certificates and signatures

`333-platform/src/bft/types.rs`, `crypto.rs` and `leader.rs`: transactions, blocks and messages, the
quorum certificate, the hash of a block, the keys of a node, and the two kinds of signature. A vote
is signed with its phase, everything else without one. Ed25519 is a parameter (`Ed25519`).

The leader of a view is found in the list of validators, so a validator set has a member; for an
empty one the source divides by zero.
-/

namespace P2P333.Platform333.Bft

open Std Lib

abbrev NodeId := UInt32

/-! ## Types -/

/-- A transaction that needs an order. -/
inductive OrderedTx where
  | transfer (sender recipient : NodeId) (amount nonce : UInt64)
  | auctionBid (bidder : NodeId) (itemId amount : UInt64)
  | rankedAction (player : NodeId) (actionType : UInt32) (payload : Bytes)
deriving DecidableEq

/-- The phases of a view. -/
inductive Phase where
  | prepare | preCommit | commit | decide
deriving DecidableEq, Ord

instance : TransOrd Phase where
  eq_swap {a b} := by cases a <;> cases b <;> rfl
  isLE_trans {a b c} := by cases a <;> cases b <;> cases c <;> decide

instance : LawfulEqOrd Phase where
  compare_self {a} := by cases a <;> rfl
  eq_of_compare {a b} := by cases a <;> cases b <;> decide

structure Signature where
  signer : NodeId
  sigBytes : Bytes
deriving DecidableEq

/-- The votes of a quorum for a block, cast in one phase. -/
structure QuorumCert where
  blockHash : UInt64
  view : UInt64
  phase : Phase
  signatures : List Signature
deriving DecidableEq

namespace QuorumCert

def genesis : QuorumCert := ⟨0, 0, .prepare, []⟩

/-- Those who have signed. -/
def signers (qc : QuorumCert) : Finset NodeId := (qc.signatures.map Signature.signer).toFinset

def hasQuorum (qc : QuorumCert) (n : Nat) : Bool := 2 * ((n - 1) / 3) + 1 ≤ qc.signers.card

theorem mem_signers {qc : QuorumCert} {id : NodeId} :
    id ∈ qc.signers ↔ ∃ sig ∈ qc.signatures, sig.signer = id := by
  rw [signers, List.mem_toFinset, List.mem_map]

end QuorumCert

structure Block where
  hash : UInt64
  view : UInt64
  parentHash : UInt64
  transactions : List OrderedTx
  justify : QuorumCert
  proposer : NodeId
deriving DecidableEq

/-- What validators send one another. -/
inductive HotStuffMsg where
  | proposal (block : Block) (phase : Phase) (signature : Signature)
  | vote (blockHash view : UInt64) (phase : Phase) (signature : Signature)
  | newView (view : UInt64) (qc : QuorumCert) (signature : Signature)
  | viewChange (newView : UInt64) (sender : NodeId) (highQc : QuorumCert) (signature : Signature)
deriving DecidableEq

/-- What is left to do for the caller after a message. -/
inductive ProcessResult where
  | none
  | sendToLeader (msg : HotStuffMsg)
  | broadcast (msg : HotStuffMsg)
  | committed (txs : List OrderedTx) (newView : HotStuffMsg)
  | viewChange (view : UInt64) (msg : HotStuffMsg)
deriving DecidableEq

/-- The message that a result carries. -/
def ProcessResult.msg : ProcessResult → Option HotStuffMsg
  | .none => Option.none
  | .sendToLeader msg | .broadcast msg | .committed _ msg | .viewChange _ msg => some msg

/-! ## Hashes -/

def jsonNats (l : List Nat) : String := "[" ++ String.intercalate "," (l.map toString) ++ "]"

/-- A transaction as `serde_json` writes it. -/
def OrderedTx.toJson : OrderedTx → String
  | .transfer sender recipient amount nonce =>
    "\x7b\"Transfer\":\x7b\"from\":" ++ toString sender ++ ",\"to\":" ++ toString recipient ++
      ",\"amount\":" ++ toString amount ++ ",\"nonce\":" ++ toString nonce ++ "\x7d\x7d"
  | .auctionBid bidder itemId amount =>
    "\x7b\"AuctionBid\":\x7b\"bidder\":" ++ toString bidder ++ ",\"item_id\":" ++ toString itemId ++
      ",\"amount\":" ++ toString amount ++ "\x7d\x7d"
  | .rankedAction player actionType payload =>
    "\x7b\"RankedAction\":\x7b\"player\":" ++ toString player ++ ",\"action_type\":" ++
      toString actionType ++ ",\"payload\":" ++ jsonNats (payload.map UInt8.toNat) ++ "\x7d\x7d"

/-- `serde_json::to_vec`. -/
def toVec (txs : List OrderedTx) : Bytes :=
  ("[" ++ String.intercalate "," (txs.map OrderedTx.toJson) ++ "]").toByteArray.data.toList

def hashBlock (view parentHash : UInt64) (payload : Bytes) : UInt64 :=
  let h : UInt64 := 0xcbf29ce484222325
  let h := h * 0x100000001b3
  let h := h ^^^ view
  let h := h * 0x100000001b3
  let h := h ^^^ parentHash
  payload.foldl (fun h b => (h ^^^ b.toUInt64) * 0x100000001b3) h

/-- The hash that the block should name. -/
def Block.expectedHash (b : Block) : UInt64 := hashBlock b.view b.parentHash (toVec b.transactions)

/-! ## Keys and signatures -/

abbrev PeerId := List.Vector UInt8 32
abbrev SecretKey := List.Vector UInt8 64
abbrev Noise := List.Vector UInt8 16

/-- Ed25519, as the crate `ed25519_compact` provides it. A signature is made with random noise. -/
class Ed25519 where
  publicKey : SecretKey → PeerId
  sign : SecretKey → Bytes → Noise → List.Vector UInt8 64
  verify : PeerId → Bytes → List.Vector UInt8 64 → Bool

structure Identity where
  secret : SecretKey

section Keys

variable [Ed25519]

def Identity.peerId (i : Identity) : PeerId := Ed25519.publicKey i.secret

def Identity.sign (i : Identity) (msg : Bytes) (noise : Noise) : Bytes :=
  (Ed25519.sign i.secret msg noise).toList

/-- `PeerId::verify`: only 64 bytes can be a signature. -/
def verifyBytes (p : PeerId) (msg sigBytes : Bytes) : Bool :=
  if h : sigBytes.length = 64 then Ed25519.verify p msg ⟨sigBytes, h⟩ else false

structure ValidatorKeyring where
  keys : OrdMap NodeId Identity
  peerIds : OrdMap NodeId PeerId

namespace ValidatorKeyring

def new : ValidatorKeyring := ⟨∅, ∅⟩

def registerIdentity (k : ValidatorKeyring) (nodeId : NodeId) (i : Identity) : ValidatorKeyring :=
  { k with keys := k.keys.insert nodeId i }

def registerPeerId (k : ValidatorKeyring) (nodeId : NodeId) (p : PeerId) : ValidatorKeyring :=
  { k with peerIds := k.peerIds.insert nodeId p }

def peerId (k : ValidatorKeyring) (nodeId : NodeId) : Option PeerId :=
  match k.keys[nodeId]? with
  | some i => some i.peerId
  | none => k.peerIds[nodeId]?

end ValidatorKeyring

/-- The bytes of a number in the messages that are signed. -/
def u64Bytes (x : UInt64) : Bytes := beBytes 8 x.toNat

def phaseTag : Phase → UInt8
  | .prepare => 1
  | .preCommit => 2
  | .commit => 3
  | .decide => 4

/-- What the signature of a vote covers. -/
def voteBytes (blockHash : UInt64) (phase : Phase) : Bytes := u64Bytes blockHash ++ [phaseTag phase]

def verifyMsg (sig : Signature) (msg : Bytes) (k : ValidatorKeyring) : Bool :=
  match k.peerId sig.signer with
  | some p => verifyBytes p msg sig.sigBytes
  | none => false

def verify (sig : Signature) (blockHash : UInt64) (k : ValidatorKeyring) : Bool :=
  verifyMsg sig (u64Bytes blockHash) k

def verifyVote (sig : Signature) (blockHash : UInt64) (phase : Phase)
    (k : ValidatorKeyring) : Bool :=
  verifyMsg sig (voteBytes blockHash phase) k

def signVote (nodeId : NodeId) (blockHash : UInt64) (phase : Phase) (i : Identity) (noise : Noise) :
    Signature :=
  ⟨nodeId, i.sign (voteBytes blockHash phase) noise⟩

def signWithIdentity (nodeId : NodeId) (blockHash : UInt64) (i : Identity) (noise : Noise) :
    Signature :=
  ⟨nodeId, i.sign (u64Bytes blockHash) noise⟩

end Keys

theorem u64Bytes_injective : Function.Injective u64Bytes := by
  intro x y h
  have hle : leBytes 8 x.toNat = leBytes 8 y.toNat := List.reverse_injective h
  exact UInt64.toNat_inj.mp (leBytes_inj (by exact x.toNat_lt) (by exact y.toNat_lt) hle)

theorem phaseTag_injective : Function.Injective phaseTag := by
  intro p q h
  cases p <;> cases q <;> first | rfl | exact absurd h (by decide)

theorem voteBytes_inj {h h' : UInt64} {p p' : Phase} (heq : voteBytes h p = voteBytes h' p') :
    h = h' ∧ p = p' := by
  obtain ⟨hhash, htag⟩ := List.append_inj' heq rfl
  exact ⟨u64Bytes_injective hhash, phaseTag_injective (List.singleton_inj.mp htag)⟩

/-- The signature of a vote is none of anything else. -/
theorem voteBytes_ne_u64Bytes (h x : UInt64) (p : Phase) : voteBytes h p ≠ u64Bytes x := by
  intro heq
  have hlen := congrArg List.length heq
  simp [voteBytes, u64Bytes, beBytes] at hlen

/-! ## Validators -/

structure ValidatorSet where
  validators : List NodeId
  nonempty : validators ≠ []

namespace ValidatorSet

def n (vs : ValidatorSet) : Nat := vs.validators.length

def f (vs : ValidatorSet) : Nat := (vs.n - 1) / 3

def quorumSize (vs : ValidatorSet) : Nat := 2 * vs.f + 1

def contains (vs : ValidatorSet) (id : NodeId) : Bool := vs.validators.contains id

/-- The validators as a set. -/
def members (vs : ValidatorSet) : Finset NodeId := vs.validators.toFinset

theorem contains_iff {vs : ValidatorSet} {id : NodeId} : vs.contains id = true ↔
    id ∈ vs.members := by
  rw [contains, members, List.mem_toFinset, List.contains_iff_mem]

theorem hasQuorum_iff {vs : ValidatorSet} {qc : QuorumCert} :
    qc.hasQuorum vs.n = true ↔ vs.quorumSize ≤ qc.signers.card := by
  rw [QuorumCert.hasQuorum, decide_eq_true_iff]
  rfl

theorem n_pos (vs : ValidatorSet) : 0 < vs.n := List.length_pos_of_ne_nil vs.nonempty

end ValidatorSet

/-- Round robin by the number of the view. -/
def leaderForView (view : UInt64) (vs : ValidatorSet) : NodeId :=
  vs.validators.get ⟨view.toNat % vs.n, Nat.mod_lt _ vs.n_pos⟩

namespace Demo

/-- Signatures that anyone can check: the public key, the length of the message and the message. -/
@[reducible] def plainEd25519 : Ed25519 where
  publicKey secret := ⟨secret.toList.take 32, by simp⟩
  sign secret msg _ := ⟨(secret.toList.take 32 ++ [UInt8.ofNat msg.length] ++ msg ++
    List.replicate 64 0).take 64, by simp; omega⟩
  verify key msg sig := sig.toList == (key.toList ++ [UInt8.ofNat msg.length] ++ msg ++
    List.replicate 64 0).take 64

/-- Four validators. -/
def validators : ValidatorSet := ⟨[1, 2, 3, 4], nofun⟩

def identity (nodeId : NodeId) : Identity := ⟨List.Vector.replicate 64 nodeId.toUInt8⟩

end Demo

end P2P333.Platform333.Bft
