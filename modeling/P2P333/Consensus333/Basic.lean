import P2P333.Lib.Bytes
import P2P333.Lib.Machine
import P2P333.Lib.OrdMap

/-!
# Settlement consensus

`333-consensus/src/lib.rs`: blocks and their hashes, signed votes, and the consensus in memory, in
which the leader of a height proposes a block, validators prevote and precommit, and `finalize`
reads off how final the block is. Calls come one after the other here: in the source `finalize`
takes the lock four times, and what other calls do in between is not modelled.

The hash is an XOR fold, and that of the operations looks at their kinds only. Ed25519 is a
parameter.

Results:
1. `countVotes_eq`: the votes that are counted are those of different validators.
2. `votes_mono`, `entry_block_step`: what a call does to the votes and the block of a height.
-/

namespace P2P333.Consensus333

open Std Lib

abbrev NodeId := List.Vector UInt8 32
abbrev Hash := List.Vector UInt8 32
abbrev Signature := List.Vector UInt8 64

/-! ## Blocks -/

/-- What a block settles. -/
inductive SettlementOp where
  | transfer (sender recipient : NodeId) (amount : UInt64) (payload : Bytes)
  | auctionBid (bidder : NodeId) (item : String) (amount : UInt64)
  | rankedAction (actor : NodeId) (kind : String) (rank : UInt32) (payload : Bytes)
deriving DecidableEq

/-- How final the block of a height is. -/
inductive BlockFinality where
  | tentative | confirmed | committed
deriving DecidableEq

namespace BlockFinality

def rank : BlockFinality → Nat
  | tentative => 0
  | confirmed => 1
  | committed => 2

theorem rank_injective : Function.Injective rank := by
  intro x y h
  cases x <;> cases y <;> first | rfl | cases h

instance : LinearOrder BlockFinality := .lift' rank rank_injective

theorem le_committed (x : BlockFinality) : x ≤ committed := by
  cases x <;> decide

theorem tentative_le (x : BlockFinality) : tentative ≤ x := by
  cases x <;> decide

end BlockFinality

structure Block where
  height : UInt64
  proposer : NodeId
  parentHash : Hash
  ops : List SettlementOp
  finality : BlockFinality
deriving DecidableEq

/-- `out[i % 32] ^= b`. -/
def xorAt (out : Hash) (i : Nat) (b : UInt8) : Hash :=
  let j : Fin 32 := ⟨i % 32, Nat.mod_lt _ (by decide)⟩
  out.set j (out.get j ^^^ b)

/-- The bytes folded into 32. -/
def xorFold (bytes : Bytes) : Hash :=
  bytes.zipIdx.foldl (fun out e => xorAt out e.2 e.1) (.replicate 32 0)

def SettlementOp.tag : SettlementOp → UInt8
  | .transfer .. => 1
  | .auctionBid .. => 2
  | .rankedAction .. => 3

def opsHash (ops : List SettlementOp) : Hash :=
  ops.zipIdx.foldl (fun out e => xorAt out e.2 (e.1.tag + UInt8.ofNat e.2)) (.replicate 32 0)

namespace Block

def canonicalBytes (b : Block) : Bytes :=
  beBytes 8 b.height.toNat ++ b.parentHash.toList ++ (opsHash b.ops).toList

def hash (b : Block) : Hash := xorFold b.canonicalBytes

end Block

/-! ## Votes -/

/-- The two rounds of votes. -/
inductive VoteKind where
  | prevote | precommit
deriving DecidableEq, Ord

instance : TransOrd VoteKind where
  eq_swap {a b} := by cases a <;> cases b <;> rfl
  isLE_trans {a b c} := by cases a <;> cases b <;> cases c <;> decide

instance : LawfulEqOrd VoteKind where
  compare_self {a} := by cases a <;> rfl
  eq_of_compare {a b} := by cases a <;> cases b <;> decide

structure Vote where
  height : UInt64
  blockHash : Hash
  voter : NodeId
  kind : VoteKind
  sig : Signature
deriving DecidableEq

/-- Ed25519, as the crate `ed25519_dalek` provides it. -/
class Ed25519 where
  publicKey : List.Vector UInt8 32 → NodeId
  sign : List.Vector UInt8 32 → Bytes → Signature
  verify : NodeId → Bytes → Signature → Bool

def VoteKind.tag : VoteKind → UInt8
  | .prevote => 1
  | .precommit => 2

def voteCanonicalBytes (height : UInt64) (blockHash : Hash) (kind : VoteKind) : Bytes :=
  beBytes 8 height.toNat ++ blockHash.toList ++ [kind.tag]

/-- Why a block or a vote is not taken. -/
inductive ConsensusError where
  | notValidator (id : NodeId)
  | invalidSignature
  | unknownBlock (height : UInt64)
  | doubleSign (validator : NodeId) (height : UInt64)
  | wrongProposer (height : UInt64) (got expected : NodeId)
  | emptyValidatorSet
deriving DecidableEq

structure ValidatorSet where
  validators : List NodeId
  nonempty : validators ≠ []

namespace ValidatorSet

def contains (vs : ValidatorSet) (id : NodeId) : Bool := vs.validators.any (· == id)

def maxFaults (vs : ValidatorSet) : Nat := (vs.validators.length - 1) / 3

def quorum (vs : ValidatorSet) : Nat := 2 * vs.maxFaults + 1

def leader (vs : ValidatorSet) (height : UInt64) : NodeId :=
  vs.validators.get ⟨height.toNat % vs.validators.length,
    Nat.mod_lt _ (List.length_pos_of_ne_nil vs.nonempty)⟩

def members (vs : ValidatorSet) : Finset NodeId := vs.validators.toFinset

theorem contains_iff {vs : ValidatorSet} {id : NodeId} : vs.contains id = true ↔
    id ∈ vs.members := by
  simp [contains, members]

theorem leader_mem {height : UInt64} (vs : ValidatorSet) : vs.leader height ∈ vs.members :=
  List.mem_toFinset.mpr (List.get_mem _ _)

end ValidatorSet

/-! ## Consensus in memory -/

/-- The block that has been proposed, and the hash that each validator has voted for. -/
structure HeightState where
  block : Option Block
  votes : OrdMap (NodeId × VoteKind) Hash

structure InMemoryConsensus where
  validators : ValidatorSet
  state : OrdMap UInt64 HeightState

/-- What is asked of the consensus. -/
inductive Call where
  | propose (block : Block)
  | vote (vote : Vote)
  | finalize (height : UInt64)
deriving DecidableEq

/-- The level that a finalization returns is the answer to it. -/
inductive Answer where
  | done (r : Except ConsensusError Unit)
  | level (r : Except ConsensusError BlockFinality)

namespace InMemoryConsensus

section Calls

variable [Ed25519]

def new (validators : ValidatorSet) : InMemoryConsensus := ⟨validators, ∅⟩

def signVote (secret : List.Vector UInt8 32) (height : UInt64) (blockHash : Hash)
    (kind : VoteKind) :
    Vote :=
  ⟨height, blockHash, Ed25519.publicKey secret, kind,
    Ed25519.sign secret (voteCanonicalBytes height blockHash kind)⟩

def verifyVote (s : InMemoryConsensus) (vote : Vote) : Except ConsensusError Unit :=
  if ¬ s.validators.contains vote.voter then .error (.notValidator vote.voter)
  else if ¬ Ed25519.verify vote.voter (voteCanonicalBytes vote.height vote.blockHash vote.kind)
      vote.sig then .error .invalidSignature
  else .ok ()

/-- `entry(height).or_default()`. -/
def entry (s : InMemoryConsensus) (height : UInt64) : HeightState :=
  s.state[height]?.getD ⟨none, ∅⟩

def setEntry (s : InMemoryConsensus) (height : UInt64) (h : HeightState) : InMemoryConsensus :=
  { s with state := s.state.insert height h }

def countVotes (s : InMemoryConsensus) (height : UInt64) (blockHash : Hash)
    (kind : VoteKind) : Nat :=
  match s.state[height]? with
  | none => 0
  | some h => (h.votes.toList.filter fun e => e.1.2 == kind && e.2 == blockHash).length

def propose (s : InMemoryConsensus) (block : Block) :
    Except ConsensusError Unit × InMemoryConsensus :=
  let expected := s.validators.leader block.height
  if ¬ s.validators.contains block.proposer then (.error (.notValidator block.proposer), s)
  else if block.proposer ≠ expected then
    (.error (.wrongProposer block.height block.proposer expected), s)
  else
    (.ok (), s.setEntry block.height
      { s.entry block.height with block := some { block with finality := .tentative } })

def vote (s : InMemoryConsensus) (vote : Vote) : Except ConsensusError Unit × InMemoryConsensus :=
  match s.verifyVote vote with
  | .error e => (.error e, s)
  | .ok () =>
    let entry := s.entry vote.height
    match entry.votes[(vote.voter, vote.kind)]? with
    | some existing =>
      (if existing ≠ vote.blockHash then .error (.doubleSign vote.voter vote.height) else .ok (),
        s.setEntry vote.height entry)
    | none =>
      (.ok (), s.setEntry vote.height
        { entry with votes := entry.votes.insert (vote.voter, vote.kind) vote.blockHash })

/-- The level that the votes for the block amount to. -/
def tally (s : InMemoryConsensus) (height : UInt64) (blockHash : Hash) : BlockFinality :=
  if s.validators.quorum ≤ s.countVotes height blockHash .precommit then .committed
  else if s.validators.quorum ≤ s.countVotes height blockHash .prevote then .confirmed
  else .tentative

def finalize (s : InMemoryConsensus) (height : UInt64) :
    Except ConsensusError BlockFinality × InMemoryConsensus :=
  match s.state[height]? with
  | none => (.error (.unknownBlock height), s)
  | some h =>
    match h.block with
    | none => (.error (.unknownBlock height), s)
    | some block =>
      let level := max block.finality (s.tally height block.hash)
      (.ok level, s.setEntry height { h with block := some { block with finality := level } })

def block (s : InMemoryConsensus) (height : UInt64) : Except ConsensusError Block :=
  match s.state[height]?.bind HeightState.block with
  | some block => .ok block
  | none => .error (.unknownBlock height)

/-! ## Entries -/

variable {s : InMemoryConsensus} {height height' : UInt64} {blockHash : Hash} {kind : VoteKind}
  {b : Block} {v : Vote}

omit [Ed25519] in
theorem entry_setEntry (h : HeightState) :
    (s.setEntry height h).entry height' = if height = height' then h else s.entry height' := by
  simp only [entry, setEntry, ExtTreeMap.getElem?_insert, LawfulEqCmp.compare_eq_iff_eq]
  split_ifs <;> rfl

/-- Those who have voted for the hash. -/
def voters (s : InMemoryConsensus) (height : UInt64) (blockHash : Hash) (kind : VoteKind) :
    Finset NodeId :=
  (((s.entry height).votes.toList.filter fun e => e.1.2 == kind && e.2 == blockHash).map
    fun e => e.1.1).toFinset

section

omit [Ed25519]

theorem mem_voters {id : NodeId} :
    id ∈ s.voters height blockHash kind ↔ (s.entry height).votes[(id, kind)]? = some blockHash := by
  simp only [voters, List.mem_toFinset, List.mem_map, List.mem_filter, Bool.and_eq_true,
    beq_iff_eq, ← ExtTreeMap.mem_toList_iff_getElem?_eq_some]
  constructor
  · rintro ⟨⟨⟨id', kind'⟩, hash⟩, ⟨hmem, rfl, rfl⟩, rfl⟩
    exact hmem
  · intro hmem
    exact ⟨((id, kind), blockHash), ⟨hmem, rfl, rfl⟩, rfl⟩

/-- The votes that are counted are those of different validators. -/
theorem countVotes_eq :
    s.countVotes height blockHash kind = (s.voters height blockHash kind).card := by
  have hcount : s.countVotes height blockHash kind = ((s.entry height).votes.toList.filter
      fun e => e.1.2 == kind && e.2 == blockHash).length := by
    unfold countVotes entry
    cases s.state[height]? <;> rfl
  rw [hcount, voters, List.toFinset_card_of_nodup, List.length_map]
  refine List.Nodup.map_on ?_ ((OrdMap.nodup_toList _).filter _)
  rintro ⟨⟨id, k⟩, hash⟩ hmem ⟨⟨id', k'⟩, hash'⟩ hmem' hid
  simp only [List.mem_filter, Bool.and_eq_true, beq_iff_eq] at hmem hmem' hid
  rw [hid, hmem.2.1, hmem'.2.1, hmem.2.2, hmem'.2.2]

theorem block_eq : s.block height = match (s.entry height).block with
    | some block => .ok block
    | none => .error (.unknownBlock height) := by
  unfold block entry
  cases s.state[height]? <;> rfl

end

/-- The block with the level that the votes amount to, if it was not higher. -/
def raised (s : InMemoryConsensus) (b : Block) (height : UInt64) : Block :=
  { b with finality := max b.finality (s.tally height b.hash) }

omit [Ed25519] in
theorem finalize_eq : s.finalize height = match (s.entry height).block with
    | some b => (.ok (s.raised b height).finality,
      s.setEntry height { s.entry height with block := some (s.raised b height) })
    | none => (.error (.unknownBlock height), s) := by
  unfold finalize entry
  cases s.state[height]? with
  | none => rfl
  | some h =>
    obtain ⟨block, votes⟩ := h
    cases block <;> rfl

/-! ## Calls -/

/-- The proposer is the leader, and a validator. -/
def Accepts (s : InMemoryConsensus) (b : Block) : Prop :=
  s.validators.contains b.proposer = true ∧ b.proposer = s.validators.leader b.height

instance : Decidable (s.Accepts b) := inferInstanceAs (Decidable (_ ∧ _))

/-- The vote is one of a validator and signed by it. -/
def Valid (vs : ValidatorSet) (v : Vote) : Prop :=
  vs.contains v.voter = true ∧
    Ed25519.verify v.voter (voteCanonicalBytes v.height v.blockHash v.kind) v.sig = true

instance (vs : ValidatorSet) (v : Vote) : Decidable (Valid vs v) :=
  inferInstanceAs (Decidable (_ ∧ _))

theorem verifyVote_eq_ok : s.verifyVote v = .ok () ↔ Valid s.validators v := by
  unfold verifyVote Valid
  split_ifs with hmember hsig
  · exact iff_of_true rfl ⟨hmember, hsig⟩
  · exact iff_of_false nofun fun h => hsig h.2
  · exact iff_of_false nofun fun h => hmember h.1

def step (s : InMemoryConsensus) : Call → Answer × InMemoryConsensus
  | .propose block => ((s.propose block).map .done id)
  | .vote v => ((s.vote v).map .done id)
  | .finalize height => ((s.finalize height).map .level id)

/-- What a call can do. -/
inductive Stepped (s : InMemoryConsensus) : Call → Answer → InMemoryConsensus → Prop
  | proposed {b : Block} (h : s.Accepts b) :
      Stepped s (.propose b) (.done (.ok ())) (s.setEntry b.height
        { s.entry b.height with block := some { b with finality := .tentative } })
  | refused {b : Block} (h : ¬ s.Accepts b) (e : ConsensusError) :
      Stepped s (.propose b) (.done (.error e)) s
  | invalid {v : Vote} (e : ConsensusError) : Stepped s (.vote v) (.done (.error e)) s
  | known {v : Vote} (r : Except ConsensusError Unit) :
      Stepped s (.vote v) (.done r) (s.setEntry v.height (s.entry v.height))
  | voted {v : Vote} (h : Valid s.validators v)
      (hnew : (s.entry v.height).votes[(v.voter, v.kind)]? = none) :
      Stepped s (.vote v) (.done (.ok ())) (s.setEntry v.height
        { s.entry v.height with
          votes := (s.entry v.height).votes.insert (v.voter, v.kind) v.blockHash })
  | unknown {height : UInt64} (h : (s.entry height).block = none) :
      Stepped s (.finalize height) (.level (.error (.unknownBlock height))) s
  | finalized {height : UInt64} {b : Block} (h : (s.entry height).block = some b) :
      Stepped s (.finalize height) (.level (.ok (s.raised b height).finality))
        (s.setEntry height { s.entry height with block := some (s.raised b height) })

theorem stepped (s : InMemoryConsensus) (c : Call) : s.Stepped c (s.step c).1 (s.step c).2 := by
  cases c with
  | propose b =>
    simp only [step, propose, Prod.map_fst, Prod.map_snd, id]
    split_ifs with hmember hleader
    · exact .refused (fun h => hleader h.2) _
    · exact .proposed ⟨hmember, not_not.mp hleader⟩
    · exact .refused (fun h => hmember h.1) _
  | vote v =>
    simp only [step, vote, Prod.map_fst, Prod.map_snd, id]
    cases hverify : s.verifyVote v with
    | error e => exact .invalid e
    | ok u =>
      cases hold : (s.entry v.height).votes[(v.voter, v.kind)]? with
      | none => exact .voted (verifyVote_eq_ok.mp hverify) hold
      | some hash => exact .known _
  | finalize height =>
    simp only [step, finalize_eq, Prod.map_fst, Prod.map_snd, id]
    cases hblock : (s.entry height).block with
    | none => exact .unknown hblock
    | some b => exact .finalized hblock

@[simp] theorem validators_step (s : InMemoryConsensus) (c : Call) :
    (s.step c).2.validators = s.validators := by
  have hstep := s.stepped c
  generalize (s.step c).1 = answer at hstep
  generalize (s.step c).2 = s' at hstep ⊢
  cases hstep <;> rfl

/-- No call takes a vote back. -/
theorem votes_mono (c : Call) {key : NodeId × VoteKind}
    (h : (s.entry height).votes[key]? = some blockHash) :
    ((s.step c).2.entry height).votes[key]? = some blockHash := by
  have hstep := s.stepped c
  generalize (s.step c).1 = answer at hstep
  generalize (s.step c).2 = s' at hstep ⊢
  cases hstep with
  | refused | invalid | unknown => exact h
  | proposed | known | finalized =>
    rw [entry_setEntry]
    split_ifs with hheight
    · exact hheight ▸ h
    · exact h
  | @voted v hvalid hnew =>
    rw [entry_setEntry]
    split_ifs with hheight
    · subst hheight
      have hne : (v.voter, v.kind) ≠ key := by
        rintro rfl
        rw [hnew] at h
        cases h
      rw [OrdMap.getElem?_insert_of_ne _ hne]
      exact h
    · exact h

/-- The block of a height changes with an accepted proposal, and its level with a finalization. -/
theorem entry_block_step (c : Call) : ((s.step c).2.entry height).block = match c with
    | .propose b => if s.Accepts b ∧ b.height = height then some { b with finality := .tentative }
        else (s.entry height).block
    | .vote _ => (s.entry height).block
    | .finalize height' => if height' = height then
        (s.entry height).block.map fun b => s.raised b height
      else (s.entry height).block := by
  have hstep := s.stepped c
  generalize (s.step c).1 = answer at hstep
  generalize (s.step c).2 = s' at hstep ⊢
  cases hstep with
  | @proposed b haccepts =>
    simp only [entry_setEntry, haccepts, true_and]
    split_ifs <;> rfl
  | refused hrefused => simp only [hrefused, false_and, if_false]
  | invalid => rfl
  | known | voted =>
    simp only [entry_setEntry]
    split_ifs with hheight
    · rw [hheight]
    · rfl
  | @unknown height' hnone =>
    dsimp only
    split_ifs with hheight
    · rw [← hheight, hnone, Option.map_none]
    · rfl
  | @finalized height' b hblock =>
    simp only [entry_setEntry]
    split_ifs with hheight
    · rw [← hheight, hblock, Option.map_some]
    · rfl

end Calls

/-! ## Runs -/

variable [Ed25519]

/-- The consensus after some calls. -/
def run (vs : ValidatorSet) (l : List Call) : InMemoryConsensus := Machine.after step (new vs) l

theorem run_concat (vs : ValidatorSet) (l : List Call) (c : Call) :
    run vs (l ++ [c]) = ((run vs l).step c).2 := Machine.after_concat ..

@[simp] theorem validators_run (vs : ValidatorSet) (l : List Call) :
    (run vs l).validators = vs :=
  Machine.after_invariant (I := fun s => s.validators = vs)
    (fun s c hs => (validators_step s c).trans hs) rfl l

end InMemoryConsensus

namespace Demo

/-- Signatures that anyone can check: half of the key, and the message. -/
@[reducible] def plainEd25519 : Ed25519 where
  publicKey secret := secret
  sign secret msg := ⟨(secret.toList.take 16 ++ msg ++ List.replicate 64 0).take 64, by simp; omega⟩
  verify key msg sig := sig.toList == (key.toList.take 16 ++ msg ++ List.replicate 64 0).take 64

attribute [local instance] plainEd25519

def node (k : UInt8) : NodeId := .replicate 32 k

def four : ValidatorSet := ⟨[node 1, node 2, node 3, node 4], nofun⟩

/-- A block of the first leader. -/
def block (ops : List SettlementOp) : Block := ⟨0, node 1, .replicate 32 0, ops, .tentative⟩

def transfer (amount : UInt64) : SettlementOp := .transfer (node 7) (node 8) amount []

/-- The block is proposed, and gets the precommits of the validators. -/
def precommitted (b : Block) (ids : List UInt8) : List Call :=
  .propose b :: ids.map fun k => .vote (InMemoryConsensus.signVote (node k) 0 b.hash .precommit)

end Demo

end P2P333.Consensus333
