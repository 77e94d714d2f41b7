import P2P333.Consensus333.Uniqueness
import P2P333.Voxel333.World

/-!
# Settlement of placements

`settle_and_apply` of `333-voxel-ref/src/lib.rs`: the block is proposed, its height is finalized,
and when that is committed the placements of the caller are applied to the world. They are not
compared with the operations of the block, and a height may be settled again.

Results:
1. `applyAll_spec`: a voxel changes only where a placement was applied.
2. `only_committed`: when all that is applied was committed.
-/

namespace P2P333.Voxel333

open Std Lib Consensus333 InMemoryConsensus

/-! ## Placements as operations -/

namespace BlockPlaceOp

def asSettlementPayload (op : BlockPlaceOp) : Bytes :=
  leBytes 4 op.x.toUInt32.toNat ++ leBytes 4 op.y.toUInt32.toNat ++ leBytes 4 op.z.toUInt32.toNat ++
    leBytes 2 op.kind.toNat

def toSettlementOp (op : BlockPlaceOp) : SettlementOp :=
  .rankedAction op.actor "voxel.place" 0 op.asSettlementPayload

end BlockPlaceOp

section Settlement

variable [Ed25519] {S : Type} [BlockStore S]

/-! ## The call -/

namespace WorldState

def applyAll (w : WorldState S) : List BlockPlaceOp → Except VoxelError Unit × WorldState S
  | [] => (.ok (), w)
  | op :: ops =>
    match w.applyCommitted op with
    | (.error e, w) => (.error e, w)
    | (.ok (), w) => w.applyAll ops

/-- The placements up to the first one that fails. -/
def attempted (w : WorldState S) : List BlockPlaceOp → List BlockPlaceOp
  | [] => []
  | op :: ops =>
    match w.applyCommitted op with
    | (.error _, _) => [op]
    | (.ok (), w) => op :: w.attempted ops

end WorldState

def settleAndApply (c : InMemoryConsensus) (w : WorldState S) (block : Block)
    (ops : List BlockPlaceOp) :
    Except VoxelError BlockFinality × InMemoryConsensus × WorldState S :=
  match c.propose block with
  | (.error e, c) => (.error (.consensus e), c, w)
  | (.ok (), c) =>
    match c.finalize block.height with
    | (.error e, c) => (.error (.consensus e), c, w)
    | (.ok finality, c) =>
      if finality = .committed then
        match w.applyAll ops with
        | (.error e, w) => (.error e, c, w)
        | (.ok (), w) => (.ok finality, c, w.advanceHeight block.height)
      else (.ok finality, c, w)

/-! ## Runs -/

/-- A consensus and a world, with the calls of the consensus and the placements that were applied,
each with its height. -/
structure Site (S : Type) where
  consensus : InMemoryConsensus
  world : WorldState S
  calls : List Consensus333.Call
  applied : List (UInt64 × BlockPlaceOp)

/-- What happens at a site. -/
inductive Settling where
  | consensus (c : Consensus333.Call)
  | settle (block : Block) (ops : List BlockPlaceOp)

namespace Site

def start (vs : ValidatorSet) (inner : S) : Site S := ⟨.new vs, .new inner, [], []⟩

/-- The block is accepted, and a quorum has precommitted its hash. -/
def Commits (s : Site S) (block : Block) : Prop := s.consensus.Accepts block ∧
  s.consensus.validators.quorum ≤ s.consensus.countVotes block.height block.hash .precommit

instance (s : Site S) (block : Block) : Decidable (s.Commits block) :=
  inferInstanceAs (Decidable (_ ∧ _))

def step (s : Site S) : Settling → Option (Site S)
  | .consensus c => some { s with consensus := (s.consensus.step c).2, calls := s.calls ++ [c] }
  | .settle block ops =>
    let r := settleAndApply s.consensus s.world block ops
    some {
      consensus := r.2.1
      world := r.2.2
      calls := s.calls ++ .propose block ::
        if s.consensus.Accepts block then [.finalize block.height] else []
      applied := s.applied ++ if s.Commits block then
        (s.world.attempted ops).map (block.height, ·) else [] }

/-- The placements that were applied for a height. -/
def placements (s : Site S) (height : UInt64) : List BlockPlaceOp :=
  (s.applied.filter fun e => e.1 == height).map Prod.snd

/-- When the block is committed, the placements, with those that were applied for its height before,
are operations of the block, none more often than there. -/
def Supplied (s : Site S) : Settling → Prop
  | .consensus _ => True
  | .settle block ops => s.Commits block →
    ((s.placements block.height ++ ops).map BlockPlaceOp.toSettlementOp).Subperm block.ops

end Site

/-- A quorum of validators has precommitted the block, with votes that were delivered. -/
def Precommitted (vs : ValidatorSet) (calls : List Consensus333.Call) (b : Block) : Prop :=
  ∃ Q ⊆ vs.members, vs.quorum ≤ Q.card ∧ ∀ id ∈ Q, ∃ v ∈ delivered calls, Valid vs v ∧
    v.voter = id ∧
    v.kind = .precommit ∧ v.height = b.height ∧ v.blockHash = b.hash

/-- The placements for a height are operations of one block that was proposed there by its leader
and precommitted by a quorum, each at most as often as it stands in the block. -/
def Backed (vs : ValidatorSet) (calls : List Consensus333.Call) (height : UInt64)
    (ops : List BlockPlaceOp) : Prop :=
  ops ≠ [] → ∃ b, .propose b ∈ calls ∧ b.proposer = vs.leader height ∧ b.height = height ∧
    Precommitted vs calls b ∧ (ops.map BlockPlaceOp.toSettlementOp).Subperm b.ops

/-- A voxel that differs between two worlds has become the block of a placement that is an operation
of a block that was proposed for the height by its leader and precommitted by a quorum. -/
def ChangedByCommitted (vs : ValidatorSet) (calls : List Consensus333.Call) (height : UInt64)
    (read read' : Int32 → Int32 → Int32 → BlockKind) : Prop :=
  ∀ x y z, read' x y z ≠ read x y z → ∃ op : BlockPlaceOp, (op.x, op.y, op.z) = (x, y, z) ∧
    read' x y z = op.kind ∧
    ∃ b, .propose b ∈ calls ∧ b.proposer = vs.leader height ∧ b.height = height ∧
      Precommitted vs calls b ∧
      op.toSettlementOp ∈ b.ops

/-! ## What is applied -/

namespace WorldState

variable {w w' : WorldState S} {op : BlockPlaceOp} {ops : List BlockPlaceOp}

/-- Nothing is read as air. -/
def read (w : WorldState S) (x y z : Int32) : BlockKind :=
  match w.voxel x y z with
  | .ok kind => kind
  | .error _ => 0

omit [Ed25519] [BlockStore S] in
/-- A chunk that is not loaded is read as the empty one. -/
theorem read_eq (h : w.Full) (x y z : Int32) :
    (w.loadedOrEmpty (.of x y z)).get (localOf x) (localOf y) (localOf z) = .ok (w.read x y z) := by
  have hroom := (cell_lt x y z).trans_le (h.loadedOrEmpty (.of x y z)).2
  have hindex : Chunk.index (localOf x) (localOf y) (localOf z) = cell x y z := rfl
  unfold read voxel
  cases hloaded : w.loaded (.of x y z) with
  | none =>
    rw [loadedOrEmpty, hloaded, Option.getD_none, Chunk.get, hindex, Chunk.empty,
      List.getElem?_replicate,
      if_pos (cell_lt x y z)]
  | some c =>
    rw [loadedOrEmpty, hloaded, Option.getD_some] at hroom ⊢
    have hget : c.get (localOf x) (localOf y) (localOf z) = .ok c.blocks[cell x y z] := by
      rw [Chunk.get, hindex, List.getElem?_eq_getElem hroom]
    simp only [hget]

section

omit [Ed25519]

theorem read_applyCommitted (h : w.Full) (op : BlockPlaceOp) (x y z : Int32) :
    (w.applyCommitted op).2.read x y z = if (x, y, z) = (op.x, op.y, op.z) then op.kind
      else w.read x y z := by
  rw [applyCommitted_eq h]
  by_cases hxyz : ChunkCoord.of x y z = op.chunkCoord
  · have hroom : op.cell < (w.loadedOrEmpty op.chunkCoord).blocks.length :=
      (cell_lt op.x op.y op.z).trans_le (h.loadedOrEmpty op.chunkCoord).2
    simp only [read, voxel, hxyz, Function.update_self, working]
    split_ifs with hposition
    · obtain ⟨rfl, rfl, rfl⟩ : x = op.x ∧ y = op.y ∧ z = op.z := by simpa using hposition
      rw [Chunk.get_place_self hroom]
    · have hcell : cell x y z ≠ op.cell := by
        intro hcell
        obtain ⟨rfl, rfl, rfl⟩ := cell_injective hxyz hcell
        exact hposition rfl
      have hread := read_eq h x y z
      rw [hxyz] at hread
      rw [Chunk.get_place_of_ne hcell, hread, read, voxel, hxyz]
  · have hposition : (x, y, z) ≠ (op.x, op.y, op.z) := by
      rintro ⟨⟩
      exact hxyz rfl
    simp only [read, voxel, Function.update_of_ne hxyz, if_neg hposition]

theorem full_applyCommitted (h : w.Full) (op : BlockPlaceOp) : (w.applyCommitted op).2.Full := by
  rw [applyCommitted_eq h]
  exact h.update (h.working op).1 (h.working op).2

theorem attempted_sublist (w : WorldState S) (ops : List BlockPlaceOp) :
    (w.attempted ops).Sublist ops := by
  induction ops generalizing w with
  | nil => exact .slnil
  | cons op ops ih =>
    unfold attempted
    rcases w.applyCommitted op with ⟨e | u, w'⟩
    · exact (List.nil_sublist ops).cons_cons op
    · exact (ih w').cons_cons op

end

omit [Ed25519] in
/-- A voxel changes only where a placement was applied. -/
theorem applyAll_spec (h : w.Full) (ops : List BlockPlaceOp) : (w.applyAll ops).2.Full ∧
    ∀ x y z, (w.applyAll ops).2.read x y z ≠ w.read x y z → ∃ op ∈ w.attempted ops,
      (x, y, z) = (op.x, op.y, op.z) ∧ (w.applyAll ops).2.read x y z = op.kind := by
  induction ops generalizing w with
  | nil => exact ⟨h, fun _ _ _ hne => absurd rfl hne⟩
  | cons op ops ih =>
    have hfull := full_applyCommitted h op
    have hread := read_applyCommitted h op
    unfold applyAll attempted
    rcases hresult : w.applyCommitted op with ⟨e | u, w'⟩ <;> rw [hresult] at hfull hread
    · refine ⟨hfull, fun x y z hne => ⟨op, List.mem_singleton_self op, ?_⟩⟩
      rw [hread] at hne ⊢
      split_ifs at hne ⊢ with hposition
      · exact ⟨hposition, rfl⟩
      · exact absurd rfl hne
    · obtain ⟨hfull', hchanged⟩ := ih hfull
      refine ⟨hfull', fun x y z hne => ?_⟩
      by_cases hlater : (w'.applyAll ops).2.read x y z = w'.read x y z
      · refine ⟨op, List.mem_cons_self, ?_⟩
        simp only [hlater] at hne ⊢
        rw [hread] at hne ⊢
        split_ifs at hne ⊢ with hposition
        · exact ⟨hposition, rfl⟩
        · exact absurd rfl hne
      · obtain ⟨op', hop', hposition, hkind⟩ := hchanged x y z hlater
        exact ⟨op', List.mem_cons_of_mem _ hop', hposition, hkind⟩

end WorldState

/-! ## What a settlement does -/

section Settled

variable {c : InMemoryConsensus} {b : Block}

/-- The consensus that holds the block that is settled. -/
def holding (c : InMemoryConsensus) (b : Block) : InMemoryConsensus :=
  c.setEntry b.height { c.entry b.height with block := some { b with finality := .tentative } }

section

omit [Ed25519]

theorem propose_of_accepts (h : c.Accepts b) : c.propose b = (.ok (), holding c b) := by
  rw [propose, if_neg (not_not.mpr h.1), if_neg (not_not.mpr h.2)]
  rfl

theorem propose_of_not_accepts (h : ¬ c.Accepts b) : ∃ e, c.propose b = (.error e, c) := by
  simp only [propose]
  split_ifs with hmember hleader
  · exact ⟨_, rfl⟩
  · exact absurd ⟨hmember, not_not.mp hleader⟩ h
  · exact ⟨_, rfl⟩

/-- The proposal changes no vote. -/
theorem countVotes_holding (kind : VoteKind) :
    (holding c b).countVotes b.height b.hash kind = c.countVotes b.height b.hash kind := by
  rw [countVotes_eq, countVotes_eq]
  congr 1
  ext id
  rw [mem_voters, mem_voters, holding, entry_setEntry, if_pos rfl]

theorem finalize_holding : ∃ c', (holding c b).finalize b.height =
    (.ok ((holding c b).tally b.height b.hash), c') := by
  have hblock : ((holding c b).entry b.height).block = some { b with finality := .tentative } := by
    rw [holding, entry_setEntry, if_pos rfl]
  have hlevel : ((holding c b).raised { b with finality := .tentative } b.height).finality =
      (holding c b).tally b.height b.hash := max_eq_right (BlockFinality.tentative_le _)
  rw [finalize_eq, hblock]
  exact ⟨_, Prod.ext (congrArg Except.ok hlevel) rfl⟩

end

omit [Ed25519] in
theorem tally_holding : (holding c b).tally b.height b.hash = .committed ↔
    c.validators.quorum ≤ c.countVotes b.height b.hash .precommit := by
  unfold tally
  rw [countVotes_holding, countVotes_holding, show (holding c b).validators = c.validators from rfl]
  split_ifs with hprecommits
  · exact iff_of_true rfl hprecommits
  · exact iff_of_false nofun hprecommits
  · exact iff_of_false nofun hprecommits

end Settled

namespace Site

variable {s s' : Site S} {block : Block} {ops : List BlockPlaceOp} {vs : ValidatorSet}

/-- The calls of the consensus in a settlement. -/
theorem settle_consensus (s : Site S) (block : Block) (ops : List BlockPlaceOp) :
    (settleAndApply s.consensus s.world block ops).2.1 =
      Machine.after InMemoryConsensus.step s.consensus
        (.propose block :: if s.consensus.Accepts block then [.finalize block.height] else []) := by
  unfold settleAndApply
  by_cases haccepts : s.consensus.Accepts block
  · obtain ⟨c', hfinalize⟩ := finalize_holding (c := s.consensus) (b := block)
    have hpropose := propose_of_accepts haccepts
    have hafter : Machine.after InMemoryConsensus.step s.consensus
      [.propose block, .finalize block.height] = c' := by
      simp only [Machine.after_cons, Machine.after_nil, InMemoryConsensus.step, hpropose,
        Prod.map_snd, id,
        hfinalize]
    rw [if_pos haccepts, hafter, hpropose]
    dsimp only
    rw [hfinalize]
    dsimp only
    split_ifs
    · rcases s.world.applyAll ops with ⟨e | u, w⟩ <;> rfl
    · rfl
  · obtain ⟨e, hpropose⟩ := propose_of_not_accepts haccepts
    rw [if_neg haccepts, hpropose, Machine.after_cons, Machine.after_nil,
      InMemoryConsensus.step, hpropose]
    rfl

omit [Ed25519] in
/-- The placements are applied exactly when the block is committed. -/
theorem settle_world (s : Site S) (block : Block) (ops : List BlockPlaceOp) : ∃ settledHeight,
    (settleAndApply s.consensus s.world block ops).2.2 =
      { (if s.Commits block then (s.world.applyAll ops).2 else s.world) with settledHeight } := by
  unfold settleAndApply Commits
  by_cases haccepts : s.consensus.Accepts block
  · obtain ⟨c', hfinalize⟩ := finalize_holding (c := s.consensus) (b := block)
    rw [propose_of_accepts haccepts]
    dsimp only
    rw [hfinalize]
    dsimp only
    simp only [tally_holding, haccepts, true_and]
    split_ifs
    · rcases s.world.applyAll ops with ⟨e | u, w⟩
      · exact ⟨w.settledHeight, rfl⟩
      · refine ⟨(w.advanceHeight block.height).settledHeight, ?_⟩
        show w.advanceHeight block.height = _
        unfold WorldState.advanceHeight
        split_ifs <;> rfl
    · exact ⟨s.world.settledHeight, rfl⟩
  · obtain ⟨e, hpropose⟩ := propose_of_not_accepts haccepts
    rw [hpropose]
    simp only [haccepts, false_and, if_false]
    exact ⟨s.world.settledHeight, rfl⟩

end Site

/-! ## The invariant -/

variable {s s' : Site S} {block : Block} {ops : List BlockPlaceOp} {vs : ValidatorSet}
    {height : UInt64}
  {calls calls' : List Consensus333.Call} {b : Block}

theorem Precommitted.mono (h : Precommitted vs calls b) (hcalls : calls ⊆ calls') :
    Precommitted vs calls' b := by
  obtain ⟨Q, hQ, hquorum, hvotes⟩ := h
  refine ⟨Q, hQ, hquorum, fun id hid => ?_⟩
  obtain ⟨v, hv, hrest⟩ := hvotes id hid
  exact ⟨v, mem_delivered.mpr (hcalls (mem_delivered.mp hv)), hrest⟩

theorem Backed.mono (h : Backed vs calls height ops) (hcalls : calls ⊆ calls') :
    Backed vs calls' height ops := by
  intro hne
  obtain ⟨b, hb, hleader, hheight, hprecommitted, hops⟩ := h hne
  exact ⟨b, hcalls hb, hleader, hheight, hprecommitted.mono hcalls, hops⟩

omit [BlockStore S] in
/-- The block that is committed is precommitted by a quorum. -/
theorem precommitted_of_commits (hrun : s.consensus = run vs s.calls) (h : s.Commits block) :
    Precommitted vs s.calls block := by
  obtain ⟨-, hquorum⟩ := h
  rw [hrun, countVotes_eq, validators_run] at hquorum
  have hvotes : ∀ id ∈ (run vs s.calls).voters block.height block.hash .precommit,
    ∃ v ∈ delivered s.calls,
      Valid vs v ∧ v.voter = id ∧ v.kind = .precommit ∧ v.height = block.height ∧
        v.blockHash = block.hash :=
    fun id hid => delivered_of_votes (mem_voters.mp hid)
  refine ⟨_, fun id hid => ?_, hquorum, hvotes⟩
  obtain ⟨v, -, hvalid, rfl, -⟩ := hvotes id hid
  exact ValidatorSet.contains_iff.mp hvalid.1

omit [BlockStore S] in
theorem leader_of_commits (hrun : s.consensus = run vs s.calls) (h : s.Commits block) :
    block.proposer = vs.leader block.height := by
  have hleader := h.1.2
  rwa [hrun, validators_run] at hleader

/-- The consensus is the one after its calls, loaded chunks are full, and what was applied was
committed. -/
structure Inv (vs : ValidatorSet) (s : Site S) : Prop where
  consensus : s.consensus = run vs s.calls
  full : s.world.Full
  backed : ∀ height, Backed vs s.calls height (s.placements height)

theorem placements_settle (hstep : s.step (.settle block ops) = some s') (height : UInt64) :
    s'.placements height = s.placements height ++
      if s.Commits block ∧ block.height = height then s.world.attempted ops else [] := by
  obtain rfl := Option.some.inj hstep
  unfold Site.placements
  rw [List.filter_append, List.map_append]
  congr 1
  by_cases hcommits : s.Commits block
  · rw [if_pos hcommits]
    by_cases hheight : block.height = height
    · rw [if_pos ⟨hcommits, hheight⟩]
      simp [List.filter_map, hheight, Function.comp_def]
    · rw [if_neg fun h => hheight h.2]
      simp [List.filter_map, hheight, Function.comp_def]
  · rw [if_neg hcommits, if_neg fun h => hcommits h.1]
    rfl

theorem Inv.step {a : Settling} (hI : Inv vs s) (hok : s.Supplied a) (hstep : s.step a = some s') :
    Inv vs s' := by
  cases a with
  | consensus c =>
    obtain rfl := Option.some.inj hstep
    refine ⟨?_, hI.full, fun height => (hI.backed height).mono (List.subset_append_left _ _)⟩
    show (s.consensus.step c).2 = _
    rw [run_concat, hI.consensus]
  | settle block ops =>
    have hplacements := placements_settle hstep
    obtain rfl := Option.some.inj hstep
    have hcalls := List.subset_append_left s.calls
      (.propose block :: if s.consensus.Accepts block then [.finalize block.height] else [])
    refine ⟨?_, ?_, fun height => ?_⟩
    · show (settleAndApply s.consensus s.world block ops).2.1 = _
      rw [Site.settle_consensus, run, Machine.after_append, ← run, ← hI.consensus]
    · show (settleAndApply s.consensus s.world block ops).2.2.Full
      obtain ⟨settledHeight, hworld⟩ := Site.settle_world s block ops
      rw [hworld]
      split_ifs
      · exact (WorldState.applyAll_spec hI.full ops).1
      · exact hI.full
    · rw [hplacements]
      by_cases h : s.Commits block ∧ block.height = height
      · rw [if_pos h]
        obtain ⟨hcommits, rfl⟩ := h
        intro _
        refine ⟨block, List.mem_append_right _ List.mem_cons_self,
          leader_of_commits hI.consensus hcommits, rfl,
          (precommitted_of_commits hI.consensus hcommits).mono hcalls, ?_⟩
        refine List.Subperm.trans (List.Sublist.subperm ?_) (hok hcommits)
        exact ((List.Sublist.refl _).append (s.world.attempted_sublist ops)).map _
      · rw [if_neg h, List.append_nil]
        exact (hI.backed height).mono hcalls

theorem inv_of_reachable {inner : S}
    (h : Reachable Site.step Site.Supplied (Site.start vs inner) s) : Inv vs s :=
  h.invariant (I := Inv vs) ⟨rfl, fun _ _ hnone => (by cases hnone), fun _ hne => absurd rfl hne⟩
    fun _ _ _ _ hI hok hstep => hI.step hok hstep

end Settlement

namespace Demo

attribute [local instance] Consensus333.Demo.plainEd25519 firstBlocks

open Consensus333.Demo

def placement : BlockPlaceOp := ⟨node 7, 1, 2, 3, 7⟩

/-- The block is precommitted by three of four validators and settled with the placement, some
number of times. -/
def settling (b : Block) (n : Nat) : List Settling :=
  (precommitted b [1, 2, 3]).map .consensus ++ .replicate n (.settle b [placement])

/-- Every block that was proposed has fewer operations. -/
def Shorter (calls : List Consensus333.Call) (n : Nat) : Bool := calls.all fun
  | .propose b => b.ops.length < n
  | _ => true

theorem not_backed {calls : List Consensus333.Call} {height : UInt64} {ops : List BlockPlaceOp}
    (hne : ops ≠ [])
    (h : Shorter calls ops.length = true) : ¬ Backed four calls height ops := by
  intro hbacked
  obtain ⟨b, hb, -, -, -, hsub⟩ := hbacked hne
  have hlt := of_decide_eq_true (List.all_eq_true.mp h _ hb)
  have hle := hsub.length_le
  rw [List.length_map] at hle
  omega

instance (s : Site InMemoryBlockStore) : ∀ a, Decidable (s.Supplied a)
  | .consensus _ => .isTrue trivial
  | .settle b ops => inferInstanceAs (Decidable (s.Commits b →
      ((s.placements b.height ++ ops).map BlockPlaceOp.toSettlementOp).Subperm b.ops))

end Demo

end P2P333.Voxel333
