import P2P333.Consensus333.Basic
import P2P333.Lib.Quorum

/-!
# Settlement consensus: one block for each height

Two instances that have committed at a height hold blocks of one hash there, if any two quorums meet
in an honest validator. With `n = 3f + 1` validators they do. A set of another size has quorums of
`2f + 1` as well, which is not enough.

The hash says little about the operations: of up to 32 operations it tells the kinds, given the
parent. Amounts and parties are no part of it, so two blocks that have nothing else in common are
committed with the same votes, and would be with any other hash of the same bytes.

Results:
1. `opsHash_of_hash`, `kinds_of_opsHash`: what the hash of a block says about its operations.
2. `finalized_agree`: the blocks of two instances have one hash.
3. `committing_commits`: a quorum of precommits commits the block of the leader.
4. `finality_unique_iff`: finality is unique exactly if the blocks that may be proposed are told
   apart by their hashes and quorums meet.
5. `committed_apart`: two instances commit different operations, and with three validators even
   different hashes.
-/

namespace P2P333.Consensus333

open Std Lib InMemoryConsensus

/-! ## Hashes -/

/-- The bytes folded in from a position on. -/
def xorFrom (out : Hash) (n : Nat) (bytes : Bytes) : Hash :=
  (bytes.zipIdx n).foldl (fun out e => xorAt out e.2 e.1) out

theorem xorFrom_append (out : Hash) (n : Nat) (l l' : Bytes) :
    xorFrom out n (l ++ l') = xorFrom (xorFrom out n l) (n + l.length) l' := by
  rw [xorFrom, List.zipIdx_append, List.foldl_append]
  rfl

theorem get_xorAt (out : Hash) (i : Nat) (b : UInt8) (j : Fin 32) :
    (xorAt out i b).get j = if i % 32 = j then out.get j ^^^ b else out.get j := by
  unfold xorAt
  split_ifs with h
  · obtain rfl : (⟨i % 32, Nat.mod_lt _ (by decide)⟩ : Fin 32) = j := Fin.ext h
    exact List.Vector.get_set_same _ _ _
  · exact List.Vector.get_set_of_ne (fun heq => h (congrArg Fin.val heq)) _

/-- At most 32 bytes go to different places. -/
theorem get_xorFrom {bytes : Bytes} (hlen : bytes.length ≤ 32) (out : Hash) (n : Nat) {k : Nat}
    (hk : k < 32) (j : Fin 32) (hj : (n + k) % 32 = j) :
    (xorFrom out n bytes).get j = out.get j ^^^ bytes.getD k 0 := by
  induction bytes generalizing out n k with
  | nil => exact (UInt8.xor_zero).symm
  | cons b rest ih =>
    have hshort : rest.length ≤ 31 := Nat.le_of_succ_le_succ hlen
    have hstep : xorFrom out n (b :: rest) = xorFrom (xorAt out n b) (n + 1) rest := rfl
    rw [hstep]
    cases k with
    | zero =>
      -- the place of the first byte is that of a 32nd one of the rest
      have hfirst : n % 32 = j := hj
      have hplace : (n + 1 + 31) % 32 = j := by omega
      have hnone : rest.getD 31 0 = 0 := by
        rw [List.getD_eq_getElem?_getD, List.getElem?_eq_none hshort, Option.getD_none]
      rw [ih (by omega) _ _ (by decide) hplace, hnone, UInt8.xor_zero, get_xorAt, if_pos hfirst]
      rfl
    | succ k =>
      rw [ih (by omega) _ _ (by omega) (by omega : (n + 1 + k) % 32 = j), get_xorAt,
        if_neg (by omega)]
      rfl

/-- The bytes that stand for the operations. -/
def opBytes (n : Nat) : List SettlementOp → Bytes
  | [] => []
  | op :: rest => (op.tag + UInt8.ofNat n) :: opBytes (n + 1) rest

theorem length_opBytes (n : Nat) (ops : List SettlementOp) :
    (opBytes n ops).length = ops.length := by
  induction ops generalizing n with
  | nil => rfl
  | cons op rest ih => exact congrArg Nat.succ (ih (n + 1))

theorem getElem?_opBytes (n : Nat) (ops : List SettlementOp) (k : Nat) :
    (opBytes n ops)[k]? = ops[k]?.map fun op => op.tag + UInt8.ofNat (n + k) := by
  induction ops generalizing n k with
  | nil => rfl
  | cons op rest ih =>
    cases k with
    | zero => rfl
    | succ k =>
      rw [opBytes, List.getElem?_cons_succ, List.getElem?_cons_succ, ih, Nat.add_right_comm,
        Nat.add_assoc]

theorem opsHash_eq (ops : List SettlementOp) :
    opsHash ops = xorFrom (.replicate 32 0) 0 (opBytes 0 ops) := by
  have hfold : ∀ (out : Hash) (n : Nat), (ops.zipIdx n).foldl
      (fun out e => xorAt out e.2 (e.1.tag + UInt8.ofNat e.2)) out =
        xorFrom out n (opBytes n ops) := by
    induction ops with
    | nil => exact fun _ _ => rfl
    | cons op rest ih => exact fun out n => ih (xorAt out n (op.tag + UInt8.ofNat n)) (n + 1)
  exact hfold _ 0

/-- The byte that stands for an operation is none that stands for no operation. -/
theorem tag_add_ne_zero (op : SettlementOp) {k : Nat} (hk : k < 32) :
    op.tag + UInt8.ofNat k ≠ 0 := by
  have hall : ∀ k : Fin 32, (1 : UInt8) + UInt8.ofNat k ≠ 0 ∧ (2 : UInt8) + UInt8.ofNat k ≠ 0 ∧
      (3 : UInt8) + UInt8.ofNat k ≠ 0 := by
    decide
  obtain ⟨h1, h2, h3⟩ := hall ⟨k, hk⟩
  cases op with
  | transfer => exact h1
  | auctionBid => exact h2
  | rankedAction => exact h3

/-- The hash of at most 32 operations tells how many there are, and their kinds. -/
theorem kinds_of_opsHash {ops ops' : List SettlementOp} (hlen : ops.length ≤ 32)
    (hlen' : ops'.length ≤ 32) (h : opsHash ops = opsHash ops') :
    ops.map SettlementOp.tag = ops'.map SettlementOp.tag := by
  rw [opsHash_eq, opsHash_eq] at h
  have hbytes : ∀ k < 32, (opBytes 0 ops).getD k 0 = (opBytes 0 ops').getD k 0 := by
    intro k hk
    have hget := congrArg (fun out => List.Vector.get out ⟨k, hk⟩) h
    simp only [get_xorFrom ((length_opBytes 0 ops).trans_le hlen) _ 0 hk ⟨k, hk⟩
      (by rw [Nat.zero_add, Nat.mod_eq_of_lt hk]),
      get_xorFrom ((length_opBytes 0 ops').trans_le hlen') _ 0 hk ⟨k, hk⟩
      (by rw [Nat.zero_add, Nat.mod_eq_of_lt hk])] at hget
    exact (UInt8.xor_right_inj _).mp hget
  refine List.ext_getElem? fun k => ?_
  rw [List.getElem?_map, List.getElem?_map]
  by_cases hk : k < 32
  · have hbyte := hbytes k hk
    simp only [List.getD_eq_getElem?_getD, getElem?_opBytes, Nat.zero_add] at hbyte
    cases hop : ops[k]? with
    | none =>
      cases hop' : ops'[k]? with
      | none => rfl
      | some op' =>
        rw [hop, hop'] at hbyte
        exact absurd hbyte.symm (tag_add_ne_zero op' hk)
    | some op =>
      cases hop' : ops'[k]? with
      | none =>
        rw [hop, hop'] at hbyte
        exact absurd hbyte (tag_add_ne_zero op hk)
      | some op' =>
        rw [hop, hop'] at hbyte
        exact congrArg some ((UInt8.add_left_inj _).mp hbyte)
  · rw [List.getElem?_eq_none (by omega), List.getElem?_eq_none (by omega)]

/-- Blocks of one height, hash and parent have operations of the same hash. -/
theorem opsHash_of_hash {b b' : Block} (hheight : b.height = b'.height)
    (hparent : b.parentHash = b'.parentHash) (h : b.hash = b'.hash) :
    opsHash b.ops = opsHash b'.ops := by
  have hsplit : ∀ b : Block, b.hash = xorFrom
      (xorFrom (.replicate 32 0) 0 (beBytes 8 b.height.toNat ++ b.parentHash.toList)) 40
      (opsHash b.ops).toList := by
    intro b
    have hlen : (beBytes 8 b.height.toNat ++ b.parentHash.toList).length = 40 := by
      simp [beBytes]
    have happend := xorFrom_append (.replicate 32 0) 0
      (beBytes 8 b.height.toNat ++ b.parentHash.toList) (opsHash b.ops).toList
    rw [hlen] at happend
    exact happend
  rw [hsplit, hsplit, hheight, hparent] at h
  refine List.Vector.ext fun k => ?_
  have hj : (40 + k.val) % 32 < 32 := Nat.mod_lt _ (by decide)
  have hget := congrArg (fun out => List.Vector.get out ⟨(40 + k.val) % 32, hj⟩) h
  simp only [get_xorFrom (Nat.le_of_eq (List.Vector.toList_length _)) _ 40 k.isLt
    ⟨(40 + k.val) % 32, hj⟩ rfl] at hget
  have hbyte := (UInt8.xor_right_inj _).mp hget
  have hgetD : ∀ v : Hash, v.toList.getD k 0 = v.get k := by
    intro v
    rw [List.Vector.get_eq_get_toList, List.getD_eq_getElem _ _ (by simp)]
    rfl
  rwa [hgetD, hgetD] at hbyte

section Uniqueness

variable [Ed25519]

/-! ## Statement -/

/-- The votes that are delivered. -/
def delivered (l : List Call) : List Vote :=
  l.filterMap fun
    | .vote v => some v
    | _ => none

omit [Ed25519] in
theorem mem_delivered {l : List Call} {v : Vote} : v ∈ delivered l ↔ .vote v ∈ l := by
  rw [delivered, List.mem_filterMap]
  constructor
  · rintro ⟨c, hc, hv⟩
    cases c <;> cases hv
    exact hc
  · exact fun hv => ⟨_, hv, rfl⟩

/-- The blocks that are proposed. -/
def proposed (l : List Call) : List Block :=
  l.filterMap fun
    | .propose b => some b
    | _ => none

omit [Ed25519] in
theorem proposed_append (l l' : List Call) : proposed (l ++ l') = proposed l ++ proposed l' :=
  List.filterMap_append ..

/-- A validator that is not faulty signs at most one precommit for a height. -/
def PrecommitsOnce (vs : ValidatorSet) (faulty : Finset NodeId) (votes : List Vote) : Prop :=
  ∀ v ∈ votes, ∀ v' ∈ votes, Valid vs v → Valid vs v' → v.voter ∉ faulty → v.voter = v'.voter →
    v.kind = .precommit → v'.kind = .precommit → v.height = v'.height → v.blockHash = v'.blockHash

instance (vs : ValidatorSet) (faulty : Finset NodeId) (votes : List Vote) :
    Decidable (PrecommitsOnce vs faulty votes) :=
  inferInstanceAs (Decidable (∀ v ∈ votes, ∀ v' ∈ votes, _))

/-- Where two instances have committed, they hold the same block, as far as `Same` goes. The blocks
that come to them are among those that may be proposed. -/
def UniqueFinality (vs : ValidatorSet) (faulty : Finset NodeId) (Proposable : Block → Prop)
    (Same : Block → Block → Prop) : Prop :=
  ∀ (l l' : List Call) (height : UInt64) (b b' : Block),
    (∀ b ∈ proposed l ++ proposed l', Proposable b) →
    PrecommitsOnce vs faulty (delivered l ++ delivered l') →
    ((run vs l).finalize height).1 = .ok .committed →
    ((run vs l').finalize height).1 = .ok .committed →
    ((run vs l).finalize height).2.block height = .ok b →
    ((run vs l').finalize height).2.block height = .ok b' → Same b b'

/-- Of two blocks that the leader of a height may propose there with different operations, no more
than one can be committed: their hashes differ, and two quorums have an honest validator in common.
(If the set lists validators several times there may be no quorum at all.) -/
def ToldApart (vs : ValidatorSet) (faulty : Finset NodeId) (Proposable : Block → Prop) : Prop :=
  ∀ b b', Proposable b → Proposable b' → b.proposer = vs.leader b.height →
    b'.proposer = vs.leader b'.height → b.height = b'.height → b.ops ≠ b'.ops →
    vs.members.card < vs.quorum ∨ (b.hash ≠ b'.hash ∧
      vs.members.card + (vs.members ∩ faulty).card < 2 * vs.quorum)

/-- Every validator has a key, and signatures verify. -/
structure CanSign (vs : ValidatorSet) : Prop where
  keys : ∀ id ∈ vs.members, ∃ secret, Ed25519.publicKey secret = id
  verifies : ∀ secret msg, Ed25519.verify (Ed25519.publicKey secret) msg (Ed25519.sign secret msg)

/-- The blocks have one hash. If they have one parent and not more than 32 operations, these are of
the same kinds. -/
structure SameVotedOn (b b' : Block) : Prop where
  hash : b.hash = b'.hash
  kinds : b.parentHash = b'.parentHash → b.ops.length ≤ 32 → b'.ops.length ≤ 32 →
    b.ops.map SettlementOp.tag = b'.ops.map SettlementOp.tag

/-! ## Runs -/

variable {vs : ValidatorSet} {l : List Call} {height : UInt64} {blockHash : Hash} {kind : VoteKind}
  {b : Block}

/-- A vote that is held has been delivered, and is valid. -/
theorem delivered_of_votes {id : NodeId}
    (h : ((run vs l).entry height).votes[(id, kind)]? = some blockHash) :
    ∃ v ∈ delivered l, Valid vs v ∧ v.voter = id ∧ v.kind = kind ∧ v.height = height ∧
      v.blockHash = blockHash := by
  induction l using List.reverseRecOn with
  | nil => cases h
  | append_singleton l c ih =>
    have hkept : ((run vs l).entry height).votes[(id, kind)]? = some blockHash →
        ∃ v ∈ delivered (l ++ [c]), Valid vs v ∧ v.voter = id ∧ v.kind = kind ∧
          v.height = height ∧ v.blockHash = blockHash := by
      intro hold
      obtain ⟨v, hv, hrest⟩ := ih hold
      refine ⟨v, ?_, hrest⟩
      rw [delivered, List.filterMap_append]
      exact List.mem_append_left _ hv
    have hmem : c ∈ l ++ [c] := List.mem_append_right _ (List.mem_singleton_self c)
    rw [run_concat] at h
    have hstep := (run vs l).stepped c
    generalize ((run vs l).step c).1 = answer at hstep
    generalize ((run vs l).step c).2 = s' at hstep h
    cases hstep with
    | refused | invalid | unknown => exact hkept h
    | proposed | known | finalized =>
      rw [entry_setEntry] at h
      split_ifs at h with hheight
      · exact hkept (hheight ▸ h)
      · exact hkept h
    | @voted v hvalid hnew =>
      rw [entry_setEntry] at h
      split_ifs at h with hheight
      · by_cases hkey : (v.voter, v.kind) = (id, kind)
        · dsimp only at h
          rw [hkey, ExtTreeMap.getElem?_insert_self] at h
          rw [validators_run] at hvalid
          exact ⟨v, mem_delivered.mpr hmem, hvalid, congrArg Prod.fst hkey, congrArg Prod.snd hkey,
            hheight, Option.some.inj h⟩
        · rw [OrdMap.getElem?_insert_of_ne _ hkey, hheight] at h
          exact hkept h
      · exact hkept h

/-- Blocks lie at their heights, and a committed one has a quorum of precommits. -/
theorem committed_of_run (h : ((run vs l).entry height).block = some b) : b.height = height ∧
    (b.finality = .committed →
      vs.quorum ≤ ((run vs l).voters height b.hash .precommit).card) := by
  induction l using List.reverseRecOn generalizing b with
  | nil => cases h
  | append_singleton l c ih =>
    rw [run_concat] at h ⊢
    have hmono : ∀ blockHash, (run vs l).voters height blockHash .precommit ⊆
        ((run vs l).step c).2.voters height blockHash .precommit :=
      fun _ _ hid => mem_voters.mpr (votes_mono c (mem_voters.mp hid))
    have hkept : ((run vs l).entry height).block = some b → b.height = height ∧
        (b.finality = .committed →
          vs.quorum ≤ (((run vs l).step c).2.voters height b.hash .precommit).card) := by
      intro hold
      obtain ⟨hheight, hquorum⟩ := ih hold
      exact ⟨hheight, fun hb => (hquorum hb).trans (Finset.card_le_card (hmono _))⟩
    rw [entry_block_step] at h
    cases c with
    | vote v => exact hkept h
    | propose b' =>
      dsimp only at h
      split_ifs at h with haccepts
      · cases h
        exact ⟨haccepts.2, nofun⟩
      · exact hkept h
    | finalize height' =>
      dsimp only at h
      split_ifs at h with hheight
      · obtain ⟨b', hb', rfl⟩ := Option.map_eq_some_iff.mp h
        obtain ⟨hat, hquorum⟩ := ih hb'
        refine ⟨hat, fun hfinal => ?_⟩
        have hold : vs.quorum ≤ ((run vs l).voters height b'.hash .precommit).card := by
          rcases max_choice b'.finality ((run vs l).tally height b'.hash) with hmax | hmax
          · exact hquorum (hmax.symm.trans hfinal)
          · have htally : (run vs l).tally height b'.hash = .committed := hmax.symm.trans hfinal
            unfold tally at htally
            split_ifs at htally with hcount
            rwa [countVotes_eq, validators_run] at hcount
        exact hold.trans (Finset.card_le_card (hmono _))
      · exact hkept h

/-- Behind a commit there is a quorum of validators whose precommits have been delivered. -/
theorem quorum_of_committed (hcommitted : ((run vs l).finalize height).1 = .ok .committed)
    (hblock : ((run vs l).finalize height).2.block height = .ok b) : b.height = height ∧
    ∃ Q ⊆ vs.members, vs.quorum ≤ Q.card ∧ ∀ id ∈ Q, ∃ v ∈ delivered l, Valid vs v ∧
      v.voter = id ∧ v.kind = .precommit ∧ v.height = height ∧ v.blockHash = b.hash := by
  have hnext : ((run vs l).finalize height).2 = run vs (l ++ [.finalize height]) :=
    (run_concat vs l (.finalize height)).symm
  have hfinal : b.finality = .committed := by
    rw [block_eq] at hblock
    rw [finalize_eq] at hcommitted hblock
    cases hold : ((run vs l).entry height).block with
    | none =>
      rw [hold] at hcommitted
      cases hcommitted
    | some b' =>
      simp only [hold, entry_setEntry, if_true, Except.ok.injEq] at hcommitted hblock
      rw [← hblock]
      exact hcommitted
  rw [hnext, block_eq] at hblock
  cases hentry : ((run vs (l ++ [.finalize height])).entry height).block with
  | none =>
    rw [hentry] at hblock
    cases hblock
  | some b' =>
    simp only [hentry, Except.ok.injEq] at hblock
    subst hblock
    obtain ⟨hheight, hquorum⟩ := committed_of_run hentry
    have hvote : ∀ id ∈ (run vs (l ++ [.finalize height])).voters height b'.hash .precommit,
        ∃ v ∈ delivered l, Valid vs v ∧ v.voter = id ∧ v.kind = .precommit ∧ v.height = height ∧
          v.blockHash = b'.hash := by
      intro id hid
      obtain ⟨v, hv, hrest⟩ := delivered_of_votes (mem_voters.mp hid)
      refine ⟨v, ?_, hrest⟩
      rw [delivered, List.filterMap_append] at hv
      rcases List.mem_append.mp hv with hv | hv
      · exact hv
      · cases hv
    refine ⟨hheight, _, fun id hid => ?_, hquorum hfinal, hvote⟩
    obtain ⟨v, -, hvalid, rfl, -⟩ := hvote id hid
    exact ValidatorSet.contains_iff.mp hvalid.1

/-- A block that is held was proposed by the leader. -/
theorem proposed_of_run (h : ((run vs l).entry height).block = some b) :
    ∃ b₀ ∈ proposed l, b₀.proposer = vs.leader b₀.height ∧
      b = { b₀ with finality := b.finality } := by
  induction l using List.reverseRecOn generalizing b with
  | nil => cases h
  | append_singleton l c ih =>
    have hkept : ((run vs l).entry height).block = some b → ∃ b₀ ∈ proposed (l ++ [c]),
        b₀.proposer = vs.leader b₀.height ∧ b = { b₀ with finality := b.finality } := by
      intro hold
      obtain ⟨b₀, hb₀, hrest⟩ := ih hold
      exact ⟨b₀, (proposed_append l [c]).symm ▸ List.mem_append_left _ hb₀, hrest⟩
    rw [run_concat, entry_block_step] at h
    cases c with
    | vote v => exact hkept h
    | propose b' =>
      dsimp only at h
      split_ifs at h with haccepts
      · cases h
        refine ⟨b', ?_, (validators_run vs l) ▸ haccepts.1.2, rfl⟩
        rw [proposed_append]
        exact List.mem_append_right _ (List.mem_singleton_self b')
      · exact hkept h
    | finalize height' =>
      dsimp only at h
      split_ifs at h
      · obtain ⟨b', hb', rfl⟩ := Option.map_eq_some_iff.mp h
        obtain ⟨b₀, hb₀, hleader, hsame⟩ := ih hb'
        refine ⟨b₀, (proposed_append l _).symm ▸ List.mem_append_left _ hb₀, hleader, ?_⟩
        rw [hsame]
        rfl
      · exact hkept h

theorem proposed_of_finalize (hblock : ((run vs l).finalize height).2.block height = .ok b) :
    ∃ b₀ ∈ proposed l, b₀.proposer = vs.leader b₀.height ∧
      b = { b₀ with finality := b.finality } := by
  rw [block_eq, finalize_eq] at hblock
  cases hold : ((run vs l).entry height).block with
  | none =>
    simp only [hold] at hblock
    cases hblock
  | some b' =>
    simp only [hold, entry_setEntry, if_true, Except.ok.injEq] at hblock
    obtain ⟨b₀, hb₀, hleader, hsame⟩ := proposed_of_run hold
    refine ⟨b₀, hb₀, hleader, ?_⟩
    rw [← hblock, raised, hsame]

/-! ## Agreement -/

/-- Finality is unique up to the hash of the block, if two quorums have an honest validator in
common. -/
theorem finalized_agree (vs : ValidatorSet) (faulty : Finset NodeId)
    (hsize : vs.members.card + (vs.members ∩ faulty).card < 2 * vs.quorum)
    (Proposable : Block → Prop) : UniqueFinality vs faulty Proposable SameVotedOn := by
  intro l l' height b b' _ honce hcommitted hcommitted' hblock hblock'
  obtain ⟨hheight, Q, hQ, hquorum, hvotes⟩ := quorum_of_committed hcommitted hblock
  obtain ⟨hheight', Q', hQ', hquorum', hvotes'⟩ := quorum_of_committed hcommitted' hblock'
  obtain ⟨id, hid, hid', hhonest⟩ :=
    exists_mem_inter_notMem (B := vs.members ∩ faulty) hQ hQ' (by omega)
  obtain ⟨v, hv, hvalid, rfl, hkind, hat, hhash⟩ := hvotes id hid
  obtain ⟨v', hv', hvalid', hvoter, hkind', hat', hhash'⟩ := hvotes' v.voter hid'
  have hcorrect : v.voter ∉ faulty := fun hfaulty =>
    hhonest (Finset.mem_inter.mpr ⟨hQ hid, hfaulty⟩)
  have hsame : b.hash = b'.hash := by
    rw [← hhash, ← hhash']
    exact honce v (List.mem_append_left _ hv) v' (List.mem_append_right _ hv') hvalid hvalid'
      hcorrect hvoter.symm hkind hkind' (hat.trans hat'.symm)
  refine ⟨hsame, fun hparent hlen hlen' => kinds_of_opsHash hlen hlen' ?_⟩
  exact opsHash_of_hash (hheight.trans hheight'.symm) hparent hsame

/-! ## Commits -/

/-- A valid vote that has been delivered is held, unless one of the same voter was there before. -/
theorem held_of_delivered {v : Vote} (hv : v ∈ delivered l) (hvalid : Valid vs v) :
    ∃ h, ((run vs l).entry v.height).votes[(v.voter, v.kind)]? = some h := by
  induction l using List.reverseRecOn with
  | nil => cases hv
  | append_singleton l c ih =>
    rw [delivered, List.filterMap_append] at hv
    rw [run_concat]
    rcases List.mem_append.mp hv with hv | hv
    · obtain ⟨h, hheld⟩ := ih hv
      exact ⟨h, votes_mono c hheld⟩
    · obtain rfl : c = .vote v := (List.mem_singleton.mp (mem_delivered.mp hv)).symm
      have hverify : (run vs l).verifyVote v = .ok () :=
        verifyVote_eq_ok.mpr ((validators_run vs l).symm ▸ hvalid)
      simp only [step, InMemoryConsensus.vote, hverify, Prod.map_snd, id]
      cases hold : ((run vs l).entry v.height).votes[(v.voter, v.kind)]? with
      | some h => exact ⟨h, by rw [entry_setEntry, if_pos rfl, hold]⟩
      | none =>
        exact ⟨v.blockHash, by rw [entry_setEntry, if_pos rfl, ExtTreeMap.getElem?_insert_self]⟩

/-- The block is proposed, and gets precommits. -/
def committing (b : Block) (ids : List NodeId) (sig : NodeId → Signature) : List Call :=
  .propose b :: ids.map fun id => .vote ⟨b.height, b.hash, id, .precommit, sig id⟩

variable {ids : List NodeId} {sig : NodeId → Signature}

omit [Ed25519] in
theorem mem_delivered_committing {v : Vote} : v ∈ delivered (committing b ids sig) ↔
    ∃ id ∈ ids, v = ⟨b.height, b.hash, id, .precommit, sig id⟩ := by
  rw [mem_delivered, committing, List.mem_cons, List.mem_map]
  constructor
  · rintro (hv | ⟨id, hid, hv⟩)
    · cases hv
    · exact ⟨id, hid, (Call.vote.inj hv).symm⟩
  · rintro ⟨id, hid, rfl⟩
    exact .inr ⟨id, hid, rfl⟩

theorem block_committing (hleader : b.proposer = vs.leader b.height) (ids : List NodeId) :
    ((run vs (committing b ids sig)).entry b.height).block =
      some { b with finality := .tentative } := by
  induction ids using List.reverseRecOn with
  | nil =>
    have haccepts : (new vs).Accepts b ∧ b.height = b.height :=
      ⟨⟨hleader ▸ ValidatorSet.contains_iff.mpr vs.leader_mem, hleader⟩, rfl⟩
    show (((new vs).step (.propose b)).2.entry b.height).block = _
    rw [entry_block_step]
    exact if_pos haccepts
  | append_singleton ids id ih =>
    rw [committing, List.map_append, ← List.cons_append]
    show ((run vs (committing b ids sig ++ [.vote _])).entry b.height).block = _
    rw [run_concat, entry_block_step]
    exact ih

/-- A quorum of precommits commits the block of the leader. -/
theorem committing_commits (hleader : b.proposer = vs.leader b.height) {Q : Finset NodeId}
    (hQ : Q ⊆ vs.members) (hquorum : vs.quorum ≤ Q.card)
    (hsig : ∀ id ∈ Q,
      Ed25519.verify id (voteCanonicalBytes b.height b.hash .precommit) (sig id) = true) :
    ((run vs (committing b Q.toList sig)).finalize b.height).1 = .ok .committed ∧
      ((run vs (committing b Q.toList sig)).finalize b.height).2.block b.height =
        .ok { b with finality := .committed } := by
  have hblock : ((run vs (committing b Q.toList sig)).entry b.height).block = _ :=
    block_committing hleader Q.toList
  have hvoters : Q ⊆ (run vs (committing b Q.toList sig)).voters b.height b.hash .precommit := by
    intro id hid
    obtain ⟨h, hheld⟩ := held_of_delivered
      (mem_delivered_committing.mpr ⟨id, Finset.mem_toList.mpr hid, rfl⟩)
      (show Valid vs _ from ⟨ValidatorSet.contains_iff.mpr (hQ hid), hsig id hid⟩)
    obtain ⟨v, hv, -, -, -, -, rfl⟩ := delivered_of_votes hheld
    obtain ⟨id', -, rfl⟩ := mem_delivered_committing.mp hv
    exact mem_voters.mpr hheld
  have htally : (run vs (committing b Q.toList sig)).tally b.height b.hash = .committed := by
    rw [tally, countVotes_eq, validators_run]
    exact if_pos (hquorum.trans (Finset.card_le_card hvoters))
  have hraised : (run vs (committing b Q.toList sig)).raised { b with finality := .tentative }
      b.height = { b with finality := .committed } := by
    unfold raised
    show { b with finality := max _ ((run vs _).tally b.height b.hash) } = _
    rw [htally]
    rfl
  rw [finalize_eq, hblock]
  dsimp only
  rw [hraised, block_eq, entry_setEntry, if_pos rfl]
  exact ⟨rfl, rfl⟩

/-! ## Main theorem -/

/-- Finality is unique exactly if the blocks that may be proposed are told apart: by their hashes,
and by quorums that meet in an honest validator. -/
theorem finality_unique_iff (vs : ValidatorSet) (hsign : CanSign vs) (faulty : Finset NodeId)
    (Proposable : Block → Prop) :
    UniqueFinality vs faulty Proposable (fun b b' => b.ops = b'.ops) ↔
      ToldApart vs faulty Proposable := by
  constructor
  · intro hunique b b' hb hb' hleader hleader' hheight hops
    by_contra hcond
    obtain ⟨hsize, hmeet⟩ := not_or.mp hcond
    have hsize : vs.quorum ≤ vs.members.card := Nat.le_of_not_lt hsize
    -- Two quorums that can commit the blocks without a vote too many of the honest ones.
    obtain ⟨Q, Q', hQ, hQ', hquorum, hquorum', hinter⟩ : ∃ Q Q', Q ⊆ vs.members ∧
        Q' ⊆ vs.members ∧ vs.quorum ≤ Q.card ∧ vs.quorum ≤ Q'.card ∧
          (b.hash = b'.hash ∨ Q ∩ Q' ⊆ faulty) := by
      by_cases hhash : b.hash = b'.hash
      · exact ⟨_, _, Finset.Subset.refl _, Finset.Subset.refl _, hsize, hsize, .inl hhash⟩
      · have hcard := Nat.le_of_not_lt fun hlt => hmeet ⟨hhash, hlt⟩
        obtain ⟨Q, Q', hQ, hQ', hquorum, hquorum', hinter⟩ :=
          exists_inter_subset (show vs.members ∩ faulty ⊆ _ from Finset.inter_subset_left) hsize
            hcard
        exact ⟨Q, Q', hQ, hQ', hquorum, hquorum', .inr (hinter.trans Finset.inter_subset_right)⟩
    have hsigs : ∀ b : Block, ∀ id ∈ vs.members, ∃ sig : Signature,
        Ed25519.verify id (voteCanonicalBytes b.height b.hash .precommit) sig = true := by
      intro b id hid
      obtain ⟨secret, rfl⟩ := hsign.keys id hid
      exact ⟨_, hsign.verifies secret _⟩
    choose! sig hsig using hsigs
    obtain ⟨hcommitted, hblock⟩ :=
      committing_commits hleader hQ hquorum fun id hid => hsig b id (hQ hid)
    obtain ⟨hcommitted', hblock'⟩ :=
      committing_commits hleader' hQ' hquorum' fun id hid => hsig b' id (hQ' hid)
    refine hops (hunique _ _ b.height { b with finality := .committed }
      { b' with finality := .committed } ?_ ?_ hcommitted (hheight ▸ hcommitted') hblock ?_)
    · intro c hc
      have hproposed : ∀ (b : Block) ids sig, proposed (committing b ids sig) = [b] := by
        intro b ids sig
        simp [proposed, committing, List.filterMap_map]
      rw [hproposed, hproposed] at hc
      rcases List.mem_pair.mp hc with rfl | rfl
      · exact hb
      · exact hb'
    · intro v hv v' hv' _ _ hhonest hvoter _ _ _
      simp only [List.mem_append, mem_delivered_committing, Finset.mem_toList] at hv hv'
      obtain ⟨id, hid, rfl⟩ | ⟨id, hid, rfl⟩ := hv <;>
        obtain ⟨id', hid', rfl⟩ | ⟨id', hid', rfl⟩ := hv'
      · rfl
      · obtain rfl : id = id' := hvoter
        exact hinter.resolve_right fun hsub => hhonest (hsub (Finset.mem_inter.mpr ⟨hid, hid'⟩))
      · obtain rfl : id = id' := hvoter
        exact (hinter.resolve_right fun hsub =>
          hhonest (hsub (Finset.mem_inter.mpr ⟨hid', hid⟩))).symm
      · rfl
    · rw [hheight]
      exact hblock'
  · intro hapart l l' height b b' hproposable honce hcommitted hcommitted' hblock hblock'
    obtain ⟨hheight, Q, hQ, hquorum, -⟩ := quorum_of_committed hcommitted hblock
    obtain ⟨hheight', -⟩ := quorum_of_committed hcommitted' hblock'
    obtain ⟨b₀, hb₀, hleader, hsame⟩ := proposed_of_finalize hblock
    obtain ⟨b₀', hb₀', hleader', hsame'⟩ := proposed_of_finalize hblock'
    by_contra hops
    rw [hsame, hsame'] at hops
    have hheights : b₀.height = b₀'.height := by
      rw [hsame] at hheight
      rw [hsame'] at hheight'
      exact hheight.trans hheight'.symm
    rcases hapart b₀ b₀' (hproposable _ (List.mem_append_left _ hb₀))
      (hproposable _ (List.mem_append_right _ hb₀')) hleader hleader' hheights hops with
      hsize | ⟨hhash, hcard⟩
    · exact absurd (hquorum.trans (Finset.card_le_card hQ)) (Nat.not_le_of_lt hsize)
    · have hagree := finalized_agree vs faulty hcard Proposable l l' height b b' hproposable honce
        hcommitted hcommitted' hblock hblock'
      have hb : b.hash = b₀.hash := by
        rw [hsame]
        rfl
      have hb' : b'.hash = b₀'.hash := by
        rw [hsame']
        rfl
      exact hhash (hb.symm.trans (hagree.hash.trans hb'))

end Uniqueness

namespace Demo

attribute [local instance] plainEd25519

def three : ValidatorSet := ⟨[node 1, node 2, node 3], nofun⟩

/-- Two transfers of different amounts are committed with the same votes; and of three validators,
who are all honest, each can commit a block of its own. -/
theorem committed_apart : ¬ (∀ (vs : ValidatorSet) (faulty : Finset NodeId),
      faulty ⊆ vs.members → faulty.card ≤ vs.maxFaults →
      UniqueFinality vs faulty (fun _ => True) fun b b' => b.ops = b'.ops) ∧
    ¬ UniqueFinality three ∅ (fun _ => True) fun b b' => b.hash = b'.hash := by
  constructor
  · intro h
    have hsame := h four ∅ (Finset.empty_subset _) (Nat.zero_le _)
      (precommitted (block [transfer 1]) [1, 2, 3]) (precommitted (block [transfer 2]) [1, 2, 3])
      0 { block [transfer 1] with finality := .committed }
      { block [transfer 2] with finality := .committed } (fun _ _ => trivial) (by decide +kernel)
      (by decide +kernel) (by decide +kernel) (by decide +kernel) (by decide +kernel)
    exact absurd hsame (by decide)
  · intro h
    have hsame := h (precommitted (block [transfer 1]) [1])
      (precommitted (block [.auctionBid (node 7) "" 1]) [2]) 0
      { block [transfer 1] with finality := .committed }
      { block [.auctionBid (node 7) "" 1] with finality := .committed } (fun _ _ => trivial)
      (by decide +kernel) (by decide +kernel) (by decide +kernel) (by decide +kernel)
      (by decide +kernel)
    exact absurd hsame (by decide +kernel)

theorem four_canSign : CanSign four where
  keys id _ := ⟨id, rfl⟩
  verifies _ _ := beq_self_eq_true _

/-- With four validators one may be faulty. A transfer and a bid have different hashes, so that no
more than one of them is committed. -/
theorem finality_unique_iff_four : UniqueFinality four {node 4}
    (fun b => b = block [transfer 1] ∨ b = block [.auctionBid (node 7) "" 1])
    fun b b' => b.ops = b'.ops := by
  refine (finality_unique_iff four four_canSign _ _).mpr ?_
  rintro b b' (rfl | rfl) (rfl | rfl) - - - hops
  · exact absurd rfl hops
  · exact .inr ⟨by decide +kernel, by decide +kernel⟩
  · exact .inr ⟨by decide +kernel, by decide +kernel⟩
  · exact absurd rfl hops

end Demo

end P2P333.Consensus333
