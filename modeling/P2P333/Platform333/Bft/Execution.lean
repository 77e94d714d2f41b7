import P2P333.Platform333.Bft.Agreement

/-!
# HotStuff: what a leader executes

On a quorum of the last phase a leader commits whatever block is pending. That is the block which
the quorum has voted for only if nothing has replaced it since: a proposal does so without being
checked against the phase that the node is in, and may carry any view. So the certificate of one
block can bring about the commit of another, and of one that has been committed before.

Results:
1. `hashBlock_view_injective`: blocks of different views do not share their hash, parent and
   payload.
2. `executes_certified`: if each quorum of the last phase meets its own block, then what is
   committed has been certified, and nothing is committed twice.
3. `executed_another`: a leader commits a block that nobody has voted for.
-/

namespace P2P333.Platform333.Bft

open Std Lib HotStuffState

/-! ## Hashes -/

theorem mul_prime_injective : Function.Injective fun h : UInt64 => h * 0x100000001b3 := by
  have hinverse : (0x100000001b3 : UInt64) * 0xce965057aff6957b = 1 := by decide
  intro x y h
  have hmul : x * 0x100000001b3 * 0xce965057aff6957b = y * 0x100000001b3 * 0xce965057aff6957b :=
    congrArg (· * 0xce965057aff6957b) h
  rwa [UInt64.mul_assoc, UInt64.mul_assoc, hinverse, UInt64.mul_one, UInt64.mul_one] at hmul

/-- Each byte of the payload is mixed in by a one-to-one map. -/
theorem foldl_mix_injective (payload : Bytes) : Function.Injective fun h : UInt64 =>
    payload.foldl (fun h b => (h ^^^ b.toUInt64) * 0x100000001b3) h := by
  induction payload with
  | nil => exact fun _ _ h => h
  | cons b rest ih =>
    intro x y h
    exact (UInt64.xor_left_inj b.toUInt64).mp (mul_prime_injective (ih h))

theorem hashBlock_view_injective (parentHash : UInt64) (payload : Bytes) :
    Function.Injective fun view => hashBlock view parentHash payload := by
  intro x y h
  have hmixed := (UInt64.xor_left_inj parentHash).mp (foldl_mix_injective payload h)
  exact (UInt64.xor_right_inj _).mp (mul_prime_injective hmixed)

/-- What a block is known by. -/
def Block.content (b : Block) : UInt64 × UInt64 × List OrderedTx :=
  (b.hash, b.parentHash, b.transactions)

/-- Blocks that name their own hashes are of one view if they have the same content. -/
theorem Block.view_eq_of_content {b b' : Block} (hhash : b.hash = b.expectedHash)
    (hhash' : b'.hash = b'.expectedHash) (h : b.content = b'.content) : b.view = b'.view := by
  simp only [content, Prod.mk.injEq] at h
  obtain ⟨hsame, hparent, htxs⟩ := h
  rw [hhash, hhash', expectedHash, expectedHash, hparent, htxs] at hsame
  exact hashBlock_view_injective b'.parentHash (toVec b'.transactions) hsame

section Execution

variable [Ed25519]

/-! ## Committed blocks -/

/-- The committed blocks with one more, of which the last sixteen are kept. -/
def keepLast (blocks : List Block) : List Block := blocks.drop (blocks.length - 16)

omit [Ed25519] in
theorem length_keepLast_le (blocks : List Block) : (keepLast blocks).length ≤ 16 := by
  rw [keepLast, List.length_drop]
  omega

omit [Ed25519] in
theorem keepLast_of_le {blocks : List Block} (h : blocks.length ≤ 16) :
    keepLast blocks = blocks := by
  rw [keepLast, Nat.sub_eq_zero_of_le h, List.drop_zero]

namespace HotStuffState

variable {s : HotStuffState} {m : Moment} {block : Block} {phase : Phase} {qc : QuorumCert}
  {view : UInt64}

omit [Ed25519] in
@[simp] theorem afterProposal_committed :
    (s.afterProposal m block phase).committed = s.committed := by
  unfold afterProposal
  split_ifs <;> rfl

omit [Ed25519] in
@[simp] theorem onNewView_committed : (s.onNewView view qc).2.committed = s.committed := by
  dsimp only [onNewView]
  split_ifs <;> rfl

@[simp] theorem onQuorum_committed : (s.onQuorum m qc).2.committed =
    if qc.phase = .commit then keepLast (s.committed ++ s.pendingBlock.toList)
    else s.committed := by
  unfold onQuorum
  cases qc.phase with
  | commit =>
    simp only [if_true, commitPending]
    cases s.pendingBlock with
    | none => rw [Option.toList_none, List.append_nil, keepLast]
    | some block => rfl
  | _ => rfl

/-- Transactions are returned for the pending block only. -/
theorem onQuorum_txs {txs : List OrderedTx} {msg : HotStuffMsg}
    (h : (s.onQuorum m qc).1 = .committed txs msg) :
    qc.phase = .commit ∧ ∃ block, s.pendingBlock = some block ∧ txs = block.transactions := by
  unfold onQuorum nextProposal at h
  cases hphase : qc.phase with
  | prepare | preCommit =>
    rw [hphase] at h
    cases hpending : s.pendingBlock <;> simp [hpending] at h
  | decide =>
    rw [hphase] at h
    cases h
  | commit =>
    rw [hphase] at h
    cases hpending : s.pendingBlock with
    | none => simp [hpending] at h
    | some block =>
      simp only [hpending, Option.elim_some] at h
      split_ifs at h
      obtain ⟨rfl, -⟩ := ProcessResult.committed.inj h
      exact ⟨rfl, block, rfl, rfl⟩

/-- A call appends the block that it makes the node commit, and returns its transactions. -/
theorem step_commits (hsize : s.committed.length ≤ 16) (c : Call) :
    ((s.step (m, c)).2.committed = match s.commitOf c with
      | some block => keepLast (s.committed ++ [block])
      | none => s.committed) ∧
    ∀ txs msg, (s.step (m, c)).1 = .result (.committed txs msg) →
      ∃ block, s.commitOf c = some block ∧ txs = block.transactions := by
  have hstep := s.stepped m c
  generalize (s.step (m, c)).1 = answer at hstep
  generalize (s.step (m, c)).2 = s' at hstep ⊢
  have hvote {blockHash view : UInt64} {phase : Phase} {sig : Signature}
      (h : ¬ s.Completes blockHash view phase sig) :
      s.commitOf (.process (.vote blockHash view phase sig)) = none := by
    cases phase with
    | commit => exact if_neg h
    | _ => rfl
  cases hstep with
  | voted => exact ⟨afterProposal_committed, nofun⟩
  | ignored h | repeated h =>
    rw [hvote h]
    exact ⟨rfl, nofun⟩
  | counted h hquorum =>
    rw [hvote fun hcompletes => hquorum hcompletes.2]
    exact ⟨rfl, nofun⟩
  | @certified blockHash view phase sig h =>
    have hpending : (s.cleared blockHash phase sig).pendingBlock = s.pendingBlock := rfl
    have hcommitted : (s.cleared blockHash phase sig).committed = s.committed := rfl
    rw [onQuorum_committed, certificate_phase, hpending, hcommitted]
    constructor
    · cases phase with
      | commit =>
        rw [if_pos rfl, commitOf, if_pos h]
        cases s.pendingBlock with
        | none =>
          rw [Option.toList_none, List.append_nil]
          exact keepLast_of_le hsize
        | some block => rfl
      | _ => rfl
    · intro txs msg hresult
      obtain ⟨rfl, block, hblock, htxs⟩ := onQuorum_txs (Answer.result.inj hresult)
      exact ⟨block, (if_pos h).trans hblock, htxs⟩
  | newView => exact ⟨onNewView_committed, nofun⟩
  | _ => exact ⟨rfl, nofun⟩

end HotStuffState

/-! ## Statement -/

/-- The validators of whom a valid vote of the last phase for the block has come in. Those among
them that are honest have made it. -/
def Committers (C : Cluster) (log : List Event) (blockHash : UInt64) (id : NodeId) : Prop :=
  Delivered log id (voteBytes blockHash .commit) ∧
    (id ∈ C.honest → Signed log id (voteBytes blockHash .commit))

instance (C : Cluster) (log : List Event) (blockHash : UInt64) :
    DecidablePred (Committers C log blockHash) := fun _ => inferInstanceAs (Decidable (_ ∧ _))

/-- What is committed and returned is what a quorum has signed, and nothing is committed twice. -/
structure ExecutesCertified (C : Cluster) (log : List Event) : Prop where
  appended : ∀ e ∈ log, e.next.committed = match e.commits with
    | some block => keepLast (e.before.committed ++ [block])
    | none => e.before.committed
  returned : ∀ e ∈ log, ∀ txs msg, e.answer = .result (.committed txs msg) →
    ∃ block, e.commits = some block ∧ txs = block.transactions
  certified : ∀ done e rest, log = done ++ e :: rest → ∀ block, e.commits = some block →
    C.validators.quorumSize ≤
      (C.validators.members.filter (Committers C (done ++ [e]) block.hash)).card
  once : (log.filterMap fun e => e.commits.map Block.content).Nodup

/-- The view does not go down, and a quorum of the last phase meets the block that it is for: one of
this view that names its own hash. -/
structure MeetsBlock (e : Event) : Prop where
  forward : e.before.LeadsForward e.call
  pending : ∀ qc ∈ e.completes, qc.phase = .commit → ∀ block ∈ e.before.pendingBlock,
    block.hash = qc.blockHash ∧ block.view = e.before.view ∧ block.hash = block.expectedHash

instance (e : Event) : Decidable (MeetsBlock e) :=
  decidable_of_iff
    (e.before.LeadsForward e.call ∧
      ∀ qc ∈ e.completes, qc.phase = .commit → ∀ block ∈ e.before.pendingBlock,
        block.hash = qc.blockHash ∧ block.view = e.before.view ∧ block.hash = block.expectedHash)
    ⟨fun h => ⟨h.1, h.2⟩, fun h => ⟨h.forward, h.pending⟩⟩

/-! ## Runs -/

section Facts

variable {C : Cluster} {ok : List Event → Event → Prop} {log : List Event} {e e' : Event}
  {block block' : Block}

/-- No node remembers more than sixteen committed blocks. -/
theorem Run.committed_length_le (h : Run C ok log) (i : NodeId) :
    (C.state log i).committed.length ≤ 16 := by
  refine h.invariant (I := fun log => (C.state log i).committed.length ≤ 16) ?_ ?_
  · obtain ⟨keyring, hstart⟩ := (C.config i).start_eq
    rw [Cluster.state_nil, hstart]
    exact Nat.zero_le _
  · intro log e _ ih _ hbefore _
    rw [Cluster.state_concat]
    split_ifs with hi
    · rw [← hi, ← hbefore] at ih
      rw [Event.next, (step_commits ih e.call).1]
      split
      · exact length_keepLast_le _
      · exact ih
    · exact ih

/-- A run in which signatures are not forged and every quorum of the last phase meets its block. -/
abbrev MeetingRun (C : Cluster) (log : List Event) : Prop :=
  Run C (fun log e => Authentic C log e ∧ MeetsBlock e) log

/-- What a commit tells about the block and the node. -/
theorem MeetingRun.commit_spec (h : MeetingRun C log) (he : e ∈ log)
    (hcommits : e.commits = some block) :
    block.view = e.before.view ∧ block.hash = block.expectedHash ∧
      leaderForView e.before.view C.validators = e.node ∧ e.next.view = e.before.view + 1 := by
  obtain ⟨done, rest, rfl⟩ := List.append_of_mem he
  obtain ⟨-, hbefore, -, hmeets⟩ := h done e rest rfl
  obtain ⟨blockHash, voteView, sig, hcall, hcompletes, hpending⟩ := commitOf_eq_some.mp hcommits
  obtain ⟨-, hview, hhash⟩ :=
    hmeets.pending _ (Event.completes_of_call hcall hcompletes) rfl block hpending
  refine ⟨hview, hhash, ?_, ?_⟩
  · have hleader : e.before.currentLeader = e.before.nodeId := beq_iff_eq.mp hcompletes.1.leader
    rw [currentLeader, hbefore, h.of_append.validators, h.of_append.nodeId] at hleader
    rwa [hbefore]
  · have hprocess : e.next = ((e.before.cleared blockHash .commit sig).onQuorum e.moment
        (e.before.certificate blockHash .commit sig)).2 := by
      rw [Event.next, hcall]
      exact congrArg Prod.snd (process_of_completes hcompletes)
    rw [hprocess, onQuorum_view, certificate_phase, if_pos rfl, cleared_view]

/-- Two commits are of blocks with different contents. -/
theorem MeetingRun.content_ne (h : MeetingRun C (log ++ [e'])) (he : e ∈ log)
    (hcommits : e.commits = some block) (hcommits' : e'.commits = some block') :
    block.content ≠ block'.content := by
  intro hcontent
  obtain ⟨hview, hhash, hleader, hnext⟩ := h.commit_spec (List.mem_append_left _ he) hcommits
  obtain ⟨hview', hhash', hleader', -⟩ := h.commit_spec (by simp) hcommits'
  have hsame : e.before.view = e'.before.view := by
    rw [← hview, ← hview', Block.view_eq_of_content hhash hhash' hcontent]
  -- a view has one leader, and that leader has left it
  have hnode : e.node = e'.node := by rw [← hleader, ← hleader', hsame]
  have hforward : Run C (fun _ e => e.before.LeadsForward e.call) (log ++ [e']) :=
    h.mono fun _ _ hok => hok.2.forward
  have hleft := hforward.of_append.next_view_le (fun _ _ hok => hok) e he
  obtain ⟨-, hbefore, -⟩ := h.last
  rw [hnode, ← hbefore, ← hsame, hnext, UInt64.le_iff_toNat_le, UInt64.toNat_add,
    UInt64.toNat_one] at hleft
  obtain ⟨done, rest, rfl⟩ := List.append_of_mem he
  obtain ⟨-, -, hok⟩ := hforward done e (rest ++ [e']) (by simp)
  obtain ⟨blockHash, voteView, sig, hcall, hcompletes, -⟩ := commitOf_eq_some.mp hcommits
  rw [hcall] at hok
  have hroom : e.before.view.toNat + 1 < 2 ^ 64 := hok hcompletes rfl
  omega

/-- The voters of a quorum of the last phase for the pending block. -/
theorem MeetingRun.quorum_le (h : MeetingRun C (log ++ [e])) (hcommits : e.commits = some block) :
    C.validators.quorumSize ≤
      (C.validators.members.filter (Committers C (log ++ [e]) block.hash)).card := by
  obtain ⟨-, -, -, hmeets⟩ := h.last
  obtain ⟨blockHash, voteView, sig, hcall, hcompletes, hpending⟩ := commitOf_eq_some.mp hcommits
  obtain ⟨hsame, -⟩ :=
    hmeets.pending _ (Event.completes_of_call hcall hcompletes) rfl block hpending
  obtain ⟨hmembers, hquorum, hdelivered⟩ := certificate_delivered h hcall hcompletes
  refine hquorum.trans (Finset.card_le_card fun id hid => ?_)
  have hsigned := hdelivered id hid
  rw [show blockHash = block.hash from hsame.symm] at hsigned
  exact Finset.mem_filter.mpr ⟨hmembers hid, hsigned, signed_of_delivered h hsigned⟩

end Facts

/-! ## Main theorem -/

/-- If signatures are not forged, and each quorum of the last phase meets the block that it is for,
then what honest leaders commit and return has been signed by a quorum, and nothing is committed
twice. -/
theorem executes_certified (C : Cluster) (log : List Event)
    (hrun : Run C (fun log e => Authentic C log e ∧ MeetsBlock e) log) :
    ExecutesCertified C log := by
  have hcommits : ∀ e ∈ log, (e.next.committed = match e.commits with
      | some block => keepLast (e.before.committed ++ [block])
      | none => e.before.committed) ∧
      ∀ txs msg, e.answer = .result (.committed txs msg) →
        ∃ block, e.commits = some block ∧ txs = block.transactions := by
    intro e he
    obtain ⟨done, rest, rfl⟩ := List.append_of_mem he
    obtain ⟨-, hbefore, -⟩ := hrun done e rest rfl
    refine step_commits ?_ e.call
    rw [hbefore]
    exact hrun.of_append.committed_length_le e.node
  refine ⟨fun e he => (hcommits e he).1, fun e he => (hcommits e he).2, ?_, ?_⟩
  · rintro done e rest rfl block hblock
    rw [← List.singleton_append, ← List.append_assoc] at hrun
    exact MeetingRun.quorum_le hrun.of_append hblock
  · clear hcommits
    induction log using List.reverseRecOn with
    | nil => exact List.nodup_nil
    | append_singleton log e ih =>
      rw [List.filterMap_append]
      refine List.nodup_append.mpr ⟨ih hrun.of_append, ?_, ?_⟩
      · cases h : e.commits.map Block.content <;> simp [h]
      · intro content hold content' hnew
        obtain ⟨e₁, he₁, hcontent⟩ := List.mem_filterMap.mp hold
        obtain ⟨e₂, he₂, hcontent'⟩ := List.mem_filterMap.mp hnew
        obtain rfl := List.mem_singleton.mp he₂
        obtain ⟨block, hblock, rfl⟩ := Option.map_eq_some_iff.mp hcontent
        obtain ⟨block', hblock', rfl⟩ := Option.map_eq_some_iff.mp hcontent'
        exact MeetingRun.content_ne hrun he₁ hblock hblock'

end Execution

namespace Demo

attribute [local instance] plainEd25519

/-- The third validator is faulty. -/
def besieged : Cluster where
  validators := validators
  distinct := cluster.distinct
  honest := {1, 2, 4}
  honest_subset := by decide
  faulty_le := by decide +kernel
  identity := identity
  now _ := 0
  peers _ := [1, 2, 3, 4].map fun id => (id, .inl (identity id))
  registered i hi id hid := cluster.registered i
    (Finset.mem_of_subset (by decide : ({1, 2, 4} : Finset NodeId) ⊆ validators.members) hi) id hid

/-- Another block for the first view. -/
def other : Block := ⟨hashBlock 0 0 (toVec [tx, tx]), 0, 0, [tx, tx], .genesis, 1⟩

/-- The third validator proposes a block in the name of the leader. -/
def forged (block : Block) (phase : Phase) : Moment × Call :=
  (moment, .process (.proposal block phase
    (signWithIdentity 3 block.hash (identity 3) moment.noise)))

/-- Two nodes vote for one block, and then the leader is given another one. -/
def replaced : List (NodeId × Moment × Call) :=
  [(2, forged (block 0 1) .commit), (4, forged (block 0 1) .commit), (1, forged other .prepare),
    (1, vote 0 1 .commit 2), (1, vote 0 1 .commit 3), (1, vote 0 1 .commit 4)]

/-- The votes for the one block bring about the commit of the other one. -/
theorem executed_another : ¬ (∀ (C : Cluster) (log : List Event),
    Run C (fun log e => Authentic C log e) log → ExecutesCertified C log) := by
  intro h
  have hrun : Run besieged (fun log e => Authentic besieged log e) (besieged.record replaced) :=
    .record replaced (by decide +kernel)
  have hcertified := h besieged _ hrun
  have hcommits : other ∈ (besieged.record replaced).filterMap Event.commits := by decide +kernel
  obtain ⟨e, he, hcommits⟩ := List.mem_filterMap.mp hcommits
  obtain ⟨done, rest, hsplit⟩ := List.append_of_mem he
  have hquorum := hcertified.certified done e rest hsplit other hcommits
  have hnobody : (besieged.validators.members.filter fun id =>
      Delivered (besieged.record replaced) id (voteBytes other.hash .commit)).card = 0 := by
    decide +kernel
  have hle : (besieged.validators.members.filter
      (Committers besieged (done ++ [e]) other.hash)).card ≤ 0 := by
    rw [← hnobody]
    refine Finset.card_le_card fun id hid => ?_
    obtain ⟨hmember, hdelivered, -⟩ := Finset.mem_filter.mp hid
    refine Finset.mem_filter.mpr ⟨hmember, ?_⟩
    rw [hsplit, ← List.singleton_append, ← List.append_assoc]
    exact hdelivered.mono
  exact absurd (hquorum.trans hle) (by decide)

/-- The first round of honest nodes meets the condition. -/
theorem executes_certified_demo :
    ExecutesCertified cluster (cluster.record (round 0 1 [2, 3, 4])) ∧
      block 0 1 ∈ (cluster.record (round 0 1 [2, 3, 4])).filterMap Event.commits :=
  ⟨executes_certified cluster _ (.record _ (by decide +kernel)), by decide +kernel⟩

end Demo

end P2P333.Platform333.Bft
