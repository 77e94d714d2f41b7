import P2P333.Platform333.Bft.Votes
import P2P333.Lib.Quorum

/-!
# HotStuff: the nodes together

The honest validators of a cluster, each with its `HotStuffState`, and everyone else. A run is the
list of what has happened at the honest nodes. A message is delivered to a node whoever has made it,
at any time and any number of times; that signatures cannot be forged is a condition on what is
delivered (`Authentic`).

Results:
1. `signed_vote`: what an honest node has signed as a vote it has voted for.
2. `certificate_delivered`, `certificate_authentic`: the votes of a quorum that a leader acts on
   were delivered, and those of honest nodes were cast.
3. `Run.view_mono`: in a run that leads forward, no node has been in a later view than it is in.
-/

namespace P2P333.Platform333.Bft

open Std Lib HotStuffState

section Cluster

variable [Ed25519]

/-! ## Clusters -/

/-- The validators, who of them is honest, and how the honest ones are started. Everyone has
registered the keys of all validators. -/
structure Cluster where
  validators : ValidatorSet
  distinct : validators.validators.Nodup
  honest : Finset NodeId
  honest_subset : honest ⊆ validators.members
  faulty_le : (validators.members \ honest).card ≤ validators.f
  identity : NodeId → Identity
  now : NodeId → Nat
  peers : NodeId → List (NodeId × (Identity ⊕ PeerId))
  registered : ∀ i ∈ honest, ∀ id ∈ validators.members,
    (Config.start ⟨i, validators, identity i, now i, peers i⟩).keyring.peerId id =
      some (identity id).peerId

/-- A call to an honest node, and the state that it finds. -/
structure Event where
  node : NodeId
  before : HotStuffState
  moment : Moment
  call : Call

namespace Event

def answer (e : Event) : Answer := (e.before.step (e.moment, e.call)).1

def next (e : Event) : HotStuffState := (e.before.step (e.moment, e.call)).2

/-- The block that the node votes for. -/
def votes (e : Event) : Option (Block × Phase) := e.before.votedFor e.call

/-- The block that the node commits. -/
def commits (e : Event) : Option Block := e.before.commitOf e.call

/-- The certificate that the node makes of the votes that it has collected. -/
def completes (e : Event) : Option QuorumCert :=
  match e.call with
  | .process (.vote blockHash view phase sig) =>
    if e.before.Completes blockHash view phase sig then
      some (e.before.certificate blockHash phase sig)
    else none
  | _ => none

theorem completes_of_call {e : Event} {blockHash view : UInt64} {phase : Phase} {sig : Signature}
    (hcall : e.call = .process (.vote blockHash view phase sig))
    (hcompletes : e.before.Completes blockHash view phase sig) :
    e.completes = some (e.before.certificate blockHash phase sig) := by
  unfold Event.completes
  rw [hcall]
  exact if_pos hcompletes

/-- The block that the node has pending from now on: one that it votes for or proposes. -/
def block (e : Event) : Option Block :=
  match e.call with
  | .propose => if ¬ e.before.isLeader ∨ e.before.txPool.isEmpty then none
      else some e.before.proposedBlock
  | c => (e.before.votedFor c).map Prod.fst

theorem block_of_votes {e : Event} {block : Block} {phase : Phase}
    (h : e.votes = some (block, phase)) : e.block = some block := by
  obtain ⟨sig, hcall, -⟩ := votedFor_eq_some.mp h
  unfold Event.block
  rw [hcall]
  rw [votes, hcall] at h
  simp only [h, Option.map_some]

end Event

namespace Cluster

variable (C : Cluster)

def config (i : NodeId) : Config := ⟨i, C.validators, C.identity i, C.now i, C.peers i⟩

/-- The validators that are not honest. -/
def faulty : Finset NodeId := C.validators.members \ C.honest

/-- A node after what has happened. -/
def state (log : List Event) (i : NodeId) : HotStuffState :=
  log.foldl (fun s e => if e.node = i then e.next else s) (C.config i).start

@[simp] theorem state_nil (i : NodeId) : C.state [] i = (C.config i).start := rfl

theorem state_concat (log : List Event) (e : Event) (i : NodeId) :
    C.state (log ++ [e]) i = if e.node = i then e.next else C.state log i := by
  rw [state, List.foldl_append]
  rfl

variable {C}

theorem card_members : C.validators.members.card = C.validators.n :=
  List.toFinset_card_of_nodup C.distinct

end Cluster

/-! ## Runs -/

/-- What happens does so at an honest node, in the state that it is in, and is allowed by `ok`. -/
def Run (C : Cluster) (ok : List Event → Event → Prop) (log : List Event) : Prop :=
  ∀ done e rest, log = done ++ e :: rest →
    e.node ∈ C.honest ∧ e.before = C.state done e.node ∧ ok done e

namespace Run

variable {C : Cluster} {ok ok' : List Event → Event → Prop} {log rest : List Event} {e : Event}

theorem nil : Run C ok [] := by
  intro done e rest h
  exact absurd h.symm (List.append_ne_nil_of_right_ne_nil _ (List.cons_ne_nil _ _))

theorem of_append (h : Run C ok (log ++ rest)) : Run C ok log := by
  rintro done e rest' rfl
  exact h done e (rest' ++ rest) (by rw [List.append_assoc, List.cons_append])

theorem last (h : Run C ok (log ++ [e])) :
    e.node ∈ C.honest ∧ e.before = C.state log e.node ∧ ok log e := h log e [] rfl

theorem concat (h : Run C ok log) (hnode : e.node ∈ C.honest)
    (hbefore : e.before = C.state log e.node) (hok : ok log e) : Run C ok (log ++ [e]) := by
  intro done e' rest hsplit
  rcases List.eq_nil_or_concat rest with rfl | ⟨rest', e'', rfl⟩
  · obtain ⟨rfl, hlast⟩ := List.append_inj' hsplit rfl
    obtain rfl := List.singleton_inj.mp hlast
    exact ⟨hnode, hbefore, hok⟩
  · rw [List.concat_eq_append, ← List.cons_append, ← List.append_assoc] at hsplit
    obtain ⟨rfl, -⟩ := List.append_inj' hsplit rfl
    exact h done e' rest' rfl

theorem mono (hok : ∀ log e, ok log e → ok' log e) (h : Run C ok log) : Run C ok' log :=
  fun done e rest hsplit => (h done e rest hsplit).imp id (.imp id (hok done e))

/-- The rule of induction: what holds of the first states and is kept by a call. -/
theorem invariant {I : List Event → Prop} (h : Run C ok log) (h0 : I [])
    (hstep : ∀ log e, Run C ok log → I log → e.node ∈ C.honest → e.before = C.state log e.node →
      ok log e → I (log ++ [e])) : I log := by
  induction log using List.reverseRecOn with
  | nil => exact h0
  | append_singleton log e ih =>
    obtain ⟨hnode, hbefore, hok⟩ := h.last
    exact hstep log e h.of_append (ih h.of_append) hnode hbefore hok

theorem setup (h : Run C ok log) (i : NodeId) :
    (C.state log i).setup = (C.config i).start.setup := by
  refine h.invariant (I := fun log => (C.state log i).setup = (C.config i).start.setup) rfl ?_
  intro log e _ ih _ hbefore _
  rw [Cluster.state_concat]
  split_ifs with hi
  · rw [Event.next, setup_step, hbefore, hi]
    exact ih
  · exact ih

end Run

namespace Config

omit [Ed25519] in
theorem setup_start (config : Config) : ∃ keyring, config.start.setup =
    (config.nodeId, config.identity, keyring, config.validators) := by
  obtain ⟨keyring, hstart⟩ := config.start_eq
  rw [hstart]
  exact ⟨keyring, rfl⟩

end Config

section Facts

variable {C : Cluster} {ok : List Event → Event → Prop} {log : List Event} {e : Event} {i : NodeId}

theorem Run.validators (h : Run C ok log) (i : NodeId) :
    (C.state log i).validators = C.validators := by
  obtain ⟨keyring, hstart⟩ := (C.config i).setup_start
  have hsetup := h.setup i
  rw [hstart] at hsetup
  simp only [HotStuffState.setup, Prod.mk.injEq] at hsetup
  exact hsetup.2.2.2

theorem Run.nodeId (h : Run C ok log) (i : NodeId) : (C.state log i).nodeId = i := by
  obtain ⟨keyring, hstart⟩ := (C.config i).setup_start
  have hsetup := h.setup i
  rw [hstart] at hsetup
  simp only [HotStuffState.setup, Prod.mk.injEq] at hsetup
  exact hsetup.1

/-! ## Signatures -/

/-- The signatures of a certificate, with what they are for. -/
def QuorumCert.claims (qc : QuorumCert) : List (Signature × Bytes) :=
  qc.signatures.map fun sig => (sig, voteBytes qc.blockHash qc.phase)

/-- What the sender of a message signs. -/
def HotStuffMsg.signedBytes : HotStuffMsg → Bytes
  | .proposal block _ _ => u64Bytes block.hash
  | .vote blockHash _ phase _ => voteBytes blockHash phase
  | .newView view _ _ => u64Bytes view
  | .viewChange view _ _ _ => u64Bytes view

/-- All the signatures of a message, with what they are for. -/
def HotStuffMsg.claims : HotStuffMsg → List (Signature × Bytes)
  | .proposal block _ sig => (sig, u64Bytes block.hash) :: block.justify.claims
  | .vote blockHash _ phase sig => [(sig, voteBytes blockHash phase)]
  | .newView view qc sig => (sig, u64Bytes view) :: qc.claims
  | .viewChange view _ qc sig => (sig, u64Bytes view) :: qc.claims

/-- The node has signed the bytes in a message that it has sent. -/
def Signed (log : List Event) (id : NodeId) (bytes : Bytes) : Prop :=
  ∃ e ∈ log, e.node = id ∧ ∃ msg ∈ e.answer.msg, msg.signedBytes = bytes

instance (log : List Event) (id : NodeId) (bytes : Bytes) : Decidable (Signed log id bytes) :=
  inferInstanceAs (Decidable (∃ e ∈ log, _ ∧ ∃ msg ∈ e.answer.msg, _))

/-- Signatures are not forged: where one verifies as that of an honest node, the node has made it.
-/
def Authentic (C : Cluster) (log : List Event) (e : Event) : Prop :=
  ∀ msg ∈ e.call.msg, ∀ x ∈ msg.claims, x.1.signer ∈ C.honest →
    verifyMsg x.1 x.2 e.before.keyring = true → Signed log x.1.signer x.2

instance (C : Cluster) (log : List Event) (e : Event) : Decidable (Authentic C log e) :=
  inferInstanceAs (Decidable (∀ msg ∈ e.call.msg, ∀ x ∈ msg.claims, _ → _ → _))

/-- The node has voted for the block in the phase. -/
def Voted (log : List Event) (id : NodeId) (blockHash : UInt64) (phase : Phase) : Prop :=
  ∃ e ∈ log, e.node = id ∧ ∃ block, e.votes = some (block, phase) ∧ block.hash = blockHash

variable {id : NodeId} {blockHash view : UInt64} {phase : Phase}

/-- What an honest node has signed as a vote it has voted for. -/
theorem signed_vote
    (h : Signed log id (voteBytes blockHash phase)) : Voted log id blockHash phase := by
  obtain ⟨e, he, hnode, msg, hmsg, hbytes⟩ := h
  cases msg with
  | vote blockHash' view phase' sig =>
    obtain ⟨rfl, rfl⟩ := voteBytes_inj hbytes
    obtain ⟨-, block, hvoted, hhash⟩ := votedFor_iff.mp ⟨sig, hmsg⟩
    exact ⟨e, he, hnode, block, hvoted, hhash⟩
  | _ => exact (voteBytes_ne_u64Bytes _ _ _ hbytes.symm).elim

/-- A valid signature of the node on the bytes has been delivered to someone. -/
def Delivered (log : List Event) (id : NodeId) (bytes : Bytes) : Prop :=
  ∃ e ∈ log, ∃ msg ∈ e.call.msg, ∃ x ∈ msg.claims, x.1.signer = id ∧ x.2 = bytes ∧
    verifyMsg x.1 x.2 e.before.keyring = true

instance (log : List Event) (id : NodeId) (bytes : Bytes) : Decidable (Delivered log id bytes) :=
  inferInstanceAs (Decidable (∃ e ∈ log, ∃ msg ∈ e.call.msg, ∃ x ∈ msg.claims, _ ∧ _ ∧ _))

theorem Delivered.mono {log' : List Event} {bytes : Bytes}
    (h : Delivered log id bytes) : Delivered (log ++ log') id bytes := by
  obtain ⟨e, he, hrest⟩ := h
  exact ⟨e, List.mem_append_left _ he, hrest⟩

variable {sig : Signature}

theorem delivered_vote (he : e ∈ log) (hcall : e.call = .process (.vote blockHash view phase sig))
    (hverified : verifyVote sig blockHash phase e.before.keyring = true) :
    Delivered log sig.signer (voteBytes blockHash phase) :=
  ⟨e, he, .vote blockHash view phase sig, congrArg Call.msg hcall, (sig, voteBytes blockHash phase),
    List.mem_singleton_self _, rfl, rfl, hverified⟩

/-- What is delivered as the signature of an honest node the node has made. -/
theorem signed_of_delivered (h : Run C (fun log e => Authentic C log e ∧ ok log e) log)
    {bytes : Bytes} (hdelivered : Delivered log id bytes) (hhonest : id ∈ C.honest) :
    Signed log id bytes := by
  obtain ⟨e, he, msg, hmsg, x, hx, rfl, rfl, hverified⟩ := hdelivered
  obtain ⟨done, rest, rfl⟩ := List.append_of_mem he
  obtain ⟨-, -, hauthentic, -⟩ := h done e rest rfl
  obtain ⟨e', he', hsigned⟩ := hauthentic msg hmsg x hx hhonest hverified
  exact ⟨e', List.mem_append_left _ he', hsigned⟩

/-- The votes that a leader has collected were delivered. -/
theorem bucket_delivered (h : Run C ok log) (i : NodeId) :
    ∀ blockHash phase, ∀ sig ∈ (C.state log i).bucket blockHash phase,
      sig.signer ∈ C.validators.members ∧
        Delivered log sig.signer (voteBytes blockHash phase) := by
  refine h.invariant (I := fun log => ∀ blockHash phase,
    ∀ sig ∈ (C.state log i).bucket blockHash phase, sig.signer ∈ C.validators.members ∧
      Delivered log sig.signer (voteBytes blockHash phase)) ?_ ?_
  · intro blockHash phase sig hsig
    obtain ⟨keyring, hstart⟩ := (C.config i).start_eq
    rw [Cluster.state_nil, hstart, bucket_nil (by rfl)] at hsig
    exact absurd hsig List.not_mem_nil
  · intro log e hrun ih _ hbefore _
    have hkept : ∀ blockHash phase, ∀ sig ∈ (C.state log i).bucket blockHash phase,
        sig.signer ∈ C.validators.members ∧
          Delivered (log ++ [e]) sig.signer (voteBytes blockHash phase) :=
      fun blockHash phase sig hsig => (ih blockHash phase sig hsig).imp id Delivered.mono
    rw [Cluster.state_concat]
    split_ifs with hi
    · subst hi
      rw [← hbefore] at hkept
      refine bucket_step hkept ?_
      intro blockHash view phase sig hcall hcounts
      have hmember := ValidatorSet.contains_iff.mp hcounts.member
      rw [hbefore, hrun.validators] at hmember
      exact ⟨hmember, delivered_vote (List.mem_append_right _ (List.mem_singleton_self e)) hcall
        hcounts.verified⟩
    · exact hkept

/-- The signers of a certificate that a vote completes. -/
theorem certificate_delivered (h : Run C ok (log ++ [e]))
    (hcall : e.call = .process (.vote blockHash view phase sig))
    (hcompletes : e.before.Completes blockHash view phase sig) :
    (e.before.certificate blockHash phase sig).signers ⊆ C.validators.members ∧
      C.validators.quorumSize ≤ (e.before.certificate blockHash phase sig).signers.card ∧
      ∀ id ∈ (e.before.certificate blockHash phase sig).signers,
        Delivered (log ++ [e]) id (voteBytes blockHash phase) := by
  obtain ⟨-, hbefore, -⟩ := h.last
  have hvalidators : e.before.validators = C.validators := by
    rw [hbefore]
    exact h.of_append.validators e.node
  obtain ⟨hcounts, hquorum⟩ := hcompletes
  have hsigs : ∀ other ∈ (e.before.certificate blockHash phase sig).signatures,
      other.signer ∈ C.validators.members ∧
        Delivered (log ++ [e]) other.signer (voteBytes blockHash phase) := by
    intro other hother
    rcases List.mem_append.mp hother with hother | hother
    · rw [hbefore] at hother
      exact (bucket_delivered h.of_append e.node blockHash phase other hother).imp id
        Delivered.mono
    · rw [List.mem_singleton.mp hother, ← hvalidators]
      exact ⟨ValidatorSet.contains_iff.mp hcounts.member, delivered_vote
        (List.mem_append_right _ (List.mem_singleton_self e)) hcall hcounts.verified⟩
  refine ⟨?_, ?_, ?_⟩
  · intro id hid
    obtain ⟨other, hother, rfl⟩ := QuorumCert.mem_signers.mp hid
    exact (hsigs other hother).1
  · rw [← hvalidators]
    exact ValidatorSet.hasQuorum_iff.mp hquorum
  · intro id hid
    obtain ⟨other, hother, rfl⟩ := QuorumCert.mem_signers.mp hid
    exact (hsigs other hother).2

/-- The honest signers of a certificate that a vote completes have cast their votes. -/
theorem certificate_authentic (h : Run C (fun log e => Authentic C log e ∧ ok log e) (log ++ [e]))
    (hcall : e.call = .process (.vote blockHash view phase sig))
    (hcompletes : e.before.Completes blockHash view phase sig)
    (hid : id ∈ (e.before.certificate blockHash phase sig).signers) (hhonest : id ∈ C.honest) :
    Voted log id blockHash phase := by
  obtain ⟨-, -, hdelivered⟩ := certificate_delivered h hcall hcompletes
  obtain ⟨e', he', hnode, block, hvotes, hhash⟩ :=
    signed_vote (signed_of_delivered h (hdelivered id hid) hhonest)
  rcases List.mem_append.mp he' with he' | he'
  · exact ⟨e', he', hnode, block, hvotes, hhash⟩
  · rw [List.mem_singleton.mp he', Event.votes, hcall] at hvotes
    cases hvotes

/-! ## Pending blocks -/

/-- The pending block is of the view of the node, names its own hash and was voted for or proposed,
if that is so of the blocks that are voted for. -/
theorem pending_of_run (h : Run C ok log) (hok : ∀ log e, ok log e → ∀ v ∈ e.votes,
      v.1.view = e.before.view ∧ v.1.hash = v.1.expectedHash) (i : NodeId) : ∀ block,
    (C.state log i).pendingBlock = some block → block.view = (C.state log i).view ∧
      block.hash = block.expectedHash ∧ ∃ e ∈ log, e.block = some block := by
  refine h.invariant (I := fun log => ∀ block, (C.state log i).pendingBlock = some block →
    block.view = (C.state log i).view ∧ block.hash = block.expectedHash ∧
      ∃ e ∈ log, e.block = some block) ?_ ?_
  · intro block hblock
    obtain ⟨keyring, hstart⟩ := (C.config i).start_eq
    rw [Cluster.state_nil, hstart] at hblock
    cases hblock
  · intro log e _ ih _ hbefore hallowed block hblock
    rw [Cluster.state_concat] at hblock ⊢
    split_ifs at hblock ⊢ with hi
    · subst hi
      have hold : e.before.pendingBlock = some block → block.view = e.before.view ∧
          block.hash = block.expectedHash ∧ ∃ e' ∈ log ++ [e], e'.block = some block := by
        intro hpending
        rw [hbefore] at hpending ⊢
        obtain ⟨hview, hhash, e', he', hmade⟩ := ih block hpending
        exact ⟨hview, hhash, e', List.mem_append_left _ he', hmade⟩
      have hlast : e ∈ log ++ [e] := List.mem_append_right _ (List.mem_singleton_self e)
      obtain ⟨node, before, m, call⟩ := e
      dsimp only [Event.next] at hblock hold ⊢
      have hstep := before.stepped m call
      generalize (before.step (m, call)).1 = answer at hstep
      generalize (before.step (m, call)).2 = s' at hstep hblock ⊢
      cases hstep with
      | @voted block' phase sig haccepts =>
        have hvotes : Event.votes ⟨node, before, m, .process (.proposal block' phase sig)⟩ =
          some (block', phase) := votedFor_eq_some.mpr ⟨sig, rfl, haccepts⟩
        rw [afterProposal_pendingBlock] at hblock
        rw [afterProposal_view]
        split_ifs at hblock ⊢
        cases hblock
        obtain ⟨hview, hhash⟩ := hok log _ hallowed _ hvotes
        exact ⟨hview, hhash, _, hlast, Event.block_of_votes hvotes⟩
      | @certified blockHash view phase sig hcompletes =>
        rw [onQuorum_pendingBlock, certificate_phase] at hblock
        rw [onQuorum_view, certificate_phase, cleared_view]
        split_ifs at hblock ⊢
        exact hold hblock
      | @newView view qc sig =>
        rw [onNewView_pendingBlock] at hblock
        rw [onNewView_view]
        split_ifs at hblock ⊢
        exact hold hblock
      | changed => cases hblock
      | proposed hleader hpool =>
        cases hblock
        exact ⟨rfl, rfl, _, hlast, if_neg (by simp [hleader, hpool])⟩
      | _ => exact hold hblock
    · obtain ⟨hview, hhash, e', he', hmade⟩ := ih block hblock
      exact ⟨hview, hhash, e', List.mem_append_left _ he', hmade⟩

/-! ## Views -/

/-- In a run that leads forward, no call has left a node in a later view. -/
theorem Run.next_view_le (h : Run C ok log)
    (hok : ∀ log e, ok log e → e.before.LeadsForward e.call) :
    ∀ e ∈ log, e.next.view ≤ (C.state log e.node).view := by
  refine h.invariant (I := fun log => ∀ e ∈ log, e.next.view ≤ (C.state log e.node).view)
    (fun e he => absurd he List.not_mem_nil) ?_
  intro log e _ ih _ hbefore hallowed e' he'
  have hforward : e.before.view ≤ e.next.view := (leadsForward_iff _).mpr (hok log e hallowed)
  rw [Cluster.state_concat]
  rcases List.mem_append.mp he' with he' | he'
  · split_ifs with hi
    · have hbound := ih e' he'
      rw [← hi, ← hbefore] at hbound
      exact UInt64.le_trans hbound hforward
    · exact ih e' he'
  · obtain rfl := List.mem_singleton.mp he'
    rw [if_pos rfl]
    exact UInt64.le_refl _

/-- In a run that leads forward, a node has not been in a later view. -/
theorem Run.view_mono (h : Run C ok log) (hok : ∀ log e, ok log e → e.before.LeadsForward e.call) :
    ∀ e ∈ log, e.before.view ≤ (C.state log e.node).view := by
  intro e he
  obtain ⟨done, rest, rfl⟩ := List.append_of_mem he
  obtain ⟨-, -, hallowed⟩ := h done e rest rfl
  have hforward : e.before.view ≤ e.next.view := (leadsForward_iff _).mpr (hok done e hallowed)
  exact UInt64.le_trans hforward (h.next_view_le hok e he)

/-- Two calls to one node, in their order. -/
theorem Run.view_le {log' log'' : List Event} {e e' : Event}
    (h : Run C ok (log ++ e :: log' ++ e' :: log''))
    (hok : ∀ log e, ok log e → e.before.LeadsForward e.call) (hnode : e.node = e'.node) :
    e.before.view ≤ e'.before.view := by
  obtain ⟨-, hbefore, -⟩ := h _ e' log'' rfl
  have hbound := h.of_append.view_mono hok e (by simp)
  rw [hbefore, ← hnode]
  exact hbound

end Facts

/-! ## Recorded runs -/

/-- What happens when the calls are made one after the other. -/
def Cluster.record (C : Cluster) (l : List (NodeId × Moment × Call)) : List Event :=
  l.foldl (fun log a => log ++ [⟨a.1, C.state log a.1, a.2.1, a.2.2⟩]) []

theorem Run.record {C : Cluster} {ok : List Event → Event → Prop}
    (l : List (NodeId × Moment × Call)) (h : ∀ k : Fin l.length, (l.get k).1 ∈ C.honest ∧
      ok (C.record (l.take k)) ⟨(l.get k).1, C.state (C.record (l.take k)) (l.get k).1,
        (l.get k).2.1, (l.get k).2.2⟩) : Run C ok (C.record l) := by
  have hprefix : ∀ n, n ≤ l.length → Run C ok (C.record (l.take n)) := by
    intro n hn
    induction n with
    | zero => exact .nil
    | succ n ih =>
      obtain ⟨hhonest, hok⟩ := h ⟨n, hn⟩
      have hlast : l.take (n + 1) = l.take n ++ [l.get ⟨n, hn⟩] := by
        rw [List.take_succ_eq_append_getElem hn]
        rfl
      rw [hlast, Cluster.record, List.foldl_append]
      exact (ih (Nat.le_of_lt hn)).concat hhonest rfl hok
  have hall := hprefix l.length (Nat.le_refl _)
  rwa [List.take_length] at hall

end Cluster

end P2P333.Platform333.Bft
