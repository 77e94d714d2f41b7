import P2P333.Platform333.Netcode.Lockstep
import P2P333.Platform333.Netcode.Rounds

/-!
# Checkpoints of an honest cluster

All nodes of a harness in lockstep. A phase takes two rounds of the loop: in one all nodes vote for
the proposals in their inboxes, in the other the leader counts the votes. The inbox of the leader
must have room for the votes of all, so no more than 256 nodes can go together.

Results:
1. `phase_step`, `commit_step`: the two rounds of a phase.
2. `ready_drive`, `ready_blocks`: a call commits its checkpoint, or never returns.
3. `checkpoints_commit_iff`: which clusters commit all their checkpoints.
-/

namespace P2P333.Platform333.Netcode

open Std Lib Platform333.Bft HotStuffState

/-! ## Phases -/

section Phases

variable [Ed25519]

/-- The phases before this one. -/
def earlier : Phase → List Phase
  | .prepare => []
  | .preCommit => [.prepare]
  | .commit => [.prepare, .preCommit]
  | .decide => [.prepare, .preCommit, .commit]

/-- There are no votes for the block in this phase or a later one. -/
def Fresh (block : Block) (phase : Phase) (s : HotStuffState) : Prop :=
  ∀ p ∉ earlier phase, s.bucket block.hash p = []

variable (vs : ValidatorSet) (key : NodeId → Identity) (v : UInt64) (block : Block) (phase : Phase)

/-- The node before the votes of a phase. -/
structure Enters (id : NodeId) (s : HotStuffState) : Prop where
  works : Works vs key v block id s
  fresh : Fresh block phase s
  locked : phase = .commit → Locked v block s

/-- The node has so many proposals for the phase in its inbox. -/
structure Voting (k : Nat) (id : NodeId) (s : HotStuffState) (inbox : List HotStuffMsg) :
    Prop where
  enters : Enters vs key v block phase id s
  length : inbox.length = k
  proposals : ∀ msg ∈ inbox, IsProposal key block phase msg

/-- The node after it has voted. -/
structure Voted (id : NodeId) (s : HotStuffState) : Prop where
  works : Works vs key v block id s
  fresh : Fresh block phase s
  locked : phase ≠ .prepare → Locked v block s

/-- The votes of all validators. -/
structure Ballots (msgs : List HotStuffMsg) : Prop where
  honest : ∀ msg ∈ msgs, ∃ i ∈ vs.validators, IsVote key v block phase i msg
  all : ∀ i ∈ vs.validators, ∃ msg ∈ msgs, IsVote key v block phase i msg

variable {vs key v block phase} {k : Nat} {id : NodeId} {s s' : HotStuffState}
  {msgs votes inbox : List HotStuffMsg} {slots : List NodeSlot} {idx : Nat}

section

omit [Ed25519]

theorem mem_earlier_nextPhase (hphase : phase = .prepare ∨ phase = .preCommit) (p : Phase) :
    p ∈ earlier (nextPhase phase) ↔ p = phase ∨ p ∈ earlier phase := by
  rcases hphase with rfl | rfl <;> simp [earlier, nextPhase, or_comm]

theorem not_mem_earlier (phase : Phase) : phase ∉ earlier phase := by
  cases phase <;> simp [earlier]

theorem Fresh.congr (h : Fresh block phase s) (hvotes : s'.votes = s.votes) :
    Fresh block phase s' := by
  intro p hp
  rw [bucket, hvotes]
  exact h p hp

end

omit [Ed25519] in
theorem Fresh.few (h : Fresh block phase s) : (tally block s phase).card < vs.quorumSize := by
  rw [tally_of_nil (h phase (not_mem_earlier phase))]
  exact Nat.succ_pos _

theorem votes_of_ballots (h : Ballots vs key v block phase votes) :
    ∀ msg ∈ votes, ∃ blockHash view phase sig, msg = .vote blockHash view phase sig := by
  intro msg hmsg
  obtain ⟨i, -, noise, rfl⟩ := h.honest msg hmsg
  exact ⟨_, _, _, _, rfl⟩

variable {outs : List (NodeId × List HotStuffMsg)}

section

variable (hids : outs.map Prod.fst = vs.validators)
include hids

theorem ballots_of_outs
    (houts : ∀ o ∈ outs, o.2 ≠ [] ∧ ∀ vote ∈ o.2, IsVote key v block phase o.1 vote) :
    Ballots vs key v block phase (outs.flatMap Prod.snd) := by
  constructor
  · intro msg hmsg
    obtain ⟨o, ho, hmem⟩ := List.mem_flatMap.mp hmsg
    exact ⟨o.1, hids ▸ List.mem_map_of_mem ho, (houts o ho).2 msg hmem⟩
  · intro i hi
    rw [← hids] at hi
    obtain ⟨o, ho, rfl⟩ := List.mem_map.mp hi
    obtain ⟨msg, hmsg⟩ := List.exists_mem_of_ne_nil _ (houts o ho).1
    exact ⟨msg, List.mem_flatMap.mpr ⟨o, ho, hmsg⟩, (houts o ho).2 msg hmsg⟩

omit [Ed25519] in
theorem length_flatMap_le (houts : ∀ o ∈ outs, o.2.length ≤ k) :
    (outs.flatMap Prod.snd).length ≤ vs.n * k := by
  have hlen : outs.length = vs.n := by
    rw [ValidatorSet.n, ← hids, List.length_map]
  rw [List.length_flatMap, ← hlen, ← smul_eq_mul]
  refine (List.sum_le_card_nsmul _ k fun x hx => ?_).trans_eq (by rw [List.length_map])
  obtain ⟨o, ho, rfl⟩ := List.mem_map.mp hx
  exact houts o ho

omit [Ed25519] in
theorem length_flatMap_eq (houts : ∀ o ∈ outs, o.2.length = k) :
    (outs.flatMap Prod.snd).length = vs.n * k := by
  have hlen : outs.length = vs.n := by
    rw [ValidatorSet.n, ← hids, List.length_map]
  rw [List.length_flatMap, ← hlen, List.map_congr_left houts]
  simp

end

/-- All nodes vote for what is in their inboxes. -/
theorem vote_round (moment : NodeId → Nat → Moment) (hsound : SignsSoundly key)
    (hblock : Proposed vs key v block)
    (hphase : phase = .prepare ∨ phase = .preCommit) (hk : k ≠ 0)
    (h : Stage vs (Voting vs key v block phase k) slots) :
    ∃ votes slots', runRound moment slots = .outgoing votes slots' ∧ votes.length = vs.n * k ∧
      Ballots vs key v block phase votes ∧
      Stage vs (fun id s inbox => Voted vs key v block phase id s ∧ inbox = []) slots' := by
  have hstays : phase ≠ .commit := by rcases hphase with rfl | rfl <;> nofun
  obtain ⟨outs, hids, houts, slots', hround, hstage⟩ := h.round moment
    (T := fun id s inbox => Voted vs key v block phase id s ∧ inbox = [])
    (P := fun id out => out.length = k ∧ ∀ vote ∈ out, IsVote key v block phase id vote) (by
      intro id s inbox _ hvoting
      obtain ⟨out, s', hdrain, hworks, hvotes, hlen, hout, hlock⟩ :=
        hvoting.enters.works.drain_proposals (moment id) hsound hblock (.inl hstays)
          hvoting.proposals
      have hne : inbox ≠ [] := fun hnil => hk (by rw [← hvoting.length, hnil]; rfl)
      refine ⟨out, s', hdrain, ⟨⟨hworks, hvoting.enters.fresh.congr hvotes, fun hnot => ?_⟩, rfl⟩,
        hlen.trans hvoting.length, hout⟩
      exact hlock (.inl ⟨hphase.resolve_left hnot, hne⟩))
  have hballots : Ballots vs key v block phase (outs.flatMap Prod.snd) := ballots_of_outs hids
    fun o ho => ⟨fun hnil => hk (by rw [← (houts o ho).1, hnil]; rfl), (houts o ho).2⟩
  exact ⟨_, slots', hround, length_flatMap_eq hids fun o ho => (houts o ho).1, hballots, hstage⟩

/-- The leader counts the votes, and proposes the block for the next phase. -/
theorem tally_round (moment : NodeId → Nat → Moment) (hsound : SignsSoundly key)
    (hdistinct : vs.validators.Nodup)
    (hblock : Proposed vs key v block) (hphase : phase = .prepare ∨ phase = .preCommit)
    (hballots : Ballots vs key v block phase votes)
    (h : Stage vs (fun id s inbox => Voted vs key v block phase id s ∧
      inbox = mailTo block.proposer votes id) slots) :
    ∃ msgs slots', runRound moment slots = .outgoing msgs slots' ∧ msgs ≠ [] ∧
      msgs.length * vs.quorumSize ≤ votes.length ∧
      (∀ msg ∈ msgs, IsProposal key block (nextPhase phase) msg) ∧
      Stage vs (fun id s inbox => Enters vs key v block (nextPhase phase) id s ∧ inbox = [])
        slots' := by
  have hleader : block.proposer ∈ vs.validators := hblock.proposer ▸ leader_mem vs v
  obtain ⟨outs, hids, houts, slots', hround, hstage⟩ := h.round moment
    (T := fun id s inbox => Enters vs key v block (nextPhase phase) id s ∧ inbox = [])
    (P := fun id out => (id ≠ block.proposer → out = []) ∧ (id = block.proposer → out ≠ [] ∧
      out.length * vs.quorumSize ≤ votes.length ∧
      ∀ msg ∈ out, IsProposal key block (nextPhase phase) msg)) (by
      rintro id s inbox - ⟨hvoted, rfl⟩
      have hlocked : nextPhase phase = .commit → Locked v block s := fun hnext =>
        hvoted.locked fun hprepare => by rw [hprepare] at hnext; cases hnext
      by_cases hid : id = block.proposer
      · obtain ⟨out, s', hdrain, hworks, hlock, hout, hothers, hlen, hnone⟩ :=
          hvoted.works.drain_votes (moment id) hsound hblock hid hphase hballots.honest
            hvoted.fresh.few
        have hempty := hvoted.fresh phase (not_mem_earlier phase)
        rw [hempty, List.length_nil, Nat.zero_add] at hlen
        -- Without a quorum it would have counted the votes of all, which are one.
        have hacts : out ≠ [] := by
          intro hnil
          obtain ⟨hfew, -, hall⟩ := hnone hnil
          refine not_few_of_all hdistinct (fun i hi => ?_) hfew
          obtain ⟨msg, hmsg, hvote⟩ := hballots.all i hi
          exact hall msg hmsg i hvote
        rw [mailTo, if_pos hid]
        refine ⟨out, s', hdrain,
          ⟨⟨hworks, fun p hp => ?_, fun hnext => hlock (hlocked hnext)⟩, rfl⟩,
          fun hother => absurd hid hother, fun _ => ⟨hacts, hlen, hout⟩⟩
        rw [mem_earlier_nextPhase hphase, not_or] at hp
        exact hothers p hp.1 (hvoted.fresh p hp.2)
      · rw [mailTo, if_neg hid]
        refine ⟨[], s, rfl, ⟨⟨hvoted.works, fun p hp => ?_, hlocked⟩, rfl⟩, fun _ => rfl,
          fun hsame => absurd hsame hid⟩
        rw [mem_earlier_nextPhase hphase, not_or] at hp
        exact hvoted.fresh p hp.2)
  rw [← hids] at hleader
  obtain ⟨o, ho, hid⟩ := List.mem_map.mp hleader
  obtain ⟨hne, hlen, hproposals⟩ := (houts o ho).2 hid
  rw [flatMap_eq_of_only (hids ▸ hdistinct) ho fun x hx hother =>
    (houts x hx).1 (hid ▸ hother)] at hround
  exact ⟨o.2, slots', hround, hne, hlen, hproposals, hstage⟩

/-! ## Steps of the loop -/

variable {times : Nat → NodeId → Nat → Moment} {maxSteps left : Nat} {qc : QuorumCert}

theorem pump_outgoing {slots' : List NodeSlot}
    (hround : runRound (times (maxSteps - left)) slots = .outgoing msgs slots') (hne : msgs ≠ []) :
    pump idx times maxSteps (left + 1) slots =
      (msgs.foldlM (route idx) slots').bind (pump idx times maxSteps left) := by
  obtain ⟨msg, rest, rfl⟩ := List.exists_cons_of_ne_nil hne
  rw [pump, hround]
  rfl

/-- The votes of a round fit into the inbox of the leader, or the harness blocks. -/
theorem vote_step (times : Nat → NodeId → Nat → Moment) (maxSteps left : Nat)
    (hsound : SignsSoundly key) (hdistinct : vs.validators.Nodup)
    (hblock : Proposed vs key v block) (hidx : vs.validators[idx]? = some block.proposer)
    (hphase : phase = .prepare ∨ phase = .preCommit) (hk : k ≠ 0)
    (h : Stage vs (Voting vs key v block phase k) slots) :
    ∃ votes slots', pump idx times maxSteps (left + 1) slots =
        (if vs.n * k ≤ inboxCapacity then
          pump idx times maxSteps left (mailed (mailTo block.proposer votes) slots')
        else none) ∧
      votes.length = vs.n * k ∧ Ballots vs key v block phase votes ∧
      Stage vs (fun id s inbox => Voted vs key v block phase id s ∧ inbox = []) slots' := by
  obtain ⟨votes, slots', hround, hlen, hballots, hstage⟩ :=
    vote_round (times (maxSteps - left)) hsound hblock hphase hk h
  obtain ⟨slot, hmem, hslot, hid⟩ := hstage.slot_of hidx
  have hempty : slot.inbox = [] := (hstage.all slot hmem).2
  have hne : votes ≠ [] := by
    rintro rfl
    exact Nat.mul_ne_zero vs.n_pos.ne' hk hlen.symm
  refine ⟨votes, slots', ?_, hlen, hballots, hstage⟩
  rw [pump_outgoing hround hne, route_votes (hstage.nodup hdistinct) hslot (by simp [hempty])
    (votes_of_ballots hballots), hempty, List.length_nil, Nat.zero_add, hlen, hid]
  split_ifs <;> rfl

/-- One of the first two phases takes two rounds. -/
theorem phase_step (times : Nat → NodeId → Nat → Moment) (maxSteps left : Nat)
    (hsound : SignsSoundly key) (hdistinct : vs.validators.Nodup)
    (hblock : Proposed vs key v block) (hidx : vs.validators[idx]? = some block.proposer)
    (hphase : phase = .prepare ∨ phase = .preCommit) (hk : k ≠ 0)
    (hfits : vs.n * k ≤ inboxCapacity) (h : Stage vs (Voting vs key v block phase k) slots) :
    ∃ k' slots', pump idx times maxSteps (left + 2) slots = pump idx times maxSteps left slots' ∧
      k' ≠ 0 ∧ k' * vs.quorumSize ≤ vs.n * k ∧
      Stage vs (Voting vs key v block (nextPhase phase) k') slots' := by
  obtain ⟨votes, slots₁, hvote, hlen, hballots, hvoted⟩ := vote_step times maxSteps
    (left + 1) hsound hdistinct hblock hidx hphase hk h
  have hmailed : Stage vs (fun id s inbox => Voted vs key v block phase id s ∧
      inbox = mailTo block.proposer votes id) (mailed (mailTo block.proposer votes) slots₁) :=
    hvoted.mailed fun id s inbox ⟨hvoted, hempty⟩ => ⟨hvoted, by rw [hempty, List.nil_append]⟩
  obtain ⟨msgs, slots₂, hround, hne, hquorums, hproposals, hentered⟩ :=
    tally_round (times (maxSteps - left)) hsound hdistinct hblock hphase hballots hmailed
  have hfew : msgs.length ≤ inboxCapacity := by
    have hpos : 1 ≤ vs.quorumSize := Nat.succ_pos _
    have hle := Nat.le_mul_of_pos_right msgs.length hpos
    omega
  refine ⟨msgs.length, mailed (fun _ => msgs) slots₂, ?_,
    fun hnil => hne (List.length_eq_zero_iff.mp hnil), hlen ▸ hquorums, ?_⟩
  · rw [hvote, if_pos hfits, pump_outgoing hround hne, route_proposals]
    · rfl
    · intro slot hslot
      rw [(hentered.all slot hslot).2, List.length_nil, Nat.zero_add]
      exact hfew
    · intro msg hmsg
      obtain ⟨noise, rfl⟩ := hproposals msg hmsg
      exact ⟨_, _, _, rfl⟩
  · refine hentered.mailed fun id s inbox ⟨henters, hempty⟩ => ?_
    rw [hempty, List.nil_append]
    exact ⟨henters, rfl, hproposals⟩

/-- A node between two checkpoints, whose lock is not newer than its certificate. -/
structure Ready (vs : ValidatorSet) (key : NodeId → Identity) (v w : UInt64) (id : NodeId)
    (s : HotStuffState) : Prop where
  member : Member vs key id s
  view : s.view = v
  pool : s.txPool = []
  votes : s.votes = ∅
  tracker : s.voteTracker = ∅
  high : Justifies vs key s.highQc
  locked : s.lockedQc.view ≤ w
  recent : w ≤ s.highQc.view

/-- The votes of the last view come too late. -/
theorem Left.ignores {m : Moment} {msg : HotStuffMsg} {i : NodeId} (hl : Left vs key v id s)
    (hmsg : IsVote key v block phase i msg) : s.process m msg = (.none, s) := by
  obtain ⟨noise, rfl⟩ := hmsg
  have hlate : v ≠ s.view := by
    rw [hl.view]
    simp
  rw [process, onVote, if_pos hlate, ite_self]

theorem Left.settled {moment : Nat → Moment} {msg : HotStuffMsg} (hl : Left vs key v id s)
    (hmsgs : ∀ msg ∈ msgs, ∃ i, IsVote key v block phase i msg) :
    settled moment s (msgs ++ [msg]) = (s.process (moment 0) msg).2 := by
  induction msgs with
  | nil => rfl
  | cons vote rest ih =>
    obtain ⟨i, hvote⟩ := hmsgs vote List.mem_cons_self
    rw [List.cons_append, Netcode.settled, hl.ignores hvote]
    exact ih fun msg hmem => hmsgs msg (List.mem_cons_of_mem _ hmem)

/-- The `NewView` of a commit finds the node in its view already. -/
theorem Left.onNewView (hl : Left vs key v id s) (hvalid : Valid vs key qc) (hview : qc.view = v) :
    Ready vs key (v + 1) v id (s.onNewView (v + 1) qc).2 ∧
      (s.highQc = qc → (s.onNewView (v + 1) qc).2.highQc = qc) := by
  have hstays : ¬ s.view < v + 1 := by
    rw [hl.view]
    exact UInt64.lt_irrefl _
  have hlocked : s.lockedQc.view ≤ v := hl.locked ▸ UInt64.le_refl _
  by_cases hnewer : s.highQc.view < qc.view
  · have hresult : (s.onNewView (v + 1) qc).2 = { s with highQc := qc } := by
      simp only [HotStuffState.onNewView, hnewer, if_true]
      exact if_neg hstays
    rw [hresult]
    refine ⟨⟨hl.member.congr rfl, hl.view, hl.pool, hl.votes, hl.tracker, .inr hvalid,
      hlocked, hview ▸ UInt64.le_refl _⟩, fun _ => rfl⟩
  · have hresult : (s.onNewView (v + 1) qc).2 = s := by
      simp only [HotStuffState.onNewView, hnewer, if_false]
      exact if_neg hstays
    rw [hresult]
    rw [hview, UInt64.not_lt] at hnewer
    exact ⟨⟨hl.member, hl.view, hl.pool, hl.votes, hl.tracker, hl.high, hlocked, hnewer⟩,
      fun h => h⟩

/-- A node when the leader has the votes for the commit. -/
structure Committing (vs : ValidatorSet) (key : NodeId → Identity) (v : UInt64) (block : Block)
    (votes : List HotStuffMsg) (id : NodeId) (s : HotStuffState) (inbox : List HotStuffMsg) :
    Prop where
  leader : id = block.proposer → Works vs key v block id s ∧ Fresh block .commit s
  others : id ≠ block.proposer → Left vs key v id s
  mail : inbox = mailTo block.proposer votes id

/-- A node when the leader has committed. Late votes are left in its inbox. -/
structure Committed (vs : ValidatorSet) (key : NodeId → Identity) (v : UInt64) (block : Block)
    (newView : HotStuffMsg) (id : NodeId) (s : HotStuffState) (inbox : List HotStuffMsg) :
    Prop where
  left : Left vs key v id s
  room : inbox.length < inboxCapacity
  late : ∀ msg ∈ inbox, ∃ i, IsVote key v block .commit i msg
  leader : id = block.proposer →
    ∀ qc signature, newView = .newView (v + 1) qc signature → s.highQc = qc

/-- All nodes vote in the last phase. The others leave the view with their votes. -/
theorem last_vote_round (moment : NodeId → Nat → Moment) (hsound : SignsSoundly key)
    (hblock : Proposed vs key v block)
    (hnext : ∀ i ∈ vs.validators, i ≠ block.proposer →
      leaderForView (v + 1) vs ≠ leaderForView v vs) (hk : k ≠ 0)
    (h : Stage vs (Voting vs key v block .commit k) slots) :
    ∃ votes slots', runRound moment slots = .outgoing votes slots' ∧ votes.length ≤ vs.n * k ∧
      Ballots vs key v block .commit votes ∧
      Stage vs (fun id s inbox => ((id = block.proposer → Works vs key v block id s ∧
        Fresh block .commit s) ∧ (id ≠ block.proposer → Left vs key v id s)) ∧ inbox = [])
        slots' := by
  obtain ⟨outs, hids, houts, slots', hround, hstage⟩ := h.round moment
    (T := fun id s inbox => ((id = block.proposer → Works vs key v block id s ∧
      Fresh block .commit s) ∧ (id ≠ block.proposer → Left vs key v id s)) ∧ inbox = [])
    (P := fun id out => out.length ≤ k ∧ out ≠ [] ∧
      ∀ vote ∈ out, IsVote key v block .commit id vote) (by
      intro id s inbox hmem hvoting
      have hne : inbox ≠ [] := fun hnil => hk (by rw [← hvoting.length, hnil]; rfl)
      by_cases hid : id = block.proposer
      · obtain ⟨out, s', hdrain, hworks, hvotes, hlen, hout, -⟩ :=
          hvoting.enters.works.drain_proposals (moment id) hsound hblock (.inr hid)
            hvoting.proposals
        have hlen := hlen.trans hvoting.length
        refine ⟨out, s', hdrain, ⟨⟨fun _ => ⟨hworks, hvoting.enters.fresh.congr hvotes⟩,
          fun hother => absurd hid hother⟩, rfl⟩, hlen.le, fun hnil => hk ?_, hout⟩
        rw [← hlen, hnil]
        rfl
      · obtain ⟨vote, s', hdrain, hleft, hvote⟩ :=
          hvoting.enters.works.drain_last (moment id) hsound hblock hid
            (hvoting.enters.locked rfl) (hnext id hmem hid) hne hvoting.proposals
        refine ⟨[vote], s', hdrain, ⟨⟨fun hsame => absurd hsame hid, fun _ => hleft⟩, rfl⟩,
          Nat.one_le_iff_ne_zero.mpr hk, by simp, fun msg hmsg => ?_⟩
        rw [List.mem_singleton.mp hmsg]
        exact hvote)
  exact ⟨_, slots', hround, length_flatMap_le hids fun o ho => (houts o ho).1,
    ballots_of_outs hids fun o ho => (houts o ho).2, hstage⟩

/-- The leader counts the votes of the last phase, and commits the block. -/
theorem commit_round (moment : NodeId → Nat → Moment) (hsound : SignsSoundly key)
    (hdistinct : vs.validators.Nodup) (hblock : Proposed vs key v block)
    (hballots : Ballots vs key v block .commit votes) (hfits : votes.length ≤ inboxCapacity)
    (h : Stage vs (Committing vs key v block votes) slots) :
    ∃ qc signature slots',
      runRound moment slots = .committed (.newView (v + 1) qc signature) slots' ∧
      Valid vs key qc ∧ qc.phase = .commit ∧ qc.view = v ∧
      Stage vs (Committed vs key v block (.newView (v + 1) qc signature)) slots' := by
  obtain ⟨newView, slots', hround, ⟨qc, signature, rfl, hvalid, hphase, hview⟩, hstage⟩ :=
    h.committing block.proposer moment
      (R := fun newView => ∃ qc signature, newView = .newView (v + 1) qc signature ∧
        Valid vs key qc ∧ qc.phase = .commit ∧ qc.view = v)
      (T := Committed vs key v block) hdistinct (hblock.proposer ▸ leader_mem vs v) (by
        intro s inbox hcommitting
        obtain ⟨hworks, hfresh⟩ := hcommitting.leader rfl
        obtain ⟨qc, signature, s', rest, hdrain, hleft, hhigh, hvalid, hphase, hview, hsuffix,
          hshort⟩ := hworks.drain_commits (moment block.proposer) hsound hdistinct hblock rfl
            hballots.honest hfresh.few fun i hi => .inr (hballots.all i hi)
        rw [hcommitting.mail, mailTo, if_pos rfl]
        refine ⟨_, s', rest, hdrain, ⟨qc, signature, rfl, hvalid, hphase, hview⟩, hleft,
          hshort.trans_le hfits, fun msg hmsg => ?_, fun _ qc' signature' heq => ?_⟩
        · obtain ⟨i, -, hvote⟩ := hballots.honest msg (hsuffix.subset hmsg)
          exact ⟨i, hvote⟩
        · rw [hhigh]
          exact (HotStuffMsg.newView.inj heq).2.1) (by
        intro id s inbox hother hcommitting
        refine ⟨?_, fun newView => ⟨hcommitting.others hother, by decide, List.forall_mem_nil _,
          fun hsame => absurd hsame hother⟩⟩
        rw [hcommitting.mail, mailTo, if_neg hother])
  exact ⟨qc, signature, slots', hround, hvalid, hphase, hview, hstage⟩

/-- The last phase takes two rounds. -/
theorem commit_step (times : Nat → NodeId → Nat → Moment) (maxSteps left : Nat)
    (hsound : SignsSoundly key) (hdistinct : vs.validators.Nodup) (hblock : Proposed vs key v block)
    (hidx : vs.validators[idx]? = some block.proposer)
    (hnext : ∀ i ∈ vs.validators, i ≠ block.proposer →
      leaderForView (v + 1) vs ≠ leaderForView v vs)
    (hk : k ≠ 0) (hfits : vs.n * k ≤ inboxCapacity)
    (h : Stage vs (Voting vs key v block .commit k) slots) :
    ∃ qc slots', pump idx times maxSteps (left + 2) slots = some (.ok qc, slots') ∧
      Valid vs key qc ∧ qc.phase = .commit ∧
      Stage vs (fun id s inbox => Ready vs key (v + 1) v id s ∧ inbox = []) slots' := by
  obtain ⟨votes, slots₁, hvote, hlen, hballots, hvoted⟩ :=
    last_vote_round (times (maxSteps - (left + 1))) hsound hblock hnext hk h
  have hlen := hlen.trans hfits
  obtain ⟨slot, hmem, hslot, hid⟩ := hvoted.slot_of hidx
  have hempty : slot.inbox = [] := (hvoted.all slot hmem).2
  have hne : votes ≠ [] := by
    rintro rfl
    obtain ⟨msg, hmsg, -⟩ := hballots.all _ (leader_mem vs v)
    cases hmsg
  have hmailed : Stage vs (Committing vs key v block votes)
      (mailed (mailTo block.proposer votes) slots₁) :=
    hvoted.mailed fun id s inbox ⟨⟨hleader, hothers⟩, hempty⟩ =>
      ⟨hleader, hothers, by rw [hempty, List.nil_append]⟩
  obtain ⟨qc, signature, slots₂, hcommit, hvalid, hphase, hview, hcommitted⟩ :=
    commit_round (times (maxSteps - left)) hsound hdistinct hblock hballots hlen hmailed
  -- The `NewView` comes last in each inbox, and changes at most the highest certificate.
  have hsettled : Stage vs
      (fun id s inbox => (Ready vs key (v + 1) v id s ∧ inbox = []) ∧
        (id = block.proposer → s.highQc = qc))
      ((mailed (fun _ => [.newView (v + 1) qc signature]) slots₂).map fun slot =>
        slot.settle (times (maxSteps + 1) slot.nodeId)) := by
    refine (hcommitted.mailed (T := fun id s inbox => ∃ rest,
      inbox = rest ++ [.newView (v + 1) qc signature] ∧
        Committed vs key v block (.newView (v + 1) qc signature) id s rest)
      fun id s inbox hnode => ⟨inbox, rfl, hnode⟩).settle _ ?_
    rintro id s inbox ⟨rest, rfl, hnode⟩
    rw [hnode.left.settled hnode.late]
    obtain ⟨hready, hhigh⟩ := hnode.left.onNewView hvalid hview
    exact ⟨⟨hready, rfl⟩, fun hid => hhigh (hnode.leader hid qc signature rfl)⟩
  refine ⟨qc, _, ?_, hvalid, hphase, hsettled.imp fun _ _ _ h => h.1⟩
  rw [pump_outgoing hvote hne, route_votes (hvoted.nodup hdistinct) hslot (by simp [hempty])
    (votes_of_ballots hballots), hempty, List.length_nil, Nat.zero_add, if_pos hlen, hid,
    Option.bind_some, pump, hcommit]
  obtain ⟨leader, hleader, hat, hid⟩ := hsettled.slot_of hidx
  have hhigh := (hsettled.all leader hleader).2 hid
  dsimp only [Option.bind_eq_bind]
  rw [broadcastToAll_eq fun slot hslot => (hcommitted.all slot hslot).room]
  dsimp only [Option.bind_some]
  rw [hat, Option.bind_some, hhigh]

/-! ## Calls -/

variable {w : UInt64} {h : MultiNodeBftHarness}

omit [Ed25519] in
/-- The rounds of a call never put more into an inbox than it holds. A leader acts on more than one
quorum in a phase only where there are at most six validators. -/
theorem phases_fit {k₁ k₂ : Nat} (hn : vs.n ≤ inboxCapacity)
    (hfirst : k₁ * vs.quorumSize ≤ vs.n * 1) (hsecond : k₂ * vs.quorumSize ≤ vs.n * k₁) :
    vs.n * k₁ ≤ inboxCapacity ∧ vs.n * k₂ ≤ inboxCapacity := by
  have hpos : 1 ≤ vs.quorumSize := Nat.succ_pos _
  rw [Nat.mul_one] at hfirst
  -- Two quorums have more votes than there are validators.
  have honce : ∀ k, k * vs.quorumSize ≤ vs.n → vs.n < 2 * vs.quorumSize → k ≤ 1 := by
    intro k hk hmost
    have hlt := lt_of_mul_lt_mul_right (hk.trans_lt hmost) (Nat.zero_le _)
    omega
  have hatMost : ∀ k, k ≤ 1 → vs.n * k ≤ vs.n := fun k hk =>
    (Nat.mul_le_mul_left _ hk).trans_eq (Nat.mul_one _)
  by_cases hsmall : vs.n ≤ 6
  · have hk₁ : k₁ ≤ 6 := ((Nat.le_mul_of_pos_right _ hpos).trans hfirst).trans hsmall
    have hvotes : vs.n * k₁ ≤ 6 * 6 := Nat.mul_le_mul hsmall hk₁
    have hk₂ : k₂ ≤ 6 * 6 := ((Nat.le_mul_of_pos_right _ hpos).trans hsecond).trans hvotes
    have hlast : vs.n * k₂ ≤ 6 * (6 * 6) := Nat.mul_le_mul hsmall hk₂
    exact ⟨hvotes.trans (by decide), hlast.trans (by decide)⟩
  · have hmost : vs.n < 2 * vs.quorumSize := by
      unfold ValidatorSet.quorumSize ValidatorSet.f
      omega
    have hvotes := hatMost k₁ (honce k₁ hfirst hmost)
    have hlast := hatMost k₂ (honce k₂ (hsecond.trans hvotes) hmost)
    exact ⟨hvotes.trans hn, hlast.trans hn⟩

omit [Ed25519] in
/-- The next view has another leader, unless there is only one validator. -/
theorem leaderForView_succ_ne (hdistinct : vs.validators.Nodup) (htwo : 2 ≤ vs.n)
    (hview : v.toNat + 1 < 2 ^ 64) : leaderForView (v + 1) vs ≠ leaderForView v vs := by
  have hsucc : (v + 1).toNat = v.toNat + 1 := by
    rw [UInt64.toNat_add, UInt64.toNat_one, Nat.mod_eq_of_lt hview]
  intro heq
  have heq := congrArg Fin.val ((List.Nodup.get_inj_iff hdistinct).mp heq)
  dsimp only at heq
  rw [hsucc, Nat.add_mod_eq_ite] at heq
  have hlt := Nat.mod_lt v.toNat vs.n_pos
  rw [Nat.mod_eq_of_lt (by omega : 1 < vs.n)] at heq
  split_ifs at heq <;> omega

theorem Ready.enters (hr : Ready vs key v w id s) (hrecent : w ≤ block.justify.view)
    (hpending : id = block.proposer → s.pendingBlock = some block) :
    Enters vs key v block .prepare id s where
  works :=
    { member := hr.member
      view := hr.view
      pending := hpending
      pool := hr.pool
      tracked := fun k hash h => by
        rw [hr.tracker, ExtTreeMap.getElem?_empty] at h
        cases h
      ballots := fun phase sig hsig => by
        rw [bucket_nil hr.votes] at hsig
        cases hsig
      high := hr.high
      safe := .inl (UInt64.le_trans hr.locked hrecent) }
  fresh _ _ := bucket_nil hr.votes _ _
  locked := nofun

theorem Ready.isLeader_eq (hr : Ready vs key v w id s) :
    s.isLeader = (leaderForView v vs == id) := by
  rw [isLeader, HotStuffState.currentLeader, hr.view, hr.member.validators, hr.member.nodeId]

/-- The leader takes the checkpoint into its pool, and proposes a block for it. -/
theorem Ready.proposes (hr : Ready vs key v w id s) (hleader : id = leaderForView v vs)
    (tx : OrderedTx) (m : Moment) :
    ∃ block msg s', (s.submitTx tx).1 = true ∧ (s.submitTx tx).2.propose m = (some msg, s') ∧
      block.proposer = id ∧ IsProposal key block .prepare msg ∧ Proposed vs key v block ∧
      w ≤ block.justify.view ∧ Ready vs key v w id s' ∧ s'.pendingBlock = some block := by
  have hsubmit : s.submitTx tx = (true, { s with txPool := [tx] }) := by
    rw [submitTx, hr.pool]
    rfl
  generalize hs₁ : ({ s with txPool := [tx] } : HotStuffState) = s₁ at hsubmit
  have hpool : s₁.txPool = [tx] := hs₁ ▸ rfl
  have hleads : s₁.isLeader = true := by
    rw [← hs₁]
    exact hr.isLeader_eq.trans (beq_iff_eq.mpr hleader.symm)
  have hpropose : s₁.propose m = (some (.proposal s₁.proposedBlock .prepare
      (signWithIdentity s₁.nodeId s₁.proposedBlock.hash s₁.identity m.noise)),
      { s₁ with
        txPool := [], blocks := s₁.blocks.insert s₁.proposedBlock.hash s₁.proposedBlock
        pendingBlock := some s₁.proposedBlock }) := by
    rw [propose, if_neg]
    rw [hleads, hpool]
    simp
  have hnode : s₁.nodeId = id := by
    rw [← hs₁]
    exact hr.member.nodeId
  have hidentity : s₁.identity = key id := by
    rw [← hs₁]
    exact hr.member.identity
  have hjustify : s₁.proposedBlock.justify = s.highQc := hs₁ ▸ rfl
  refine ⟨s₁.proposedBlock, _, _, by rw [hsubmit], by rw [hsubmit]; exact hpropose, hnode,
    ⟨m.noise, ?_⟩, ⟨hnode.trans hleader, ?_, hjustify ▸ hr.high⟩, hjustify ▸ hr.recent, ?_, rfl⟩
  · rw [show s₁.proposedBlock.proposer = id from hnode, hnode, hidentity]
  · rw [show s₁.proposedBlock.transactions = [tx] from hpool]
    exact List.cons_ne_nil _ _
  · rw [← hs₁]
    exact ⟨hr.member.congr rfl, hr.view, rfl, hr.votes, hr.tracker, hr.high, hr.locked, hr.recent⟩

theorem findLeaderIdx_eq
    (hstage : Stage vs (fun id s inbox => Ready vs key v w id s ∧ inbox = []) h.slots) :
    ∃ idx, h.findLeaderIdx = some idx ∧ vs.validators[idx]? = some (leaderForView v vs) := by
  have hleads : ∀ slot ∈ h.slots, slot.state.isLeader = true ↔
      slot.nodeId = leaderForView v vs := by
    intro slot hslot
    rw [(hstage.all slot hslot).1.isLeader_eq, beq_iff_eq, eq_comm]
  unfold MultiNodeBftHarness.findLeaderIdx
  cases hfind : h.slots.findIdx? fun slot => slot.state.isLeader with
  | none =>
    have hmem := leader_mem vs v
    rw [← hstage.ids] at hmem
    obtain ⟨slot, hslot, hid⟩ := List.mem_map.mp hmem
    rw [List.findIdx?_eq_none_iff] at hfind
    exact absurd ((hleads slot hslot).mpr hid) (by rw [hfind slot hslot]; decide)
  | some idx =>
    obtain ⟨hidx, hleader, -⟩ := List.findIdx?_eq_some_iff_getElem.mp hfind
    refine ⟨idx, rfl, ?_⟩
    rw [← hstage.ids, List.getElem?_map, List.getElem?_eq_getElem hidx, Option.map_some,
      (hleads _ (List.getElem_mem hidx)).mp hleader]

/-- A call makes a proposal, which comes to all nodes, and turns to the loop. -/
theorem drive_eq (hdistinct : vs.validators.Nodup)
    (hstage : Stage vs (fun id s inbox => Ready vs key v w id s ∧ inbox = []) h.slots)
    (handle : CheckpointHandle) (times : Nat → NodeId → Nat → Moment) :
    ∃ idx block slots, vs.validators[idx]? = some block.proposer ∧ Proposed vs key v block ∧
      Stage vs (Voting vs key v block .prepare 1) slots ∧
      h.driveCheckpoint handle times = (pump idx times h.maxSteps h.maxSteps slots).map fun r =>
        (r.1, { h with checkpointRound := h.checkpointRound + 1, slots := r.2 }) := by
  obtain ⟨idx, hfind, hidx⟩ := findLeaderIdx_eq hstage
  obtain ⟨leader, hleader, hat, hid⟩ := hstage.slot_of hidx
  obtain ⟨hready, hempty⟩ := hstage.all leader hleader
  obtain ⟨block, msg, s', hsubmit, hpropose, hproposer, hmsg, hblock, hrecent, hready', hpending⟩ :=
    hready.proposes hid (HotStuffCheckpointProvider.encodeHandle leader.nodeId handle)
      (times 0 leader.nodeId 0)
  have hset : Stage vs (fun id s inbox => Enters vs key v block .prepare id s ∧ inbox = [])
      (h.slots.set idx { leader with state := s' }) := by
    refine hstage.set hdistinct hat ⟨hready'.enters hrecent fun _ => hpending, hempty⟩ ?_
    rintro id s inbox hother ⟨hready, hnil⟩
    exact ⟨hready.enters hrecent fun heq => absurd (heq.trans hproposer) hother, hnil⟩
  have hidx : vs.validators[idx]? = some block.proposer := by rw [hidx, hproposer, hid]
  obtain ⟨slot, -, hslot, -⟩ := hset.slot_of hidx
  obtain ⟨sent, hbroadcast, hdeliver⟩ :=
    send_all (hset.nodup hdistinct) hslot (fun x hx => (hset.all x hx).2) msg
  have hall : Stage vs (Voting vs key v block .prepare 1)
      (mailed (fun _ => [msg]) (h.slots.set idx { leader with state := s' })) := by
    refine hset.mailed ?_
    rintro id s inbox ⟨henters, rfl⟩
    refine ⟨henters, rfl, fun other hother => ?_⟩
    rw [List.mem_singleton.mp hother]
    exact hmsg
  refine ⟨idx, block, _, hidx, hblock, hall, ?_⟩
  have hfind : ({ h with checkpointRound := h.checkpointRound + 1 } :
      MultiNodeBftHarness).findLeaderIdx = some idx := hfind
  unfold MultiNodeBftHarness.driveCheckpoint
  simp only [hfind, hat, hsubmit, hpropose, Option.bind_eq_bind, Option.bind_some, hbroadcast,
    hdeliver, not_true, if_false]
  cases pump idx times h.maxSteps h.maxSteps _ <;> rfl

/-- Up to 256 nodes commit the checkpoint, and are ready for the next one. -/
theorem ready_drive (hsound : SignsSoundly key) (hdistinct : vs.validators.Nodup)
    (hn : vs.n ≤ inboxCapacity) (hview : v.toNat + 1 < 2 ^ 64) (hsteps : h.maxSteps = 512)
    (hstage : Stage vs (fun id s inbox => Ready vs key v w id s ∧ inbox = []) h.slots)
    (handle : CheckpointHandle) (times : Nat → NodeId → Nat → Moment) :
    ∃ qc h', h.driveCheckpoint handle times = some (.ok qc, h') ∧ Valid vs key qc ∧
      qc.phase = .commit ∧ h'.maxSteps = 512 ∧
      Stage vs (fun id s inbox => Ready vs key (v + 1) v id s ∧ inbox = []) h'.slots := by
  obtain ⟨idx, block, slots, hidx, hblock, hvoting, hdrive⟩ :=
    drive_eq hdistinct hstage handle times
  rw [hsteps] at hdrive
  -- Only where there is another node than the leader the next leader matters.
  have hnext : ∀ i ∈ vs.validators, i ≠ block.proposer →
      leaderForView (v + 1) vs ≠ leaderForView v vs := by
    intro i hi hother
    refine leaderForView_succ_ne hdistinct ?_ hview
    have hcard : ({i, block.proposer} : Finset NodeId).card ≤ vs.members.card := by
      refine Finset.card_le_card fun j hj => List.mem_toFinset.mpr ?_
      rcases Finset.mem_insert.mp hj with rfl | hj
      · exact hi
      · rw [Finset.mem_singleton.mp hj, hblock.proposer]
        exact leader_mem vs v
    rw [Finset.card_pair hother] at hcard
    exact hcard.trans (List.toFinset_card_le _)
  -- Six of the 512 rounds are used.
  obtain ⟨k₁, slots₁, hprepare, hk₁, hquorums₁, hvoting₁⟩ := phase_step times 512 510 hsound
    hdistinct hblock hidx (.inl rfl) one_ne_zero (by rwa [Nat.mul_one]) hvoting
  have hnone : 0 * vs.quorumSize ≤ vs.n * k₁ := by simp
  have hvotes₁ := (phases_fit hn hquorums₁ hnone).1
  obtain ⟨k₂, slots₂, hpreCommit, hk₂, hquorums₂, hvoting₂⟩ := phase_step times 512 508 hsound
    hdistinct hblock hidx (.inr rfl) hk₁ hvotes₁ hvoting₁
  have hvotes₂ := (phases_fit hn hquorums₁ hquorums₂).2
  obtain ⟨qc, slots₃, hcommit, hvalid, hphase, hready⟩ := commit_step times 512 506 hsound
    hdistinct hblock hidx hnext hk₂ hvotes₂ hvoting₂
  rw [hprepare, hpreCommit, hcommit] at hdrive
  exact ⟨qc, _, hdrive, hvalid, hphase, rfl, hready⟩

/-- With more nodes, the first votes do not fit into the inbox of the leader. -/
theorem ready_blocks (hsound : SignsSoundly key) (hdistinct : vs.validators.Nodup)
    (hn : inboxCapacity < vs.n) (hsteps : h.maxSteps = 512)
    (hstage : Stage vs (fun id s inbox => Ready vs key v w id s ∧ inbox = []) h.slots)
    (handle : CheckpointHandle) (times : Nat → NodeId → Nat → Moment) :
    h.driveCheckpoint handle times = none := by
  obtain ⟨idx, block, slots, hidx, hblock, hvoting, hdrive⟩ :=
    drive_eq hdistinct hstage handle times
  obtain ⟨votes, slots₁, hvote, -⟩ :=
    vote_step times 512 511 hsound hdistinct hblock hidx (.inl rfl)
    one_ne_zero hvoting
  rw [Nat.mul_one, if_neg (Nat.not_le.mpr hn)] at hvote
  rw [hdrive, hsteps, hvote]
  rfl

/-! ## The beginning -/

variable {fromSeed : List.Vector UInt8 32 → Identity} {nodeCount quorum : Nat} {now : NodeId → Nat}

omit [Ed25519] in
theorem nodeIds_length (nodeCount : Nat) : (nodeIds nodeCount).length = nodeCount % 2 ^ 32 := by
  rw [nodeIds, List.length_map, List.length_range]

omit [Ed25519] in
theorem nodeIds_nodup (nodeCount : Nat) : (nodeIds nodeCount).Nodup := by
  refine List.Nodup.map_on (fun i hi j hj heq => ?_) List.nodup_range
  have hi := List.mem_range.mp hi
  have hj := List.mem_range.mp hj
  have hlt : nodeCount % 2 ^ 32 < 2 ^ 32 := Nat.mod_lt _ (by decide)
  have heq := congrArg UInt32.toNat heq
  rw [UInt32.toNat_ofNat', UInt32.toNat_ofNat', Nat.mod_eq_of_lt (by omega),
    Nat.mod_eq_of_lt (by omega)] at heq
  omega

theorem peerId_registerIdentity (k : ValidatorKeyring) (i j : NodeId) (identity : Identity) :
    (k.registerIdentity i identity).peerId j =
      if i = j then some identity.peerId else k.peerId j := by
  unfold ValidatorKeyring.peerId ValidatorKeyring.registerIdentity
  simp only [ExtTreeMap.getElem?_insert, Std.compare_eq_iff_eq]
  split_ifs <;> rfl

/-- Keys that are registered are known, and nothing else changes. -/
theorem registered {pairs : List (NodeId × Identity)} (hpairs : ∀ p ∈ pairs, p.2 = key p.1)
    (s : HotStuffState) :
    ∃ keyring, pairs.foldl (fun s p => s.registerPeerIdentity p.1 p.2) s =
        { s with keyring := keyring } ∧
      ∀ i, i ∈ pairs.map Prod.fst ∨ s.keyring.peerId i = some (key i).peerId →
        keyring.peerId i = some (key i).peerId := by
  induction pairs generalizing s with
  | nil => exact ⟨s.keyring, rfl, fun i hi => hi.resolve_left nofun⟩
  | cons p rest ih =>
    obtain ⟨keyring, hfold, hknown⟩ := ih (fun q hq => hpairs q (List.mem_cons_of_mem _ hq))
      (s.registerPeerIdentity p.1 p.2)
    refine ⟨keyring, hfold, fun i hi => hknown i ?_⟩
    by_cases hrest : i ∈ rest.map Prod.fst
    · exact .inl hrest
    · right
      rw [registerPeerIdentity, peerId_registerIdentity]
      by_cases hsame : p.1 = i
      · rw [if_pos hsame, hpairs p List.mem_cons_self, hsame]
      · rw [if_neg hsame]
        refine hi.resolve_left fun hmem => ?_
        rcases List.mem_cons.mp hmem with heq | hmem
        · exact hsame heq.symm
        · exact hrest hmem

/-- After all identities have been registered the nodes are ready. -/
theorem ready_new (hnew : MultiNodeBftHarness.new fromSeed nodeCount quorum now = some h)
    (hne : nodeIds nodeCount ≠ []) :
    Stage ⟨nodeIds nodeCount, hne⟩ (fun id s inbox =>
      Ready ⟨nodeIds nodeCount, hne⟩ (testIdentity fromSeed) 0 0 id s ∧ inbox = [])
      (h.registerAllPeerIdentities fromSeed).slots ∧
      (h.registerAllPeerIdentities fromSeed).maxSteps = 512 := by
  unfold MultiNodeBftHarness.new at hnew
  split_ifs at hnew with hcounts
  obtain rfl := Option.some.inj hnew
  refine ⟨?_, rfl⟩
  unfold MultiNodeBftHarness.registerAllPeerIdentities
  simp only [List.map_map, Function.comp_def]
  constructor
  · rw [List.map_map]
    exact List.map_id _
  · intro slot hslot
    obtain ⟨id, hid, rfl⟩ := List.mem_map.mp hslot
    rfl
  · intro slot hslot
    obtain ⟨id, hid, rfl⟩ := List.mem_map.mp hslot
    refine ⟨?_, rfl⟩
    dsimp only
    have hpairs : ∀ p ∈ ((nodeIds nodeCount).map fun i => (i, testIdentity fromSeed i)).filter
        fun p => p.1 ≠ id, p.2 = testIdentity fromSeed p.1 := by
      intro p hp
      obtain ⟨i, -, rfl⟩ := List.mem_map.mp (List.mem_of_mem_filter hp)
      rfl
    obtain ⟨keyring, hfold, hknown⟩ := registered hpairs
      (.withIdentity id ⟨nodeIds nodeCount, hne⟩ (testIdentity fromSeed id) (now id))
    rw [hfold]
    refine ⟨⟨hid, rfl, rfl, fun i hi => hknown i ?_, rfl⟩, rfl, rfl, rfl, rfl, .inl rfl, ?_, ?_⟩
    · by_cases hself : i = id
      · right
        rw [hself, HotStuffState.withIdentity, peerId_registerIdentity, if_pos rfl]
      · left
        refine List.mem_map.mpr ⟨(i, testIdentity fromSeed i), ?_, rfl⟩
        exact List.mem_filter.mpr ⟨List.mem_map_of_mem hi, by simpa using hself⟩
    · exact UInt64.le_refl _
    · exact UInt64.le_refl _

/-! ## Runs -/

structure CheckpointCall where
  handle : CheckpointHandle
  moment : Nat → NodeId → Nat → Moment

/-- A node with these validators that knows their keys. -/
structure Knows (fromSeed : List.Vector UInt8 32 → Identity) (ids : List NodeId)
    (state : HotStuffState) : Prop where
  validators : state.validators.validators = ids
  keys : ∀ id ∈ ids, state.keyring.peerId id = some (testIdentity fromSeed id).peerId

/-- All nodes are in the same view, and know each other. -/
structure InStep (fromSeed : List.Vector UInt8 32 → Identity) (ids : List NodeId)
    (h : MultiNodeBftHarness) : Prop where
  nodes : h.slots.map NodeSlot.nodeId = ids
  view : ∃ view, ∀ slot ∈ h.slots, slot.state.view = view
  knows : ∀ slot ∈ h.slots, Knows fromSeed ids slot.state

/-- Every call returns a certificate that everyone who knows the validators takes. -/
def Commits (fromSeed : List.Vector UInt8 32 → Identity) (ids : List NodeId) :
    List CheckpointCall → MultiNodeBftHarness → Prop
  | [], _ => True
  | c :: calls, h => ∃ qc h', h.driveCheckpoint c.handle c.moment = some (.ok qc, h') ∧
      InStep fromSeed ids h' ∧
      (∀ state, Knows fromSeed ids state →
        HotStuffCheckpointProvider.verifyCheckpointQc state c.handle qc = true) ∧
      Commits fromSeed ids calls h'

theorem Valid.taken (hsound : SignsSoundly (testIdentity fromSeed))
    (hvalid : Valid vs (testIdentity fromSeed) qc) (hphase : qc.phase = .commit)
    {state : HotStuffState} (hknows : Knows fromSeed vs.validators state)
    (handle : CheckpointHandle) :
    HotStuffCheckpointProvider.verifyCheckpointQc state handle qc = true := by
  unfold HotStuffCheckpointProvider.verifyCheckpointQc
  have hn : state.validators.n = vs.n := congrArg List.length hknows.validators
  rw [if_neg (fun h => hvalid.signatures_ne_nil (List.isEmpty_iff.mp h)), hn, hvalid.quorum,
    if_neg (by decide), if_neg (not_not.mpr hphase)]
  exact List.all_eq_true.mpr (hvalid.verifies hsound hknows.keys)

theorem inStep_of_ready (hstage : Stage vs (fun id s inbox =>
    Ready vs (testIdentity fromSeed) v w id s ∧ inbox = []) h.slots) :
    InStep fromSeed vs.validators h where
  nodes := hstage.ids
  view := ⟨v, fun slot hslot => (hstage.all slot hslot).1.view⟩
  knows slot hslot := by
    have hmember := (hstage.all slot hslot).1.member
    exact ⟨by rw [hmember.validators], hmember.keys⟩

/-- Up to 256 nodes commit one checkpoint after the other. -/
theorem commits_of_ready (hsound : SignsSoundly (testIdentity fromSeed))
    (hdistinct : vs.validators.Nodup) (hn : vs.n ≤ inboxCapacity) (calls : List CheckpointCall)
    (hview : v.toNat + calls.length < 2 ^ 64) (hsteps : h.maxSteps = 512)
    (hstage : Stage vs (fun id s inbox => Ready vs (testIdentity fromSeed) v w id s ∧ inbox = [])
      h.slots) : Commits fromSeed vs.validators calls h := by
  induction calls generalizing h v w with
  | nil => trivial
  | cons c calls ih =>
    rw [List.length_cons] at hview
    obtain ⟨qc, h', hdrive, hvalid, hphase, hsteps', hready⟩ := ready_drive hsound hdistinct hn
      (by omega) hsteps hstage c.handle c.moment
    refine ⟨qc, h', hdrive, inStep_of_ready hready,
      fun state hknows => hvalid.taken hsound hphase hknows c.handle, ih ?_ hsteps' hready⟩
    have hsucc : (v + 1).toNat = v.toNat + 1 := by
      rw [UInt64.toNat_add, UInt64.toNat_one, Nat.mod_eq_of_lt (by omega)]
    omega

/-- The clusters of honest nodes that commit all their checkpoints are those of up to 256 nodes. In
a larger one the votes of the first round do not fit into the inbox of the leader, and the harness
waits for ever. The ids of nodes have 32 bits, and the views 64. -/
theorem checkpoints_commit_iff (hsound : SignsSoundly (testIdentity fromSeed))
    (hnew : MultiNodeBftHarness.new fromSeed nodeCount quorum now = some h)
    (calls : List CheckpointCall) (hcalls : calls.length < 2 ^ 64) :
    Commits fromSeed (nodeIds nodeCount) calls (h.registerAllPeerIdentities fromSeed) ↔
      calls = [] ∨ 1 ≤ nodeCount % 2 ^ 32 ∧ nodeCount % 2 ^ 32 ≤ 256 := by
  have hlength := nodeIds_length nodeCount
  have hdistinct := nodeIds_nodup nodeCount
  cases calls with
  | nil => exact ⟨fun _ => .inl rfl, fun _ => trivial⟩
  | cons c calls =>
    by_cases hempty : nodeIds nodeCount = []
    · -- Without nodes there is no leader.
      rw [hempty, List.length_nil] at hlength
      refine ⟨fun hcommits => ?_, fun hcount => ?_⟩
      · obtain ⟨qc, h', hdrive, -⟩ := hcommits
        unfold MultiNodeBftHarness.new at hnew
        split_ifs at hnew with hcounts
        obtain rfl := Option.some.inj hnew
        cases hdrive
      · rcases hcount with hnil | hcount
        · cases hnil
        · omega
    · obtain ⟨hstage, hsteps⟩ := ready_new hnew hempty
      have hn : (⟨nodeIds nodeCount, hempty⟩ : ValidatorSet).n = nodeCount % 2 ^ 32 := hlength
      have hpos := ValidatorSet.n_pos ⟨nodeIds nodeCount, hempty⟩
      rw [hn] at hpos
      by_cases hroom : nodeCount % 2 ^ 32 ≤ inboxCapacity
      · refine ⟨fun _ => .inr ⟨hpos, hroom⟩, fun _ => ?_⟩
        exact commits_of_ready hsound hdistinct (hn ▸ hroom) _ (by simpa using hcalls) hsteps hstage
      · refine ⟨fun hcommits => ?_, fun hcount => ?_⟩
        · obtain ⟨qc, h', hdrive, -⟩ := hcommits
          rw [ready_blocks hsound hdistinct (by rw [hn]; exact Nat.not_le.mp hroom) hsteps
            hstage] at hdrive
          cases hdrive
        · rcases hcount with hnil | hcount
          · cases hnil
          · exact absurd hcount.2 hroom

end Phases

namespace Demo

attribute [local instance] Bft.Demo.plainEd25519

/-- The seed twice. -/
def fromSeed (seed : List.Vector UInt8 32) : Identity := ⟨⟨seed.toList ++ seed.toList, by simp⟩⟩

def call (frameN : UInt64) : CheckpointCall :=
  ⟨⟨frameN, .replicate 32 0⟩, fun _ _ _ => ⟨0, .replicate 16 0⟩⟩

theorem signsSoundly : SignsSoundly (testIdentity fromSeed) :=
  fun _ _ _ => beq_self_eq_true _

theorem checkpoints_commit_four :
    ∃ h, MultiNodeBftHarness.new fromSeed 4 3 (fun _ => 0) = some h ∧
      Commits fromSeed (nodeIds 4) [call 0, call 30] (h.registerAllPeerIdentities fromSeed) := by
  have hnew : MultiNodeBftHarness.new fromSeed 4 3 (fun _ => 0) = some _ := if_pos (by decide)
  exact ⟨_, hnew, (checkpoints_commit_iff signsSoundly hnew [call 0, call 30] (by decide)).mpr
    (.inr (by decide))⟩

/-- A cluster of 257 nodes is accepted, and never commits. -/
theorem never_returns :
    ∃ h, MultiNodeBftHarness.new fromSeed 257 171 (fun _ => 0) = some h ∧
      (h.registerAllPeerIdentities fromSeed).driveCheckpoint (call 0).handle
      (call 0).moment = none ∧
      ¬ Commits fromSeed (nodeIds 257) [call 0] (h.registerAllPeerIdentities fromSeed) := by
  have hnew : MultiNodeBftHarness.new fromSeed 257 171 (fun _ => 0) = some _ := if_pos (by decide)
  refine ⟨_, hnew, ?_⟩
  have hlength := nodeIds_length 257
  have hne : nodeIds 257 ≠ [] := List.ne_nil_of_length_pos (by rw [hlength]; decide)
  obtain ⟨hstage, hsteps⟩ := ready_new hnew hne
  have hmany : inboxCapacity < (⟨nodeIds 257, hne⟩ : ValidatorSet).n := by
    rw [ValidatorSet.n, hlength]
    decide
  have hnone := ready_blocks signsSoundly (nodeIds_nodup 257) hmany hsteps hstage (call 0).handle
    (call 0).moment
  refine ⟨hnone, ?_⟩
  rintro ⟨qc, h', hdrive, -⟩
  rw [hnone] at hdrive
  cases hdrive

end Demo

end P2P333.Platform333.Netcode
