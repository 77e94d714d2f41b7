import P2P333.Transfer333.Recovery

/-!
# Compaction

What a snapshot keeps and what it forgets. It has the ledger, the locks, the confirmed slots and the
epoch number, but not the committee id: recovery takes that one from the constructor.

Results:
1. `Authority.answers_withLastCert`: no later answer depends on the last epoch certificate, which a
   snapshot forgets as well.
2. `compaction_transparent`: a compacted log recovers to an authority that answers every later call
   as the live one does, exactly when the live one still has the committee id it was constructed
   with and has not fail-stopped.
-/

namespace P2P333.Transfer333

open Std Lib

section Compaction

variable [Crypto]

/-! ## Later calls -/

/-- The calls that a compaction must not be visible to. -/
inductive Call where
  | handle (order : SignedTransfer) (io : Io)
  | confirm (verified : Verified) (committee : Committee) (io : Io)
  | fence (proposal : EpochProposal) (io : Io)
  | installEpochCert (cert : EpochCert) (old : Committee) (io : Io)

/-- What a call of the authority returns. -/
inductive Answer where
  | handled (r : Except AuthorityError Vote)
  | confirmed (r : Except ConfirmError ConfirmOutcome)
  | fenced (r : Except EpochError FenceOutcome)
  | installed (r : Except EpochError InstallOutcome)

namespace Authority

def call (x : Authority) : Call → Answer × Authority
  | .handle order io => (x.handle order io).map .handled fun y => y
  | .confirm verified committee io => (x.confirm verified committee io).map .confirmed fun y => y
  | .fence proposal io => (x.fence proposal io).map .fenced fun y => y
  | .installEpochCert cert old io => (x.installEpochCert cert old io).map .installed fun y => y

/-- The answers to a sequence of calls. -/
def answers (x : Authority) : List Call → List Answer
  | [] => []
  | c :: calls => (x.call c).1 :: (x.call c).2.answers calls

/-- The same authority with another last certificate, which no call reads. -/
abbrev withLastCert (x : Authority) (c : Option EpochCert) : Authority :=
  { x with lastEpochCert := c }

section LastCert

variable (x : Authority) (c : Option EpochCert)

theorem handleOpen_withLastCert (order : SignedTransfer) (io : Io) :
    (x.withLastCert c).handleOpen order io =
      ((x.handleOpen order io).1, (x.handleOpen order io).2.withLastCert c) := by
  simp only [handleOpen, withLastCert]
  cases order.verify x.policy with
  | error e => rfl
  | ok _ =>
    cases x.locked[slot order]? with
    | some previous =>
      by_cases h : previous = order
      · simp [h]
        rfl
      · simp [h]
    | none =>
      by_cases hacc : x.ledger.containsAccount order.transfer.sender = false
      · simp only [if_pos hacc]
      · by_cases hzero : order.transfer.amount = 0
        · simp only [if_neg hacc, if_pos hzero]
        · simp only [if_neg hacc, if_neg hzero]
          cases x.ledger.preflight order.transfer with
          | error e => rfl
          | ok _ =>
            simp only [lockAndSign]
            cases io with
            | stored => rfl
            | failed e kept => simp only [journalAppend_failed]; rfl

theorem completeInstall_withLastCert :
    (x.withLastCert c).completeInstall = x.completeInstall.withLastCert c := by
  simp only [completeInstall, withLastCert]
  cases x.epochState <;> rfl

theorem handle_withLastCert (order : SignedTransfer) (io : Io) :
    (x.withLastCert c).handle order io =
      ((x.handle order io).1, (x.handle order io).2.withLastCert c) := by
  have hgate : (x.withLastCert c).gate = x.gate := rfl
  have hpoisoned : (x.withLastCert c).poisoned = x.poisoned := rfl
  unfold handle
  rw [hgate, hpoisoned]
  split_ifs
  · rfl
  · cases x.gate with
    | reject e => rfl
    | covered => rw [completeInstall_withLastCert]; exact handleOpen_withLastCert _ c order io
    | «open» => exact handleOpen_withLastCert x c order io

theorem applyOrder_withLastCert (order : SignedTransfer) (io : Io) :
    (x.withLastCert c).applyOrder order io =
      ((x.applyOrder order io).1, (x.applyOrder order io).2.withLastCert c) := by
  simp only [applyOrder, withLastCert]
  rcases x.ledger.apply order.transfer with ⟨_ | _, ledger⟩
  · rfl
  · cases io with
    | failed e kept => simp only [journalAppend_failed]; rfl
    | stored =>
      simp only [journalAppend_stored, withRecord, installCovered, completeInstall]
      cases x.epochState with
      | active => rfl
      | fencing p => rfl
      | installing cert next fd => cases hc : covers ledger cert.frontier <;> simp [hc]

theorem confirm_withLastCert (verified : Verified)
    (committee : Committee) (io : Io) :
    (x.withLastCert c).confirm verified committee io =
      ((x.confirm verified committee io).1,
      (x.confirm verified committee io).2.withLastCert c) := by
  have hchecks : (x.withLastCert c).confirmChecks verified committee true =
      x.confirmChecks verified committee true := rfl
  unfold confirm confirmImpl
  rw [hchecks, applyOrder_withLastCert]
  cases x.confirmChecks verified committee true with
  | error e => rfl
  | ok _ =>
    simp only [withLastCert]
    cases x.confirmed[(verified.order.transfer.sender, verified.order.transfer.fromSeq)]? with
    | none => rfl
    | some previous => by_cases h : previous = verified.order.orderId <;> simp [h]

theorem fence_withLastCert (proposal : EpochProposal)
    (io : Io) :
    (x.withLastCert c).fence proposal io =
      ((x.fence proposal io).1, (x.fence proposal io).2.withLastCert c) := by
  simp only [fence, withLastCert]
  split_ifs
  iterate 4 rfl
  cases Committee.withEpoch proposal.nextRoster x.policy proposal.epoch with
  | none => rfl
  | some next =>
    cases hs : x.epochState with
    | active =>
      cases io with
      | stored => simp only [fenceOn, hs]; rfl
      | failed e kept => simp only [fenceOn, hs, journalAppend_failed]; rfl
    | fencing p => by_cases h : p = proposal <;> simp [fenceOn, hs, h]
    | installing cert next fd => simp only [fenceOn, hs]

/-- An accepted certificate replaces the last one, so the other one is forgotten. -/
theorem acceptEpochCert_withLastCert (cert : EpochCert)
    (next : Committee) (io : Io) :
    ∃ c', (x.withLastCert c).acceptEpochCert cert next io =
      ((x.acceptEpochCert cert next io).1, (x.acceptEpochCert cert next io).2.withLastCert c') := by
  cases hidle : x.epochState.isInstalling with
  | false =>
    cases io with
    | failed e kept =>
      rw [acceptEpochCert_failed hidle, acceptEpochCert_failed (x := x.withLastCert c) hidle]
      exact ⟨c, rfl⟩
    | stored =>
      rw [acceptEpochCert_stored hidle, acceptEpochCert_stored (x := x.withLastCert c) hidle]
      split_ifs <;> exact ⟨some cert, rfl⟩
  | true =>
    cases hs : x.epochState with
    | installing existing existingNext fd =>
      simp only [acceptEpochCert, withLastCert, hs]
      split_ifs <;> exact ⟨c, by simp only [hs]⟩
    | _ => rw [hs] at hidle; cases hidle

theorem installEpochCert_withLastCert (cert : EpochCert)
    (old : Committee) (io : Io) :
    ∃ c', (x.withLastCert c).installEpochCert cert old io =
      ((x.installEpochCert cert old io).1, (x.installEpochCert cert old io).2.withLastCert c') := by
  simp only [installEpochCert]
  split_ifs
  iterate 3 exact ⟨c, rfl⟩
  cases Committee.withEpoch cert.nextRoster x.policy cert.epoch with
  | none => exact ⟨c, rfl⟩
  | some next =>
    dsimp only
    cases checkEpochVotes x.committeeId cert next.id old with
    | error e => exact ⟨c, rfl⟩
    | ok _ => exact x.acceptEpochCert_withLastCert c cert next io

theorem call_withLastCert (k : Call) :
    ∃ c', (x.withLastCert c).call k = ((x.call k).1, (x.call k).2.withLastCert c') := by
  cases k with
  | handle order io => exact ⟨c, by simp only [call, handle_withLastCert]; rfl⟩
  | confirm verified committee io => exact ⟨c, by simp only [call, confirm_withLastCert]; rfl⟩
  | fence proposal io => exact ⟨c, by simp only [call, fence_withLastCert]; rfl⟩
  | installEpochCert cert old io =>
    obtain ⟨c', h⟩ := x.installEpochCert_withLastCert c cert old io
    exact ⟨c', by simp only [call, h]; rfl⟩

theorem answers_withLastCert (calls : List Call) :
    (x.withLastCert c).answers calls = x.answers calls := by
  induction calls generalizing x c with
  | nil => rfl
  | cons k calls ih =>
    obtain ⟨c', h⟩ := x.call_withLastCert c k
    simp only [answers, h, ih]

end LastCert

end Authority

/-! ## What the snapshot keeps -/

/-- `y` agrees with `x` and cannot be told from it by any sequence of later calls. -/
structure Transparent (x y : Authority) : Prop where
  ledger : y.ledger = x.ledger
  locked : y.locked = x.locked
  confirmed : y.confirmed = x.confirmed
  epoch : y.epoch = x.epoch
  committeeId : y.committeeId = x.committeeId
  answers : ∀ calls, y.answers calls = x.answers calls

omit [Crypto] in
/-- A successful compaction leaves the state and replaces the log by its snapshot. -/
theorem Authority.compactJournal_ok {x x' : Authority} {io : Io}
    (h : x.compactJournal io = (.ok (), x')) :
    io = .stored ∧ x.epochState = .active ∧
      x' = { x with journal := { x.journal with records := [.snapshot x.snapshotData] } } := by
  unfold compactJournal at h
  split at h
  · cases h
  · next hactive =>
    cases io with
    | stored =>
      cases h
      exact ⟨rfl, not_not.mp hactive, rfl⟩
    | failed e kept => cases kept <;> cases h

/-- A fail-stopped authority refuses a fence in a way that a running one never does. -/
theorem Authority.fence_ne_poisoned {x : Authority} (hp : x.poisoned = false)
    (hactive : x.epochState = .active) :
    (x.fence ⟨x.policy.networkId, x.policy.id, x.epoch + 2, []⟩ .stored).1 ≠ .error .poisoned := by
  have hepoch : x.epoch + 2 ≠ x.epoch + 1 := by
    intro h
    bv_omega
  unfold fence
  simp only [hp, hactive, EpochState.isInstalling, if_pos hepoch]
  intro h
  cases h

/-- Compaction is transparent exactly when the authority still has the committee id it was
constructed with and has not fail-stopped. -/
theorem compaction_transparent {cfg : Config} {n : Node}
    (h : Reachable (Node.step cfg) (fun _ _ => True) (.start cfg) n) {io : Io} {x : Authority}
    (hc : n.live.compactJournal io = (.ok (), x)) :
    ∃ y, cfg.recover x.journal = .ok y ∧
      (Transparent x y ↔ n.live.committeeId = cfg.committeeId ∧ n.live.poisoned = false) := by
  obtain ⟨rfl, hactive, hx⟩ := Authority.compactJournal_ok hc
  have hbase := Node.base_of_reachable h
  have hwf := hbase.wf
  have hempty : cfg.replay [] = .ok cfg.authority := rfl
  have hreplay : cfg.replay [.snapshot n.live.snapshotData] = .ok (Node.restored cfg n.live) :=
    Config.replay_append hempty (Authority.replayRecord_snapshotData hwf cfg.authority)
  have hjournal : x.journal.identity = some cfg.identity ∧
      x.journal.records = [.snapshot n.live.snapshotData] := by
    rw [hx]
    exact ⟨hbase.identity, rfl⟩
  refine ⟨(Node.restored cfg n.live).withJournalOf x.journal, ?_, ?_, ?_⟩
  · rw [cfg.recover_eq hjournal.1, hjournal.2, hreplay]
    rfl
  · intro ht
    refine ⟨?_, ?_⟩
    · have hcid := ht.committeeId
      rw [hx] at hcid
      exact hcid.symm
    · -- otherwise a fence tells the two apart
      by_contra hp
      rw [Bool.not_eq_false] at hp
      have hfence := ht.answers [.fence ⟨cfg.policy.networkId, cfg.policy.id, n.live.epoch + 2, []⟩
        .stored]
      simp only [Authority.answers, Authority.call, Prod.map, List.cons.injEq, Answer.fenced.injEq,
        and_true] at hfence
      refine Authority.fence_ne_poisoned
        (x := (Node.restored cfg n.live).withJournalOf x.journal) rfl rfl (hfence.trans ?_)
      rw [hx]
      simp only [Authority.fence, hp, if_true]
  · rintro ⟨hcid, hp⟩
    have hy : (Node.restored cfg n.live).withJournalOf x.journal = x.withLastCert none := by
      rw [hx]
      simp only [Authority.withJournalOf, Node.restored, hwf.id, hwf.signing, hwf.policy, hcid,
        hactive, hp]
      rfl
    rw [hy]
    exact ⟨rfl, rfl, rfl, rfl, rfl, x.answers_withLastCert none⟩

end Compaction

namespace Demo

/-- The only member of `solo` hands over to `quad`. -/
def soloHandover : EpochCert :=
  certifyEpoch solo quad quadRoster soloRoster 1 [(alice, 0), (bob, 0)]

end Demo

open Demo in
/-- Before any epoch change the condition is met: the log of a member that has voted for and applied
an order is compacted without a trace. -/
theorem compaction_transparent_demo :
    ∃ n, Reachable (Node.step (config a3 (key 3) solo)) (fun _ _ => True)
      (.start (config a3 (key 3) solo)) n ∧ n.live.confirmed.size = 1 ∧
      ∃ x y, n.live.compactJournal .stored = (.ok (), x) ∧
        (config a3 (key 3) solo).recover x.journal = .ok y ∧ Transparent x y := by
  obtain ⟨n, hn, hsize, hcid, hp, hok⟩ : ∃ n, Reachable (Node.step (config a3 (key 3) solo))
      (fun _ _ => True) (.start (config a3 (key 3) solo)) n ∧ n.live.confirmed.size = 1 ∧
      n.live.committeeId = solo.id ∧ n.live.poisoned = false ∧
      (n.live.compactJournal .stored).1 = .ok () :=
    Reachable.of_exec (promptRun.take 2) (by decide +kernel)
  obtain ⟨y, hy, hiff⟩ := compaction_transparent hn (Prod.ext hok rfl)
  exact ⟨n, hn, hsize, _, y, Prod.ext hok rfl, hy, hiff.mpr ⟨hcid, hp⟩⟩

open Demo in
/-- After an epoch change the compacted log puts the authority back under the old committee. -/
theorem compaction_forgets_committee :
    ∃ n, Reachable (Node.step (config a3 (key 3) solo))
      (fun _ op => op = .installEpochCert soloHandover solo .stored)
      (.start (config a3 (key 3) solo)) n ∧
      (n.live.compactJournal .stored).1 = .ok () ∧ n.live.committeeId = quad.id ∧
      ((config a3 (key 3) solo).recover (n.live.compactJournal .stored).2.journal).map
        (·.committeeId) = .ok solo.id ∧ quad.id ≠ solo.id :=
  Reachable.of_exec [.installEpochCert soloHandover solo .stored] (by decide +kernel)

end P2P333.Transfer333
