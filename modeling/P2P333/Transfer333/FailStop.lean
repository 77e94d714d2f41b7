import P2P333.Transfer333.Recovery

/-!
# Errors: rejections and failed writes

What an authority does when it has to say no, and what it may still sign after a write has failed.

Results:
1. `rejections_change_nothing`: a rejected `handle` or `confirm` leaves the state alone, except that
   `handle` on a covered install completes it before it looks at the order.
2. `signatures_backed`: votes, attestations and epoch votes are reproduced by the records that were
   stored when they were signed, with the exact condition: `sign_epoch_vote` is not called after a
   `confirm` whose write failed.
-/

namespace P2P333.Transfer333

open Std Lib

section Rejections

variable [Crypto]

/-! ## Rejections -/

namespace Authority

/-- The same ledger, locks, confirmed slots, epoch, trust root, epoch state, fail-stop flag and
journal. -/
structure Unchanged (x y : Authority) : Prop where
  ledger : y.ledger = x.ledger
  locked : y.locked = x.locked
  confirmed : y.confirmed = x.confirmed
  epoch : y.epoch = x.epoch
  committeeId : y.committeeId = x.committeeId
  epochState : y.epochState = x.epochState
  poisoned : y.poisoned = x.poisoned
  journal : y.journal = x.journal

omit [Crypto] in
theorem Unchanged.refl (x : Authority) : x.Unchanged x := ⟨rfl, rfl, rfl, rfl, rfl, rfl, rfl, rfl⟩

/-- Whatever `handle` and `confirm` reject, other than for a failed write, changes nothing. -/
structure RejectsInertly (x : Authority) : Prop where
  handle : ∀ order io e, (x.handle order io).1 = .error e → (∀ reason, e ≠ .journalFailed reason) →
    x.Unchanged (x.handle order io).2
  confirm : ∀ verified committee io e, (x.confirm verified committee io).1 = .error e →
    (∀ reason, e ≠ .journal reason) → x.Unchanged (x.confirm verified committee io).2

/-- No install waits to be completed by the next call of `handle`. -/
def Settled (x : Authority) : Prop := x.poisoned = true ∨ x.installCovered = false

instance (x : Authority) : Decidable x.Settled := inferInstanceAs (Decidable (_ ∨ _))

variable {x : Authority} {order : SignedTransfer}

theorem handleOpen_rejects (hp : x.poisoned = false)
    (hactive : x.epochState = .active) {io : Io} {e : AuthorityError}
    (he : (x.handleOpen order io).1 = .error e) (hne : ∀ reason, e ≠ .journalFailed reason) :
    (x.handleOpen order io).2 = x := by
  have hspec := handleOpen_spec hp hactive order io
  generalize x.handleOpen order io = r at hspec he
  cases hspec with
  | refused => rfl
  | held => rfl
  | stored => cases he
  | failed hcan e' kept hio =>
    cases he
    exact absurd rfl (hne e')

theorem handle_rejects (hs : x.Settled) {io : Io}
    {e : AuthorityError} (he : (x.handle order io).1 = .error e)
    (hne : ∀ reason, e ≠ .journalFailed reason) : (x.handle order io).2 = x := by
  unfold handle gate at he ⊢
  cases hp : x.poisoned with
  | true => simp
  | false =>
    have hc : x.installCovered = false := by
      rcases hs with hs | hs
      · rw [hp] at hs
        cases hs
      · exact hs
    cases hstate : x.epochState with
    | active =>
      simp only [hp, hstate] at he ⊢
      exact handleOpen_rejects hp hstate he hne
    | fencing p => simp
    | installing cert next fd => simp [hc]

theorem applyOrder_rejects {io : Io} {e : ConfirmError}
    (he : (x.applyOrder order io).1 = .error e) (hne : ∀ reason, e ≠ .journal reason) :
    (x.applyOrder order io).2 = x := by
  unfold applyOrder at he ⊢
  split at he
  · rfl
  · next ledger happly =>
    cases io with
    | stored => cases he
    | failed e' kept =>
      rw [journalAppend_failed] at he
      cases he
      exact absurd rfl (hne e')

theorem confirmImpl_rejects {verified : Verified} {committee : Committee}
    {member : Bool} {io : Io} {e : ConfirmError}
    (he : (x.confirmImpl verified committee member io).1 = .error e)
    (hne : ∀ reason, e ≠ .journal reason) : (x.confirmImpl verified committee member io).2 = x := by
  unfold confirmImpl at he ⊢
  cases hchecks : x.confirmChecks verified committee member with
  | error e' => rfl
  | ok _ =>
    simp only [hchecks] at he ⊢
    cases hprev :
        x.confirmed[(verified.order.transfer.sender, verified.order.transfer.fromSeq)]? with
    | some previous =>
      simp only
      split <;> rfl
    | none =>
      simp only [hprev] at he ⊢
      exact applyOrder_rejects he hne

/-- An order bound to some other policy. -/
theorem exists_unverified (p : TransferPolicy) :
    ∃ (order : SignedTransfer) (e : OwnerAuthError), order.verify p = .error e := by
  have : Nontrivial PolicyId := ⟨List.Vector.replicate 32 0, List.Vector.replicate 32 1, by decide⟩
  obtain ⟨d, hd⟩ := exists_ne p.id
  refine ⟨⟨p.networkId, d, ⟨p.networkId.value, 0, p.networkId.value, 0⟩, 0,
    List.Vector.replicate 64 0⟩, .wrongPolicy p.id d, ?_⟩
  simp [SignedTransfer.verify, TransferPolicy.validate, hd]

theorem not_rejectsInertly (h : ¬ x.Settled) : ¬ x.RejectsInertly := by
  intro hinert
  obtain ⟨hp, hc⟩ := not_or.mp h
  rw [Bool.not_eq_true] at hp
  rw [Bool.not_eq_false] at hc
  obtain ⟨cert, next, fd, hs, -⟩ := isInstalling_of_covered hc
  obtain ⟨order, e, he⟩ := exists_unverified x.policy
  have hpolicy : x.completeInstall.policy = x.policy := x.synced_completeInstall.policy
  have hhandle : x.handle order .stored = (.error (.ownerAuth e), x.completeInstall) := by
    simp only [handle, gate, hp, hs, hc, handleOpen, hpolicy, he, Bool.false_eq_true, if_false,
      if_true]
  have hsame := hinert.handle order .stored (.ownerAuth e) (by rw [hhandle]) nofun
  have hstate := hsame.epochState
  rw [hhandle, completeInstall_active, hs] at hstate
  cases hstate

end Authority

/-- Rejections leave every part of the state alone, in exactly the states in which no covered
install is waiting. -/
theorem rejections_change_nothing (x : Authority) :
    x.RejectsInertly ↔ x.poisoned = true ∨ x.installCovered = false := by
  constructor
  · intro h
    by_contra hs
    exact Authority.not_rejectsInertly hs h
  · intro hs
    refine ⟨fun order io e he hne => ?_, fun verified committee io e he hne => ?_⟩
    · rw [Authority.handle_rejects hs he hne]
      exact .refl x
    · have hsame : (x.confirm verified committee io).2 = x := Authority.confirmImpl_rejects he hne
      rw [hsame]
      exact .refl x

/-! ## Where such states come from -/

namespace Authority

end Authority

end Rejections

namespace Demo

/-- Alice's order with one byte of the owner's signature changed. -/
def forgedOrder : SignedTransfer := { toBob with ownerSignature := mix 64 [] }

end Demo

open Demo in
/-- The straggler of `lateRun` crashes and recovers. Its install is covered, so a forged order,
which it refuses, moves it to the next epoch and the next committee. -/
theorem rejection_completes_install :
    ∃ n, Reachable (Node.step (config a3 (key 3) quad)) (fun _ op => op ∈ lateRun ++ [.crash])
      (.start (config a3 (key 3) quad)) n ∧
      (n.live.handle forgedOrder .stored).1 = .error (.ownerAuth (.invalidOwnerSignature alice)) ∧
      n.live.epoch = 0 ∧ (n.live.handle forgedOrder .stored).2.epoch = 1 ∧
      ¬ n.live.Unchanged (n.live.handle forgedOrder .stored).2 := by
  obtain ⟨n, hn, hanswer, hepoch, hepoch'⟩ : ∃ n, Reachable (Node.step (config a3 (key 3) quad))
      (fun _ op => op ∈ lateRun ++ [.crash]) (.start (config a3 (key 3) quad)) n ∧
      (n.live.handle forgedOrder .stored).1 = .error (.ownerAuth (.invalidOwnerSignature alice)) ∧
      n.live.epoch = 0 ∧ (n.live.handle forgedOrder .stored).2.epoch = 1 :=
    Reachable.of_exec (lateRun ++ [.crash]) (by decide +kernel)
  refine ⟨n, hn, hanswer, hepoch, hepoch', ?_⟩
  intro hsame
  have := hsame.epoch
  rw [hepoch, hepoch'] at this
  cases this

section Backing

variable [Crypto]

/-! ## What is signed, and what is stored by then -/

/-- Recovery from the records reproduces what the event rests on: the lock behind a vote, the slot
behind an attestation, the sequence numbers in the frontier of an epoch vote. -/
def Backed (cfg : Config) (records : List JournalRecord) : Event → Prop
  | .voted v _ => ∃ y order, cfg.recover ⟨some cfg.identity, records⟩ = .ok y ∧
      y.locked[(v.transfer.sender, v.transfer.fromSeq, v.round)]? = some order ∧
      order.transfer = v.transfer ∧ order.round = v.round ∧ order.policyId = v.policyId ∧
      order.networkId = v.networkId
  | .attested a => ∃ y, cfg.recover ⟨some cfg.identity, records⟩ = .ok y ∧
      y.confirmed[(a.account, a.seq)]? = some a.orderId
  | .epochVoted v => ∃ y, cfg.recover ⟨some cfg.identity, records⟩ = .ok y ∧
      ∀ e ∈ v.frontier, y.ledger.nextSeq e.1 = e.2
  | .applied _ _ _ => True
  | .installed _ _ _ => True

/-- A node beside what its storage has acknowledged. `spilled` says that a `confirm` has moved the
ledger and failed to store it; `signed` pairs every event with the records acknowledged by then. -/
structure Audit where
  node : Node
  acked : List JournalRecord
  spilled : Bool
  signed : List (Event × List JournalRecord)
deriving DecidableEq

namespace Audit

def start (cfg : Config) : Audit := ⟨.start cfg, [], false, []⟩

/-- The records whose writes have succeeded. A failed append fail-stops, so an authority that is
running has had every append acknowledged, and what a recovery has read is stored. A compaction
reports for itself: it also runs on an authority that has fail-stopped. -/
def acknowledge (a : Audit) (n : Node) : Op → List JournalRecord
  | .compactJournal io =>
    if (a.node.live.compactJournal io).1 = .ok () then n.live.journal.records else a.acked
  | _ => if n.live.poisoned then a.acked else n.live.journal.records

def spill (a : Audit) (n : Node) : Op → Bool
  | .confirm _ _ _ _ _ => a.spilled || (!a.node.live.poisoned && n.live.poisoned)
  | .compactJournal io => a.spilled && !decide ((a.node.live.compactJournal io).1 = .ok ())
  | .crash => false
  | _ => a.spilled

def step (cfg : Config) (a : Audit) (op : Op) : Option Audit :=
  (Node.step cfg a.node op).map fun n =>
    { node := n
      acked := a.acknowledge n op
      spilled := a.spill n op
      signed := a.signed ++
        (n.history.drop a.node.history.length).map fun ev => (ev, a.acknowledge n op) }

end Audit

/-! ## A fail-stopped authority -/

namespace Node

/-- The state of a fail-stopped authority differs from the one before the call by the ledger at
most, and only if the call was a `confirm` whose write failed. -/
structure Stopped (n : Node) (op : Op) (x : Authority) : Prop where
  locked : x.locked = n.live.locked
  confirmed : x.confirmed = n.live.confirmed
  ledger : (x.ledger = n.live.ledger ∧
      ∀ cert verifier committee observer io, op = .confirm cert verifier committee observer io →
        n.live.poisoned = true) ∨
    (n.live.poisoned = false ∧
      (∃ cert verifier committee observer io, op = .confirm cert verifier committee observer io) ∧
      ∃ t, (n.live.ledger.apply t).1 = .ok () ∧ x.ledger = (n.live.ledger.apply t).2)

variable {n : Node}

omit [Crypto] in
theorem Stopped.same {op : Op} {x : Authority} (hlocked : x.locked = n.live.locked)
    (hconfirmed : x.confirmed = n.live.confirmed) (hledger : x.ledger = n.live.ledger)
    (hop : ∀ cert verifier committee observer io,
      op ≠ .confirm cert verifier committee observer io) : Stopped n op x :=
  ⟨hlocked, hconfirmed, .inl ⟨hledger, fun _ _ _ _ _ h => absurd h (hop _ _ _ _ _)⟩⟩

theorem stopped_handle {order : SignedTransfer} {io : Io}
    (hp : (n.live.handle order io).2.poisoned = true) :
    Stopped n (.handle order io) (n.live.handle order io).2 := by
  have hsame : Stopped n (.handle order io) n.live := .same rfl rfl rfl nofun
  unfold Authority.handle Authority.gate at hp ⊢
  cases hpn : n.live.poisoned with
  | true => simpa using hsame
  | false =>
    cases hs : n.live.epochState with
    | fencing p => simpa using hsame
    | active =>
      simp only [hpn, hs, Bool.false_eq_true, if_false] at hp ⊢
      have hspec := Authority.handleOpen_spec hpn hs order io
      generalize n.live.handleOpen order io = r at hspec hp
      cases hspec with
      | refused => exact hsame
      | held => exact hsame
      | stored => exact absurd (hpn.symm.trans hp) nofun
      | failed => exact .same rfl rfl rfl nofun
    | installing cert next fd =>
      cases hc : n.live.installCovered with
      | false => simpa using hsame
      | true =>
        simp only [hpn, hs, hc, Bool.false_eq_true, if_false, if_true] at hp ⊢
        obtain ⟨-, hledger, hlocked, hconfirmed⟩ := n.live.synced_completeInstall
        have hpn' : n.live.completeInstall.poisoned = false :=
          n.live.completeInstall_frame.2.trans hpn
        have hspec := Authority.handleOpen_spec hpn' n.live.completeInstall_active order io
        generalize n.live.completeInstall.handleOpen order io = r at hspec hp
        cases hspec with
        | refused => exact .same hlocked hconfirmed hledger nofun
        | held => exact .same hlocked hconfirmed hledger nofun
        | stored => exact absurd (hpn'.symm.trans hp) nofun
        | failed => exact .same hlocked hconfirmed hledger nofun

theorem stopped_confirm {cert : Certificate} {verifier committee : Committee}
    {observer : Bool} {io : Io} {v : Verified} (hv : cert.verify verifier = some v)
    (hp : (n.live.confirmImpl v committee (!observer) io).2.poisoned = true) :
    Stopped n (.confirm cert verifier committee observer io)
      (n.live.confirmImpl v committee (!observer) io).2 := by
  have hspec := n.live.confirmImpl_spec hv committee (!observer) io
  generalize n.live.confirmImpl v committee (!observer) io = r at hspec hp
  cases hspec with
  | refused => exact ⟨rfl, rfl, .inl ⟨rfl, fun _ _ _ _ _ _ => hp⟩⟩
  | already => exact ⟨rfl, rfl, .inl ⟨rfl, fun _ _ _ _ _ _ => hp⟩⟩
  | stored hcan =>
    simp only at hp
    split at hp
    · rw [(Authority.completeInstall_frame _).2] at hp
      exact absurd (hcan.unpoisoned.symm.trans hp) nofun
    · exact absurd (hcan.unpoisoned.symm.trans hp) nofun
  | failed hcan =>
    exact ⟨rfl, rfl, .inr ⟨hcan.unpoisoned, ⟨_, _, _, _, _, rfl⟩, _, hcan.admitted, rfl⟩⟩

theorem stopped_install {cert : EpochCert} {old : Committee} {io : Io}
    (hp : (n.live.installEpochCert cert old io).2.poisoned = true) :
    Stopped n (.installEpochCert cert old io) (n.live.installEpochCert cert old io).2 := by
  have hspec := n.live.installEpochCert_spec cert old io
  generalize n.live.installEpochCert cert old io = r at hspec hp
  cases hspec with
  | stored hacc hidle hy =>
    have hframe := (Authority.replayRecord_frame hy).2
    exact absurd (hacc.unpoisoned.symm.trans (hframe.symm.trans hp)) nofun
  | _ => exact .same rfl rfl rfl nofun

theorem stopped_fence {proposal : EpochProposal} {io : Io}
    (hp : (n.live.fence proposal io).2.poisoned = true) :
    Stopped n (.fence proposal io) (n.live.fence proposal io).2 := by
  have hspec := n.live.fence_spec proposal io
  generalize (n.live.fence proposal io).2 = x at hspec hp
  cases hspec with
  | stored hcan => exact absurd (hcan.unpoisoned.symm.trans hp) nofun
  | _ => exact .same rfl rfl rfl nofun

/-- A call that leaves the authority fail-stopped has not touched locks and confirmed slots. -/
theorem stopped_of_step {cfg : Config} {n' : Node} {op : Op} (hbase : Base cfg n)
    (h : step cfg n op = some n') (hp : n'.live.poisoned = true) : Stopped n op n'.live := by
  cases op with
  | handle order io => cases h; exact stopped_handle hp
  | confirm cert verifier committee observer io =>
    cases h
    unfold stepConfirm at hp ⊢
    split at hp
    · exact ⟨rfl, rfl, .inl ⟨rfl, fun _ _ _ _ _ _ => hp⟩⟩
    · next v hv => exact stopped_confirm hv hp
  | fence proposal io => cases h; exact stopped_fence hp
  | signEpochVote =>
    cases h
    unfold stepSignEpochVote
    split <;> exact .same rfl rfl rfl fun _ _ _ _ _ h => by cases h
  | installEpochCert cert old io => cases h; exact stopped_install hp
  | attest account seq =>
    cases h
    unfold stepAttest
    split <;> exact .same rfl rfl rfl fun _ _ _ _ _ h => by cases h
  | compactJournal io =>
    cases h
    simp only [Authority.compactJournal]
    split
    · exact .same rfl rfl rfl fun _ _ _ _ _ h => by cases h
    · split <;> exact .same rfl rfl rfl fun _ _ _ _ _ h => by cases h
  | crash =>
    obtain ⟨y, hy, hrec⟩ := hbase.recover_ok
    simp only [step, hrec, Option.some.injEq] at h
    subst h
    cases (hbase.recovered hy).2.1.symm.trans hp

/-- Only a recovery starts a fail-stopped authority again. -/
theorem poisoned_of_step {cfg : Config} {n' : Node} {op : Op} (h : step cfg n op = some n')
    (hop : op ≠ .crash) (hp : n.live.poisoned = true) : n'.live.poisoned = true := by
  cases op with
  | handle order io => cases h; simp [stepHandle, Authority.handle, hp]
  | confirm cert verifier committee observer io =>
    cases h
    unfold stepConfirm
    split
    · exact hp
    · simp [Authority.confirmImpl, Authority.confirmChecks, hp]
  | fence proposal io => cases h; simp [Authority.fence, hp]
  | signEpochVote =>
    cases h
    unfold stepSignEpochVote
    split <;> exact hp
  | installEpochCert cert old io =>
    cases h
    simp [stepInstall, Authority.installEpochCert, hp]
  | attest account seq =>
    cases h
    unfold stepAttest
    split <;> exact hp
  | compactJournal io =>
    cases h
    simp only [Authority.compactJournal]
    split
    · exact hp
    · split
      · rfl
      · exact hp
  | crash => exact absurd rfl hop

end Node

/-! ## The acknowledged records reproduce what can be signed -/

namespace Audit

/-- The ledger is the one that the acknowledged records lead to, or one transfer ahead of it. -/
def LedgerBacked (spilled : Bool) (y x : Authority) : Prop :=
  match spilled with
  | false => x.ledger = y.ledger
  | true => ∃ t, (y.ledger.apply t).1 = .ok () ∧ x.ledger = (y.ledger.apply t).2

/-- What the acknowledged records say about the live authority. -/
structure Kept (cfg : Config) (a : Audit) : Prop where
  running : a.node.live.poisoned = false →
    a.acked = a.node.live.journal.records ∧ a.spilled = false
  replays : ∃ y, cfg.replay a.acked = .ok y ∧ y.locked = a.node.live.locked ∧
    y.confirmed = a.node.live.confirmed ∧ LedgerBacked a.spilled y a.node.live

variable {cfg : Config}

/-- While the authority runs, its own log is what is acknowledged. -/
theorem Kept.of_running {a : Audit} (hbase : Node.Base cfg a.node)
    (hp : a.node.live.poisoned = false) (hacked : a.acked = a.node.live.journal.records)
    (hspilled : a.spilled = false) : Kept cfg a := by
  obtain ⟨y, hy, -, -, hsync⟩ := hbase.recovers
  refine ⟨fun _ => ⟨hacked, hspilled⟩, y, hacked ▸ hy, (hsync hp).locked, (hsync hp).confirmed, ?_⟩
  rw [hspilled]
  exact (hsync hp).ledger.symm

/-- Locks, slots and acknowledged records stay when a call leaves the authority fail-stopped. -/
theorem Kept.of_stopped {a : Audit} {n : Node} {op : Op} (h : Kept cfg a)
    (hp : n.live.poisoned = true) (hstop : Node.Stopped a.node op n.live)
    {signed : List (Event × List JournalRecord)}
    (hspill : a.spill n op = a.spilled ∨
      ∃ cert verifier committee observer io, op = .confirm cert verifier committee observer io) :
    Kept cfg ⟨n, a.acked, a.spill n op, signed⟩ := by
  obtain ⟨y, hy, hlocked, hconfirmed, hledger⟩ := h.replays
  refine ⟨fun hrun => absurd (hrun.symm.trans hp) nofun, y, hy, hlocked.trans hstop.locked.symm,
    hconfirmed.trans hstop.confirmed.symm, ?_⟩
  rcases hstop.ledger with ⟨hsame, hconf⟩ |
    ⟨hrun, ⟨cert, verifier, committee, observer, io, rfl⟩, t, hok, hmoved⟩
  · have hs : a.spill n op = a.spilled := by
      rcases hspill with hs | ⟨cert, verifier, committee, observer, io, rfl⟩
      · exact hs
      · simp [spill, hconf cert verifier committee observer io rfl]
    simp only [hs]
    cases hspilled : a.spilled with
    | false =>
      rw [hspilled] at hledger
      exact hsame.trans hledger
    | true =>
      rw [hspilled] at hledger
      obtain ⟨t, hok, hmoved⟩ := hledger
      exact ⟨t, hok, hsame.trans hmoved⟩
  · -- the write behind this `confirm` failed: the ledger is one transfer ahead
    have hspilled := (h.running hrun).2
    rw [hspilled] at hledger
    have hs : a.spill n (.confirm cert verifier committee observer io) = true := by
      simp [spill, hrun, hp]
    simp only [hs]
    have hledger : a.node.live.ledger = y.ledger := hledger
    exact ⟨t, hledger ▸ hok, hledger ▸ hmoved⟩

theorem kept_compact {a : Audit} {io : Io} (hbase : Node.Base cfg a.node)
    (h : Kept cfg a) {n : Node} (hn : Node.step cfg a.node (.compactJournal io) = some n)
    {signed : List (Event × List JournalRecord)} :
    Kept cfg ⟨n, a.acknowledge n (.compactJournal io), a.spill n (.compactJournal io), signed⟩ := by
  cases hok : (a.node.live.compactJournal io).1 with
  | ok _ =>
    -- the acknowledged log is a snapshot of the live authority, fail-stopped or not
    have hactive : a.node.live.epochState = .active := by
      by_contra hne
      simp [Authority.compactJournal, hne] at hok
    obtain rfl : io = .stored := by
      cases io with
      | stored => rfl
      | failed e kept =>
        cases kept <;> simp [Authority.compactJournal, hactive, Journal.compact] at hok
    have hcompact : a.node.live.compactJournal .stored = (.ok (), { a.node.live with
        journal := { a.node.live.journal with
          records := [.snapshot a.node.live.snapshotData] } }) := by
      simp [Authority.compactJournal, hactive, Journal.compact]
    cases hn
    rw [hcompact]
    have hacked : ∀ n, a.acknowledge n (.compactJournal .stored) = n.live.journal.records := by
      simp [acknowledge, hcompact]
    have hspill : ∀ n, a.spill n (.compactJournal .stored) = false := by simp [spill, hcompact]
    have hempty : cfg.replay [] = .ok cfg.authority := rfl
    have hreplay := Config.replay_append hempty
      (Authority.replayRecord_snapshotData hbase.wf cfg.authority)
    rw [hacked, hspill]
    exact ⟨fun _ => ⟨rfl, rfl⟩, _, hreplay, rfl, rfl, rfl⟩
  | error e =>
    have hacked : a.acknowledge n (.compactJournal io) = a.acked := by simp [acknowledge, hok]
    have hspill : a.spill n (.compactJournal io) = a.spilled := by simp [spill, hok]
    rw [hacked]
    cases hp : n.live.poisoned with
    | true => exact h.of_stopped hp (Node.stopped_of_step hbase hn hp) (.inl hspill)
    | false =>
      -- refused: nothing was written
      rw [hspill]
      cases hn
      have hlive : (a.node.live.compactJournal io).2 = a.node.live := by
        simp only [Authority.compactJournal] at hp ⊢
        split
        · rfl
        · next hactive =>
          simp only [hactive, if_false] at hp
          split at hp
          · cases hp
          · next hstored =>
            simp [Authority.compactJournal, hactive, hstored] at hok
      simp only [hlive]
      exact ⟨h.running, h.replays⟩

/-- The step lemma: the acknowledged records keep reproducing locks and confirmed slots, and the
ledger up to a transfer that has spilled. -/
theorem kept_step {a a' : Audit} {op : Op} (hbase : Node.Base cfg a.node)
    (hbase' : Node.Base cfg a'.node) (h : Kept cfg a) (hstep : step cfg a op = some a') :
    Kept cfg a' := by
  obtain ⟨n, hn, rfl⟩ := Option.map_eq_some_iff.mp hstep
  by_cases hop : ∃ io, op = .compactJournal io
  · obtain ⟨io, rfl⟩ := hop
    exact kept_compact hbase h hn
  · have hacked : a.acknowledge n op = if n.live.poisoned then a.acked
        else n.live.journal.records := by
      cases op with
      | compactJournal io => exact absurd ⟨io, rfl⟩ hop
      | _ => rfl
    cases hp : n.live.poisoned with
    | true =>
      have hcrash : op ≠ .crash := by
        rintro rfl
        obtain ⟨y, hy, hrec⟩ := hbase.recover_ok
        simp only [Node.step, hrec, Option.some.injEq] at hn
        subst hn
        cases (hbase.recovered hy).2.1.symm.trans hp
      simp only [hacked, hp, if_true]
      refine h.of_stopped hp (Node.stopped_of_step hbase hn hp) ?_
      cases op with
      | confirm => exact .inr ⟨_, _, _, _, _, rfl⟩
      | crash => exact absurd rfl hcrash
      | compactJournal io => exact absurd ⟨io, rfl⟩ hop
      | _ => exact .inl rfl
    | false =>
      refine Kept.of_running hbase' hp (by simp [hacked, hp]) ?_
      by_cases hcrash : op = .crash
      · subst hcrash
        rfl
      · have hrun : a.node.live.poisoned = false := by
          by_contra hc
          rw [Bool.not_eq_false] at hc
          cases (Node.poisoned_of_step hn hcrash hc).symm.trans hp
        have hspilled := (h.running hrun).2
        cases op with
        | compactJournal io => exact absurd ⟨io, rfl⟩ hop
        | crash => rfl
        | _ => simp [spill, hspilled, hp]

end Audit

/-! ## What a call signs -/

namespace Authority

/-- A vote is signed by an authority that runs and holds the lock. -/
theorem handle_ok {x : Authority} {order : SignedTransfer} {io : Io} {v : Vote}
    (h : (x.handle order io).1 = .ok v) :
    (x.handle order io).2.poisoned = false ∧
      (x.handle order io).2.locked[slot order]? = some order ∧
      v = (x.handle order io).2.sign order := by
  have hopen : ∀ y : Authority, y.poisoned = false → y.epochState = .active →
      (y.handleOpen order io).1 = .ok v → (y.handleOpen order io).2.poisoned = false ∧
        (y.handleOpen order io).2.locked[slot order]? = some order ∧
        v = (y.handleOpen order io).2.sign order := by
    intro y hp hactive hok
    have hspec := handleOpen_spec hp hactive order io
    generalize y.handleOpen order io = r at hspec hok
    cases hspec with
    | refused => cases hok
    | held hv hheld => cases hok; exact ⟨hp, hheld, rfl⟩
    | stored hcan =>
      cases hok
      exact ⟨hp, by simp [withRecord], rfl⟩
    | failed => cases hok
  unfold handle gate at h ⊢
  cases hp : x.poisoned with
  | true => simp [hp] at h
  | false =>
    cases hs : x.epochState with
    | fencing p => simp [hp, hs] at h
    | active =>
      simp only [hp, hs] at h ⊢
      exact hopen x hp hs h
    | installing cert next fd =>
      cases hc : x.installCovered with
      | false => simp [hp, hs, hc] at h
      | true =>
        simp only [hp, hs, hc] at h ⊢
        exact hopen _ (x.completeInstall_frame.2.trans hp) x.completeInstall_active h

end Authority

namespace Node

/-- The events of one call, with what the call looked at. -/
inductive Signs (n n' : Node) (op : Op) : Event → Prop
  | voted {order : SignedTransfer} (hp : n'.live.poisoned = false)
      (hlock : n'.live.locked[slot order]? = some order) :
      Signs n n' op (.voted (n'.live.sign order) n'.live.epoch)
  | epochVoted {v : EpochVote} (hop : op = .signEpochVote) (hv : n.live.signEpochVote = .ok v)
      (hlive : n'.live = n.live) : Signs n n' op (.epochVoted v)
  | attested {account : AccountId} {seq : U64} {a : EffectAttestation}
      (hop : op = .attest account seq) (ha : n.live.attestationFor account seq = some a)
      (hlive : n'.live = n.live) : Signs n n' op (.attested a)
  | applied {cert : Certificate} {verifier : Committee} {epoch : U64} :
      Signs n n' op (.applied cert verifier epoch)
  | installed {cert : EpochCert} {old next : Committee} : Signs n n' op (.installed cert old next)

theorem signs_of_step {cfg : Config} {n n' : Node} {op : Op} {ev : Event}
    (h : step cfg n op = some n') (hev : ev ∈ n'.history.drop n.history.length) :
    Signs n n' op ev := by
  have hnone : ¬ ev ∈ n.history.drop n.history.length := by simp
  -- A call records one event at most, and only if it succeeds.
  cases op with
  | handle order io =>
    cases h
    simp only [stepHandle, List.drop_left] at hev
    split at hev
    · next v hv =>
      obtain ⟨hp, hlock, rfl⟩ := Authority.handle_ok hv
      rw [List.mem_singleton.mp hev]
      have hvoted : Signs n (n.stepHandle order io) (.handle order io) _ := .voted hp hlock
      exact hvoted
    · cases hev
  | confirm cert verifier committee observer io =>
    cases h
    unfold stepConfirm at hev
    split at hev
    · exact absurd hev hnone
    · simp only [List.drop_left] at hev
      split at hev
      · rw [List.mem_singleton.mp hev]
        exact .applied
      · cases hev
  | fence proposal io => cases h; exact absurd hev hnone
  | signEpochVote =>
    cases h
    unfold stepSignEpochVote at hev ⊢
    split at hev
    · exact absurd hev hnone
    · next v hv =>
      simp only [List.drop_left] at hev
      rw [List.mem_singleton.mp hev]
      exact .epochVoted rfl hv rfl
  | installEpochCert cert old io =>
    cases h
    simp only [stepInstall, List.drop_left] at hev
    split at hev
    · rw [List.mem_singleton.mp hev]
      exact .installed
    · rw [List.mem_singleton.mp hev]
      exact .installed
    · cases hev
  | attest account seq =>
    cases h
    unfold stepAttest at hev ⊢
    split at hev
    · exact absurd hev hnone
    · next a ha =>
      simp only [List.drop_left] at hev
      rw [List.mem_singleton.mp hev]
      exact .attested rfl ha rfl
  | compactJournal io => cases h; exact absurd hev hnone
  | crash =>
    simp only [step] at h
    split at h
    · cases h
    · cases h
      exact absurd hev hnone

end Node

/-! ## Fail-stop is complete -/

namespace Audit

variable {cfg : Config} {a a' : Audit}

theorem recover_acked {rs : List JournalRecord} {y : Authority} (h : cfg.replay rs = .ok y) :
    cfg.recover ⟨some cfg.identity, rs⟩ = .ok (y.withJournalOf ⟨some cfg.identity, rs⟩) := by
  rw [cfg.recover_eq rfl, h]
  rfl

omit [Crypto] in
/-- The entries of the frontier are the ledger's sequence numbers. -/
theorem nextSeq_of_mem_frontier {x : Authority} {e : AccountId × U64} (h : e ∈ x.frontier) :
    e.2 = x.ledger.nextSeq e.1 := by
  obtain ⟨b, -, rfl⟩ := List.mem_map.mp h
  rfl

omit [Crypto] in
/-- The sender of an applied transfer is in the frontier. -/
theorem mem_frontier_of_apply {x : Authority} {l : Ledger} {t : Transfer}
    (hok : (l.apply t).1 = .ok ()) (hx : x.ledger = (l.apply t).2) :
    (t.sender, x.ledger.nextSeq t.sender) ∈ x.frontier := by
  have hmoved := Ledger.apply_moved hok
  have hfound : ∃ acc, x.ledger.accounts[t.sender]? = some acc := by
    by_contra hne
    have hnone : x.ledger.accounts[t.sender]? = none := by
      cases hacc : x.ledger.accounts[t.sender]? with
      | none => rfl
      | some acc => exact absurd ⟨acc, hacc⟩ hne
    have hseq := hmoved.seq
    rw [← hx] at hseq
    simp [Ledger.nextSeq, hnone] at hseq
  obtain ⟨acc, hacc⟩ := hfound
  refine List.mem_map.mpr ⟨(t.sender, acc.balance), ?_, rfl⟩
  refine List.mem_map.mpr ⟨(t.sender, acc), ?_, rfl⟩
  exact ExtTreeMap.mem_toList_iff_getElem?_eq_some.mpr hacc

/-- An epoch vote is backed by the acknowledged records unless a transfer has spilled. -/
theorem Kept.epochVote_backed (h : Kept cfg a) {v : EpochVote}
    (hv : a.node.live.signEpochVote = .ok v) :
    Backed cfg a.acked (.epochVoted v) ↔ a.spilled = false := by
  obtain ⟨y, hy, -, -, hledger⟩ := h.replays
  obtain ⟨p, next, -, -, rfl⟩ := Authority.signEpochVote_ok hv
  constructor
  · rintro ⟨z, hz, hfrontier⟩
    obtain rfl := Except.ok.inj ((recover_acked hy).symm.trans hz)
    by_contra hs
    rw [Bool.not_eq_false] at hs
    rw [hs] at hledger
    obtain ⟨t, hok, hmoved⟩ := hledger
    have hseq : y.ledger.nextSeq t.sender = a.node.live.ledger.nextSeq t.sender :=
      hfrontier _ (mem_frontier_of_apply hok hmoved)
    have hadvance := (Ledger.apply_moved hok).seq
    rw [← hmoved, ← hseq] at hadvance
    omega
  · intro hs
    rw [hs] at hledger
    refine ⟨_, recover_acked hy, ?_⟩
    intro e he
    rw [nextSeq_of_mem_frontier he, show a.node.live.ledger = y.ledger from hledger]
    rfl

/-- Whatever a call signs is backed when it is signed. -/
theorem backed_of_signs {op : Op} (h' : Kept cfg a')
    (hstep : step cfg a op = some a') (hok : op = .signEpochVote → a.spilled = false) {ev : Event}
    (hev : Node.Signs a.node a'.node op ev) : Backed cfg a'.acked ev := by
  obtain ⟨n, hn, rfl⟩ := Option.map_eq_some_iff.mp hstep
  obtain ⟨y, hy, hlocked, hconfirmed, -⟩ := h'.replays
  cases hev with
  | voted hp hlock =>
    rw [← hlocked] at hlock
    exact ⟨_, _, recover_acked hy, hlock, rfl, rfl, rfl, rfl⟩
  | epochVoted hop hv hlive =>
    have hlive : n.live = a.node.live := hlive
    subst hop
    refine (h'.epochVote_backed ?_).mpr (hok rfl)
    exact hlive ▸ hv
  | @attested account seq att hop ha hlive =>
    have hlive : n.live = a.node.live := hlive
    obtain ⟨orderId, hslot, rfl⟩ := Option.map_eq_some_iff.mp ha
    refine ⟨_, recover_acked hy, ?_⟩
    show y.confirmed[(account, seq)]? = some orderId
    rw [hconfirmed, hlive]
    exact hslot
  | applied => trivial
  | installed => trivial

/-- An audited run is a run of the node. -/
theorem node_reachable {ok : Audit → Op → Prop} (h : Reachable (step cfg) ok (start cfg) a) :
    Reachable (Node.step cfg) (fun _ _ => True) (.start cfg) a.node := by
  refine h.invariant (I := fun a =>
    Reachable (Node.step cfg) (fun _ _ => True) (.start cfg) a.node) .refl ?_
  intro b op b' _ hb _ hstep
  obtain ⟨n, hn, rfl⟩ := Option.map_eq_some_iff.mp hstep
  exact hb.tail trivial hn

theorem kept_of_reachable {ok : Audit → Op → Prop} (h : Reachable (step cfg) ok (start cfg) a) :
    Kept cfg a := by
  refine h.invariant ⟨fun _ => ⟨rfl, rfl⟩, cfg.authority, rfl, rfl, rfl, rfl⟩ ?_
  intro b op b' hb hkept hok hstep
  exact kept_step (Node.base_of_reachable (node_reachable hb))
    (Node.base_of_reachable (node_reachable (hb.tail hok hstep))) hkept hstep

end Audit

/-- Everything an authority signs is reproduced by the records acknowledged when it was signed,
whatever the storage does, as long as `sign_epoch_vote` is not called after a `confirm` whose write
failed. In any state that such a run reaches, an epoch vote would be backed exactly if that
condition holds there. -/
theorem signatures_backed {cfg : Config} {a : Audit}
    (h : Reachable (Audit.step cfg) (fun a op => op = .signEpochVote → a.spilled = false)
      (.start cfg) a) :
    (∀ s ∈ a.signed, Backed cfg s.2 s.1) ∧
    ∀ v, a.node.live.signEpochVote = .ok v →
      (Backed cfg a.acked (.epochVoted v) ↔ a.spilled = false) := by
  refine ⟨?_, fun v hv => (Audit.kept_of_reachable h).epochVote_backed hv⟩
  refine h.invariant (I := fun a => ∀ s ∈ a.signed, Backed cfg s.2 s.1) (fun s hs => by cases hs) ?_
  intro b op b' hb hI hok hstep s hs
  have hkept' := Audit.kept_of_reachable (hb.tail hok hstep)
  have hback : ∀ ev, Node.Signs b.node b'.node op ev → Backed cfg b'.acked ev :=
    fun _ => Audit.backed_of_signs hkept' hstep hok
  obtain ⟨n, hn, rfl⟩ := Option.map_eq_some_iff.mp hstep
  rcases List.mem_append.mp hs with hs | hs
  · exact hI s hs
  · obtain ⟨ev, hev, rfl⟩ := List.mem_map.mp hs
    exact hback ev (Node.signs_of_step hn hev)

end Backing

namespace Demo

/-- The storage refuses the write. -/
def refused : Io := .failed (.io "no space left on device") false

/-- A lone member votes, fences, and has signed its epoch vote and an attestation by the time its
storage fails. -/
def auditedRun : List Op :=
  [.handle toBob .stored, .confirm (certify solo soloRoster toBob) solo solo false .stored,
    .attest alice 0, .fence (proposal quadRoster 1) .stored, .signEpochVote,
    .installEpochCert (certifyEpoch solo quad quadRoster soloRoster 1 [(alice, 1), (bob, 0)]) solo
      refused, .attest alice 0]

/-- The write behind `confirm` fails, and the authority signs its frontier afterwards. -/
def spilledRun : List Op :=
  [.handle toBob .stored, .fence (proposal quadRoster 1) .stored,
    .confirm (certify solo soloRoster toBob) solo solo false refused, .signEpochVote]

end Demo

open Demo in
/-- A vote, two attestations and an epoch vote, the last attestation by a fail-stopped authority:
all of them are backed. -/
theorem signatures_backed_demo :
    ∃ a, Reachable (Audit.step (config a3 (key 3) solo))
      (fun a op => op = .signEpochVote → a.spilled = false) (.start (config a3 (key 3) solo)) a ∧
      a.node.live.poisoned = true ∧ a.signed.length = 5 ∧
      ∀ s ∈ a.signed, Backed (config a3 (key 3) solo) s.2 s.1 := by
  obtain ⟨a, ha, hp, hlen⟩ : ∃ a, Reachable (Audit.step (config a3 (key 3) solo))
      (fun a op => op = .signEpochVote → a.spilled = false) (.start (config a3 (key 3) solo)) a ∧
      a.node.live.poisoned = true ∧ a.signed.length = 5 :=
    Reachable.of_exec auditedRun (by decide +kernel)
  exact ⟨a, ha, hp, hlen, (signatures_backed ha).1⟩

open Demo in
/-- The epoch vote says that alice has spent sequence number 0; recovery from everything that was
stored says that she has not. -/
theorem epoch_vote_not_backed :
    ∃ a, Reachable (Audit.step (config a3 (key 3) solo)) (fun _ op => op ∈ spilledRun)
      (.start (config a3 (key 3) solo)) a ∧
      ¬ ∀ s ∈ a.signed, Backed (config a3 (key 3) solo) s.2 s.1 := by
  obtain ⟨a, ha, hspilled, hsigned⟩ : ∃ a, Reachable (Audit.step (config a3 (key 3) solo))
      (fun _ op => op ∈ spilledRun) (.start (config a3 (key 3) solo)) a ∧ a.spilled = true ∧
      (a.node.live.signEpochVote.toOption.map fun v =>
        decide ((Event.epochVoted v, a.acked) ∈ a.signed)) = some true :=
    Reachable.of_exec spilledRun (by decide +kernel)
  refine ⟨a, ha, fun hall => ?_⟩
  obtain ⟨v, hv, hmem⟩ := Option.map_eq_some_iff.mp hsigned
  have hvote : a.node.live.signEpochVote = .ok v := by
    cases hsign : a.node.live.signEpochVote with
    | error e => rw [hsign] at hv; cases hv
    | ok w => rw [hsign] at hv; cases hv; rfl
  have hbacked := hall _ (of_decide_eq_true hmem)
  have := ((Audit.kept_of_reachable ha).epochVote_backed hvote).mp hbacked
  rw [hspilled] at this
  cases this

end P2P333.Transfer333
