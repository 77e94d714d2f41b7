import P2P333.Lib.Transition
import P2P333.Transfer333.Authority

/-!
# One authority over time

An honest authority as a state machine: the live `Authority`, the journal it writes to, and the
history of everything it has signed or applied. A step is one call of an operation with any
arguments and any outcome of the storage, or a crash followed by `recover`.

Results:
1. `Authority.replayRecord` describes the live operations too: a call that changes the state
   replays one record on it and appends that record (`Act.commit`). The one exception is an install
   that a later call completes (`Quiet.complete`); replay has no counterpart of it.
2. `Node.step_acts`: every step is a composition of such acts, with the facts the operation checked
   at each of them.
3. `Node.step_invariant`: the rule by which an invariant is proved, one case per act.
-/

namespace P2P333.Transfer333

open Std Lib

variable [Crypto]

/-! ## Definitions -/

/-- What an authority is constructed from, at start and at every recovery. Ledgers come from
`try_genesis`, so their supply is representable. -/
structure Config where
  id : AuthorityId
  signing : SigningKey
  policy : TransferPolicy
  committeeId : CommitteeId
  genesis : Ledger
  sound : genesis.Sound

/-- What left the authority, or became part of its ledger or its trust root, in order. -/
inductive Event where
  | voted (v : Vote) (epoch : U64)
  | epochVoted (v : EpochVote)
  | attested (a : EffectAttestation)
  | applied (cert : Certificate) (verifier : Committee) (epoch : U64)
  | installed (cert : EpochCert) (old next : Committee)
deriving DecidableEq

/-- The bytes that the event put under the authority's signature. -/
def Event.signed : Event → Option Bytes
  | .voted v _ => some v.message
  | .epochVoted v => some v.message
  | .attested a => some a.message
  | .applied _ _ _ => none
  | .installed _ _ _ => none

/-- `late` says that the newest install was completed by a later call, and not by
`install_epoch_cert` itself. -/
structure Node where
  live : Authority
  history : List Event
  late : Bool
deriving DecidableEq

/-- A call of the authority's interface with its arguments, or a crash. A certificate is verified
against `verifier` before it is confirmed under `committee`. -/
inductive Op where
  | handle (order : SignedTransfer) (io : Io)
  | confirm (cert : Certificate) (verifier committee : Committee) (observer : Bool) (io : Io)
  | fence (proposal : EpochProposal) (io : Io)
  | signEpochVote
  | installEpochCert (cert : EpochCert) (old : Committee) (io : Io)
  | attest (account : AccountId) (seq : U64)
  | compactJournal (io : Io)
  | crash
deriving DecidableEq

/-- The outcome of the write that the call may make. -/
def Op.io : Op → Io
  | .handle _ io | .confirm _ _ _ _ io | .fence _ io | .installEpochCert _ _ io
  | .compactJournal io => io
  | .signEpochVote | .attest _ _ | .crash => .stored

/-- The authority before its first call: the journal is bound and empty. -/
def Config.authority (cfg : Config) : Authority :=
  .withJournal cfg.id cfg.signing cfg.policy cfg.committeeId cfg.genesis .new

def Config.recover (cfg : Config) (journal : Journal) : Except JournalError Authority :=
  Authority.recover cfg.id cfg.signing cfg.policy cfg.committeeId cfg.genesis journal

namespace Node

def start (cfg : Config) : Node := ⟨cfg.authority, [], false⟩

/-- The call completed an install. -/
def completes (x x' : Authority) : Bool :=
  x.epochState.isInstalling && decide (x'.epochState = .active)

omit [Crypto] in
theorem completes_same {x x' : Authority} (h : x'.epochState = x.epochState) :
    completes x x' = false := by
  unfold completes
  rw [h]
  cases x.epochState <;> rfl

def stepHandle (n : Node) (order : SignedTransfer) (io : Io) : Node :=
  let (r, x) := n.live.handle order io
  { live := x
    history := n.history ++ match r with
      | .ok v => [.voted v x.epoch]
      | .error _ => []
    late := n.late || completes n.live x }

def stepConfirm (n : Node) (cert : Certificate) (verifier committee : Committee)
    (observer : Bool) (io : Io) : Node :=
  match cert.verify verifier with
  | none => n
  | some verified =>
    let (r, x) := n.live.confirmImpl verified committee (!observer) io
    { live := x
      history := n.history ++ match r with
        | .ok .applied => [.applied cert verifier n.live.epoch]
        | _ => []
      late := n.late || completes n.live x }

def stepSignEpochVote (n : Node) : Node :=
  match n.live.signEpochVote with
  | .error _ => n
  | .ok v => { n with history := n.history ++ [.epochVoted v] }

def stepInstall (n : Node) (cert : EpochCert) (old : Committee) (io : Io) : Node :=
  let (r, x) := n.live.installEpochCert cert old io
  { live := x
    history := n.history ++
      match r, Committee.withEpoch cert.nextRoster n.live.policy cert.epoch with
      | .ok .installed, some next => [.installed cert old next]
      | .ok .installing, some next => [.installed cert old next]
      | _, _ => []
    late := n.late && !(r matches .ok .installed) }

def stepAttest (n : Node) (account : AccountId) (seq : U64) : Node :=
  match n.live.attestationFor account seq with
  | none => n
  | some a => { n with history := n.history ++ [.attested a] }

/-- One call, or a crash and recovery; `none` if recovery fails. -/
def step (cfg : Config) (n : Node) : Op → Option Node
  | .handle order io => some (n.stepHandle order io)
  | .confirm cert verifier committee observer io =>
    some (n.stepConfirm cert verifier committee observer io)
  | .fence proposal io => some { n with live := (n.live.fence proposal io).2 }
  | .signEpochVote => some n.stepSignEpochVote
  | .installEpochCert cert old io => some (n.stepInstall cert old io)
  | .attest account seq => some (n.stepAttest account seq)
  | .compactJournal io => some { n with live := (n.live.compactJournal io).2 }
  | .crash =>
    match cfg.recover n.live.journal with
    | .error _ => none
    | .ok x => some { n with live := x, late := false }

end Node

/-! ## What the operations check -/

namespace Authority

/-- `handle` may lock the slot of the order. -/
structure CanLock (x : Authority) (order : SignedTransfer) : Prop where
  unpoisoned : x.poisoned = false
  active : x.epochState = .active
  verified : order.verify x.policy = .ok ()
  free : x.locked[slot order]? = none
  positive : order.transfer.amount ≠ 0
  admitted : x.ledger.preflight order.transfer = .ok ()

/-- `confirm` may apply the order of the certificate. -/
structure CanConfirm (x : Authority) (cert : Certificate) (verifier : Committee) : Prop where
  unpoisoned : x.poisoned = false
  valid : cert.validate verifier = .ok ()
  root : verifier.id = x.committeeId
  verified : cert.order.verify x.policy = .ok ()
  fresh : x.confirmed[(cert.order.transfer.sender, cert.order.transfer.fromSeq)]? = none
  admitted : (x.ledger.apply cert.order.transfer).1 = .ok ()

/-- `fence` may withhold user votes for the proposal. -/
structure CanFence (x : Authority) (proposal : EpochProposal) (next : Committee) : Prop where
  unpoisoned : x.poisoned = false
  active : x.epochState = .active
  epoch : proposal.epoch = x.epoch + 1
  policy : proposal.policyId = x.policy.id
  roster : Committee.withEpoch proposal.nextRoster x.policy proposal.epoch = some next

/-- The certificate passed every check of `install_epoch_cert`. -/
structure AcceptsEpochCert (x : Authority) (cert : EpochCert) (old next : Committee) : Prop where
  unpoisoned : x.poisoned = false
  root : old.id = x.committeeId
  epoch : cert.epoch = x.epoch + 1
  roster : Committee.withEpoch cert.nextRoster x.policy cert.epoch = some next
  votes : checkEpochVotes x.committeeId cert next.id old = .ok ()

theorem CanFence.epoch_toNat {x : Authority} {proposal : EpochProposal} {next : Committee}
    (h : x.CanFence proposal next) (hroom : x.epoch.toNat + 1 < 2 ^ 64) :
    proposal.epoch.toNat = x.epoch.toNat + 1 := by
  rw [h.epoch]
  exact Ledger.toNat_add_one hroom

theorem AcceptsEpochCert.epoch_toNat {x : Authority} {cert : EpochCert} {old next : Committee}
    (h : x.AcceptsEpochCert cert old next) (hroom : x.epoch.toNat + 1 < 2 ^ 64) :
    cert.epoch.toNat = x.epoch.toNat + 1 := by
  rw [h.epoch]
  exact Ledger.toNat_add_one hroom

/-- The call `op` is about to write `record`. -/
inductive Pending : Op → Authority → JournalRecord → Prop
  | locked {x : Authority} {order : SignedTransfer} {io : Io} (h : x.CanLock order) :
      Pending (.handle order io) x (.locked order)
  | confirmed {x : Authority} {cert : Certificate} {verifier committee : Committee}
      {observer : Bool} {io : Io} (h : x.CanConfirm cert verifier) :
      Pending (.confirm cert verifier committee observer io) x (.confirmed cert.order)
  | epochFence {x : Authority} {proposal : EpochProposal} {next : Committee} {io : Io}
      (h : x.CanFence proposal next) : Pending (.fence proposal io) x (.epochFence proposal)
  | epochInstalled {x : Authority} {cert : EpochCert} {old next : Committee} {io : Io}
      (h : x.AcceptsEpochCert cert old next) (hidle : x.epochState.isInstalling = false) :
      Pending (.installEpochCert cert old io) x (.epochInstalled cert)

/-- The same authority, with one more record in its log. -/
def withRecord (x : Authority) (record : JournalRecord) : Authority :=
  { x with journal := { x.journal with records := x.journal.records ++ [record] } }

/-- A failed write of the record fail-stops. `confirm` has moved the ledger by then. -/
def failed (x : Authority) (record : JournalRecord) (kept : Bool) : Authority :=
  { x with
    journal := if kept then (x.withRecord record).journal else x.journal
    poisoned := true
    ledger := match record with
      | .confirmed order => (x.ledger.apply order.transfer).2
      | _ => x.ledger }

section

omit [Crypto]

/-- A failed write moves no sequence number back. -/
theorem nextSeq_le_failed (x : Authority) (record : JournalRecord) (kept : Bool) (a : AccountId) :
    (x.ledger.nextSeq a).toNat ≤ ((x.failed record kept).ledger.nextSeq a).toNat := by
  unfold failed
  cases record with
  | confirmed order => exact Ledger.nextSeq_le_apply _ _ _
  | _ => exact Nat.le_refl _

theorem journalAppend_stored (x : Authority) (record : JournalRecord) :
    x.journalAppend record .stored = (.ok (), x.withRecord record) := rfl

theorem journalAppend_failed (x : Authority) (record : JournalRecord) (e : JournalError)
    (kept : Bool) :
    x.journalAppend record (.failed e kept) =
      (.error e, { x with
        journal := if kept then (x.withRecord record).journal else x.journal
        poisoned := true }) := by
  cases kept <;> rfl

end

end Authority

/-! ## Acts -/

/-- The events of a call that writes its record. -/
def Op.events (x : Authority) : Op → List Event
  | .confirm cert verifier _ _ _ => [.applied cert verifier x.epoch]
  | .installEpochCert cert old _ =>
    match Committee.withEpoch cert.nextRoster x.policy cert.epoch with
    | some next => [.installed cert old next]
    | none => []
  | _ => []

omit [Crypto] in
/-- Writing a record signs nothing by itself. -/
theorem mem_of_signed {op : Op} {x : Authority} {events : List Event} {ev : Event}
    (hev : ev ∈ events ++ op.events x) (hsigned : ev.signed ≠ none) : ev ∈ events := by
  rcases List.mem_append.mp hev with hev | hev
  · exact hev
  · refine absurd ?_ hsigned
    unfold Op.events at hev
    cases op with
    | confirm cert verifier committee observer io =>
      rw [List.mem_singleton.mp hev]
      rfl
    | installEpochCert cert old io =>
      simp only at hev
      split at hev
      · rw [List.mem_singleton.mp hev]
        rfl
      · cases hev
    | _ => cases hev

omit [Crypto] in
/-- An event of the longer history that is not the new one. -/
theorem mem_of_ne {events : List Event} {ev new : Event} (hev : ev ∈ events ++ [new])
    (hne : ev ≠ new) : ev ∈ events := by
  rcases List.mem_append.mp hev with hev | hev
  · exact hev
  · exact absurd (List.mem_singleton.mp hev) hne

/-- The record completes an install at once. -/
def completesAtOnce (y : Authority) : JournalRecord → Bool
  | .epochInstalled _ => !y.epochState.isInstalling
  | _ => false

/-- What a call does to the state, apart from `Quiet` acts. -/
inductive Act (cfg : Config) : Op → Node → Node → Prop
  /-- The record is stored and takes effect. -/
  | commit {op : Op} {n : Node} {r : JournalRecord} {y : Authority}
      (hp : n.live.Pending op r) (hy : n.live.replayRecord r = .ok y) :
      Act cfg op n
        { live := y.withRecord r
          history := n.history ++ op.events n.live
          late := n.late && !completesAtOnce y r }
  /-- The write of the record fails, and may have reached the log. -/
  | fail {op : Op} {n : Node} {r : JournalRecord} (hp : n.live.Pending op r) (kept : Bool)
      (hio : op.io ≠ .stored) : Act cfg op n { n with live := n.live.failed r kept }
  /-- A conflicting epoch certificate or a failed compaction fail-stops. -/
  | poison {op : Op} {n : Node} : Act cfg op n { n with live := { n.live with poisoned := true } }
  | epochVote {n : Node} {v : EpochVote} (hv : n.live.signEpochVote = .ok v) :
      Act cfg .signEpochVote n { n with history := n.history ++ [.epochVoted v] }
  | attest {n : Node} {account : AccountId} {seq : U64} {a : EffectAttestation}
      (ha : n.live.attestationFor account seq = some a) :
      Act cfg (.attest account seq) n { n with history := n.history ++ [.attested a] }
  /-- The log is replaced by a snapshot; the write may still report an error. -/
  | compact {n : Node} {io : Io} (hactive : n.live.epochState = .active) {poisoned : Bool}
      (hp : n.live.poisoned = true → poisoned = true) :
      Act cfg (.compactJournal io) n
        { n with live := { n.live with
            journal := { n.live.journal with records := [.snapshot n.live.snapshotData] }
            poisoned } }
  | crash {n : Node} {x : Authority} (hx : cfg.recover n.live.journal = .ok x) :
      Act cfg .crash n { n with live := x, late := false }

/-- Acts without a record of their own: completing an install whose coverage has arrived, and
signing the order that holds the lock. -/
inductive Quiet : Op → Node → Node → Prop
  | complete {op : Op} {n : Node} (hp : n.live.poisoned = false)
      (hc : n.live.installCovered = true) :
      Quiet op n { n with live := n.live.completeInstall, late := true }
  | vote {order : SignedTransfer} {io : Io} {n : Node} (hp : n.live.poisoned = false)
      (hactive : n.live.epochState = .active) (hv : order.verify n.live.policy = .ok ())
      (hheld : n.live.locked[slot order]? = some order) :
      Quiet (.handle order io) n
        { n with history := n.history ++ [.voted (n.live.sign order) n.live.epoch] }

/-! ## The operations in terms of acts -/

namespace Authority

variable {x : Authority}

omit [Crypto] in
theorem isInstalling_of_covered (h : x.installCovered = true) :
    ∃ cert next fd, x.epochState = .installing cert next fd ∧
      covers x.ledger cert.frontier = true := by
  unfold installCovered at h
  split at h
  · next cert next fd hs => exact ⟨cert, next, fd, hs, h⟩
  · cases h

theorem completeInstall_active (x : Authority) : x.completeInstall.epochState = .active := by
  unfold completeInstall
  split <;> rfl

/-- What `handle` behind the gate answers and leaves. -/
inductive Opened (x : Authority) (order : SignedTransfer) (io : Io) :
    Except AuthorityError Vote × Authority → Prop
  | refused (e : AuthorityError) : Opened x order io (.error e, x)
  | held (hv : order.verify x.policy = .ok ()) (hheld : x.locked[slot order]? = some order) :
      Opened x order io (.ok (x.sign order), x)
  | stored (h : x.CanLock order) :
      Opened x order io (.ok (x.sign order),
        { x with locked := x.locked.insert (slot order) order }.withRecord (.locked order))
  | failed (h : x.CanLock order) (e : JournalError) (kept : Bool) (hio : io ≠ .stored) :
      Opened x order io (.error (.journalFailed e), x.failed (.locked order) kept)

theorem handleOpen_spec (hp : x.poisoned = false) (hactive : x.epochState = .active)
    (order : SignedTransfer) (io : Io) : Opened x order io (x.handleOpen order io) := by
  unfold handleOpen
  split
  · exact .refused _
  · next hv =>
    split
    · next previous hprev =>
      split
      · next heq => exact .held hv (heq ▸ hprev)
      · exact .refused _
    · next hfree =>
      split
      · exact .refused _
      · split
        · exact .refused _
        · next hpos =>
          split
          · exact .refused _
          · next hadm =>
            have hcan : x.CanLock order := ⟨hp, hactive, hv, hfree, hpos, hadm⟩
            unfold lockAndSign
            cases io with
            | stored => exact .stored hcan
            | failed e kept =>
              rw [journalAppend_failed]
              exact .failed hcan e kept (by simp)

/-- The state after a confirmed order, apart from the journal. -/
def spend (x : Authority) (order : SignedTransfer) : Authority :=
  { x with
    ledger := (x.ledger.apply order.transfer).2
    confirmed := x.confirmed.insert (order.transfer.sender, order.transfer.fromSeq) order.orderId
    locked := dropSlots x.locked order.transfer.sender order.transfer.fromSeq }

theorem replayRecord_confirmed {order : SignedTransfer}
    (h : (x.ledger.apply order.transfer).1 = .ok ()) :
    x.replayRecord (.confirmed order) = .ok (x.spend order) := by
  simp only [replayRecord, spend]
  split
  · next he => rw [he] at h; cases h
  · next he => rw [he]

/-- What `confirm` answers and leaves. -/
inductive Confirmed (x : Authority) (cert : Certificate) (verifier : Committee) (io : Io) :
    Except ConfirmError ConfirmOutcome × Authority → Prop
  | refused (e : ConfirmError) : Confirmed x cert verifier io (.error e, x)
  | already : Confirmed x cert verifier io (.ok .alreadyApplied, x)
  | stored (h : x.CanConfirm cert verifier) :
      Confirmed x cert verifier io (.ok .applied,
        if (x.spend cert.order).installCovered then
          ((x.spend cert.order).withRecord (.confirmed cert.order)).completeInstall
        else (x.spend cert.order).withRecord (.confirmed cert.order))
  | failed (h : x.CanConfirm cert verifier) (e : JournalError) (kept : Bool) (hio : io ≠ .stored) :
      Confirmed x cert verifier io (.error (.journal e), x.failed (.confirmed cert.order) kept)

theorem confirmChecks_ok {v : Verified} {c : Committee} {m : Bool}
    (h : x.confirmChecks v c m = .ok ()) :
    x.poisoned = false ∧ v.committeeId = x.committeeId ∧ v.order.verify x.policy = .ok () := by
  unfold confirmChecks at h
  split at h
  · cases h
  · next hp =>
    split at h
    · cases h
    · next hroot =>
      split at h
      · cases h
      · split at h
        · cases h
        · split at h
          · cases h
          · split at h
            · cases h
            · next hv => exact ⟨Bool.eq_false_iff.mpr hp, not_not.mp hroot, hv⟩

theorem confirmImpl_spec (x : Authority) {cert : Certificate} {verifier : Committee}
    {v : Verified} (hv : cert.verify verifier = some v) (committee : Committee)
      (m : Bool) (io : Io) :
    Confirmed x cert verifier io (x.confirmImpl v committee m io) := by
  obtain ⟨hvalid, horder, hid⟩ := Certificate.verify_eq_some hv
  unfold confirmImpl
  split
  · exact .refused _
  · next hchecks =>
    obtain ⟨hp, hroot, howner⟩ := confirmChecks_ok hchecks
    simp only [horder]
    split
    · split
      · exact .already
      · exact .refused _
    · next hfresh =>
      unfold applyOrder
      split
      · exact .refused _
      · next ledger happly =>
        have hcan : x.CanConfirm cert verifier :=
          ⟨hp, hvalid, hid.symm.trans hroot, horder ▸ howner, hfresh, by rw [happly]⟩
        obtain rfl : (x.ledger.apply cert.order.transfer).2 = ledger := by rw [happly]
        cases io with
        | stored => exact .stored hcan
        | failed e kept =>
          rw [journalAppend_failed]
          exact .failed hcan e kept (by simp)

/-- What `fence` leaves. -/
inductive Fenced (x : Authority) (proposal : EpochProposal) (io : Io) : Authority → Prop
  | same : Fenced x proposal io x
  | stored {next : Committee} (h : x.CanFence proposal next) :
      Fenced x proposal io
        ({ x with epochState := .fencing proposal }.withRecord (.epochFence proposal))
  | failed {next : Committee} (h : x.CanFence proposal next) (kept : Bool) (hio : io ≠ .stored) :
      Fenced x proposal io (x.failed (.epochFence proposal) kept)

theorem fence_spec (x : Authority) (proposal : EpochProposal) (io : Io) :
    Fenced x proposal io (x.fence proposal io).2 := by
  unfold fence
  split
  · exact .same
  · next hp =>
    split
    · exact .same
    · split
      · exact .same
      · next hepoch =>
        split
        · exact .same
        · next hpolicy =>
          split
          · exact .same
          · next next hroster =>
            unfold fenceOn
            split
            · next hactive =>
              have hcan : x.CanFence proposal next :=
                ⟨Bool.eq_false_iff.mpr hp, hactive, not_not.mp hepoch, not_not.mp hpolicy, hroster⟩
              cases io with
              | stored => exact .stored hcan
              | failed e kept =>
                rw [journalAppend_failed]
                exact .failed hcan kept (by simp)
            · split <;> exact .same
            · exact .same

/-- What `sign_epoch_vote` signs. -/
theorem signEpochVote_ok {v : EpochVote} (h : x.signEpochVote = .ok v) :
    ∃ p next, x.epochState = .fencing p ∧
      Committee.withEpoch p.nextRoster x.policy p.epoch = some next ∧
      v = EpochVote.sign x.id x.committeeId p.epoch next.id x.frontier x.signing := by
  unfold signEpochVote at h
  split at h
  · next p hs =>
    split at h
    · cases h
    · next next hr =>
      cases h
      exact ⟨p, next, hs, hr, rfl⟩
  · cases h

/-- What `install_epoch_cert` answers and leaves. -/
inductive InstalledSpec (x : Authority) (cert : EpochCert) (old : Committee) (io : Io) :
    Except EpochError InstallOutcome × Authority → Prop
  | refused (e : EpochError) (hne : e ≠ .conflictingCert) :
    InstalledSpec x cert old io (.error e, x)
  | already : InstalledSpec x cert old io (.ok .alreadyInstalled, x)
  | stale (expected got : U64) :
    InstalledSpec x cert old io (.ok (.ignoredStaleEpoch expected got), x)
  | conflict {next existingNext : Committee} {existing : EpochCert} {fd : Digest}
      (h : x.AcceptsEpochCert cert old next)
      (hstate : x.epochState = .installing existing existingNext fd)
      (hdiff : existingNext.id ≠ next.id ∨ fd ≠ frontierDigest cert.frontier ∨
        existing.epoch ≠ cert.epoch) :
      InstalledSpec x cert old io (.error .conflictingCert, { x with poisoned := true })
  | stored {next : Committee} (h : x.AcceptsEpochCert cert old next)
      (hidle : x.epochState.isInstalling = false) {y : Authority}
      (hy : x.replayRecord (.epochInstalled cert) = .ok y) {r : InstallOutcome}
      (hr : r = if y.epochState.isInstalling then .installing else .installed) :
      InstalledSpec x cert old io (.ok r, y.withRecord (.epochInstalled cert))
  | failed {next : Committee} (h : x.AcceptsEpochCert cert old next)
      (hidle : x.epochState.isInstalling = false) (e : JournalError) (kept : Bool)
      (hio : io ≠ .stored) :
      InstalledSpec x cert old io (.error (.journal e), x.failed (.epochInstalled cert) kept)

variable {cert : EpochCert} {cid nextId : CommitteeId} {old : Committee}

/-- The checks on the votes only ever answer `Invalid`. -/
theorem epochVotesLoop_error {votes : List EpochVote} {seen : List AuthorityId} {e : EpochError}
    (h : epochVotesLoop cid cert nextId old votes seen = .error e) : ∃ m, e = .invalid m := by
  induction votes generalizing seen with
  | nil => cases h
  | cons v votes ih =>
    simp only [epochVotesLoop] at h
    split at h
    · cases h; exact ⟨_, rfl⟩
    · split at h
      · cases h; exact ⟨_, rfl⟩
      · split at h
        · cases h; exact ⟨_, rfl⟩
        · split at h
          · cases h; exact ⟨_, rfl⟩
          · exact ih h

theorem checkEpochVotes_error
    {e : EpochError} (h : checkEpochVotes cid cert nextId old = .error e) :
      ∃ m, e = .invalid m := by
  unfold checkEpochVotes at h
  split at h
  · next he =>
    cases h
    exact epochVotesLoop_error he
  · split at h
    · cases h; exact ⟨_, rfl⟩
    · cases h

/-- A vote of an accepted epoch certificate says what the certificate says, and a member of the old
committee signed it. -/
structure EpochVoteFor (v : EpochVote) (cid : CommitteeId) (cert : EpochCert) (nextId : CommitteeId)
    (old : Committee) : Prop where
  committee : v.committeeId = cid
  epoch : v.epoch = cert.epoch
  next : v.nextCommitteeId = nextId
  frontier : v.frontierDigest = frontierDigest cert.frontier
  signed : ∃ key, old.keyOf v.authority = some key ∧
    Crypto.verify key v.message v.signature = true

theorem epochVotesLoop_ok
    {votes : List EpochVote} {seen result : List AuthorityId} (hnodup : seen.Nodup)
    (h : epochVotesLoop cid cert nextId old votes seen = .ok result) :
    (∀ v ∈ votes, EpochVoteFor v cid cert nextId old) ∧ result.Nodup ∧
      result = (votes.map (·.authority)).reverse ++ seen := by
  induction votes generalizing seen with
  | nil =>
    cases h
    exact ⟨fun v hv => (by cases hv), hnodup, rfl⟩
  | cons v votes ih =>
    simp only [epochVotesLoop] at h
    split at h
    · cases h
    · next hfields =>
      simp only [not_or, not_not] at hfields
      obtain ⟨hepoch, hcid, hnext, hfd⟩ := hfields
      split at h
      · cases h
      · next hfresh =>
        split at h
        · cases h
        · next key hkey =>
          split at h
          · cases h
          · next hsig =>
            obtain ⟨hrest, hresult, heq⟩ := ih (List.nodup_cons.mpr ⟨hfresh, hnodup⟩) h
            refine ⟨?_, hresult, by simp [heq]⟩
            intro w hw
            rcases List.mem_cons.mp hw with rfl | hw
            · exact ⟨hcid, hepoch, hnext, hfd, key, hkey, (EpochVote.verifySignature_ok hsig).2⟩
            · exact hrest w hw

theorem checkEpochVotes_ok (h : checkEpochVotes cid cert nextId old = .ok ()) :
    (∀ v ∈ cert.votes, EpochVoteFor v cid cert nextId old) ∧ cert.signers.Nodup ∧
      old.quorum ≤ cert.signers.length := by
  unfold checkEpochVotes at h
  split at h
  · cases h
  · next seen hloop =>
    split at h
    · cases h
    · next hq =>
      obtain ⟨hvotes, hnodup, heq⟩ := epochVotesLoop_ok List.nodup_nil hloop
      rw [List.append_nil] at heq
      refine ⟨hvotes, ?_, ?_⟩
      · rw [heq] at hnodup
        exact List.nodup_reverse.mp hnodup
      · rw [heq, List.length_reverse] at hq
        exact Nat.not_lt.mp hq

@[simp] theorem installCovered_beginInstall (x : Authority) (cert : EpochCert) (next : Committee) :
    (x.beginInstall cert next).installCovered = covers x.ledger cert.frontier := rfl

/-- A fresh install is covered by the ledger it starts on, or waits for it. -/
theorem replayRecord_epochInstalled {next : Committee}
    (h : Committee.withEpoch cert.nextRoster x.policy cert.epoch = some next) :
    x.replayRecord (.epochInstalled cert) = .ok
      (if covers x.ledger cert.frontier then (x.beginInstall cert next).completeInstall
        else x.beginInstall cert next) := by
  simp only [replayRecord, h, installCovered_beginInstall]
  exact (apply_ite Except.ok _ _ _).symm

theorem acceptEpochCert_stored (h : x.epochState.isInstalling = false)
    (cert : EpochCert) (next : Committee) :
    x.acceptEpochCert cert next .stored =
      if covers x.ledger cert.frontier then
        (.ok .installed,
          ((x.withRecord (.epochInstalled cert)).beginInstall cert next).completeInstall)
      else (.ok .installing, (x.withRecord (.epochInstalled cert)).beginInstall cert next) := by
  unfold acceptEpochCert
  split
  · next hs => rw [hs] at h; cases h
  · rfl

theorem acceptEpochCert_failed (h : x.epochState.isInstalling = false)
    (cert : EpochCert) (next : Committee) (e : JournalError) (kept : Bool) :
    x.acceptEpochCert cert next (.failed e kept) =
      (.error (.journal e), x.failed (.epochInstalled cert) kept) := by
  unfold acceptEpochCert
  split
  · next hs => rw [hs] at h; cases h
  · rw [journalAppend_failed]
    rfl

theorem installEpochCert_spec (x : Authority) (cert : EpochCert) (old : Committee) (io : Io) :
    InstalledSpec x cert old io (x.installEpochCert cert old io) := by
  unfold installEpochCert
  split
  · exact .refused _ (by intro h; cases h)
  · next hp =>
    split
    · exact .refused _ (by intro h; cases h)
    · next hroot =>
      split
      · exact .stale _ _
      · next hepoch =>
        split
        · exact .refused _ (by intro h; cases h)
        · next next hroster =>
          split
          · next e he =>
            obtain ⟨m, rfl⟩ := checkEpochVotes_error he
            exact .refused _ (by intro h; cases h)
          · next hvotes =>
            have hacc : x.AcceptsEpochCert cert old next :=
              ⟨Bool.eq_false_iff.mpr hp, not_not.mp hroot, not_not.mp hepoch, hroster, hvotes⟩
            cases hidle : x.epochState.isInstalling with
            | true =>
              unfold acceptEpochCert
              split
              · next hstate =>
                split
                · next hdiff => exact .conflict hacc hstate hdiff
                · exact .already
              · next hstate => cases hs : x.epochState <;> simp_all [EpochState.isInstalling]
            | false =>
              have hreplay := replayRecord_epochInstalled hroster
              cases io with
              | failed e kept =>
                rw [acceptEpochCert_failed hidle]
                exact .failed hacc hidle e kept (by simp)
              | stored =>
                rw [acceptEpochCert_stored hidle]
                split
                · next hc =>
                  rw [if_pos hc] at hreplay
                  exact .stored hacc hidle hreplay rfl
                · next hc =>
                  rw [if_neg hc] at hreplay
                  exact .stored hacc hidle hreplay rfl

end Authority

/-! ## Every step is a composition of acts -/

namespace Node

/-- The shape of a step: a quiet act (for `handle` only), at most one act, a quiet act. -/
inductive Acts (cfg : Config) (op : Op) (n n' : Node) : Prop
  | intro {m m' : Node}
      (before : n = m ∨ (∃ order io, op = .handle order io) ∧ Quiet op n m)
      (main : m = m' ∨ Act cfg op m m') (after : m' = n' ∨ Quiet op m' n')

variable {cfg : Config} {n n' : Node}

theorem Acts.none (op : Op) : Acts cfg op n n := ⟨.inl rfl, .inl rfl, .inl rfl⟩

theorem Acts.act {op : Op} (h : Act cfg op n n') : Acts cfg op n n' := ⟨.inl rfl, .inr h, .inl rfl⟩

/-- `handle` behind the gate, on an authority that is active. -/
theorem opened_acts (cfg : Config) {n : Node} {order : SignedTransfer} (io : Io)
    {r : Except AuthorityError Vote × Authority} (hp : n.live.poisoned = false)
    (hactive : n.live.epochState = .active) (h : Authority.Opened n.live order io r) :
    ∃ m, (n = m ∨ Act cfg (.handle order io) n m) ∧
      (m = { n with
          live := r.2
          history := n.history ++ match r.1 with
            | .ok v => [.voted v r.2.epoch]
            | .error _ => [] } ∨
        Quiet (.handle order io) m { n with
          live := r.2
          history := n.history ++ match r.1 with
            | .ok v => [.voted v r.2.epoch]
            | .error _ => [] }) := by
  cases h with
  | refused e => exact ⟨n, .inl rfl, .inl (by simp)⟩
  | held hv hheld => exact ⟨n, .inl rfl, .inr (.vote hp hactive hv hheld)⟩
  | stored hcan =>
    refine ⟨_, .inr (.commit (.locked hcan) rfl), .inr ?_⟩
    simp only [Op.events, List.append_nil, completesAtOnce, Bool.not_false, Bool.and_true]
    exact .vote hp hactive hcan.verified (by simp [Authority.withRecord])
  | failed hcan e kept hio => exact ⟨_, .inr (.fail (.locked hcan) kept hio), .inl (by simp)⟩

theorem opened_epochState {x : Authority} {order : SignedTransfer} {io : Io}
    {r : Except AuthorityError Vote × Authority} (h : x.Opened order io r) :
    r.2.epochState = x.epochState := by
  cases h <;> rfl

theorem stepHandle_acts (n : Node) (order : SignedTransfer) (io : Io) :
    Acts cfg (.handle order io) n (n.stepHandle order io) := by
  unfold stepHandle Authority.handle Authority.gate
  cases hp : n.live.poisoned with
  | true => simpa [completes_same] using Acts.none (.handle order io)
  | false =>
    cases hs : n.live.epochState with
    | active =>
      have hopened := Authority.handleOpen_spec hp hs order io
      obtain ⟨m, hmain, hafter⟩ := opened_acts cfg io hp hs hopened
      refine ⟨.inl rfl, hmain, ?_⟩
      simpa [completes, hs, EpochState.isInstalling] using hafter
    | fencing p => simpa [completes_same] using Acts.none (.handle order io)
    | installing cert next fd =>
      cases hc : n.live.installCovered with
      | false => simpa [completes_same] using Acts.none (.handle order io)
      | true =>
        -- the gate completes the install before the order is looked at
        have hactive := n.live.completeInstall_active
        have hp' : n.live.completeInstall.poisoned = false := by
          unfold Authority.completeInstall
          split <;> exact hp
        have hopened := Authority.handleOpen_spec hp' hactive order io
        obtain ⟨m, hmain, hafter⟩ := opened_acts cfg io
          (n := { n with live := n.live.completeInstall, late := true }) hp' hactive hopened
        refine ⟨.inr ⟨⟨order, io, rfl⟩, .complete hp hc⟩, hmain, ?_⟩
        have hdone : completes n.live (n.live.completeInstall.handleOpen order io).2 = true := by
          rw [completes, opened_epochState hopened, hactive, hs]
          rfl
        simpa [hdone] using hafter

theorem stepConfirm_acts (n : Node) (cert : Certificate) (verifier committee : Committee)
    (observer : Bool) (io : Io) :
    Acts cfg (.confirm cert verifier committee observer io) n
      (n.stepConfirm cert verifier committee observer io) := by
  unfold stepConfirm
  split
  · exact .none _
  · next v hv =>
    have hspec := n.live.confirmImpl_spec hv committee (!observer) io
    generalize n.live.confirmImpl v committee (!observer) io = r at hspec
    cases hspec with
    | refused e => simpa [completes_same] using Acts.none _
    | already => simpa [completes_same] using Acts.none _
    | failed hcan e kept hio =>
      have hact : Acts cfg (.confirm cert verifier committee observer io) n _ :=
        .act (.fail (.confirmed hcan) kept hio)
      simpa [completes_same, Authority.failed] using hact
    | stored hcan =>
      have hcommit : Act cfg (.confirm cert verifier committee observer io) n _ :=
        .commit (.confirmed hcan) (Authority.replayRecord_confirmed hcan.admitted)
      refine ⟨.inl rfl, .inr hcommit, ?_⟩
      cases hc : (n.live.spend cert.order).installCovered with
      | false =>
        exact .inl (by simp [completes_same, Op.events, completesAtOnce, Authority.withRecord,
          Authority.spend])
      | true =>
        -- the certificate delivered the last piece of the committed frontier
        obtain ⟨_, _, _, hs, -⟩ := Authority.isInstalling_of_covered hc
        have hdone : completes n.live
            ((n.live.spend cert.order).withRecord
              (.confirmed cert.order)).completeInstall = true := by
          rw [completes, Authority.completeInstall_active, show n.live.epochState = _ from hs]
          rfl
        simp only [hdone, if_true, Bool.or_true]
        exact .inr (.complete hcan.unpoisoned hc)

theorem stepInstall_acts (n : Node) (cert : EpochCert) (old : Committee) (io : Io) :
    Acts cfg (.installEpochCert cert old io) n (n.stepInstall cert old io) := by
  unfold stepInstall
  have hspec := n.live.installEpochCert_spec cert old io
  generalize n.live.installEpochCert cert old io = r at hspec
  cases hspec with
  | refused e hne => simpa using Acts.none _
  | already => simpa using Acts.none _
  | stale expected got => simpa using Acts.none _
  | conflict h hstate hdiff => simpa using (Acts.act .poison : Acts cfg _ n _)
  | failed h hidle e kept hio =>
    have hact : Acts cfg (.installEpochCert cert old io) n _ :=
      .act (.fail (.epochInstalled h hidle) kept hio)
    simpa using hact
  | @stored next h hidle y hy r hr =>
    have hact : Acts cfg (.installEpochCert cert old io) n _ :=
      .act (.commit (.epochInstalled h hidle) hy)
    subst hr
    cases hs : y.epochState.isInstalling <;>
      simpa [Op.events, h.roster, completesAtOnce, hs] using hact

/-- Every step is a composition of acts. -/
theorem step_acts {op : Op} (h : step cfg n op = some n') : Acts cfg op n n' := by
  cases op with
  | handle order io =>
    cases h
    exact stepHandle_acts n order io
  | confirm cert verifier committee observer io =>
    cases h
    exact stepConfirm_acts n cert verifier committee observer io
  | fence proposal io =>
    cases h
    have hspec := n.live.fence_spec proposal io
    generalize (n.live.fence proposal io).2 = x at hspec
    cases hspec with
    | same => exact .none _
    | stored hcan =>
      have hact : Acts cfg (.fence proposal io) n _ := .act (.commit (.epochFence hcan) rfl)
      simpa [Op.events, completesAtOnce] using hact
    | failed hcan kept hio => exact .act (.fail (.epochFence hcan) kept hio)
  | signEpochVote =>
    cases h
    unfold stepSignEpochVote
    split
    · exact .none _
    · next v hv => exact .act (.epochVote hv)
  | installEpochCert cert old io =>
    cases h
    exact stepInstall_acts n cert old io
  | attest account seq =>
    cases h
    unfold stepAttest
    split
    · exact .none _
    · next a ha => exact .act (.attest ha)
  | compactJournal io =>
    cases h
    unfold Authority.compactJournal
    split
    · exact .none _
    · next hactive =>
      cases io with
      | stored => exact .act (.compact (not_not.mp hactive) fun h => h)
      | failed e kept =>
        cases kept with
        | false => exact .act .poison
        | true => exact .act (.compact (not_not.mp hactive) fun _ => rfl)
  | crash =>
    simp only [step] at h
    split at h
    · cases h
    · next x hx =>
      cases h
      exact .act (.crash hx)

/-- The rule for invariants of one authority: quiet acts keep it, and every other act keeps it
under the guard `ok`. The guard of a `handle` has to survive the quiet act before it. -/
theorem step_invariant {I : Node → Prop} {ok : Node → Op → Prop}
    (hquiet : ∀ op m m', Quiet op m m' → I m → I m')
    (hstable : ∀ order io m m', Quiet (.handle order io) m m' →
      ok m (.handle order io) → ok m' (.handle order io))
    (hact : ∀ op m m', Act cfg op m m' → ok m op → I m → I m')
    {op : Op} (hI : I n) (hok : ok n op) (h : step cfg n op = some n') : I n' := by
  obtain ⟨before, main, after⟩ := step_acts h
  rename_i m m'
  have hm : I m ∧ ok m op := by
    rcases before with rfl | ⟨⟨order, io, rfl⟩, hq⟩
    · exact ⟨hI, hok⟩
    · exact ⟨hquiet _ _ _ hq hI, hstable _ _ _ _ hq hok⟩
  have hm' : I m' := by
    rcases main with rfl | ha
    · exact hm.1
    · exact hact _ _ _ ha hm.2 hm.1
  rcases after with rfl | hq
  · exact hm'
  · exact hquiet _ _ _ hq hm'

end Node

end P2P333.Transfer333
