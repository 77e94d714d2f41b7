import P2P333.Transfer333.Effect
import P2P333.Transfer333.Journal

/-!
# The authority

`Authority` of `333-transfer/src/authority.rs`: an independent replica of the ledger with its vote
locks, its confirmed slots, its journal and its epoch-change state. Every operation of the source
is a function from the state before to the answer and the state after; the outcome of a journal
write is an argument.
-/

namespace P2P333.Transfer333

open Std Lib

/-! ## Answers -/

/-- Why an order is not signed. -/
inductive AuthorityError where
  | ownerAuth (e : OwnerAuthError)
  | equivocation (account : AccountId) (seq : U64)
  | unknownSender (account : AccountId)
  | zeroAmount
  | outOfOrder (account : AccountId) (expected got : U64)
  | insufficientBalance (account : AccountId) (have_ need : Amount)
  | sequenceExhausted (account : AccountId)
  | balanceOverflow (account : AccountId) (have_ credit : Amount)
  | journalFailed (reason : JournalError)
  | poisoned
  | epochFencing (epoch : U64)
  | epochCatchingUp (epoch : U64)
deriving DecidableEq

/-- Why a step to the next epoch is not taken. -/
inductive EpochError where
  | invalid (reason : String)
  | journal (reason : JournalError)
  | poisoned
  | notFencing
  | conflictingCert
deriving DecidableEq

/-- What became of an epoch proposal. -/
inductive FenceOutcome where
  | fenced (nextCommitteeId : CommitteeId)
  | alreadyFenced
  | ignoredStaleEpoch (expected got : U64)
  | ignoredConflictingProposal
  | ignoredInstalling
deriving DecidableEq

/-- What became of an epoch certificate. -/
inductive InstallOutcome where
  | installed
  | installing
  | alreadyInstalled
  | ignoredStaleEpoch (expected got : U64)
deriving DecidableEq

/-- What became of a certificate. -/
inductive ConfirmOutcome where
  | applied
  | alreadyApplied
deriving DecidableEq

/-- Why a certificate is not applied. -/
inductive ConfirmError where
  | wrongCommittee (expected got : CommitteeId)
  | wrongPolicy (expected got : PolicyId)
  | ownerAuth (e : OwnerAuthError)
  | state (reject : Reject)
  | journal (reason : JournalError)
  | poisoned
deriving DecidableEq

/-! ## State -/

/-- Epoch-change protocol state. Only `active` casts user votes. -/
inductive EpochState where
  | active
  | fencing (proposal : EpochProposal)
  | installing (cert : EpochCert) (nextCommittee : Committee) (frontierDigest : Digest)
deriving DecidableEq

def EpochState.isInstalling : EpochState → Bool
  | .installing _ _ _ => true
  | _ => false

/-- Vote-slot identity: one lock per account, sequence and round. -/
abbrev Slot := AccountId × U64 × U64

def slot (order : SignedTransfer) : Slot :=
  (order.transfer.sender, order.transfer.fromSeq, order.round)

structure Authority where
  id : AuthorityId
  signing : SigningKey
  policy : TransferPolicy
  committeeId : CommitteeId
  ledger : Ledger
  locked : OrdMap Slot SignedTransfer
  confirmed : OrdMap (AccountId × U64) Digest
  journal : Journal
  epoch : U64
  epochState : EpochState
  lastEpochCert : Option EpochCert
  poisoned : Bool
deriving DecidableEq

variable [Crypto]

/-- What a journal is claimed by: this authority, this committee, this genesis. -/
def journalIdentity (id : AuthorityId) (committee : CommitteeId) (ledger : Ledger) : Digest :=
  Crypto.sha256 (tag "transfer333/journal-identity/v1\x00" ++ beBytes 4 id.len ++ id.bytes ++
    committee.toList ++ ledger.balances.flatMap fun e =>
      beBytes 4 e.1.len ++ e.1.bytes ++ beBytes 16 e.2.toNat ++
      beBytes 8 (ledger.nextSeq e.1).toNat)

namespace Authority

/-- Construct with an explicit journal. A rejected claim gives a poisoned authority. -/
def withJournal (id : AuthorityId) (signing : SigningKey) (policy : TransferPolicy)
    (committeeId : CommitteeId) (ledger : Ledger) (journal : Journal) : Authority :=
  let bound := journal.bind (journalIdentity id committeeId ledger)
  { id, signing, policy, committeeId, ledger
    locked := ∅
    confirmed := ∅
    journal := bound.2
    epoch := 0
    epochState := .active
    lastEpochCert := none
    poisoned := bound.1 matches .error _ }

/-- `journal_append`: fail-stop on error. -/
def journalAppend (x : Authority) (record : JournalRecord) (io : Io) :
    Except JournalError Unit × Authority :=
  match x.journal.append record io with
  | (.error e, journal) => (.error e, { x with journal, poisoned := true })
  | (.ok (), journal) => (.ok (), { x with journal })

/-! ## Epoch helpers -/

/-- The ledger's next sequence numbers reach every entry of the committed frontier. -/
def covers (ledger : Ledger) (frontier : Frontier) : Bool :=
  frontier.all fun e => decide (e.2 ≤ ledger.nextSeq e.1)

def installCovered (x : Authority) : Bool :=
  match x.epochState with
  | .installing cert _ _ => covers x.ledger cert.frontier
  | _ => false

/-- Switch the trust root and advance the epoch. `mem::replace` leaves `active` in any case. -/
def completeInstall (x : Authority) : Authority :=
  match x.epochState with
  | .installing cert next _ =>
    { x with epochState := .active, committeeId := next.id, epoch := cert.epoch }
  | _ => { x with epochState := .active }

/-- Drop every lock and enter `Installing`: what an accepted epoch certificate does. -/
def beginInstall (x : Authority) (cert : EpochCert) (next : Committee) : Authority :=
  { x with
    locked := ∅
    lastEpochCert := some cert
    epochState := .installing cert next (frontierDigest cert.frontier) }

/-- Per-account next-seq frontier. -/
def frontier (x : Authority) : Frontier :=
  x.ledger.balances.map fun e => (e.1, x.ledger.nextSeq e.1)

/-! ## Recovery -/

/-- Confirmation spends the sequence for every round: all its round locks go. -/
def dropSlots (locked : OrdMap Slot SignedTransfer) (account : AccountId) (seq : U64) :
    OrdMap Slot SignedTransfer :=
  locked.filter fun k _ => !(decide (k.1 = account) && decide (k.2.1 = seq))

/-- One step of the replay fold. -/
def replayRecord (me : Authority) : JournalRecord → Except JournalError Authority
  | .snapshot sn =>
    match Ledger.restore sn.accounts with
    | .error e => .error (.corrupt (.snapshotLedgerInvalid e))
    | .ok ledger => .ok { me with
        ledger
        locked := OrdMap.ofEntries (sn.locked.map fun o => (slot o, o))
        confirmed := OrdMap.ofEntries (sn.confirmed.map fun e => ((e.1, e.2.1), e.2.2))
        epoch := sn.epoch
        epochState := .active }
  | .locked order => .ok { me with locked := me.locked.insert (slot order) order }
  | .confirmed order =>
    match me.ledger.apply order.transfer with
    | (.error e, _) =>
      .error (.corrupt (.confirmedDoesNotApply order.transfer.sender order.transfer.fromSeq e))
    | (.ok (), ledger) => .ok { me with
        ledger
        confirmed :=
          me.confirmed.insert (order.transfer.sender, order.transfer.fromSeq) order.orderId
        locked := dropSlots me.locked order.transfer.sender order.transfer.fromSeq }
  | .epochFence proposal => .ok { me with epochState := .fencing proposal }
  | .epochInstalled cert =>
    match Committee.withEpoch cert.nextRoster me.policy cert.epoch with
    | none => .error (.corrupt .rosterInvalid)
    | some next =>
      -- only the confirmed records folded so far count: a later one completes nothing here
      if (me.beginInstall cert next).installCovered then
        .ok (me.beginInstall cert next).completeInstall
      else .ok (me.beginInstall cert next)

/-- Rebuild authority state by folding the journal over the canonical genesis ledger. -/
def recover (id : AuthorityId) (signing : SigningKey) (policy : TransferPolicy)
    (committeeId : CommitteeId) (genesis : Ledger) (journal : Journal) :
    Except JournalError Authority :=
  match journal.bind (journalIdentity id committeeId genesis) with
  | (.error e, _) => .error e
  | (.ok (), journal) =>
    journal.records.foldlM replayRecord
      (withJournal id signing policy committeeId genesis journal)

/-! ## Compaction -/

def snapshotData (x : Authority) : SnapshotData where
  accounts := x.ledger.balances.map fun e => (e.1, e.2, x.ledger.nextSeq e.1)
  locked := x.locked.toList.map Prod.snd
  confirmed := x.confirmed.toList.map fun e => (e.1.1, e.1.2, e.2)
  epoch := x.epoch

/-- Refused outside `active`. There is no check of `poisoned` here. -/
def compactJournal (x : Authority) (io : Io) : Except AuthorityError Unit × Authority :=
  if x.epochState ≠ .active then (.error (.epochFencing x.epoch), x)
  else match x.journal.compact x.snapshotData io with
    | (.error e, journal) => (.error (.journalFailed e), { x with journal, poisoned := true })
    | (.ok (), journal) => (.ok (), { x with journal })

/-! ## Epoch change -/

/-- What an `Active` or `Fencing` authority does with a proposal that passed validation. -/
def fenceOn (x : Authority) (proposal : EpochProposal) (nextId : CommitteeId) (io : Io) :
    Except EpochError FenceOutcome × Authority :=
  match x.epochState with
  | .active =>
    match x.journalAppend (.epochFence proposal) io with
    | (.error e, x) => (.error (.journal e), x)
    | (.ok (), x) => (.ok (.fenced nextId), { x with epochState := .fencing proposal })
  | .fencing existing =>
    if existing = proposal then (.ok .alreadyFenced, x) else (.ok .ignoredConflictingProposal, x)
  | .installing _ _ _ => (.ok .ignoredInstalling, x)

/-- Phase 1: stop casting user votes under the current epoch. -/
def fence (x : Authority) (proposal : EpochProposal) (io : Io) :
    Except EpochError FenceOutcome × Authority :=
  if x.poisoned then (.error .poisoned, x)
  else if x.epochState.isInstalling then (.ok .ignoredInstalling, x)
  else if proposal.epoch ≠ x.epoch + 1 then
    (.ok (.ignoredStaleEpoch (x.epoch + 1) proposal.epoch), x)
  else if proposal.policyId ≠ x.policy.id then
    (.error (.invalid "proposal policy_id does not match this authority's policy"), x)
  else match Committee.withEpoch proposal.nextRoster x.policy proposal.epoch with
    | none => (.error (.invalid "proposal roster does not form a valid committee"), x)
    | some next => x.fenceOn proposal next.id io

/-- Phase 2: sign assent to the fenced change over the current local frontier. -/
def signEpochVote (x : Authority) : Except EpochError EpochVote :=
  match x.epochState with
  | .fencing proposal =>
    match Committee.withEpoch proposal.nextRoster x.policy proposal.epoch with
    | none => .error (.invalid "fenced roster no longer builds (state corruption)")
    | some next =>
      .ok (EpochVote.sign x.id x.committeeId proposal.epoch next.id x.frontier x.signing)
  | _ => .error .notFencing

/-- The loop of `install_epoch_cert` over the votes: the voters seen so far. -/
def epochVotesLoop (committeeId : CommitteeId) (cert : EpochCert) (nextId : CommitteeId)
    (old : Committee) : List EpochVote → List AuthorityId → Except EpochError (List AuthorityId)
  | [], seen => .ok seen
  | v :: votes, seen =>
    if v.epoch ≠ cert.epoch ∨ v.committeeId ≠ committeeId ∨ v.nextCommitteeId ≠ nextId ∨
        v.frontierDigest ≠ frontierDigest cert.frontier then
      .error (.invalid "vote fields do not match the certificate")
    else if v.authority ∈ seen then .error (.invalid "duplicate voter")
    else match old.keyOf v.authority with
      | none => .error (.invalid "voter is not in the old committee")
      | some key =>
        match v.verifySignature key with
        | .error _ => .error (.invalid "bad vote signature")
        | .ok () => epochVotesLoop committeeId cert nextId old votes (v.authority :: seen)

/-- The checks on the votes of an epoch certificate. -/
def checkEpochVotes (committeeId : CommitteeId) (cert : EpochCert) (nextId : CommitteeId)
    (old : Committee) : Except EpochError Unit :=
  match epochVotesLoop committeeId cert nextId old cert.votes [] with
  | .error e => .error e
  | .ok seen =>
    if seen.length < old.quorum then .error (.invalid "insufficient quorum in epoch votes")
    else .ok ()

/-- What an authority does with an epoch certificate that passed validation. -/
def acceptEpochCert (x : Authority) (cert : EpochCert) (next : Committee) (io : Io) :
    Except EpochError InstallOutcome × Authority :=
  match x.epochState with
  | .installing existing existingNext existingFd =>
    if existingNext.id ≠ next.id ∨ existingFd ≠ frontierDigest cert.frontier ∨
        existing.epoch ≠ cert.epoch then
      (.error .conflictingCert, { x with poisoned := true })
    else (.ok .alreadyInstalled, x)
  | _ =>
    match x.journalAppend (.epochInstalled cert) io with
    | (.error e, x) => (.error (.journal e), x)
    | (.ok (), x) =>
      if (x.beginInstall cert next).installCovered then
        (.ok .installed, (x.beginInstall cert next).completeInstall)
      else (.ok .installing, x.beginInstall cert next)

/-- Install an epoch-change certificate. -/
def installEpochCert (x : Authority) (cert : EpochCert) (old : Committee) (io : Io) :
    Except EpochError InstallOutcome × Authority :=
  if x.poisoned then (.error .poisoned, x)
  else if old.id ≠ x.committeeId then
    (.error (.invalid "old_committee does not match this authority's trust root"), x)
  else if cert.epoch ≠ x.epoch + 1 then
    (.ok (.ignoredStaleEpoch (x.epoch + 1) cert.epoch), x)
  else match Committee.withEpoch cert.nextRoster x.policy cert.epoch with
    | none => (.error (.invalid "cert roster does not form a valid committee"), x)
    | some next =>
      match checkEpochVotes x.committeeId cert next.id old with
      | .error e => (.error e, x)
      | .ok () => x.acceptEpochCert cert next io

/-! ## Signing -/

/-- The effect attestation for a slot, if an order was applied there. -/
def attestationFor (x : Authority) (account : AccountId) (seq : U64) : Option EffectAttestation :=
  x.confirmed[(account, seq)]?.map fun orderId =>
    { authority := x.id
      committeeId := x.committeeId
      account
      seq
      orderId
      signature := Crypto.sign x.signing (effectMessage x.committeeId account seq orderId) }

def sign (x : Authority) (order : SignedTransfer) : Vote where
  authority := x.id
  committeeId := x.committeeId
  policyId := order.policyId
  networkId := order.networkId
  transfer := order.transfer
  round := order.round
  signature := Crypto.sign x.signing
    (authoritySigningMessage x.id x.committeeId order.policyId order.networkId order.transfer
      order.round)

/-! ## Voting -/

/-- The epoch gate in front of user orders. -/
inductive Gate where
  | open
  | covered
  | reject (e : AuthorityError)

def gate (x : Authority) : Gate :=
  match x.epochState with
  | .active => .open
  | .fencing _ => .reject (.epochFencing x.epoch)
  | .installing _ _ _ => if x.installCovered then .covered else .reject (.epochCatchingUp x.epoch)

/-- How `handle` reports a failed preflight. The last case is `unreachable!` in the source:
preflight does not check certificates. -/
def rejectError (account : AccountId) : Reject → AuthorityError
  | .unknownSender => .unknownSender account
  | .staleSequence expected got => .outOfOrder account expected got
  | .insufficient have_ need => .insufficientBalance account have_ need
  | .sequenceExhausted account => .sequenceExhausted account
  | .balanceOverflow account have_ credit => .balanceOverflow account have_ credit
  | .noCertificate => .poisoned

/-- Make the lock durable, install it and sign. -/
def lockAndSign (x : Authority) (order : SignedTransfer) (io : Io) :
    Except AuthorityError Vote × Authority :=
  match x.journalAppend (.locked order) io with
  | (.error e, x) => (.error (.journalFailed e), x)
  | (.ok (), x) =>
    let x := { x with locked := x.locked.insert (slot order) order }
    (.ok (x.sign order), x)

/-- `handle` behind the epoch gate. -/
def handleOpen (x : Authority) (order : SignedTransfer) (io : Io) :
    Except AuthorityError Vote × Authority :=
  match order.verify x.policy with
  | .error e => (.error (.ownerAuth e), x)
  | .ok () =>
    match x.locked[slot order]? with
    | some previous =>
      if previous = order then (.ok (x.sign order), x)
      else (.error (.equivocation order.transfer.sender order.transfer.fromSeq), x)
    | none =>
      if x.ledger.containsAccount order.transfer.sender = false then
        (.error (.unknownSender order.transfer.sender), x)
      else if order.transfer.amount = 0 then (.error .zeroAmount, x)
      else match x.ledger.preflight order.transfer with
        | .error reject => (.error (rejectError order.transfer.sender reject), x)
        | .ok () => x.lockAndSign order io

/-- Validate and vote. -/
def handle (x : Authority) (order : SignedTransfer) (io : Io) :
    Except AuthorityError Vote × Authority :=
  if x.poisoned then (.error .poisoned, x)
  else match x.gate with
    | .reject e => (.error e, x)
    | .covered => x.completeInstall.handleOpen order io
    | .open => x.handleOpen order io

/-! ## Confirmation -/

/-- The checks of `confirm_impl` before the ledger is touched. -/
def confirmChecks (x : Authority) (verified : Verified) (committee : Committee)
    (requireMembership : Bool) : Except ConfirmError Unit :=
  if x.poisoned then .error .poisoned
  else if verified.committeeId ≠ x.committeeId then
    .error (.wrongCommittee x.committeeId verified.committeeId)
  else if committee.id ≠ x.committeeId then .error (.wrongCommittee x.committeeId committee.id)
  else if committee.policy.id ≠ x.policy.id then
    .error (.wrongPolicy x.policy.id committee.policy.id)
  else if verified.order.policyId ≠ x.policy.id then
    .error (.wrongPolicy x.policy.id verified.order.policyId)
  else match verified.order.verify x.policy with
    | .error e => .error (.ownerAuth e)
    | .ok () =>
      if requireMembership = true ∧
          committee.keyOf x.id ≠ some (Crypto.verifyingKey x.signing) then
        .error (.wrongCommittee x.committeeId committee.id)
      else .ok ()

/-- Apply, journal, and only then record the confirmation and release the locks. -/
def applyOrder (x : Authority) (order : SignedTransfer) (io : Io) :
    Except ConfirmError ConfirmOutcome × Authority :=
  match x.ledger.apply order.transfer with
  | (.error e, _) => (.error (.state e), x)
  | (.ok (), ledger) =>
    match { x with ledger }.journalAppend (.confirmed order) io with
    | (.error e, x) => (.error (.journal e), x)
    | (.ok (), x) =>
      let x := { x with
        confirmed :=
        x.confirmed.insert (order.transfer.sender, order.transfer.fromSeq) order.orderId
        locked := dropSlots x.locked order.transfer.sender order.transfer.fromSeq }
      (.ok .applied, if x.installCovered then x.completeInstall else x)

def confirmImpl (x : Authority) (verified : Verified) (committee : Committee)
    (requireMembership : Bool) (io : Io) : Except ConfirmError ConfirmOutcome × Authority :=
  match x.confirmChecks verified committee requireMembership with
  | .error e => (.error e, x)
  | .ok () =>
    let t := verified.order.transfer
    match x.confirmed[(t.sender, t.fromSeq)]? with
    | some previous =>
      if previous = verified.order.orderId then (.ok .alreadyApplied, x)
      else (.error (.state (.staleSequence (x.ledger.nextSeq t.sender) t.fromSeq)), x)
    | none => x.applyOrder verified.order io

/-- Apply a verified certificate to this authority's ledger. -/
def confirm (x : Authority) (verified : Verified) (committee : Committee) (io : Io) :
    Except ConfirmError ConfirmOutcome × Authority := x.confirmImpl verified committee true io

/-- Observer variant: no check that this authority is a member. -/
def confirmAsObserver (x : Authority) (verified : Verified) (committee : Committee) (io : Io) :
    Except ConfirmError ConfirmOutcome × Authority := x.confirmImpl verified committee false io

end Authority

end P2P333.Transfer333
