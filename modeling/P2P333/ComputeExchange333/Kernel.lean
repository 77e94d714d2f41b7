import P2P333.ComputeExchange333.Basic
import P2P333.Lib.Checked
import P2P333.Lib.Codec

/-!
# The compute exchange: the kernel

`decide` and `evolve` of `333-compute-exchange/src/lib.rs`, and `ComputeExchange::handle` over them.
A command is first looked up in the inbox under its idempotency key; then its generation is checked;
then it is decided against the aggregate, and the events of an accepted decision are applied.

The text that `{:?}` prints for a command, which only enters the fingerprint of a conflict, is a
parameter.

Results:
1. `Step`, `decide_step`: everything an accepted command can do to the aggregate.
2. `handle_cases`: a command is refused, answered from the inbox, or decided.
-/

namespace P2P333.ComputeExchange333

open Lib Std

/-! ## Definitions -/

/-- `{:?}` of a command. -/
class CommandDebug where
  debug : Command → String

abbrev Decision := Except Rejection (List Event × List Effect)

/-- `if c { return Err(reason); }` -/
def refuseIf (c : Prop) [Decidable c] (reason : Rejection) : Except Rejection Unit :=
  if c then .error reason else .ok ()

namespace ResourceCaps

def validateNonzero (c : ResourceCaps) : Except Rejection Unit := do
  refuseIf (c.workers = 0) (.invalidInput "workers" .mustBePositive)
  refuseIf (c.dutyCyclePercent = 0) (.invalidInput "duty_cycle_percent" .mustBePositive)
  refuseIf (c.memoryMib = 0) (.invalidInput "memory_mib" .mustBePositive)

def requireWithin (c upper : ResourceCaps) : Except Rejection Unit := do
  refuseIf (c.workers > upper.workers)
    (.scopeExceeded (.workers c.workers.toUInt64 upper.workers.toUInt64))
  refuseIf (c.dutyCyclePercent > upper.dutyCyclePercent)
    (.scopeExceeded (.dutyCycle c.dutyCyclePercent.toUInt64 upper.dutyCyclePercent.toUInt64))
  refuseIf (c.memoryMib > upper.memoryMib)
    (.scopeExceeded (.memoryMib c.memoryMib.toUInt64 upper.memoryMib.toUInt64))
  refuseIf (c.networkBytes > upper.networkBytes)
    (.scopeExceeded (.networkBytes c.networkBytes upper.networkBytes))
  refuseIf (c.gpu && !upper.gpu) (.scopeExceeded .gpuForbidden)

end ResourceCaps

namespace Aggregate

def hasOutstandingAssignment (s : Aggregate) : Bool :=
  match s.attempt with
  | .none | .failed .. => false
  | .verified .. => !(s.settlement matches .posted ..)
  | .offered _ | .running _ | .resultSubmitted .. => true

def activeGrant (s : Aggregate) : Except Rejection ResourceGrant :=
  match s.consent with
  | .active _ =>
    match s.grant with
    | none => .error .consentRequired
    | some grant =>
      if s.observedAtMs ≥ grant.expiresAtMs then
        .error (.expired grant.expiresAtMs s.observedAtMs)
      else .ok grant
  | .unseen => .error .consentRequired
  | .revoked .. => .error (.consentTerminal .revoked)
  | .expired .. => .error (.consentTerminal .expired)

def activeLease (s : Aggregate) : Except Rejection ResourceLease :=
  match s.lease with
  | .active lease => .ok lease
  | .closed | .stopped .. => .error .leaseRequired

def activeAttemptId (s : Aggregate) : Option AttemptId :=
  match s.attempt with
  | .running attempt | .resultSubmitted attempt _ | .verified attempt _ _ => some attempt.id
  | .none | .offered _ | .failed .. => none

def stateName (s : Aggregate) : String :=
  match s.consent, s.lease, s.attempt, s.settlement with
  | .unseen, _, _, _ => "consent:unseen"
  | .revoked .., _, _, _ => "consent:revoked"
  | .expired .., _, _, _ => "consent:expired"
  | _, .closed, _, _ => "lease:closed"
  | _, .stopped .., _, _ => "lease:stopped"
  | _, _, .none, _ => "attempt:none"
  | _, _, .offered _, _ => "attempt:offered"
  | _, _, .running _, _ => "attempt:running"
  | _, _, .resultSubmitted .., _ => "attempt:result-submitted"
  | _, _, .verified .., .none => "attempt:verified"
  | _, _, .verified .., .prepared _ => "settlement:prepared"
  | _, _, .verified .., .posted .. => "settlement:posted"
  | _, _, .failed .., _ => "attempt:failed"

def invalid (s : Aggregate) (command : String) : Rejection := .invalidTransition s.stateName command

end Aggregate

def effectId (key : IdempotencyKey) (suffix : String) : EffectId := ⟨key.text ++ ":" ++ suffix⟩

def stopSandboxEffect (s : Aggregate) (key : IdempotencyKey)
    (reason : SandboxStopReason) : Effect :=
  let leaseId := match s.lease with
    | .active lease => some lease.id
    | .closed | .stopped .. => none
  .stopSandbox (effectId key "stop-sandbox") s.nodeId leaseId s.activeAttemptId reason

def StopReason.failure : StopReason → AttemptFailure
  | .consentRevoked => .consentRevoked
  | .consentExpired => .consentExpired

def stopEvents (s : Aggregate) (reason : StopReason) : List Event :=
  (match s.lease with
    | .active lease => [.leaseStopped lease.id reason]
    | .closed | .stopped .. => []) ++
  match s.attempt with
  | .offered assignment => [.attemptFailed assignment.id none reason.failure]
  | .running attempt => [.attemptFailed attempt.assignmentId (some attempt.id) reason.failure]
  | .none | .resultSubmitted .. | .verified .. | .failed .. => []

def validateGrant (policy : EnginePolicy) (grant : ResourceGrant) : Except Rejection Unit := do
  refuseIf (grant.id.isEmpty || grant.principal.isEmpty || grant.policyHash.isEmpty)
    (.invalidInput "grant.id/principal/policy_hash" .mustBeNonEmpty)
  refuseIf (grant.issuedAtMs ≥ grant.expiresAtMs)
    (.invalidInput "grant.issued_at_ms/expires_at_ms" .invalidTimeRange)
  refuseIf (grant.policyHash ≠ policy.policyHash)
    (.scopeExceeded (.policyHashMismatch policy.policyHash grant.policyHash))
  refuseIf (policy.browserForegroundOnly && !grant.browserForegroundOnly)
    (.scopeExceeded .backgroundExecutionForbidden)
  grant.caps.validateNonzero
  grant.caps.requireWithin policy.maximum

def validateMode (policy : EnginePolicy) (mode : ExecutionMode) : Except Rejection Unit :=
  refuseIf (policy.browserForegroundOnly ∧ mode ≠ .browserForeground)
    (.scopeExceeded .backgroundExecutionForbidden)

/-! ### Decisions -/

def decideGrant (s : Aggregate) (policy : EnginePolicy) (grant : ResourceGrant)
    (generation : UInt64) : Decision := do
  refuseIf (s.consent matches .active _) (s.invalid "GrantConsent")
  refuseIf (s.hasOutstandingAssignment || s.settlement matches .prepared _)
    (s.invalid "GrantConsent")
  validateGrant policy grant
  refuseIf (grant.issuedAtMs < s.observedAtMs) (.invalidInput "issued_at_ms" .invalidTimeRange)
  return ([.consentGranted generation grant], [])

def decideObserveTime (s : Aggregate) (key : IdempotencyKey) (observedAtMs : UInt64) :
    Decision := do
  refuseIf (observedAtMs < s.observedAtMs) (.invalidInput "observed_at_ms" .invalidTimeRange)
  match s.consent, s.grant with
  | .active grantId, some grant =>
    if observedAtMs ≥ grant.expiresAtMs then
      return ([.timeObserved observedAtMs, .consentExpired grantId observedAtMs] ++
        stopEvents s .consentExpired, [stopSandboxEffect s key .consentExpired])
    else return ([.timeObserved observedAtMs], [])
  | _, _ => return ([.timeObserved observedAtMs], [])

def decideOpenLease (s : Aggregate) (policy : EnginePolicy) (lease : ResourceLease) :
    Decision := do
  let grant ← s.activeGrant
  refuseIf (s.lease matches .active _) (s.invalid "OpenLease")
  refuseIf (lease.grantId ≠ grant.id ∨ lease.generation ≠ s.generation)
    (.invalidInput "lease.grant_id/generation" .doesNotMatchRecordedValue)
  refuseIf lease.id.isEmpty (.invalidInput "lease.id" .mustBeNonEmpty)
  validateMode policy lease.mode
  lease.resources.validateNonzero
  lease.resources.requireWithin grant.caps
  return ([.leaseOpened lease], [])

def decideOffer (s : Aggregate) (policy : EnginePolicy) (assignment : Assignment) : Decision := do
  let _ ← s.activeGrant
  let lease ← s.activeLease
  refuseIf (s.hasOutstandingAssignment ∨ policy.maximumOutstandingAssignments = 0)
    (s.invalid "OfferAssignment")
  refuseIf (assignment.leaseId ≠ lease.id ∨ assignment.generation ≠ s.generation)
    (.invalidInput "assignment.lease_id/generation" .doesNotMatchRecordedValue)
  refuseIf (assignment.id.isEmpty || assignment.requester.isEmpty ||
      assignment.workloadDigest.isEmpty)
    (.invalidInput "assignment.id/requester/workload_digest" .mustBeNonEmpty)
  validateMode policy assignment.mode
  assignment.resources.validateNonzero
  assignment.resources.requireWithin lease.resources
  return ([.assignmentOffered assignment], [])

def decideStart (s : Aggregate) (key : IdempotencyKey) (attemptId : AttemptId)
    (assignmentId : AssignmentId) : Decision := do
  let grant ← s.activeGrant
  let lease ← s.activeLease
  match s.attempt with
  | .offered assignment =>
    refuseIf (attemptId.isEmpty ∨ assignment.id ≠ assignmentId ∨ assignment.leaseId ≠ lease.id)
      (.invalidInput "attempt_id/assignment_id" .doesNotMatchRecordedValue)
    let attempt : Attempt := ⟨attemptId, assignmentId, grant.principal, s.generation,
      assignment.resources, assignment.workloadDigest⟩
    return ([.attemptStarted attempt],
      [.startSandbox (effectId key "start-sandbox") s.nodeId lease.id assignment.id attemptId
        assignment.mode assignment.resources assignment.workloadDigest])
  | _ => .error (s.invalid "StartAttempt")

def decideSubmitResult (s : Aggregate) (key : IdempotencyKey) (attemptId : AttemptId)
    (result : SubmittedResult) : Decision := do
  let grant ← s.activeGrant
  let lease ← s.activeLease
  match s.attempt with
  | .running attempt =>
    refuseIf (attempt.id ≠ attemptId) (s.invalid "SubmitResult")
    refuseIf (result.producer ≠ grant.principal ∨ result.producer ≠ attempt.producer)
      (.unauthorized .resultProducerMismatch)
    refuseIf result.resultDigest.isEmpty (.invalidInput "result_digest" .mustBeNonEmpty)
    result.usage.validateNonzero
    result.usage.requireWithin attempt.resources
    return ([.resultSubmitted attemptId result],
      [.stopSandbox (effectId key "stop-sandbox-result-submitted") s.nodeId (some lease.id)
        (some attemptId) .resultSubmitted])
  | _ => .error (s.invalid "SubmitResult")

def decideVerify (s : Aggregate) (attemptId : AttemptId) (verifier : PrincipalId)
    (capability : VerifierCapability) (verdict : VerificationVerdict) : Decision := do
  match s.attempt with
  | .resultSubmitted attempt result =>
    refuseIf (attempt.id ≠ attemptId) (s.invalid "VerifyResult")
    refuseIf (verifier.isEmpty || capability.id.isEmpty)
      (.invalidInput "verifier/capability.id" .mustBeNonEmpty)
    refuseIf (capability.notBeforeMs ≥ capability.expiresAtMs)
      (.invalidInput "capability.not_before_ms/expires_at_ms" .invalidTimeRange)
    refuseIf (verifier = result.producer) (.unauthorized .producerIsVerifier)
    refuseIf (capability.subject ≠ verifier) (.unauthorized .capabilitySubjectMismatch)
    refuseIf (capability.nodeId ≠ s.nodeId) (.unauthorized .capabilityNodeMismatch)
    refuseIf (capability.attemptId ≠ attempt.id) (.unauthorized .capabilityAttemptMismatch)
    refuseIf (s.observedAtMs < capability.notBeforeMs) (.unauthorized .capabilityNotYetValid)
    refuseIf (s.observedAtMs ≥ capability.expiresAtMs) (.unauthorized .capabilityExpired)
    match verdict with
    | .accept =>
      return ([.resultVerified ⟨attempt.id, verifier, capability.id, result.resultDigest,
        s.observedAtMs⟩], [])
    | .reject code =>
      refuseIf code.isEmpty (.invalidInput "verification_rejection_code" .mustBeNonEmpty)
      return ([.resultRejected attempt.id code], [])
  | _ => .error (s.invalid "VerifyResult")

def decidePrepareSettlement (s : Aggregate) (key : IdempotencyKey) (settlementId : SettlementId)
    (attemptId : AttemptId) (serviceCredits : UInt64) : Decision := do
  match s.attempt with
  | .verified attempt result _ =>
    refuseIf (attempt.id ≠ attemptId) (s.invalid "PrepareSettlement")
    refuseIf (s.settlement ≠ .none) (s.invalid "PrepareSettlement")
    refuseIf (settlementId.isEmpty ∨ serviceCredits = 0)
      (.invalidInput "settlement_id/service_credits" .mustBePositive)
    match s.grant with
    | none => .error .consentRequired
    | some grant =>
      let plan : SettlementPlan :=
        ⟨settlementId, attempt.id, grant.principal, serviceCredits, result.resultDigest⟩
      return ([.settlementPrepared plan],
        [.postServiceCredit (effectId key "post-service-credit") plan])
  | .resultSubmitted .. | .running _ | .offered _ => .error .resultUnverified
  | .none | .failed .. => .error (s.invalid "PrepareSettlement")

def decideRecordReceipt (s : Aggregate) (receipt : SettlementReceipt) : Decision := do
  match s.settlement with
  | .prepared plan =>
    refuseIf (receipt.settlementId ≠ plan.id ∨ receipt.serviceCredits ≠ plan.serviceCredits ∨
        receipt.externalReference.isEmpty)
      (.invalidInput "settlement_receipt" .doesNotMatchRecordedValue)
    return ([.settlementReceiptRecorded receipt], [])
  | _ => .error (s.invalid "RecordSettlementReceipt")

def decideRevoke (s : Aggregate) (key : IdempotencyKey) (grantId : GrantId) (reason : String) :
    Decision := do
  let grant ← s.activeGrant
  refuseIf (grantId ≠ grant.id) (.invalidInput "grant_id" .doesNotMatchRecordedValue)
  refuseIf reason.isEmpty (.invalidInput "reason" .mustBeNonEmpty)
  return (.consentRevoked grantId s.observedAtMs reason :: stopEvents s .consentRevoked,
    [stopSandboxEffect s key .consentRevoked])

def decideCommand (s : Aggregate) (policy : EnginePolicy) (key : IdempotencyKey)
    (command : Command) (generation : UInt64) : Decision :=
  match command with
  | .grantConsent grant => decideGrant s policy grant generation
  | .observeTime observedAtMs => decideObserveTime s key observedAtMs
  | .openLease lease => decideOpenLease s policy lease
  | .offerAssignment assignment => decideOffer s policy assignment
  | .startAttempt attemptId assignmentId => decideStart s key attemptId assignmentId
  | .submitResult attemptId result => decideSubmitResult s key attemptId result
  | .verifyResult attemptId verifier capability verdict =>
    decideVerify s attemptId verifier capability verdict
  | .prepareSettlement settlementId attemptId serviceCredits =>
    decidePrepareSettlement s key settlementId attemptId serviceCredits
  | .recordSettlementReceipt receipt => decideRecordReceipt s receipt
  | .revokeConsent grantId reason => decideRevoke s key grantId reason

def accepted (events : List Event) (effects : List Effect) : CommandOutcome :=
  .accepted ⟨events, effects, false⟩

def rejected (reason : Rejection) : CommandOutcome := .rejected ⟨reason, false⟩

/-- `decide` -/
def decide (s : Aggregate) (policy : EnginePolicy) (key : IdempotencyKey) (command : Command)
    (generation : UInt64) : CommandOutcome :=
  match decideCommand s policy key command generation with
  | .ok (events, effects) => accepted events effects
  | .error reason => rejected reason

/-! ### Evolution -/

def evolve (s : Aggregate) : Event → Aggregate
  | .consentGranted generation grant =>
    { s with
      generation
      observedAtMs := grant.issuedAtMs
      consent := .active grant.id
      grant := some grant
      lease := .closed
      attempt := .none
      settlement := .none }
  | .timeObserved observedAtMs => { s with observedAtMs }
  | .leaseOpened lease => { s with lease := .active lease }
  | .assignmentOffered assignment =>
    { s with attempt := .offered assignment, settlement := .none }
  | .attemptStarted attempt => { s with attempt := .running attempt }
  | .resultSubmitted _ result =>
    match s.attempt with
    | .running attempt => { s with attempt := .resultSubmitted attempt result }
    | _ => s
  | .resultVerified verification =>
    match s.attempt with
    | .resultSubmitted attempt result => { s with attempt := .verified attempt result verification }
    | _ => s
  | .resultRejected _ code =>
    match s.attempt with
    | .resultSubmitted attempt _ =>
      { s with
        attempt := .failed attempt.assignmentId (some attempt.id) (.verificationRejected code) }
    | _ => s
  | .settlementPrepared plan => { s with settlement := .prepared plan }
  | .settlementReceiptRecorded receipt =>
    match s.settlement with
    | .prepared plan => { s with settlement := .posted plan receipt }
    | _ => s
  | .consentRevoked grantId atMs _ => { s with consent := .revoked grantId atMs }
  | .consentExpired grantId atMs => { s with consent := .expired grantId atMs }
  | .leaseStopped leaseId reason => { s with lease := .stopped leaseId reason }
  | .attemptFailed assignmentId attemptId reason =>
    { s with attempt := .failed assignmentId attemptId reason }

/-! ### Handling -/

/-- FNV-1a over the generation and the printed command. -/
def fingerprint [CommandDebug] (intent : Intent) : String :=
  let material :=
    "v1\x00" ++ toString intent.generation ++ "\x00" ++ CommandDebug.debug intent.command
  let hash : UInt64 := material.toUTF8.toList.foldl
    (fun h b => (h ^^^ b.toUInt64) * 0x100000001b3) 0xcbf29ce484222325
  let digits := Nat.toDigits 16 hash.toNat
  "v1-fnv64-" ++ String.ofList (List.replicate (16 - digits.length) '0' ++ digits)

def expectedGeneration (s : Aggregate) : Command → UInt64
  | .grantConsent _ => saturatingSucc s.generation
  | _ => s.generation

namespace ComputeExchange

def checkGeneration (x : ComputeExchange) (envelope : CommandEnvelope) : Except Rejection Unit :=
  let expected := expectedGeneration x.aggregate envelope.command
  refuseIf (envelope.generation ≠ expected) (.staleGeneration expected envelope.generation)

/-- The decision on a command whose key is new. -/
def decideEnvelope (x : ComputeExchange) (envelope : CommandEnvelope) : CommandOutcome :=
  match x.checkGeneration envelope with
  | .ok () =>
    decide x.aggregate x.policy envelope.idempotencyKey envelope.command envelope.generation
  | .error reason => rejected reason

def handle [CommandDebug] (x : ComputeExchange) (envelope : CommandEnvelope) :
    CommandOutcome × ComputeExchange :=
  if envelope.idempotencyKey.isEmpty then
    (rejected (.invalidInput "idempotency_key" .mustBeNonEmpty), x)
  else
    let intent : Intent := ⟨envelope.generation, envelope.command⟩
    match x.inbox[envelope.idempotencyKey]? with
    | some record =>
      if record.intent = intent then (record.outcome.replayReceipt, x)
      else (rejected (.idempotencyConflict envelope.idempotencyKey record.fingerprint
        (fingerprint intent)), x)
    | none =>
      let outcome := x.decideEnvelope envelope
      let aggregate := match outcome with
        | .accepted d => d.events.foldl evolve x.aggregate
        | .rejected _ => x.aggregate
      (outcome, { x with
        aggregate
        inbox := x.inbox.insert envelope.idempotencyKey ⟨fingerprint intent, intent, outcome⟩ })

end ComputeExchange

/-! ## What an accepted command does -/

theorem refuseIf_eq_ok {c : Prop} [Decidable c] {reason : Rejection} {u : Unit} :
    refuseIf c reason = .ok u ↔ ¬ c := by
  unfold refuseIf
  split <;> simp_all

/-- The order of the caps, field by field. -/
structure ResourceCaps.Within (c upper : ResourceCaps) : Prop where
  workers : c.workers ≤ upper.workers
  dutyCyclePercent : c.dutyCyclePercent ≤ upper.dutyCyclePercent
  memoryMib : c.memoryMib ≤ upper.memoryMib
  networkBytes : c.networkBytes ≤ upper.networkBytes
  gpu : c.gpu ≤ upper.gpu

theorem ResourceCaps.Within.rfl {c : ResourceCaps} : c.Within c where
  workers := UInt16.le_refl _
  dutyCyclePercent := UInt8.le_refl _
  memoryMib := UInt32.le_refl _
  networkBytes := UInt64.le_refl _
  gpu := Bool.le_refl _

theorem ResourceCaps.requireWithin_eq_ok {c upper : ResourceCaps} {u : Unit} :
    c.requireWithin upper = .ok u ↔ c.Within upper := by
  simp only [requireWithin, bind_eq_ok, refuseIf_eq_ok, gt_iff_lt, exists_const]
  have hgpu : ¬ (c.gpu && !upper.gpu) = true ↔ c.gpu ≤ upper.gpu := by
    cases c.gpu <;> cases upper.gpu <;> simp
  rw [hgpu]
  simp only [UInt16.not_lt, UInt8.not_lt, UInt32.not_lt, UInt64.not_lt]
  exact ⟨fun ⟨hw, hd, hm, hn, hg⟩ => ⟨hw, hd, hm, hn, hg⟩,
    fun h => ⟨h.workers, h.dutyCyclePercent, h.memoryMib, h.networkBytes, h.gpu⟩⟩

/-- The grant `g` is active at the time that was last observed. -/
structure ActiveGrant (consent : ConsentState) (grant : Option ResourceGrant)
    (observedAtMs : UInt64) (g : ResourceGrant) : Prop where
  consent : ∃ id, consent = .active id
  grant : grant = some g
  inTime : observedAtMs < g.expiresAtMs

namespace Aggregate

variable {s : Aggregate}

abbrev Granted (s : Aggregate) (g : ResourceGrant) : Prop :=
  ActiveGrant s.consent s.grant s.observedAtMs g

theorem activeGrant_eq_ok {g : ResourceGrant} : s.activeGrant = .ok g ↔ s.Granted g := by
  unfold activeGrant
  constructor
  · intro h
    split at h
    · next id hconsent =>
      split at h
      · cases h
      · next g' hgrant =>
        split at h
        · cases h
        · next htime =>
          cases h
          exact ⟨⟨id, hconsent⟩, hgrant, UInt64.not_le.mp htime⟩
    all_goals cases h
  · rintro ⟨⟨id, hconsent⟩, hgrant, htime⟩
    simp only [hconsent, hgrant, ge_iff_le, if_neg (UInt64.not_le.mpr htime)]

theorem activeLease_eq_ok {lease : ResourceLease} :
    s.activeLease = .ok lease ↔ s.lease = .active lease := by
  unfold activeLease
  cases s.lease <;> simp

/-- The lease is stopped, and work that was offered or is running fails. -/
def stopWork (s : Aggregate) (reason : StopReason) : Aggregate :=
  { s with
    lease := match s.lease with
      | .active lease => .stopped lease.id reason
      | .closed => .closed
      | .stopped id reason => .stopped id reason
    attempt := match s.attempt with
      | .offered assignment => .failed assignment.id none reason.failure
      | .running attempt => .failed attempt.assignmentId (some attempt.id) reason.failure
      | .none => .none
      | .resultSubmitted attempt result => .resultSubmitted attempt result
      | .verified attempt result verification => .verified attempt result verification
      | .failed assignmentId attemptId reason => .failed assignmentId attemptId reason }

/-- The stop events, applied to a state with the same lease and attempt. -/
theorem foldl_stopEvents {t : Aggregate} (hlease : t.lease = s.lease)
    (hattempt : t.attempt = s.attempt) (reason : StopReason) :
    (stopEvents s reason).foldl evolve t = t.stopWork reason := by
  obtain ⟨nodeId, generation, observedAtMs, consent, grant, lease, attempt, settlement⟩ := t
  subst hlease hattempt
  unfold stopEvents stopWork
  cases s.lease <;> cases s.attempt <;> rfl

end Aggregate

/-- An accepted command: what it asked for, what it found, and what it left. The expiry of a grant
is told from a time observation that changes nothing else. -/
inductive Step (policy : EnginePolicy) (key : IdempotencyKey) (generation : UInt64)
    (s : Aggregate) :
    Command → List Effect → Aggregate → Prop
  | grant {grant : ResourceGrant} (hconsent : ∀ id, s.consent ≠ .active id)
      (hidle : s.hasOutstandingAssignment = false)
        (hsettled : ∀ plan, s.settlement ≠ .prepared plan)
      (hvalid : validateGrant policy grant = .ok ()) (htime : s.observedAtMs ≤ grant.issuedAtMs) :
      Step policy key generation s (.grantConsent grant) []
        ⟨s.nodeId, generation, grant.issuedAtMs, .active grant.id, some grant,
          .closed, .none, .none⟩
  | observe {t : UInt64} (htime : s.observedAtMs ≤ t)
      (hpending : ∀ id g, s.consent = .active id → s.grant = some g → t < g.expiresAtMs) :
      Step policy key generation s (.observeTime t) [] { s with observedAtMs := t }
  | expire {t : UInt64} {id : GrantId} {g : ResourceGrant} (htime : s.observedAtMs ≤ t)
      (hconsent : s.consent = .active id) (hgrant : s.grant = some g) (hdue : g.expiresAtMs ≤ t) :
      Step policy key generation s (.observeTime t) [stopSandboxEffect s key .consentExpired]
        ({ s with observedAtMs := t, consent := .expired id t }.stopWork .consentExpired)
  | openLease {lease : ResourceLease} {g : ResourceGrant} (hgrant : s.Granted g)
      (hlease : ∀ l, s.lease ≠ .active l) (hid : lease.grantId = g.id)
      (hgeneration : lease.generation = s.generation)
        (hmode : validateMode policy lease.mode = .ok ())
      (hwithin : lease.resources.Within g.caps) :
      Step policy key generation s (.openLease lease) [] { s with lease := .active lease }
  | offer {assignment : Assignment} {lease : ResourceLease} {g : ResourceGrant}
    (hgrant : s.Granted g)
      (hlease : s.lease = .active lease) (hidle : s.hasOutstandingAssignment = false)
      (hid : assignment.leaseId = lease.id) (hgeneration : assignment.generation = s.generation)
      (hmode : validateMode policy assignment.mode = .ok ())
      (hwithin : assignment.resources.Within lease.resources)
      (hroom : policy.maximumOutstandingAssignments ≠ 0)
      (hnamed : (assignment.id.isEmpty || assignment.requester.isEmpty ||
        assignment.workloadDigest.isEmpty) = false)
      (hnonzero : assignment.resources.validateNonzero = .ok ()) :
      Step policy key generation s (.offerAssignment assignment) []
        { s with attempt := .offered assignment, settlement := .none }
  | start {attemptId : AttemptId} {assignment : Assignment} {lease : ResourceLease}
      {g : ResourceGrant} (hgrant : s.Granted g) (hlease : s.lease = .active lease)
      (hattempt : s.attempt = .offered assignment) (hid : assignment.leaseId = lease.id) :
      Step policy key generation s (.startAttempt attemptId assignment.id)
        [.startSandbox (effectId key "start-sandbox") s.nodeId lease.id assignment.id attemptId
          assignment.mode assignment.resources assignment.workloadDigest]
        { s with
          attempt := .running ⟨attemptId, assignment.id, g.principal, s.generation,
            assignment.resources, assignment.workloadDigest⟩ }
  | submit {attempt : Attempt} {result : SubmittedResult} {lease : ResourceLease}
    {g : ResourceGrant}
      (hgrant : s.Granted g) (hlease : s.lease = .active lease)
      (hattempt : s.attempt = .running attempt) (hproducer : result.producer = attempt.producer)
      (hwithin : result.usage.Within attempt.resources) :
      Step policy key generation s (.submitResult attempt.id result)
        [.stopSandbox (effectId key "stop-sandbox-result-submitted") s.nodeId (some lease.id)
          (some attempt.id) .resultSubmitted]
        { s with attempt := .resultSubmitted attempt result }
  | verify {attempt : Attempt} {result : SubmittedResult} {verifier : PrincipalId}
      {capability : VerifierCapability} (hattempt : s.attempt = .resultSubmitted attempt result)
      (hverifier : verifier ≠ result.producer) :
      Step policy key generation s (.verifyResult attempt.id verifier capability .accept) []
        { s with
          attempt := .verified attempt result
            ⟨attempt.id, verifier, capability.id, result.resultDigest, s.observedAtMs⟩ }
  | reject {attempt : Attempt} {result : SubmittedResult} {verifier : PrincipalId}
      {capability : VerifierCapability} {code : String}
      (hattempt : s.attempt = .resultSubmitted attempt result) :
      Step policy key generation s (.verifyResult attempt.id verifier capability (.reject code)) []
        { s with
          attempt := .failed attempt.assignmentId (some attempt.id) (.verificationRejected code) }
  | prepare {settlementId : SettlementId} {serviceCredits : UInt64} {attempt : Attempt}
      {result : SubmittedResult} {verification : VerificationRecord} {g : ResourceGrant}
      (hattempt : s.attempt = .verified attempt result verification)
        (hsettlement : s.settlement = .none)
      (hgrant : s.grant = some g) {plan : SettlementPlan}
      (hplan : plan =
        ⟨settlementId, attempt.id, g.principal, serviceCredits, result.resultDigest⟩) :
      Step policy key generation s (.prepareSettlement settlementId attempt.id serviceCredits)
        [.postServiceCredit (effectId key "post-service-credit") plan]
        { s with settlement := .prepared plan }
  | receipt {receipt : SettlementReceipt} {plan : SettlementPlan}
      (hsettlement : s.settlement = .prepared plan) :
      Step policy key generation s (.recordSettlementReceipt receipt) []
        { s with settlement := .posted plan receipt }
  | revoke {grantId : GrantId} {reason : String} {g : ResourceGrant} (hgrant : s.Granted g)
      (hid : grantId = g.id) :
      Step policy key generation s (.revokeConsent grantId reason)
        [stopSandboxEffect s key .consentRevoked]
        ({ s with consent := .revoked grantId s.observedAtMs }.stopWork .consentRevoked)

section Decisions

variable {policy : EnginePolicy} {key : IdempotencyKey} {generation : UInt64} {s : Aggregate}
  {events : List Event} {effects : List Effect}

theorem decideGrant_step {grant : ResourceGrant}
    (h : decideGrant s policy grant generation = .ok (events, effects)) :
    Step policy key generation s (.grantConsent grant) effects (events.foldl evolve s) := by
  simp only [decideGrant, bind_eq_ok, refuseIf_eq_ok, exists_const] at h
  obtain ⟨hconsent, hidle, _, hvalid, htime, heq⟩ := h
  cases heq
  refine .grant (fun id hid => ?_) ?_ (fun plan hplan => ?_) hvalid (UInt64.not_lt.mp htime)
  · rw [hid] at hconsent
    exact hconsent rfl
  · cases hout : s.hasOutstandingAssignment with
    | false => rfl
    | true =>
      rw [hout] at hidle
      exact absurd rfl hidle
  · rw [hplan, Bool.or_true] at hidle
    exact hidle rfl

theorem decideObserveTime_step {t : UInt64}
    (h : decideObserveTime s key t = .ok (events, effects)) :
    Step policy key generation s (.observeTime t) effects (events.foldl evolve s) := by
  simp only [decideObserveTime, bind_eq_ok, refuseIf_eq_ok, exists_const] at h
  obtain ⟨htime, h⟩ := h
  have htime := UInt64.not_lt.mp htime
  split at h
  · next id g hconsent hgrant =>
    split at h
    · next hdue =>
      cases h
      rw [List.foldl_append, Aggregate.foldl_stopEvents (by rfl) (by rfl)]
      exact .expire htime hconsent hgrant hdue
    · next hdue =>
      cases h
      refine .observe htime fun id' g' hconsent' hgrant' => ?_
      cases hgrant.symm.trans hgrant'
      exact UInt64.not_le.mp hdue
  · next hnone =>
    cases h
    exact .observe htime fun id g hconsent hgrant => absurd hgrant (hnone id g hconsent)

theorem decideOpenLease_step {lease : ResourceLease}
    (h : decideOpenLease s policy lease = .ok (events, effects)) :
    Step policy key s.generation s (.openLease lease) effects (events.foldl evolve s) := by
  simp only [decideOpenLease, bind_eq_ok, refuseIf_eq_ok, exists_const, not_or, not_not,
    Aggregate.activeGrant_eq_ok, ResourceCaps.requireWithin_eq_ok] at h
  obtain ⟨g, hgrant, hlease, ⟨hid, hgeneration⟩, _, _, hmode, _, _, hwithin, heq⟩ := h
  cases heq
  refine .openLease hgrant (fun l hl => ?_) hid hgeneration hmode hwithin
  rw [hl] at hlease
  exact hlease rfl

theorem decideOffer_step {assignment : Assignment}
    (h : decideOffer s policy assignment = .ok (events, effects)) :
    Step policy key s.generation s (.offerAssignment assignment) effects
      (events.foldl evolve s) := by
  simp only [decideOffer, bind_eq_ok, refuseIf_eq_ok, exists_const, not_or, not_not,
    Aggregate.activeGrant_eq_ok, Aggregate.activeLease_eq_ok,
    ResourceCaps.requireWithin_eq_ok, Bool.not_eq_true] at h
  obtain ⟨g, hgrant, lease, hlease, ⟨hidle, hroom⟩, ⟨hid, hgeneration⟩, hnamed, _, hmode, _,
    hnonzero, hwithin, heq⟩ := h
  cases heq
  exact .offer hgrant hlease hidle hid hgeneration hmode hwithin hroom hnamed hnonzero

theorem decideStart_step {attemptId : AttemptId} {assignmentId : AssignmentId}
    (h : decideStart s key attemptId assignmentId = .ok (events, effects)) :
    Step policy key s.generation s (.startAttempt attemptId assignmentId) effects
      (events.foldl evolve s) := by
  simp only [decideStart, bind_eq_ok, Aggregate.activeGrant_eq_ok,
    Aggregate.activeLease_eq_ok] at h
  obtain ⟨g, hgrant, lease, hlease, h⟩ := h
  split at h
  · next assignment hattempt =>
    simp only [bind_eq_ok, refuseIf_eq_ok, exists_const, not_or, not_not] at h
    obtain ⟨⟨_, hassignment, hid⟩, heq⟩ := h
    cases heq
    subst hassignment
    exact .start hgrant hlease hattempt hid
  · cases h

theorem decideSubmitResult_step {attemptId : AttemptId} {result : SubmittedResult}
    (h : decideSubmitResult s key attemptId result = .ok (events, effects)) :
    Step policy key s.generation s (.submitResult attemptId result) effects
      (events.foldl evolve s) := by
  simp only [decideSubmitResult, bind_eq_ok, Aggregate.activeGrant_eq_ok,
    Aggregate.activeLease_eq_ok] at h
  obtain ⟨g, hgrant, lease, hlease, h⟩ := h
  split at h
  · next attempt hattempt =>
    simp only [bind_eq_ok, refuseIf_eq_ok, exists_const, not_or, not_not,
      ResourceCaps.requireWithin_eq_ok] at h
    obtain ⟨hid, ⟨_, hproducer⟩, _, _, _, hwithin, heq⟩ := h
    cases heq
    subst hid
    rw [List.foldl_cons, List.foldl_nil, evolve, hattempt]
    exact .submit hgrant hlease hattempt hproducer hwithin
  · cases h

theorem decideVerify_step {attemptId : AttemptId} {verifier : PrincipalId}
    {capability : VerifierCapability} {verdict : VerificationVerdict}
    (h : decideVerify s attemptId verifier capability verdict = .ok (events, effects)) :
    Step policy key s.generation s (.verifyResult attemptId verifier capability verdict) effects
      (events.foldl evolve s) := by
  unfold decideVerify at h
  split at h
  · next attempt result hattempt =>
    simp only [bind_eq_ok, refuseIf_eq_ok, exists_const, not_not] at h
    obtain ⟨hid, _, _, hverifier, _, _, _, _, _, h⟩ := h
    subst hid
    cases verdict with
    | accept =>
      cases h
      rw [List.foldl_cons, List.foldl_nil, evolve, hattempt]
      exact .verify hattempt hverifier
    | reject code =>
      simp only [bind_eq_ok, refuseIf_eq_ok, exists_const] at h
      obtain ⟨_, heq⟩ := h
      cases heq
      rw [List.foldl_cons, List.foldl_nil, evolve, hattempt]
      exact .reject hattempt
  · cases h

theorem decidePrepareSettlement_step {settlementId : SettlementId} {attemptId : AttemptId}
    {serviceCredits : UInt64}
    (h : decidePrepareSettlement s key settlementId attemptId serviceCredits =
      .ok (events, effects)) :
    Step policy key s.generation s (.prepareSettlement settlementId attemptId serviceCredits)
      effects (events.foldl evolve s) := by
  unfold decidePrepareSettlement at h
  split at h
  · next attempt result verification hattempt =>
    simp only [bind_eq_ok, refuseIf_eq_ok, exists_const, not_not] at h
    obtain ⟨hid, hsettlement, _, h⟩ := h
    subst hid
    split at h
    · cases h
    · next g hgrant =>
      cases h
      exact .prepare hattempt hsettlement hgrant rfl
  all_goals cases h

theorem decideRecordReceipt_step {receipt : SettlementReceipt}
    (h : decideRecordReceipt s receipt = .ok (events, effects)) :
    Step policy key s.generation s (.recordSettlementReceipt receipt) effects
      (events.foldl evolve s) := by
  unfold decideRecordReceipt at h
  split at h
  · next plan hplan =>
    simp only [bind_eq_ok, refuseIf_eq_ok, exists_const] at h
    obtain ⟨_, heq⟩ := h
    cases heq
    rw [List.foldl_cons, List.foldl_nil, evolve, hplan]
    exact .receipt hplan
  · cases h

theorem decideRevoke_step {grantId : GrantId} {reason : String}
    (h : decideRevoke s key grantId reason = .ok (events, effects)) :
    Step policy key s.generation s (.revokeConsent grantId reason) effects
      (events.foldl evolve s) := by
  simp only [decideRevoke, bind_eq_ok, refuseIf_eq_ok, exists_const, not_not,
    Aggregate.activeGrant_eq_ok] at h
  obtain ⟨g, hgrant, hid, _, heq⟩ := h
  cases heq
  rw [List.foldl_cons, Aggregate.foldl_stopEvents (by rfl) (by rfl)]
  exact .revoke hgrant hid

/-- What is decided at the expected generation is a step. -/
theorem decide_step {command : Command}
    (h : decideCommand s policy key command (expectedGeneration s command) =
      .ok (events, effects)) :
    Step policy key (expectedGeneration s command) s command effects (events.foldl evolve s) := by
  cases command with
  | grantConsent grant => exact decideGrant_step h
  | observeTime t => exact decideObserveTime_step h
  | openLease lease => exact decideOpenLease_step h
  | offerAssignment assignment => exact decideOffer_step h
  | startAttempt attemptId assignmentId => exact decideStart_step h
  | submitResult attemptId result => exact decideSubmitResult_step h
  | verifyResult attemptId verifier capability verdict => exact decideVerify_step h
  | prepareSettlement settlementId attemptId serviceCredits => exact decidePrepareSettlement_step h
  | recordSettlementReceipt receipt => exact decideRecordReceipt_step h
  | revokeConsent grantId reason => exact decideRevoke_step h

end Decisions

/-! ## What `handle` does -/

/-- The inbox with the decision on an envelope. -/
def ComputeExchange.record [CommandDebug] (x : ComputeExchange) (envelope : CommandEnvelope)
    (outcome : CommandOutcome) : OrdMap IdempotencyKey InboxRecord :=
  x.inbox.insert envelope.idempotencyKey
    ⟨fingerprint ⟨envelope.generation, envelope.command⟩, ⟨envelope.generation, envelope.command⟩,
      outcome⟩

/-- A command is turned away without a record, answered from the inbox, or decided and recorded. -/
inductive Handled [CommandDebug] (x : ComputeExchange) (envelope : CommandEnvelope) :
    CommandOutcome → ComputeExchange → Prop
  | emptyKey (hkey : envelope.idempotencyKey.isEmpty) :
      Handled x envelope (rejected (.invalidInput "idempotency_key" .mustBeNonEmpty)) x
  | conflict {record : InboxRecord} (hkey : envelope.idempotencyKey.isEmpty = false)
      (hrecord : x.inbox[envelope.idempotencyKey]? = some record)
      (hintent : record.intent ≠ ⟨envelope.generation, envelope.command⟩) :
      Handled x envelope (rejected (.idempotencyConflict envelope.idempotencyKey record.fingerprint
        (fingerprint ⟨envelope.generation, envelope.command⟩))) x
  | replay {record : InboxRecord} (hkey : envelope.idempotencyKey.isEmpty = false)
      (hrecord : x.inbox[envelope.idempotencyKey]? = some record)
      (hintent : record.intent = ⟨envelope.generation, envelope.command⟩) :
      Handled x envelope record.outcome.replayReceipt x
  | decline {reason : Rejection} (hkey : envelope.idempotencyKey.isEmpty = false)
      (hnew : x.inbox[envelope.idempotencyKey]? = none) :
      Handled x envelope (rejected reason) { x with inbox := x.record envelope (rejected reason) }
  | accept {events : List Event} {effects : List Effect} {s' : Aggregate}
      (hkey : envelope.idempotencyKey.isEmpty = false)
      (hnew : x.inbox[envelope.idempotencyKey]? = none)
      (hgeneration : envelope.generation = expectedGeneration x.aggregate envelope.command)
      (hstep : Step x.policy envelope.idempotencyKey envelope.generation x.aggregate
        envelope.command effects s') :
      Handled x envelope (accepted events effects)
        { x with aggregate := s', inbox := x.record envelope (accepted events effects) }

theorem handle_cases [CommandDebug] (x : ComputeExchange) (envelope : CommandEnvelope) :
    Handled x envelope (x.handle envelope).1 (x.handle envelope).2 := by
  unfold ComputeExchange.handle
  split
  · next hkey => exact .emptyKey hkey
  · next hkey =>
    have hkey := Bool.eq_false_iff.mpr hkey
    dsimp only
    split
    · next record hrecord =>
      split
      · next hintent => exact .replay hkey hrecord hintent
      · next hintent => exact .conflict hkey hrecord hintent
    · next hnew =>
      cases hchecked : x.checkGeneration envelope with
      | error reason =>
        simp only [ComputeExchange.decideEnvelope, hchecked]
        exact .decline hkey hnew
      | ok _ =>
        have hdecide : x.decideEnvelope envelope = decide x.aggregate x.policy
            envelope.idempotencyKey envelope.command envelope.generation := by
          simp only [ComputeExchange.decideEnvelope, hchecked]
        simp only [ComputeExchange.checkGeneration, refuseIf_eq_ok, not_not] at hchecked
        cases hdecision : decideCommand x.aggregate x.policy envelope.idempotencyKey
            envelope.command envelope.generation with
        | error reason =>
          simp only [hdecide, decide, hdecision]
          exact .decline hkey hnew
        | ok decision =>
          simp only [hdecide, decide, hdecision]
          refine .accept hkey hnew hchecked ?_
          rw [hchecked] at hdecision ⊢
          exact decide_step hdecision

end P2P333.ComputeExchange333
