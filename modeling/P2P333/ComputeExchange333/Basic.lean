import P2P333.Lib.OrdMap

/-!
# The compute exchange: data

`333-compute-exchange/src/lib.rs`: the records of one contributor node, the commands that it is
given, the events that an accepted command leaves, and the effects that it asks of its environment.
-/

namespace P2P333.ComputeExchange333

open Lib Std

/-! ## Identifiers -/

/-- The kinds of things that have ids. -/
inductive IdKind where
  | node | principal | grant | lease | assignment | attempt | settlement | capability
  | idempotencyKey | effect

/-- `string_id!`: one type of strings for each kind of thing. -/
structure StringId (kind : IdKind) where
  text : String
deriving DecidableEq

namespace StringId

variable {kind : IdKind}

def isEmpty (id : StringId kind) : Bool := id.text.isEmpty

instance : Ord (StringId kind) := ⟨fun a b => compare a.text b.text⟩

theorem compare_eq (a b : StringId kind) : compare a b = compare a.text b.text := rfl

instance : TransOrd (StringId kind) where
  eq_swap {a b} := by rw [compare_eq, compare_eq, OrientedOrd.eq_swap]
  isLE_trans {a b c} hab hbc := by
    rw [compare_eq] at hab hbc ⊢
    exact TransCmp.isLE_trans hab hbc

instance : LawfulEqOrd (StringId kind) where
  compare_self {a} := by rw [compare_eq, ReflOrd.compare_self]
  eq_of_compare {a b} h := by
    cases a
    cases b
    exact congrArg mk (LawfulEqOrd.eq_of_compare h)

end StringId

abbrev NodeId := StringId .node
abbrev PrincipalId := StringId .principal
abbrev GrantId := StringId .grant
abbrev LeaseId := StringId .lease
abbrev AssignmentId := StringId .assignment
abbrev AttemptId := StringId .attempt
abbrev SettlementId := StringId .settlement
abbrev CapabilityId := StringId .capability
abbrev IdempotencyKey := StringId .idempotencyKey
abbrev EffectId := StringId .effect

/-! ## Refusals -/

/-- What is wrong with a number of a command. -/
inductive InputProblem where
  | mustBePositive | mustBeNonEmpty | invalidTimeRange | doesNotMatchRecordedValue
deriving DecidableEq

/-- How a consent came to its end. -/
inductive TerminalConsent where
  | revoked | expired
deriving DecidableEq

/-- The part of a grant that a command exceeds. -/
inductive ScopeViolation where
  | workers (requested allowed : UInt64)
  | dutyCycle (requested allowed : UInt64)
  | memoryMib (requested allowed : UInt64)
  | networkBytes (requested allowed : UInt64)
  | gpuForbidden
  | backgroundExecutionForbidden
  | policyHashMismatch (expected actual : String)
deriving DecidableEq

/-- Why a verifier may not verify a result. -/
inductive AuthorizationFailure where
  | producerIsVerifier | capabilitySubjectMismatch | capabilityNodeMismatch
  | capabilityAttemptMismatch | capabilityNotYetValid | capabilityExpired | resultProducerMismatch
deriving DecidableEq

/-- Why a command is rejected. A rejected command changes nothing. -/
inductive Rejection where
  | consentRequired
  | consentTerminal (state : TerminalConsent)
  | leaseRequired
  | scopeExceeded (violation : ScopeViolation)
  | invalidTransition (state command : String)
  | invalidInput (field : String) (problem : InputProblem)
  | unauthorized (failure : AuthorizationFailure)
  | expired (expiresAtMs observedAtMs : UInt64)
  | staleGeneration (expected provided : UInt64)
  | idempotencyConflict (key : IdempotencyKey) (originalFingerprint attemptedFingerprint : String)
  | resultUnverified
deriving DecidableEq

/-! ## Resources -/

structure ResourceCaps where
  workers : UInt16
  dutyCyclePercent : UInt8
  memoryMib : UInt32
  networkBytes : UInt64
  gpu : Bool
deriving DecidableEq

/-- Where the work of a lease runs. -/
inductive ExecutionMode where
  | browserForeground | browserBackground | nativeNode
deriving DecidableEq

structure EnginePolicy where
  policyHash : String
  maximum : ResourceCaps
  browserForegroundOnly : Bool
  maximumOutstandingAssignments : UInt8
deriving DecidableEq

def EnginePolicy.browserAlphaV1 : EnginePolicy where
  policyHash := "333-browser-alpha-v1"
  maximum := ⟨4, 50, 512, 0, false⟩
  browserForegroundOnly := true
  maximumOutstandingAssignments := 1

structure ResourceGrant where
  id : GrantId
  principal : PrincipalId
  issuedAtMs : UInt64
  expiresAtMs : UInt64
  browserForegroundOnly : Bool
  maxWorkers : UInt16
  dutyCyclePercent : UInt8
  memoryMib : UInt32
  networkBytes : UInt64
  gpuAllowed : Bool
  policyHash : String
deriving DecidableEq

def ResourceGrant.caps (g : ResourceGrant) : ResourceCaps :=
  ⟨g.maxWorkers, g.dutyCyclePercent, g.memoryMib, g.networkBytes, g.gpuAllowed⟩

/-! ## Work -/

structure ResourceLease where
  id : LeaseId
  grantId : GrantId
  generation : UInt64
  mode : ExecutionMode
  resources : ResourceCaps
deriving DecidableEq

structure Assignment where
  id : AssignmentId
  leaseId : LeaseId
  generation : UInt64
  requester : PrincipalId
  workloadDigest : String
  mode : ExecutionMode
  resources : ResourceCaps
deriving DecidableEq

structure Attempt where
  id : AttemptId
  assignmentId : AssignmentId
  producer : PrincipalId
  generation : UInt64
  resources : ResourceCaps
  workloadDigest : String
deriving DecidableEq

structure SubmittedResult where
  producer : PrincipalId
  resultDigest : String
  usage : ResourceCaps
  computeMs : UInt64
deriving DecidableEq

structure VerifierCapability where
  id : CapabilityId
  subject : PrincipalId
  nodeId : NodeId
  attemptId : AttemptId
  notBeforeMs : UInt64
  expiresAtMs : UInt64
deriving DecidableEq

/-- What a verifier says about a result. -/
inductive VerificationVerdict where
  | accept
  | reject (code : String)
deriving DecidableEq

structure VerificationRecord where
  attemptId : AttemptId
  verifier : PrincipalId
  capabilityId : CapabilityId
  resultDigest : String
  verifiedAtMs : UInt64
deriving DecidableEq

structure SettlementPlan where
  id : SettlementId
  attemptId : AttemptId
  beneficiary : PrincipalId
  serviceCredits : UInt64
  verifiedResultDigest : String
deriving DecidableEq

structure SettlementReceipt where
  settlementId : SettlementId
  serviceCredits : UInt64
  externalReference : String
deriving DecidableEq

/-! ## The aggregate -/

/-- The consent of the owner. Revoked and expired are final. -/
inductive ConsentState where
  | unseen
  | active (grantId : GrantId)
  | revoked (grantId : GrantId) (atMs : UInt64)
  | expired (grantId : GrantId) (atMs : UInt64)
deriving DecidableEq

/-- Why a lease stopped. -/
inductive StopReason where
  | consentRevoked | consentExpired
deriving DecidableEq

/-- The lease under which work is done. -/
inductive LeaseState where
  | closed
  | active (lease : ResourceLease)
  | stopped (leaseId : LeaseId) (reason : StopReason)
deriving DecidableEq

/-- Why an attempt failed. -/
inductive AttemptFailure where
  | consentRevoked
  | consentExpired
  | verificationRejected (code : String)
deriving DecidableEq

/-- An attempt, from the offer to the verified result. -/
inductive AttemptState where
  | none
  | offered (assignment : Assignment)
  | running (attempt : Attempt)
  | resultSubmitted (attempt : Attempt) (result : SubmittedResult)
  | verified (attempt : Attempt) (result : SubmittedResult) (verification : VerificationRecord)
  | failed (assignmentId : AssignmentId) (attemptId : Option AttemptId) (reason : AttemptFailure)
deriving DecidableEq

/-- The settlement of a verified attempt. -/
inductive SettlementState where
  | none
  | prepared (plan : SettlementPlan)
  | posted (plan : SettlementPlan) (receipt : SettlementReceipt)
deriving DecidableEq

structure Aggregate where
  nodeId : NodeId
  generation : UInt64
  observedAtMs : UInt64
  consent : ConsentState
  grant : Option ResourceGrant
  lease : LeaseState
  attempt : AttemptState
  settlement : SettlementState
deriving DecidableEq

def Aggregate.new (nodeId : NodeId) : Aggregate :=
  ⟨nodeId, 0, 0, .unseen, none, .closed, .none, .none⟩

/-! ## Commands, events and effects -/

/-- What the aggregate can be told to do. -/
inductive Command where
  | grantConsent (grant : ResourceGrant)
  | observeTime (observedAtMs : UInt64)
  | openLease (lease : ResourceLease)
  | offerAssignment (assignment : Assignment)
  | startAttempt (attemptId : AttemptId) (assignmentId : AssignmentId)
  | submitResult (attemptId : AttemptId) (result : SubmittedResult)
  | verifyResult (attemptId : AttemptId) (verifier : PrincipalId) (capability : VerifierCapability)
      (verdict : VerificationVerdict)
  | prepareSettlement (settlementId : SettlementId) (attemptId : AttemptId)
    (serviceCredits : UInt64)
  | recordSettlementReceipt (receipt : SettlementReceipt)
  | revokeConsent (grantId : GrantId) (reason : String)
deriving DecidableEq

structure CommandEnvelope where
  idempotencyKey : IdempotencyKey
  generation : UInt64
  command : Command
deriving DecidableEq

/-- What an accepted command has done to the aggregate. -/
inductive Event where
  | consentGranted (generation : UInt64) (grant : ResourceGrant)
  | timeObserved (observedAtMs : UInt64)
  | leaseOpened (lease : ResourceLease)
  | assignmentOffered (assignment : Assignment)
  | attemptStarted (attempt : Attempt)
  | resultSubmitted (attemptId : AttemptId) (result : SubmittedResult)
  | resultVerified (verification : VerificationRecord)
  | resultRejected (attemptId : AttemptId) (code : String)
  | settlementPrepared (plan : SettlementPlan)
  | settlementReceiptRecorded (receipt : SettlementReceipt)
  | consentRevoked (grantId : GrantId) (atMs : UInt64) (reason : String)
  | consentExpired (grantId : GrantId) (atMs : UInt64)
  | leaseStopped (leaseId : LeaseId) (reason : StopReason)
  | attemptFailed (assignmentId : AssignmentId) (attemptId : Option AttemptId)
      (reason : AttemptFailure)
deriving DecidableEq

/-- Why a sandbox has to stop. -/
inductive SandboxStopReason where
  | resultSubmitted | consentRevoked | consentExpired
deriving DecidableEq

/-- What is left to do outside after a command. -/
inductive Effect where
  | startSandbox (effectId : EffectId) (nodeId : NodeId) (leaseId : LeaseId)
      (assignmentId : AssignmentId) (attemptId : AttemptId) (mode : ExecutionMode)
      (resources : ResourceCaps) (workloadDigest : String)
  | stopSandbox (effectId : EffectId) (nodeId : NodeId) (leaseId : Option LeaseId)
      (attemptId : Option AttemptId) (reason : SandboxStopReason)
  | postServiceCredit (effectId : EffectId) (settlement : SettlementPlan)
deriving DecidableEq

def Effect.id : Effect → EffectId
  | .startSandbox id _ _ _ _ _ _ _ | .stopSandbox id _ _ _ _ | .postServiceCredit id _ => id

/-! ## Outcomes -/

structure AcceptedDecision where
  events : List Event
  effects : List Effect
  replayed : Bool
deriving DecidableEq

structure RejectedDecision where
  reason : Rejection
  replayed : Bool
deriving DecidableEq

/-- The answer to an envelope. -/
inductive CommandOutcome where
  | accepted (decision : AcceptedDecision)
  | rejected (decision : RejectedDecision)
deriving DecidableEq

namespace CommandOutcome

def effects : CommandOutcome → List Effect
  | .accepted d => d.effects
  | .rejected _ => []

def replayed : CommandOutcome → Bool
  | .accepted d => d.replayed
  | .rejected d => d.replayed

/-- The receipt of a decision that was made before: its effects are not asked for again. -/
def replayReceipt : CommandOutcome → CommandOutcome
  | .accepted d => .accepted ⟨d.events, [], true⟩
  | .rejected d => .rejected ⟨d.reason, true⟩

@[simp] theorem effects_replayReceipt (outcome : CommandOutcome) :
    outcome.replayReceipt.effects = [] := by
  cases outcome <;> rfl

theorem replayReceipt_replayReceipt (outcome : CommandOutcome) :
    outcome.replayReceipt.replayReceipt = outcome.replayReceipt := by
  cases outcome <;> rfl

@[simp] theorem replayed_replayReceipt (outcome : CommandOutcome) :
    outcome.replayReceipt.replayed = true := by
  cases outcome <;> rfl

end CommandOutcome

structure Intent where
  generation : UInt64
  command : Command
deriving DecidableEq

structure InboxRecord where
  fingerprint : String
  intent : Intent
  outcome : CommandOutcome
deriving DecidableEq

/-- The aggregate with the inbox of the decisions that were made, by idempotency key. -/
structure ComputeExchange where
  policy : EnginePolicy
  aggregate : Aggregate
  inbox : OrdMap IdempotencyKey InboxRecord

def ComputeExchange.new (nodeId : NodeId) (policy : EnginePolicy) : ComputeExchange :=
  ⟨policy, .new nodeId, ∅⟩

end P2P333.ComputeExchange333
