import P2P333.ComputeExchange333.Runs

/-!
# Consent gates every execution

The invariant of the aggregate: an open lease stands on an active grant that is in time, an offered
assignment on the open lease, and running work on both. Each record was checked against the one it
stands on when it was made, and no step changes a record under another one.

Results:
1. `inv_of_traced`: the invariant holds in every run.
2. `consent_gates_execution`: no sandbox is started without an active grant, an open lease and an
   offered assignment; between two starts there is a stop for the first; and after the end of a
   grant nothing is admitted until the next one.
-/

namespace P2P333.ComputeExchange333

open Lib Machine

/-! ## The invariant -/

/-- What the records of the aggregate say about each other. -/
structure Inv (policy : EnginePolicy) (s : Aggregate) : Prop where
  consent : ∀ id, s.consent = .active id → ∃ g, s.Granted g ∧ g.id = id ∧
    validateGrant policy g = .ok ()
  lease : ∀ l, s.lease = .active l → ∃ g, s.Granted g ∧ l.grantId = g.id ∧
    l.generation = s.generation ∧ validateMode policy l.mode = .ok () ∧ l.resources.Within g.caps
  closed : s.lease = .closed → s.attempt = .none
  stopped : ∀ id reason, s.lease = .stopped id reason → ∀ g, s.consent ≠ .active g
  offered : ∀ a, s.attempt = .offered a → ∃ l, s.lease = .active l ∧ a.leaseId = l.id ∧
    a.generation = s.generation ∧ validateMode policy a.mode = .ok () ∧
    a.resources.Within l.resources
  running : ∀ t, s.attempt = .running t → (∃ l, s.lease = .active l) ∧
    ∃ g, s.grant = some g ∧ t.producer = g.principal
  submitted : ∀ t r, s.attempt = .resultSubmitted t r → r.producer = t.producer ∧
    ∃ g, s.grant = some g ∧ t.producer = g.principal
  verified : ∀ t r v, s.attempt = .verified t r v → r.producer = t.producer ∧
    (s.settlement = .none → ∃ g, s.grant = some g ∧ t.producer = g.principal)
  settled : s.settlement ≠ .none → ∃ t r v, s.attempt = .verified t r v

section Steps

variable {policy : EnginePolicy} {key : IdempotencyKey} {generation : UInt64} {s s' : Aggregate}
  {command : Command} {effects : List Effect}

theorem inv_new (node : NodeId) (policy : EnginePolicy) : Inv policy (.new node) where
  consent _ h := by cases h
  lease _ h := by cases h
  closed _ := rfl
  stopped _ _ h := by cases h
  offered _ h := by cases h
  running _ h := by cases h
  submitted _ _ h := by cases h
  verified _ _ _ h := by cases h
  settled h := absurd rfl h

/-- What is checked when a grant is accepted. -/
structure ValidGrant (policy : EnginePolicy) (g : ResourceGrant) : Prop where
  inTime : g.issuedAtMs < g.expiresAtMs
  foreground : policy.browserForegroundOnly → g.browserForegroundOnly
  within : g.caps.Within policy.maximum

theorem validateGrant_spec {g : ResourceGrant} {u : Unit} (h : validateGrant policy g = .ok u) :
    ValidGrant policy g := by
  simp only [validateGrant, bind_eq_ok, refuseIf_eq_ok, exists_const, not_not,
    ResourceCaps.requireWithin_eq_ok] at h
  obtain ⟨_, htime, _, hforeground, _, _, hwithin⟩ := h
  refine ⟨UInt64.not_le.mp htime, fun hp => ?_, hwithin⟩
  rw [hp, Bool.true_and, Bool.not_eq_true, Bool.not_eq_false'] at hforeground
  exact hforeground

/-- Stopping the work of a state whose consent has ended keeps the invariant. -/
theorem Inv.stopWork {t : Aggregate} (h : Inv policy s) (hconsent : ∀ id, t.consent ≠ .active id)
    (hgrant : t.grant = s.grant) (hlease : t.lease = s.lease) (hattempt : t.attempt = s.attempt)
    (hsettlement : t.settlement = s.settlement) (reason : StopReason) :
    Inv policy (t.stopWork reason) where
  consent id hid := absurd hid (hconsent id)
  lease l hl := by
    unfold Aggregate.stopWork at hl
    cases ht : t.lease <;> simp [ht] at hl
  closed hl := by
    have hclosed : t.lease = .closed := by
      unfold Aggregate.stopWork at hl
      cases ht : t.lease <;> simp [ht] at hl
      rfl
    have hnone := h.closed (hlease ▸ hclosed)
    simp only [Aggregate.stopWork, hattempt, hnone]
  stopped _ _ _ := hconsent
  offered a ha := by
    unfold Aggregate.stopWork at ha
    cases ht : t.attempt <;> simp [ht] at ha
  running a ha := by
    unfold Aggregate.stopWork at ha
    cases ht : t.attempt <;> simp [ht] at ha
  submitted a r ha := by
    have hs : s.attempt = .resultSubmitted a r := by
      rw [← hattempt]
      unfold Aggregate.stopWork at ha
      cases ht : t.attempt <;> simp [ht] at ha
      rw [ha.1, ha.2]
    obtain ⟨hproducer, g, hg⟩ := h.submitted a r hs
    exact ⟨hproducer, g, hgrant.trans hg.1, hg.2⟩
  verified a r v ha := by
    have hs : s.attempt = .verified a r v := by
      rw [← hattempt]
      unfold Aggregate.stopWork at ha
      cases ht : t.attempt <;> simp [ht] at ha
      rw [ha.1, ha.2.1, ha.2.2]
    obtain ⟨hproducer, hg⟩ := h.verified a r v hs
    refine ⟨hproducer, fun hnone => ?_⟩
    obtain ⟨g, hg⟩ := hg (hsettlement ▸ hnone)
    exact ⟨g, hgrant.trans hg.1, hg.2⟩
  settled hne := by
    obtain ⟨a, r, v, hs⟩ := h.settled (hsettlement ▸ hne)
    refine ⟨a, r, v, ?_⟩
    simp only [Aggregate.stopWork, hattempt, hs]

theorem Inv.unsettled (h : Inv policy s) (hattempt : ∀ t r v, s.attempt ≠ .verified t r v) :
    s.settlement = .none := by
  by_contra hne
  obtain ⟨t, r, v, ht⟩ := h.settled hne
  exact hattempt t r v ht

theorem inv_step (h : Inv policy s)
    (hstep : Step policy key (expectedGeneration s command) s command effects s') :
    Inv policy s' := by
  cases hstep with
  | @grant grant hconsent hidle hsettled hvalid htime =>
    exact
      { consent := fun id hid => ⟨grant, ⟨⟨_, rfl⟩, rfl, (validateGrant_spec hvalid).inTime⟩,
          ConsentState.active.inj hid, hvalid⟩
        lease := fun _ hl => by cases hl
        closed := fun _ => rfl
        stopped := fun _ _ hl => by cases hl
        offered := fun _ ha => by cases ha
        running := fun _ ha => by cases ha
        submitted := fun _ _ ha => by cases ha
        verified := fun _ _ _ ha => by cases ha
        settled := fun hne => absurd rfl hne }
  | @observe t htime hpending =>
    have hkept : ∀ g, s.Granted g → Aggregate.Granted { s with observedAtMs := t } g := by
      intro g hg
      obtain ⟨id, hid⟩ := hg.consent
      exact ⟨hg.consent, hg.grant, hpending id g hid hg.grant⟩
    refine { h with consent := fun id hid => ?_, lease := fun l hl => ?_ }
    · obtain ⟨g, hg, hrest⟩ := h.consent id hid
      exact ⟨g, hkept g hg, hrest⟩
    · obtain ⟨g, hg, hrest⟩ := h.lease l hl
      exact ⟨g, hkept g hg, hrest⟩
  | expire htime hconsent hgrant hdue | revoke hgrant hid =>
    apply h.stopWork
    · intro id hid
      cases hid
    all_goals rfl
  | @openLease lease g hgrant hlease hid hgen hmode hwithin =>
    refine { h with
      lease := fun l hl => ?_
      closed := fun hl => by cases hl
      stopped := fun _ _ hl => by cases hl
      offered := fun a ha => ?_
      running := fun t ht => ?_ }
    · cases hl
      exact ⟨g, hgrant, hid, hgen, hmode, hwithin⟩
    · obtain ⟨l, hl, -⟩ := h.offered a ha
      exact absurd hl (hlease l)
    · obtain ⟨⟨l, hl⟩, -⟩ := h.running t ht
      exact absurd hl (hlease l)
  | @offer assignment lease g hgrant hlease hidle hid hgen hmode hwithin =>
    refine { h with
      closed := fun hl => ?_
      offered := fun a ha => ?_
      running := fun _ ha => by cases ha
      submitted := fun _ _ ha => by cases ha
      verified := fun _ _ _ ha => by cases ha
      settled := fun hne => absurd rfl hne }
    · cases hlease.symm.trans hl
    · cases ha
      exact ⟨lease, hlease, hid, hgen, hmode, hwithin⟩
  | @start attemptId assignment lease g hgrant hlease hattempt hid =>
    have hnone := h.unsettled fun t r v ht => by cases hattempt.symm.trans ht
    refine { h with
      closed := fun hl => ?_
      offered := fun _ ha => by cases ha
      running := fun t ht => ?_
      submitted := fun _ _ ha => by cases ha
      verified := fun _ _ _ ha => by cases ha
      settled := fun hne => absurd hnone hne }
    · cases hlease.symm.trans hl
    · cases ht
      exact ⟨⟨lease, hlease⟩, g, hgrant.grant, rfl⟩
  | @submit attempt result lease g hgrant hlease hattempt hproducer hwithin =>
    have hnone := h.unsettled fun t r v ht => by cases hattempt.symm.trans ht
    refine { h with
      closed := fun hl => ?_
      offered := fun _ ha => by cases ha
      running := fun _ ha => by cases ha
      submitted := fun t r ha => ?_
      verified := fun _ _ _ ha => by cases ha
      settled := fun hne => absurd hnone hne }
    · cases hlease.symm.trans hl
    · cases ha
      exact ⟨hproducer, (h.running attempt hattempt).2⟩
  | @verify attempt result verifier capability hattempt hverifier =>
    refine { h with
      closed := fun hl => ?_
      offered := fun _ ha => by cases ha
      running := fun _ ha => by cases ha
      submitted := fun _ _ ha => by cases ha
      verified := fun t r v ha => ?_
      settled := fun _ => ⟨_, _, _, rfl⟩ }
    · cases hattempt.symm.trans (h.closed hl)
    · cases ha
      obtain ⟨hproducer, hg⟩ := h.submitted attempt result hattempt
      exact ⟨hproducer, fun _ => hg⟩
  | @reject attempt result verifier capability code hattempt =>
    have hnone := h.unsettled fun t r v ht => by cases hattempt.symm.trans ht
    refine { h with
      closed := fun hl => ?_
      offered := fun _ ha => by cases ha
      running := fun _ ha => by cases ha
      submitted := fun _ _ ha => by cases ha
      verified := fun _ _ _ ha => by cases ha
      settled := fun hne => absurd hnone hne }
    cases hattempt.symm.trans (h.closed hl)
  | prepare hattempt hsettlement hgrant hplan =>
    refine { h with
      verified := fun t r v ht => ⟨(h.verified t r v ht).1, fun hnone => by cases hnone⟩
      settled := fun _ => ⟨_, _, _, hattempt⟩ }
  | receipt hsettlement =>
    have hne : s.settlement ≠ .none := by
      rw [hsettlement]
      intro hnone
      cases hnone
    refine { h with
      verified := fun t r v ht => ⟨(h.verified t r v ht).1, fun hnone => by cases hnone⟩
      settled := fun _ => h.settled hne }

end Steps

variable {policy : EnginePolicy}

/-- The invariant holds in every run. -/
theorem inv_of_traced {node : NodeId} {log : List Entry} {s : Aggregate}
    (h : Traced node policy log s) : Inv policy s := by
  induction h with
  | start => exact inv_new node policy
  | step _ hstep ih => exact inv_step ih hstep

/-! ## Sandboxes -/

/-- The attempt whose sandbox an effect starts. -/
def Effect.started : Effect → Option AttemptId
  | .startSandbox _ _ _ _ attemptId _ _ _ => some attemptId
  | _ => none

def Effect.Stops (e : Effect) (attemptId : AttemptId) : Prop :=
  ∃ effectId nodeId leaseId reason, e = .stopSandbox effectId nodeId leaseId (some attemptId) reason

/-- The attempt whose sandbox is up after the effect. -/
def sandboxAfter (up : Option AttemptId) : Effect → Option AttemptId
  | .startSandbox _ _ _ _ attemptId _ _ _ => some attemptId
  | .stopSandbox _ _ _ attemptId _ => if attemptId = up then none else up
  | .postServiceCredit .. => up

/-- No sandbox is started while another one is up. -/
def Alternating : Option AttemptId → List Effect → Prop
  | _, [] => True
  | up, e :: rest => (e.started ≠ none → up = none) ∧ Alternating (sandboxAfter up e) rest

theorem alternating_append {up : Option AttemptId} {l l' : List Effect} :
    Alternating up (l ++ l') ↔ Alternating up l ∧ Alternating (l.foldl sandboxAfter up) l' := by
  induction l generalizing up with
  | nil => simp [Alternating]
  | cons e l ih => simp only [List.cons_append, Alternating, ih, List.foldl_cons, and_assoc]

/-- A sandbox that is up has been stopped before the next one starts. -/
theorem stop_between {a b : AttemptId} {mid post : List Effect} {e : Effect}
    (h : Alternating (some a) (mid ++ e :: post)) (he : e.started = some b) :
    ∃ stop ∈ mid, stop.Stops a := by
  induction mid with
  | nil =>
    have hup := h.1 (by rw [he]; exact Option.some_ne_none b)
    cases hup
  | cons first mid ih =>
    obtain ⟨hfirst, hrest⟩ := h
    have hlater : Alternating (some a) (mid ++ e :: post) → ∃ stop ∈ first :: mid, stop.Stops a :=
      fun h => (ih h).imp fun stop hs => ⟨List.mem_cons_of_mem _ hs.1, hs.2⟩
    cases first with
    | startSandbox => exact absurd (hfirst (Option.some_ne_none _)) (Option.some_ne_none a)
    | postServiceCredit => exact hlater hrest
    | stopSandbox effectId nodeId leaseId attemptId reason =>
      by_cases ha : attemptId = some a
      · subst ha
        exact ⟨_, List.mem_cons_self, effectId, nodeId, leaseId, reason, rfl⟩
      · simp only [sandboxAfter, if_neg ha] at hrest
        exact hlater hrest

/-- The sandbox that is up is that of the running attempt. -/
def Aggregate.sandbox (s : Aggregate) : Option AttemptId :=
  match s.attempt with
  | .running attempt => some attempt.id
  | _ => none

theorem sandbox_stopWork (s : Aggregate) (reason : StopReason) :
    (s.stopWork reason).sandbox = none := by
  unfold Aggregate.sandbox Aggregate.stopWork
  cases s.attempt <;> rfl

/-- The effect that stops everything stops the sandbox that is up. -/
theorem sandboxAfter_stopSandboxEffect (s : Aggregate) (key : IdempotencyKey)
    (reason : SandboxStopReason) :
    sandboxAfter s.sandbox (stopSandboxEffect s key reason) = none := by
  unfold Aggregate.sandbox stopSandboxEffect Aggregate.activeAttemptId sandboxAfter
  cases s.attempt <;> simp

theorem step_alternating {key : IdempotencyKey} {generation : UInt64}
    {s s' : Aggregate} {command : Command} {effects : List Effect}
    (h : Step policy key generation s command effects s') :
    Alternating s.sandbox effects ∧ effects.foldl sandboxAfter s.sandbox = s'.sandbox := by
  cases h with
  | grant hconsent hidle hsettled hvalid htime | offer hgrant hlease hidle hid hgen hmode hwithin =>
    refine ⟨trivial, ?_⟩
    unfold Aggregate.hasOutstandingAssignment at hidle
    show s.sandbox = none
    unfold Aggregate.sandbox
    split
    · next attempt hattempt =>
      rw [hattempt] at hidle
      cases hidle
    · rfl
  | observe htime hpending => exact ⟨trivial, rfl⟩
  | expire htime hconsent hgrant hdue =>
    refine ⟨⟨fun h => absurd rfl h, trivial⟩, ?_⟩
    rw [sandbox_stopWork]
    exact sandboxAfter_stopSandboxEffect s key .consentExpired
  | openLease hgrant hlease hid hgen hmode hwithin => exact ⟨trivial, rfl⟩
  | start hgrant hlease hattempt hid =>
    refine ⟨⟨fun _ => ?_, trivial⟩, rfl⟩
    simp only [Aggregate.sandbox, hattempt]
  | submit hgrant hlease hattempt hproducer hwithin =>
    refine ⟨⟨fun h => absurd rfl h, trivial⟩, ?_⟩
    simp only [Aggregate.sandbox, hattempt, List.foldl_cons, List.foldl_nil, sandboxAfter, if_true]
  | verify hattempt hverifier | reject hattempt =>
    refine ⟨trivial, ?_⟩
    simp only [Aggregate.sandbox, hattempt, List.foldl_nil]
  | prepare hattempt hsettlement hgrant hplan => exact ⟨⟨fun h => absurd rfl h, trivial⟩, rfl⟩
  | receipt hsettlement => exact ⟨trivial, rfl⟩
  | revoke hgrant hid =>
    refine ⟨⟨fun h => absurd rfl h, trivial⟩, ?_⟩
    rw [sandbox_stopWork]
    exact sandboxAfter_stopSandboxEffect s key .consentRevoked

theorem traced_alternating {node : NodeId} {log : List Entry}
    {s : Aggregate} (h : Traced node policy log s) :
    Alternating none (log.flatMap Entry.effects) ∧
      (log.flatMap Entry.effects).foldl sandboxAfter none = s.sandbox := by
  induction h with
  | start => exact ⟨trivial, rfl⟩
  | step _ hstep ih =>
    obtain ⟨halt, hup⟩ := ih
    obtain ⟨halt', hup'⟩ := step_alternating hstep
    simp only [List.flatMap_append, List.flatMap_cons, List.flatMap_nil, List.append_nil,
      alternating_append, List.foldl_append, hup]
    exact ⟨⟨halt, halt'⟩, hup'⟩

/-! ## After the end of a grant -/

/-- A revocation, or an observation of the time at which the active grant ends. -/
def EndsConsent (s : Aggregate) : Command → Prop
  | .revokeConsent .. => True
  | .observeTime t => ∃ id g, s.consent = .active id ∧ s.grant = some g ∧ g.expiresAtMs ≤ t
  | _ => False

def Command.IsGrant : Command → Prop
  | .grantConsent _ => True
  | _ => False

/-- The commands that make or do work. -/
def Command.IsWork : Command → Prop
  | .openLease _ | .offerAssignment _ | .startAttempt .. | .submitResult .. => True
  | _ => False

section Steps

variable {policy : EnginePolicy} {key : IdempotencyKey} {generation : UInt64} {s s' : Aggregate}
  {command : Command} {effects : List Effect}

theorem Step.ends (h : Step policy key generation s command effects s')
    (hends : EndsConsent s command) (id : GrantId) : s'.consent ≠ .active id := by
  cases h with
  | observe htime hpending =>
    obtain ⟨id', g, hid, hg, hdue⟩ := hends
    exact absurd (hpending id' g hid hg) (UInt64.not_lt.mpr hdue)
  | expire htime hconsent hgrant hdue => exact nofun
  | revoke hgrant hid => exact nofun
  | _ => exact hends.elim

theorem Step.inactive (h : Step policy key generation s command effects s')
    (hgrant : ¬ command.IsGrant) (hs : ∀ id, s.consent ≠ .active id) (id : GrantId) :
    s'.consent ≠ .active id := by
  cases h with
  | grant => exact absurd trivial hgrant
  | expire => exact nofun
  | revoke => exact nofun
  | _ => exact hs id

/-- Work needs an active grant. -/
theorem Step.granted (h : Step policy key generation s command effects s')
    (hwork : command.IsWork) : ∃ g, s.Granted g := by
  cases h with
  | openLease hgrant => exact ⟨_, hgrant⟩
  | offer hgrant => exact ⟨_, hgrant⟩
  | start hgrant => exact ⟨_, hgrant⟩
  | submit hgrant => exact ⟨_, hgrant⟩
  | _ => exact hwork.elim

end Steps

/-! ## Main theorem -/

/-- What a start of a sandbox must find: an active grant that is in time, the open lease and the
offered assignment that it names, both of the current generation. -/
def Aggregate.Startable (s : Aggregate) (leaseId : LeaseId) (assignmentId : AssignmentId) : Prop :=
  ∃ g lease assignment, s.Granted g ∧ s.consent = .active g.id ∧
    s.lease = .active lease ∧ lease.id = leaseId ∧ lease.generation = s.generation ∧
    lease.grantId = g.id ∧ s.attempt = .offered assignment ∧ assignment.id = assignmentId ∧
    assignment.leaseId = leaseId ∧ assignment.generation = s.generation

section Main

variable [CommandDebug]

/-- The envelope is accepted, and not as a replay. -/
def ComputeExchange.Accepts (x : ComputeExchange) (envelope : CommandEnvelope) : Prop :=
  ∃ events effects, (x.handle envelope).1 = .accepted ⟨events, effects, false⟩

/-- An envelope that is accepted is a step. -/
theorem ComputeExchange.Accepts.step {x : ComputeExchange} {envelope : CommandEnvelope}
    (h : x.Accepts envelope) : ∃ effects, (x.handle envelope).1.effects = effects ∧
      Step x.policy envelope.idempotencyKey (expectedGeneration x.aggregate envelope.command)
        x.aggregate envelope.command effects (x.handle envelope).2.aggregate := by
  obtain ⟨events, effects, hout⟩ := h
  rcases x.entry_cases envelope with ⟨hnone, -⟩ | ⟨e, -, heffects, hnext, -, -, hstep⟩
  · cases ComputeExchange.replayed_of_entry_eq_none hnone hout
  · exact ⟨e.effects, heffects, hnext ▸ hstep⟩

variable {x : ComputeExchange} {envelope : CommandEnvelope}

/-- The step behind an effect. -/
theorem step_of_mem_effects {e : Effect} (h : e ∈ (x.handle envelope).1.effects) :
    ∃ effects s', e ∈ effects ∧ Step x.policy envelope.idempotencyKey
      (expectedGeneration x.aggregate envelope.command) x.aggregate envelope.command
      effects s' := by
  rcases x.entry_cases envelope with ⟨-, hnil, -⟩ | ⟨entry, -, heffects, -, -, -, hstep⟩
  · rw [hnil] at h
    cases h
  · exact ⟨entry.effects, entry.next, heffects ▸ h, hstep⟩

/-- While no grant is active, the work commands are not accepted; what is answered as accepted is a
replay and has no effects. -/
theorem work_refused (hx : ∀ id, x.aggregate.consent ≠ .active id) (hwork : envelope.command.IsWork)
    {d : AcceptedDecision} (hd : (x.handle envelope).1 = .accepted d) :
    d.replayed = true ∧ d.effects = [] := by
  rcases x.entry_cases envelope with ⟨hnone, hnil, -⟩ | ⟨e, -, -, -, -, -, hstep⟩
  · refine ⟨ComputeExchange.replayed_of_entry_eq_none hnone hd, ?_⟩
    rwa [hd] at hnil
  · obtain ⟨g, hg⟩ := hstep.granted hwork
    obtain ⟨id, hid⟩ := hg.consent
    exact absurd hid (hx id)

/-- No grant becomes active but by an accepted grant. -/
theorem inactive_handle (hgrant : ¬ (envelope.command.IsGrant ∧ x.Accepts envelope))
    (hx : ∀ id, x.aggregate.consent ≠ .active id) (id : GrantId) :
    (x.handle envelope).2.aggregate.consent ≠ .active id := by
  rcases x.entry_cases envelope with ⟨-, -, hsame⟩ | ⟨e, hsome, -, hnext, -, -, hstep⟩
  · rw [hsame]
    exact hx id
  · rw [hnext]
    refine hstep.inactive (fun hisGrant => hgrant ⟨hisGrant, ?_⟩) hx id
    unfold ComputeExchange.entry at hsome
    split at hsome
    · next events effects hout => exact ⟨events, effects, hout⟩
    · cases hsome

theorem inactive_after {mid : List CommandEnvelope}
    (hmid : ∀ before envelope rest, mid = before ++ envelope :: rest →
      ¬ (envelope.command.IsGrant ∧ (after ComputeExchange.handle x before).Accepts envelope))
    (hx : ∀ id, x.aggregate.consent ≠ .active id) (id : GrantId) :
    (after ComputeExchange.handle x mid).aggregate.consent ≠ .active id := by
  induction mid generalizing x with
  | nil => exact hx id
  | cons envelope mid ih =>
    have hfirst := hmid [] envelope mid rfl
    refine ih (fun before e rest heq => ?_) (inactive_handle hfirst hx)
    exact hmid (envelope :: before) e rest (by rw [heq, List.cons_append])

/-- Consent gates every execution. Whatever the policy and the envelopes: a start of a sandbox finds
an active grant that is in time, and names the open lease and the offered assignment of the current
generation; between two starts there is a stop that names the attempt of the first; and after an
accepted revocation or an observed expiry, no command that makes or does work is accepted until a
grant is, and what is answered as accepted is a replay without effects. -/
theorem consent_gates_execution (node : NodeId) (policy : EnginePolicy) :
    (∀ done envelope effectId nodeId leaseId assignmentId attemptId mode resources digest,
      .startSandbox effectId nodeId leaseId assignmentId attemptId mode resources digest ∈
        ((after ComputeExchange.handle (.new node policy) done).handle envelope).1.effects →
      (after ComputeExchange.handle (.new node policy) done).aggregate.Startable leaseId
        assignmentId) ∧
    (∀ l pre mid post first second a b,
      (outputs ComputeExchange.handle (.new node policy) l).flatMap CommandOutcome.effects =
        pre ++ first :: mid ++ second :: post →
      first.started = some a → second.started = some b → ∃ stop ∈ mid, stop.Stops a) ∧
    (∀ done ended mid envelope,
      (after ComputeExchange.handle (.new node policy) done).Accepts ended →
      EndsConsent (after ComputeExchange.handle (.new node policy) done).aggregate ended.command →
      (∀ before e rest, mid = before ++ e :: rest → ¬ (e.command.IsGrant ∧
        (after ComputeExchange.handle (.new node policy) (done ++ ended :: before)).Accepts e)) →
      envelope.command.IsWork →
      ∀ d, ((after ComputeExchange.handle (.new node policy) (done ++ ended :: mid)).handle
        envelope).1 = .accepted d → d.replayed = true ∧ d.effects = []) := by
  refine ⟨?_, ?_, ?_⟩
  · intro done envelope effectId nodeId leaseId assignmentId attemptId mode resources digest hmem
    have hinv := inv_of_traced (traced_log node policy done)
    generalize after ComputeExchange.handle (.new node policy) done = x at hinv hmem ⊢
    obtain ⟨effects, s', hin, hstep⟩ := step_of_mem_effects hmem
    generalize envelope.command = command at hstep
    cases hstep with
    | @start _ assignment lease g hgrant hlease hattempt hid =>
      cases List.mem_singleton.mp hin
      obtain ⟨l, hl, -, hgen, -⟩ := hinv.offered assignment hattempt
      obtain ⟨g', hg', hgrantId, hleaseGen, -⟩ := hinv.lease lease hlease
      obtain ⟨id, hconsent⟩ := hgrant.consent
      obtain ⟨g'', hg'', hgid, -⟩ := hinv.consent id hconsent
      cases hgrant.grant.symm.trans hg'.grant
      cases hgrant.grant.symm.trans hg''.grant
      exact ⟨g, lease, assignment, hgrant, hgid ▸ hconsent, hlease, rfl, hleaseGen, hgrantId,
        hattempt, rfl, hid, hgen⟩
    | expire | submit | prepare | revoke => cases List.mem_singleton.mp hin
    | _ => cases hin
  · intro l pre mid post first second a b heffects hfirst hsecond
    have halt := (traced_alternating (traced_log node policy l)).1
    rw [← ComputeExchange.effects_eq_log, heffects, List.append_assoc, List.cons_append,
      alternating_append] at halt
    obtain ⟨-, -, hrest⟩ := halt
    have hup : sandboxAfter (pre.foldl sandboxAfter none) first = some a := by
      cases first <;> first | exact hfirst | cases hfirst
    rw [hup] at hrest
    exact stop_between hrest hsecond
  · intro done ended mid envelope haccepts hends hmid hwork d hd
    obtain ⟨_, -, hstep⟩ := haccepts.step
    have hended := hstep.ends hends
    simp only [after_append, after_cons] at hmid hd
    exact work_refused (inactive_after hmid hended) hwork hd

end Main

end P2P333.ComputeExchange333
