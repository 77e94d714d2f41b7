import P2P333.ComputeExchange333.Consent

/-!
# The kernel and its state machines

`COMPUTE_EXCHANGE_FSM_SPEC.json` describes one generation by two machines, consent and work. The
kernel keeps four fields instead; `consentPhase` and `workPhase` map them to the states of the
machines.

The tables do not say everything that the kernel accepts. A time observation that ends nothing is no
event of the tables. An end of consent that finds the work closed, failed or posted leaves it there.
And while the lease is open, a posted or failed assignment can be followed by another offer,
although the table has both states as final ones.

Results:
1. `refines_fsm`: every accepted command is a transition of the tables, with these three exceptions.
2. `final_states`: a final state is left by a new offer only, and the stopped one not at all.
-/

namespace P2P333.ComputeExchange333

open Lib Machine

/-! ## The tables -/

/-- The states of the consent machine of the specification. -/
inductive ConsentPhase where
  | unseen | active | revoked | expired
deriving DecidableEq

/-- The events of the consent machine. -/
inductive ConsentEvent where
  | grantConsent | revokeConsent | timeout
deriving DecidableEq

/-- The states of the work machine of the specification. -/
inductive WorkPhase where
  | closed | leased | offered | running | submitted | submittedStopped | verified | verifiedStopped
  | prepared | preparedStopped | posted | failed | stopped
deriving DecidableEq

/-- The events of the work machine. -/
inductive WorkEvent where
  | openLease | offerAssignment | startAttempt | submitResult | verifyAccept | verifyReject
  | prepareSettlement | recordReceipt | stop
deriving DecidableEq

def consentTransitions : List (ConsentPhase × ConsentEvent × ConsentPhase) :=
  [(.unseen, .grantConsent, .active), (.active, .revokeConsent, .revoked),
    (.active, .timeout, .expired)]

def workTransitions : List (WorkPhase × WorkEvent × WorkPhase) :=
  [(.closed, .openLease, .leased), (.leased, .offerAssignment, .offered),
    (.offered, .startAttempt, .running), (.running, .submitResult, .submitted),
    (.submitted, .verifyAccept, .verified), (.submitted, .verifyReject, .failed),
    (.verified, .prepareSettlement, .prepared), (.prepared, .recordReceipt, .posted),
    (.leased, .stop, .stopped), (.offered, .stop, .stopped), (.running, .stop, .stopped),
    (.submitted, .stop, .submittedStopped), (.submittedStopped, .verifyAccept, .verifiedStopped),
    (.submittedStopped, .verifyReject, .failed), (.verified, .stop, .verifiedStopped),
    (.verifiedStopped, .prepareSettlement, .preparedStopped), (.prepared, .stop, .preparedStopped),
    (.preparedStopped, .recordReceipt, .posted)]

/-- The states that the table marks as final. -/
def WorkPhase.Final (w : WorkPhase) : Prop := w = .posted ∨ w = .failed ∨ w = .stopped

/-! ## The abstraction -/

namespace Aggregate

def consentPhase (s : Aggregate) : ConsentPhase :=
  match s.consent with
  | .unseen => .unseen
  | .active _ => .active
  | .revoked .. => .revoked
  | .expired .. => .expired

def workPhase (s : Aggregate) : WorkPhase :=
  match s.attempt, s.lease, s.settlement with
  | .none, .closed, _ => .closed
  | .none, .active _, _ => .leased
  | .none, .stopped .., _ => .stopped
  | .offered _, _, _ => .offered
  | .running _, _, _ => .running
  | .resultSubmitted .., .stopped .., _ => .submittedStopped
  | .resultSubmitted .., _, _ => .submitted
  | .verified .., .stopped .., .none => .verifiedStopped
  | .verified .., _, .none => .verified
  | .verified .., .stopped .., .prepared _ => .preparedStopped
  | .verified .., _, .prepared _ => .prepared
  | .verified .., _, .posted .. => .posted
  | .failed _ _ (.verificationRejected _), _, _ => .failed
  | .failed _ _ _, _, _ => .stopped

end Aggregate

/-- The stop that follows the end of consent: a transition, or none in a state that has none. -/
def Stop (w w' : WorkPhase) : Prop :=
  (w, .stop, w') ∈ workTransitions ∨ w' = w ∧ (w = .closed ∨ w = .posted ∨ w = .failed)

instance (w w' : WorkPhase) : Decidable (Stop w w') := inferInstanceAs (Decidable (_ ∨ _ ∧ _))

/-- The event of the work machine that a command stands for. -/
def Command.workEvent : Command → Option WorkEvent
  | .openLease _ => some .openLease
  | .offerAssignment _ => some .offerAssignment
  | .startAttempt .. => some .startAttempt
  | .submitResult .. => some .submitResult
  | .verifyResult _ _ _ .accept => some .verifyAccept
  | .verifyResult _ _ _ (.reject _) => some .verifyReject
  | .prepareSettlement .. => some .prepareSettlement
  | .recordSettlementReceipt _ => some .recordReceipt
  | .grantConsent _ | .observeTime _ | .revokeConsent .. => none

/-- What an accepted command does in terms of the tables. -/
inductive Refines (s s' : Aggregate) : Command → Prop
  /-- A grant begins a generation in the initial states of both machines. -/
  | grant {g : ResourceGrant}
    (hconsent : (.unseen, .grantConsent, s'.consentPhase) ∈ consentTransitions)
      (hwork : s'.workPhase = .closed) : Refines s s' (.grantConsent g)
  | observe {t : UInt64} (hends : ¬ EndsConsent s (.observeTime t))
      (hconsent : s'.consentPhase = s.consentPhase) (hwork : s'.workPhase = s.workPhase) :
      Refines s s' (.observeTime t)
  | expire {t : UInt64} (hends : EndsConsent s (.observeTime t))
      (hconsent : (s.consentPhase, .timeout, s'.consentPhase) ∈ consentTransitions)
      (hstop : Stop s.workPhase s'.workPhase) : Refines s s' (.observeTime t)
  | revoke {id : GrantId} {reason : String}
      (hconsent : (s.consentPhase, .revokeConsent, s'.consentPhase) ∈ consentTransitions)
      (hstop : Stop s.workPhase s'.workPhase) : Refines s s' (.revokeConsent id reason)
  | work {command : Command} {event : WorkEvent} (hevent : command.workEvent = some event)
      (hconsent : s'.consentPhase = s.consentPhase)
      (hwork : (s.workPhase, event, s'.workPhase) ∈ workTransitions) : Refines s s' command
  | nextOffer {assignment : Assignment} (hconsent : s'.consentPhase = s.consentPhase)
      (hfinal : s.workPhase = .posted ∨ s.workPhase = .failed) (hwork : s'.workPhase = .offered) :
      Refines s s' (.offerAssignment assignment)

/-! ## The simulation -/

section Steps

variable {policy : EnginePolicy} {key : IdempotencyKey} {s s' : Aggregate} {command : Command}
  {effects : List Effect}

/-- Work that failed because consent ended does not stand on an open lease. -/
def StopsHeld (s : Aggregate) : Prop :=
  ∀ assignmentId attemptId (reason : StopReason),
    s.attempt = .failed assignmentId attemptId reason.failure → ∀ l, s.lease ≠ .active l

theorem lease_stopWork_ne_active (s : Aggregate) (reason : StopReason) (l : ResourceLease) :
    (s.stopWork reason).lease ≠ .active l := by
  unfold Aggregate.stopWork
  cases s.lease <;> exact nofun

theorem step_stopsHeld {generation : UInt64} (h : StopsHeld s) (hinv : Inv policy s)
    (hstep : Step policy key generation s command effects s') : StopsHeld s' := by
  intro assignmentId attemptId reason hattempt l
  cases hstep with
  | grant => exact nofun
  | observe | prepare | receipt => exact h assignmentId attemptId reason hattempt l
  | expire => exact lease_stopWork_ne_active _ _ l
  | revoke => exact lease_stopWork_ne_active _ _ l
  | openLease hgrant hlease =>
    -- a lease is opened when none is open: no work has failed that way under an active grant
    obtain ⟨id, hid⟩ := hgrant.consent
    cases hs : s.lease with
    | closed => cases (hinv.closed hs).symm.trans hattempt
    | active l => exact absurd hs (hlease l)
    | stopped id' reason' => exact absurd hid (hinv.stopped id' reason' hs id)
  | reject => cases reason <;> cases hattempt
  | _ => cases hattempt

/-- The stop of a state whose consent was active. -/
theorem stop_stopWork {t : Aggregate} (h : StopsHeld s) (hinv : Inv policy s)
    (hconsent : ∃ id, s.consent = .active id) (hlease : t.lease = s.lease)
    (hattempt : t.attempt = s.attempt) (hsettlement : t.settlement = s.settlement)
    (reason : StopReason) : Stop s.workPhase (t.stopWork reason).workPhase := by
  obtain ⟨id, hid⟩ := hconsent
  simp only [Aggregate.workPhase, Aggregate.stopWork, hlease, hattempt, hsettlement]
  cases hl : s.lease with
  | stopped id' reason' => exact absurd hid (hinv.stopped id' reason' hl id)
  | closed =>
    simp only [hinv.closed hl]
    decide
  | active l =>
    cases ha : s.attempt with
    | none =>
      dsimp only
      decide
    | offered a | running t =>
      cases reason <;> (dsimp only [StopReason.failure]; decide)
    | resultSubmitted t r =>
      dsimp only
      decide
    | verified t r v =>
      cases s.settlement <;> (dsimp only; decide)
    | failed assignmentId attemptId why =>
      cases why with
      | verificationRejected code =>
        dsimp only
        decide
      | consentRevoked => exact absurd hl (h assignmentId attemptId .consentRevoked ha l)
      | consentExpired => exact absurd hl (h assignmentId attemptId .consentExpired ha l)

theorem workPhase_of_offered {a : Assignment} (h : s.attempt = .offered a) :
    s.workPhase = .offered := by
  simp only [Aggregate.workPhase, h]

theorem workPhase_of_running {t : Attempt} (h : s.attempt = .running t) :
    s.workPhase = .running := by
  simp only [Aggregate.workPhase, h]

/-- The states of the work machine in which an assignment can be offered. -/
theorem workPhase_of_idle (h : StopsHeld s) {l : ResourceLease} (hlease : s.lease = .active l)
    (hidle : s.hasOutstandingAssignment = false) :
    s.workPhase = .leased ∨ s.workPhase = .posted ∨ s.workPhase = .failed := by
  unfold Aggregate.hasOutstandingAssignment at hidle
  simp only [Aggregate.workPhase, hlease]
  cases ha : s.attempt with
  | none => exact .inl rfl
  | offered a => simp [ha] at hidle
  | running t => simp [ha] at hidle
  | resultSubmitted t r => simp [ha] at hidle
  | verified t r v =>
    cases hs : s.settlement with
    | none => simp [ha, hs] at hidle
    | prepared plan => simp [ha, hs] at hidle
    | posted plan receipt => exact .inr (.inl rfl)
  | failed assignmentId attemptId why =>
    cases why with
    | verificationRejected code => exact .inr (.inr rfl)
    | consentRevoked => exact absurd hlease (h assignmentId attemptId .consentRevoked ha l)
    | consentExpired => exact absurd hlease (h assignmentId attemptId .consentExpired ha l)

/-- The simulation, step by step. -/
theorem step_refines (h : StopsHeld s) (hinv : Inv policy s)
    (hstep : Step policy key (expectedGeneration s command) s command effects s') :
    Refines s s' command := by
  cases hstep with
  | grant =>
    have hgrant : (.unseen, .grantConsent, .active) ∈ consentTransitions := by decide
    exact .grant hgrant rfl
  | observe htime hpending =>
    refine .observe ?_ rfl rfl
    -- A time at which the grant has run out is refused.
    rintro ⟨id, g, hid, hg, hdue⟩
    exact absurd (hpending id g hid hg) (UInt64.not_lt.mpr hdue)
  | expire htime hconsent hgrant hdue =>
    refine .expire ⟨_, _, hconsent, hgrant, hdue⟩ ?_ ?_
    · simp only [Aggregate.consentPhase, hconsent, Aggregate.stopWork]
      decide
    · apply stop_stopWork h hinv ⟨_, hconsent⟩
      all_goals rfl
  | revoke hgrant hid =>
    obtain ⟨id, hconsent⟩ := hgrant.consent
    refine .revoke ?_ ?_
    · simp only [Aggregate.consentPhase, hconsent, Aggregate.stopWork]
      decide
    · apply stop_stopWork h hinv ⟨_, hconsent⟩
      all_goals rfl
  | openLease hgrant hlease =>
    obtain ⟨id, hid⟩ := hgrant.consent
    refine .work rfl rfl ?_
    cases hl : s.lease with
    | closed =>
      simp only [Aggregate.workPhase, hl, hinv.closed hl]
      decide
    | active l => exact absurd hl (hlease l)
    | stopped id' reason' => exact absurd hid (hinv.stopped id' reason' hl id)
  | @offer assignment _ _ _ hlease hidle =>
    have hnext : Aggregate.workPhase { s with
        attempt := .offered assignment, settlement := .none } = .offered :=
      workPhase_of_offered (by rfl)
    -- After final work the code takes an offer for which the table has no transition.
    rcases workPhase_of_idle h hlease hidle with hw | hw
    · refine .work rfl rfl ?_
      rw [hw, hnext]
      decide
    · exact .nextOffer rfl hw hnext
  | start hgrant hlease hattempt =>
    refine .work rfl rfl ?_
    rw [workPhase_of_offered hattempt, workPhase_of_running (by rfl)]
    decide
  | submit hgrant hlease hattempt =>
    refine .work rfl rfl ?_
    rw [workPhase_of_running hattempt]
    simp only [Aggregate.workPhase, hlease]
    decide
  | verify hattempt =>
    have hnone : s.settlement = .none := by
      by_contra hne
      obtain ⟨t, r, v, ht⟩ := hinv.settled hne
      cases hattempt.symm.trans ht
    refine .work rfl rfl ?_
    simp only [Aggregate.workPhase, hattempt, hnone]
    cases hl : s.lease with
    | closed => cases (hinv.closed hl).symm.trans hattempt
    | active l =>
      dsimp only
      decide
    | stopped id reason =>
      dsimp only
      decide
  | reject hattempt =>
    refine .work rfl rfl ?_
    simp only [Aggregate.workPhase, hattempt]
    cases s.lease <;> (dsimp only; decide)
  | prepare hattempt hsettlement =>
    refine .work rfl rfl ?_
    simp only [Aggregate.workPhase, hattempt, hsettlement]
    cases s.lease <;> (dsimp only; decide)
  | receipt hsettlement =>
    have hne : s.settlement ≠ .none := by
      rw [hsettlement]
      intro hnone
      cases hnone
    obtain ⟨t, r, v, ht⟩ := hinv.settled hne
    refine .work rfl rfl ?_
    simp only [Aggregate.workPhase, ht, hsettlement]
    cases s.lease <;> (dsimp only; decide)

theorem step_generation {generation : UInt64}
    (hstep : Step policy key generation s command effects s') (hgrant : ¬ command.IsGrant) :
    s'.generation = s.generation := by
  cases hstep with
  | grant => exact absurd trivial hgrant
  | _ => rfl

/-- A final state of the work machine is left by the next offer only, and only by a grant if the
work was stopped. -/
theorem final_states (h : Refines s s' command) (hgrant : ¬ command.IsGrant)
    (hfinal : s.workPhase.Final) : s'.workPhase = s.workPhase ∨
      (∃ assignment, command = .offerAssignment assignment) ∧ s.workPhase ≠ .stopped ∧
        s'.workPhase = .offered := by
  have hnone : ∀ event w', (s.workPhase, event, w') ∉ workTransitions := by
    rcases hfinal with hw | hw | hw
    all_goals
      rw [hw]
      intro event w'
      cases event <;> cases w' <;> decide
  have hstay : Stop s.workPhase s'.workPhase → s'.workPhase = s.workPhase := by
    rintro (hmem | ⟨hsame, -⟩)
    · exact absurd hmem (hnone _ _)
    · exact hsame
  cases h with
  | grant => exact absurd trivial hgrant
  | observe hends hconsent hwork => exact .inl hwork
  | expire hends hconsent hstop => exact .inl (hstay hstop)
  | revoke hconsent hstop => exact .inl (hstay hstop)
  | work hevent hconsent hwork => exact absurd hwork (hnone _ _)
  | nextOffer hconsent hfrom hwork =>
    refine .inr ⟨⟨_, rfl⟩, ?_, hwork⟩
    rcases hfrom with hw | hw <;> rw [hw] <;> decide

end Steps

theorem traced_stopsHeld {node : NodeId} {policy : EnginePolicy} {log : List Entry} {s : Aggregate}
    (h : Traced node policy log s) : StopsHeld s := by
  induction h with
  | start => exact fun _ _ _ => nofun
  | step h hstep ih => exact step_stopsHeld ih (inv_of_traced h) hstep

/-- The kernel refines its state machines. In every run, each accepted command is one transition of
the tables, or a stop that finds nothing to stop, or an observation that changes nothing, or an
offer that follows a posted or failed assignment. Within a generation no other command leaves the
posted and the failed state, and none leaves the stopped one. -/
theorem refines_fsm [CommandDebug] (node : NodeId) (policy : EnginePolicy)
    (l : List CommandEnvelope) : ∀ e ∈ (ComputeExchange.new node policy).log l,
      Refines e.before e.next e.command ∧
      (¬ e.command.IsGrant → e.next.generation = e.before.generation ∧
        (e.before.workPhase.Final → e.next.workPhase = e.before.workPhase ∨
          (∃ assignment, e.command = .offerAssignment assignment) ∧
            e.before.workPhase ≠ .stopped ∧ e.next.workPhase = .offered)) := by
  intro e he
  obtain ⟨done, rest, hlog⟩ := List.append_of_mem he
  have htraced := traced_log node policy l
  rw [hlog] at htraced
  obtain ⟨hdone, key, hstep⟩ := htraced.entry
  have hrefines := step_refines (traced_stopsHeld hdone) (inv_of_traced hdone) hstep
  exact ⟨hrefines, fun hgrant => ⟨step_generation hstep hgrant, final_states hrefines hgrant⟩⟩

namespace Demo

/-- The work of the first lease is offered. -/
theorem refines_fsm_offered :
    ∃ e ∈ (ComputeExchange.new ⟨"node-1"⟩ .browserAlphaV1).log (started .browserForeground),
      e.next.workPhase = .offered ∧ Refines e.before e.next e.command := by
  have hoffered : ∃ e ∈ (ComputeExchange.new ⟨"node-1"⟩ .browserAlphaV1).log
      (started .browserForeground), e.next.workPhase = .offered := by
    decide +kernel
  obtain ⟨e, he, hphase⟩ := hoffered
  exact ⟨e, he, hphase, (refines_fsm ⟨"node-1"⟩ .browserAlphaV1 _ e he).1⟩

/-- An offer that is accepted after the receipt leaves the posted state. -/
theorem offer_after_posted :
    ¬ (∀ l, ∀ e ∈ (ComputeExchange.new ⟨"node-1"⟩ .browserAlphaV1).log l,
      ¬ e.command.IsGrant → e.before.workPhase.Final → e.next.workPhase = e.before.workPhase) := by
  intro h
  have hrun := h (started .browserForeground ++ settled "" ++
    [envelope "offer2" (.offerAssignment (assignment "assignment-2" .browserForeground))])
  have hlast : ∃ e ∈ (ComputeExchange.new ⟨"node-1"⟩ .browserAlphaV1).log
      (started .browserForeground ++ settled "" ++
        [envelope "offer2" (.offerAssignment (assignment "assignment-2" .browserForeground))]),
      e.command = .offerAssignment (assignment "assignment-2" .browserForeground) ∧
        e.before.workPhase = .posted ∧ e.next.workPhase = .offered := by
    decide +kernel
  obtain ⟨e, he, hcommand, hbefore, hnext⟩ := hlast
  have hsame := hrun e he (by rw [hcommand]; exact id) (.inl hbefore)
  rw [hbefore, hnext] at hsame
  cases hsame

end Demo

end P2P333.ComputeExchange333
