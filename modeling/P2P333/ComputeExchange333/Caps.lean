import P2P333.ComputeExchange333.Consent

/-!
# Caps never expand

Policy, grant, lease, assignment, attempt and reported usage form a chain in which each link is
within the one before it. The mode of the execution is another matter: lease and assignment are
checked against the flag of the policy only. A grant for foreground execution under a policy that
allows more is served in any mode.

Results:
1. `caps_never_expand`: the chain holds in every run, and the flag of the grant is kept in the runs
   in which the offers keep it.
-/

namespace P2P333.ComputeExchange333

open Lib Machine

/-! ## The flag of the grant -/

/-- The checks that an offer has to pass, but for that of its mode: the envelope is new and of the
current generation, grant and lease are in force, no assignment is outstanding, and the assignment
is made out to the lease, within its resources. -/
structure Offerable (x : ComputeExchange) (envelope : CommandEnvelope) (a : Assignment)
    (g : ResourceGrant) (lease : ResourceLease) : Prop where
  keyed : envelope.idempotencyKey.isEmpty = false
  fresh : x.inbox[envelope.idempotencyKey]? = none
  current : envelope.generation = expectedGeneration x.aggregate envelope.command
  granted : x.aggregate.Granted g
  leased : x.aggregate.lease = .active lease
  idle : x.aggregate.hasOutstandingAssignment = false
  room : x.policy.maximumOutstandingAssignments ≠ 0
  recorded : a.leaseId = lease.id ∧ a.generation = x.aggregate.generation
  named : (a.id.isEmpty || a.requester.isEmpty || a.workloadDigest.isEmpty) = false
  nonzero : a.resources.validateNonzero = .ok ()
  within : a.resources.Within lease.resources

/-- An assignment that passes the other checks is offered in the mode that the grant asks for, or
the policy asks for it too. -/
def KeepsMode (x : ComputeExchange) (envelope : CommandEnvelope) : Prop :=
  match envelope.command with
  | .offerAssignment a => ∀ g lease, Offerable x envelope a g lease →
    g.browserForegroundOnly = true →
      x.policy.browserForegroundOnly = true ∨ a.mode = .browserForeground
  | _ => True

/-- The offered assignment is in the mode that the grant asks for. -/
def ModeKept (s : Aggregate) : Prop :=
  ∀ a g, s.attempt = .offered a → s.grant = some g → g.browserForegroundOnly = true →
    a.mode = .browserForeground

theorem validateMode_eq_ok {policy : EnginePolicy} {mode : ExecutionMode} {u : Unit} :
    validateMode policy mode = .ok u ↔
      (policy.browserForegroundOnly = true → mode = .browserForeground) := by
  rw [validateMode, refuseIf_eq_ok, not_and, not_ne_iff]

theorem step_modeKept {x : ComputeExchange} {envelope : CommandEnvelope} {s' : Aggregate}
    {effects : List Effect} (hkey : envelope.idempotencyKey.isEmpty = false)
    (hnew : x.inbox[envelope.idempotencyKey]? = none)
    (hcurrent : envelope.generation = expectedGeneration x.aggregate envelope.command)
    (h : Step x.policy envelope.idempotencyKey envelope.generation x.aggregate envelope.command
      effects s')
    (hcommand : KeepsMode x envelope) (hs : ModeKept x.aggregate) : ModeKept s' := by
  intro a g ha hg hflag
  unfold KeepsMode at hcommand
  generalize hc : envelope.command = command at h hcommand
  cases h with
  | observe htime hpending => exact hs a g ha hg hflag
  | openLease hgrant hlease hid hgen hmode hwithin => exact hs a g ha hg hflag
  | @offer _ lease _ hgrant hlease hidle hid hgen hmode hwithin hroom hnamed hnonzero =>
    cases ha
    cases hgrant.grant.symm.trans hg
    rcases hcommand g lease ⟨hkey, hnew, hcurrent, hgrant, hlease, hidle, hroom, ⟨hid, hgen⟩,
      hnamed, hnonzero, hwithin⟩ hflag with hpolicy | hforeground
    · exact validateMode_eq_ok.mp hmode hpolicy
    · exact hforeground
  | prepare hattempt hsettlement hgrant hplan => exact hs a g ha hg hflag
  | receipt hsettlement => exact hs a g ha hg hflag
  | expire htime hconsent hgrant hdue | revoke hgrant hid =>
    unfold Aggregate.stopWork at ha
    cases ht : x.aggregate.attempt <;> simp [ht] at ha
  | _ => cases ha

section Main

variable [CommandDebug]

theorem handle_modeKept {x : ComputeExchange} {envelope : CommandEnvelope}
    (h : KeepsMode x envelope) (hx : ModeKept x.aggregate) :
    ModeKept (x.handle envelope).2.aggregate := by
  have hcases := handle_cases x envelope
  generalize (x.handle envelope).1 = outcome at hcases
  generalize (x.handle envelope).2 = x' at hcases ⊢
  cases hcases with
  | accept hkey hnew hcurrent hstep => exact step_modeKept hkey hnew hcurrent hstep h hx
  | emptyKey | conflict | replay | decline => exact hx

theorem after_modeKept {node : NodeId} {policy : EnginePolicy} {done : List CommandEnvelope}
    (h : ∀ before envelope, before ++ [envelope] <+: done →
      KeepsMode (after ComputeExchange.handle (.new node policy) before) envelope) :
    ModeKept (after ComputeExchange.handle (.new node policy) done).aggregate := by
  induction done using List.reverseRecOn with
  | nil => exact fun _ _ ha => nomatch ha
  | append_singleton done envelope ih =>
    rw [after_concat]
    refine handle_modeKept (h done envelope List.prefix_rfl)
      (ih fun before e hinit => h before e ?_)
    exact hinit.trans (List.prefix_append _ _)

/-- Caps never expand along the chain, in every run in which the assignments that are accepted have
the mode that the grant asks for: a sandbox is started with the resources and the mode of the
offered assignment, these are within the open lease, the active grant and the maximum of the policy,
and a grant for foreground execution is served in the foreground. A result that is accepted reports
usage within the resources of the running attempt. -/
theorem caps_never_expand {node : NodeId} {policy : EnginePolicy} {l : List CommandEnvelope}
    (h : ∀ done envelope, done ++ [envelope] <+: l →
      KeepsMode (after ComputeExchange.handle (.new node policy) done) envelope)
    {done : List CommandEnvelope} {envelope : CommandEnvelope} (hdone : done ++ [envelope] <+: l)
    {x : ComputeExchange} (hx : x = after ComputeExchange.handle (.new node policy) done) :
    (∀ effectId nodeId leaseId assignmentId attemptId mode resources digest,
      .startSandbox effectId nodeId leaseId assignmentId attemptId mode resources digest ∈
        (x.handle envelope).1.effects →
      ∃ g lease assignment, x.aggregate.Granted g ∧ x.aggregate.lease = .active lease ∧
        x.aggregate.attempt = .offered assignment ∧ resources.Within assignment.resources ∧
        assignment.resources.Within lease.resources ∧ lease.resources.Within g.caps ∧
        g.caps.Within policy.maximum ∧
        (g.browserForegroundOnly = true → mode = .browserForeground)) ∧
    (∀ attemptId result, envelope.command = .submitResult attemptId result → x.Accepts envelope →
      ∃ attempt, x.aggregate.attempt = .running attempt ∧ attempt.id = attemptId ∧
        result.usage.Within attempt.resources) := by
  subst hx
  have hinv := inv_of_traced (traced_log node policy done)
  have hmode : ModeKept (after ComputeExchange.handle (.new node policy) done).aggregate :=
    after_modeKept fun before e hinit =>
      h before e (hinit.trans ((List.prefix_append _ _).trans hdone))
  have hpolicy := (ComputeExchange.new node policy).policy_after done
  generalize after ComputeExchange.handle (.new node policy) done = x at hinv hmode hpolicy ⊢
  refine ⟨?_, ?_⟩
  · intro effectId nodeId leaseId assignmentId attemptId mode resources digest hmem
    obtain ⟨effects, s', hin, hstep⟩ := step_of_mem_effects hmem
    generalize envelope.command = command at hstep
    cases hstep with
    | @start _ assignment lease g hgrant hlease hattempt hid =>
      cases List.mem_singleton.mp hin
      obtain ⟨l, hl, -, -, -, hwithin⟩ := hinv.offered assignment hattempt
      obtain ⟨g', hg', -, -, -, hleaseWithin⟩ := hinv.lease lease hlease
      obtain ⟨id, hconsent⟩ := hgrant.consent
      obtain ⟨g'', hg'', -, hvalid⟩ := hinv.consent id hconsent
      cases hlease.symm.trans hl
      cases hgrant.grant.symm.trans hg'.grant
      cases hgrant.grant.symm.trans hg''.grant
      exact ⟨g, lease, assignment, hgrant, hlease, hattempt, .rfl, hwithin, hleaseWithin,
        (validateGrant_spec hvalid).within, hmode assignment g hattempt hgrant.grant⟩
    | expire | submit | prepare | revoke => cases List.mem_singleton.mp hin
    | _ => cases hin
  · intro attemptId result hcommand haccepts
    obtain ⟨_, -, hstep⟩ := haccepts.step
    rw [hcommand] at hstep
    generalize (x.handle envelope).2.aggregate = s' at hstep
    cases hstep with
    | submit hgrant hlease hattempt hproducer hwithin => exact ⟨_, hattempt, rfl, hwithin⟩

end Main

namespace Demo

/-- A policy that allows more than the foreground. -/
def openPolicy : EnginePolicy := { EnginePolicy.browserAlphaV1 with browserForegroundOnly := false }

/-- The grant is for the foreground, and the sandbox is started natively. -/
theorem native_under_foreground_grant :
    ¬ (∀ done envelope, ∀ effectId nodeId leaseId assignmentId attemptId mode resources digest g,
      .startSandbox effectId nodeId leaseId assignmentId attemptId mode resources digest ∈
        ((after ComputeExchange.handle (.new ⟨"node-1"⟩ openPolicy) done).handle
          envelope).1.effects →
      (after ComputeExchange.handle (.new ⟨"node-1"⟩ openPolicy) done).aggregate.grant = some g →
      g.browserForegroundOnly = true → mode = .browserForeground) := by
  intro h
  have hmode := h ((started .nativeNode).take 3)
    (envelope "start" (.startAttempt ⟨"attempt-1"⟩ ⟨"assignment-1"⟩))
    ⟨"start:start-sandbox"⟩ ⟨"node-1"⟩ ⟨"lease-1"⟩ ⟨"assignment-1"⟩ ⟨"attempt-1"⟩ .nativeNode caps
    "workload" grant (by decide +kernel) (by decide +kernel) rfl
  cases hmode

/-- Under the first policy, the sandbox of the same grant is started within its caps. -/
theorem caps_never_expand_demo :
    ∃ (g : ResourceGrant) (l : ResourceLease) (a : Assignment), caps.Within a.resources ∧
      a.resources.Within l.resources ∧ l.resources.Within g.caps ∧
      g.caps.Within EnginePolicy.browserAlphaV1.maximum := by
  have hkeeps : ∀ done envelope, done ++ [envelope] <+: started .browserForeground →
      KeepsMode (after ComputeExchange.handle (.new ⟨"node-1"⟩ .browserAlphaV1) done)
        envelope := by
    intro done envelope _
    unfold KeepsMode
    split
    · refine fun g lease _ _ => .inl ?_
      rw [ComputeExchange.policy_after]
      rfl
    · trivial
  have hlast : (started .browserForeground).take 3 ++
      [envelope "start" (.startAttempt ⟨"attempt-1"⟩ ⟨"assignment-1"⟩)] <+:
        started .browserForeground := List.prefix_rfl
  have hstart := (caps_never_expand hkeeps hlast rfl).1 ⟨"start:start-sandbox"⟩ ⟨"node-1"⟩
    ⟨"lease-1"⟩ ⟨"assignment-1"⟩ ⟨"attempt-1"⟩ .browserForeground caps "workload"
    (by decide +kernel)
  obtain ⟨g, l, a, -, -, -, ha, hl, hg, hmax, -⟩ := hstart
  exact ⟨g, l, a, ha, hl, hg, hmax⟩

end Demo

end P2P333.ComputeExchange333
