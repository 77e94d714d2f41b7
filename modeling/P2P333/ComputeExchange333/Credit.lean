import P2P333.ComputeExchange333.Consent

/-!
# Credit for verified work

A credit is posted by the one settlement that is prepared for a verified result, and a verified
result comes from one start of an attempt. So every credit uses up a start of its own. The ids of
attempts and settlements are the callers': the aggregate forgets the finished ones, and a caller
that gives an id twice finds it in two credits.

Results:
1. `credit_for_verified_work`: every credit is preceded by the start of its attempt and by the
   accepted verification of its result, with no other credit since the start.
-/

namespace P2P333.ComputeExchange333

open Lib Machine

/-! ## Definitions -/

def Effect.credit : Effect → Option SettlementPlan
  | .postServiceCredit _ plan => some plan
  | _ => none

/-- The credits of a log. -/
def credits (log : List Entry) : List SettlementPlan :=
  (log.flatMap Entry.effects).filterMap Effect.credit

def Command.startedId : Command → Option AttemptId
  | .startAttempt attemptId _ => some attemptId
  | _ => none

def Command.preparedId : Command → Option SettlementId
  | .prepareSettlement settlementId _ _ => some settlementId
  | _ => none

/-- The attempt ids that were started, in order. -/
def startedIds (log : List Entry) : List AttemptId := log.filterMap fun e => e.command.startedId

/-- The settlement ids that were prepared, in order. -/
def preparedIds (log : List Entry) : List SettlementId :=
  log.filterMap fun e => e.command.preparedId

/-- The entry starts the attempt. -/
structure Starts (e : Entry) (t : Attempt) : Prop where
  command : ∃ assignmentId, e.command = .startAttempt t.id assignmentId
  next : e.next.attempt = .running t

/-- The entry accepts the result of the attempt, for a verifier that has not produced it. -/
structure Verifies (e : Entry) (t : Attempt) (r : SubmittedResult) : Prop where
  command : ∃ verifier capability, verifier ≠ t.producer ∧
    e.command = .verifyResult t.id verifier capability .accept
  before : e.before.attempt = .resultSubmitted t r

/-- The attempt was started, and nothing was credited since. -/
def StartedBy (log : List Entry) (t : Attempt) : Prop :=
  ∃ before start since, log = before ++ start :: since ∧ Starts start t ∧ credits since = []

/-- The attempt was started and its result verified, and nothing was credited since the start. -/
def VerifiedBy (log : List Entry) (t : Attempt) (r : SubmittedResult) : Prop :=
  ∃ before start mid verify since, log = before ++ start :: (mid ++ verify :: since) ∧
    Starts start t ∧ Verifies verify t r ∧ credits (mid ++ verify :: since) = []

/-! ## Provenance -/

theorem credits_append (l l' : List Entry) : credits (l ++ l') = credits l ++ credits l' := by
  simp only [credits, List.flatMap_append, List.filterMap_append]

variable {log : List Entry} {e : Entry}

theorem StartedBy.concat {t : Attempt} (h : StartedBy log t)
    (he : credits [e] = []) : StartedBy (log ++ [e]) t := by
  obtain ⟨before, start, since, rfl, hstart, hsince⟩ := h
  refine ⟨before, start, since ++ [e], by simp, hstart, ?_⟩
  rw [credits_append, hsince, he]
  rfl

theorem VerifiedBy.concat {t : Attempt} {r : SubmittedResult}
    (h : VerifiedBy log t r) (he : credits [e] = []) : VerifiedBy (log ++ [e]) t r := by
  obtain ⟨before, start, mid, verify, since, rfl, hstart, hverify, hsince⟩ := h
  refine ⟨before, start, mid, verify, since ++ [e], by simp, hstart, hverify, ?_⟩
  rw [← List.cons_append, ← List.append_assoc, credits_append, hsince, he]
  rfl

theorem StartedBy.verified {t : Attempt} {r : SubmittedResult}
    (h : StartedBy log t) (he : credits [e] = []) (hverify : Verifies e t r) :
    VerifiedBy (log ++ [e]) t r := by
  obtain ⟨before, start, since, rfl, hstart, hsince⟩ := h
  refine ⟨before, start, since, e, [], by simp, hstart, hverify, ?_⟩
  rw [credits_append, hsince, he]
  rfl

/-- The log behind the state: where the attempt at hand comes from, and the starts that the credits
used up. An attempt that is not credited yet has a start that is left over. -/
structure Accounted (log : List Entry) (s : Aggregate) : Prop where
  running : ∀ t, s.attempt = .running t → StartedBy log t
  submitted : ∀ t r, s.attempt = .resultSubmitted t r → StartedBy log t
  verified : ∀ t r v, s.attempt = .verified t r v → s.settlement = .none → VerifiedBy log t r
  prepared : (credits log).map SettlementPlan.id = preparedIds log
  used : ((credits log).map SettlementPlan.attemptId).Sublist (startedIds log)
  left : s.settlement = .none → ∀ id, s.activeAttemptId = some id →
    ((credits log).map SettlementPlan.attemptId ++ [id]).Sublist (startedIds log)

theorem activeAttemptId_stopWork {s : Aggregate} {reason : StopReason} {id : AttemptId}
    (h : (s.stopWork reason).activeAttemptId = some id) : s.activeAttemptId = some id := by
  unfold Aggregate.stopWork Aggregate.activeAttemptId at *
  cases hs : s.attempt <;> simp_all

theorem startedIds_concat (h : e.command.startedId = none) :
    startedIds (log ++ [e]) = startedIds log := by
  simp [startedIds, h]

theorem preparedIds_concat (h : e.command.preparedId = none) :
    preparedIds (log ++ [e]) = preparedIds log := by
  simp [preparedIds, h]

theorem credits_concat (h : credits [e] = []) : credits (log ++ [e]) = credits log := by
  rw [credits_append, h, List.append_nil]

section Steps

variable {log : List Entry} {s s' : Aggregate}

/-- An entry that starts, prepares and credits nothing. -/
theorem Accounted.pass (h : Accounted log s) {e : Entry} (hcredit : credits [e] = [])
    (hstart : e.command.startedId = none) (hprepare : e.command.preparedId = none)
    (hrunning : ∀ t, s'.attempt = .running t → StartedBy (log ++ [e]) t)
    (hsubmitted : ∀ t r, s'.attempt = .resultSubmitted t r → StartedBy (log ++ [e]) t)
    (hverified : ∀ t r v, s'.attempt = .verified t r v → s'.settlement = .none →
      VerifiedBy (log ++ [e]) t r)
    (hleft : s'.settlement = .none → ∀ id, s'.activeAttemptId = some id →
      s.settlement = .none ∧ s.activeAttemptId = some id) : Accounted (log ++ [e]) s' where
  running := hrunning
  submitted := hsubmitted
  verified := hverified
  prepared := by
    rw [credits_concat hcredit, preparedIds_concat hprepare]
    exact h.prepared
  used := by
    rw [credits_concat hcredit, startedIds_concat hstart]
    exact h.used
  left hnone id hid := by
    obtain ⟨hs, hactive⟩ := hleft hnone id hid
    rw [credits_concat hcredit, startedIds_concat hstart]
    exact h.left hs id hactive

/-- Such an entry, if it leaves at most the attempt that it found. -/
theorem Accounted.keep (h : Accounted log s) {e : Entry} (hcredit : credits [e] = [])
    (hstart : e.command.startedId = none) (hprepare : e.command.preparedId = none)
    (hrunning : ∀ t, s'.attempt = .running t → s.attempt = .running t)
    (hsubmitted : ∀ t r, s'.attempt = .resultSubmitted t r → s.attempt = .resultSubmitted t r)
    (hverified : ∀ t r v, s'.attempt = .verified t r v → s'.settlement = .none →
      s.attempt = .verified t r v ∧ s.settlement = .none)
    (hleft : s'.settlement = .none → ∀ id, s'.activeAttemptId = some id →
      s.settlement = .none ∧ s.activeAttemptId = some id) : Accounted (log ++ [e]) s' :=
  h.pass hcredit hstart hprepare (fun t ht => (h.running t (hrunning t ht)).concat hcredit)
    (fun t r ht => (h.submitted t r (hsubmitted t r ht)).concat hcredit)
    (fun t r v ht hnone => by
      obtain ⟨hv, hs⟩ := hverified t r v ht hnone
      exact (h.verified t r v hv hs).concat hcredit) hleft

/-- The work is stopped: what was submitted or verified is left. -/
theorem Accounted.stop (h : Accounted log s) {t : Aggregate} (hattempt : t.attempt = s.attempt)
    (hsettlement : t.settlement = s.settlement) {e : Entry} (hcredit : credits [e] = [])
    (hstart : e.command.startedId = none) (hprepare : e.command.preparedId = none)
    (reason : StopReason) : Accounted (log ++ [e]) (t.stopWork reason) := by
  refine h.keep hcredit hstart hprepare (fun a ha => ?_) (fun a r ha => ?_)
    (fun a r v ha hnone => ⟨?_, hsettlement ▸ hnone⟩) (fun hnone id hid =>
      ⟨hsettlement ▸ hnone, ?_⟩)
  · unfold Aggregate.stopWork at ha
    cases ht : t.attempt <;> simp [ht] at ha
  · rw [← hattempt]
    unfold Aggregate.stopWork at ha
    cases ht : t.attempt <;> simp [ht] at ha
    rw [ha.1, ha.2]
  · rw [← hattempt]
    unfold Aggregate.stopWork at ha
    cases ht : t.attempt <;> simp [ht] at ha
    rw [ha.1, ha.2.1, ha.2.2]
  · have hactive := activeAttemptId_stopWork hid
    unfold Aggregate.activeAttemptId at hactive ⊢
    rwa [hattempt] at hactive

theorem step_accounted {policy : EnginePolicy} {key : IdempotencyKey} {generation : UInt64}
    {command : Command} {effects : List Effect} (h : Accounted log s) (hinv : Inv policy s)
    (hstep : Step policy key generation s command effects s') :
    Accounted (log ++ [⟨s, command, effects, s'⟩]) s' := by
  cases hstep with
  | grant hconsent hidle hsettled hvalid htime
  | offer hgrant hlease hidle hid hgen hmode hwithin
  | reject hattempt =>
    exact h.keep rfl rfl rfl (fun _ => nofun) (fun _ _ => nofun) (fun _ _ _ => nofun)
      (fun _ _ => nofun)
  | observe htime hpending | openLease hgrant hlease hid hgen hmode hwithin =>
    exact h.keep rfl rfl rfl (fun _ => id) (fun _ _ => id) (fun _ _ _ => And.intro)
      (fun hs id hid => ⟨hs, hid⟩)
  | expire htime hconsent hgrant hdue =>
    apply h.stop
    all_goals rfl
  | @start attemptId assignment lease g hgrant hlease hattempt hid =>
    exact
      { running := fun t ht => by
          cases ht
          exact ⟨log, _, [], rfl, ⟨⟨_, rfl⟩, rfl⟩, rfl⟩
        submitted := fun _ _ => nofun
        verified := fun _ _ _ => nofun
        prepared := by
          rw [credits_concat (by rfl), preparedIds_concat (by rfl)]
          exact h.prepared
        used := by
          rw [credits_concat (by rfl), startedIds, List.filterMap_append]
          exact h.used.trans (List.sublist_append_left _ _)
        left := fun _ id hid => by
          cases hid
          rw [credits_concat (by rfl), startedIds, List.filterMap_append]
          exact h.used.append (List.Sublist.refl _) }
  | @submit attempt result lease g hgrant hlease hattempt hproducer hwithin =>
    have hstarted := h.running attempt hattempt
    have hactive : s.activeAttemptId = some attempt.id := by
      rw [Aggregate.activeAttemptId, hattempt]
    refine h.pass rfl rfl rfl (fun _ => nofun) (fun t r ht => ?_) (fun _ _ _ => nofun)
      fun hnone id hid => ⟨hnone, hactive.trans hid⟩
    cases ht
    exact hstarted.concat rfl
  | @verify attempt result verifier capability hattempt hverifier =>
    have hstarted := h.submitted attempt result hattempt
    have hproducer := (hinv.submitted attempt result hattempt).1
    have hactive : s.activeAttemptId = some attempt.id := by
      rw [Aggregate.activeAttemptId, hattempt]
    refine h.pass rfl rfl rfl (fun _ => nofun) (fun _ _ => nofun) (fun t r v ht hnone => ?_)
      fun hnone id hid => ⟨hnone, hactive.trans hid⟩
    cases ht
    exact hstarted.verified rfl ⟨⟨verifier, capability, hproducer ▸ hverifier, rfl⟩, hattempt⟩
  | @prepare settlementId serviceCredits attempt result verification g hattempt hsettlement hgrant
      plan hplan =>
    have hactive : s.activeAttemptId = some attempt.id := by
      rw [Aggregate.activeAttemptId, hattempt]
    have hcredit : credits [⟨s, .prepareSettlement settlementId attempt.id serviceCredits,
        [.postServiceCredit (effectId key "post-service-credit") plan],
        { s with settlement := .prepared plan }⟩] = [plan] := rfl
    exact
      { running := fun t ht => by cases hattempt.symm.trans ht
        submitted := fun t r ht => by cases hattempt.symm.trans ht
        verified := fun _ _ _ _ => nofun
        prepared := by
          rw [credits_append, hcredit, List.map_append, h.prepared, preparedIds, preparedIds,
            List.filterMap_append, hplan]
          rfl
        used := by
          -- The credit uses up the one start that no credit has used yet.
          rw [credits_append, hcredit, List.map_append, startedIds_concat (by rfl), hplan]
          exact h.left hsettlement attempt.id hactive
        left := nofun }
  | receipt hsettlement =>
    exact h.keep rfl rfl rfl (fun _ => id) (fun _ _ => id) (fun _ _ _ _ => nofun) nofun
  | revoke hgrant hid =>
    apply h.stop
    all_goals rfl

end Steps

theorem traced_accounted {node : NodeId} {policy : EnginePolicy} {s : Aggregate}
    (h : Traced node policy log s) : Accounted log s := by
  induction h with
  | start =>
    exact ⟨fun _ => nofun, fun _ _ => nofun, fun _ _ _ => nofun, rfl, .slnil, fun _ _ => nofun⟩
  | step h hstep ih => exact step_accounted ih (inv_of_traced h) hstep

/-! ## Main theorem -/

/-- Credit is posted for independently verified work, and once for each start of an attempt. In
every run, a credit is preceded by the start of its attempt and by the accepted verification of its
result, for a verifier other than the producer, who is the beneficiary; since the start nothing else
was credited. So the attempt ids of the credits are a sublist of those that were started, and their
settlement ids are the ones that were prepared. -/
theorem credit_for_verified_work [CommandDebug] (node : NodeId) (policy : EnginePolicy)
    (l : List CommandEnvelope) :
    (outputs ComputeExchange.handle (.new node policy) l).flatMap CommandOutcome.effects =
        ((ComputeExchange.new node policy).log l).flatMap Entry.effects ∧
    (∀ done e rest plan, (ComputeExchange.new node policy).log l = done ++ e :: rest →
      plan ∈ credits [e] → ∃ t r, VerifiedBy done t r ∧ t.id = plan.attemptId ∧
        r.resultDigest = plan.verifiedResultDigest ∧ t.producer = plan.beneficiary) ∧
    ((credits ((ComputeExchange.new node policy).log l)).map SettlementPlan.attemptId).Sublist
      (startedIds ((ComputeExchange.new node policy).log l)) ∧
    (credits ((ComputeExchange.new node policy).log l)).map SettlementPlan.id =
      preparedIds ((ComputeExchange.new node policy).log l) := by
  have htraced := traced_log node policy l
  have haccounted := traced_accounted htraced
  refine ⟨ComputeExchange.effects_eq_log _ l, ?_, haccounted.used, haccounted.prepared⟩
  intro done e rest plan hlog hplan
  rw [hlog] at htraced
  obtain ⟨hdone, key, hstep⟩ := htraced.entry
  obtain ⟨before, command, effects, next⟩ := e
  dsimp only at hdone hstep
  generalize expectedGeneration before command = generation at hstep
  cases hstep with
  | @prepare settlementId serviceCredits attempt result verification g hattempt hsettlement hgrant
      plan' hplan' =>
    cases List.mem_singleton.mp hplan
    obtain ⟨-, hproducer⟩ := (inv_of_traced hdone).verified attempt result verification hattempt
    obtain ⟨g', hg', hproducer⟩ := hproducer hsettlement
    cases hgrant.symm.trans hg'
    refine ⟨attempt, result, (traced_accounted hdone).verified attempt result verification hattempt
      hsettlement, ?_, ?_, ?_⟩
    · rw [hplan']
    · rw [hplan']
    · rw [hplan', hproducer]
  | _ => cases hplan

namespace Demo

/-- Two assignments one after the other, with one name for both attempts and both settlements: the
effects of the run post two credits under it. -/
theorem credit_twice_under_one_id :
    ¬ (∀ l, ((((outputs ComputeExchange.handle (.new ⟨"node-1"⟩ .browserAlphaV1) l).flatMap
        CommandOutcome.effects).filterMap Effect.credit).map SettlementPlan.attemptId).Nodup ∧
      ((((outputs ComputeExchange.handle (.new ⟨"node-1"⟩ .browserAlphaV1) l).flatMap
        CommandOutcome.effects).filterMap Effect.credit).map SettlementPlan.id).Nodup) := by
  intro h
  have hrun := (h (started .browserForeground ++ settled "" ++
    [envelope "offer2" (.offerAssignment (assignment "assignment-2" .browserForeground)),
      envelope "start2" (.startAttempt ⟨"attempt-1"⟩ ⟨"assignment-2"⟩)] ++ settled "2")).1
  exact absurd hrun (by decide +kernel)

end Demo

end P2P333.ComputeExchange333
