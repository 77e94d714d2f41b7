import P2P333.Orchestration333.Safety

/-!
# Stranded sagas

A workflow with a committed effect outstanding should have a way forward once nothing fails any
more. A rollback that has halted has one, `resume_compensation`. A forward path that stops between
two steps has none: the workflow stays in `running`, `execute` cannot record the steps as pending
again, and `resume_compensation` wants `compensating`.

Results:
1. `never_stranded_iff`: no call strands a workflow exactly if the forward path is not interrupted
   with some step committed.
2. `stranded`: an executor that is missing strands the step before it.
-/

namespace P2P333.Orchestration333

open Lib Machine

/-! ## Statement -/

/-- The workflow is done, and no committed effect is outstanding: all steps have committed, or all
that had committed are compensated. -/
def Settled (wf : Workflow) (w : World) : Prop :=
  (w.state.wfState wf.id = some .succeeded ∧
    ∀ s ∈ wf.steps, w.state.stepState (wf.id, s.id) = some .committed) ∨
  (w.state.wfState wf.id = some .compensated ∧ ¬ Outstanding wf w)

/-- Once nothing fails any more, some calls settle the workflow. -/
def Recoverable (wf : Workflow) (w : World) : Prop :=
  ∀ env : Collaborators, env.Healthy → ∃ calls, Settled wf (after (call env wf) w calls)

/-- Whenever a call returns an error and leaves a committed effect outstanding, the workflow can be
settled later on. -/
def NeverStranded (env : Collaborators) (wf : Workflow) (calls : List Call) : Prop :=
  ∀ done c e, done ++ [c] <+: calls → (call env wf (run env wf done) c).1 = .error e →
    Outstanding wf (run env wf (done ++ [c])) → Recoverable wf (run env wf (done ++ [c]))

/-! ## Ways forward -/

variable {env : Collaborators} {wf : Workflow} {w : World} {calls : List Call}

/-- What a complete rollback has left standing. -/
theorem Inv.not_outstanding (h : Inv wf w)
    (hcompensated : w.state.wfState wf.id = some .compensated) : ¬ Outstanding wf w := by
  rintro ⟨id, hid⟩
  obtain ⟨front, back, hsplit⟩ := h.split
  have hall := h.compensated hcompensated
  rw [hsplit.undone, hsplit.successes, List.reverse_inj] at hall
  obtain rfl := List.self_eq_append_left.mp hall
  obtain ⟨x, hx, rfl⟩ := List.mem_map.mp (h.committed id hid)
  rw [hsplit.successes, List.nil_append] at hx
  cases (hsplit.back x hx).symm.trans hid

theorem Rest.recoverable (h : Rest wf w) (hnot : ¬ Interrupted w.log) (hout : Outstanding wf w) :
    Recoverable wf w := by
  intro env hhealthy
  have hrunning : w.state.wfState wf.id ≠ some .running := fun hrunning =>
    hnot (h.stuck.mpr ⟨hrunning, hout⟩)
  cases hstate : w.state.wfState wf.id with
  | none =>
    obtain ⟨id, hid⟩ := hout
    have hran := (h.inv.settled id).mpr ⟨_, hid, rfl⟩
    rw [h.inv.untouched hstate] at hran
    cases hran
  | some s =>
    cases s with
    | running => exact absurd hstate hrunning
    | succeeded => exact ⟨[], .inl ⟨hstate, h.inv.succeeded hstate⟩⟩
    | failed => exact absurd hstate h.inv.notFailed
    | compensated => exact absurd hout (h.inv.not_outstanding hstate)
    | compensating =>
      obtain ⟨hleft, hok⟩ := left_finishCompensation env h.inv hstate hnot
      have hresume : resumeCompensation env wf w = finishCompensation env wf w := by
        refine if_neg (not_not.mpr ?_)
        rw [World.workflowState, hstate]
        rfl
      have hcompensated := (hleft.answer _ (hok hhealthy)).1
      refine ⟨[.resumeCompensation], .inr ?_⟩
      show (resumeCompensation env wf w).2.state.wfState wf.id = _ ∧
        ¬ Outstanding wf (resumeCompensation env wf w).2
      rw [hresume]
      exact ⟨hcompensated, hleft.rest.inv.not_outstanding hcompensated⟩

/-! ## Dead ends -/

/-- The forward path has stopped with a committed effect outstanding. -/
def Stuck (wf : Workflow) (w : World) : Prop :=
  w.state.wfState wf.id = some .running ∧ Outstanding wf w

/-- No call leads out. -/
theorem Stuck.call (h : Rest wf w) (hstuck : Stuck wf w) (env : Collaborators) (c : Call) :
    Stuck wf (call env wf w c).2 := by
  obtain ⟨hrunning, id, hid⟩ := hstuck
  cases c with
  | execute =>
    have hterminal : ¬ (w.workflowState wf.id).isTerminal = true := by
      rw [World.workflowState, hrunning]
      nofun
    have hset : setWfState w wf.id .running = (.ok (), w.entered wf.id .running) :=
      setWfState_of_eq hrunning rfl
    have hentered : (w.entered wf.id .running).state.wfState wf.id = some .running :=
      Function.update_self ..
    have hinit := initialized env (h.entered_running (.inr hrunning)).inv wf.steps
    have hid : (w.entered wf.id .running).state.stepState (wf.id, id) = some .committed := hid
    show Stuck wf (execute env wf w).2
    unfold execute
    dsimp only
    rw [if_neg hterminal, hset]
    dsimp only
    generalize w.entered wf.id .running = w₁ at hentered hid hinit ⊢
    generalize initSteps env wf.id wf.steps w₁ = x at hinit ⊢
    obtain ⟨answer, w'⟩ := x
    have hcommitted := hinit.kept id _ hid
    cases answer with
    | error e => exact ⟨(congrFun hinit.running _).trans hentered, id, hcommitted⟩
    | ok =>
      -- the committed step cannot have become pending
      have hran := (hinit.inv.settled id).mpr ⟨_, hcommitted, rfl⟩
      obtain ⟨s, hs, rfl⟩ := mem_steps_of_ran hinit.inv.ordered hran
      cases (hinit.pending rfl s hs).symm.trans hcommitted
  | resumeCompensation =>
    have hresume : resumeCompensation env wf w =
        (.error (.workflowTransition wf.id (w.workflowState wf.id) .compensated), w) := by
      refine if_pos ?_
      rw [World.workflowState, hrunning]
      nofun
    show Stuck wf (resumeCompensation env wf w).2
    rw [hresume]
    exact ⟨hrunning, id, hid⟩

theorem Stuck.after (h : Rest wf w) (hstuck : Stuck wf w) (env : Collaborators)
    (calls : List Call) : Stuck wf (after (Orchestration333.call env wf) w calls) := by
  have hboth : Rest wf (Machine.after (Orchestration333.call env wf) w calls) ∧
      Stuck wf (Machine.after (Orchestration333.call env wf) w calls) :=
    after_invariant (I := fun w => Rest wf w ∧ Stuck wf w)
      (fun _ c hw => ⟨(left_call hw.1 c).rest, hw.2.call hw.1 env c⟩) ⟨h, hstuck⟩ calls
  exact hboth.2

theorem healthy_attempts (_ : List Entry) : 0 < 3 := Nat.succ_pos 2

/-- Collaborators of which none fails. -/
def healthy : Collaborators where
  append _ _ := .ok ()
  executor _ _ := true
  runStep _ _ _ := .ok []
  compensator _ _ := true
  compensate _ _ _ _ := .ok ()
  attempts _ := 3
  attempts_pos := healthy_attempts

theorem healthy_healthy : healthy.Healthy :=
  ⟨fun _ _ => rfl, fun _ _ => rfl, fun _ _ _ => ⟨[], rfl⟩, fun _ _ => rfl, fun _ _ _ _ => rfl⟩

theorem Stuck.not_recoverable (h : Rest wf w) (hstuck : Stuck wf w) : ¬ Recoverable wf w := by
  intro hrecoverable
  obtain ⟨calls, hsettled⟩ := hrecoverable healthy healthy_healthy
  have hrunning := (hstuck.after h healthy calls).1
  rcases hsettled with ⟨hstate, -⟩ | ⟨hstate, -⟩ <;> cases hrunning.symm.trans hstate

/-! ## Runs -/

theorem run_concat (c : Call) :
    run env wf (calls ++ [c]) = (call env wf (run env wf calls) c).2 := after_concat ..

/-- An interruption is there to stay. -/
theorem interrupted_mono {done : List Call} (hdone : done <+: calls)
    (h : Interrupted (run env wf done).log) : Interrupted (run env wf calls).log := by
  obtain ⟨rest, rfl⟩ := hdone
  have hrest := rest_run env wf done
  have hstuck : Stuck wf (run env wf (done ++ rest)) := by
    unfold run at hrest ⊢
    rw [after_append]
    exact Stuck.after hrest (hrest.stuck.mp h) env rest
  exact (rest_run env wf (done ++ rest)).stuck.mpr hstuck

theorem not_interrupted_of_neverStranded (h : NeverStranded env wf calls) :
    ¬ Interrupted (run env wf calls).log := by
  induction calls using List.reverseRecOn with
  | nil => exact not_interrupted_of_commits rfl
  | append_singleton calls c ih =>
    intro hstop
    have hleft : Left wf (call env wf (run env wf calls) c) := left_call (rest_run env wf calls) c
    have hstuck := (rest_run env wf (calls ++ [c])).stuck.mp hstop
    cases hanswer : (call env wf (run env wf calls) c).1 with
    | ok s =>
      obtain ⟨hstate, hterminal⟩ := hleft.answer s hanswer
      rw [← run_concat, hstuck.1] at hstate
      cases hstate
      cases hterminal
    | error e =>
      exact Stuck.not_recoverable (rest_run env wf (calls ++ [c])) hstuck
        (h calls c e List.prefix_rfl hanswer hstuck.2)

/-- No call strands the workflow exactly if the forward path has not been interrupted: neither has
the journal failed to append a step as running, committed or failed, nor has an executor been
missing, with some step committed. -/
theorem never_stranded_iff (env : Collaborators) (wf : Workflow) (calls : List Call) :
    NeverStranded env wf calls ↔ ¬ Interrupted (run env wf calls).log := by
  constructor
  · exact not_interrupted_of_neverStranded
  · intro hnot done c e hdone _ hout
    exact (rest_run env wf (done ++ [c])).recoverable
      (fun hstop => hnot (interrupted_mono hdone hstop)) hout

namespace Demo

/-- Two steps of two kinds, one after the other. -/
def order : Workflow where
  id := "order"
  steps := [⟨"reserve", "stock", [], []⟩, ⟨"charge", "card", [], ["reserve"]⟩]
  nonempty := by decide
  unrepeated := by decide +kernel
  known := by decide +kernel
  acyclic := by decide +kernel

/-- Nobody has registered the executor of the second kind. -/
def unregistered : Collaborators := { healthy with executor := fun _ kind => kind = "stock" }

/-- The first step has committed, the executor of the second one is missing, and neither call undoes
or completes what has been done. -/
theorem stranded : ¬ NeverStranded unregistered order [.execute] := by
  intro h
  have hanswer : (call unregistered order (run unregistered order []) .execute).1 =
      .error (.noExecutor "card") := by decide +kernel
  have hrunning : (run unregistered order [.execute]).state.wfState order.id = some .running := by
    decide +kernel
  have hcommitted : (run unregistered order [.execute]).state.stepState (order.id, "reserve") =
      some .committed := by decide +kernel
  exact Stuck.not_recoverable (rest_run unregistered order [.execute])
    ⟨hrunning, "reserve", hcommitted⟩ (h [] .execute _ List.prefix_rfl hanswer ⟨_, hcommitted⟩)

end Demo

end P2P333.Orchestration333
