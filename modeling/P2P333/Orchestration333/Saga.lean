import P2P333.Lib.Machine
import P2P333.Orchestration333.Workflow

/-!
# The saga coordinator

`SagaCoordinator` of `333-orchestration/src/lib.rs`: `execute` drives the steps of a workflow
forward and, when one of them fails, compensates the committed ones in reverse order;
`resume_compensation` goes on with a rollback that has halted. A step or workflow state changes in
memory before the journal is asked, and stays changed if the journal fails.

Executors, compensators and the journal are arbitrary: what they answer may depend on all that has
been asked of them before (`Collaborators`). The questions and the answers are kept in a log, which
the coordinator does not read. An executor or a compensator that is not registered is an answer,
too, so that it may be registered later on. The 64-bit number of a step event is a natural number
here.
-/

namespace P2P333.Orchestration333

open Lib Machine Function

/-! ## Data -/

structure StepEvent where
  wf : WorkflowId
  step : StepId
  state : StepState
  output : Bytes
  seq : Nat
deriving DecidableEq

/-- What the coordinator has asked of its collaborators, with the answer. -/
inductive Entry where
  | append (ev : StepEvent) (ok : Bool)
  | executor (kind : String) (found : Bool)
  | run (step : StepId) (result : Except OrchError Bytes)
  | compensator (kind : String) (found : Bool)
  | compensate (step : StepId) (output : Bytes) (ok : Bool)

/-- The journal, the executors and compensators that are registered, and the number of attempts for
a compensation, which is clamped to at least one. Each answer is a function of the log so far. -/
structure Collaborators where
  append : List Entry → StepEvent → Except OrchError Unit
  executor : List Entry → String → Bool
  runStep : List Entry → WorkflowId → StepSpec → Except OrchError Bytes
  compensator : List Entry → String → Bool
  compensate : List Entry → WorkflowId → StepSpec → Bytes → Except OrchError Unit
  attempts : List Entry → Nat
  attempts_pos : ∀ log, 0 < attempts log

structure CoordinatorState where
  seq : Nat
  stepState : WorkflowId × StepId → Option StepState
  stepOutput : WorkflowId × StepId → Option Bytes
  wfState : WorkflowId → Option WorkflowState
  committedOrder : WorkflowId → List StepId

/-- The coordinator and the log. -/
structure World where
  state : CoordinatorState
  log : List Entry

namespace World

def start : World := ⟨⟨0, fun _ => none, fun _ => none, fun _ => none, fun _ => []⟩, []⟩

def note (w : World) (e : Entry) : World := { w with log := w.log ++ [e] }

def workflowState (w : World) (wf : WorkflowId) : WorkflowState :=
  (w.state.wfState wf).getD .running

end World

/-! ## Records -/

def CoordinatorState.write (s : CoordinatorState) (wf : WorkflowId) (step : StepId)
    (state : StepState) (output : Bytes) : CoordinatorState :=
  { s with
    seq := s.seq + 1
    stepState := update s.stepState (wf, step) (some state)
    stepOutput :=
      if output = [] then s.stepOutput else update s.stepOutput (wf, step) (some output)
    committedOrder :=
      if state = .committed then
        update s.committedOrder wf (s.committedOrder wf ++ [step])
      else s.committedOrder }

/-- A state is recorded in memory, and the journal has said whether it could append it. -/
def World.recorded (w : World) (wf : WorkflowId) (step : StepId) (state : StepState)
    (output : Bytes) (ok : Bool) : World :=
  ⟨w.state.write wf step state output,
    w.log ++ [.append ⟨wf, step, state, output, w.state.seq + 1⟩ ok]⟩

/-- The workflow is in another state. -/
def World.entered (w : World) (wf : WorkflowId) (s : WorkflowState) : World :=
  { w with state := { w.state with wfState := update w.state.wfState wf (some s) } }

section

variable (env : Collaborators)

def record (w : World) (wf : WorkflowId) (step : StepId) (state : StepState) (output : Bytes) :
    Except OrchError StepEvent × World :=
  match (w.state.stepState (wf, step)).filter fun current => !current.canTransitionTo state with
  | some current => (.error (.terminal wf step current), w)
  | none =>
    let ev : StepEvent := ⟨wf, step, state, output, w.state.seq + 1⟩
    match env.append w.log ev with
    | .error e => (.error e, w.recorded wf step state output false)
    | .ok () => (.ok ev, w.recorded wf step state output true)

def setWfState (w : World) (wf : WorkflowId) (s : WorkflowState) : Except OrchError Unit × World :=
  match (w.state.wfState wf).filter fun current => !current.canTransitionTo s with
  | some current => (.error (.workflowTransition wf current s), w)
  | none => (.ok (), w.entered wf s)

/-! ## Rollback -/

/-- At most so many attempts to compensate a step. The error is that of the last one. -/
def attempt (wf : WorkflowId) (spec : StepSpec) (output : Bytes) :
    Nat → Option OrchError → World → Except (Option OrchError) Unit × World
  | 0, last, w => (.error last, w)
  | n + 1, _, w =>
    match env.compensate w.log wf spec output with
    | .ok () => (.ok (), w.note (.compensate spec.id output true))
    | .error e => attempt wf spec output n (some e) (w.note (.compensate spec.id output false))

/-- The loop over the committed steps. It halts at the first one that cannot be compensated. -/
def compensateSteps (wf : Workflow) : List StepId → World → Except OrchError Unit × World
  | [], w => (.ok (), w)
  | id :: rest, w =>
    if w.state.stepState (wf.id, id) = some .compensated then compensateSteps wf rest w
    else
      match wf.step id with
      | none => (.error (.unknownStep wf.id id), w)
      | some spec =>
        let output := (w.state.stepOutput (wf.id, id)).getD []
        let found := env.compensator w.log spec.kind
        let w := w.note (.compensator spec.kind found)
        if found then
          match attempt env wf.id spec output (env.attempts w.log) none w with
          | (.error last, w) =>
            (.error (.compensateFailed id (last.elim "" OrchError.text)), w)
          | (.ok (), w) =>
            match record env w wf.id id .compensated [] with
            | (.error e, w) => (.error e, w)
            | (.ok _, w) => compensateSteps wf rest w
        else (.error (.noExecutor spec.kind), w)

def compensateCommitted (wf : Workflow) (w : World) : Except OrchError Unit × World :=
  compensateSteps env wf (w.state.committedOrder wf.id).reverse w

/-- The end of both calls: compensate what is left, and say so. -/
def finishCompensation (wf : Workflow) (w : World) : Except OrchError WorkflowState × World :=
  match compensateCommitted env wf w with
  | (.error e, w) => (.error e, w)
  | (.ok (), w) =>
    match setWfState w wf.id .compensated with
    | (.error e, w) => (.error e, w)
    | (.ok (), w) => (.ok .compensated, w)

def resumeCompensation (wf : Workflow) (w : World) : Except OrchError WorkflowState × World :=
  if w.workflowState wf.id ≠ .compensating then
    (.error (.workflowTransition wf.id (w.workflowState wf.id) .compensated), w)
  else finishCompensation env wf w

/-! ## The forward path -/

/-- Every step is recorded as pending. -/
def initSteps (wf : WorkflowId) : List StepSpec → World → Except OrchError Unit × World
  | [], w => (.ok (), w)
  | s :: rest, w =>
    match record env w wf s.id .pending [] with
    | (.error e, w) => (.error e, w)
    | (.ok _, w) => initSteps wf rest w

/-- The first pending step whose dependencies have committed. -/
def ready (wf : Workflow) (committed : Finset StepId) (w : World) : Option StepSpec :=
  wf.steps.find? fun s => s.id ∉ committed && s.dependsOn.all (· ∈ committed) &&
    (w.state.stepState (wf.id, s.id) = some .pending || w.state.stepState (wf.id, s.id) = none)

/-- After the loop: all steps should have committed. -/
def finish (wf : Workflow) (committed : Finset StepId) (w : World) :
    Except OrchError WorkflowState × World :=
  let s := if committed.card ≠ wf.steps.length then .failed else .succeeded
  match setWfState w wf.id s with
  | (.error e, w) => (.error e, w)
  | (.ok (), w) => (.ok s, w)

/-- A step has failed. -/
def fail (wf : Workflow) (step : StepSpec) (e : OrchError) (w : World) :
    Except OrchError WorkflowState × World :=
  match record env w wf.id step.id .failed e.text.toUTF8.toList with
  | (.error e, w) => (.error e, w)
  | (.ok _, w) =>
    match setWfState w wf.id .compensating with
    | (.error e, w) => (.error e, w)
    | (.ok (), w) => finishCompensation env wf w

/-- The step that was ready is running: look up its executor, and run it. `next` is the next round.
-/
def runReady (wf : Workflow) (step : StepSpec)
    (next : World → Except OrchError WorkflowState × World) (w : World) :
    Except OrchError WorkflowState × World :=
  let found := env.executor w.log step.kind
  let w := w.note (.executor step.kind found)
  if found then
    let result := env.runStep w.log wf.id step
    let w := w.note (.run step.id result)
    match result with
    | .error e => fail env wf step e w
    | .ok out =>
      match record env w wf.id step.id .committed out with
      | (.error e, w) => (.error e, w)
      | (.ok _, w) => next w
  else (.error (.noExecutor step.kind), w)

/-- The loop, for so many rounds. -/
def drive (wf : Workflow) : Nat → Finset StepId → World → Except OrchError WorkflowState × World
  | 0, committed, w => finish wf committed w
  | rounds + 1, committed, w =>
    match ready wf committed w with
    | none => finish wf committed w
    | some step =>
      match record env w wf.id step.id .running [] with
      | (.error e, w) => (.error e, w)
      | (.ok _, w) => runReady env wf step (drive wf rounds (insert step.id committed)) w

def execute (wf : Workflow) (w : World) : Except OrchError WorkflowState × World :=
  let current := w.workflowState wf.id
  if current.isTerminal then (.error (.workflowTerminal wf.id current), w)
  else
    match setWfState w wf.id .running with
    | (.error e, w) => (.error e, w)
    | (.ok (), w) =>
      match initSteps env wf.id wf.steps w with
      | (.error e, w) => (.error e, w)
      | (.ok (), w) => drive env wf wf.steps.length ∅ w

/-! ## Calls -/

/-- The two calls of the coordinator. -/
inductive Call where
  | execute | resumeCompensation

def call (wf : Workflow) (w : World) : Call → Except OrchError WorkflowState × World
  | .execute => execute env wf w
  | .resumeCompensation => resumeCompensation env wf w

/-- The coordinator after some calls for one workflow. -/
def run (wf : Workflow) (calls : List Call) : World := after (call env wf) .start calls

/-! ## Records and rounds -/

/-- Nothing fails any more: the journal appends, every executor and compensator is registered and
succeeds. -/
structure Collaborators.Healthy : Prop where
  append : ∀ log ev, env.append log ev = .ok ()
  executor : ∀ log kind, env.executor log kind = true
  runStep : ∀ log wf step, ∃ output, env.runStep log wf step = .ok output
  compensator : ∀ log kind, env.compensator log kind = true
  compensate : ∀ log wf step output, env.compensate log wf step output = .ok ()

variable {wf : Workflow} {committed : Finset StepId} {w : World}
variable {id : WorkflowId}

theorem record_of_legal {step : StepId} {state : StepState} (output : Bytes)
    (h : ∀ current, w.state.stepState (id, step) = some current →
      current.canTransitionTo state = true) :
    ∃ x : Except OrchError StepEvent, record env w id step state output =
      (x, w.recorded id step state output x.isOk) ∧ (env.Healthy → x.isOk = true) := by
  have hnone : ((w.state.stepState (id, step)).filter fun current =>
      !current.canTransitionTo state) = none := by
    refine Option.filter_eq_none_iff.mpr fun current hcurrent => ?_
    simp [h current hcurrent]
  unfold record
  rw [hnone]
  dsimp only
  cases hanswer : env.append w.log ⟨id, step, state, output, w.state.seq + 1⟩ with
  | error e =>
    exact ⟨.error e, rfl, fun hhealthy => by cases hanswer.symm.trans (hhealthy.append ..)⟩
  | ok => exact ⟨.ok _, rfl, fun _ => rfl⟩

theorem record_of_eq {step : StepId} {current : StepState} (state : StepState)
    (output : Bytes) (hcurrent : w.state.stepState (id, step) = some current)
    (h : current.canTransitionTo state = true) :
    ∃ x : Except OrchError StepEvent, record env w id step state output =
      (x, w.recorded id step state output x.isOk) ∧ (env.Healthy → x.isOk = true) :=
  record_of_legal env output fun _ hsome => Option.some.inj (hcurrent.symm.trans hsome) ▸ h

variable {env}

theorem record_of_illegal {step : StepId} {state current : StepState}
    {output : Bytes} (hcurrent : w.state.stepState (id, step) = some current)
    (h : current.canTransitionTo state = false) :
    record env w id step state output = (.error (.terminal id step current), w) := by
  unfold record
  rw [hcurrent, Option.filter_some, h]
  rfl

theorem setWfState_of_legal {s : WorkflowState}
    (h : ∀ current, w.state.wfState id = some current → current.canTransitionTo s = true) :
    setWfState w id s = (.ok (), w.entered id s) := by
  have hnone : ((w.state.wfState id).filter fun current => !current.canTransitionTo s) = none := by
    refine Option.filter_eq_none_iff.mpr fun current hcurrent => ?_
    simp [h current hcurrent]
  unfold setWfState
  rw [hnone]

theorem setWfState_of_eq {s current : WorkflowState}
    (hcurrent : w.state.wfState id = some current) (h : current.canTransitionTo s = true) :
    setWfState w id s = (.ok (), w.entered id s) :=
  setWfState_of_legal fun _ hsome => Option.some.inj (hcurrent.symm.trans hsome) ▸ h

theorem setWfState_of_illegal {s current : WorkflowState}
    (hcurrent : w.state.wfState id = some current) (h : current.canTransitionTo s = false) :
    setWfState w id s = (.error (.workflowTransition id current s), w) := by
  unfold setWfState
  rw [hcurrent, Option.filter_some, h]
  rfl

theorem ready_eq_some {s : StepSpec} (h : ready wf committed w = some s) :
    s ∈ wf.steps ∧ s.id ∉ committed ∧ (∀ d ∈ s.dependsOn, d ∈ committed) ∧
      (w.state.stepState (wf.id, s.id) = some .pending ∨ w.state.stepState
        (wf.id, s.id) = none) := by
  have hready := List.find?_some h
  simp only [Bool.and_eq_true, Bool.or_eq_true, decide_eq_true_eq, List.all_eq_true] at hready
  exact ⟨List.mem_of_find?_eq_some h, hready.1.1, hready.1.2, hready.2⟩

theorem card_ids (wf : Workflow) : (wf.steps.map StepSpec.id).toFinset.card = wf.steps.length := by
  rw [List.toFinset_card_of_nodup wf.nodup, List.length_map]

theorem mem_ids {s : StepSpec} (hs : s ∈ wf.steps) : s.id ∈ (wf.steps.map StepSpec.id).toFinset :=
  List.mem_toFinset.mpr (List.mem_map_of_mem hs)

end

end P2P333.Orchestration333
