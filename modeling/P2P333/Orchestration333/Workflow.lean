import P2P333.Lib.Bytes
import P2P333.Lib.Kahn

/-!
# Workflows

The definitions of `333-orchestration/src/lib.rs`: errors, steps, the states of steps and workflows
with their legal transitions, and the validation of a workflow.

A `Workflow` has passed the validation. Its map from ids to positions is a search here: ids are
different.

Results:
1. `Workflow.exists_ready`: as long as some steps have not committed, one of them depends only on
   steps that have.
-/

namespace P2P333.Orchestration333

open Lib

abbrev WorkflowId := String
abbrev StepId := String

/-- Where a step is. -/
inductive StepState where
  | pending | running | committed | failed | compensated
deriving DecidableEq

/-- Where a workflow is. -/
inductive WorkflowState where
  | running | succeeded | failed | compensating | compensated
deriving DecidableEq

/-- The text of `{:?}`. -/
def StepState.debug : StepState → String
  | .pending => "Pending"
  | .running => "Running"
  | .committed => "Committed"
  | .failed => "Failed"
  | .compensated => "Compensated"

/-- The text of `{:?}`. -/
def WorkflowState.debug : WorkflowState → String
  | .running => "Running"
  | .succeeded => "Succeeded"
  | .failed => "Failed"
  | .compensating => "Compensating"
  | .compensated => "Compensated"

/-- Why a call ends without its work done. -/
inductive OrchError where
  | unknownStep (wf : WorkflowId) (step : StepId)
  | noExecutor (kind : String)
  | terminal (wf : WorkflowId) (step : StepId) (state : StepState)
  | workflowTerminal (wf : WorkflowId) (state : WorkflowState)
  | workflowTransition (wf : WorkflowId) (source target : WorkflowState)
  | compensateFailed (step : StepId) (reason : String)
  | exec (reason : String)
  | journal (reason : String)
  | invalid (reason : String)
deriving DecidableEq

/-- The `Display` text. -/
def OrchError.text : OrchError → String
  | .unknownStep wf step => "unknown step: wf=" ++ wf ++ " step=" ++ step
  | .noExecutor kind => "step executor missing for kind: " ++ kind
  | .terminal wf step state => "step " ++ step ++ " in workflow " ++ wf ++ " is terminal (" ++
      state.debug ++ "); cannot transition"
  | .workflowTerminal wf state => "workflow " ++ wf ++ " is already terminal (" ++ state.debug ++
      "); cannot re-execute"
  | .workflowTransition wf source target => "workflow " ++ wf ++ ": illegal state transition " ++
      source.debug ++ " -> " ++ target.debug
  | .compensateFailed step reason => "compensation failed at step " ++ step ++ ": " ++ reason
  | .exec reason => "step execution failed: " ++ reason
  | .journal reason => "journal: " ++ reason
  | .invalid reason => "invalid workflow: " ++ reason

structure StepSpec where
  id : StepId
  kind : String
  input : Bytes
  dependsOn : List StepId
deriving DecidableEq

structure WorkflowDef where
  id : WorkflowId
  steps : List StepSpec

/-! ## Transitions -/

namespace StepState

/-- Legal step transitions. A state may be recorded again. -/
def canTransitionTo (s next : StepState) : Bool :=
  s = next || match s, next with
    | .pending, .running | .running, .committed | .running, .failed | .committed, .compensated =>
      true
    | _, _ => false

end StepState

namespace WorkflowState

def isTerminal : WorkflowState → Bool
  | .succeeded | .failed | .compensated => true
  | _ => false

/-- Legal workflow transitions: there is no way back from `compensating` to `running`. -/
def canTransitionTo (s next : WorkflowState) : Bool :=
  s = next || match s, next with
    | .running, .succeeded | .running, .failed | .running, .compensating
    | .compensating, .compensated | .compensating, .failed => true
    | _, _ => false

end WorkflowState

/-! ## Validation -/

/-- The first id that comes up twice. -/
def repeated : List StepId → List StepId → Option StepId
  | _, [] => none
  | seen, id :: rest => if id ∈ seen then some id else repeated (id :: seen) rest

/-- The first dependency on a step that is not there, after the step that has it. -/
def unknownDep (steps : List StepSpec) : Option (StepId × StepId) :=
  steps.findSome? fun s => (s.dependsOn.find? (· ∉ steps.map StepSpec.id)).map (s.id, ·)

/-- The positions of the steps that the step at position `i` depends on. -/
def depIndices (steps : List StepSpec) (i : Nat) : List Nat :=
  (steps[i]?.elim [] StepSpec.dependsOn).map (steps.map StepSpec.id).idxOf

/-- How many steps Kahn's algorithm gets to see. -/
def kahnSeen (steps : List StepSpec) : Nat :=
  (Kahn.order (List.range steps.length) (depIndices steps)).length

/-- A workflow that has been validated. -/
structure Workflow where
  id : WorkflowId
  steps : List StepSpec
  nonempty : steps ≠ []
  unrepeated : repeated [] (steps.map StepSpec.id) = none
  known : unknownDep steps = none
  acyclic : kahnSeen steps = steps.length

namespace Workflow

def new (d : WorkflowDef) : Except OrchError Workflow :=
  if hempty : d.steps = [] then .error (.invalid "workflow has no steps")
  else
    match hrepeated : repeated [] (d.steps.map StepSpec.id) with
    | some id => .error (.invalid ("duplicate step id " ++ id))
    | none =>
      match hknown : unknownDep d.steps with
      | some (s, dep) => .error (.invalid ("step " ++ s ++ " depends on unknown " ++ dep))
      | none =>
        if hkahn : kahnSeen d.steps = d.steps.length then
          .ok ⟨d.id, d.steps, hempty, hrepeated, hknown, hkahn⟩
        else .error (.invalid "workflow has a cycle")

def step (wf : Workflow) (id : StepId) : Option StepSpec := wf.steps.find? (·.id = id)

/-! ## What validation gives -/

variable {wf : Workflow} {s : StepSpec}

/-- Exactly the validated definitions are accepted. -/
theorem new_eq_ok {d : WorkflowDef} : new d = .ok wf ↔ d = ⟨wf.id, wf.steps⟩ := by
  constructor
  · intro h
    unfold new at h
    split at h
    · cases h
    · split at h
      · cases h
      · split at h
        · cases h
        · split at h
          · cases h
            rfl
          · cases h
  · rintro rfl
    unfold new
    rw [dif_neg wf.nonempty]
    split
    · next h => cases h.symm.trans wf.unrepeated
    · split
      · next h => cases h.symm.trans wf.known
      · rw [dif_pos wf.acyclic]

theorem repeated_eq_none {seen l : List StepId} :
    repeated seen l = none ↔ l.Nodup ∧ ∀ id ∈ l, id ∉ seen := by
  induction l generalizing seen with
  | nil => exact iff_of_true rfl ⟨List.nodup_nil, nofun⟩
  | cons id l ih =>
    rw [repeated, List.nodup_cons, List.forall_mem_cons]
    split_ifs with hid
    · exact iff_of_false nofun fun h => h.2.1 hid
    · rw [ih]
      constructor
      · rintro ⟨hnodup, hnot⟩
        exact ⟨⟨fun hmem => hnot id hmem List.mem_cons_self, hnodup⟩, hid,
          fun i hi => fun hseen => hnot i hi (List.mem_cons_of_mem _ hseen)⟩
      · rintro ⟨⟨hmem, hnodup⟩, -, hnot⟩
        refine ⟨hnodup, fun i hi hseen => ?_⟩
        rcases List.mem_cons.mp hseen with rfl | hseen
        · exact hmem hi
        · exact hnot i hi hseen

theorem nodup (wf : Workflow) : (wf.steps.map StepSpec.id).Nodup :=
  (repeated_eq_none.mp wf.unrepeated).1

theorem eq_of_id {s s' : StepSpec} (hs : s ∈ wf.steps) (hs' : s' ∈ wf.steps) (h : s.id = s'.id) :
    s = s' := List.inj_on_of_nodup_map wf.nodup hs hs' h

theorem step_eq_some (hs : s ∈ wf.steps) : wf.step s.id = some s := by
  unfold step
  have hsome : (wf.steps.find? (·.id = s.id)).isSome :=
    List.find?_isSome.mpr ⟨s, hs, decide_eq_true rfl⟩
  obtain ⟨s', hs'⟩ := Option.isSome_iff_exists.mp hsome
  have hid : s'.id = s.id := by simpa using List.find?_some hs'
  rw [hs', eq_of_id (List.mem_of_find?_eq_some hs') hs hid]

theorem mem_of_dependsOn (hs : s ∈ wf.steps) {d : StepId} (hd : d ∈ s.dependsOn) :
    ∃ s' ∈ wf.steps, s'.id = d := by
  have hnone := Option.map_eq_none_iff.mp (List.findSome?_eq_none_iff.mp wf.known s hs)
  have hmem := List.find?_eq_none.mp hnone d hd
  simpa using hmem

/-- There are no cycles: among the steps that are not done, one depends on done steps only. -/
theorem exists_ready {done : StepId → Prop} (hleft : ∃ s ∈ wf.steps, ¬ done s.id) :
    ∃ s ∈ wf.steps, ¬ done s.id ∧ ∀ d ∈ s.dependsOn, done d := by
  have hat : ∀ i (hi : i < wf.steps.length), (wf.steps[i]?.elim "" StepSpec.id) =
      (wf.steps.get ⟨i, hi⟩).id := fun i hi => by simp [hi]
  obtain ⟨s, hs, hnot⟩ := hleft
  obtain ⟨i, hi, rfl⟩ := List.getElem_of_mem hs
  have hindex : ∃ i ∈ List.range wf.steps.length, ¬ done (wf.steps[i]?.elim "" StepSpec.id) :=
    ⟨i, List.mem_range.mpr hi, by simpa [hi] using hnot⟩
  obtain ⟨j, hj, hnot, hdeps⟩ := Kahn.exists_ready List.nodup_range
    (wf.acyclic.trans List.length_range.symm) hindex
  have hj := List.mem_range.mp hj
  refine ⟨wf.steps.get ⟨j, hj⟩, List.get_mem .., by rwa [← hat j hj], fun d hd => ?_⟩
  obtain ⟨s', hs', rfl⟩ := mem_of_dependsOn (List.get_mem ..) hd
  have hdone := hdeps ((wf.steps.map StepSpec.id).idxOf s'.id)
    (List.mem_map_of_mem (by simpa [hj] using hd))
  have hlt : (wf.steps.map StepSpec.id).idxOf s'.id < wf.steps.length := by
    simpa using List.idxOf_lt_length_of_mem (List.mem_map_of_mem (f := StepSpec.id) hs')
  rw [hat _ hlt] at hdone
  have hid : (wf.steps.get ⟨_, hlt⟩).id = s'.id := by
    have hget := List.getElem_idxOf (List.idxOf_lt_length_of_mem
      (List.mem_map_of_mem (f := StepSpec.id) hs'))
    rwa [List.getElem_map] at hget
  rwa [hid] at hdone

end Workflow

end P2P333.Orchestration333
