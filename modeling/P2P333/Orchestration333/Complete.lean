import P2P333.Orchestration333.Safety

/-!
# Validation and completion

Which workflows `333-orchestration/src/lib.rs` accepts, and that one whose steps all succeed is
carried through.

Results:
1. `new_exact`: the validated definitions are those with steps, different ids, known dependencies
   and no cycles.
2. `execute_reliable`: with collaborators that do not fail, the loop commits one step after the
   other until none is left.
3. `validated_and_executed`: what both say about a new coordinator.
-/

namespace P2P333.Orchestration333

open Lib Machine Relation

/-! ## Validation -/

namespace WorkflowDef

/-- The step with the first id depends on the second one. -/
def DependsOn (d : WorkflowDef) (id dep : StepId) : Prop :=
  ∃ s ∈ d.steps, s.id = id ∧ dep ∈ s.dependsOn

structure Valid (d : WorkflowDef) : Prop where
  nonempty : d.steps ≠ []
  nodup : (d.steps.map StepSpec.id).Nodup
  known : ∀ s ∈ d.steps, ∀ dep ∈ s.dependsOn, dep ∈ d.steps.map StepSpec.id
  acyclic : ∀ id, ¬ TransGen d.DependsOn id id

end WorkflowDef

section Validation

variable {steps : List StepSpec} {i j : Nat}

theorem unknownDep_eq_none : unknownDep steps = none ↔
    ∀ s ∈ steps, ∀ dep ∈ s.dependsOn, dep ∈ steps.map StepSpec.id := by
  simp only [unknownDep, List.findSome?_eq_none_iff, Option.map_eq_none_iff, List.find?_eq_none,
    decide_eq_true_eq,
    not_not]

/-- The position of a step with the id. -/
def position (steps : List StepSpec) (id : StepId) : Nat := (steps.map StepSpec.id).idxOf id

def idAt (steps : List StepSpec) (i : Nat) : StepId := (steps[i]?).elim "" StepSpec.id

theorem idAt_of_getElem? {s : StepSpec} (h : steps[i]? = some s) : idAt steps i = s.id := by
  rw [idAt, h, Option.elim_some]

theorem mem_depIndices : j ∈ depIndices steps i ↔
    ∃ s, steps[i]? = some s ∧ ∃ dep ∈ s.dependsOn, position steps dep = j := by
  rw [depIndices, List.mem_map]
  cases steps[i]? with
  | none => simp
  | some s => simp [position]

theorem position_of_getElem? {s : StepSpec} (hnodup : (steps.map StepSpec.id).Nodup)
    (hs : steps[i]? = some s) :
    position steps s.id = i := by
  obtain ⟨hi, rfl⟩ := List.getElem?_eq_some_iff.mp hs
  have hlt : i < (steps.map StepSpec.id).length := by rwa [List.length_map]
  have hindex := hnodup.idxOf_getElem i hlt
  rwa [List.getElem_map] at hindex

theorem getElem?_position {dep : StepId} (hmem : dep ∈ steps.map StepSpec.id) :
    ∃ s, steps[position steps dep]? = some s ∧ s.id = dep := by
  have hlt := List.idxOf_lt_length_of_mem hmem
  have hget := List.getElem_idxOf hlt
  rw [List.getElem_map] at hget
  exact ⟨_, List.getElem?_eq_getElem (by rwa [List.length_map] at hlt), hget⟩

/-- A step depends on another one as their positions do. -/
theorem dep_position_iff (hnodup : (steps.map StepSpec.id).Nodup)
    (hknown : ∀ s ∈ steps, ∀ dep ∈ s.dependsOn, dep ∈ steps.map StepSpec.id) (d : WorkflowDef)
    (hd : d.steps = steps) :
    (∀ v, ¬ TransGen (Kahn.Dep (List.range steps.length) (depIndices steps)) v v) ↔
      ∀ id, ¬ TransGen d.DependsOn id id := by
  constructor
  · intro h id hcycle
    refine h (position steps id) (hcycle.lift (position steps) ?_)
    rintro a b ⟨s, hs, rfl, hb⟩
    rw [hd] at hs
    obtain ⟨i, hi⟩ := List.mem_iff_getElem?.mp hs
    have hposition := position_of_getElem? hnodup hi
    refine ⟨?_, mem_depIndices.mpr ⟨s, hposition ▸ hi, b, hb, rfl⟩⟩
    rw [hposition, List.mem_range]
    exact (List.getElem?_eq_some_iff.mp hi).1
  · intro h v hcycle
    refine h (idAt steps v) (hcycle.lift (idAt steps) ?_)
    rintro i j ⟨-, hj⟩
    obtain ⟨s, hs, dep, hdep, rfl⟩ := mem_depIndices.mp hj
    have hmem := List.mem_of_getElem? hs
    obtain ⟨s', hs', hid⟩ := getElem?_position (hknown s hmem dep hdep)
    refine ⟨s, hd ▸ hmem, (idAt_of_getElem? hs).symm, ?_⟩
    rwa [idAt_of_getElem? hs', hid]

end Validation

/-- The definitions that are accepted. -/
theorem new_exact (d : WorkflowDef) : (∃ wf, Workflow.new d = .ok wf) ↔ d.Valid := by
  have hclosed : ∀ v ∈ List.range d.steps.length, ∀ j ∈ depIndices d.steps v,
      (∀ s ∈ d.steps, ∀ dep ∈ s.dependsOn, dep ∈ d.steps.map StepSpec.id) →
      j ∈ List.range d.steps.length := by
    intro v _ j hj hknown
    obtain ⟨s, hs, dep, hdep, rfl⟩ := mem_depIndices.mp hj
    obtain ⟨s', hs', -⟩ := getElem?_position (hknown s (List.mem_of_getElem? hs) dep hdep)
    exact List.mem_range.mpr (List.getElem?_eq_some_iff.mp hs').1
  have hkahn : (∀ s ∈ d.steps, ∀ dep ∈ s.dependsOn, dep ∈ d.steps.map StepSpec.id) →
      (kahnSeen d.steps = d.steps.length ↔
        ∀ v, ¬ TransGen (Kahn.Dep (List.range d.steps.length) (depIndices d.steps)) v v) := by
    intro hknown
    have h : kahnSeen d.steps = (List.range d.steps.length).length ↔ _ :=
      Kahn.length_order_iff List.nodup_range fun v hv j hj => hclosed v hv j hj hknown
    rwa [List.length_range] at h
  constructor
  · rintro ⟨wf, hwf⟩
    cases Workflow.new_eq_ok.mp hwf
    have hknown := unknownDep_eq_none.mp wf.known
    exact ⟨wf.nonempty, wf.nodup, hknown,
      (dep_position_iff wf.nodup hknown ⟨wf.id, wf.steps⟩ rfl).mp ((hkahn hknown).mp wf.acyclic)⟩
  · rintro ⟨hnonempty, hnodup, hknown, hacyclic⟩
    have hrepeated : repeated [] (d.steps.map StepSpec.id) = none :=
      Workflow.repeated_eq_none.mpr ⟨hnodup, fun _ _ => List.not_mem_nil⟩
    exact ⟨⟨d.id, d.steps, hnonempty, hrepeated, unknownDep_eq_none.mpr hknown,
      (hkahn hknown).mpr ((dep_position_iff hnodup hknown d rfl).mpr hacyclic)⟩,
      Workflow.new_eq_ok.mpr rfl⟩

/-! ## Completion -/

/-- The journal appends, and the executors of the steps are registered and succeed. -/
structure Collaborators.Reliable (env : Collaborators) (wf : Workflow) : Prop where
  append : ∀ log ev, env.append log ev = .ok ()
  executor : ∀ s ∈ wf.steps, ∀ log, env.executor log s.kind = true
  runStep : ∀ s ∈ wf.steps, ∀ log, ∃ out, env.runStep log wf.id s = .ok out

section Completion

variable {env : Collaborators} {wf : Workflow} {w : World} {committed : Finset StepId}
    {rounds : Nat}

theorem Collaborators.Reliable.record (henv : env.Reliable wf) {step : StepId} {state : StepState}
    (output : Bytes)
    (h : ∀ current, w.state.stepState (wf.id, step) = some current →
    current.canTransitionTo state = true) :
    ∃ ev, Orchestration333.record env w wf.id step state output =
    (.ok ev, w.recorded wf.id step state output true) := by
  obtain ⟨x, hrecord, -⟩ := record_of_legal env output h
  cases x with
  | ok ev => exact ⟨ev, hrecord⟩
  | error e =>
    exfalso
    unfold Orchestration333.record at hrecord
    simp only [henv.append] at hrecord
    split at hrecord
    · next current hcurrent =>
      obtain ⟨hsome, hcan⟩ := Option.filter_eq_some_iff.mp hcurrent
      rw [h current hsome] at hcan
      cases hcan
    · cases hrecord

theorem initSteps_reliable (henv : env.Reliable wf) (l : List StepSpec)
    (h : ∀ s ∈ l, ∀ current, w.state.stepState (wf.id, s.id) = some current → current = .pending) :
    (initSteps env wf.id l w).1 = .ok () := by
  induction l generalizing w with
  | nil => rfl
  | cons s l ih =>
    have hlegal : ∀ current, w.state.stepState (wf.id, s.id) = some current →
        current.canTransitionTo .pending = true := fun current hcurrent => by
      rw [h s (.head _) current hcurrent]
      rfl
    obtain ⟨ev, hrecord⟩ := henv.record [] hlegal
    rw [initSteps, hrecord]
    refine ih fun s' hs' current hcurrent => ?_
    rw [stepState_recorded] at hcurrent
    split_ifs at hcurrent
    · exact (Option.some.inj hcurrent).symm
    · exact h s' (.tail _ hs') current hcurrent

/-- Every step comes after the steps that it depends on. -/
def Topological (wf : Workflow) (ids : List StepId) : Prop :=
  ∀ before id after, ids = before ++ id :: after → ∀ s ∈ wf.steps, s.id = id →
  ∀ dep ∈ s.dependsOn, dep ∈ before

theorem Topological.concat {ids : List StepId} (h : Topological wf ids) {spec : StepSpec}
    (hspec : spec ∈ wf.steps)
    (hdeps : ∀ dep ∈ spec.dependsOn, dep ∈ ids) : Topological wf (ids ++ [spec.id]) := by
  intro before id after hsplit s hs hid dep hdep
  rcases List.eq_nil_or_concat after with rfl | ⟨after, last, rfl⟩
  · obtain ⟨rfl, heq⟩ := List.append_inj' hsplit rfl
    cases Workflow.eq_of_id hs hspec (hid.trans (List.cons.inj heq).1.symm)
    exact hdeps dep hdep
  · rw [List.concat_eq_append, ← List.cons_append, ← List.append_assoc] at hsplit
    exact h before id after (List.append_inj' hsplit rfl).1 s hs hid dep hdep

/-- The workflow has succeeded, and its steps have run one after the other. -/
def Done (wf : Workflow) (x : Except OrchError WorkflowState × World) : Prop :=
  x.1 = .ok .succeeded ∧ Topological wf (ran x.2.log)

/-- Some steps have committed, the others are pending. -/
structure Progress (wf : Workflow) (committed : Finset StepId) (w : World) : Prop where
  running : w.state.wfState wf.id = some .running
  states : ∀ s ∈ wf.steps, w.state.stepState (wf.id, s.id) =
    some (if s.id ∈ committed then .committed else .pending)
  within : committed ⊆ (wf.steps.map StepSpec.id).toFinset
  ran : ∀ id ∈ committed, id ∈ ran w.log
  sorted : Topological wf (Orchestration333.ran w.log)

theorem Progress.finish (h : Progress wf committed w) (hall : ∀ s ∈ wf.steps, s.id ∈ committed) :
    Done wf (finish wf committed w) := by
  have hset : setWfState w wf.id .succeeded = (.ok (), w.entered wf.id .succeeded) :=
    setWfState_of_eq h.running rfl
  unfold Orchestration333.finish
  rw [if_neg (not_not.mpr (card_of_all_committed h.within hall))]
  dsimp only
  rw [hset]
  exact ⟨rfl, h.sorted⟩

/-- One round commits the step that is ready. -/
theorem Progress.runReady (henv : env.Reliable wf) (h : Progress wf committed w) {spec : StepSpec}
    (hspec : spec ∈ wf.steps) (hdeps : ∀ dep ∈ spec.dependsOn, dep ∈ committed)
    {next : World → Except OrchError WorkflowState × World}
    (hnext : ∀ w', Progress wf (insert spec.id committed) w' → Done wf (next w')) :
    Done wf (runReady env wf spec next (w.recorded wf.id spec.id .running [] true)) := by
  unfold Orchestration333.runReady
  rw [henv.executor spec hspec, if_pos rfl]
  dsimp only
  have hstate : ∀ w' : World, w'.state = (w.recorded wf.id spec.id .running [] true).state →
      ∀ current, w'.state.stepState (wf.id, spec.id) = some current →
      current.canTransitionTo .committed = true := by
    intro w' hw' current hcurrent
    rw [hw', stepState_recorded, if_pos rfl] at hcurrent
    cases hcurrent
    rfl
  obtain ⟨out, hout⟩ := henv.runStep spec hspec
    ((w.recorded wf.id spec.id .running [] true).note (.executor spec.kind true)).log
  rw [hout]
  dsimp only
  obtain ⟨ev, hrecord⟩ := henv.record out (hstate
    (((w.recorded wf.id spec.id .running [] true).note (.executor spec.kind true)).note
    (.run spec.id (.ok out))) rfl)
  rw [hrecord]
  have hran :
    Orchestration333.ran
    ((((w.recorded wf.id spec.id .running [] true).note (.executor spec.kind true)).note
      (.run spec.id (.ok out))).recorded wf.id spec.id .committed out true).log =
      Orchestration333.ran w.log ++ [spec.id] := by
    rw [(lists_recorded ..).1, (lists_note _ _).1, (lists_note _ _).1, (lists_recorded ..).1]
    exact congrArg (· ++ [spec.id]) (List.append_nil _)
  refine hnext _ ⟨h.running, fun s hs => ?_, Finset.insert_subset (mem_ids hspec) h.within,
    fun id hid => ?_, ?_⟩
  · rw [stepState_recorded]
    split_ifs with heq hmem hmem
    · rfl
    · exact absurd (Finset.mem_insert.mpr (.inl heq)) hmem
    · have hold : s.id ∈ committed := (Finset.mem_insert.mp hmem).resolve_left heq
      show (w.recorded wf.id spec.id .running [] true).state.stepState (wf.id, s.id) = _
      rw [stepState_recorded, if_neg heq, h.states s hs, if_pos hold]
    · have hnot : s.id ∉ committed := fun hold => hmem (Finset.mem_insert_of_mem hold)
      show (w.recorded wf.id spec.id .running [] true).state.stepState (wf.id, s.id) = _
      rw [stepState_recorded, if_neg heq, h.states s hs, if_neg hnot]
  · rw [hran]
    rcases Finset.mem_insert.mp hid with rfl | hid
    · exact List.mem_append_right _ (List.mem_singleton_self _)
    · exact List.mem_append_left _ (h.ran id hid)
  · rw [hran]
    exact h.sorted.concat hspec fun dep hdep => h.ran dep (hdeps dep hdep)

/-- The loop over the steps that are pending. -/
theorem Progress.drive (henv : env.Reliable wf) (h : Progress wf committed w)
    (hrounds : wf.steps.length ≤ committed.card + rounds) :
    Done wf (drive env wf rounds committed w) := by
  induction rounds generalizing committed w with
  | zero =>
    have hall := Finset.eq_of_subset_of_card_le h.within (by rw [card_ids]; exact hrounds)
    exact h.finish fun s hs => hall ▸ mem_ids hs
  | succ rounds ih =>
    rw [Orchestration333.drive]
    cases hready : ready wf committed w with
    | none =>
      exact h.finish
        (all_committed_of_pending (fun s hs hnot => by rw [h.states s hs, if_neg hnot]) hready)
    | some spec =>
      obtain ⟨hspec, hnot, hdeps, -⟩ := ready_eq_some hready
      have hlegal : ∀ current, w.state.stepState (wf.id, spec.id) = some current →
          current.canTransitionTo .running = true := fun current hcurrent => by
        rw [h.states spec hspec, if_neg hnot] at hcurrent
        cases hcurrent
        rfl
      obtain ⟨ev, hrecord⟩ := henv.record [] hlegal
      dsimp only
      rw [hrecord]
      refine h.runReady henv hspec hdeps fun w' hw' => ih hw' ?_
      rw [Finset.card_insert_of_notMem hnot]
      omega

theorem execute_reliable (henv : env.Reliable wf) : Done wf (execute env wf .start) := by
  have hset : setWfState .start wf.id .running = (.ok (), World.start.entered wf.id .running) :=
    setWfState_of_legal nofun
  have hinit := initialized env ((rest_start wf).entered_running (.inl rfl)).inv wf.steps
  have hok := initSteps_reliable henv
    (w := World.start.entered wf.id .running) wf.steps fun _ _ _ => nofun
  have hentered : (World.start.entered wf.id .running).state.wfState wf.id = some .running :=
    Function.update_self ..
  unfold execute
  rw [if_neg (show ¬ (World.start.workflowState wf.id).isTerminal = true from
    Bool.false_ne_true), hset]
  dsimp only
  generalize initSteps env wf.id wf.steps (World.start.entered wf.id .running) = x at hinit hok ⊢
  obtain ⟨answer, w⟩ := x
  cases hok
  have hforward :=
    Forward.of_pending hinit.inv ((congrFun hinit.running _).trans hentered) (hinit.pending rfl)
  have hran : Orchestration333.ran w.log = [] := by
    refine List.eq_nil_iff_forall_not_mem.mpr fun id hid => ?_
    obtain ⟨s, hs, rfl⟩ := mem_steps_of_ran hinit.inv.ordered hid
    obtain ⟨st, hst, hterminal⟩ := (hinit.inv.settled s.id).mp hid
    cases (hinit.pending rfl s hs).symm.trans hst
    cases hterminal
  refine Progress.drive henv ⟨hforward.running, hforward.states, hforward.within,
    fun _ hid => absurd hid (Finset.notMem_empty _), ?_⟩ ?_
  · rw [hran]
    exact fun before id after hnil => absurd hnil.symm (by simp)
  · rw [Finset.card_empty, Nat.zero_add]

/-- Every step is run exactly once. -/
theorem ran_perm (h : Inv wf w) (hdone : w.state.wfState wf.id = some .succeeded) :
    (ran w.log).Perm (wf.steps.map StepSpec.id) := by
  refine (List.perm_ext_iff_of_nodup h.once wf.nodup).mpr fun id => ?_
  rw [List.mem_map]
  constructor
  · exact mem_steps_of_ran h.ordered
  · rintro ⟨s, hs, rfl⟩
    exact (h.settled s.id).mpr ⟨.committed, h.succeeded hdone s hs, rfl⟩

/-- Exactly the valid definitions are accepted, and a new coordinator whose collaborators do not
fail runs each step of an accepted one once, after the steps that it depends on, and succeeds. -/
theorem validated_and_executed (d : WorkflowDef) : ((∃ wf, Workflow.new d = .ok wf) ↔ d.Valid) ∧
    ∀ wf env, Workflow.new d = .ok wf → env.Reliable wf →
      (execute env wf .start).1 = .ok .succeeded ∧
      (ran (execute env wf .start).2.log).Perm (d.steps.map StepSpec.id) ∧
      Topological wf (ran (execute env wf .start).2.log) := by
  refine ⟨new_exact d, fun wf env hwf henv => ?_⟩
  cases Workflow.new_eq_ok.mp hwf
  obtain ⟨hdone, hsorted⟩ := execute_reliable henv
  obtain ⟨hrest, hanswer⟩ : Left wf (execute env wf .start) := left_execute (rest_start wf)
  exact ⟨hdone, ran_perm hrest.inv (hanswer _ hdone).1, hsorted⟩

end Completion

namespace Demo

/-- Two steps between a first and a last one, the last one listed before them. -/
def diamond : WorkflowDef :=
  ⟨"diamond", [⟨"a", "work", [], []⟩, ⟨"d", "work", [], ["b", "c"]⟩, ⟨"b", "work", [], ["a"]⟩,
  ⟨"c", "work", [], ["a"]⟩]⟩

/-- The journal in memory, with executors that succeed. -/
def inMemory : Collaborators where
  append _ _ := .ok ()
  executor _ _ := true
  runStep _ _ _ := .ok []
  compensator _ _ := true
  compensate _ _ _ _ := .ok ()
  attempts _ := 3
  attempts_pos _ := by decide

theorem validated_and_executed_diamond : ∃ wf, Workflow.new diamond = .ok wf ∧
    (execute inMemory wf .start).1 = .ok .succeeded ∧
    (ran (execute inMemory wf .start).2.log).Perm ["a", "d", "b", "c"] ∧
    Topological wf (ran (execute inMemory wf .start).2.log) := by
  have hok : (Workflow.new diamond).isOk = true := by decide +kernel
  cases hwf : Workflow.new diamond with
  | error e =>
    rw [hwf] at hok
    cases hok
  | ok wf =>
    exact ⟨wf, rfl, (validated_and_executed diamond).2 wf inMemory hwf
      ⟨fun _ _ => rfl, fun _ _ _ => rfl, fun _ _ _ => ⟨[], rfl⟩⟩⟩

end Demo

end P2P333.Orchestration333
