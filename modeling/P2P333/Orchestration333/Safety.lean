import P2P333.Orchestration333.Saga

/-!
# Saga safety

What the log of a coordinator says about its runs, whatever the collaborators answer. State changes
in memory before the journal is asked, so the books are kept in memory: the steps that have run are
those in a terminal state, the order of commitment is the order of the successful runs, and what has
been compensated is an end of it, last step first.

The forward path is interrupted when, with some step committed, the journal fails to append a record
of it or an executor is missing. Then the workflow stays in `running` for good.

Results:
1. `left_call`: what a call leaves behind.
2. `safe`: no step runs twice or before its dependencies; a compensated workflow has undone exactly
   what had succeeded, in reverse order; a workflow that has succeeded has undone nothing.
-/

namespace P2P333.Orchestration333

open Lib Machine Function

/-! ## The log -/

namespace Entry

/-- The step that has been run. -/
def ran : Entry → Option StepId
  | .run id _ => some id
  | _ => none

/-- The step that has been run successfully, with its output. -/
def success : Entry → Option (StepId × Bytes)
  | .run id (.ok out) => some (id, out)
  | _ => none

/-- The step that has committed. -/
def commit : Entry → Option StepId
  | .append ev _ => if ev.state = .committed then some ev.step else none
  | _ => none

/-- The step that has been compensated, with the output that was given to the compensator. -/
def undone : Entry → Option (StepId × Bytes)
  | .compensate id out true => some (id, out)
  | _ => none

/-- A failure of the forward path that no compensation answers. -/
def interrupts : Entry → Bool
  | .append ev ok => !ok && (ev.state = .running || ev.state = .committed || ev.state = .failed)
  | .executor _ found => !found
  | _ => false

end Entry

def ran (log : List Entry) : List StepId := log.filterMap Entry.ran
def successes (log : List Entry) : List (StepId × Bytes) := log.filterMap Entry.success
def commits (log : List Entry) : List StepId := log.filterMap Entry.commit
def undone (log : List Entry) : List (StepId × Bytes) := log.filterMap Entry.undone

/-- The commitment of the step has been appended to the journal. -/
def Journaled (log : List Entry) (id : StepId) : Prop :=
  ∃ ev : StepEvent, ev.step = id ∧ ev.state = .committed ∧ .append ev true ∈ log

/-- Every step runs after the steps that it depends on have committed. -/
def Ordered (wf : Workflow) (log : List Entry) : Prop :=
  ∀ done id r, done ++ [.run id r] <+: log →
    ∃ s ∈ wf.steps, s.id = id ∧ ∀ d ∈ s.dependsOn, Journaled done d

/-- The forward path has been interrupted with some step committed. -/
def Interrupted (log : List Entry) : Prop :=
  ∃ done e, done ++ [e] <+: log ∧ e.interrupts = true ∧ commits (done ++ [e]) ≠ []

/-! ## Statement -/

/-- The workflow is safe: each step is run at most once, and after its dependencies have committed.
If the workflow is compensated, the successful runs have been compensated, each once and with its
output, in the reverse of the order in which they have committed. If it has succeeded, all steps
have committed and none has been compensated. -/
structure Safe (wf : Workflow) (w : World) : Prop where
  once : (ran w.log).Nodup
  ordered : Ordered wf w.log
  compensated : w.state.wfState wf.id = some .compensated →
    undone w.log = (successes w.log).reverse ∧ commits w.log = (successes w.log).map Prod.fst
  succeeded : w.state.wfState wf.id = some .succeeded →
    (∀ s ∈ wf.steps, w.state.stepState (wf.id, s.id) = some .committed) ∧ undone w.log = []

/-! ## The invariant -/

def StepState.isTerminal : StepState → Bool
  | .committed | .failed | .compensated => true
  | _ => false

/-- The successful runs are those that stand, followed by those that have been compensated. -/
structure Split (wf : Workflow) (w : World) (front back : List (StepId × Bytes)) : Prop where
  successes : successes w.log = front ++ back
  undone : undone w.log = back.reverse
  front : ∀ x ∈ front, w.state.stepState (wf.id, x.1) = some .committed
  back : ∀ x ∈ back, w.state.stepState (wf.id, x.1) = some .compensated

/-- The books of the coordinator. -/
structure Inv (wf : Workflow) (w : World) : Prop where
  once : (ran w.log).Nodup
  ordered : Ordered wf w.log
  settled : ∀ id, id ∈ ran w.log ↔
    ∃ s, w.state.stepState (wf.id, id) = some s ∧ s.isTerminal = true
  unwritten : ∀ id, id ∉ ran w.log → w.state.stepOutput (wf.id, id) = none
  order : w.state.committedOrder wf.id = (successes w.log).map Prod.fst
  commits : commits w.log = (successes w.log).map Prod.fst
  output : ∀ x ∈ successes w.log, (w.state.stepOutput (wf.id, x.1)).getD [] = x.2
  committed : ∀ id, w.state.stepState (wf.id, id) = some .committed →
    id ∈ (successes w.log).map Prod.fst
  split : ∃ front back, Split wf w front back
  untouched : w.state.wfState wf.id = none → ran w.log = []
  forward : w.state.wfState wf.id ≠ some .compensating →
    w.state.wfState wf.id ≠ some .compensated → undone w.log = []
  compensated : w.state.wfState wf.id = some .compensated →
    undone w.log = (successes w.log).reverse
  succeeded : w.state.wfState wf.id = some .succeeded →
    ∀ s ∈ wf.steps, w.state.stepState (wf.id, s.id) = some .committed
  notFailed : w.state.wfState wf.id ≠ some .failed

variable {wf : Workflow} {w w' : World} {log : List Entry} {e : Entry}
variable {x : StepId × Bytes}

theorem mem_ran_of_success (h : x ∈ successes log) : x.1 ∈ ran log := by
  obtain ⟨e, he, hx⟩ := List.mem_filterMap.mp h
  refine List.mem_filterMap.mpr ⟨e, he, ?_⟩
  cases e with
  | run id r =>
    cases r with
    | error => cases hx
    | ok => cases hx; rfl
  | _ => cases hx

/-- A step has succeeded once at most. -/
theorem nodup_successes (h : (ran log).Nodup) : ((successes log).map Prod.fst).Nodup := by
  have hsub : ((successes log).map Prod.fst).Sublist (ran log) := by
    unfold successes ran
    induction log with
    | nil => exact .refl _
    | cons e log ih =>
      have ih := ih (h.sublist (List.Sublist.filterMap _ (List.sublist_cons_self e log)))
      cases e with
      | run id r =>
        cases r with
        | error => exact ih.cons _
        | ok => exact ih.cons_cons _
      | _ =>
        simp only [List.filterMap_cons, Entry.ran, Entry.success]
        exact ih
  exact h.sublist hsub

theorem Safe.of_inv (h : Inv wf w) : Safe wf w where
  once := h.once
  ordered := h.ordered
  compensated hstate := ⟨h.compensated hstate, h.commits⟩
  succeeded hstate :=
    ⟨h.succeeded hstate, h.forward (by rw [hstate]; nofun) (by rw [hstate]; nofun)⟩

theorem Ordered.concat (h : Ordered wf log) (he : ∀ id r, e = .run id r →
    ∃ s ∈ wf.steps, s.id = id ∧ ∀ d ∈ s.dependsOn, Journaled log d) : Ordered wf (log ++ [e]) := by
  intro done id r hdone
  rcases List.prefix_concat_iff.mp hdone with heq | hdone
  · obtain ⟨rfl, ⟨⟩⟩ := List.append_inj' heq rfl
    exact he id r rfl
  · exact h done id r hdone

theorem interrupted_concat : Interrupted (log ++ [e]) ↔
    Interrupted log ∨ e.interrupts = true ∧ commits (log ++ [e]) ≠ [] := by
  constructor
  · rintro ⟨done, e', hdone, hinterrupts, hcommits⟩
    rcases List.prefix_concat_iff.mp hdone with heq | hdone
    · obtain ⟨rfl, ⟨⟩⟩ := List.append_inj' heq rfl
      exact .inr ⟨hinterrupts, hcommits⟩
    · exact .inl ⟨done, e', hdone, hinterrupts, hcommits⟩
  · rintro (⟨done, e', hdone, hrest⟩ | ⟨hinterrupts, hcommits⟩)
    · exact ⟨done, e', hdone.trans (List.prefix_append _ _), hrest⟩
    · exact ⟨log, e, List.prefix_rfl, hinterrupts, hcommits⟩

/-! ## What the books survive -/

/-- Nothing that the books speak of has happened, and at most the state of steps that have not run
has changed. -/
theorem Inv.touch (h : Inv wf w) (hran : ran w'.log = ran w.log)
    (hsuccesses : successes w'.log = successes w.log)
    (hcommits : Orchestration333.commits w'.log = Orchestration333.commits w.log)
    (hundone : undone w'.log = undone w.log) (hordered : Ordered wf w'.log)
    (houtput : w'.state.stepOutput = w.state.stepOutput)
    (horder : w'.state.committedOrder = w.state.committedOrder)
    (hwf : w'.state.wfState = w.state.wfState)
    (hstate : ∀ id, w'.state.stepState (wf.id, id) = w.state.stepState (wf.id, id) ∨
      id ∉ ran w.log ∧ ∃ s : StepState, w'.state.stepState (wf.id, id) = some s ∧
        s.isTerminal = false) : Inv wf w' := by
  have hkept : ∀ id, id ∈ ran w.log →
      w'.state.stepState (wf.id, id) = w.state.stepState (wf.id, id) := fun id hid =>
    (hstate id).resolve_right fun hnew => hnew.1 hid
  obtain ⟨front, back, hsplit⟩ := h.split
  refine ⟨hran ▸ h.once, hordered, fun id => ?_, ?_, ?_, ?_, ?_, fun id hid => ?_,
    ⟨front, back, ?_⟩,
    ?_, ?_, ?_, fun hdone s hs => ?_, ?_⟩
  · rw [hran]
    rcases hstate id with heq | ⟨hnot, s, hs, hterminal⟩
    · rw [heq]
      exact h.settled id
    · refine iff_of_false hnot ?_
      rintro ⟨s', hs', hterminal'⟩
      cases hs.symm.trans hs'
      rw [hterminal] at hterminal'
      cases hterminal'
  · rw [hran, houtput]
    exact h.unwritten
  · rw [horder, hsuccesses]
    exact h.order
  · rw [hcommits, hsuccesses]
    exact h.commits
  · rw [hsuccesses, houtput]
    exact h.output
  · rw [hsuccesses]
    rcases hstate id with heq | ⟨-, s, hs, hterminal⟩
    · exact h.committed id (heq ▸ hid)
    · cases hs.symm.trans hid
      cases hterminal
  · have hin : ∀ x, x ∈ front ∨ x ∈ back → x.1 ∈ ran w.log := fun x hx =>
      mem_ran_of_success (hsplit.successes ▸ List.mem_append.mpr hx)
    exact ⟨hsuccesses.trans hsplit.successes, hundone.trans hsplit.undone,
      fun x hx => (hkept _ (hin x (.inl hx))).trans (hsplit.front x hx),
      fun x hx => (hkept _ (hin x (.inr hx))).trans (hsplit.back x hx)⟩
  · rw [hwf, hran]
    exact h.untouched
  · rw [hwf, hundone]
    exact h.forward
  · rw [hwf, hundone, hsuccesses]
    exact h.compensated
  · rw [hwf] at hdone
    have hs' := h.succeeded hdone s hs
    exact (hkept _ ((h.settled _).mpr ⟨_, hs', rfl⟩)).trans hs'
  · rw [hwf]
    exact h.notFailed

/-- The collaborators have been asked for something that the books do not speak of. -/
structure Calm (w w' : World) : Prop where
  state : w'.state = w.state
  ran : ran w'.log = ran w.log
  successes : successes w'.log = successes w.log
  commits : commits w'.log = commits w.log
  undone : undone w'.log = undone w.log
  ordered : ∀ wf, Ordered wf w.log → Ordered wf w'.log
  interrupted : Interrupted w'.log ↔ Interrupted w.log

theorem Calm.refl (w : World) : Calm w w := ⟨rfl, rfl, rfl, rfl, rfl, fun _ h => h, .rfl⟩

theorem Calm.trans {w'' : World} (h : Calm w w') (h' : Calm w' w'') : Calm w w'' :=
  ⟨h'.state.trans h.state, h'.ran.trans h.ran, h'.successes.trans h.successes,
    h'.commits.trans h.commits, h'.undone.trans h.undone, fun wf hw =>
      h'.ordered wf (h.ordered wf hw),
    h'.interrupted.trans h.interrupted⟩

theorem Calm.note (hran : e.ran = none) (hsuccess : e.success = none) (hcommit : e.commit = none)
    (hundone : e.undone = none) (hinterrupts : e.interrupts = false) : Calm w (w.note e) := by
  refine ⟨rfl, ?_, ?_, ?_, ?_, fun wf hw => hw.concat fun id r heq => ?_, ?_⟩
  · simp [World.note, Orchestration333.ran, hran]
  · simp [World.note, Orchestration333.successes, hsuccess]
  · simp [World.note, Orchestration333.commits, hcommit]
  · simp [World.note, Orchestration333.undone, hundone]
  · rw [heq] at hran
    cases hran
  · rw [World.note, interrupted_concat, hinterrupts]
    exact or_iff_left fun hnone => Bool.false_ne_true hnone.1

theorem Inv.calm (h : Inv wf w) (hcalm : Calm w w') : Inv wf w' :=
  h.touch hcalm.ran hcalm.successes hcalm.commits hcalm.undone (hcalm.ordered wf h.ordered)
    (by rw [hcalm.state]) (by rw [hcalm.state]) (by rw [hcalm.state])
    fun id => .inl (by rw [hcalm.state])

/-! ## Records -/

variable {id : StepId} {st : StepState} {out : Bytes} {ok : Bool}

theorem stepState_recorded (w : World) (id' : StepId) :
    (w.recorded wf.id id st out ok).state.stepState (wf.id, id') =
      if id' = id then some st else w.state.stepState (wf.id, id') := by
  simp only [World.recorded, CoordinatorState.write, update_apply, Prod.mk.injEq, true_and]

theorem stepOutput_recorded (w : World) (id' : StepId) :
    (w.recorded wf.id id st out ok).state.stepOutput (wf.id, id') =
      if id' = id ∧ out ≠ [] then some out else w.state.stepOutput (wf.id, id') := by
  simp only [World.recorded, CoordinatorState.write]
  by_cases hout : out = []
  · simp [hout]
  · simp [hout, update_apply]

theorem committedOrder_recorded (w : World) :
    (w.recorded wf.id id st out ok).state.committedOrder wf.id = if st = .committed then
      w.state.committedOrder wf.id ++ [id] else w.state.committedOrder wf.id := by
  simp only [World.recorded, CoordinatorState.write]
  split_ifs
  · rw [update_self]
  · rfl

theorem log_recorded (w : World) : (w.recorded wf.id id st out ok).log =
    w.log ++ [.append ⟨wf.id, id, st, out, w.state.seq + 1⟩ ok] := rfl

theorem wfState_recorded (w : World) :
    (w.recorded wf.id id st out ok).state.wfState = w.state.wfState := rfl

/-- What is recorded after a question adds the question to the lists, and the commitment. -/
theorem lists_recorded (wf : Workflow) (id : StepId) (st : StepState) (out : Bytes) (ok : Bool)
    (w : World) :
    ran (w.recorded wf.id id st out ok).log = ran w.log ∧
      successes (w.recorded wf.id id st out ok).log = successes w.log ∧
      undone (w.recorded wf.id id st out ok).log = undone w.log ∧
      commits (w.recorded wf.id id st out ok).log =
        commits w.log ++ if st = .committed then [id] else [] := by
  refine ⟨?_, ?_, ?_, ?_⟩
  · simp [log_recorded, ran, Entry.ran]
  · simp [log_recorded, successes, Entry.success]
  · simp [log_recorded, undone, Entry.undone]
  · by_cases hst : st = .committed <;> simp [log_recorded, commits, Entry.commit, hst]

theorem lists_note (w : World) (e : Entry) :
    ran (w.note e).log = ran w.log ++ e.ran.toList ∧
      successes (w.note e).log = successes w.log ++ e.success.toList ∧
      undone (w.note e).log = undone w.log ++ e.undone.toList ∧
      commits (w.note e).log = commits w.log ++ e.commit.toList := by
  refine ⟨?_, ?_, ?_, ?_⟩
  · cases h : e.ran <;> simp [World.note, ran, h]
  · cases h : e.success <;> simp [World.note, successes, h]
  · cases h : e.undone <;> simp [World.note, undone, h]
  · cases h : e.commit <;> simp [World.note, commits, h]

/-- A question that the books do not speak of. -/
theorem Inv.note (h : Inv wf w) (hran : e.ran = none) (hsuccess : e.success = none)
    (hcommit : e.commit = none) (hundone : e.undone = none) : Inv wf (w.note e) := by
  obtain ⟨hran', hsuccesses, hundone', hcommits⟩ := lists_note w e
  rw [hran, Option.toList_none, List.append_nil] at hran'
  rw [hsuccess, Option.toList_none, List.append_nil] at hsuccesses
  rw [hundone, Option.toList_none, List.append_nil] at hundone'
  rw [hcommit, Option.toList_none, List.append_nil] at hcommits
  refine h.touch hran' hsuccesses hcommits hundone' (h.ordered.concat fun id r heq =>
    ?_) rfl rfl rfl
    fun _ => .inl rfl
  rw [heq] at hran
  cases hran

theorem ordered_recorded (h : Ordered wf w.log) : Ordered wf (w.recorded wf.id id st out ok).log :=
  h.concat nofun

/-- A step that has not run is recorded as pending or running. -/
theorem Inv.recorded (h : Inv wf w) (hid : id ∉ ran w.log) (hst : st.isTerminal = false) :
    Inv wf (w.recorded wf.id id st [] ok) := by
  have hcommitted : st ≠ .committed := by rintro rfl; cases hst
  obtain ⟨hran, hsuccesses, hundone, hcommits⟩ := lists_recorded wf id st [] ok w
  rw [if_neg hcommitted, List.append_nil] at hcommits
  refine h.touch hran hsuccesses hcommits hundone (ordered_recorded h.ordered) rfl ?_ rfl
    fun id' => ?_
  · simp only [World.recorded, CoordinatorState.write, if_neg hcommitted]
  · rw [stepState_recorded]
    split_ifs with heq
    · exact .inr ⟨heq ▸ hid, st, rfl, hst⟩
    · exact .inl rfl

/-- Without a rollback everything that has succeeded stands. -/
theorem Inv.stands (h : Inv wf w) (hnone : undone w.log = [])
    (hx : x ∈ successes w.log) : w.state.stepState (wf.id, x.1) = some .committed := by
  obtain ⟨front, back, hsplit⟩ := h.split
  have hback : back = [] := List.reverse_eq_nil_iff.mp (hsplit.undone.symm.trans hnone)
  rw [hsplit.successes, hback, List.append_nil] at hx
  exact hsplit.front x hx

theorem Inv.undone_nil (h : Inv wf w) (hrunning : w.state.wfState wf.id = some .running) :
    undone w.log = [] := h.forward (by rw [hrunning]; nofun) (by rw [hrunning]; nofun)

theorem not_ran_of_not_terminal (h : Inv wf w)
    (hst : ∀ s, w.state.stepState (wf.id, id) = some s → s.isTerminal = false) :
      id ∉ ran w.log := by
  intro hid
  obtain ⟨s, hs, hterminal⟩ := (h.settled id).mp hid
  rw [hst s hs] at hterminal
  cases hterminal

/-- The books of a workflow that runs. -/
theorem Inv.of_running (hrunning : w.state.wfState wf.id = some .running)
    (once : (ran w.log).Nodup) (ordered : Ordered wf w.log)
    (settled : ∀ id, id ∈ ran w.log ↔
      ∃ s, w.state.stepState (wf.id, id) = some s ∧ s.isTerminal = true)
    (unwritten : ∀ id, id ∉ ran w.log → w.state.stepOutput (wf.id, id) = none)
    (order : w.state.committedOrder wf.id = (successes w.log).map Prod.fst)
    (commits : Orchestration333.commits w.log = (successes w.log).map Prod.fst)
    (output : ∀ x ∈ successes w.log, (w.state.stepOutput (wf.id, x.1)).getD [] = x.2)
    (committed : ∀ id, w.state.stepState (wf.id, id) = some .committed →
      id ∈ (successes w.log).map Prod.fst) (hnone : undone w.log = [])
    (stands : ∀ x ∈ successes w.log, w.state.stepState (wf.id, x.1) = some .committed) :
    Inv wf w :=
  { once, ordered, settled, unwritten, order, commits, output, committed
    split := ⟨successes w.log, [], (List.append_nil _).symm, hnone, stands, nofun⟩
    untouched := fun h => by cases hrunning.symm.trans h
    forward := fun _ _ => hnone
    compensated := fun h => by cases hrunning.symm.trans h
    succeeded := fun h => by cases hrunning.symm.trans h
    notFailed := fun h => by cases hrunning.symm.trans h }

/-- A step that had not run has run, and is recorded. -/
theorem Inv.run {r : Except OrchError Bytes} (h : Inv wf w) (hid : id ∉ ran w.log)
    (hdeps : ∃ s ∈ wf.steps, s.id = id ∧ ∀ d ∈ s.dependsOn, Journaled w.log d)
    (hw' : w' = (w.note (.run id r)).recorded wf.id id st out ok) (hst : st.isTerminal = true) :
    (ran w'.log).Nodup ∧ Ordered wf w'.log ∧
      (∀ id', id' ∈ ran w'.log ↔
        ∃ s, w'.state.stepState (wf.id, id') = some s ∧ s.isTerminal = true) ∧
      ∀ id', id' ∉ ran w'.log → w'.state.stepOutput (wf.id, id') = none := by
  have hran : ran w'.log = ran w.log ++ [id] := by
    rw [hw', (lists_recorded ..).1, (lists_note ..).1]
    rfl
  refine ⟨?_, ?_, fun id' => ?_, fun id' hid' => ?_⟩
  · rw [hran]
    exact (List.perm_append_singleton ..).nodup_iff.mpr (List.nodup_cons.mpr ⟨hid, h.once⟩)
  · rw [hw']
    exact ordered_recorded (h.ordered.concat fun id' r heq => by cases heq; exact hdeps)
  · rw [hran, hw', stepState_recorded, List.mem_append, List.mem_singleton]
    split_ifs with heq
    · exact iff_of_true (.inr heq) ⟨_, rfl, hst⟩
    · rw [or_iff_left heq]
      exact h.settled id'
  · rw [hran, List.mem_append, List.mem_singleton, not_or] at hid'
    rw [hw', stepOutput_recorded, if_neg fun hnew => hid'.2 hnew.1]
    exact h.unwritten id' hid'.1

/-- A step has run, and is recorded as committed with its output, or as failed. -/
theorem Inv.ends (h : Inv wf w) (r : Except OrchError Bytes) (out : Bytes) (ok : Bool)
    (hout : ∀ o, r = .ok o → o = out) (hst : st = if r.isOk then .committed else .failed)
    (hrunning : w.state.wfState wf.id = some .running) (hid : id ∉ ran w.log)
    (hdeps : ∃ s ∈ wf.steps, s.id = id ∧ ∀ d ∈ s.dependsOn, Journaled w.log d) :
    Inv wf ((w.note (.run id r)).recorded wf.id id st out ok) := by
  obtain ⟨-, hsuccesses, hundone, hcommits⟩ := lists_recorded wf id st out ok (w.note (.run id r))
  obtain ⟨-, hsuccesses', hundone', hcommits'⟩ := lists_note w (.run id r)
  rw [hsuccesses'] at hsuccesses
  rw [hundone'] at hundone
  rw [hcommits'] at hcommits
  obtain ⟨honce, hordered, hsettled, hunwritten⟩ := h.run hid hdeps
    (show _ = (w.note (.run id r)).recorded wf.id id st out ok from rfl)
    (by rw [hst]; cases r <;> rfl)
  have hnone := h.undone_nil hrunning
  have hother : ∀ x ∈ successes w.log, x.1 ≠ id := fun x hx heq =>
    hid (heq ▸ mem_ran_of_success hx)
  -- what is new among the successful runs
  obtain ⟨fresh, hfresh⟩ : ∃ fresh, fresh = (Entry.run id r).success.toList := ⟨_, rfl⟩
  have hnew : ∀ x ∈ fresh, x = (id, out) ∧ st = .committed := by
    rw [hfresh, hst]
    cases r with
    | error => nofun
    | ok o => exact fun x hx => ⟨hout o rfl ▸ List.mem_singleton.mp hx, rfl⟩
  have hids : fresh.map Prod.fst = if st = .committed then [id] else [] := by
    rw [hfresh, hst]
    cases r <;> rfl
  rw [← hfresh] at hsuccesses
  refine .of_running hrunning honce hordered hsettled hunwritten ?_ ?_ (fun x hx => ?_)
    (fun id' hid' => ?_) (hundone.trans ?_) fun x hx => ?_
  · rw [committedOrder_recorded, hsuccesses, List.map_append, hids]
    split_ifs
    · exact congrArg (· ++ [id]) h.order
    · exact h.order.trans (List.append_nil _).symm
  · rw [hcommits, hsuccesses, List.map_append, h.commits, hids]
    exact congrArg (· ++ _) (List.append_nil _)
  · rw [stepOutput_recorded]
    rw [hsuccesses, List.mem_append] at hx
    rcases hx with hx | hx
    · rw [if_neg fun hnew => hother x hx hnew.1]
      exact h.output x hx
    obtain ⟨rfl, -⟩ := hnew x hx
    split_ifs with hne
    · rfl
    · have hempty : out = [] := not_not.mp fun h => hne ⟨rfl, h⟩
      show (w.state.stepOutput (wf.id, id)).getD [] = out
      rw [h.unwritten id hid, hempty]
      rfl
  · rw [hsuccesses, List.map_append, List.mem_append, hids]
    rw [stepState_recorded] at hid'
    split_ifs at hid' with heq
    · rw [if_pos (Option.some.inj hid')]
      exact .inr (heq ▸ List.mem_singleton_self _)
    · exact .inl (h.committed id' hid')
  · rw [← hnone]
    exact List.append_nil _
  · rw [stepState_recorded]
    rw [hsuccesses] at hx
    rcases List.mem_append.mp hx with hx | hx
    · rw [if_neg (hother x hx)]
      exact h.stands hnone hx
    · obtain ⟨rfl, hst⟩ := hnew x hx
      rw [if_pos rfl, hst]

variable {front back : List (StepId × Bytes)}

/-- The last step that stands has been compensated, with its own output, and is recorded as such. -/
theorem Inv.undo (h : Inv wf w) (ok : Bool)
    (hcompensating : w.state.wfState wf.id = some .compensating)
    (hsplit : Split wf w (front ++ [x]) back) :
    Inv wf ((w.note (.compensate x.1 x.2 true)).recorded wf.id x.1 .compensated [] ok) ∧
      Split wf ((w.note (.compensate x.1 x.2 true)).recorded wf.id x.1 .compensated [] ok) front
        (x :: back) := by
  obtain ⟨hran, hsuccesses, hundone, hcommits⟩ :=
    lists_recorded wf x.1 .compensated [] ok (w.note (.compensate x.1 x.2 true))
  obtain ⟨hran', hsuccesses', hundone', hcommits'⟩ := lists_note w (.compensate x.1 x.2 true)
  simp only [hran', hsuccesses', hundone', hcommits', Entry.ran, Entry.success, Entry.undone,
    Entry.commit, Option.toList_some, Option.toList_none, List.append_nil, reduceCtorEq,
    if_false] at hran hsuccesses hundone hcommits
  have hx : x ∈ successes w.log := by
    rw [hsplit.successes]
    exact List.mem_append_left _ (List.mem_append_right _ (List.mem_singleton_self x))
  have hnodup := nodup_successes h.once
  rw [hsplit.successes, List.append_assoc, List.map_append, List.map_append] at hnodup
  -- No step succeeds twice, so that those in front are other ones.
  have hfront : ∀ y ∈ front, y.1 ≠ x.1 := fun y hy =>
    (List.nodup_append.mp hnodup).2.2 _ (List.mem_map_of_mem hy) _
      (List.mem_append_left _ (List.mem_singleton_self _))
  have hnew : Split wf ((w.note (.compensate x.1 x.2 true)).recorded wf.id x.1 .compensated [] ok)
      front (x :: back) := by
    refine ⟨?_, ?_, fun y hy => ?_, fun y hy => ?_⟩
    · rw [hsuccesses, hsplit.successes, List.append_assoc]
      rfl
    · rw [hundone, hsplit.undone, List.reverse_cons]
    · rw [stepState_recorded, if_neg (hfront y hy)]
      exact hsplit.front y (List.mem_append_left _ hy)
    · rw [stepState_recorded]
      split_ifs with heq
      · rfl
      · rcases List.mem_cons.mp hy with rfl | hy
        · exact absurd rfl heq
        · exact hsplit.back y hy
  refine ⟨⟨hran ▸ h.once, ?_, fun id' => ?_, fun id' hid' => ?_, ?_, ?_, fun y hy => ?_,
    fun id' hid' => ?_, ⟨front, x :: back, hnew⟩, ?_, ?_, ?_, ?_, ?_⟩, hnew⟩
  · exact ordered_recorded (h.ordered.concat nofun)
  · rw [hran, stepState_recorded]
    split_ifs with heq
    · exact iff_of_true (heq ▸ mem_ran_of_success hx) ⟨_, rfl, rfl⟩
    · exact h.settled id'
  · rw [hran] at hid'
    rw [stepOutput_recorded, if_neg fun hne => hne.2 rfl]
    exact h.unwritten id' hid'
  · rw [committedOrder_recorded, if_neg nofun, hsuccesses]
    exact h.order
  · rw [hcommits, hsuccesses]
    exact h.commits
  · rw [hsuccesses] at hy
    rw [stepOutput_recorded, if_neg fun hne => hne.2 rfl]
    exact h.output y hy
  · rw [hsuccesses]
    rw [stepState_recorded] at hid'
    split_ifs at hid' with heq
    · cases hid'
    · exact h.committed id' hid'
  · rw [wfState_recorded]
    exact fun hstate => by cases hcompensating.symm.trans hstate
  · rw [wfState_recorded]
    exact fun hstate => absurd hcompensating hstate
  · rw [wfState_recorded]
    exact fun hstate => by cases hcompensating.symm.trans hstate
  · rw [wfState_recorded]
    exact fun hstate => by cases hcompensating.symm.trans hstate
  · rw [wfState_recorded]
    exact h.notFailed

/-- The workflow enters a state that its books allow. -/
theorem Inv.entered (h : Inv wf w) {s : WorkflowState}
    (hforward : s ≠ .compensating → s ≠ .compensated → undone w.log = [])
    (hcompensated : s = .compensated → undone w.log = (successes w.log).reverse)
    (hsucceeded : s = .succeeded → ∀ spec ∈ wf.steps,
      w.state.stepState (wf.id, spec.id) = some .committed)
    (hfailed : s ≠ .failed) : Inv wf (w.entered wf.id s) := by
  have hstate : (w.entered wf.id s).state.wfState wf.id = some s := update_self ..
  obtain ⟨front, back, hsplit⟩ := h.split
  refine ⟨h.once, h.ordered, h.settled, h.unwritten, h.order, h.commits, h.output, h.committed,
    ⟨front, back, hsplit.successes, hsplit.undone, hsplit.front, hsplit.back⟩, fun hnone => ?_,
    fun hne hne' => ?_, fun heq => ?_, fun heq => ?_, fun heq => ?_⟩
  · cases hstate.symm.trans hnone
  · rw [hstate] at hne hne'
    exact hforward (fun heq => hne (heq ▸ rfl)) fun heq => hne' (heq ▸ rfl)
  · exact hcompensated (Option.some.inj (hstate.symm.trans heq))
  · exact hsucceeded (Option.some.inj (hstate.symm.trans heq))
  · exact hfailed (Option.some.inj (hstate.symm.trans heq))

/-! ## Rest -/

/-- A committed effect is outstanding. -/
def Outstanding (wf : Workflow) (w : World) : Prop :=
  ∃ id, w.state.stepState (wf.id, id) = some .committed

/-- The coordinator between two calls. -/
structure Rest (wf : Workflow) (w : World) : Prop where
  inv : Inv wf w
  stuck : Interrupted w.log ↔ w.state.wfState wf.id = some .running ∧ Outstanding wf w

/-- What a call leaves behind: a workflow that it reports as being in a terminal state is in it. -/
structure Left (wf : Workflow) (x : Except OrchError WorkflowState × World) : Prop where
  rest : Rest wf x.2
  answer : ∀ s, x.1 = .ok s → x.2.state.wfState wf.id = some s ∧ s.isTerminal = true

theorem Inv.outstanding_iff (h : Inv wf w) (hrunning : w.state.wfState wf.id = some .running) :
    Outstanding wf w ↔ Orchestration333.commits w.log ≠ [] := by
  rw [h.commits]
  constructor
  · rintro ⟨id, hid⟩ hnone
    exact List.not_mem_nil (hnone ▸ h.committed id hid)
  · intro hsome
    obtain ⟨x, hx⟩ := List.exists_mem_of_ne_nil (successes w.log) fun hnone => hsome (by
      rw [hnone, List.map_nil])
    exact ⟨x.1, h.stands (h.undone_nil hrunning) hx⟩

/-- The forward path stops where it is interrupted. -/
theorem Rest.of_stop (h : Inv wf w) (hrunning : w.state.wfState wf.id = some .running)
    (hlog : w.log = log ++ [e]) (hinterrupts : e.interrupts = true) (hnot : ¬ Interrupted log) :
    Rest wf w := by
  refine ⟨h, ?_⟩
  rw [h.outstanding_iff hrunning, hlog, interrupted_concat, or_iff_right hnot]
  exact ⟨fun hstop => ⟨hrunning, hstop.2⟩, fun hstop => ⟨hinterrupts, hstop.2⟩⟩

theorem Rest.of_leave (h : Inv wf w) (hleft : w.state.wfState wf.id ≠ some .running)
    (hnot : ¬ Interrupted w.log) : Rest wf w :=
  ⟨h, iff_of_false hnot fun hstuck => hleft hstuck.1⟩

/-! ## Rollback -/

variable {env : Collaborators}

theorem mem_steps_of_ran (h : Ordered wf log) (hid : id ∈ ran log) : ∃ s ∈ wf.steps, s.id = id := by
  obtain ⟨e, he, hran⟩ := List.mem_filterMap.mp hid
  obtain ⟨done, rest, rfl⟩ := List.append_of_mem he
  cases e with
  | run id' r =>
    cases hran
    obtain ⟨s, hs, hsid, -⟩ := h done id r ⟨rest, by simp⟩
    exact ⟨s, hs, hsid⟩
  | _ => cases hran

theorem attempt_spec (env : Collaborators) (wf : WorkflowId) (spec : StepSpec)
    (output : Bytes) (n : Nat)
    (last : Option OrchError) (w : World) :
    ∃ w', Calm w w' ∧
      (attempt env wf spec output n last w = (.ok (), w'.note (.compensate spec.id output true)) ∨
        (∃ last', attempt env wf spec output n last w = (.error last', w')) ∧
          (env.Healthy → n = 0)) := by
  induction n generalizing last w with
  | zero => exact ⟨w, .refl w, .inr ⟨⟨last, rfl⟩, fun _ => rfl⟩⟩
  | succ n ih =>
    rw [attempt]
    cases hanswer : env.compensate w.log wf spec output with
    | ok => exact ⟨w, .refl w, .inl rfl⟩
    | error e =>
      obtain ⟨w', hcalm, hrest⟩ := ih (some e) (w.note (.compensate spec.id output false))
      refine ⟨w', Calm.trans (.note rfl rfl rfl rfl rfl) hcalm, hrest.imp id fun herror =>
        ⟨herror.1, fun hhealthy => ?_⟩⟩
      cases hanswer.symm.trans (hhealthy.compensate ..)

/-- What has been compensated is skipped. -/
theorem compensateSteps_skip {ids rest : List StepId}
    (h : ∀ id ∈ ids, w.state.stepState (wf.id, id) = some .compensated) :
    compensateSteps env wf (ids ++ rest) w = compensateSteps env wf rest w := by
  induction ids with
  | nil => rfl
  | cons id ids ih =>
    obtain ⟨hid, hids⟩ := List.forall_mem_cons.mp h
    rw [List.cons_append, compensateSteps, if_pos hid, ih hids]

/-- How far a rollback gets. -/
structure Rolled (env : Collaborators) (wf : Workflow) (w : World)
    (x : Except OrchError Unit × World) : Prop where
  inv : Inv wf x.2
  compensating : x.2.state.wfState wf.id = some .compensating
  interrupted : Interrupted x.2.log ↔ Interrupted w.log
  complete : x.1 = .ok () → undone x.2.log = (successes x.2.log).reverse
  halted : ∀ e, x.1 = .error e → ¬ env.Healthy

theorem Split.calm (h : Split wf w front back) (hcalm : Calm w w') : Split wf w' front back :=
  ⟨hcalm.successes.trans h.successes, hcalm.undone.trans h.undone,
    by rw [hcalm.state]; exact h.front,
    by rw [hcalm.state]; exact h.back⟩

theorem rolled_compensateSteps (h : Inv wf w)
    (hcompensating : w.state.wfState wf.id = some .compensating) (hsplit : Split wf w front back) :
    Rolled env wf w (compensateSteps env wf (front.map Prod.fst).reverse w) := by
  -- The last step that stands is undone first, so that the induction is from the end.
  induction front using List.reverseRecOn generalizing w back with
  | nil =>
    refine ⟨h, hcompensating, .rfl, fun _ => ?_, nofun⟩
    show undone w.log = (successes w.log).reverse
    rw [hsplit.undone, hsplit.successes, List.nil_append]
  | append_singleton front x ih =>
    have hin : x ∈ successes w.log := by
      rw [hsplit.successes]
      exact List.mem_append_left _ (List.mem_append_right _ (List.mem_singleton_self x))
    have hcommitted := hsplit.front x (List.mem_append_right _ (List.mem_singleton_self x))
    obtain ⟨spec, hspec, hid⟩ := mem_steps_of_ran h.ordered (mem_ran_of_success hin)
    have hstep : wf.step x.1 = some spec := hid ▸ Workflow.step_eq_some hspec
    have hnot : ¬ w.state.stepState (wf.id, x.1) = some .compensated := by
      rw [hcommitted]
      nofun
    rw [List.map_append, List.reverse_append, List.map_singleton, List.reverse_singleton,
      List.singleton_append, compensateSteps, if_neg hnot, hstep]
    dsimp only
    rw [h.output x hin]
    have hasked : Calm w (w.note (.compensator spec.kind (env.compensator w.log spec.kind))) :=
      .note rfl rfl rfl rfl rfl
    generalize w.note (.compensator spec.kind (env.compensator w.log spec.kind)) = w₁ at hasked ⊢
    split_ifs with hfound
    · obtain ⟨w', hcalm, hattempt⟩ := attempt_spec env wf.id spec x.2 (env.attempts w₁.log) none w₁
      have hcalm := hasked.trans hcalm
      rcases hattempt with hattempt | ⟨⟨last, hattempt⟩, hzero⟩
      · rw [hattempt, hid]
        dsimp only
        have hstate : w'.state.stepState (wf.id, x.1) = some .committed := by
          rw [hcalm.state, hcommitted]
        obtain ⟨r, hrecord, hhealthy⟩ := record_of_eq (w := w'.note (.compensate x.1 x.2 true))
          env .compensated [] hstate rfl
        rw [hrecord]
        have hcompensating' : w'.state.wfState wf.id = some .compensating := by
          rw [hcalm.state, hcompensating]
        obtain ⟨hinv, hsplit'⟩ := (h.calm hcalm).undo r.isOk hcompensating'
          (hsplit.calm hcalm)
        have hinterrupted : Interrupted ((w'.note (.compensate x.1 x.2 true)).recorded wf.id x.1
            .compensated [] r.isOk).log ↔ Interrupted w.log := by
          rw [log_recorded, interrupted_concat, World.note, interrupted_concat]
          simp only [Entry.interrupts, reduceCtorEq, decide_false, Bool.or_false, Bool.and_false,
            Bool.false_eq_true, false_and, or_false]
          exact hcalm.interrupted
        cases r with
        | error e =>
          refine ⟨hinv, hcompensating', hinterrupted, nofun, fun _ _ hh => ?_⟩
          cases hhealthy hh
        | ok ev =>
          have hrest := ih hinv hcompensating' hsplit'
          exact ⟨hrest.inv, hrest.compensating, hrest.interrupted.trans hinterrupted,
            hrest.complete, hrest.halted⟩
      · rw [hattempt]
        refine ⟨h.calm hcalm, ?_, hcalm.interrupted, nofun, fun _ _ hhealthy => ?_⟩
        · rw [hcalm.state, hcompensating]
        · exact absurd (hzero hhealthy) (env.attempts_pos _).ne'
    · refine ⟨h.calm hasked, ?_, hasked.interrupted, nofun, fun _ _ hhealthy => ?_⟩
      · rw [hasked.state, hcompensating]
      · exact hfound (hhealthy.compensator ..)

theorem rolled_compensateCommitted (env : Collaborators) (h : Inv wf w)
    (hcompensating : w.state.wfState wf.id = some .compensating) :
    Rolled env wf w (compensateCommitted env wf w) := by
  obtain ⟨front, back, hsplit⟩ := h.split
  unfold compensateCommitted
  rw [h.order, hsplit.successes, List.map_append, List.reverse_append, compensateSteps_skip]
  · exact rolled_compensateSteps h hcompensating hsplit
  · intro id hid
    obtain ⟨x, hx, rfl⟩ := List.mem_map.mp (List.mem_reverse.mp hid)
    exact hsplit.back x hx

theorem left_finishCompensation (env : Collaborators) (h : Inv wf w)
    (hcompensating : w.state.wfState wf.id = some .compensating) (hnot : ¬ Interrupted w.log) :
    Left wf (finishCompensation env wf w) ∧
      (env.Healthy → (finishCompensation env wf w).1 = .ok .compensated) := by
  have hrolled := rolled_compensateCommitted env h hcompensating
  unfold finishCompensation
  generalize compensateCommitted env wf w = x at hrolled ⊢
  obtain ⟨answer, w'⟩ := x
  have hstate : w'.state.wfState wf.id = some .compensating := hrolled.compensating
  have hnot' : ¬ Interrupted w'.log := fun hstop => hnot (hrolled.interrupted.mp hstop)
  cases answer with
  | error e =>
    refine ⟨⟨.of_leave hrolled.inv ?_ hnot', nofun⟩, fun hhealthy => absurd hhealthy
      (hrolled.halted e rfl)⟩
    rw [hstate]
    nofun
  | ok =>
    have hset : setWfState w' wf.id .compensated = (.ok (), w'.entered wf.id .compensated) :=
      setWfState_of_eq hstate rfl
    have hentered : (w'.entered wf.id .compensated).state.wfState wf.id = some .compensated :=
      update_self ..
    dsimp only
    rw [hset]
    refine ⟨⟨.of_leave (hrolled.inv.entered (fun _ hne => absurd rfl hne)
      (fun _ => hrolled.complete rfl) nofun nofun) ?_ hnot', fun s hs => ?_⟩, fun _ => rfl⟩
    · rw [hentered]
      nofun
    · cases hs
      exact ⟨hentered, rfl⟩

/-! ## The forward path -/

/-- The loop has committed some steps, and the others are pending. -/
structure Forward (wf : Workflow) (committed : Finset StepId) (w : World) : Prop where
  inv : Inv wf w
  running : w.state.wfState wf.id = some .running
  states : ∀ s ∈ wf.steps, w.state.stepState (wf.id, s.id) =
    some (if s.id ∈ committed then .committed else .pending)
  journaled : ∀ id ∈ committed, Journaled w.log id
  within : committed ⊆ (wf.steps.map StepSpec.id).toFinset
  uninterrupted : ¬ Interrupted w.log

variable {committed : Finset StepId} {spec : StepSpec}

theorem Journaled.mono (h : Journaled log id) {log' : List Entry} (hsub : log ⊆ log') :
    Journaled log' id := by
  obtain ⟨ev, hid, hst, hmem⟩ := h
  exact ⟨ev, hid, hst, hsub hmem⟩

/-- When no step is ready, all have committed. -/
theorem all_committed_of_pending
    (h : ∀ s ∈ wf.steps, s.id ∉ committed → w.state.stepState (wf.id, s.id) = some .pending)
    (hnone : ready wf committed w = none) : ∀ s ∈ wf.steps, s.id ∈ committed := by
  by_contra hleft
  push Not at hleft
  obtain ⟨s, hs, hnot, hdeps⟩ := Workflow.exists_ready hleft
  have hready := List.find?_eq_none.mp hnone s hs
  have hpending := h s hs hnot
  simp only [hnot, hpending] at hready
  simp at hready
  obtain ⟨d, hd, hnotd⟩ := hready
  exact hnotd (hdeps d hd)

theorem Forward.all_committed (h : Forward wf committed w) (hnone : ready wf committed w = none) :
    ∀ s ∈ wf.steps, s.id ∈ committed :=
  all_committed_of_pending (fun s hs hnot => by rw [h.states s hs, if_neg hnot]) hnone

theorem card_of_all_committed (hwithin : committed ⊆ (wf.steps.map StepSpec.id).toFinset)
    (hall : ∀ s ∈ wf.steps, s.id ∈ committed) : committed.card = wf.steps.length := by
  rw [← card_ids]
  refine congrArg Finset.card (hwithin.antisymm fun id hid => ?_)
  obtain ⟨s, hs, rfl⟩ := List.mem_map.mp (List.mem_toFinset.mp hid)
  exact hall s hs

theorem Forward.left_finish (h : Forward wf committed w)
    (hall : ∀ s ∈ wf.steps, s.id ∈ committed) : Left wf (finish wf committed w) := by
  have hcard := card_of_all_committed h.within hall
  have hset : setWfState w wf.id .succeeded = (.ok (), w.entered wf.id .succeeded) :=
    setWfState_of_eq h.running rfl
  have hentered : (w.entered wf.id .succeeded).state.wfState wf.id = some .succeeded :=
    update_self ..
  have hstates : ∀ s ∈ wf.steps, w.state.stepState (wf.id, s.id) = some .committed := by
    intro s hs
    rw [h.states s hs, if_pos (hall s hs)]
  unfold finish
  rw [if_neg (not_not.mpr hcard)]
  dsimp only
  rw [hset]
  refine ⟨.of_leave (h.inv.entered (fun _ _ => h.inv.undone_nil h.running) nofun
    (fun _ => hstates) nofun) ?_ h.uninterrupted, fun s hs => ?_⟩
  · rw [hentered]
    nofun
  · cases hs
    exact ⟨hentered, rfl⟩

/-- A step has failed, and the rollback starts. -/
theorem left_fail (h : Inv wf w) (hrunning : w.state.wfState wf.id = some .running)
    (hid : spec.id ∉ ran w.log) (hstate : w.state.stepState (wf.id, spec.id) = some .running)
    (hdeps : ∃ s ∈ wf.steps, s.id = spec.id ∧ ∀ d ∈ s.dependsOn, Journaled w.log d)
    (hnot : ¬ Interrupted w.log) (e : OrchError) :
    Left wf (fail env wf spec e (w.note (.run spec.id (.error e)))) := by
  have hnot' : ¬ Interrupted (w.note (.run spec.id (.error e))).log := by
    rw [World.note, interrupted_concat]
    exact fun hstop => hstop.elim hnot nofun
  obtain ⟨r, hrecord, -⟩ := record_of_eq (w := w.note (.run spec.id (.error e))) env .failed
    e.text.toUTF8.toList hstate rfl
  have hinv : Inv wf ((w.note (.run spec.id (.error e))).recorded wf.id spec.id .failed
      e.text.toUTF8.toList r.isOk) := h.ends _ _ _ nofun rfl hrunning hid hdeps
  unfold fail
  rw [hrecord]
  cases r with
  | error => exact ⟨.of_stop hinv hrunning (log_recorded _) rfl hnot', nofun⟩
  | ok ev =>
    generalize hw' : (w.note (.run spec.id (.error e))).recorded wf.id spec.id .failed
      e.text.toUTF8.toList (Except.ok ev : Except OrchError StepEvent).isOk = w' at hinv ⊢
    have hrunning' : w'.state.wfState wf.id = some .running := by
      rw [← hw']
      exact hrunning
    have hset : setWfState w' wf.id .compensating = (.ok (), w'.entered wf.id .compensating) :=
      setWfState_of_eq hrunning' rfl
    have hnot'' : ¬ Interrupted (w'.entered wf.id .compensating).log := by
      rw [← hw']
      show ¬ Interrupted (World.recorded _ _ _ _ _ _).log
      rw [log_recorded, interrupted_concat]
      exact fun hstop => hstop.elim hnot' nofun
    dsimp only
    rw [hset]
    exact (left_finishCompensation env
      (hinv.entered (fun hne => absurd rfl hne) nofun nofun nofun)
      (update_self ..) hnot'').1

/-- A step has run successfully. -/
theorem Forward.step (h : Forward wf committed w) {w₁ : World} (hspec : spec ∈ wf.steps)
    (hinv : Inv wf w₁) (hid : spec.id ∉ ran w₁.log)
    (hdeps : ∃ s ∈ wf.steps, s.id = spec.id ∧ ∀ d ∈ s.dependsOn, Journaled w₁.log d)
    (hrunning : w₁.state.wfState wf.id = some .running)
    (hothers : ∀ id, id ≠ spec.id →
      w₁.state.stepState (wf.id, id) = w.state.stepState (wf.id, id))
    (hlog : w.log ⊆ w₁.log) (hnot : ¬ Interrupted w₁.log) (out : Bytes) :
    Forward wf (insert spec.id committed)
      ((w₁.note (.run spec.id (.ok out))).recorded wf.id spec.id .committed out true) where
  inv := hinv.ends (.ok out) out true (fun _ h => Except.ok.inj h.symm) rfl hrunning hid hdeps
  running := hrunning
  states s hs := by
    rw [stepState_recorded]
    by_cases heq : s.id = spec.id
    · rw [if_pos heq, if_pos (Finset.mem_insert.mpr (.inl heq))]
    · rw [if_neg heq]
      refine (hothers s.id heq).trans ((h.states s hs).trans ?_)
      simp only [Finset.mem_insert, heq, false_or]
  journaled id hmem := by
    rcases Finset.mem_insert.mp hmem with rfl | hmem
    · exact ⟨_, rfl, rfl, List.mem_append_right _ (List.mem_singleton_self _)⟩
    · exact (h.journaled id hmem).mono fun e he =>
        List.mem_append_left _ (List.mem_append_left _ (hlog he))
  within := Finset.insert_subset (mem_ids hspec) h.within
  uninterrupted := by
    rw [log_recorded, interrupted_concat, World.note, interrupted_concat]
    rintro ((hstop | ⟨hstop, -⟩) | ⟨hstop, -⟩)
    · exact hnot hstop
    · cases hstop
    · cases hstop

/-- One round, from the record of the step that is ready. -/
theorem left_runReady (h : Forward wf committed w) {w₁ : World}
    (hready : ready wf committed w = some spec) (hinv : Inv wf w₁) (hid : spec.id ∉ ran w₁.log)
    (hrunning : w₁.state.wfState wf.id = some .running)
    (hstate : w₁.state.stepState (wf.id, spec.id) = some .running)
    (hothers : ∀ id, id ≠ spec.id →
      w₁.state.stepState (wf.id, id) = w.state.stepState (wf.id, id))
    (hlog : w.log ⊆ w₁.log) (hnot : ¬ Interrupted w₁.log)
    {next : World → Except OrchError WorkflowState × World}
    (hnext : ∀ w', Forward wf (insert spec.id committed) w' → Left wf (next w')) :
    Left wf (runReady env wf spec next w₁) := by
  obtain ⟨hspec, -, hdeps, -⟩ := ready_eq_some hready
  unfold runReady
  dsimp only
  split_ifs with hfound
  · have hcalm : Calm w₁ (w₁.note (.executor spec.kind (env.executor w₁.log spec.kind))) :=
      .note rfl rfl rfl rfl (by rw [hfound]; rfl)
    have hlog' : w.log ⊆ (w₁.note (.executor spec.kind (env.executor w₁.log spec.kind))).log :=
      fun e he => List.mem_append_left _ (hlog he)
    generalize w₁.note (.executor spec.kind (env.executor w₁.log spec.kind)) = w₂ at hcalm hlog' ⊢
    have hinv := hinv.calm hcalm
    rw [← hcalm.state] at hrunning hstate hothers
    rw [← hcalm.ran] at hid
    rw [← hcalm.interrupted] at hnot
    have hjournaled : ∃ s ∈ wf.steps, s.id = spec.id ∧ ∀ d ∈ s.dependsOn, Journaled w₂.log d :=
      ⟨spec, hspec, rfl, fun d hd => (h.journaled d (hdeps d hd)).mono hlog'⟩
    cases env.runStep w₂.log wf.id spec with
    | error e => exact left_fail hinv hrunning hid hstate hjournaled hnot e
    | ok out =>
      obtain ⟨r, hrecord, -⟩ := record_of_eq (w := w₂.note (.run spec.id (.ok out))) env
        .committed out hstate rfl
      dsimp only
      rw [hrecord]
      cases r with
      | error =>
        refine ⟨.of_stop (hinv.ends (.ok out) out false (fun _ h => Except.ok.inj h.symm) rfl
          hrunning hid hjournaled) hrunning (log_recorded _) rfl ?_, nofun⟩
        rw [World.note, interrupted_concat]
        exact fun hstop => hstop.elim hnot nofun
      | ok ev =>
        exact hnext _ (h.step hspec hinv hid hjournaled hrunning hothers hlog' hnot out)
  · refine ⟨.of_stop (hinv.note rfl rfl rfl rfl) hrunning rfl ?_ hnot, nofun⟩
    simp [Entry.interrupts, hfound]

theorem left_drive (h : Forward wf committed w) {rounds : Nat}
    (hrounds : wf.steps.length ≤ committed.card + rounds) :
    Left wf (drive env wf rounds committed w) := by
  induction rounds generalizing committed w with
  | zero =>
    have hall := Finset.eq_of_subset_of_card_le h.within (by rw [card_ids]; exact hrounds)
    exact h.left_finish fun s hs => hall ▸ mem_ids hs
  | succ rounds ih =>
    rw [drive]
    cases hready : ready wf committed w with
    | none => exact h.left_finish (h.all_committed hready)
    | some spec =>
      obtain ⟨hspec, hnotin, hdeps, -⟩ := ready_eq_some hready
      have hpending : w.state.stepState (wf.id, spec.id) = some .pending := by
        rw [h.states spec hspec, if_neg hnotin]
      have hid : spec.id ∉ ran w.log := not_ran_of_not_terminal h.inv fun s hs => by
        cases hpending.symm.trans hs
        rfl
      obtain ⟨r, hrecord, -⟩ := record_of_eq env .running [] hpending rfl
      have hstarted : Inv wf (w.recorded wf.id spec.id .running [] r.isOk) := h.inv.recorded hid rfl
      dsimp only
      cases r with
      | error =>
        rw [hrecord]
        exact ⟨.of_stop hstarted h.running (log_recorded _) rfl h.uninterrupted,
          fun _ hs => by cases hs⟩
      | ok ev =>
        have hbegun : ¬ Interrupted (w.recorded wf.id spec.id .running [] true).log := by
          rw [log_recorded, interrupted_concat]
          rintro (hstop | ⟨hinterrupts, -⟩)
          · exact h.uninterrupted hstop
          · cases hinterrupts
        have hran := (lists_recorded wf spec.id .running [] true w).1
        obtain ⟨w₁, hw₁⟩ : ∃ w₁, w₁ = w.recorded wf.id spec.id .running [] true := ⟨_, rfl⟩
        have hrunning : w₁.state.wfState wf.id = some .running := hw₁ ▸ h.running
        have hstate : w₁.state.stepState (wf.id, spec.id) = some .running := by
          rw [hw₁, stepState_recorded, if_pos rfl]
        have hothers : ∀ id, id ≠ spec.id →
            w₁.state.stepState (wf.id, id) = w.state.stepState (wf.id, id) := fun id hne => by
          rw [hw₁, stepState_recorded, if_neg hne]
        have hlog : w.log ⊆ w₁.log := hw₁ ▸ List.subset_append_left _ _
        have hstarted : Inv wf w₁ := hw₁ ▸ hstarted
        have hrecord : record env w wf.id spec.id .running [] = (.ok ev, w₁) := hw₁ ▸ hrecord
        rw [← hw₁] at hbegun hran
        rw [← hran] at hid
        rw [hrecord]
        refine left_runReady h hready hstarted hid hrunning hstate hothers hlog hbegun
          fun w' hw' => ih hw' ?_
        rw [Finset.card_insert_of_notMem hnotin]
        omega

/-! ## Calls -/

/-- The start of the forward path: some steps are recorded as pending, and nothing else changes. -/
structure Initialized (wf : Workflow) (w : World) (l : List StepSpec)
    (x : Except OrchError Unit × World) : Prop where
  inv : Inv wf x.2
  running : x.2.state.wfState = w.state.wfState
  commits : commits x.2.log = commits w.log
  interrupted : Interrupted x.2.log ↔ Interrupted w.log
  kept : ∀ id s, w.state.stepState (wf.id, id) = some s → x.2.state.stepState (wf.id, id) = some s
  pending : x.1 = .ok () → ∀ s ∈ l, x.2.state.stepState (wf.id, s.id) = some .pending

theorem initialized (env : Collaborators) (h : Inv wf w) (l : List StepSpec) :
    Initialized wf w l (initSteps env wf.id l w) := by
  induction l generalizing w with
  | nil => exact ⟨h, rfl, rfl, .rfl, fun _ _ hs => hs, nofun⟩
  | cons s l ih =>
    rw [initSteps]
    by_cases hnew : ∀ current, w.state.stepState (wf.id, s.id) = some current →
        current.canTransitionTo .pending = true
    · have hpending : ∀ current, w.state.stepState (wf.id, s.id) = some current →
          current = .pending := by
        intro current hcurrent
        have hcan := hnew current hcurrent
        cases current <;> first | rfl | cases hcan
      have hid : s.id ∉ ran w.log := not_ran_of_not_terminal h fun current hcurrent => by
        rw [hpending current hcurrent]
        rfl
      obtain ⟨r, hrecord, -⟩ := record_of_legal env [] hnew
      have hinv : Inv wf (w.recorded wf.id s.id .pending [] r.isOk) := h.recorded hid rfl
      have hcommits : commits (w.recorded wf.id s.id .pending [] r.isOk).log = commits w.log := by
        rw [(lists_recorded wf s.id .pending [] r.isOk w).2.2.2, if_neg nofun, List.append_nil]
      have hinterrupted : Interrupted (w.recorded wf.id s.id .pending [] r.isOk).log ↔
          Interrupted w.log := by
        rw [log_recorded, interrupted_concat]
        simp only [Entry.interrupts, reduceCtorEq, decide_false, Bool.or_false, Bool.and_false,
          Bool.false_eq_true, false_and, or_false]
      have hkept : ∀ id st, w.state.stepState (wf.id, id) = some st →
          (w.recorded wf.id s.id .pending [] r.isOk).state.stepState (wf.id, id) = some st := by
        intro id st hst
        rw [stepState_recorded]
        split_ifs with heq
        · rw [hpending st (heq ▸ hst)]
        · exact hst
      rw [hrecord]
      cases r with
      | error => exact ⟨hinv, rfl, hcommits, hinterrupted, hkept, nofun⟩
      | ok ev =>
        have hrest := ih hinv
        refine ⟨hrest.inv, hrest.running, hrest.commits.trans hcommits,
          hrest.interrupted.trans hinterrupted, fun id st hst => hrest.kept id st (hkept id st hst),
          fun hok => List.forall_mem_cons.mpr ⟨hrest.kept _ _ ?_, hrest.pending hok⟩⟩
        rw [stepState_recorded, if_pos rfl]
    · push Not at hnew
      obtain ⟨current, hcurrent, hcan⟩ := hnew
      rw [record_of_illegal hcurrent (Bool.not_eq_true _ ▸ hcan)]
      exact ⟨h, rfl, rfl, .rfl, fun _ _ hs => hs, nofun⟩

theorem not_interrupted_of_commits (h : commits log = []) : ¬ Interrupted log := by
  rintro ⟨done, e, ⟨rest, rfl⟩, -, hcommits⟩
  unfold commits at h hcommits
  rw [List.filterMap_append, List.append_eq_nil_iff] at h
  exact hcommits h.1

/-- When all steps are pending, nothing has happened so far. -/
theorem Forward.of_pending (h : Inv wf w) (hrunning : w.state.wfState wf.id = some .running)
    (hpending : ∀ s ∈ wf.steps, w.state.stepState (wf.id, s.id) = some .pending) :
    Forward wf ∅ w := by
  have hran : ran w.log = [] := by
    refine List.eq_nil_iff_forall_not_mem.mpr fun id hid => ?_
    obtain ⟨s, hs, rfl⟩ := mem_steps_of_ran h.ordered hid
    obtain ⟨st, hst, hterminal⟩ := (h.settled s.id).mp hid
    cases (hpending s hs).symm.trans hst
    cases hterminal
  have hsuccesses : successes w.log = [] :=
    List.eq_nil_iff_forall_not_mem.mpr fun x hx => List.not_mem_nil (hran ▸ mem_ran_of_success hx)
  have hcommits : Orchestration333.commits w.log = [] := by rw [h.commits, hsuccesses, List.map_nil]
  exact ⟨h, hrunning, fun s hs => by rw [hpending s hs, if_neg (Finset.notMem_empty _)],
    fun id hid => absurd hid (Finset.notMem_empty _), Finset.empty_subset _,
    not_interrupted_of_commits hcommits⟩

/-- What the set of the running state leaves of the rest. -/
theorem Rest.entered_running (h : Rest wf w)
    (hstate : w.state.wfState wf.id = none ∨ w.state.wfState wf.id = some .running) :
    Rest wf (w.entered wf.id .running) := by
  have hentered : (w.entered wf.id .running).state.wfState wf.id = some .running :=
    update_self ..
  have hnone : undone w.log = [] := by
    refine h.inv.forward ?_ ?_ <;> rcases hstate with hstate | hstate <;> rw [hstate] <;> nofun
  have hinv : Inv wf (w.entered wf.id .running) :=
    h.inv.entered (fun _ _ => hnone) nofun nofun nofun
  refine ⟨hinv, ?_⟩
  rcases hstate with hstate | hstate
  · refine iff_of_false (fun hstop => ?_) ?_
    · have hstop : Interrupted w.log := hstop
      rw [h.stuck, hstate] at hstop
      cases hstop.1
    · rintro ⟨-, id, hid⟩
      have hran := (h.inv.settled id).mpr ⟨_, hid, rfl⟩
      rw [h.inv.untouched hstate] at hran
      cases hran
  · have hstuck := h.stuck
    rw [hstate] at hstuck
    rw [hentered]
    exact hstuck

theorem left_execute (h : Rest wf w) : Left wf (execute env wf w) := by
  unfold execute
  dsimp only
  by_cases hterminal : (w.workflowState wf.id).isTerminal = true
  · rw [if_pos hterminal]
    exact ⟨h, nofun⟩
  rw [if_neg hterminal]
  by_cases hstate : w.state.wfState wf.id = none ∨ w.state.wfState wf.id = some .running
  · have hset : setWfState w wf.id .running = (.ok (), w.entered wf.id .running) := by
      refine setWfState_of_legal fun current hcurrent => ?_
      rcases hstate with hstate | hstate
      · cases hstate.symm.trans hcurrent
      · cases hstate.symm.trans hcurrent
        rfl
    have hrest := h.entered_running hstate
    have hentered : (w.entered wf.id .running).state.wfState wf.id = some .running :=
      update_self ..
    have hinit := initialized env hrest.inv wf.steps
    rw [hset]
    dsimp only
    generalize w.entered wf.id .running = w₁ at hrest hentered hinit ⊢
    generalize initSteps env wf.id wf.steps w₁ = x at hinit ⊢
    obtain ⟨answer, w'⟩ := x
    have hrunning : w'.state.wfState wf.id = some .running :=
      (congrFun hinit.running _).trans hentered
    cases answer with
    | error e =>
      refine ⟨⟨hinit.inv, ?_⟩, nofun⟩
      have hstuck := hrest.stuck
      rw [hrest.inv.outstanding_iff hentered, ← hinit.commits, ← hinit.interrupted] at hstuck
      rw [hinit.inv.outstanding_iff hrunning]
      exact hstuck.trans (and_congr_left' (iff_of_true hentered hrunning))
    | ok =>
      refine left_drive (.of_pending hinit.inv hrunning (hinit.pending rfl)) ?_
      rw [Finset.card_empty, Nat.zero_add]
  · have hcompensating : w.state.wfState wf.id = some .compensating := by
      unfold World.workflowState at hterminal
      cases hwf : w.state.wfState wf.id with
      | none => exact absurd (.inl hwf) hstate
      | some s =>
        rw [hwf] at hterminal hstate
        cases s with
        | running => exact absurd (.inr rfl) hstate
        | compensating => rfl
        | _ => exact absurd rfl hterminal
    rw [setWfState_of_illegal hcompensating rfl]
    exact ⟨h, nofun⟩

theorem left_resumeCompensation (h : Rest wf w) : Left wf (resumeCompensation env wf w) := by
  unfold resumeCompensation
  split_ifs with hstate
  · exact ⟨h, nofun⟩
  · have hcompensating : w.state.wfState wf.id = some .compensating := by
      unfold World.workflowState at hstate
      cases hwf : w.state.wfState wf.id with
      | none =>
        rw [hwf] at hstate
        cases not_not.mp hstate
      | some s =>
        rw [hwf] at hstate
        exact congrArg some (not_not.mp hstate)
    refine (left_finishCompensation env h.inv hcompensating fun hstop => ?_).1
    rw [h.stuck, hcompensating] at hstop
    cases hstop.1

theorem left_call (h : Rest wf w) (c : Call) : Left wf (call env wf w c) := by
  cases c with
  | execute => exact left_execute h
  | resumeCompensation => exact left_resumeCompensation h

theorem rest_start (wf : Workflow) : Rest wf .start := by
  refine ⟨⟨List.nodup_nil, fun done id r h => ?_, fun id => iff_of_false List.not_mem_nil ?_,
    fun _ _ => rfl, rfl, rfl, nofun, nofun, ⟨[], [], rfl, rfl, nofun, nofun⟩, fun _ => rfl,
    fun _ _ => rfl, nofun, nofun, nofun⟩, iff_of_false (not_interrupted_of_commits rfl) ?_⟩
  · cases List.append_eq_nil_iff.mp (List.prefix_nil.mp h) |>.2
  · rintro ⟨s, hs, -⟩
    cases hs
  · rintro ⟨hs, -⟩
    cases hs

theorem rest_run (env : Collaborators) (wf : Workflow) (calls : List Call) :
    Rest wf (run env wf calls) :=
  after_invariant (I := Rest wf) (fun _ c h => (left_call h c).rest) (rest_start wf) calls

/-- Whatever the collaborators answer, and in whatever order the two calls are made, a workflow is
safe. -/
theorem safe (env : Collaborators) (wf : Workflow) (calls : List Call) :
    Safe wf (run env wf calls) := .of_inv (rest_run env wf calls).inv

end P2P333.Orchestration333
