import P2P333.Platform333.Compute.Scheduler

/-!
# The backlog of the scheduler

Whether a submitted task of `333-platform/src/compute/scheduler.rs` still gets the results that it
needs. A queue entry gives one assignment at most, whatever the task needs, and is used up even if
no worker is there.

Results:
1. `kept_assignNext`: when an assignment keeps the tasks and the workers in service.
2. `kept_iff`: they stay in service in exactly the runs with such assignments.
-/

namespace P2P333.Platform333.Compute

open Std Lib Function

/-! ## Service -/

namespace Task

/-- The worker has handed in a result. -/
def Answered (task : Task) (w : UInt32) : Prop := ∃ r ∈ task.results, r.workerId = w

instance (task : Task) (w : UInt32) : Decidable (task.Answered w) :=
  inferInstanceAs (Decidable (∃ r ∈ task.results, r.workerId = w))

/-- The workers with an assignment that they have not answered. -/
def openWorkers (task : Task) : Finset UInt32 :=
  (task.assignments.map (·.workerId)).toFinset.filter fun w => ¬ task.Answered w

variable {task : Task} {w : UInt32} {a : TaskAssignment} {r : TaskResult}

theorem mem_openWorkers : w ∈ task.openWorkers ↔ (∃ a ∈ task.assignments, a.workerId = w) ∧
    ¬ task.Answered w := by
  rw [openWorkers, Finset.mem_filter, List.mem_toFinset, List.mem_map]

theorem openWorkers_eq_empty (h : task.assignments = []) : task.openWorkers = ∅ := by
  rw [openWorkers, h, List.map_nil, List.toFinset_nil, Finset.filter_empty]

/-- The first assignment is open unless its worker has handed in a result before. -/
theorem openWorkers_assign (h : task.assignments = []) (a : TaskAssignment) :
    (task.assign a).openWorkers = if task.Answered a.workerId then ∅ else {a.workerId} := by
  have hassignments : (task.assign a).assignments = [a] := by rw [assign, h, List.nil_append]
  ext w
  rw [mem_openWorkers, hassignments]
  have hanswered : (task.assign a).Answered w ↔ task.Answered w := Iff.rfl
  split_ifs with hbefore
  · simp only [List.mem_singleton, exists_eq_left, Finset.notMem_empty, iff_false, not_and, not_not]
    rintro rfl
    exact hbefore
  · simp only [List.mem_singleton, exists_eq_left, Finset.mem_singleton, hanswered]
    exact ⟨fun hw => hw.1.symm, fun hw => ⟨hw.symm, hw ▸ hbefore⟩⟩

theorem openWorkers_submitResult (task : Task) (r : TaskResult) (status : TaskStatus) :
    ((task.submitResult r).setStatus status).openWorkers = task.openWorkers.erase r.workerId := by
  have hanswered : ∀ w, ((task.submitResult r).setStatus status).Answered w ↔ task.Answered w ∨
    r.workerId = w := by
    intro w
    simp only [Answered, results_setStatus, results_submitResult, List.mem_append,
      List.mem_singleton, or_and_right,
      exists_or, exists_eq_left]
  ext w
  rw [Finset.mem_erase, mem_openWorkers, mem_openWorkers, hanswered, assignments_setStatus,
    assignments_submitResult,
    not_or]
  exact ⟨fun h => ⟨Ne.symm h.2.2, h.1, h.2.1⟩, fun h => ⟨h.2.1, h.2.2, Ne.symm h.1⟩⟩

theorem missing_submitResult (task : Task) (r : TaskResult) (status : TaskStatus) :
    ((task.submitResult r).setStatus status).missing = task.missing - 1 := by
  simp only [missing, taskType_setStatus, taskType_submitResult, results_setStatus,
    results_submitResult,
    List.length_append, List.length_singleton]
  omega

end Task

namespace TaskScheduler

/-- The worker has an assignment that it has not answered. -/
def Owes (s : TaskScheduler) (w : UInt32) : Prop :=
  ∃ t task, s.tasks t = some task ∧ w ∈ task.openWorkers

/-- Every task that is not verified or failed is in the queue or has as many open assignments as it
still needs results, and every worker that is not available has an open assignment. -/
structure Kept (s : TaskScheduler) : Prop where
  tasks : ∀ t task, s.tasks t = some task → ¬ task.Settled → t ∈ s.pending ∨
    task.missing ≤ task.openWorkers.card
  workers : ∀ (w : UInt32) (info : WorkerInfo), s.workers[w]? = some info →
    info.available = false → s.Owes w

/-- The first task of the queue needs no result, or just one and there is a worker that has not
handed in one yet. A worker that has done so is not chosen for it unless it has another open
assignment. -/
def Served (s : TaskScheduler) : Call → Prop
  | .assignNext it _ => ∀ t task, s.pending.head? = some t → s.tasks t = some task →
    (task.missing = 0 ∨ task.missing = 1 ∧ ∃ w, s.nextWorker it = some w ∧ ¬ task.Answered w) ∧
      ∀ w, s.nextWorker it = some w → task.Answered w → s.Owes w
  | _ => True

variable {s : TaskScheduler} {t : TaskId} {task : Task} {w : UInt32}

/-- An open assignment is one of the changed task or one of another. -/
theorem owes_update {s' : TaskScheduler} (h : s'.tasks = update s.tasks t (some task)) :
    s'.Owes w ↔ w ∈ task.openWorkers ∨ ∃ t' task', t' ≠ t ∧ s.tasks t' = some task' ∧
      w ∈ task'.openWorkers := by
  unfold Owes
  rw [h]
  constructor
  · rintro ⟨t', task', htask', hw⟩
    by_cases heq : t' = t
    · subst heq
      rw [update_self] at htask'
      cases htask'
      exact .inl hw
    · rw [update_of_ne heq] at htask'
      exact .inr ⟨t', task', heq, htask', hw⟩
  · rintro (hw | ⟨t', task', hne, htask', hw⟩)
    · exact ⟨t, task, update_self .., hw⟩
    · exact ⟨t', task', (update_of_ne hne _ _).trans htask', hw⟩

/-- A task without assignments leaves no one with an open one. -/
theorem owes_iff (h : s.tasks t = some task) (hassignments : task.assignments = []) :
    s.Owes w ↔ ∃ t' task', t' ≠ t ∧ s.tasks t' = some task' ∧ w ∈ task'.openWorkers := by
  have hself : s.tasks = update s.tasks t (some task) :=
    by rw [← h, update_eq_self]
  rw [owes_update hself, Task.openWorkers_eq_empty hassignments]
  simp only [Finset.notMem_empty, false_or]

/-! ## Calls -/

theorem kept_registerWorker (hkept : s.Kept) (nodeId : UInt32) :
    (s.registerWorker nodeId).Kept where
  tasks := hkept.tasks
  workers w info hworker hbusy := by
    have howes : ∀ info', s.workers[w]? = some info' → info'.available = false → s.Owes w :=
      hkept.workers w
    rw [getElem?_registerWorker] at hworker
    split_ifs at hworker with hk
    · cases hbefore : s.workers[w]? with
      | none =>
        rw [hbefore] at hworker
        cases hworker
        cases hbusy
      | some info' =>
        rw [hbefore] at hworker
        cases hworker
        exact howes _ hbefore hbusy
    · exact howes info hworker hbusy

theorem kept_submitTask (h : s.Inv) (hkept : s.Kept) (taskType : TaskType) (nowMs : UInt64) :
    (s.submitTask taskType nowMs).2.Kept where
  tasks := by
    refine (forall_update_iff s.tasks fun t o => ∀ task, o = some task → ¬ task.Settled →
      t ∈ s.pending ++ [s.nextTaskId] ∨ task.missing ≤ task.openWorkers.card).mpr ⟨?_, ?_⟩
    · exact fun _ _ _ => .inl List.mem_concat_self
    · exact fun t _ task htask hopen => (hkept.tasks t task htask hopen).imp_left
        (List.mem_append_left _)
  workers w info hworker hbusy := by
    obtain ⟨t, task, htask, hw⟩ := hkept.workers w info hworker hbusy
    have hne : t ≠ s.nextTaskId := (h.known t task htask).ne
    exact ⟨t, task, (update_of_ne hne _ _).trans htask, hw⟩

/-- A result answers at most one open assignment of its task, and none of another worker. -/
theorem kept_submitResult (hkept : s.Kept) (it : Iteration (String × Nat)) (r : TaskResult) :
    (s.submitResult it r).2.Kept := by
  cases htask : s.tasks r.taskId with
  | none =>
    rw [submitResult_of_unknown it htask]
    exact hkept
  | some task =>
    have hne : (task.submitResult r).results ≠ [] := List.concat_ne_nil r task.results
    obtain ⟨v, status, hverify, hsuccess, hfailure, hdecided, hinsufficient⟩ :=
      Task.verify_eq it hne
    rw [submitResult_of_known it htask, hverify]
    constructor
    · refine (forall_update_iff s.tasks fun t o => ∀ task, o = some task → ¬ task.Settled →
        t ∈ s.pending ∨ task.missing ≤ task.openWorkers.card).mpr ⟨?_, fun t _ => hkept.tasks t⟩
      rintro _ ⟨⟩ hopen
      have hlt : (task.submitResult r).results.length < (task.submitResult r).taskType.needed := by
        by_contra hle
        exact hopen ((hdecided (Nat.not_lt.mp hle)).imp hsuccess hfailure)
      obtain ⟨-, rfl⟩ := hinsufficient hlt
      refine (hkept.tasks _ task htask hopen).imp_right fun hmissing => ?_
      rw [Task.missing_submitResult, Task.openWorkers_submitResult]
      exact (Nat.sub_le_sub_right hmissing 1).trans Finset.pred_card_le_card_erase
    · intro w info hworker hbusy
      rw [getElem?_modify] at hworker
      split_ifs at hworker with hw
      · obtain ⟨info', -, rfl⟩ := Option.map_eq_some_iff.mp hworker
        rw [WorkerInfo.available_report] at hbusy
        cases hbusy
      · obtain ⟨t, task', htask', hopen⟩ := hkept.workers w info hworker hbusy
        refine (owes_update rfl).mpr ?_
        by_cases heq : t = r.taskId
        · subst heq
          cases htask.symm.trans htask'
          exact .inl (Task.openWorkers_submitResult .. ▸ Finset.mem_erase.mpr ⟨Ne.symm hw, hopen⟩)
        · exact .inr ⟨t, task', heq, htask', hopen⟩

/-- Without a worker the first task of the queue is lost, unless it needs no result. -/
theorem kept_dropped (h : s.Inv) (hkept : s.Kept) {rest : List TaskId}
    (hpending : s.pending = t :: rest)
    (htask : s.tasks t = some task) (hassignments : task.assignments = []) :
    ({ s with pending := rest } : TaskScheduler).Kept ↔ task.missing = 0 := by
  have hnodup := h.nodup
  rw [hpending] at hnodup
  have hrest : t ∉ rest := (List.nodup_cons.mp hnodup).1
  constructor
  · intro hkept'
    by_cases hsettled : task.Settled
    · exact Nat.sub_eq_zero_of_le (h.settled t task htask hsettled)
    · have hopen := (hkept'.tasks t task htask hsettled).resolve_left hrest
      rwa [Task.openWorkers_eq_empty hassignments, Finset.card_empty, Nat.le_zero] at hopen
  · intro hmissing
    refine ⟨fun t' task' htask' hopen => ?_, hkept.workers⟩
    by_cases heq : t' = t
    · subst heq
      cases htask.symm.trans htask'
      exact .inr (hmissing ▸ Nat.zero_le _)
    · refine (hkept.tasks t' task' htask' hopen).imp_left fun hmem => ?_
      rw [hpending] at hmem
      exact (List.mem_cons.mp hmem).resolve_left heq

/-- With a worker the first task of the queue gets one assignment. -/
theorem kept_assigned (h : s.Inv) (hkept : s.Kept) {rest : List TaskId}
    (hpending : s.pending = t :: rest)
    (htask : s.tasks t = some task) (hassignments : task.assignments = [])
      (hregistered : s.workers[w]?.isSome)
    {a : TaskAssignment} (ha : a.workerId = w) :
    ({ s with
      pending := rest
      tasks := update s.tasks t ((s.tasks t).map (·.assign a))
      workers := s.workers.modify w fun w => { w with available := false } } : TaskScheduler).Kept ↔
    (task.missing = 0 ∨ task.missing = 1 ∧ ¬ task.Answered w) ∧ (task.Answered w → s.Owes w) := by
  have hnodup := h.nodup
  rw [hpending] at hnodup
  have hrest : t ∉ rest := (List.nodup_cons.mp hnodup).1
  have hopen := Task.openWorkers_assign hassignments a
  have hmissing : (task.assign a).missing = task.missing := rfl
  have howes := owes_iff (w := w) htask hassignments
  subst ha
  rw [htask, Option.map_some]
  constructor
  · intro hkept'
    have hsettled : ¬ (task.assign a).Settled := fun hsettled => hsettled.elim nofun nofun
    have hcount := (hkept'.tasks t _ (update_self ..) hsettled).resolve_left hrest
    obtain ⟨info, hinfo⟩ := Option.isSome_iff_exists.mp hregistered
    have hbusy := hkept'.workers a.workerId { info with available := false } (by
      rw [getElem?_modify, if_pos rfl, hinfo, Option.map_some]) rfl
    rw [owes_update rfl, ← howes] at hbusy
    rw [hmissing, hopen] at hcount
    rw [hopen] at hbusy
    split_ifs at hcount hbusy with hanswered
    · refine ⟨.inl (Nat.le_zero.mp hcount), fun _ => hbusy.resolve_left (Finset.notMem_empty _)⟩
    · rw [Finset.card_singleton] at hcount
      refine ⟨?_, fun hanswered' => absurd hanswered' hanswered⟩
      rcases Nat.le_one_iff_eq_zero_or_eq_one.mp hcount with hzero | hone
      · exact .inl hzero
      · exact .inr ⟨hone, hanswered⟩
  · rintro ⟨hneeds, hanswers⟩
    refine ⟨?_, fun k info hk hbusy => (owes_update rfl).mpr ?_⟩
    · refine (forall_update_iff s.tasks fun t' o => ∀ task', o = some task' →
        ¬ task'.Settled →
        t' ∈ rest ∨ task'.missing ≤ task'.openWorkers.card).mpr
          ⟨?_, fun t' hne task' htask' hsettled => ?_⟩
      · rintro _ ⟨⟩ -
        refine .inr ?_
        rw [hmissing, hopen]
        rcases hneeds with hzero | ⟨hone, hanswered⟩
        · exact hzero ▸ Nat.zero_le _
        · rw [if_neg hanswered, Finset.card_singleton, hone]
      · refine (hkept.tasks t' task' htask' hsettled).imp_left fun hmem => ?_
        rw [hpending] at hmem
        exact (List.mem_cons.mp hmem).resolve_left hne
    · rw [hopen]
      by_cases hkw : a.workerId = k
      · subst hkw
        split_ifs with hanswered
        · exact .inr (howes.mp (hanswers hanswered))
        · exact .inl (Finset.mem_singleton_self _)
      · rw [getElem?_modify, if_neg hkw] at hk
        exact .inr ((owes_iff htask hassignments).mp (hkept.workers k info hk hbusy))

theorem kept_assignNext (h : s.Inv) (hkept : s.Kept) (it : Iteration (UInt32 × WorkerInfo))
    (nowMs : UInt64) :
    (s.assignNext it nowMs).2.Kept ↔ s.Served (.assignNext it nowMs) := by
  rcases assignNext_cases s it nowMs with ⟨hpending, heq⟩ | ⟨t, rest, hpending, hcases⟩
  · rw [heq]
    refine iff_of_true hkept fun t task hhead => ?_
    rw [hpending] at hhead
    cases hhead
  · obtain ⟨task, htask, hassignments⟩ := h.queued t (hpending ▸ List.mem_cons_self)
    have hserved : s.Served (.assignNext it nowMs) ↔
        (task.missing = 0 ∨ task.missing = 1 ∧ ∃ w, s.nextWorker it = some w ∧ ¬ task.Answered w) ∧
          ∀ w, s.nextWorker it = some w → task.Answered w → s.Owes w := by
      constructor
      · exact fun hserved => hserved t task (by rw [hpending]; rfl) htask
      · intro hserved t' task' hhead htask'
        rw [hpending] at hhead
        cases hhead
        cases htask.symm.trans htask'
        exact hserved
    rw [hserved]
    rcases hcases with ⟨hworker, heq⟩ | ⟨w, hworker, heq⟩ <;> rw [heq, hworker]
    · rw [kept_dropped h hkept hpending htask hassignments]
      simp only [reduceCtorEq, false_and, exists_false, and_false, or_false, false_imp_iff,
        implies_true, and_true]
    · obtain ⟨info, hinfo, -⟩ := nextWorker_spec h.keyed hworker
      rw [kept_assigned h hkept hpending htask hassignments
        (Option.isSome_iff_exists.mpr ⟨info, hinfo⟩) rfl]
      simp only [Option.some.injEq, exists_eq_left', forall_eq']

theorem kept_step (h : s.Inv) (hkept : s.Kept) (c : Call) : (s.step c).2.Kept ↔ s.Served c := by
  cases c with
  | registerWorker nodeId => exact iff_of_true (kept_registerWorker hkept nodeId) trivial
  | submitTask taskType nowMs => exact iff_of_true (kept_submitTask h hkept taskType nowMs) trivial
  | assignNext it nowMs => exact kept_assignNext h hkept it nowMs
  | submitResult it r => exact iff_of_true (kept_submitResult hkept it r) trivial

/-! ## Runs -/

theorem kept_new : new.Kept where
  tasks := nofun
  workers w info h := by
    rw [show (new.workers : OrdMap UInt32 WorkerInfo) = ∅ from rfl, ExtTreeMap.getElem?_empty] at h
    cases h

/-- The tasks and the workers stay in service in exactly the runs whose assignments serve them. -/
theorem kept_iff (calls : List Call) :
    (∀ done, done <+: calls → (Machine.after step new done).Kept) ↔
    ∀ done c, done ++ [c] <+: calls → (Machine.after step new done).Served c :=
  Machine.invariant_iff (I := Inv) (P := Kept) (Q := Served) (fun _ c h => h.step c)
    (fun _ c h hkept => kept_step h hkept c) inv_new kept_new calls

namespace Demo

/-- A task, and a look for a worker while there is none. -/
def lonely : List Call := [.submitTask .embarrassing 0, .assignNext .forward 0]

/-- The task is then in the table only. -/
theorem task_dropped : ¬ ∀ (calls : List Call) (done : List Call), done <+: calls →
    (Machine.after step new done).Kept := by
  intro hkept
  have hlost : ∃ task, (Machine.after step new lonely).tasks 1 = some task ∧ task.missing = 1 ∧
    ¬ task.Settled ∧
      task.openWorkers = ∅ := ⟨_, rfl, rfl, by decide, rfl⟩
  obtain ⟨task, htask, hmissing, hsettled, hopen⟩ := hlost
  rcases (hkept lonely lonely List.prefix_rfl).tasks 1 task htask hsettled with hpending | hcount
  · exact absurd hpending (by decide +kernel)
  · rw [hmissing, hopen] at hcount
    exact absurd hcount (by decide)

end Demo

end TaskScheduler

end P2P333.Platform333.Compute
