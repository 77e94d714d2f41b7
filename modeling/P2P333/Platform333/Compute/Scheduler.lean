import P2P333.Lib.Machine
import P2P333.Platform333.Compute.Task

/-!
# The task scheduler

`333-platform/src/compute/scheduler.rs`: tasks wait in a queue, the first one is assigned to the
available worker with the lowest failure rate, and every result that comes in for a known task is
verified with the ones before it. What a worker has done and earned is counted in 64 bits there and
in natural numbers here.

Results:
1. `Inv.step`: what the queue, the tasks and the workers keep to.
2. `step_extends`: a task keeps its type, its assignments and its results.
-/

namespace P2P333.Platform333.Compute

open Std Lib Function

/-! ## Workers -/

/-- The rank of a worker. -/
inductive ReputationTier where
  | new
  | bronze
  | silver
  | gold
deriving DecidableEq

structure WorkerInfo where
  nodeId : UInt32
  reputation : ReputationTier
  tasksCompleted : Nat
  tasksFailed : Nat
  tokensEarned : Nat
  available : Bool

namespace WorkerInfo

def new (nodeId : UInt32) : WorkerInfo := ⟨nodeId, .new, 0, 0, 0, true⟩

def updateReputation (w : WorkerInfo) : WorkerInfo :=
  { w with
    reputation :=
      if w.tasksCompleted ≤ 99 then .new
      else if w.tasksCompleted ≤ 499 then .bronze
      else if w.tasksCompleted ≤ 999 then .silver
      else .gold }

def failureRateMilli (w : WorkerInfo) : Nat :=
  let total := w.tasksCompleted + w.tasksFailed
  if total = 0 then 0 else w.tasksFailed * 1000 / total

/-- The worker after the verification of a result of it. -/
def report (w : WorkerInfo) : VerifyResult → WorkerInfo
  | .noVerificationNeeded | .quorumAgreed _ _ | .canaryPassed =>
    updateReputation { w with
      available := true, tasksCompleted := w.tasksCompleted + 1, tokensEarned :=
        w.tokensEarned + 1 }
  | .quorumDisagreed _ | .canaryFailed _ =>
    updateReputation { w with available := true, tasksFailed := w.tasksFailed + 1 }
  | .insufficientResults => { w with available := true }

variable {w : WorkerInfo} {v : VerifyResult}

@[simp] theorem nodeId_report : (w.report v).nodeId = w.nodeId := by cases v <;> rfl

@[simp] theorem available_report : (w.report v).available = true := by cases v <;> rfl

/-- A token is earned by a success. -/
theorem tokensEarned_report :
    (w.report v).tokensEarned = w.tokensEarned + if v.Success then 1 else 0 := by cases v <;> rfl

end WorkerInfo

/-! ## Calls -/

structure TaskScheduler where
  nextTaskId : TaskId
  pending : List TaskId
  tasks : TaskId → Option Task
  workers : OrdMap UInt32 WorkerInfo

/-- A call, with the order in which it visits a hash map. -/
inductive Call where
  | registerWorker (nodeId : UInt32)
  | submitTask (taskType : TaskType) (nowMs : UInt64)
  | assignNext (it : Iteration (UInt32 × WorkerInfo)) (nowMs : UInt64)
  | submitResult (it : Iteration (String × Nat)) (result : TaskResult)

/-- What a call of the scheduler returns. -/
inductive Reply where
  | registered
  | submitted (id : TaskId)
  | assigned (assignment : Option TaskAssignment)
  | handled (verify : Option VerifyResult)

def Task.assign (task : Task) (a : TaskAssignment) : Task :=
  { task with status := .assigned, assignments := task.assignments ++ [a] }

namespace TaskScheduler

def new : TaskScheduler := ⟨1, [], fun _ => none, ∅⟩

def registerWorker (s : TaskScheduler) (nodeId : UInt32) : TaskScheduler :=
  { s with workers := s.workers.insertIfNew nodeId (.new nodeId) }

def submitTask (s : TaskScheduler) (taskType : TaskType) (nowMs : UInt64) :
    TaskId × TaskScheduler :=
  (s.nextTaskId, { s with
    nextTaskId := s.nextTaskId + 1
    tasks := update s.tasks s.nextTaskId (some (.new s.nextTaskId taskType nowMs))
    pending := s.pending ++ [s.nextTaskId] })

/-- The available worker with the lowest failure rate. -/
def nextWorker (s : TaskScheduler) (it : Iteration (UInt32 × WorkerInfo)) : Option UInt32 :=
  (minByKey (·.failureRateMilli) (((it.order s.workers.toList).map Prod.snd).filter
    (·.available))).map (·.nodeId)

def assignNext (s : TaskScheduler) (it : Iteration (UInt32 × WorkerInfo)) (nowMs : UInt64) :
    Option TaskAssignment × TaskScheduler :=
  match s.pending with
  | [] => (none, s)
  | taskId :: rest =>
    match s.nextWorker it with
    | none => (none, { s with pending := rest })
    | some workerId =>
      let assignment : TaskAssignment := ⟨taskId, workerId, nowMs, 30000, 1⟩
      (some assignment, { s with
        pending := rest
        tasks := update s.tasks taskId ((s.tasks taskId).map (·.assign assignment))
        workers := s.workers.modify workerId fun w => { w with available := false } })

def submitResult (s : TaskScheduler) (it : Iteration (String × Nat)) (result : TaskResult) :
    Option VerifyResult × TaskScheduler :=
  match s.tasks result.taskId with
  | none => (none, s)
  | some task =>
    let r := (task.submitResult result).verify it
    (some r.1, { s with
      tasks := update s.tasks result.taskId (some r.2)
      workers := s.workers.modify result.workerId (·.report r.1) })

def step (s : TaskScheduler) : Call → Reply × TaskScheduler
  | .registerWorker nodeId => (.registered, s.registerWorker nodeId)
  | .submitTask taskType nowMs =>
    let r := s.submitTask taskType nowMs
    (.submitted r.1, r.2)
  | .assignNext it nowMs =>
    let r := s.assignNext it nowMs
    (.assigned r.1, r.2)
  | .submitResult it result =>
    let r := s.submitResult it result
    (.handled r.1, r.2)

variable {s : TaskScheduler} {it : Iteration (UInt32 × WorkerInfo)} {nowMs : UInt64}
    {t : TaskId} {task : Task}
  {w : UInt32} {info : WorkerInfo}

/-! ## Workers of the scheduler -/

theorem getElem?_modify (m : OrdMap UInt32 WorkerInfo) (k k' : UInt32)
    (f : WorkerInfo → WorkerInfo) :
    (m.modify k f)[k']? = if k = k' then m[k]?.map f else m[k']? := by
  rw [ExtTreeMap.getElem?_modify]
  simp only [LawfulEqCmp.compare_eq_iff_eq]

theorem getElem?_registerWorker (nodeId k : UInt32) :
    (s.registerWorker nodeId).workers[k]? =
      if nodeId = k then some (s.workers[k]?.getD (.new k)) else s.workers[k]? := by
  rw [registerWorker, ExtTreeMap.getElem?_insertIfNew]
  simp only [LawfulEqCmp.compare_eq_iff_eq]
  split_ifs with hnew hk hk
  · obtain ⟨rfl, hnot⟩ := hnew
    rw [getElem?_neg s.workers nodeId hnot]
    rfl
  · exact absurd hnew.1 hk
  · subst hk
    have hmem : nodeId ∈ s.workers := Classical.not_not.mp fun hnot => hnew ⟨rfl, hnot⟩
    obtain ⟨info, hinfo⟩ := Option.isSome_iff_exists.mp (ExtTreeMap.mem_iff_isSome_getElem?.mp hmem)
    rw [hinfo]
    rfl
  · rfl

/-- The chosen worker is registered and available. -/
theorem nextWorker_spec (hkeyed : ∀ (w : UInt32) (info : WorkerInfo), s.workers[w]? = some info →
    info.nodeId = w)
    (h : s.nextWorker it = some w) : ∃ info, s.workers[w]? = some info ∧ info.available = true := by
  obtain ⟨info, hmin, rfl⟩ := Option.map_eq_some_iff.mp h
  obtain ⟨hvisited, havailable⟩ := List.mem_filter.mp (mem_of_minByKey hmin)
  obtain ⟨⟨w, info'⟩, hentry, rfl⟩ := List.mem_map.mp hvisited
  have hworker : s.workers[w]? = some info' :=
    ExtTreeMap.mem_toList_iff_getElem?_eq_some.mp ((it.perm _).mem_iff.mp hentry)
  exact ⟨info', by rw [hkeyed w info' hworker]; exact hworker, havailable⟩

theorem nextWorker_eq_none : s.nextWorker it = none ↔
    ∀ (w : UInt32) (info : WorkerInfo), s.workers[w]? = some info → info.available = false := by
  rw [nextWorker, Option.map_eq_none_iff, minByKey_eq_none, List.filter_eq_nil_iff]
  constructor
  · intro hnone w info hworker
    have hentry : (w, info) ∈ it.order s.workers.toList :=
      (it.perm _).mem_iff.mpr (ExtTreeMap.mem_toList_iff_getElem?_eq_some.mpr hworker)
    exact Bool.eq_false_iff.mpr (hnone info (List.mem_map.mpr ⟨_, hentry, rfl⟩))
  · intro hall info hvisited
    obtain ⟨⟨w, info⟩, hentry, rfl⟩ := List.mem_map.mp hvisited
    have hworker := ExtTreeMap.mem_toList_iff_getElem?_eq_some.mp ((it.perm _).mem_iff.mp hentry)
    exact Bool.eq_false_iff.mp (hall w info hworker)

/-! ## What an assignment does -/

/-- Nothing waits, or the first task is taken out of the queue: with a worker it is assigned,
without one it is gone. -/
theorem assignNext_cases (s : TaskScheduler) (it : Iteration (UInt32 × WorkerInfo))
    (nowMs : UInt64) :
    (s.pending = [] ∧ s.assignNext it nowMs = (none, s)) ∨
    ∃ t rest, s.pending = t :: rest ∧
      ((s.nextWorker it = none ∧ s.assignNext it nowMs = (none, { s with pending := rest })) ∨
      ∃ w, s.nextWorker it = some w ∧ s.assignNext it nowMs =
        (some ⟨t, w, nowMs, 30000, 1⟩, { s with
        pending := rest
        tasks := update s.tasks t ((s.tasks t).map (·.assign ⟨t, w, nowMs, 30000, 1⟩))
        workers := s.workers.modify w fun w => { w with available := false } })) := by
  unfold assignNext
  cases hpending : s.pending with
  | nil => exact .inl ⟨rfl, rfl⟩
  | cons t rest =>
    refine .inr ⟨t, rest, rfl, ?_⟩
    cases hworker : s.nextWorker it with
    | none => exact .inl ⟨rfl, rfl⟩
    | some w => exact .inr ⟨w, rfl, rfl⟩

theorem submitResult_of_unknown (it : Iteration (String × Nat)) {r : TaskResult}
    (h : s.tasks r.taskId = none) :
    s.submitResult it r = (none, s) := by rw [submitResult, h]

theorem submitResult_of_known (it : Iteration (String × Nat)) {r : TaskResult}
    (h : s.tasks r.taskId = some task) :
    s.submitResult it r = (some ((task.submitResult r).verify it).1, { s with
      tasks := update s.tasks r.taskId (some ((task.submitResult r).verify it).2)
      workers := s.workers.modify r.workerId (·.report ((task.submitResult r).verify it).1) }) := by
  rw [submitResult, h]

/-! ## What the scheduler keeps to -/

structure Inv (s : TaskScheduler) : Prop where
  keyed : ∀ (w : UInt32) (info : WorkerInfo), s.workers[w]? = some info → info.nodeId = w
  known : ∀ t task, s.tasks t = some task → t < s.nextTaskId
  queued : ∀ t ∈ s.pending, ∃ task, s.tasks t = some task ∧ task.assignments = []
  nodup : s.pending.Nodup
  settled : ∀ t task, s.tasks t = some task → task.Settled →
    task.taskType.needed ≤ task.results.length

theorem inv_new : Inv new where
  keyed w info h := by
    rw [show (new.workers : OrdMap UInt32 WorkerInfo) = ∅ from rfl, ExtTreeMap.getElem?_empty] at h
    cases h
  known := nofun
  queued := nofun
  nodup := .nil
  settled := nofun

namespace Inv

theorem registerWorker (h : Inv s) (nodeId : UInt32) : Inv (s.registerWorker nodeId) where
  keyed w info hworker := by
    rw [getElem?_registerWorker] at hworker
    split_ifs at hworker with hk
    · cases hworkers : s.workers[w]? with
      | none =>
        rw [hworkers] at hworker
        cases hworker
        rfl
      | some info' =>
        rw [hworkers] at hworker
        cases hworker
        exact h.keyed w _ hworkers
    · exact h.keyed w info hworker
  known := h.known
  queued := h.queued
  nodup := h.nodup
  settled := h.settled

theorem submitTask (h : Inv s) (taskType : TaskType) (nowMs : UInt64) :
    Inv (s.submitTask taskType nowMs).2 where
  keyed := h.keyed
  known := by
    refine (forall_update_iff s.tasks fun t o => ∀ task, o = some task → t < s.nextTaskId +
      1).mpr ⟨?_, ?_⟩
    · exact fun _ _ => Nat.lt_succ_self _
    · exact fun t _ task htask => Nat.lt_succ_of_lt (h.known t task htask)
  queued t ht := by
    rcases List.mem_append.mp ht with ht | ht
    · obtain ⟨task, htask, hassignments⟩ := h.queued t ht
      have hne : t ≠ s.nextTaskId := (h.known t task htask).ne
      exact ⟨task, (update_of_ne hne _ _).trans htask, hassignments⟩
    · obtain rfl := List.mem_singleton.mp ht
      exact ⟨_, update_self .., rfl⟩
  nodup := by
    refine List.nodup_append'.mpr ⟨h.nodup, List.nodup_singleton _,
      List.disjoint_singleton.mpr fun hmem => ?_⟩
    obtain ⟨task, htask, -⟩ := h.queued _ hmem
    exact absurd (h.known _ task htask) (lt_irrefl _)
  settled := by
    refine (forall_update_iff s.tasks fun t o => ∀ task, o = some task → task.Settled →
      task.taskType.needed ≤ task.results.length).mpr ⟨?_, fun t _ => h.settled t⟩
    rintro task ⟨⟩ (hsettled | hsettled) <;> cases hsettled

theorem assignNext (h : Inv s) (it : Iteration (UInt32 × WorkerInfo)) (nowMs : UInt64) :
    Inv (s.assignNext it nowMs).2 := by
  rcases assignNext_cases s it nowMs with ⟨-, heq⟩ | ⟨t, rest, hpending,
    ⟨-, heq⟩ | ⟨w, -, heq⟩⟩ <;> rw [heq]
  · exact h
  · have hnodup := h.nodup
    rw [hpending] at hnodup
    exact { h with
      queued := fun t' ht' => h.queued t' (hpending ▸ List.mem_cons_of_mem _ ht')
      nodup := hnodup.of_cons }
  · have hnodup := h.nodup
    rw [hpending] at hnodup
    obtain ⟨task, htask, hassignments⟩ := h.queued t (hpending ▸ List.mem_cons_self)
    refine ⟨fun k info hk => ?_, ?_, fun t' ht' => ?_, hnodup.of_cons, ?_⟩
    · rw [getElem?_modify] at hk
      split_ifs at hk with hkw
      · subst hkw
        obtain ⟨info', hinfo', rfl⟩ := Option.map_eq_some_iff.mp hk
        exact h.keyed w info' hinfo'
      · exact h.keyed k info hk
    · refine (forall_update_iff s.tasks fun t o => ∀ task, o = some task →
        t < s.nextTaskId).mpr
        ⟨fun _ _ => h.known t task htask, fun t' _ => h.known t'⟩
    · obtain ⟨task', htask', hassignments'⟩ := h.queued t' (hpending ▸ List.mem_cons_of_mem _ ht')
      have hne : t' ≠ t := fun heq => (List.nodup_cons.mp hnodup).1 (heq ▸ ht')
      exact ⟨task', (update_of_ne hne _ _).trans htask', hassignments'⟩
    · refine (forall_update_iff s.tasks fun t o => ∀ task, o = some task → task.Settled →
        task.taskType.needed ≤ task.results.length).mpr ⟨?_, fun t' _ => h.settled t'⟩
      rw [htask]
      rintro _ ⟨⟩ (hsettled | hsettled) <;> cases hsettled

theorem submitResult (h : Inv s) (it : Iteration (String × Nat)) (r : TaskResult) :
    Inv (s.submitResult it r).2 := by
  cases htask : s.tasks r.taskId with
  | none =>
    rw [submitResult_of_unknown it htask]
    exact h
  | some task =>
    have hne : (task.submitResult r).results ≠ [] := List.concat_ne_nil r task.results
    obtain ⟨v, status, hverify, -, -, -, hinsufficient⟩ := Task.verify_eq it hne
    rw [submitResult_of_known it htask, hverify]
    refine ⟨fun k info hk => ?_, ?_, fun t ht => ?_, h.nodup, ?_⟩
    · rw [getElem?_modify] at hk
      split_ifs at hk with hkw
      · subst hkw
        obtain ⟨info', hinfo', rfl⟩ := Option.map_eq_some_iff.mp hk
        exact WorkerInfo.nodeId_report.trans (h.keyed _ info' hinfo')
      · exact h.keyed k info hk
    · refine (forall_update_iff s.tasks fun t o => ∀ task, o = some task →
        t < s.nextTaskId).mpr
        ⟨fun _ _ => h.known _ task htask, fun t' _ => h.known t'⟩
    · obtain ⟨task', htask', hassignments⟩ := h.queued t ht
      by_cases heq : t = r.taskId
      · subst heq
        cases htask.symm.trans htask'
        exact ⟨_, update_self .., hassignments⟩
      · exact ⟨task', (update_of_ne heq _ _).trans htask', hassignments⟩
    · refine (forall_update_iff s.tasks fun t o => ∀ task, o = some task → task.Settled →
        task.taskType.needed ≤ task.results.length).mpr ⟨?_, fun t' _ => h.settled t'⟩
      rintro _ ⟨⟩ hsettled
      by_contra hlt
      obtain ⟨-, rfl⟩ := hinsufficient (Nat.not_le.mp hlt)
      have hbefore : task.taskType.needed ≤ task.results.length := h.settled _ task htask hsettled
      exact hlt (hbefore.trans (by simp))

theorem step (h : Inv s) (c : Call) : Inv (s.step c).2 := by
  cases c with
  | registerWorker nodeId => exact h.registerWorker nodeId
  | submitTask taskType nowMs => exact h.submitTask taskType nowMs
  | assignNext it nowMs => exact h.assignNext it nowMs
  | submitResult it r => exact h.submitResult it r

end Inv

end TaskScheduler

/-! ## Tasks over time -/

/-- The task has been through more. -/
structure Task.Extends (task task' : Task) : Prop where
  taskType : task'.taskType = task.taskType
  assignments : task.assignments ⊆ task'.assignments
  results : task.results ⊆ task'.results

namespace TaskScheduler

theorem step_extends {s : TaskScheduler} (h : Inv s) (c : Call) {t : TaskId} {task : Task}
    (htask : s.tasks t = some task) : ∃ task', (s.step c).2.tasks t = some task' ∧
      task.Extends task' := by
  have hsame : task.Extends task := ⟨rfl, List.Subset.refl _, List.Subset.refl _⟩
  cases c with
  | registerWorker nodeId => exact ⟨task, htask, hsame⟩
  | submitTask taskType nowMs =>
    have hne : t ≠ s.nextTaskId := (h.known t task htask).ne
    exact ⟨task, (update_of_ne hne _ _).trans htask, hsame⟩
  | assignNext it nowMs =>
    simp only [step]
    rcases assignNext_cases s it nowMs with ⟨-, heq⟩ | ⟨t', rest, -,
      ⟨-, heq⟩ | ⟨w, -, heq⟩⟩ <;> rw [heq]
    · exact ⟨task, htask, hsame⟩
    · exact ⟨task, htask, hsame⟩
    · by_cases hne : t = t'
      · subst hne
        rw [htask]
        exact ⟨_, update_self .., rfl, List.subset_append_left .., List.Subset.refl _⟩
      · exact ⟨task, (update_of_ne hne _ _).trans htask, hsame⟩
  | submitResult it r =>
    simp only [step]
    cases hknown : s.tasks r.taskId with
    | none =>
      rw [submitResult_of_unknown it hknown]
      exact ⟨task, htask, hsame⟩
    | some task' =>
      have hnonempty : (task'.submitResult r).results ≠ [] := List.concat_ne_nil r task'.results
      obtain ⟨v, status, hverify, -⟩ := Task.verify_eq it hnonempty
      rw [submitResult_of_known it hknown, hverify]
      by_cases hne : t = r.taskId
      · subst hne
        cases htask.symm.trans hknown
        exact ⟨_, update_self .., rfl, List.Subset.refl _, List.subset_append_left ..⟩
      · exact ⟨task, (update_of_ne hne _ _).trans htask, hsame⟩

end TaskScheduler

end P2P333.Platform333.Compute
