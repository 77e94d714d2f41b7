import P2P333.Platform333.Compute.Earnings

/-!
# The orchestrator of compute jobs

`333-platform/src/compute/om.rs`: a job is split into tasks of the scheduler, the waiting tasks are
handed to the available workers, and every result for a task goes into the results of its job. The
job number and the totals have 64 bits in the source and are natural numbers here.

Results:
1. `submitTasks_spec`: the tasks of a job are new ones.
2. `assignAll_spec`: a distribution assigns the first waiting tasks, one to each available worker.
-/

namespace P2P333.Platform333.Compute

open Std Lib Function

/-! ## Data -/

/-- The kinds of jobs. -/
inductive OmTaskKind where
  | cpuIntensive (estimatedMs : UInt64)
  | gpuCompute (modelSizeMb : UInt32)
  | dataPipeline (inputSizeKb : UInt32)
  | mapReduce (chunkCount : UInt32) (reduceFn : String)

/-- Where a job is. -/
inductive OmJobStatus where
  | submitted
  | distributing
  | computing
  | reducing
  | completed
  | failed
deriving DecidableEq

/-- A job. Its id is the number in its text. -/
structure OmJob where
  jobId : Nat
  kind : OmTaskKind
  submitter : UInt32
  rewardPerTask : Nat
  taskIds : List TaskId
  status : OmJobStatus
  createdAt : UInt64
  completedAt : Option UInt64
  results : List (List UInt8)

structure OmOrchestrator where
  scheduler : TaskScheduler
  jobs : OrdMap Nat OmJob
  nextJobNum : Nat
  totalComputeMs : Nat
  totalTokensDistributed : Nat

/-- The tasks of a job: one for each chunk, with three replicas, one with two replicas for a GPU, or
a single one that is not verified. -/
def OmTaskKind.taskTypes : OmTaskKind → List TaskType
  | .mapReduce chunkCount _ => List.replicate chunkCount.toNat (.quorum 3)
  | .gpuCompute _ => [.quorum 2]
  | .cpuIntensive _ | .dataPipeline _ => [.embarrassing]

/-! ## Calls -/

namespace TaskScheduler

def submitTasks (s : TaskScheduler) (nowMs : UInt64) : List TaskType → List TaskId × TaskScheduler
  | [] => ([], s)
  | taskType :: rest =>
    let r := s.submitTask taskType nowMs
    let rs := r.2.submitTasks nowMs rest
    (r.1 :: rs.1, rs.2)

/-- Assign until there is no assignment. The fuel is enough when it is the number of waiting tasks.
-/
def assignAll (it : Iteration (UInt32 × WorkerInfo)) (nowMs : UInt64) :
    Nat → TaskScheduler → List TaskAssignment × TaskScheduler
  | 0, s => ([], s)
  | n + 1, s =>
    match s.assignNext it nowMs with
    | (none, s) => ([], s)
    | (some assignment, s) =>
      let rest := assignAll it nowMs n s
      (assignment :: rest.1, rest.2)

end TaskScheduler

namespace OmJob

def distribute (job : OmJob) (assignments : List TaskAssignment) : OmJob :=
  if job.status = .submitted ∧ ¬ assignments.isEmpty then { job with status := .distributing }
  else job

/-- The job after a result for a task, with the tokens that it pays. -/
def submitResult (job : OmJob) (taskId : TaskId) (output : List UInt8) (nowMs : UInt64) :
    OmJob × Nat :=
  if taskId ∈ job.taskIds then
    let job := { job with results := job.results ++ [output], status := .computing }
    if job.taskIds.length ≤ job.results.length then
      ({ job with status := .completed, completedAt := some nowMs },
        job.rewardPerTask * job.taskIds.length)
    else (job, 0)
  else (job, 0)

end OmJob

/-- A call, with the order in which it visits a hash map. -/
inductive OmCall where
  | registerNode (nodeId : UInt32)
  | submitJob (kind : OmTaskKind) (submitter : UInt32) (nowMs : UInt64)
  | distribute (it : Iteration (UInt32 × WorkerInfo)) (nowMs : UInt64)
  | submitResult (it : Iteration (String × Nat)) (result : TaskResult) (nowMs : UInt64)

namespace OmOrchestrator

def new : OmOrchestrator := ⟨.new, ∅, 1, 0, 0⟩

def registerNode (om : OmOrchestrator) (nodeId : UInt32) : OmOrchestrator :=
  { om with scheduler := om.scheduler.registerWorker nodeId }

def submitJob (om : OmOrchestrator) (kind : OmTaskKind) (submitter : UInt32) (nowMs : UInt64) :
    Nat × OmOrchestrator :=
  let jobId := om.nextJobNum
  let r := om.scheduler.submitTasks nowMs kind.taskTypes
  let job : OmJob := {
    jobId, kind, submitter
    rewardPerTask := 1
    taskIds := r.1
    status := .submitted
    createdAt := nowMs
    completedAt := none
    results := [] }
  (jobId,
    { om with
      scheduler := r.2
      nextJobNum := om.nextJobNum + 1
      jobs := om.jobs.insert jobId job })

def distribute (om : OmOrchestrator) (it : Iteration (UInt32 × WorkerInfo)) (nowMs : UInt64) :
    List TaskAssignment × OmOrchestrator :=
  let r := om.scheduler.assignAll it nowMs om.scheduler.pending.length
  (r.1, { om with scheduler := r.2, jobs := om.jobs.map fun _ job => job.distribute r.1 })

def submitResult (om : OmOrchestrator) (it : Iteration (String × Nat)) (result : TaskResult)
    (nowMs : UInt64) :
    Option VerifyResult × OmOrchestrator :=
  match om.scheduler.submitResult it result with
  | (none, scheduler) => (none, { om with scheduler })
  | (some verify, scheduler) =>
    (some verify, { om with
      scheduler
      totalComputeMs := om.totalComputeMs + result.computeMs.toNat
      jobs := om.jobs.map fun _ job => (job.submitResult result.taskId result.output nowMs).1
      totalTokensDistributed := om.totalTokensDistributed +
        OrdMap.sumBy (fun job => (job.submitResult result.taskId result.output nowMs).2) om.jobs })

end OmOrchestrator

/-! ## Tasks of a job -/

namespace TaskScheduler

variable {s : TaskScheduler} {it : Iteration (UInt32 × WorkerInfo)} {nowMs : UInt64}
    {t : TaskId} {task : Task}

/-- The results for the task. -/
def outputs (s : TaskScheduler) (t : TaskId) : List (List UInt8) :=
  ((s.tasks t).elim [] (·.results)).map (·.output)

theorem outputs_eq (h : s.tasks t = some task) : s.outputs t = task.results.map (·.output) := by
  rw [outputs, h, Option.elim_some]

/-- The task is of the type. -/
def Typed (s : TaskScheduler) (t : TaskId) (taskType : TaskType) : Prop :=
  ∃ task, s.tasks t = some task ∧ task.taskType = taskType

/-- The tasks of a job are new ones, of the given types and without results. -/
theorem submitTasks_spec (h : Inv s) (nowMs : UInt64) (types : List TaskType) :
    let r := s.submitTasks nowMs types
    Inv r.2 ∧ r.1 = List.range' s.nextTaskId types.length ∧ List.Forall₂ r.2.Typed r.1 types ∧
      (∀ t ∈ r.1, r.2.outputs t = []) ∧ ∀ t < s.nextTaskId, r.2.tasks t = s.tasks t := by
  induction types generalizing s with
  | nil => exact ⟨h, rfl, .nil, nofun, fun _ _ => rfl⟩
  | cons taskType types ih =>
    obtain ⟨hinv, hids, htypes, houtputs, hkept⟩ := ih (h.submitTask taskType nowMs)
    have hself : ((s.submitTask taskType nowMs).2.submitTasks nowMs types).2.tasks s.nextTaskId =
        some (.new s.nextTaskId taskType nowMs) :=
      (hkept _ (Nat.lt_succ_self _)).trans (update_self ..)
    refine ⟨hinv, ?_, .cons ⟨_, hself, rfl⟩ htypes, fun t ht => ?_, fun t ht => ?_⟩
    · rw [List.length_cons, List.range'_succ]
      exact congrArg (s.nextTaskId :: ·) hids
    · rcases List.mem_cons.mp ht with rfl | ht
      · exact outputs_eq hself
      · exact houtputs t ht
    · exact (hkept t (Nat.lt_succ_of_lt ht)).trans (update_of_ne ht.ne _ _)

/-! ## Distribution -/

def availableWorkers (s : TaskScheduler) : Nat :=
  OrdMap.sumBy (fun w => if w.available then 1 else 0) s.workers

theorem availableWorkers_eq_zero (h : s.nextWorker it = none) : s.availableWorkers = 0 := by
  refine OrdMap.sumBy_eq_zero fun w info hworker => ?_
  rw [nextWorker_eq_none.mp h w info hworker]
  rfl

theorem availableWorkers_modify {w : UInt32} (hkeyed : ∀ (w : UInt32) (info : WorkerInfo),
    s.workers[w]? = some info → info.nodeId = w) (h : s.nextWorker it = some w) :
    OrdMap.sumBy (fun w => if w.available then 1 else 0)
      (s.workers.modify w fun w => { w with available := false }) +
      1 = s.availableWorkers := by
  obtain ⟨info, hinfo, havailable⟩ := nextWorker_spec hkeyed h
  have hmodify := OrdMap.sumBy_modify (fun w => if w.available then 1 else 0) hinfo
    fun w => { w with available := false }
  rw [havailable] at hmodify
  exact hmodify

/-- The first waiting tasks are assigned, one to each available worker. -/
theorem assignAll_spec (h : Inv s) (it : Iteration (UInt32 × WorkerInfo)) (nowMs : UInt64) {n : Nat}
    (hfuel : s.pending.length ≤ n) :
    let s' := (s.assignAll it nowMs n).2
    Inv s' ∧ (∀ t ∈ s.pending.take s.availableWorkers, ∃ a, s'.tasks t =
      (s.tasks t).map (·.assign a)) ∧
      ∀ t ∉ s.pending.take s.availableWorkers, s'.tasks t = s.tasks t := by
  induction n generalizing s with
  | zero =>
    have hnil : s.pending = [] := List.length_eq_zero_iff.mp (Nat.le_zero.mp hfuel)
    rw [hnil, List.take_nil]
    exact ⟨h, nofun, fun _ _ => rfl⟩
  | succ n ih =>
    have hinv := h.assignNext it nowMs
    rw [assignAll]
    rcases assignNext_cases s it nowMs with ⟨hpending, heq⟩ | ⟨t, rest, hpending, hcases⟩
    · rw [heq, hpending, List.take_nil]
      exact ⟨h, nofun, fun _ _ => rfl⟩
    rcases hcases with ⟨hworker, heq⟩ | ⟨w, hworker, heq⟩ <;> rw [heq] at hinv ⊢
    · rw [availableWorkers_eq_zero hworker, List.take_zero]
      exact ⟨hinv, nofun, fun _ _ => rfl⟩
    · rw [hpending, List.length_cons] at hfuel
      obtain ⟨hinv', hassigned, hkept⟩ := ih hinv (Nat.le_of_succ_le_succ hfuel)
      have hnodup := h.nodup
      rw [hpending] at hnodup
      have hrest : t ∉ rest := (List.nodup_cons.mp hnodup).1
      rw [hpending, ← availableWorkers_modify h.keyed hworker, List.take_succ_cons]
      refine ⟨hinv', fun t' ht' => ?_, fun t' ht' => ?_⟩
      · by_cases heq : t' = t
        · subst heq
          have hself := hkept t' fun hmem => hrest (List.mem_of_mem_take hmem)
          exact ⟨_, hself.trans (update_self ..)⟩
        · obtain ⟨a, ha⟩ := hassigned t' ((List.mem_cons.mp ht').resolve_left heq)
          exact ⟨a, ha.trans (congrArg _ (update_of_ne heq _ _))⟩
      · obtain ⟨hne, hlater⟩ := not_or.mp (mt List.mem_cons.mpr ht')
        exact (hkept t' hlater).trans (update_of_ne hne _ _)

end TaskScheduler

end P2P333.Platform333.Compute
