import P2P333.Platform333.Compute.Om

/-!
# Completion of jobs

When a job of `333-platform/src/compute/om.rs` is done. It counts the results for its tasks, not the
tasks that are verified, and a completed job takes further results.

Results:
1. `sound_submitResult`, `sound_distribute`: what a result and a distribution have to meet for the
   completed jobs to be done.
2. `completed_iff`: they are done in exactly the runs with such results and distributions.
-/

namespace P2P333.Platform333.Compute

open Std Lib Function

/-! ## Runs -/

/-- An orchestrator with the results that it has handled. -/
structure OmSite where
  om : OmOrchestrator
  handled : List Handled

namespace OmSite

def start : OmSite := ⟨.new, []⟩

def step (s : OmSite) : OmCall → Unit × OmSite
  | .registerNode nodeId => ((), { s with om := s.om.registerNode nodeId })
  | .submitJob kind submitter nowMs =>
    ((), { s with om := (s.om.submitJob kind submitter nowMs).2 })
  | .distribute it nowMs => ((), { s with om := (s.om.distribute it nowMs).2 })
  | .submitResult it r nowMs =>
    let reply := s.om.submitResult it r nowMs
    ((), {
      om := reply.2
      handled := match reply.1 with
        | some verdict => s.handled ++ [⟨r, verdict, s.om.scheduler.workers[r.workerId]?.isSome⟩]
        | none => s.handled })

/-- The output came in with a hash that was accepted for the task. -/
def AcceptedOutput (s : OmSite) (t : TaskId) (output : List UInt8) : Prop :=
  ∃ task, s.om.scheduler.tasks t = some task ∧ ∃ r ∈ task.results, r.output = output ∧
    ∃ e ∈ s.handled, e.result.taskId = t ∧ task.taskType.Accepts e.verdict r.outputHash

/-- Every task of the job is verified, and the results are one accepted output for each task. -/
structure Finished (s : OmSite) (job : OmJob) : Prop where
  verified : ∀ t ∈ job.taskIds, ∃ task, s.om.scheduler.tasks t = some task ∧ task.status = .verified
  outputs : ∃ outputs, outputs.Perm job.results ∧ List.Forall₂ s.AcceptedOutput job.taskIds outputs

/-- The tokens that a completed job stands for. -/
def paid (job : OmJob) : Nat :=
  if job.status = .completed then job.rewardPerTask * job.taskIds.length else 0

structure Sound (s : OmSite) : Prop where
  finished : ∀ (n : Nat) (job : OmJob), s.om.jobs[n]? = some job → job.status = .completed →
    s.Finished job
  tokens : s.om.totalTokensDistributed = OrdMap.sumBy paid s.om.jobs

/-- Every completed job is still completed, since the same time. -/
def Lasting (s s' : OmSite) : Prop :=
  ∀ (n : Nat) (job : OmJob), s.om.jobs[n]? = some job → job.status = .completed →
    ∃ job', s'.om.jobs[n]? = some job' ∧ job'.status = .completed ∧ job'.completedAt =
      job.completedAt

/-- A result leaves its job with fewer results than tasks, or is the first one of a job with a
single task that is not verified. No task that is distributed belongs to a completed job. -/
def Timely (s : OmSite) : OmCall → Prop
  | .submitResult _ r _ => ∀ (n : Nat) (job : OmJob), s.om.jobs[n]? = some job →
    r.taskId ∈ job.taskIds →
    job.results.length + 1 < job.taskIds.length ∨ job.results = [] ∧ job.kind.taskTypes =
      [.embarrassing]
  | .distribute _ _ => ∀ t ∈ s.om.scheduler.pending.take s.om.scheduler.availableWorkers, ∀
    (n : Nat) (job : OmJob),
    s.om.jobs[n]? = some job → t ∈ job.taskIds → job.status ≠ .completed
  | _ => True

end OmSite

/-! ## What a job keeps to -/

/-- The tasks of the job have the types of its kind, and its results are theirs. -/
structure OmJob.Inv (job : OmJob) (s : TaskScheduler) : Prop where
  types : List.Forall₂ s.Typed job.taskIds job.kind.taskTypes
  nodup : job.taskIds.Nodup
  results : job.results.Perm (job.taskIds.flatMap s.outputs)
  complete : job.status = .completed → job.taskIds.length ≤ job.results.length

section Lists

variable {α β : Type}

/-- One more element for one of the keys. -/
theorem flatMap_update_perm [DecidableEq α] {l : List α} (hnodup : l.Nodup) {a : α} (ha : a ∈ l)
    (f : α → List β)
    (x : β) : (l.flatMap (update f a (f a ++ [x]))).Perm (l.flatMap f ++ [x]) := by
  induction l with
  | nil => cases ha
  | cons b l ih =>
    obtain ⟨hb, hl⟩ := List.nodup_cons.mp hnodup
    rw [List.flatMap_cons, List.flatMap_cons]
    by_cases hab : b = a
    · subst hab
      have hrest : l.flatMap (update f b (f b ++ [x])) = l.flatMap f :=
        List.flatMap_congr fun c hc => update_of_ne (fun heq : c = b => hb (heq ▸ hc)) _ _
      rw [update_self, hrest, List.append_assoc, List.append_assoc]
      exact List.perm_append_comm.append_left (f b)
    · rw [update_of_ne hab, List.append_assoc]
      exact (ih hl ((List.mem_cons.mp ha).resolve_left (Ne.symm hab))).append_left (f b)

end Lists

namespace OmJob

variable {job : OmJob} {s s' : TaskScheduler}

theorem Inv.congr (h : job.Inv s) (houtputs : ∀ t ∈ job.taskIds, s'.outputs t = s.outputs t)
    (htypes : ∀ t taskType, s.Typed t taskType → s'.Typed t taskType) : job.Inv s' where
  types := h.types.imp fun t taskType => htypes t taskType
  nodup := h.nodup
  results := (List.flatMap_congr houtputs) ▸ h.results
  complete := h.complete

/-- The tasks of a job are known. -/
theorem Inv.known (h : job.Inv s) {t : TaskId} (ht : t ∈ job.taskIds) :
    ∃ task, s.tasks t = some task := by
  have hboth := h.types.imp fun t taskType (htype : s.Typed t taskType) =>
    show (∃ task, s.tasks t = some task) ∧ s.Typed t taskType from
      ⟨htype.imp fun _ => And.left, htype⟩
  exact (List.forall₂_and_left _ _ |>.mp hboth).1 t ht

/-- Verified tasks have as many results as they need. -/
theorem needed_le (h : s.Inv) {ids : List TaskId} {types : List TaskType}
    (htypes : List.Forall₂ s.Typed ids types)
    (hverified : ∀ t ∈ ids, ∃ task, s.tasks t = some task ∧ task.status = .verified) :
    (types.map TaskType.needed).sum ≤ (ids.flatMap s.outputs).length := by
  induction htypes with
  | nil => exact Nat.zero_le _
  | @cons t taskType ids types htype htypes ih =>
    obtain ⟨task, htask, hstatus⟩ := hverified t List.mem_cons_self
    obtain ⟨task', htask', rfl⟩ := htype
    cases htask.symm.trans htask'
    have hneeded := h.settled t task htask (.inl hstatus)
    have hrest := ih fun t' ht' => hverified t' (List.mem_cons_of_mem _ ht')
    rw [List.map_cons, List.sum_cons, List.flatMap_cons, List.length_append,
      TaskScheduler.outputs_eq htask,
      List.length_map]
    exact Nat.add_le_add hneeded hrest

/-- Only a single task that is not verified gets by with one result for each task. -/
theorem taskTypes_of_needed_le {kind : OmTaskKind}
    (h : (kind.taskTypes.map TaskType.needed).sum ≤ kind.taskTypes.length)
      (hne : kind.taskTypes ≠ []) :
    kind.taskTypes = [.embarrassing] := by
  cases kind with
  | cpuIntensive estimatedMs => rfl
  | dataPipeline inputSizeKb => rfl
  | gpuCompute modelSizeMb =>
    have htwo : 2 ≤ 1 := h
    exact absurd htwo (by decide)
  | mapReduce chunkCount reduceFn =>
    have hthree : (TaskType.quorum 3).needed = 3 := rfl
    simp only [OmTaskKind.taskTypes, List.map_replicate, List.sum_replicate,
      List.length_replicate, hthree,
      smul_eq_mul] at h
    have hzero : chunkCount.toNat = 0 := by omega
    exact absurd (by rw [OmTaskKind.taskTypes, hzero, List.replicate_zero]) hne

variable {t : TaskId} {output : List UInt8} {nowMs : UInt64}

theorem submitResult_of_notMem (h : t ∉ job.taskIds) : job.submitResult t output nowMs =
    (job, 0) := if_neg h

/-- A result that does not complete the job. -/
theorem submitResult_of_lt (h : t ∈ job.taskIds)
    (hlt : job.results.length + 1 < job.taskIds.length) :
    job.submitResult t output nowMs =
      ({ job with results := job.results ++ [output], status := .computing }, 0) := by
  have hnot : ¬ job.taskIds.length ≤ (job.results ++ [output]).length := by
    rw [List.length_append, List.length_singleton]
    exact Nat.not_le.mpr hlt
  exact (if_pos h).trans (if_neg hnot)

/-- A result that completes it. -/
theorem submitResult_of_le (h : t ∈ job.taskIds)
    (hle : job.taskIds.length ≤ job.results.length + 1) :
    job.submitResult t output nowMs =
      ({ job with
          results := job.results ++ [output]
          status := .completed
          completedAt := some nowMs },
        job.rewardPerTask * job.taskIds.length) := by
  have hlength : job.taskIds.length ≤ (job.results ++ [output]).length := by
    rwa [List.length_append, List.length_singleton]
  exact (if_pos h).trans (if_pos hlength)

theorem taskIds_submitResult : (job.submitResult t output nowMs).1.taskIds = job.taskIds := by
  unfold submitResult
  dsimp only
  split_ifs <;> rfl

theorem kind_submitResult : (job.submitResult t output nowMs).1.kind = job.kind := by
  unfold submitResult
  dsimp only
  split_ifs <;> rfl

theorem results_submitResult (h : t ∈ job.taskIds) :
    (job.submitResult t output nowMs).1.results = job.results ++ [output] := by
  rcases Nat.lt_or_ge (job.results.length + 1) job.taskIds.length with hlt | hle
  · rw [submitResult_of_lt h hlt]
  · rw [submitResult_of_le h hle]

/-- The job keeps to it when the output goes to its task as well. -/
theorem Inv.submitResult (h : job.Inv s)
    (houtputs : s'.outputs = update s.outputs t (s.outputs t ++ [output]))
    (htypes : ∀ t taskType, s.Typed t taskType → s'.Typed t taskType) (nowMs : UInt64) :
    (job.submitResult t output nowMs).1.Inv s' := by
  by_cases ht : t ∈ job.taskIds
  · refine ⟨?_, ?_, ?_, ?_⟩
    · rw [taskIds_submitResult, kind_submitResult]
      exact h.types.imp fun t taskType => htypes t taskType
    · rw [taskIds_submitResult]
      exact h.nodup
    · rw [taskIds_submitResult, results_submitResult ht, houtputs]
      exact (h.results.append_right [output]).trans
        (flatMap_update_perm h.nodup ht s.outputs output).symm
    · rcases Nat.lt_or_ge (job.results.length + 1) job.taskIds.length with hlt | hle
      · rw [submitResult_of_lt ht hlt]
        nofun
      · rw [taskIds_submitResult, results_submitResult ht, List.length_append,
          List.length_singleton]
        exact fun _ => hle
  · rw [submitResult_of_notMem ht]
    refine h.congr (fun t' ht' => ?_) htypes
    rw [houtputs, update_of_ne fun heq : t' = t => ht (heq ▸ ht')]

theorem distribute_of_ne (assignments : List TaskAssignment) (h : job.status ≠ .submitted) :
    job.distribute assignments = job := if_neg fun hand => h hand.1

/-- A distribution touches a job that is waiting, and its status only. -/
theorem distribute_cases (job : OmJob) (assignments : List TaskAssignment) :
    job.distribute assignments = job ∨
      job.status = .submitted ∧ job.distribute assignments =
        { job with status := .distributing } := by
  unfold distribute
  split_ifs with h
  · exact .inr ⟨h.1, rfl⟩
  · exact .inl rfl

end OmJob

/-! ## What is always so -/

namespace OmSite

structure Inv (s : OmSite) : Prop where
  scheduler : s.om.scheduler.Inv
  fresh : ∀ (n : Nat) (job : OmJob), s.om.jobs[n]? = some job → n < s.om.nextJobNum
  job : ∀ (n : Nat) (job : OmJob), s.om.jobs[n]? = some job → job.Inv s.om.scheduler

variable {s : OmSite} {r : TaskResult} {task : Task} {it : Iteration (String × Nat)}
    {nowMs : UInt64}

theorem inv_start : Inv start where
  scheduler := TaskScheduler.inv_new
  fresh n job h := by
    rw [show (start.om.jobs : OrdMap Nat OmJob) = ∅ from rfl, ExtTreeMap.getElem?_empty] at h
    cases h
  job n job h := by
    rw [show (start.om.jobs : OrdMap Nat OmJob) = ∅ from rfl, ExtTreeMap.getElem?_empty] at h
    cases h

theorem step_of_unknown (h : s.om.scheduler.tasks r.taskId = none) :
    (s.step (.submitResult it r nowMs)).2 = s := by
  simp only [step, OmOrchestrator.submitResult, TaskScheduler.submitResult_of_unknown it h]

theorem step_of_known (it : Iteration (String × Nat)) (nowMs : UInt64)
    (h : s.om.scheduler.tasks r.taskId = some task) :
    (s.step (.submitResult it r nowMs)).2 = {
      om := { s.om with
        scheduler := (s.om.scheduler.submitResult it r).2
        totalComputeMs := s.om.totalComputeMs + r.computeMs.toNat
        jobs := s.om.jobs.map fun _ job => (job.submitResult r.taskId r.output nowMs).1
        totalTokensDistributed := s.om.totalTokensDistributed +
          OrdMap.sumBy (fun job => (job.submitResult r.taskId r.output nowMs).2) s.om.jobs }
      handled := s.handled ++
        [⟨r, ((task.submitResult r).verify it).1,
          s.om.scheduler.workers[r.workerId]?.isSome⟩] } := by
  simp only [step, OmOrchestrator.submitResult, TaskScheduler.submitResult_of_known it h]

/-- What a result for a known task adds. -/
theorem submitResult_spec (it : Iteration (String × Nat))
    (h : s.om.scheduler.tasks r.taskId = some task) :
    (s.om.scheduler.submitResult it r).2.outputs =
      update s.om.scheduler.outputs r.taskId
        (s.om.scheduler.outputs r.taskId ++ [r.output]) ∧
    ∀ t taskType, s.om.scheduler.Typed t taskType →
      (s.om.scheduler.submitResult it r).2.Typed t taskType := by
  have hne : (task.submitResult r).results ≠ [] := List.concat_ne_nil r task.results
  obtain ⟨v, status, hverify, -⟩ := Task.verify_eq it hne
  rw [TaskScheduler.submitResult_of_known it h, hverify]
  constructor
  · funext t
    by_cases ht : t = r.taskId
    · subst ht
      rw [update_self, TaskScheduler.outputs_eq h,
        TaskScheduler.outputs_eq (update_self ..)]
      exact List.map_append
    · rw [update_of_ne ht, TaskScheduler.outputs, TaskScheduler.outputs]
      exact congrArg (fun o => (Option.elim o [] Task.results).map TaskResult.output)
        (update_of_ne ht _ _)
  · rintro t taskType ⟨task', htask', htype⟩
    by_cases ht : t = r.taskId
    · subst ht
      cases h.symm.trans htask'
      exact ⟨_, update_self .., htype⟩
    · exact ⟨task', (update_of_ne ht _ _).trans htask', htype⟩

theorem Inv.submitResult (h : Inv s) (it : Iteration (String × Nat)) (r : TaskResult)
    (nowMs : UInt64) :
    Inv (s.step (.submitResult it r nowMs)).2 := by
  cases htask : s.om.scheduler.tasks r.taskId with
  | none =>
    rw [step_of_unknown htask]
    exact h
  | some task =>
    obtain ⟨houtputs, htypes⟩ := submitResult_spec it htask
    rw [step_of_known it nowMs htask]
    refine ⟨h.scheduler.submitResult it r, fun n job hjob => ?_, fun n job hjob => ?_⟩ <;>
      rw [ExtTreeMap.getElem?_map] at hjob <;>
      obtain ⟨job', hjob', rfl⟩ := Option.map_eq_some_iff.mp hjob
    · exact h.fresh n job' hjob'
    · exact (h.job n job' hjob').submitResult houtputs htypes nowMs

theorem Inv.submitJob (h : Inv s) (kind : OmTaskKind) (submitter : UInt32) (nowMs : UInt64) :
    Inv (s.step (.submitJob kind submitter nowMs)).2 := by
  obtain ⟨hinv, hids, htypes, houtputs, hkept⟩ :=
    TaskScheduler.submitTasks_spec h.scheduler nowMs kind.taskTypes
  refine ⟨hinv, fun n job hjob => ?_, fun n job hjob => ?_⟩ <;>
    simp only [step, OmOrchestrator.submitJob, ExtTreeMap.getElem?_insert,
      LawfulEqCmp.compare_eq_iff_eq] at hjob <;>
    split_ifs at hjob with hn
  · exact hn ▸ Nat.lt_succ_self _
  · exact Nat.lt_succ_of_lt (h.fresh n job hjob)
  · cases hjob
    refine ⟨htypes, ?_, ?_, nofun⟩
    · rw [hids]
      exact List.nodup_range'
    · exact (List.flatMap_eq_nil_iff.mpr houtputs) ▸ .refl _
  · have hsame : ∀ t task, s.om.scheduler.tasks t = some task →
        (s.om.scheduler.submitTasks nowMs kind.taskTypes).2.tasks t = s.om.scheduler.tasks t :=
      fun t task htask => hkept t (h.scheduler.known t task htask)
    refine (h.job n job hjob).congr (fun t ht => ?_) fun t taskType htype => ?_
    · obtain ⟨task, htask⟩ := (h.job n job hjob).known ht
      exact congrArg (fun o => (Option.elim o [] Task.results).map TaskResult.output)
        (hsame t task htask)
    · obtain ⟨task, htask, htype⟩ := htype
      exact ⟨task, (hsame t task htask).trans htask, htype⟩

/-- A distribution changes no results and no types. -/
theorem distribute_spec (h : Inv s) (it : Iteration (UInt32 × WorkerInfo)) (nowMs : UInt64) :
    let s' := (s.om.scheduler.assignAll it nowMs s.om.scheduler.pending.length).2
    s'.outputs = s.om.scheduler.outputs ∧ ∀ t taskType, s.om.scheduler.Typed t taskType →
      s'.Typed t taskType := by
  obtain ⟨-, hassigned, hkept⟩ := TaskScheduler.assignAll_spec h.scheduler it nowMs le_rfl
  constructor
  · funext t
    by_cases ht : t ∈ s.om.scheduler.pending.take s.om.scheduler.availableWorkers
    · obtain ⟨a, ha⟩ := hassigned t ht
      rw [TaskScheduler.outputs, ha, TaskScheduler.outputs]
      cases s.om.scheduler.tasks t <;> rfl
    · rw [TaskScheduler.outputs, hkept t ht, TaskScheduler.outputs]
  · rintro t taskType ⟨task, htask, htype⟩
    by_cases ht : t ∈ s.om.scheduler.pending.take s.om.scheduler.availableWorkers
    · obtain ⟨a, ha⟩ := hassigned t ht
      exact ⟨task.assign a, by rw [ha, htask]; rfl, htype⟩
    · exact ⟨task, (hkept t ht).trans htask, htype⟩

theorem Inv.distribute (h : Inv s) (it : Iteration (UInt32 × WorkerInfo)) (nowMs : UInt64) :
    Inv (s.step (.distribute it nowMs)).2 := by
  obtain ⟨hinv, -⟩ := TaskScheduler.assignAll_spec h.scheduler it nowMs le_rfl
  obtain ⟨houtputs, htypes⟩ := distribute_spec h it nowMs
  refine ⟨hinv, fun n job hjob => ?_, fun n job hjob => ?_⟩ <;>
    simp only [step, OmOrchestrator.distribute, ExtTreeMap.getElem?_map] at hjob <;>
    obtain ⟨job', hjob', rfl⟩ := Option.map_eq_some_iff.mp hjob
  · exact h.fresh n job' hjob'
  · have hjobInv := (h.job n job' hjob').congr (fun t _ => congrFun houtputs t) htypes
    rcases OmJob.distribute_cases job'
      (s.om.scheduler.assignAll it nowMs s.om.scheduler.pending.length).1 with
      heq | ⟨-, heq⟩ <;> rw [heq]
    · exact hjobInv
    · exact ⟨hjobInv.types, hjobInv.nodup, hjobInv.results, nofun⟩

theorem Inv.step (h : Inv s) (c : OmCall) : Inv (s.step c).2 := by
  cases c with
  | registerNode nodeId =>
    exact ⟨h.scheduler.registerWorker nodeId, h.fresh,
      fun n job hjob => (h.job n job hjob).congr (fun _ _ => rfl) fun _ _ => id⟩
  | submitJob kind submitter nowMs => exact h.submitJob kind submitter nowMs
  | distribute it nowMs => exact h.distribute it nowMs
  | submitResult it r nowMs => exact h.submitResult it r nowMs

/-! ## What a completed job stands on -/

/-- A job whose tasks are left alone stays finished. -/
theorem Finished.congr {s' : OmSite} {job : OmJob} (h : s.Finished job)
    (hhandled : s.handled ⊆ s'.handled)
    (htasks : ∀ t ∈ job.taskIds, s'.om.scheduler.tasks t = s.om.scheduler.tasks t) :
      s'.Finished job where
  verified t ht := by
    rw [htasks t ht]
    exact h.verified t ht
  outputs := by
    obtain ⟨outputs, hperm, haccepted⟩ := h.outputs
    have hboth :=
      (List.forall₂_and_left _ _).mpr ⟨fun t (ht : t ∈ job.taskIds) => htasks t ht, haccepted⟩
    refine ⟨outputs, hperm, hboth.imp fun t output hand => ?_⟩
    obtain ⟨hsame, task, htask, r, hr, hout, e, he, haccepts⟩ := hand
    exact ⟨task, hsame.trans htask, r, hr, hout, e, hhandled he, haccepts⟩

theorem sound_registerNode (hsound : Sound s) (nodeId : UInt32) :
    Sound (s.step (.registerNode nodeId)).2 where
  finished n job hjob hstatus :=
    (hsound.finished n job hjob hstatus).congr (List.Subset.refl _) fun _ _ => rfl
  tokens := hsound.tokens

theorem sound_submitJob (h : Inv s) (hsound : Sound s) (kind : OmTaskKind) (submitter : UInt32)
    (nowMs : UInt64) :
    Sound (s.step (.submitJob kind submitter nowMs)).2 := by
  obtain ⟨-, -, -, -, hkept⟩ := TaskScheduler.submitTasks_spec h.scheduler nowMs kind.taskTypes
  constructor
  · intro n job hjob hstatus
    simp only [step, OmOrchestrator.submitJob, ExtTreeMap.getElem?_insert,
      LawfulEqCmp.compare_eq_iff_eq] at hjob
    split_ifs at hjob with hn
    · cases hjob
      cases hstatus
    · refine (hsound.finished n job hjob hstatus).congr (List.Subset.refl _) fun t ht => ?_
      obtain ⟨task, htask⟩ := (h.job n job hjob).known ht
      exact hkept t (h.scheduler.known t task htask)
  · have hnone : s.om.jobs[s.om.nextJobNum]? = none := by
      cases hjob : s.om.jobs[s.om.nextJobNum]? with
      | none => rfl
      | some job => exact absurd (h.fresh _ job hjob) (lt_irrefl _)
    have hinsert : ∀ job : OmJob, job.status = .submitted →
        OrdMap.sumBy paid (s.om.jobs.insert s.om.nextJobNum job) = OrdMap.sumBy paid s.om.jobs := by
      intro job hstatus
      have hadd := OrdMap.sumBy_insert paid s.om.jobs s.om.nextJobNum job
      have hpaid : paid job = 0 := if_neg (by rw [hstatus]; nofun)
      rwa [hnone, Option.elim_none, hpaid] at hadd
    exact hsound.tokens.trans (hinsert _ rfl).symm

theorem paid_distribute (job : OmJob) (assignments : List TaskAssignment) :
    paid (job.distribute assignments) = paid job := by
  rcases OmJob.distribute_cases job assignments with heq | ⟨hstatus, heq⟩ <;> rw [heq]
  rw [paid, paid, if_neg nofun, hstatus, if_neg nofun]

/-- An assigned task is not verified any more. -/
theorem sound_distribute (h : Inv s) (hsound : Sound s) (it : Iteration (UInt32 × WorkerInfo))
    (nowMs : UInt64) :
    Sound (s.step (.distribute it nowMs)).2 ↔ s.Timely (.distribute it nowMs) := by
  obtain ⟨-, hassigned, hkept⟩ := TaskScheduler.assignAll_spec h.scheduler it nowMs le_rfl
  have hjobs : ∀ n : Nat, (s.step (.distribute it nowMs)).2.om.jobs[n]? =
    (s.om.jobs[n]?).map fun job =>
      job.distribute (s.om.scheduler.assignAll it nowMs s.om.scheduler.pending.length).1 :=
    fun n => ExtTreeMap.getElem?_map
  constructor
  · intro hsound' t ht n job hjob hmem hstatus
    have hsame := OmJob.distribute_of_ne
      (s.om.scheduler.assignAll it nowMs s.om.scheduler.pending.length).1
        (show job.status ≠ .submitted by
        rw [hstatus]
        nofun)
    have hjob' := hjobs n
    rw [hjob, Option.map_some, hsame] at hjob'
    obtain ⟨task, htask, hverified⟩ := (hsound'.finished n job hjob' hstatus).verified t hmem
    obtain ⟨a, ha⟩ := hassigned t ht
    obtain ⟨task', -, rfl⟩ := Option.map_eq_some_iff.mp (ha.symm.trans htask)
    cases hverified
  · intro htimely
    refine ⟨fun n job hjob hstatus => ?_, ?_⟩
    · rw [hjobs] at hjob
      obtain ⟨job', hjob', rfl⟩ := Option.map_eq_some_iff.mp hjob
      rcases OmJob.distribute_cases job'
        (s.om.scheduler.assignAll it nowMs s.om.scheduler.pending.length).1 with
        heq | ⟨-, heq⟩ <;> rw [heq] at hstatus ⊢
      · refine (hsound.finished n job' hjob' hstatus).congr (List.Subset.refl _) fun t ht =>
          hkept t fun hmem => ?_
        exact htimely t hmem n job' hjob' ht hstatus
      · cases hstatus
    · refine hsound.tokens.trans ?_
      have hmap := OrdMap.sumBy_map paid
        (fun job =>
          job.distribute
          (s.om.scheduler.assignAll it nowMs s.om.scheduler.pending.length).1) s.om.jobs
      simp only [paid_distribute] at hmap
      exact hmap.symm

/-- A job that is completed by a result was a single task that is not verified, with no result yet.
-/
theorem timely_of_finished (h : Inv s) {s' : OmSite} (h' : Inv s') {n : Nat} {job job' : OmJob}
    (hjob : s.om.jobs[n]? = some job) (hjob' : s'.om.jobs[n]? = some job') {output : List UInt8}
    (hkind : job'.kind = job.kind) (hresults : job'.results = job.results ++ [output]) {t : TaskId}
    (ht : t ∈ job.taskIds) (hfinished : s'.Finished job') :
    job.results = [] ∧ job.kind.taskTypes = [.embarrassing] := by
  obtain ⟨outputs, hperm, haccepted⟩ := hfinished.outputs
  have hinv := h'.job n job' hjob'
  have htypes := hinv.types.length_eq
  have hcount : job'.results.length = job'.taskIds.length :=
    by rw [← hperm.length_eq, haccepted.length_eq]
  have hneeded := OmJob.needed_le h'.scheduler hinv.types hfinished.verified
  rw [← hinv.results.length_eq, hcount, htypes, hkind] at hneeded
  have hne : job.kind.taskTypes ≠ [] := by
    intro hnil
    have hlength := (h.job n job hjob).types.length_eq
    rw [hnil, List.length_nil] at hlength
    rw [List.length_eq_zero_iff.mp hlength] at ht
    cases ht
  have hsingle := OmJob.taskTypes_of_needed_le hneeded hne
  refine ⟨?_, hsingle⟩
  rw [hresults, htypes, hkind, hsingle, List.length_append, List.length_singleton,
    List.length_singleton] at hcount
  exact List.length_eq_zero_iff.mp (Nat.succ_injective hcount)

/-- The only task of a job that is not verified is finished by its first result. -/
theorem finished_of_single (h : Inv s) {n : Nat} {job : OmJob} (hjob : s.om.jobs[n]? = some job)
    (ht : r.taskId ∈ job.taskIds) (hsingle : job.kind.taskTypes = [.embarrassing])
    (htask : s.om.scheduler.tasks r.taskId = some task) {job' : OmJob}
      (hids : job'.taskIds = job.taskIds)
    (hresults : job'.results = [r.output]) (it : Iteration (String × Nat)) (nowMs : UInt64) :
    (s.step (.submitResult it r nowMs)).2.Finished job' ∧ job.taskIds = [r.taskId] := by
  have htypes := (h.job n job hjob).types
  rw [hsingle] at htypes
  obtain ⟨t, ids, ⟨task', htask', htype⟩, hnil, hcons⟩ := List.forall₂_cons_right_iff.mp htypes
  obtain rfl := List.forall₂_nil_right_iff.mp hnil
  rw [hcons] at ht
  obtain rfl := List.mem_singleton.mp ht
  cases htask.symm.trans htask'
  have hne : (task.submitResult r).results ≠ [] := List.concat_ne_nil r task.results
  have hverify :=
    Task.verify_embarrassing it (show (task.submitResult r).taskType = _ from htype) hne
  have hafter : (s.step (.submitResult it r nowMs)).2.om.scheduler.tasks r.taskId =
      some ((task.submitResult r).setStatus .verified) := by
    rw [step_of_known it nowMs htask, TaskScheduler.submitResult_of_known it htask, hverify]
    exact update_self ..
  refine ⟨⟨fun t ht => ?_, [r.output], by rw [hresults], ?_⟩, hcons⟩
  · rw [hids, hcons] at ht
    obtain rfl := List.mem_singleton.mp ht
    exact ⟨_, hafter, rfl⟩
  · rw [hids, hcons]
    refine .cons ⟨_, hafter, r, List.mem_concat_self, rfl, ?_⟩ .nil
    rw [step_of_known it nowMs htask, hverify]
    refine ⟨_, List.mem_concat_self, rfl, ?_⟩
    rw [Task.taskType_setStatus, Task.taskType_submitResult, htype]
    trivial

/-- A result that comes in time is for no completed job. -/
theorem Timely.not_completed (h : Inv s) (htimely : s.Timely (.submitResult it r nowMs))
    {n : Nat} {job : OmJob}
    (hjob : s.om.jobs[n]? = some job) (ht : r.taskId ∈ job.taskIds) : job.status ≠ .completed := by
  intro hstatus
  have hcomplete := (h.job n job hjob).complete hstatus
  rcases htimely n job hjob ht with hlt | ⟨hnil, -⟩
  · omega
  · rw [hnil, List.length_nil] at hcomplete
    exact absurd ht (List.length_eq_zero_iff.mp (Nat.le_zero.mp hcomplete) ▸ List.not_mem_nil)

theorem sound_submitResult (h : Inv s) (hsound : Sound s) (it : Iteration (String × Nat))
    (r : TaskResult)
    (nowMs : UInt64) : Sound (s.step (.submitResult it r nowMs)).2 ↔ s.Timely
      (.submitResult it r nowMs) := by
  cases htask : s.om.scheduler.tasks r.taskId with
  | none =>
    rw [step_of_unknown htask]
    refine iff_of_true hsound fun n job hjob ht => ?_
    obtain ⟨task, htask'⟩ := (h.job n job hjob).known ht
    cases htask.symm.trans htask'
  | some task =>
    have hstate := step_of_known it nowMs htask
    have hjobs : ∀ n : Nat, (s.step (.submitResult it r nowMs)).2.om.jobs[n]? =
      (s.om.jobs[n]?).map fun job =>
        (job.submitResult r.taskId r.output nowMs).1 := by
      rw [hstate]
      exact fun n => ExtTreeMap.getElem?_map
    have hinv := h.submitResult it r nowMs
    constructor
    · intro hsound' n job hjob ht
      rcases Nat.lt_or_ge (job.results.length + 1) job.taskIds.length with hlt | hle
      · exact .inl hlt
      · have hjob' := hjobs n
        rw [hjob, Option.map_some] at hjob'
        have hstatus : (job.submitResult r.taskId r.output nowMs).1.status = .completed := by
          rw [OmJob.submitResult_of_le ht hle]
        exact .inr (timely_of_finished h hinv hjob hjob' OmJob.kind_submitResult
          (OmJob.results_submitResult ht) ht
          (hsound'.finished n _ hjob' hstatus))
    · intro htimely
      refine ⟨fun n job hjob hstatus => ?_, ?_⟩
      · rw [hjobs] at hjob
        obtain ⟨job', hjob', rfl⟩ := Option.map_eq_some_iff.mp hjob
        by_cases ht : r.taskId ∈ job'.taskIds
        · rcases htimely n job' hjob' ht with hlt | ⟨hnil, hsingle⟩
          · rw [OmJob.submitResult_of_lt ht hlt] at hstatus
            cases hstatus
          · refine (finished_of_single h hjob' ht hsingle htask
              OmJob.taskIds_submitResult ?_ it nowMs).1
            rw [OmJob.results_submitResult ht, hnil, List.nil_append]
        · rw [OmJob.submitResult_of_notMem ht] at hstatus ⊢
          refine (hsound.finished n job' hjob' hstatus).congr ?_ fun t ht' => ?_
          · rw [hstate]
            exact List.subset_append_left ..
          · rw [hstate, TaskScheduler.submitResult_of_known it htask]
            exact update_of_ne (fun heq : t = r.taskId => ht (heq ▸ ht')) _ _
      · have hpaid : ∀ (n : Nat) (job : OmJob), s.om.jobs[n]? = some job →
            paid (job.submitResult r.taskId r.output nowMs).1 =
              paid job + (job.submitResult r.taskId r.output nowMs).2 := by
          intro n job hjob
          by_cases ht : r.taskId ∈ job.taskIds
          -- The job was open until now, so that nothing had been paid for it.
          · have hbefore : paid job = 0 := if_neg (htimely.not_completed h hjob ht)
            rcases Nat.lt_or_ge (job.results.length + 1) job.taskIds.length with hlt | hle
            · rw [OmJob.submitResult_of_lt ht hlt, hbefore]
              exact if_neg nofun
            · rw [OmJob.submitResult_of_le ht hle, hbefore, Nat.zero_add]
              exact if_pos rfl
          · rw [OmJob.submitResult_of_notMem ht]
            rfl
        rw [hstate]
        dsimp only
        rw [OrdMap.sumBy_map, OrdMap.sumBy_congr_add hpaid, hsound.tokens]

theorem sound_step (h : Inv s) (hsound : Sound s) (c : OmCall) : Sound (s.step c).2 ↔
    s.Timely c := by
  cases c with
  | registerNode nodeId => exact iff_of_true (sound_registerNode hsound nodeId) trivial
  | submitJob kind submitter nowMs =>
    exact iff_of_true (sound_submitJob h hsound kind submitter nowMs) trivial
  | distribute it nowMs => exact sound_distribute h hsound it nowMs
  | submitResult it r nowMs => exact sound_submitResult h hsound it r nowMs

/-! ## Completed jobs over time -/

theorem Lasting.refl (s : OmSite) : Lasting s s :=
  fun _ job hjob hstatus => ⟨job, hjob, hstatus, rfl⟩

theorem Lasting.trans {s₁ s₂ s₃ : OmSite} (h : Lasting s₁ s₂) (h' : Lasting s₂ s₃) :
    Lasting s₁ s₃ := by
  intro n job hjob hstatus
  obtain ⟨job', hjob', hstatus', htime⟩ := h n job hjob hstatus
  obtain ⟨job'', hjob'', hstatus'', htime'⟩ := h' n job' hjob' hstatus'
  exact ⟨job'', hjob'', hstatus'', htime'.trans htime⟩

theorem lasting_step (h : Inv s) {c : OmCall} (htimely : s.Timely c) : Lasting s (s.step c).2 := by
  intro n job hjob hstatus
  cases c with
  | registerNode nodeId => exact ⟨job, hjob, hstatus, rfl⟩
  | submitJob kind submitter nowMs =>
    have hne : s.om.nextJobNum ≠ n := (h.fresh n job hjob).ne'
    refine ⟨job, ?_, hstatus, rfl⟩
    simp only [step, OmOrchestrator.submitJob, ExtTreeMap.getElem?_insert,
      LawfulEqCmp.compare_eq_iff_eq]
    rw [if_neg hne, hjob]
  | distribute it nowMs =>
    have hsame := OmJob.distribute_of_ne
      (s.om.scheduler.assignAll it nowMs s.om.scheduler.pending.length).1
        (show job.status ≠ .submitted by
        rw [hstatus]
        nofun)
    refine ⟨job, ?_, hstatus, rfl⟩
    simp only [step, OmOrchestrator.distribute, ExtTreeMap.getElem?_map]
    rw [hjob, Option.map_some, hsame]
  | submitResult it r nowMs =>
    cases htask : s.om.scheduler.tasks r.taskId with
    | none =>
      rw [step_of_unknown htask]
      exact ⟨job, hjob, hstatus, rfl⟩
    | some task =>
      have hnot : r.taskId ∉ job.taskIds := fun ht => htimely.not_completed h hjob ht hstatus
      refine ⟨job, ?_, hstatus, rfl⟩
      rw [step_of_known it nowMs htask]
      simp only [ExtTreeMap.getElem?_map]
      rw [hjob, Option.map_some, OmJob.submitResult_of_notMem hnot]

/-! ## Runs -/

theorem sound_start : Sound start where
  finished n job h := by
    rw [show (start.om.jobs : OrdMap Nat OmJob) = ∅ from rfl, ExtTreeMap.getElem?_empty] at h
    cases h
  tokens := rfl

/-- The completed jobs are done, and stay completed, in exactly the timely runs. -/
theorem completed_iff (calls : List OmCall) :
    ((∀ done, done <+: calls → Sound (Machine.after step start done)) ∧
      ∀ done later, done ++ later <+: calls →
        Lasting (Machine.after step start done) (Machine.after step start (done ++ later))) ↔
    ∀ done c, done ++ [c] <+: calls → (Machine.after step start done).Timely c := by
  have hinv : ∀ done, Inv (Machine.after step start done) :=
    Machine.after_invariant (I := Inv) (fun _ c h => h.step c) inv_start
  have hsound := Machine.invariant_iff (I := Inv) (P := Sound) (Q := Timely) (fun _ c h => h.step c)
    (fun _ c h hsound => sound_step h hsound c) inv_start sound_start calls
  rw [← hsound]
  refine and_iff_left_of_imp fun hall done later hlater => ?_
  have htimely := hsound.mp hall
  induction later using List.reverseRecOn with
  | nil =>
    rw [List.append_nil]
    exact .refl _
  | append_singleton later c ih =>
    rw [← List.append_assoc] at hlater ⊢
    have hbefore := ih ((List.prefix_append _ [c]).trans hlater)
    rw [Machine.after_concat]
    exact hbefore.trans (lasting_step (hinv _) (htimely _ c hlater))

namespace Demo

/-- A job for a GPU, whose single task has two replicas. -/
def hurried : List OmCall :=
  [.submitJob (.gpuCompute 100) 1 0, .submitResult .forward ⟨1, 7, [0], 5, "h"⟩ 10]

/-- One result completes it, from no matter whom. -/
theorem completed_early : ¬ ∀ (calls : List OmCall) (done : List OmCall), done <+: calls →
    Sound (Machine.after step start done) := by
  intro hsound
  have hjob : ∃ job, (Machine.after step start hurried).om.jobs[1]? = some job ∧
    job.status = .completed ∧
      1 ∈ job.taskIds := ⟨_, rfl, rfl, by decide⟩
  obtain ⟨job, hjob, hstatus, hmem⟩ := hjob
  have htask : ∃ task, (Machine.after step start hurried).om.scheduler.tasks 1 = some task ∧
      task.status = .pending := ⟨_, rfl, rfl⟩
  obtain ⟨task, htask, hpending⟩ := htask
  obtain ⟨task', htask', hverified⟩ :=
    ((hsound hurried hurried List.prefix_rfl).finished 1 job hjob hstatus).verified 1
    hmem
  cases htask.symm.trans htask'
  cases hpending.symm.trans hverified

end Demo

end OmSite

end P2P333.Platform333.Compute
