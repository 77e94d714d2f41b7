import P2P333.Platform333.Compute.Scheduler

/-!
# Earned tokens

What the tokens of `333-platform/src/compute/scheduler.rs` are paid for. Every result that comes in
for a known task is verified with the ones before it, and when that succeeds its worker gets a
token, whoever it is and whatever its result was.

Results:
1. `earned_handled`: what a result has to meet for the tokens to be earned.
2. `earned_iff`: they are earned in exactly the runs with such results.
-/

namespace P2P333.Platform333.Compute

open Std Lib Function

/-! ## Results that were handled -/

/-- A result for a known task, with its verdict and whether its worker was registered. -/
structure Handled where
  result : TaskResult
  verdict : VerifyResult
  registered : Bool
deriving DecidableEq

/-- The worker got a token. -/
def Handled.Paid (e : Handled) : Prop := e.registered = true ∧ e.verdict.Success

instance (e : Handled) : Decidable e.Paid := inferInstanceAs (Decidable (_ ∧ _))

/-- The workers that handed in the hash. -/
def submitters (results : List TaskResult) (hash : String) : Finset UInt32 :=
  ((results.filter (·.outputHash == hash)).map (·.workerId)).toFinset

/-- The verdict accepts the hash for a task of the type. Without a verification it accepts any. -/
def TaskType.Accepts : TaskType → VerifyResult → String → Prop
  | .embarrassing, .noVerificationNeeded, _ => True
  | .quorum _, .quorumAgreed agreedHash _, hash => hash = agreedHash
  | .canary expectedHash, .canaryPassed, hash => hash = expectedHash
  | _, _, _ => False

/-- A scheduler with the results that it has handled. -/
structure Site where
  scheduler : TaskScheduler
  handled : List Handled

namespace Site

def start : Site := ⟨.new, []⟩

def entry (s : Site) (r : TaskResult) (verdict : VerifyResult) : Handled :=
  ⟨r, verdict, s.scheduler.workers[r.workerId]?.isSome⟩

def step (s : Site) (c : Call) : Unit × Site :=
  let r := s.scheduler.step c
  ((), ⟨r.2, match c, r.1 with
    | .submitResult _ result, .handled (some verdict) => s.handled ++ [s.entry result verdict]
    | _, _ => s.handled⟩)

/-- The tasks of the tokens of the worker. -/
def credits (s : Site) (w : UInt32) : List TaskId :=
  (s.handled.filter fun e => e.Paid ∧ e.result.workerId = w).map (·.result.taskId)

/-- The task of the token was assigned to the worker, which handed in a result with the accepted
hash. -/
def Backed (s : Site) (e : Handled) : Prop :=
  ∃ task, s.scheduler.tasks e.result.taskId = some task ∧
    (∃ a ∈ task.assignments, a.workerId = e.result.workerId) ∧
    ∃ r ∈ task.results, r.workerId = e.result.workerId ∧
      task.taskType.Accepts e.verdict r.outputHash

/-- More than half of the replicas, as different workers, handed in the agreed hash. -/
def Majority (s : Site) (e : Handled) : Prop :=
  ∀ task replicas agreedHash agreeCount, s.scheduler.tasks e.result.taskId = some task →
    task.taskType = .quorum replicas → e.verdict = .quorumAgreed agreedHash agreeCount →
    replicas.toNat < 2 * (submitters task.results agreedHash).card

/-- Every worker has as many tokens as it has tasks that it was paid for, each of them just once and
for its work. A Quorum task is verified by a majority. -/
structure Earned (s : Site) : Prop where
  tokens : ∀ (w : UInt32) (info : WorkerInfo), s.scheduler.workers[w]? = some info →
    info.tokensEarned = (s.credits w).length
  different : ∀ w, (s.credits w).Nodup
  backed : ∀ e ∈ s.handled, e.Paid → s.Backed e
  majority : ∀ e ∈ s.handled, s.Majority e
  agreed : ∀ t task replicas, s.scheduler.tasks t = some task → task.taskType = .quorum replicas →
    task.status = .verified → ∃ e ∈ s.handled, e.result.taskId = t ∧
      ∃ agreedHash agreeCount, e.verdict = .quorumAgreed agreedHash agreeCount

/-- The worker was assigned the task and has had no token for it. -/
def Due (s : Site) (task : Task) (r : TaskResult) : Prop :=
  r.taskId ∉ s.credits r.workerId ∧ ∃ a ∈ task.assignments, a.workerId = r.workerId

/-- When the results of the task pass with the new one, its worker is due a token, and one of its
own results has the hash that they pass with. A most frequent hash that reaches half of the replicas
comes from different workers that are more than half of them. -/
def Meets (s : Site) (it : Iteration (String × Nat)) (r : TaskResult) (task : Task) : Prop :=
  let results := task.results ++ [r]
  let registered := s.scheduler.workers[r.workerId]?.isSome = true
  match task.taskType with
  | .embarrassing => registered → s.Due task r
  | .quorum replicas => ∀ hash count, replicas.toNat ≤ results.length →
    mostFrequent it results = some (hash, count) → divCeil replicas.toNat 2 ≤ count →
    replicas.toNat < 2 * (submitters results hash).card ∧
      (registered → s.Due task r ∧ ∃ r' ∈ results, r'.workerId = r.workerId ∧ r'.outputHash = hash)
  | .canary expectedHash => results.head?.map (·.outputHash) = some expectedHash → registered →
    s.Due task r ∧ ∃ r' ∈ results, r'.workerId = r.workerId ∧ r'.outputHash = expectedHash

/-- Every result for a known task meets what its token stands for. -/
def Supplied (s : Site) : Call → Prop
  | .submitResult it r => ∀ task, s.scheduler.tasks r.taskId = some task → s.Meets it r task
  | _ => True

variable {s : Site} {r : TaskResult} {task : Task} {it : Iteration (String × Nat)}

/-! ## What is always so -/

structure Inv (s : Site) : Prop where
  scheduler : s.scheduler.Inv
  known : ∀ e ∈ s.handled, ∃ task, s.scheduler.tasks e.result.taskId = some task
  tokens : ∀ (w : UInt32) (info : WorkerInfo), s.scheduler.workers[w]? = some info →
    info.tokensEarned = (s.credits w).length
  unregistered : ∀ (w : UInt32), s.scheduler.workers[w]? = none → s.credits w = []
  agreed : ∀ t task replicas, s.scheduler.tasks t = some task → task.taskType = .quorum replicas →
    task.status = .verified → ∃ e ∈ s.handled, e.result.taskId = t ∧
      ∃ agreedHash agreeCount, e.verdict = .quorumAgreed agreedHash agreeCount

theorem inv_start : Inv start where
  scheduler := TaskScheduler.inv_new
  known := nofun
  tokens w info h := by
    rw [show (start.scheduler.workers : OrdMap UInt32 WorkerInfo) = ∅ from rfl,
      ExtTreeMap.getElem?_empty] at h
    cases h
  unregistered _ _ := rfl
  agreed := nofun

/-- The state after a result for a known task. -/
def handledState (s : Site) (it : Iteration (String × Nat)) (r : TaskResult) (task : Task) : Site :=
  ⟨(s.scheduler.submitResult it r).2, s.handled ++ [s.entry r ((task.submitResult r).verify it).1]⟩

theorem step_of_known (h : s.scheduler.tasks r.taskId = some task) :
    (s.step (.submitResult it r)).2 = s.handledState it r task := by
  simp only [step, TaskScheduler.step, handledState, TaskScheduler.submitResult_of_known it h]

theorem step_of_unknown (h : s.scheduler.tasks r.taskId = none) :
    (s.step (.submitResult it r)).2 = s := by
  simp only [step, TaskScheduler.step, TaskScheduler.submitResult_of_unknown it h]

theorem credits_append (s : Site) (scheduler : TaskScheduler) (e : Handled) (w : UInt32) :
    (Site.mk scheduler (s.handled ++ [e])).credits w =
      s.credits w ++ if e.Paid ∧ e.result.workerId = w then [e.result.taskId] else [] := by
  simp only [credits, List.filter_append, List.map_append]
  congr 1
  by_cases h : e.Paid ∧ e.result.workerId = w
  · simp only [h, and_self, decide_true, List.filter_cons_of_pos, List.filter_nil,
      List.map_singleton, if_true]
  · simp only [h, decide_false, List.filter_cons, List.filter_nil, Bool.false_eq_true,
      if_false, List.map_nil]

/-- A quorum task with enough results is verified only by an agreement. -/
theorem quorumAgreed_of_verified {it : Iteration (String × Nat)} {replicas : UInt32}
    (hne : task.results ≠ []) (htype : task.taskType = .quorum replicas)
    (hlength : task.taskType.needed ≤ task.results.length)
    (hverified : (task.verify it).2.status = .verified) :
    ∃ agreedHash agreeCount, (task.verify it).1 = .quorumAgreed agreedHash agreeCount := by
  obtain ⟨v, status, hverify, -, hfailure, hdecided, -⟩ := Task.verify_eq it hne
  rw [hverify] at hverified ⊢
  have hv : v.Success := by
    refine (hdecided hlength).resolve_right fun hv => ?_
    rw [Task.status_setStatus, hfailure hv] at hverified
    cases hverified
  obtain ⟨⟨hash, count⟩, hfrequent⟩ :=
    Option.ne_none_iff_exists'.mp (mostFrequent_ne_none it hne)
  rw [htype] at hlength
  rw [Task.verify_quorum htype hlength hfrequent] at hverify
  split_ifs at hverify
  · obtain ⟨rfl, -⟩ := Prod.mk.inj hverify
    exact ⟨hash, count, rfl⟩
  · obtain ⟨rfl, -⟩ := Prod.mk.inj hverify
    exact hv.elim

theorem Inv.handled (h : Inv s) (htask : s.scheduler.tasks r.taskId = some task) :
    Inv (s.handledState it r task) := by
  have hne : (task.submitResult r).results ≠ [] := List.concat_ne_nil r task.results
  have hscheduler := h.scheduler.submitResult it r
  have hstate := TaskScheduler.submitResult_of_known it htask
  refine ⟨hscheduler, ?_, ?_, ?_, ?_⟩
  · intro e he
    have hbefore : ∃ task', s.scheduler.tasks e.result.taskId = some task' := by
      rcases List.mem_append.mp he with he | he
      · exact h.known e he
      · obtain rfl := List.mem_singleton.mp he
        exact ⟨task, htask⟩
    obtain ⟨task', htask'⟩ := hbefore
    exact (TaskScheduler.step_extends h.scheduler (.submitResult it r) htask').imp
      fun _ hafter => hafter.1
  · intro w info hworker
    simp only [handledState, hstate, TaskScheduler.getElem?_modify] at hworker
    rw [handledState, credits_append, List.length_append]
    -- Only the worker of the result may have been paid.
    split_ifs at hworker with hw
    · subst hw
      obtain ⟨info', hinfo', rfl⟩ := Option.map_eq_some_iff.mp hworker
      have hregistered : s.scheduler.workers[r.workerId]?.isSome = true := by rw [hinfo']; rfl
      rw [WorkerInfo.tokensEarned_report, h.tokens _ info' hinfo']
      congr 1
      split_ifs with hsuccess hpaid hpaid
      · rfl
      · exact absurd ⟨⟨hregistered, hsuccess⟩, rfl⟩ hpaid
      · exact absurd hpaid.1.2 hsuccess
      · rfl
    · rw [h.tokens w info hworker, if_neg fun hpaid => hw hpaid.2]
      rfl
  · intro w hworker
    simp only [handledState, hstate, TaskScheduler.getElem?_modify] at hworker
    have hbefore : s.scheduler.workers[w]? = none := by
      split_ifs at hworker with hw
      · subst hw
        exact Option.map_eq_none_iff.mp hworker
      · exact hworker
    rw [handledState, credits_append, h.unregistered w hbefore, if_neg, List.append_nil]
    rintro ⟨⟨hregistered, -⟩, hw⟩
    have hsome : s.scheduler.workers[r.workerId]?.isSome = true := hregistered
    rw [show s.scheduler.workers[r.workerId]? = none from hw ▸ hbefore] at hsome
    cases hsome
  · rw [handledState, hstate]
    refine (forall_update_iff s.scheduler.tasks fun t o => ∀ task' replicas,
      o = some task' →
      task'.taskType = .quorum replicas → task'.status = .verified →
      ∃ e ∈ s.handled ++ [s.entry r ((task.submitResult r).verify it).1], e.result.taskId = t ∧
        ∃ agreedHash agreeCount, e.verdict = .quorumAgreed agreedHash agreeCount).mpr ⟨?_, ?_⟩
    · rintro _ replicas ⟨⟩ htype hverified
      obtain ⟨v, status, hverify, -, -, -, hinsufficient⟩ := Task.verify_eq it hne
      by_cases hlength :
        (task.submitResult r).taskType.needed ≤ (task.submitResult r).results.length
      · have hquorum : (task.submitResult r).taskType = .quorum replicas := by
          rw [hverify] at htype
          exact htype
        exact ⟨_, List.mem_concat_self, rfl,
          quorumAgreed_of_verified hne hquorum hlength hverified⟩
      · rw [hverify] at htype hverified ⊢
        obtain ⟨-, rfl⟩ := hinsufficient (Nat.not_le.mp hlength)
        obtain ⟨e, he, hresult⟩ := h.agreed _ task replicas htask htype hverified
        exact ⟨e, List.mem_append_left _ he, hresult⟩
    · intro t _ task' replicas htask' htype hverified
      obtain ⟨e, he, hresult⟩ := h.agreed t task' replicas htask' htype hverified
      exact ⟨e, List.mem_append_left _ he, hresult⟩

/-- Another call hands out no token and verifies no task. -/
theorem Inv.other (h : Inv s) {c : Call} (hhandled : (s.step c).2.handled = s.handled)
    (hworkers : ∀ (w : UInt32) (info : WorkerInfo), (s.step c).2.scheduler.workers[w]? = some info →
      info.tokensEarned = (s.credits w).length)
    (hunregistered : ∀ (w : UInt32), (s.step c).2.scheduler.workers[w]? = none →
      s.scheduler.workers[w]? = none)
    (hverified : ∀ t task, (s.step c).2.scheduler.tasks t = some task → task.status = .verified →
      s.scheduler.tasks t = some task) : Inv (s.step c).2 where
  scheduler := h.scheduler.step c
  known e he := by
    rw [hhandled] at he
    obtain ⟨task, htask⟩ := h.known e he
    exact (TaskScheduler.step_extends h.scheduler c htask).imp fun _ hafter => hafter.1
  tokens w info hworker := by
    rw [show (s.step c).2.credits w = s.credits w by rw [credits, hhandled, credits]]
    exact hworkers w info hworker
  unregistered w hworker := by
    rw [show (s.step c).2.credits w = s.credits w by rw [credits, hhandled, credits]]
    exact h.unregistered w (hunregistered w hworker)
  agreed t task replicas htask htype hstatus := by
    rw [hhandled]
    exact h.agreed t task replicas (hverified t task htask hstatus) htype hstatus

theorem Inv.registerWorker (h : Inv s) (nodeId : UInt32) :
    Inv (s.step (.registerWorker nodeId)).2 := by
  refine h.other rfl (fun w info hworker => ?_) (fun w hworker => ?_) fun _ _ htask _ => htask
  · have hafter : (s.scheduler.registerWorker nodeId).workers[w]? = some info := hworker
    rw [TaskScheduler.getElem?_registerWorker] at hafter
    split_ifs at hafter with hw
    · cases hbefore : s.scheduler.workers[w]? with
      | none =>
        rw [hbefore] at hafter
        cases hafter
        rw [h.unregistered w hbefore]
        rfl
      | some info' =>
        rw [hbefore] at hafter
        cases hafter
        exact h.tokens w _ hbefore
    · exact h.tokens w info hafter
  · have hafter : (s.scheduler.registerWorker nodeId).workers[w]? = none := hworker
    rw [TaskScheduler.getElem?_registerWorker] at hafter
    split_ifs at hafter
    exact hafter

theorem Inv.submitTask (h : Inv s) (taskType : TaskType) (nowMs : UInt64) :
    Inv (s.step (.submitTask taskType nowMs)).2 := by
  refine h.other rfl h.tokens (fun _ => id) ?_
  refine (forall_update_iff s.scheduler.tasks fun t o => ∀ task, o = some task →
    task.status = .verified →
    s.scheduler.tasks t = some task).mpr ⟨?_, fun t _ _ htask _ => htask⟩
  rintro _ ⟨⟩ hstatus
  cases hstatus

theorem Inv.assignNext (h : Inv s) (it : Iteration (UInt32 × WorkerInfo)) (nowMs : UInt64) :
    Inv (s.step (.assignNext it nowMs)).2 := by
  have hstate : (s.step (.assignNext it nowMs)).2.scheduler = (s.scheduler.assignNext it nowMs).2 :=
    rfl
  have hcases := TaskScheduler.assignNext_cases s.scheduler it nowMs
  refine h.other rfl ?_ ?_ ?_ <;> rw [hstate] <;>
    rcases hcases with ⟨-, heq⟩ | ⟨t, rest, -, ⟨-, heq⟩ | ⟨w, -, heq⟩⟩ <;> rw [heq]
  · exact h.tokens
  · exact h.tokens
  · intro k info hworker
    rw [TaskScheduler.getElem?_modify] at hworker
    split_ifs at hworker with hk
    · subst hk
      obtain ⟨info', hinfo', rfl⟩ := Option.map_eq_some_iff.mp hworker
      exact h.tokens _ info' hinfo'
    · exact h.tokens k info hworker
  · exact fun _ => id
  · exact fun _ => id
  · intro k hworker
    rw [TaskScheduler.getElem?_modify] at hworker
    split_ifs at hworker with hk
    · subst hk
      exact Option.map_eq_none_iff.mp hworker
    · exact hworker
  · exact fun _ _ htask _ => htask
  · exact fun _ _ htask _ => htask
  · refine (forall_update_iff s.scheduler.tasks fun t o => ∀ task, o = some task →
      task.status = .verified →
      s.scheduler.tasks t = some task).mpr ⟨fun task htask hstatus => ?_,
        fun t _ _ htask _ => htask⟩
    obtain ⟨task', -, rfl⟩ := Option.map_eq_some_iff.mp htask
    cases hstatus

theorem Inv.step (h : Inv s) (c : Call) : Inv (s.step c).2 := by
  cases c with
  | registerWorker nodeId => exact h.registerWorker nodeId
  | submitTask taskType nowMs => exact h.submitTask taskType nowMs
  | assignNext it nowMs => exact h.assignNext it nowMs
  | submitResult it r =>
    cases htask : s.scheduler.tasks r.taskId with
    | none =>
      rw [step_of_unknown htask]
      exact h
    | some task =>
      rw [step_of_known htask]
      exact h.handled htask

/-! ## What a result has to meet -/

/-- What was earned stays earned. -/
theorem Backed.step (h : Inv s) (c : Call) {e : Handled} (hbacked : s.Backed e) :
    (s.step c).2.Backed e := by
  obtain ⟨task, htask, ⟨a, ha, hworker⟩, r, hr, hresult, haccepts⟩ := hbacked
  obtain ⟨task', htask', hextends⟩ := TaskScheduler.step_extends h.scheduler c htask
  refine ⟨task', htask', ⟨a, hextends.assignments ha, hworker⟩, r, hextends.results hr, hresult, ?_⟩
  rwa [hextends.taskType]

theorem submitters_mono {results results' : List TaskResult} (h : results ⊆ results')
    (hash : String) :
    submitters results hash ⊆ submitters results' hash := by
  intro w hw
  simp only [submitters, List.mem_toFinset, List.mem_map, List.mem_filter] at hw ⊢
  exact hw.imp fun r hr => ⟨⟨h hr.1.1, hr.1.2⟩, hr.2⟩

theorem Majority.step (h : Inv s) (c : Call) {e : Handled} (he : e ∈ s.handled)
    (hmajority : s.Majority e) :
    (s.step c).2.Majority e := by
  intro task' replicas agreedHash agreeCount htask' htype hverdict
  obtain ⟨task, htask⟩ := h.known e he
  obtain ⟨task'', htask'', hextends⟩ := TaskScheduler.step_extends h.scheduler c htask
  cases htask'.symm.trans htask''
  have hbefore :=
    hmajority task replicas agreedHash agreeCount htask (hextends.taskType ▸ htype) hverdict
  have hcard := Finset.card_le_card (submitters_mono hextends.results agreedHash)
  omega

/-- The tokens stay earned when the new result meets what they stand for. -/
theorem earned_handled (h : Inv s) (hearned : Earned s)
    (htask : s.scheduler.tasks r.taskId = some task)
    {e : Handled} (he : s.entry r ((task.submitResult r).verify it).1 = e) :
    Earned (s.handledState it r task) ↔
      (e.Paid → r.taskId ∉ s.credits r.workerId ∧ (s.handledState it r task).Backed e) ∧
        (s.handledState it r task).Majority e := by
  have hinv : Inv (s.handledState it r task) := h.handled htask
  have hstep : (s.step (.submitResult it r)).2 = s.handledState it r task := step_of_known htask
  subst he
  constructor
  · intro hafter
    refine ⟨fun hpaid => ⟨?_, hafter.backed _ List.mem_concat_self hpaid⟩,
      hafter.majority _ List.mem_concat_self⟩
    have hdifferent := hafter.different r.workerId
    rw [handledState, credits_append, if_pos ⟨hpaid, rfl⟩] at hdifferent
    exact fun hmem => List.disjoint_of_nodup_append hdifferent hmem (List.mem_singleton_self _)
  · rintro ⟨hpaid, hmajority⟩
    refine ⟨hinv.tokens, fun w => ?_, fun e' he' hpaid' => ?_, fun e' he' => ?_, hinv.agreed⟩
    · rw [handledState, credits_append]
      split_ifs with hnew
      · obtain ⟨hpaid', rfl⟩ := hnew
        have hnodup := (hearned.different _).concat (hpaid hpaid').1
        rwa [List.concat_eq_append] at hnodup
      · rw [List.append_nil]
        exact hearned.different w
    · rcases List.mem_append.mp he' with he' | he'
      · exact hstep ▸ (hearned.backed e' he' hpaid').step h _
      · obtain rfl := List.mem_singleton.mp he'
        exact (hpaid hpaid').2
    · rcases List.mem_append.mp he' with he' | he'
      · exact hstep ▸ (hearned.majority e' he').step h _ he'
      · obtain rfl := List.mem_singleton.mp he'
        exact hmajority

theorem tasks_handledState (it : Iteration (String × Nat))
    (htask : s.scheduler.tasks r.taskId = some task) :
    ∃ status, (s.handledState it r task).scheduler.tasks r.taskId = some
      ((task.submitResult r).setStatus status) := by
  have hne : (task.submitResult r).results ≠ [] := List.concat_ne_nil r task.results
  obtain ⟨v, status, hverify, -⟩ := Task.verify_eq it hne
  refine ⟨status, ?_⟩
  rw [handledState, TaskScheduler.submitResult_of_known it htask]
  exact (update_self ..).trans (congrArg (fun p => some p.2) hverify)

theorem backed_handled {v : VerifyResult} (htask : s.scheduler.tasks r.taskId = some task) :
    (s.handledState it r task).Backed (s.entry r v) ↔
      (∃ a ∈ task.assignments, a.workerId = r.workerId) ∧
      ∃ r' ∈ task.results ++ [r], r'.workerId = r.workerId ∧
        task.taskType.Accepts v r'.outputHash := by
  obtain ⟨status, hafter⟩ := tasks_handledState it htask
  constructor
  · rintro ⟨task', htask', hbacked⟩
    cases hafter.symm.trans htask'
    exact hbacked
  · exact fun hbacked => ⟨_, hafter, hbacked⟩

theorem majority_handled {v : VerifyResult} (htask : s.scheduler.tasks r.taskId = some task) :
    (s.handledState it r task).Majority (s.entry r v) ↔ ∀ replicas agreedHash agreeCount,
      task.taskType = .quorum replicas → v = .quorumAgreed agreedHash agreeCount →
      replicas.toNat < 2 * (submitters (task.results ++ [r]) agreedHash).card := by
  obtain ⟨status, hafter⟩ := tasks_handledState it htask
  constructor
  · exact fun hmajority replicas agreedHash agreeCount =>
      hmajority _ replicas agreedHash agreeCount hafter
  · intro hmajority task' replicas agreedHash agreeCount htask'
    cases hafter.symm.trans htask'
    exact hmajority replicas agreedHash agreeCount

theorem earned_meets_embarrassing (h : Inv s) (hearned : Earned s) (it : Iteration (String × Nat))
    (htask : s.scheduler.tasks r.taskId = some task) (htype : task.taskType = .embarrassing) :
    Earned (s.handledState it r task) ↔ s.Meets it r task := by
  have hverify := Task.verify_embarrassing it
    (show (task.submitResult r).taskType = _ from htype) (List.concat_ne_nil r task.results)
  rw [earned_handled h hearned htask (congrArg (fun p => s.entry r p.1) hverify),
    backed_handled htask, majority_handled htask]
  unfold Meets
  rw [htype]
  dsimp only
  constructor
  · intro hnew hregistered
    obtain ⟨hunpaid, hassigned, -⟩ := hnew.1 ⟨hregistered, trivial⟩
    exact ⟨hunpaid, hassigned⟩
  · intro hdue
    refine ⟨fun hpaid => ?_, nofun⟩
    obtain ⟨hunpaid, hassigned⟩ := hdue hpaid.1
    exact ⟨hunpaid, hassigned, r, List.mem_concat_self, rfl, trivial⟩

theorem earned_meets_canary (h : Inv s) (hearned : Earned s) (it : Iteration (String × Nat))
    (htask : s.scheduler.tasks r.taskId = some task) {expectedHash : String}
    (htype : task.taskType = .canary expectedHash) :
    Earned (s.handledState it r task) ↔ s.Meets it r task := by
  have hne : (task.submitResult r).results ≠ [] := List.concat_ne_nil r task.results
  obtain ⟨first, hfirst⟩ := Option.ne_none_iff_exists'.mp (mt List.head?_eq_none_iff.mp hne)
  have hverify :=
    Task.verify_canary it (show (task.submitResult r).taskType = _ from htype) hfirst
  have hhead : (task.results ++ [r]).head? = some first := hfirst
  unfold Meets
  split_ifs at hverify with hexpected
  · rw [earned_handled h hearned htask (congrArg (fun p => s.entry r p.1) hverify),
      backed_handled htask, majority_handled htask, htype]
    dsimp only
    rw [hhead]
    constructor
    · intro hnew _ hregistered
      obtain ⟨hunpaid, hassigned, hsubmitted⟩ := hnew.1 ⟨hregistered, trivial⟩
      exact ⟨⟨hunpaid, hassigned⟩, hsubmitted⟩
    · intro hmeets
      refine ⟨fun hpaid => ?_, nofun⟩
      obtain ⟨⟨hunpaid, hassigned⟩, hsubmitted⟩ := hmeets (congrArg some hexpected) hpaid.1
      exact ⟨hunpaid, hassigned, hsubmitted⟩
  · rw [earned_handled h hearned htask (congrArg (fun p => s.entry r p.1) hverify),
      majority_handled htask, htype]
    dsimp only
    rw [hhead]
    refine iff_of_true ⟨fun hpaid => hpaid.2.elim, nofun⟩ fun hhash => ?_
    exact absurd (Option.some.inj hhash) hexpected

theorem earned_meets_quorum (h : Inv s) (hearned : Earned s) (it : Iteration (String × Nat))
    (htask : s.scheduler.tasks r.taskId = some task) {replicas : UInt32}
    (htype : task.taskType = .quorum replicas) :
    Earned (s.handledState it r task) ↔ s.Meets it r task := by
  have hne : (task.submitResult r).results ≠ [] := List.concat_ne_nil r task.results
  unfold Meets
  by_cases hlength : replicas.toNat ≤ (task.submitResult r).results.length
  · obtain ⟨⟨hash, count⟩, hfrequent⟩ :=
      Option.ne_none_iff_exists'.mp (mostFrequent_ne_none it hne)
    have hverify :=
      Task.verify_quorum (show (task.submitResult r).taskType = _ from htype) hlength hfrequent
    have hmost : mostFrequent it (task.results ++ [r]) = some (hash, count) := hfrequent
    split_ifs at hverify with hthreshold
    · rw [earned_handled h hearned htask (congrArg (fun p => s.entry r p.1) hverify),
        backed_handled htask, majority_handled htask, htype]
      dsimp only
      rw [hmost]
      constructor
      · rintro ⟨hpaid, hmajority⟩ _ _ - ⟨⟩ -
        refine ⟨hmajority replicas hash count rfl rfl, fun hregistered => ?_⟩
        obtain ⟨hunpaid, hassigned, hsubmitted⟩ := hpaid ⟨hregistered, trivial⟩
        exact ⟨⟨hunpaid, hassigned⟩, hsubmitted⟩
      · intro hmeets
        obtain ⟨hmajority, hdue⟩ := hmeets hash count hlength rfl hthreshold
        refine ⟨fun hpaid => ?_, ?_⟩
        · obtain ⟨⟨hunpaid, hassigned⟩, hsubmitted⟩ := hdue hpaid.1
          exact ⟨hunpaid, hassigned, hsubmitted⟩
        · rintro _ _ _ ⟨⟩ ⟨⟩
          exact hmajority
    · rw [earned_handled h hearned htask (congrArg (fun p => s.entry r p.1) hverify),
        majority_handled htask, htype]
      dsimp only
      rw [hmost]
      refine iff_of_true ⟨fun hpaid => hpaid.2.elim, nofun⟩ ?_
      rintro _ _ - ⟨⟩ hreached
      exact absurd hreached hthreshold
  · have hlt : (task.submitResult r).results.length < (task.submitResult r).taskType.needed := by
      rw [Task.taskType_submitResult, htype]
      exact Nat.not_le.mp hlength
    have hverify := Task.verify_insufficient it hlt
    rw [earned_handled h hearned htask (congrArg (fun p => s.entry r p.1) hverify),
      majority_handled htask, htype]
    exact iff_of_true ⟨fun hpaid => hpaid.2.elim, nofun⟩ fun _ _ hle => absurd hle hlength

theorem earned_meets (h : Inv s) (hearned : Earned s) (it : Iteration (String × Nat))
    (htask : s.scheduler.tasks r.taskId = some task) :
    Earned (s.handledState it r task) ↔ s.Meets it r task := by
  cases htype : task.taskType with
  | embarrassing => exact earned_meets_embarrassing h hearned it htask htype
  | canary expectedHash => exact earned_meets_canary h hearned it htask htype
  | quorum replicas => exact earned_meets_quorum h hearned it htask htype

theorem earned_step (h : Inv s) (hearned : Earned s) (c : Call) : Earned (s.step c).2 ↔
    s.Supplied c := by
  -- The calls that handle no result leave the tokens as they are.
  have hother : (s.step c).2.handled = s.handled → Earned (s.step c).2 := by
    intro hhandled
    have hinv := h.step c
    have hcredits : ∀ w, (s.step c).2.credits w = s.credits w :=
      fun w => by rw [credits, hhandled, credits]
    exact ⟨hinv.tokens, fun w => hcredits w ▸ hearned.different w,
      fun e he hpaid => (hearned.backed e (hhandled ▸ he) hpaid).step h c,
      fun e he => (hearned.majority e (hhandled ▸ he)).step h c (hhandled ▸ he), hinv.agreed⟩
  cases c with
  | registerWorker nodeId => exact iff_of_true (hother rfl) trivial
  | submitTask taskType nowMs => exact iff_of_true (hother rfl) trivial
  | assignNext it nowMs => exact iff_of_true (hother rfl) trivial
  | submitResult it r =>
    unfold Supplied
    cases htask : s.scheduler.tasks r.taskId with
    | none =>
      rw [step_of_unknown htask]
      refine iff_of_true hearned fun task htask' => ?_
      cases htask.symm.trans htask'
    | some task =>
      rw [step_of_known htask, earned_meets h hearned it htask]
      refine ⟨fun hmeets task' htask' => ?_, fun hmeets => hmeets task htask⟩
      cases htask.symm.trans htask'
      exact hmeets

/-! ## Runs -/

theorem earned_start : Earned start where
  tokens := inv_start.tokens
  different _ := .nil
  backed := nofun
  majority := nofun
  agreed := nofun

/-- The tokens are earned in exactly the runs whose results meet what they stand for. -/
theorem earned_iff (calls : List Call) :
    (∀ done, done <+: calls → Earned (Machine.after step start done)) ↔
    ∀ done c, done ++ [c] <+: calls → (Machine.after step start done).Supplied c :=
  Machine.invariant_iff (I := Inv) (P := Earned) (Q := Supplied) (fun _ c h => h.step c)
    (fun _ c h hearned => earned_step h hearned c) inv_start earned_start calls

namespace Demo

def copy : TaskResult := ⟨1, 1, [0], 5, "h"⟩

/-- One worker answers for a quorum of three. -/
def alone : List Call :=
  [.registerWorker 1, .submitTask (.quorum 3) 0, .assignNext .forward 0,
    .submitResult .forward copy,
    .submitResult .forward copy, .submitResult .forward copy]

/-- The hash is agreed on by that worker only. -/
theorem majority_of_one : ¬ ∀ (calls : List Call) (done : List Call), done <+: calls →
    Earned (Machine.after step start done) := by
  intro hearned
  have hagreed : ∃ task, (Machine.after step start alone).scheduler.tasks 1 = some task ∧
      task.taskType = .quorum 3 ∧ (submitters task.results "h").card = 1 :=
        ⟨_, rfl, rfl, by decide +kernel⟩
  have hentry : ⟨copy, .quorumAgreed "h" 3, true⟩ ∈ (Machine.after step start alone).handled := by
    decide +kernel
  obtain ⟨task, htask, htype, hcard⟩ := hagreed
  have hmajority :=
    (hearned alone alone List.prefix_rfl).majority _ hentry task 3 "h" 3 htask htype rfl
  rw [hcard] at hmajority
  exact absurd hmajority (by decide)

end Demo

end Site

end P2P333.Platform333.Compute
