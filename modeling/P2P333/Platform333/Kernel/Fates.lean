import P2P333.Platform333.Kernel.Worker

/-!
# The fate of a job

Runs of a worker queue: any sequence of calls, with what each of them shows.

Results:
1. `Inv.step`: every job that was submitted waits, or has one outcome.
2. `step_eq_none`: only an `enqueue` can fail, when the ids are used up.
3. `one_fate_iff`: the outcomes that stay are the last ones exactly as long as no pending job is
   cancelled after `maxDone` jobs have finished.
-/

namespace P2P333.Platform333.Kernel

open Std Lib Function

variable {W : Type}

/-! ## Runs -/

/-- A call; for a tick, with the state of the rest of the program in which it starts. -/
inductive Call (W : Type) where
  | enqueue (name : String) (priority : JobPriority) (work : W → Ended × W)
  | tick (maxJobs : Nat) (w : W)
  | cancel (id : JobId)

/-- What a call shows. -/
inductive Event (W : Type) where
  | submitted (id : JobId)
  | ticked (maxJobs : Nat) (ran : List (Job W × JobState))
  | cancelled (id : JobId) (found : Bool)

namespace Event

def submissions : Event W → List JobId
  | .submitted id => [id]
  | _ => []

/-- The jobs that have come to their end, with their outcomes. -/
def outcomes : Event W → List (JobId × JobState)
  | .ticked _ ran => ran.map WorkerQueue.outcome
  | .cancelled id true => [(id, .cancelled)]
  | _ => []

def isCancelled : Event W → Bool
  | .cancelled _ found => found
  | _ => false

@[simp] theorem outcomes_submitted (id : JobId) : (submitted id : Event W).outcomes = [] := rfl

@[simp] theorem outcomes_cancelled (id : JobId) (found : Bool) :
    (cancelled id found : Event W).outcomes = if found then [(id, .cancelled)] else [] := by
  cases found <;> rfl

@[simp] theorem submissions_ticked (maxJobs : Nat) (ran : List (Job W × JobState)) :
    (ticked maxJobs ran).submissions = [] := rfl

@[simp] theorem submissions_cancelled (id : JobId) (found : Bool) :
    (cancelled id found : Event W).submissions = [] := rfl

end Event

/-- The queue, and what the calls have shown. -/
structure Run (W : Type) where
  queue : WorkerQueue W
  events : List (Event W)

namespace Run

def start : Run W := ⟨.new, []⟩

def call (q : WorkerQueue W) : Call W → Option (Event W × WorkerQueue W)
  | .enqueue name priority work =>
    (q.enqueue name priority work).map fun (id, q) => (.submitted id, q)
  | .tick maxJobs w => (q.tick maxJobs w).map fun (ran, q, _) => (.ticked maxJobs ran, q)
  | .cancel id => some (.cancelled id (q.cancel id).1, (q.cancel id).2)

def step (r : Run W) (c : Call W) : Option (Event W × Run W) :=
  (call r.queue c).map fun (e, q) => (e, ⟨q, r.events ++ [e]⟩)

/-- The run after the calls, unless one of them has failed. -/
def after (calls : List (Call W)) : Option (Run W) :=
  Machine.after (Machine.failing step) (some start) calls

/-- The ids that were given out, in order. -/
def submitted (r : Run W) : List JobId := r.events.flatMap Event.submissions

/-- The outcomes, in the order in which the jobs have finished. -/
def finished (r : Run W) : List (JobId × JobState) := r.events.flatMap Event.outcomes

/-- The ids of the jobs that wait. -/
def pending (r : Run W) : List JobId := r.queue.schedule.map Job.id

/-- The one is to run before the other. -/
def Precedes (a b : Job W) : Prop :=
  b.priority.index < a.priority.index ∨ a.priority = b.priority ∧ a.id.toNat < b.id.toNat

/-- What every state of a run keeps to. -/
structure Inv (r : Run W) : Prop where
  fate : (r.pending ++ r.finished.map Prod.fst).Perm r.submitted
  increasing : r.submitted.Pairwise fun a b => a.toNat < b.toNat
  below : ∀ id ∈ r.submitted, id.toNat < r.queue.nextId.toNat
  nextId : r.queue.nextId.toNat = r.submitted.length + 1
  home : ∀ i, ∀ job ∈ r.queue.queues i, job.priority.index = i
  sorted : ∀ i, (r.queue.queues i).Pairwise fun a b => a.id.toNat < b.id.toNat
  idle : r.queue.inFlight = ∅
  maxDone : r.queue.maxDone = 256
  total : r.queue.totalSubmitted.toNat = r.submitted.length
  completed : r.queue.totalCompleted.toNat = r.finished.countP fun x => x.2 = .completed
  failed : r.queue.totalFailed.toNat = r.finished.countP fun x => x.2.isFailed
  settled : r.finished.length = r.queue.ranCount + r.events.countP Event.isCancelled
  ticks : ∀ maxJobs ran, .ticked maxJobs ran ∈ r.events →
    ran.length ≤ maxJobs ∧ (ran.map Prod.fst).Pairwise Precedes

/-! ## Schedules -/

section Schedules

variable {q : WorkerQueue W} {id : JobId}

theorem mem_schedule {job : Job W} : job ∈ q.schedule ↔ ∃ i, job ∈ q.queues i := by
  have hall : ∀ i : Fin 4, i ∈ [3, 2, 1, 0] := by decide
  rw [WorkerQueue.schedule, List.mem_flatMap]
  exact ⟨fun ⟨i, _, h⟩ => ⟨i, h⟩, fun ⟨i, h⟩ => ⟨i, hall i, h⟩⟩

theorem pendingCount_eq (q : WorkerQueue W) : q.pendingCount = q.schedule.length := by
  have hrange : List.finRange 4 = [0, 1, 2, 3] := by decide
  rw [WorkerQueue.pendingCount, WorkerQueue.schedule, List.length_flatMap, hrange]
  simp only [List.map_cons, List.map_nil, List.sum_cons, List.sum_nil]
  omega

/-- A schedule, up to the order: one queue and the others. -/
theorem schedule_perm (q : WorkerQueue W) (i : Fin 4) (l : List (Job W)) :
    ({ q with queues := update q.queues i l }).schedule.Perm
      (l ++ ([3, 2, 1, 0].erase i).flatMap q.queues) := by
  have hall : ∀ i : Fin 4, i ∈ [3, 2, 1, 0] := by decide
  have hnodup : [3, 2, 1, (0 : Fin 4)].Nodup := by decide
  refine ((List.perm_cons_erase (hall i)).flatMap_right _).trans ?_
  rw [List.flatMap_cons]
  dsimp only
  rw [update_self]
  refine List.Perm.append_left l (List.Perm.of_eq (List.flatMap_congr fun j hj => ?_))
  have hne : j ≠ i := (hnodup.mem_erase_iff.mp hj).1
  exact update_of_ne hne ..

theorem schedule_update_perm (q : WorkerQueue W) (i : Fin 4) (before rest : List (Job W))
    (job : Job W) :
    ({ q with queues := update q.queues i (before ++ job :: rest) }).schedule.Perm
      (job :: ({ q with queues := update q.queues i (before ++ rest) }).schedule) := by
  refine (schedule_perm q i _).trans ?_
  refine List.Perm.trans ?_ ((schedule_perm q i (before ++ rest)).symm.cons job)
  rw [List.append_assoc, List.cons_append, List.append_assoc]
  exact List.perm_middle

/-- A job that waits leaves its queue, and any other id changes nothing. -/
theorem cancel_spec (q : WorkerQueue W) (id : JobId) :
    (id ∉ q.schedule.map Job.id ∧ q.cancel id = (false, q)) ∨
      ∃ i before job rest, q.queues i = before ++ job :: rest ∧ job.id = id ∧
        q.cancel id = (true, { q with
          queues := update q.queues i (before ++ rest)
          done := q.done ++ [(id, .cancelled)] }) := by
  unfold WorkerQueue.cancel
  split
  · next i hfind =>
    have hany : ((q.queues i).any fun job => job.id = id) = true := by
      simpa using List.find?_some hfind
    obtain ⟨job, hmem, hjob⟩ := List.any_eq_true.mp hany
    obtain ⟨job', before, rest, -, hid, hqueue, herase⟩ :=
      List.exists_of_eraseP (p := fun job => job.id = id) hmem hjob
    exact .inr ⟨i, before, job', rest, hqueue, of_decide_eq_true hid, by rw [herase]⟩
  · next hfind =>
    refine .inl ⟨fun hmem => ?_, rfl⟩
    obtain ⟨job, hjob, rfl⟩ := List.mem_map.mp hmem
    obtain ⟨i, hi⟩ := mem_schedule.mp hjob
    refine List.find?_eq_none.mp hfind i (List.mem_finRange i) ?_
    exact List.any_eq_true.mpr ⟨job, hi, decide_eq_true rfl⟩

end Schedules

/-! ## The invariant -/

section Invariant

variable {r r' : Run W} {q : WorkerQueue W}

theorem inv_start : Inv (start : Run W) where
  fate := List.Perm.refl []
  increasing := List.Pairwise.nil
  below _ h := absurd h List.not_mem_nil
  nextId := rfl
  home _ _ h := absurd h List.not_mem_nil
  sorted _ := List.Pairwise.nil
  idle := rfl
  maxDone := rfl
  total := rfl
  completed := rfl
  failed := rfl
  settled := rfl
  ticks _ _ h := absurd h List.not_mem_nil

@[simp] theorem submitted_concat (q : WorkerQueue W) (events : List (Event W)) (e : Event W) :
    submitted ⟨q, events ++ [e]⟩ = events.flatMap Event.submissions ++ e.submissions := by
  rw [submitted, List.flatMap_append, List.flatMap_singleton]

@[simp] theorem finished_concat (q : WorkerQueue W) (events : List (Event W)) (e : Event W) :
    finished ⟨q, events ++ [e]⟩ = events.flatMap Event.outcomes ++ e.outcomes := by
  rw [finished, List.flatMap_append, List.flatMap_singleton]

theorem Inv.of_mem_queue (h : r.Inv) {i : Fin 4} {job : Job W} (hjob : job ∈ r.queue.queues i) :
    job.id ∈ r.submitted :=
  h.fate.subset (List.mem_append_left _
    (List.mem_map_of_mem (mem_schedule.mpr ⟨i, hjob⟩)))

/-- The schedule is in order. -/
theorem Inv.schedule_pairwise (h : r.Inv) : r.queue.schedule.Pairwise Precedes := by
  have hdown : [3, 2, 1, (0 : Fin 4)].Pairwise (· > ·) := by decide
  have hpriority : ∀ a b : JobPriority, a.index = b.index → a = b := by
    intro a b hab
    cases a <;> cases b <;> first | rfl | cases hab
  rw [WorkerQueue.schedule, List.pairwise_flatMap]
  constructor
  · intro i _
    refine (h.sorted i).imp_of_mem fun {a b} ha hb hlt => .inr ⟨hpriority _ _ ?_, hlt⟩
    rw [h.home i a ha, h.home i b hb]
  · refine hdown.imp fun {i j} hij a ha b hb => .inl ?_
    rw [h.home i a ha, h.home j b hb]
    exact hij

/-- A turn of the log that is no `tick` adds no turn to check. -/
theorem Inv.ticks_concat (h : r.Inv) {e : Event W}
    (he : ∀ maxJobs ran, e = .ticked maxJobs ran →
      ran.length ≤ maxJobs ∧ (ran.map Prod.fst).Pairwise Precedes) :
    ∀ maxJobs ran, .ticked maxJobs ran ∈ r.events ++ [e] →
      ran.length ≤ maxJobs ∧ (ran.map Prod.fst).Pairwise Precedes := by
  intro maxJobs ran hmem
  rcases List.mem_append.mp hmem with hmem | hmem
  · exact h.ticks maxJobs ran hmem
  · exact he maxJobs ran (List.mem_singleton.mp hmem).symm

theorem Inv.enqueue (h : r.Inv) {name : String} {priority : JobPriority} {work : W → Ended × W}
    {id : JobId} (hq : r.queue.enqueue name priority work = some (id, q)) :
    Inv ⟨q, r.events ++ [.submitted id]⟩ := by
  obtain ⟨job, nextId, total, hid, rfl, rfl, hnext, htotal, rfl⟩ := WorkerQueue.enqueue_spec hq
  have hsubmitted (q : WorkerQueue W) : submitted ⟨q, r.events ++ [.submitted r.queue.nextId]⟩ =
      r.submitted ++ [r.queue.nextId] := submitted_concat ..
  have hfinished (q : WorkerQueue W) :
      finished ⟨q, r.events ++ [.submitted r.queue.nextId]⟩ = r.finished :=
    (finished_concat ..).trans (List.append_nil _)
  have hperm := schedule_update_perm r.queue job.priority.index
    (r.queue.queues job.priority.index) [] job
  rw [List.append_nil, update_eq_self] at hperm
  constructor
  case fate =>
    rw [hsubmitted, hfinished]
    refine ((hperm.map Job.id).append_right _).trans ?_
    rw [List.map_cons, List.cons_append, hid]
    exact (h.fate.cons _).trans (List.perm_append_singleton _ _).symm
  case increasing =>
    rw [hsubmitted, List.pairwise_append]
    refine ⟨h.increasing, List.pairwise_singleton .., fun a ha b hb => ?_⟩
    rw [List.mem_singleton.mp hb]
    exact h.below a ha
  case below =>
    intro a ha
    rw [hsubmitted] at ha
    show a.toNat < nextId.toNat
    rcases List.mem_append.mp ha with ha | ha
    · have hlt := h.below a ha
      omega
    · rw [List.mem_singleton.mp ha]
      omega
  case nextId =>
    rw [hsubmitted, List.length_append, List.length_singleton, ← h.nextId]
    exact hnext
  case home =>
    intro i x hx
    dsimp only at hx
    rw [update_apply] at hx
    split at hx
    · next hi =>
      rcases List.mem_append.mp hx with hx | hx
      · exact hi ▸ h.home _ x hx
      · rw [List.mem_singleton.mp hx, hi]
    · exact h.home i x hx
  case sorted =>
    intro i
    dsimp only
    rw [update_apply]
    split
    · rw [List.pairwise_append]
      refine ⟨h.sorted _, List.pairwise_singleton .., fun a ha b hb => ?_⟩
      rw [List.mem_singleton.mp hb, hid]
      exact h.below _ (h.of_mem_queue ha)
    · exact h.sorted i
  case idle => exact h.idle
  case maxDone => exact h.maxDone
  case total =>
    rw [hsubmitted, List.length_append, List.length_singleton, ← h.total]
    exact htotal
  case completed =>
    rw [hfinished]
    exact h.completed
  case failed =>
    rw [hfinished]
    exact h.failed
  case settled =>
    rw [hfinished, List.countP_append]
    exact h.settled
  case ticks => exact h.ticks_concat nofun

theorem Inv.tick (h : r.Inv) {maxJobs : Nat} {w w' : W} {ran : List (Job W × JobState)}
    (hq : r.queue.tick maxJobs w = some (ran, q, w')) :
    Inv ⟨q, r.events ++ [.ticked maxJobs ran]⟩ := by
  obtain ⟨hexecuted, hschedule, hlength, hsuffix⟩ := WorkerQueue.tick_spec hq
  have hsubmitted : submitted ⟨q, r.events ++ [.ticked maxJobs ran]⟩ = r.submitted :=
    (submitted_concat ..).trans (List.append_nil _)
  have hfinished : finished ⟨q, r.events ++ [.ticked maxJobs ran]⟩ =
      r.finished ++ ran.map WorkerQueue.outcome := finished_concat ..
  -- What runs now and what waits on are the two ends of the old schedule.
  have hordered := h.schedule_pairwise
  rw [hschedule, List.pairwise_append] at hordered
  constructor
  case fate =>
    rw [hsubmitted, hfinished, List.map_append, List.map_map]
    refine List.Perm.trans ?_ h.fate
    rw [pending, pending, hschedule, List.map_append, List.map_map, List.append_assoc]
    rw [← List.append_assoc]
    exact List.perm_append_comm
  case increasing =>
    rw [hsubmitted]
    exact h.increasing
  case below =>
    rw [hsubmitted]
    intro id hid
    show id.toNat < q.nextId.toNat
    rw [hexecuted.nextId]
    exact h.below id hid
  case nextId =>
    rw [hsubmitted, ← h.nextId]
    exact congrArg UInt64.toNat hexecuted.nextId
  case home => exact fun i job hjob => h.home i job ((hsuffix i).subset hjob)
  case sorted => exact fun i => (h.sorted i).sublist (hsuffix i).sublist
  case idle => exact hexecuted.idle h.idle
  case maxDone => exact hexecuted.maxDone.trans h.maxDone
  case total =>
    rw [hsubmitted, ← h.total]
    exact congrArg UInt64.toNat hexecuted.submitted
  case completed =>
    rw [hfinished, List.countP_append, List.countP_map, ← h.completed]
    exact hexecuted.completed
  case failed =>
    rw [hfinished, List.countP_append, List.countP_map, ← h.failed]
    exact hexecuted.failed
  case settled =>
    rw [hfinished, List.length_append, List.length_map, List.countP_append, h.settled]
    show _ = q.ranCount + _
    rw [hexecuted.ranCount]
    simp only [List.countP_singleton, Event.isCancelled, Bool.false_eq_true, if_false]
    omega
  case ticks =>
    refine h.ticks_concat fun m l heq => ?_
    cases heq
    exact ⟨by omega, hordered.1⟩

theorem submitted_cancelled (q : WorkerQueue W) (id : JobId) (found : Bool) :
    submitted ⟨q, r.events ++ [.cancelled id found]⟩ = r.submitted :=
  (submitted_concat ..).trans (List.append_nil _)

/-- A `cancel` that finds no job leaves everything as it is. -/
theorem Inv.missed (h : r.Inv) (id : JobId) :
    Inv ⟨r.queue, r.events ++ [.cancelled id false]⟩ := by
  have hfinished : finished ⟨r.queue, r.events ++ [.cancelled id false]⟩ = r.finished :=
    (finished_concat ..).trans (List.append_nil _)
  constructor
  case fate =>
    rw [submitted_cancelled, hfinished]
    exact h.fate
  case increasing =>
    rw [submitted_cancelled]
    exact h.increasing
  case below =>
    rw [submitted_cancelled]
    exact h.below
  case nextId =>
    rw [submitted_cancelled]
    exact h.nextId
  case home => exact h.home
  case sorted => exact h.sorted
  case idle => exact h.idle
  case maxDone => exact h.maxDone
  case total =>
    rw [submitted_cancelled]
    exact h.total
  case completed =>
    rw [hfinished]
    exact h.completed
  case failed =>
    rw [hfinished]
    exact h.failed
  case settled =>
    rw [hfinished, List.countP_append]
    exact h.settled
  case ticks => exact h.ticks_concat nofun

/-- A job that is cancelled leaves its queue, and its fate is the last outcome. -/
theorem Inv.removed (h : r.Inv) {id : JobId} {i : Fin 4} {before rest : List (Job W)} {job : Job W}
    (hqueue : r.queue.queues i = before ++ job :: rest) (hid : job.id = id)
    (hq : q = { r.queue with
      queues := update r.queue.queues i (before ++ rest)
      done := r.queue.done ++ [(id, .cancelled)] }) :
    Inv ⟨q, r.events ++ [.cancelled id true]⟩ := by
  have hfinished : finished ⟨q, r.events ++ [.cancelled id true]⟩ =
      r.finished ++ [(id, .cancelled)] := finished_concat ..
  have hperm := schedule_update_perm r.queue i before rest job
  rw [← hqueue, update_eq_self] at hperm
  have hsub (j : Fin 4) : (q.queues j).Sublist (r.queue.queues j) := by
    rw [hq]
    dsimp only
    rw [update_apply]
    split
    · next hj =>
      rw [hj, hqueue]
      exact (List.sublist_cons_self job rest).append_left before
    · exact List.Sublist.refl _
  constructor
  case fate =>
    rw [submitted_cancelled, hfinished, List.map_append, List.map_singleton]
    refine List.Perm.trans ?_ h.fate
    refine List.Perm.trans ?_ ((hperm.map Job.id).append_right _).symm
    rw [List.map_cons, List.cons_append, hid, hq, ← List.append_assoc]
    exact List.perm_append_singleton _ _
  case increasing =>
    rw [submitted_cancelled]
    exact h.increasing
  case below =>
    rw [submitted_cancelled, hq]
    exact h.below
  case nextId =>
    rw [submitted_cancelled, hq]
    exact h.nextId
  case home => exact fun j x hx => h.home j x ((hsub j).subset hx)
  case sorted => exact fun j => (h.sorted j).sublist (hsub j)
  case idle =>
    rw [hq]
    exact h.idle
  case maxDone =>
    rw [hq]
    exact h.maxDone
  case total =>
    rw [submitted_cancelled, hq]
    exact h.total
  case completed =>
    rw [hfinished, List.countP_append, hq]
    exact h.completed
  case failed =>
    rw [hfinished, List.countP_append, hq]
    exact h.failed
  case settled =>
    rw [hfinished, List.length_append, List.countP_append, h.settled, hq]
    rfl
  case ticks => exact h.ticks_concat nofun

theorem Inv.cancel (h : r.Inv) (id : JobId) :
    Inv ⟨(r.queue.cancel id).2, r.events ++ [.cancelled id (r.queue.cancel id).1]⟩ := by
  rcases cancel_spec r.queue id with ⟨-, hcancel⟩ | ⟨i, before, job, rest, hqueue, hid, hcancel⟩
  · rw [hcancel]
    exact h.missed id
  · rw [hcancel]
    exact h.removed hqueue hid rfl

theorem Inv.step (h : r.Inv) {c : Call W} {e : Event W} (hstep : r.step c = some (e, r')) :
    r'.Inv := by
  rw [Run.step] at hstep
  obtain ⟨⟨e', q⟩, hcall, heq⟩ := Option.map_eq_some_iff.mp hstep
  cases heq
  cases c with
  | enqueue name priority work =>
    obtain ⟨⟨id, q'⟩, hq, heq⟩ := Option.map_eq_some_iff.mp hcall
    cases heq
    exact h.enqueue hq
  | tick maxJobs w =>
    obtain ⟨⟨ran, q', w'⟩, hq, heq⟩ := Option.map_eq_some_iff.mp hcall
    cases heq
    exact h.tick hq
  | cancel id =>
    cases hcall
    exact h.cancel id

/-- As many jobs have run, wait and were cancelled as were submitted. -/
theorem Inv.length_submitted (h : r.Inv) : r.submitted.length =
    r.queue.schedule.length + r.queue.ranCount + r.events.countP Event.isCancelled := by
  rw [← h.fate.length_eq, List.length_append, List.length_map, pending, List.length_map, h.settled]
  omega

/-- Only an `enqueue` can fail, when the ids are used up. -/
theorem step_eq_none (h : r.Inv) {c : Call W} (hstep : r.step c = none) :
    (∃ name priority work, c = .enqueue name priority work) ∧ 2 ^ 64 ≤ r.submitted.length + 2 := by
  have hcall := Option.map_eq_none_iff.mp hstep
  have hnext := h.nextId
  have hlength := h.length_submitted
  have hlt := r.queue.nextId.toNat_lt
  cases c with
  | enqueue name priority work =>
    refine ⟨⟨name, priority, work, rfl⟩, ?_⟩
    by_contra hroom
    have hid := WorkerQueue.checkedSucc_total (x := r.queue.nextId) (by omega)
    have htotal := WorkerQueue.checkedSucc_total (x := r.queue.totalSubmitted) (by
      rw [h.total]
      omega)
    have hsome := Option.map_eq_none_iff.mp hcall
    rw [WorkerQueue.enqueue, hid, htotal] at hsome
    cases hsome
  | tick maxJobs w =>
    obtain ⟨ran, q, w', hq⟩ := WorkerQueue.tickFrom_total (q := r.queue)
      (by decide : [3, 2, 1, (0 : Fin 4)].Nodup) maxJobs w (by
        show r.queue.ranCount + r.queue.schedule.length < _
        omega)
    have hnone := Option.map_eq_none_iff.mp hcall
    rw [WorkerQueue.tick, hq] at hnone
    cases hnone
  | cancel id => cases hcall

end Invariant

/-! ## Fates -/

section Fates

variable {r r' : Run W}

/-- Every job has one fate, and the last outcomes are the ones that stay. -/
structure Fates (r : Run W) : Prop where
  once : (r.finished.map Prod.fst).Nodup
  submitted : r.submitted.Nodup
  fate : (r.pending ++ r.finished.map Prod.fst).Perm r.submitted
  ticks : ∀ maxJobs ran, .ticked maxJobs ran ∈ r.events →
    ran.length ≤ maxJobs ∧ (ran.map Prod.fst).Pairwise Precedes
  accounting : r.queue.totalSubmitted.toNat = r.queue.pendingCount +
    r.queue.totalCompleted.toNat + r.queue.totalFailed.toNat + r.events.countP Event.isCancelled
  total : r.queue.totalSubmitted.toNat = r.submitted.length
  completed : r.queue.totalCompleted.toNat = r.finished.countP fun x => x.2 = .completed
  failed : r.queue.totalFailed.toNat = r.finished.countP fun x => x.2.isFailed
  outcomes : r.queue.done = r.finished.rtake 256
  bounded : r.queue.done.length ≤ 256

/-- All but the outcomes that stay is so in every run. -/
theorem Inv.fates_iff (h : r.Inv) : r.Fates ↔ r.queue.done = r.finished.rtake 256 := by
  have hnodup : r.submitted.Nodup := h.increasing.imp fun hlt heq => by
    rw [heq] at hlt
    exact Nat.lt_irrefl _ hlt
  refine ⟨Fates.outcomes, fun hdone => ⟨?_, hnodup, h.fate, h.ticks, ?_, h.total, h.completed,
    h.failed, hdone, ?_⟩⟩
  · exact (List.nodup_append.mp (h.fate.nodup_iff.mpr hnodup)).2.1
  · rw [h.total, h.length_submitted, pendingCount_eq, WorkerQueue.ranCount]
    omega
  · rw [hdone, List.rtake, List.length_drop]
    omega

/-- The condition on a call: no job that waits is cancelled once `maxDone` jobs have finished. -/
def Timely (r : Run W) : Call W → Prop
  | .cancel id => id ∈ r.pending → r.finished.length < r.queue.maxDone
  | _ => True

theorem fates_step (h : r.Inv) (hfates : r.Fates) {c : Call W} {e : Event W}
    (hstep : r.step c = some (e, r')) : r'.Fates ↔ r.Timely c := by
  rw [(h.step hstep).fates_iff]
  have hdone := hfates.outcomes
  rw [Run.step] at hstep
  obtain ⟨⟨e', q⟩, hcall, heq⟩ := Option.map_eq_some_iff.mp hstep
  cases heq
  cases c with
  | enqueue name priority work =>
    obtain ⟨⟨id, q'⟩, hq, heq⟩ := Option.map_eq_some_iff.mp hcall
    cases heq
    obtain ⟨job, nextId, total, -, -, -, -, -, rfl⟩ := WorkerQueue.enqueue_spec hq
    refine iff_of_true ?_ trivial
    rw [finished_concat, Event.outcomes_submitted, List.append_nil]
    exact hdone
  | tick maxJobs w =>
    obtain ⟨⟨ran, q', w'⟩, hq, heq⟩ := Option.map_eq_some_iff.mp hcall
    cases heq
    have hexecuted := (WorkerQueue.tick_spec hq).1
    refine iff_of_true ?_ trivial
    have hfinished : finished ⟨q, r.events ++ [.ticked maxJobs ran]⟩ =
        r.finished ++ ran.map WorkerQueue.outcome := finished_concat ..
    rw [hfinished, hexecuted.done, h.maxDone, hdone, foldl_pushRing]
  | cancel id =>
    cases hcall
    rcases cancel_spec r.queue id with ⟨hnone, hcancel⟩ | ⟨i, before, job, rest, hq, hid, hcancel⟩
    · rw [hcancel]
      refine iff_of_true ?_ fun hmem => absurd hmem hnone
      rw [finished_concat, Event.outcomes_cancelled, if_neg Bool.false_ne_true, List.append_nil]
      exact hdone
    · have hmem : id ∈ r.pending := by
        refine List.mem_map.mpr ⟨job, mem_schedule.mpr ⟨i, ?_⟩, hid⟩
        rw [hq]
        exact List.mem_append_right _ List.mem_cons_self
      have hfinished (q : WorkerQueue W) : finished ⟨q, r.events ++ [.cancelled id true]⟩ =
          r.finished ++ [(id, .cancelled)] := finished_concat ..
      have htimely : r.Timely (.cancel id) ↔ r.finished.length < 256 := by
        rw [← h.maxDone]
        exact ⟨fun hroom => hroom hmem, fun hlt _ => hlt⟩
      rw [hcancel, hfinished, htimely, hdone]
      exact rtake_concat_iff

/-- For every sequence of calls. -/
theorem one_fate_iff (calls : List (Call W)) :
    (∀ done, done <+: calls → ∀ r, after done = some r → r.Fates) ↔
      ∀ done c, done ++ [c] <+: calls → ∀ r, after done = some r → r.Timely c := by
  have hempty : (start : Run W).finished.rtake 256 = [] := List.rtake_nil _
  have hstart : (start : Run W).Fates := inv_start.fates_iff.mpr hempty.symm
  have hinv : ∀ o c, (∀ r, o = some r → r.Inv) →
      ∀ r', (Machine.failing (@step W) o c).2 = some r' → r'.Inv := by
    intro o c hinv r' hr'
    obtain ⟨r, e, ho, hstep⟩ := Machine.failing_eq_some.mp hr'
    exact (hinv r ho).step hstep
  refine Machine.invariant_iff (I := fun o => ∀ r : Run W, o = some r → r.Inv)
    (P := fun o => ∀ r : Run W, o = some r → r.Fates)
    (Q := fun o c => ∀ r : Run W, o = some r → r.Timely c) hinv ?_ ?_ ?_ calls
  · intro o c hinv hfates
    cases o with
    | none => exact iff_of_true nofun nofun
    | some r =>
      cases hstep : r.step c with
      | none =>
        obtain ⟨⟨name, priority, work, rfl⟩, -⟩ := step_eq_none (hinv r rfl) hstep
        refine iff_of_true (fun r' hr' => ?_) fun _ _ => trivial
        obtain ⟨r₀, e, ⟨⟩, hstep'⟩ := Machine.failing_eq_some.mp hr'
        rw [hstep] at hstep'
        cases hstep'
      | some result =>
        obtain ⟨e, r'⟩ := result
        have hiff := fates_step (hinv r rfl) (hfates r rfl) hstep
        constructor
        · rintro hall r₀ ⟨⟩
          exact hiff.mp (hall r' (Machine.failing_eq_some.mpr ⟨r, e, rfl, hstep⟩))
        · intro htimely r'' hr''
          obtain ⟨r₀, e', ⟨⟩, hstep'⟩ := Machine.failing_eq_some.mp hr''
          rw [hstep] at hstep'
          cases hstep'
          exact hiff.mpr (htimely r rfl)
  · rintro r ⟨⟩
    exact inv_start
  · rintro r ⟨⟩
    exact hstart

end Fates

namespace Demo

def job : Call Unit := .enqueue "job" .normal fun w => (.ok, w)

/-- All but one of 257 jobs run, and the last one is cancelled. -/
def overfull : List (Call Unit) := List.replicate 257 job ++ [.tick 256 (), .cancel 257]

/-- The outcomes that stay are one more than they may be. -/
theorem ring_overflows : ∃ r, after overfull = some r ∧ r.queue.done.length = 257 ∧ ¬ r.Fates := by
  have hrun : (after overfull).map (fun r => r.queue.done.length) = some 257 := by decide +kernel
  obtain ⟨r, hafter, hlength⟩ := Option.map_eq_some_iff.mp hrun
  refine ⟨r, hafter, hlength, fun hfates => ?_⟩
  have hbounded := hfates.bounded
  omega

end Demo

end Run

end P2P333.Platform333.Kernel
