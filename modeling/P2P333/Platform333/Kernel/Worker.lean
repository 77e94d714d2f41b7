import P2P333.Lib.Checked
import P2P333.Lib.Machine
import P2P333.Lib.OrdMap
import P2P333.Lib.Recent

/-!
# The worker queue

`333-platform/src/kernel/worker.rs`: jobs wait in one queue for each priority, a tick runs some of
them, a pending job can be cancelled, and the last outcomes stay for inspection. The work of a job
is a function on the state of the rest of the program; where a panic unwinds it is one of the ways
in which the work can end. A counter that overflows is `none`.

Results:
1. `tick_spec`: a tick runs the first jobs in the order of the schedule.
2. `tickFrom_total`: it does not fail as long as the counters have room for all jobs.
-/

namespace P2P333.Platform333.Kernel

open Std Lib Function

/-! ## Jobs -/

abbrev JobId := UInt64

/-- Job priority (higher = processed first). -/
inductive JobPriority where
  | low
  | normal
  | high
  | critical
deriving DecidableEq

/-- `priority as usize`. -/
def JobPriority.index : JobPriority → Fin 4
  | .low => 0
  | .normal => 1
  | .high => 2
  | .critical => 3

/-- Where a job is. Completed, failed and cancelled are final. -/
inductive JobState where
  | pending
  | running
  | completed
  | failed (e : String)
  | cancelled
deriving DecidableEq

def JobState.isFailed : JobState → Bool
  | .failed _ => true
  | _ => false

/-- How the work of a job ends, as `catch_unwind` tells. -/
inductive Ended where
  | ok
  | err (e : String)
  | panicked

structure Job (W : Type) where
  id : JobId
  name : String
  priority : JobPriority
  state : JobState
  work : W → Ended × W

/-! ## The queue -/

structure WorkerQueue (W : Type) where
  queues : Fin 4 → List (Job W)
  done : List (JobId × JobState)
  inFlight : OrdMap JobId String
  nextId : JobId
  maxDone : Nat
  totalSubmitted : UInt64
  totalCompleted : UInt64
  totalFailed : UInt64

variable {W : Type}

namespace WorkerQueue

def new : WorkerQueue W where
  queues _ := []
  done := []
  inFlight := ∅
  nextId := 1
  maxDone := 256
  totalSubmitted := 0
  totalCompleted := 0
  totalFailed := 0

def enqueue (q : WorkerQueue W) (name : String) (priority : JobPriority) (work : W → Ended × W) :
    Option (JobId × WorkerQueue W) := do
  let id := q.nextId
  let nextId ← checkedSucc q.nextId
  let job : Job W := ⟨id, name, priority, .pending, work⟩
  let totalSubmitted ← checkedSucc q.totalSubmitted
  some (id, { q with
    nextId, totalSubmitted
    queues := update q.queues priority.index (q.queues priority.index ++ [job]) })

/-- The state of the job, and the counters. -/
def settle (q : WorkerQueue W) : Ended → Option (JobState × WorkerQueue W)
  | .ok => (checkedSucc q.totalCompleted).map fun n => (.completed, { q with totalCompleted := n })
  | .err e => (checkedSucc q.totalFailed).map fun n => (.failed e, { q with totalFailed := n })
  | .panicked =>
    (checkedSucc q.totalFailed).map fun n => (.failed "job panicked", { q with totalFailed := n })

/-- What `tick` does with a job that has left its queue. -/
def execute (q : WorkerQueue W) (job : Job W) (w : W) :
    Option (JobState × WorkerQueue W × W) := do
  let q := { q with inFlight := q.inFlight.insert job.id job.name }
  let (ended, w) := job.work w
  let q := { q with inFlight := q.inFlight.erase job.id }
  let (state, q) ← q.settle ended
  some (state, { q with done := pushRing q.maxDone q.done (job.id, state) }, w)

/-- The inner loop of `tick`, with room for so many jobs; the jobs that it ran. -/
def drain (pri : Fin 4) :
    Nat → WorkerQueue W → W → Option (List (Job W × JobState) × WorkerQueue W × W)
  | 0, q, w => some ([], q, w)
  | room + 1, q, w =>
    match q.queues pri with
    | [] => some ([], q, w)
    | job :: rest => do
      let (state, q, w) ← { q with queues := update q.queues pri rest }.execute job w
      let (ran, q, w) ← drain pri room q w
      some ((job, state) :: ran, q, w)

/-- The outer loop of `tick`. -/
def tickFrom : List (Fin 4) → Nat → WorkerQueue W → W →
    Option (List (Job W × JobState) × WorkerQueue W × W)
  | [], _, q, w => some ([], q, w)
  | pri :: rest, room, q, w => do
    let (ran, q, w) ← q.drain pri room w
    let (more, q, w) ← tickFrom rest (room - ran.length) q w
    some (ran ++ more, q, w)

/-- Process up to `maxJobs` jobs, critical first. The source returns the number of the jobs that it
ran. -/
def tick (q : WorkerQueue W) (maxJobs : Nat) (w : W) :
    Option (List (Job W × JobState) × WorkerQueue W × W) :=
  q.tickFrom [3, 2, 1, 0] maxJobs w

/-- Cancel a pending job, in the first queue that has it. -/
def cancel (q : WorkerQueue W) (id : JobId) : Bool × WorkerQueue W :=
  match (List.finRange 4).find? fun i => (q.queues i).any fun job => job.id = id with
  | some i => (true, { q with
      queues := update q.queues i ((q.queues i).eraseP fun job => job.id = id)
      done := q.done ++ [(id, .cancelled)] })
  | none => (false, q)

/-- Total jobs pending across all priority queues. -/
def pendingCount (q : WorkerQueue W) : Nat :=
  ((List.finRange 4).map fun i => (q.queues i).length).sum

/-- The pending jobs, in the order in which they are to run. -/
def schedule (q : WorkerQueue W) : List (Job W) := [3, 2, 1, 0].flatMap q.queues

/-- The job that an `enqueue` adds, and what else it changes. -/
theorem enqueue_spec {q q' : WorkerQueue W} {name : String} {priority : JobPriority}
    {work : W → Ended × W} {id : JobId} (h : q.enqueue name priority work = some (id, q')) :
    ∃ (job : Job W) (nextId : JobId) (total : UInt64), job.id = q.nextId ∧ job.priority = priority ∧
      id = q.nextId ∧ nextId.toNat = q.nextId.toNat + 1 ∧
      total.toNat = q.totalSubmitted.toNat + 1 ∧
      q' = { q with
        nextId
        totalSubmitted := total
        queues := update q.queues priority.index
          (q.queues priority.index ++ [job]) } := by
  rw [enqueue] at h
  obtain ⟨nextId, hnext, h⟩ := Option.bind_eq_some_iff.mp h
  obtain ⟨total, htotal, heq⟩ := Option.bind_eq_some_iff.mp h
  cases heq
  exact ⟨⟨q.nextId, name, priority, .pending, work⟩, nextId, total, rfl, rfl, rfl,
    checkedSucc_eq_some.mp hnext, checkedSucc_eq_some.mp htotal, rfl⟩

/-! ## What a tick does -/

section Tick

variable {q q' : WorkerQueue W} {w w' : W} {ran more : List (Job W × JobState)} {pri : Fin 4}

/-- The outcome of a job that ran. -/
def outcome (x : Job W × JobState) : JobId × JobState := (x.1.id, x.2)

/-- What running some jobs does to all but the queues. -/
structure Executed (q : WorkerQueue W) (ran : List (Job W × JobState)) (q' : WorkerQueue W) :
    Prop where
  nextId : q'.nextId = q.nextId
  maxDone : q'.maxDone = q.maxDone
  submitted : q'.totalSubmitted = q.totalSubmitted
  idle : q.inFlight = ∅ → q'.inFlight = ∅
  completed : q'.totalCompleted.toNat =
    q.totalCompleted.toNat + ran.countP fun x => x.2 = .completed
  failed : q'.totalFailed.toNat = q.totalFailed.toNat + ran.countP fun x => x.2.isFailed
  states : ∀ x ∈ ran, x.2 = .completed ∨ x.2.isFailed = true
  done : q'.done = (ran.map outcome).foldl (pushRing q.maxDone) q.done

theorem Executed.nil (q : WorkerQueue W) : Executed q [] q where
  nextId := rfl
  maxDone := rfl
  submitted := rfl
  idle := id
  completed := rfl
  failed := rfl
  states _ h := absurd h List.not_mem_nil
  done := rfl

theorem Executed.append {q₁ q₂ : WorkerQueue W} (h : Executed q ran q₁)
    (h' : Executed q₁ more q₂) : Executed q (ran ++ more) q₂ where
  nextId := h'.nextId.trans h.nextId
  maxDone := h'.maxDone.trans h.maxDone
  submitted := h'.submitted.trans h.submitted
  idle hq := h'.idle (h.idle hq)
  completed := by rw [h'.completed, h.completed, List.countP_append, Nat.add_assoc]
  failed := by rw [h'.failed, h.failed, List.countP_append, Nat.add_assoc]
  states x hx := (List.mem_append.mp hx).elim (h.states x) (h'.states x)
  done := by rw [h'.done, h.done, h.maxDone, List.map_append, List.foldl_append]

/-- The queues are not looked at. -/
theorem Executed.of_queues {queues : Fin 4 → List (Job W)}
    (h : Executed { q with queues } ran q') : Executed q ran q' where
  nextId := h.nextId
  maxDone := h.maxDone
  submitted := h.submitted
  idle := h.idle
  completed := h.completed
  failed := h.failed
  states := h.states
  done := h.done

theorem settle_spec {ended : Ended} {state : JobState} (h : q.settle ended = some (state, q')) :
    (state = .completed ∧ q'.totalCompleted.toNat = q.totalCompleted.toNat + 1 ∧
        q' = { q with totalCompleted := q'.totalCompleted }) ∨
      (state.isFailed = true ∧ q'.totalFailed.toNat = q.totalFailed.toNat + 1 ∧
        q' = { q with totalFailed := q'.totalFailed }) := by
  cases ended with
  | ok =>
    obtain ⟨n, hn, heq⟩ := Option.map_eq_some_iff.mp h
    cases heq
    exact .inl ⟨rfl, checkedSucc_eq_some.mp hn, rfl⟩
  | err e | panicked =>
    obtain ⟨n, hn, heq⟩ := Option.map_eq_some_iff.mp h
    cases heq
    exact .inr ⟨rfl, checkedSucc_eq_some.mp hn, rfl⟩

/-- The job does not stay in flight, whatever its end. -/
theorem execute_spec {job : Job W} {state : JobState}
    (h : q.execute job w = some (state, q', w')) :
    q'.queues = q.queues ∧ Executed q [(job, state)] q' := by
  rw [execute] at h
  obtain ⟨⟨state', q₁⟩, hsettle, heq⟩ := Option.bind_eq_some_iff.mp h
  cases heq
  have hidle (m : OrdMap JobId String) (hm : m = ∅) :
      (m.insert job.id job.name).erase job.id = ∅ := by
    subst hm
    refine ExtTreeMap.ext_getElem? fun id => ?_
    rw [ExtTreeMap.getElem?_erase, ExtTreeMap.getElem?_insert, ExtTreeMap.getElem?_empty]
    split <;> rfl
  rcases settle_spec hsettle with ⟨rfl, hcompleted, hq⟩ | ⟨hfailed, htotal, hq⟩
  · rw [hq]
    refine ⟨rfl, ⟨rfl, rfl, rfl, hidle _, hcompleted, rfl, ?_, rfl⟩⟩
    intro x hx
    cases List.mem_singleton.mp hx
    exact .inl rfl
  · have hnot : ¬ state = .completed := by
      rintro rfl
      cases hfailed
    rw [hq]
    refine ⟨rfl, ⟨rfl, rfl, rfl, hidle _, ?_, ?_, ?_, rfl⟩⟩
    · rw [List.countP_singleton, if_neg (by simpa using hnot)]
      rfl
    · rw [List.countP_singleton, if_pos hfailed]
      exact htotal
    · intro x hx
      cases List.mem_singleton.mp hx
      exact .inr hfailed

/-- The inner loop runs the jobs at the front of its queue. -/
theorem drain_spec {room : Nat} (h : q.drain pri room w = some (ran, q', w')) :
    Executed q ran q' ∧ q.queues pri = ran.map Prod.fst ++ q'.queues pri ∧
      (∀ i, i ≠ pri → q'.queues i = q.queues i) ∧
      ran.length = min room (q.queues pri).length := by
  induction room generalizing q w ran with
  | zero =>
    cases h
    exact ⟨.nil _, rfl, fun _ _ => rfl, (Nat.zero_min _).symm⟩
  | succ room ih =>
    rw [drain] at h
    cases hqueue : q.queues pri with
    | nil =>
      rw [hqueue] at h
      cases h
      exact ⟨.nil _, hqueue.symm, fun _ _ => rfl, rfl⟩
    | cons job rest =>
      rw [hqueue] at h
      obtain ⟨⟨state, q₁, w₁⟩, hexecute, h⟩ := Option.bind_eq_some_iff.mp h
      obtain ⟨⟨ran', q₂, w₂⟩, hdrain, heq⟩ := Option.bind_eq_some_iff.mp h
      cases heq
      have hqueues : q₁.queues = update q.queues pri rest := (execute_spec hexecute).1
      have hexecuted := (execute_spec hexecute).2.of_queues
      obtain ⟨hexecuted', hpri, hother, hlength⟩ := ih hdrain
      have hrest : q₁.queues pri = rest := by rw [hqueues, update_self]
      rw [hrest] at hpri hlength
      refine ⟨hexecuted.append hexecuted', ?_, fun i hi => ?_, ?_⟩
      · rw [List.map_cons, List.cons_append, ← hpri]
      · rw [hother i hi, hqueues, update_of_ne hi]
      · rw [List.length_cons, List.length_cons, hlength]
        omega

/-- The outer loop takes one queue after the other, and the next one only if there is room left. -/
theorem tickFrom_spec {pris : List (Fin 4)} (hpris : pris.Nodup) {room : Nat}
    (h : q.tickFrom pris room w = some (ran, q', w')) :
    Executed q ran q' ∧ pris.flatMap q.queues = ran.map Prod.fst ++ pris.flatMap q'.queues ∧
      (∀ i, i ∉ pris → q'.queues i = q.queues i) ∧
      ran.length = min room (pris.flatMap q.queues).length := by
  induction pris generalizing q w room ran with
  | nil =>
    cases h
    exact ⟨.nil _, rfl, fun _ _ => rfl, (Nat.min_zero _).symm⟩
  | cons pri rest ih =>
    rw [tickFrom] at h
    obtain ⟨⟨ran₁, q₁, w₁⟩, hdrain, h⟩ := Option.bind_eq_some_iff.mp h
    obtain ⟨⟨ran₂, q₂, w₂⟩, hrest, heq⟩ := Option.bind_eq_some_iff.mp h
    cases heq
    obtain ⟨hpri, hnodup⟩ := List.nodup_cons.mp hpris
    obtain ⟨hexecuted, hqueue, hother, hlength⟩ := drain_spec hdrain
    obtain ⟨hexecuted', hflat, hother', hlength'⟩ := ih hnodup hrest
    have hkept : rest.flatMap q₁.queues = rest.flatMap q.queues := by
      refine List.flatMap_congr fun i hi => hother i ?_
      rintro rfl
      exact hpri hi
    have hpri' : q'.queues pri = q₁.queues pri := hother' pri hpri
    rw [hkept] at hflat hlength'
    have hcount := congrArg List.length hqueue
    rw [List.length_append, List.length_map] at hcount
    refine ⟨hexecuted.append hexecuted', ?_, fun i hi => ?_, ?_⟩
    · rw [List.flatMap_cons, List.flatMap_cons, hqueue, hflat, hpri', List.map_append]
      obtain hempty | ⟨job, hsome⟩ := List.eq_nil_or_concat (q₁.queues pri)
      · rw [hempty, List.append_nil, List.nil_append, List.append_assoc]
      · -- The queue is not empty, so there was no room for more.
        have hnone : ran₂ = [] := by
          have hpos : 0 < (q₁.queues pri).length := by
            obtain ⟨_, hsome⟩ := hsome
            rw [hsome, List.length_concat]
            exact Nat.succ_pos _
          refine List.eq_nil_of_length_eq_zero ?_
          omega
        rw [hnone, List.map_nil, List.nil_append, List.append_nil, List.append_assoc]
    · obtain ⟨hne, hni⟩ := not_or.mp (mt List.mem_cons.mpr hi)
      rw [hother' i hni, hother i hne]
    · rw [List.length_append, List.flatMap_cons, List.length_append]
      omega

/-- No queue loses a job but at its front. -/
theorem tickFrom_suffix {pris : List (Fin 4)} {room : Nat}
    (h : q.tickFrom pris room w = some (ran, q', w')) (i : Fin 4) :
    q'.queues i <:+ q.queues i := by
  induction pris generalizing q w room ran with
  | nil =>
    cases h
    exact List.suffix_rfl
  | cons pri rest ih =>
    rw [tickFrom] at h
    obtain ⟨⟨ran₁, q₁, w₁⟩, hdrain, h⟩ := Option.bind_eq_some_iff.mp h
    obtain ⟨⟨ran₂, q₂, w₂⟩, hrest, heq⟩ := Option.bind_eq_some_iff.mp h
    cases heq
    obtain ⟨-, hqueue, hother, -⟩ := drain_spec hdrain
    refine (ih hrest).trans ?_
    by_cases hi : i = pri
    · subst hi
      exact ⟨_, hqueue.symm⟩
    · rw [hother i hi]

/-- A tick runs the first jobs of the schedule, as many as it may. -/
theorem tick_spec {maxJobs : Nat} (h : q.tick maxJobs w = some (ran, q', w')) :
    Executed q ran q' ∧ q.schedule = ran.map Prod.fst ++ q'.schedule ∧
      ran.length = min maxJobs q.schedule.length ∧ ∀ i, q'.queues i <:+ q.queues i := by
  obtain ⟨hexecuted, hflat, -, hlength⟩ := tickFrom_spec (by decide) h
  exact ⟨hexecuted, hflat, hlength, tickFrom_suffix h⟩

end Tick

/-! ## Whether a tick fails -/

section Totality

variable {q q' : WorkerQueue W} {ran : List (Job W × JobState)}

/-- The number of the jobs that have run. -/
def ranCount (q : WorkerQueue W) : Nat := q.totalCompleted.toNat + q.totalFailed.toNat

theorem Executed.ranCount (h : Executed q ran q') : q'.ranCount = q.ranCount + ran.length := by
  have hboth (l : List (Job W × JobState))
      (hl : ∀ x ∈ l, x.2 = .completed ∨ x.2.isFailed = true) :
      l.length = (l.countP fun x => x.2 = .completed) + l.countP fun x => x.2.isFailed := by
    induction l with
    | nil => rfl
    | cons x l ih =>
      have ih := ih fun y hy => hl y (List.mem_cons_of_mem x hy)
      rw [List.length_cons, List.countP_cons, List.countP_cons]
      rcases hl x List.mem_cons_self with hx | hx
      · have hnot : JobState.completed.isFailed = false := rfl
        simp only [hx, hnot, decide_true, if_true, Bool.false_eq_true, if_false]
        omega
      · have hnot : x.2 ≠ .completed := by
          intro heq
          rw [heq] at hx
          cases hx
        simp only [hx, hnot, decide_false, if_true, Bool.false_eq_true, if_false]
        omega
  have hlength := hboth ran h.states
  unfold WorkerQueue.ranCount
  rw [h.completed, h.failed]
  omega

theorem checkedSucc_total {x : UInt64} (h : x.toNat + 1 < 2 ^ 64) :
    checkedSucc x = some (x + 1) := if_pos h

theorem execute_total (job : Job W) (w : W) (h : q.ranCount + 1 < 2 ^ 64) :
    ∃ state q' w', q.execute job w = some (state, q', w') := by
  unfold ranCount at h
  have hcompleted := checkedSucc_total (x := q.totalCompleted) (by omega)
  have hfailed := checkedSucc_total (x := q.totalFailed) (by omega)
  unfold execute
  cases hwork : job.work w with
  | mk ended w' =>
    cases ended with
    | ok =>
      dsimp only [settle]
      rw [hcompleted]
      exact ⟨_, _, _, rfl⟩
    | err e | panicked =>
      dsimp only [settle]
      rw [hfailed]
      exact ⟨_, _, _, rfl⟩

theorem drain_total {pri : Fin 4} (room : Nat) (w : W)
    (h : q.ranCount + (q.queues pri).length < 2 ^ 64) :
    ∃ ran q' w', q.drain pri room w = some (ran, q', w') := by
  induction room generalizing q w with
  | zero => exact ⟨_, _, _, rfl⟩
  | succ room ih =>
    rw [drain]
    cases hqueue : q.queues pri with
    | nil => exact ⟨_, _, _, rfl⟩
    | cons job rest =>
      rw [hqueue, List.length_cons] at h
      dsimp only
      generalize htaken : ({ q with queues := update q.queues pri rest }) = taken
      have hcount : taken.ranCount = q.ranCount := by rw [← htaken]; rfl
      obtain ⟨state, q₁, w₁, hexecute⟩ :=
        execute_total (q := taken) job w (by omega)
      obtain ⟨hqueues, hexecuted⟩ := execute_spec hexecute
      have hrest : q₁.queues pri = rest := by
        rw [hqueues, ← htaken]
        exact update_self ..
      have hcount₁ : q₁.ranCount = taken.ranCount + 1 := hexecuted.ranCount
      obtain ⟨ran, q₂, w₂, hdrain⟩ := ih (q := q₁) w₁ (by rw [hrest]; omega)
      refine ⟨(job, state) :: ran, q₂, w₂, ?_⟩
      rw [hexecute]
      simp only [Option.bind_eq_bind, Option.bind_some, hdrain]

theorem tickFrom_total {pris : List (Fin 4)} (hpris : pris.Nodup) (room : Nat) (w : W)
    (h : q.ranCount + (pris.flatMap q.queues).length < 2 ^ 64) :
    ∃ ran q' w', q.tickFrom pris room w = some (ran, q', w') := by
  induction pris generalizing q w room with
  | nil => exact ⟨_, _, _, rfl⟩
  | cons pri rest ih =>
    obtain ⟨hpri, hnodup⟩ := List.nodup_cons.mp hpris
    rw [List.flatMap_cons, List.length_append] at h
    have hdrain : ∃ ran q₁ w₁, q.drain pri room w = some (ran, q₁, w₁) :=
      drain_total room w (by omega)
    obtain ⟨ran, q₁, w₁, hdrain⟩ := hdrain
    obtain ⟨hexecuted, -, hother, hlength⟩ := drain_spec hdrain
    have hkept : rest.flatMap q₁.queues = rest.flatMap q.queues := by
      refine List.flatMap_congr fun i hi => hother i ?_
      rintro rfl
      exact hpri hi
    have hcount := hexecuted.ranCount
    obtain ⟨more, q₂, w₂, hrest⟩ := ih hnodup (room - ran.length) w₁ (q := q₁) (by
      rw [hkept]
      omega)
    refine ⟨ran ++ more, q₂, w₂, ?_⟩
    rw [tickFrom, hdrain]
    simp only [Option.bind_eq_bind, Option.bind_some, hrest]

end Totality

end WorkerQueue

end P2P333.Platform333.Kernel
