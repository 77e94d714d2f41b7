import P2P333.Lib.OrdMap

/-!
# Compute tasks

`333-platform/src/compute/task.rs`: a task, the results that were handed in for it and its
verification, by a majority of the hashes (Quorum), against a known hash (Canary) or not at all
(Embarrassing). The 32-bit counts of a verification are natural numbers here.

Results:
1. `verify_insufficient`, `verify_embarrassing`, `verify_quorum`, `verify_canary`: what a
   verification finds.
2. `verify_eq`: it changes the status only, and decides as soon as there are the results that the
   task needs.
-/

namespace P2P333.Platform333.Compute

open Lib

/-! ## Hash maps -/

/-- The order in which a hash map visits its entries. -/
structure Iteration (α : Type) where
  order : List α → List α
  perm : ∀ l, (order l).Perm l

def Iteration.forward {α : Type} : Iteration α := ⟨id, fun l => .refl l⟩

section Extremes

variable {α : Type} {key : α → Nat} {l : List α} {x : α}

/-- The first of the entries with the least key. -/
def minByKey (key : α → Nat) (l : List α) : Option α := l.argmin key

/-- The last of the entries with the greatest key. -/
def maxByKey (key : α → Nat) (l : List α) : Option α := l.reverse.argmax key

theorem mem_of_minByKey (h : minByKey key l = some x) : x ∈ l := List.argmin_mem h

theorem minByKey_eq_none : minByKey key l = none ↔ l = [] := List.argmin_eq_none

theorem maxByKey_eq_none : maxByKey key l = none ↔ l = [] :=
  List.argmax_eq_none.trans List.reverse_eq_nil_iff

end Extremes

/-! ## Data -/

/-- A counter: the number of the task. -/
abbrev TaskId := Nat

/-- How the results of a task are verified. -/
inductive TaskType where
  | embarrassing
  | quorum (replicas : UInt32)
  | canary (expectedHash : String)
deriving DecidableEq

/-- Where a task is. -/
inductive TaskStatus where
  | pending
  | assigned
  | computing
  | completed
  | verified
  | failed
deriving DecidableEq

structure TaskAssignment where
  taskId : TaskId
  workerId : UInt32
  assignedAt : UInt64
  timeoutMs : UInt64
  reward : UInt64
deriving DecidableEq

structure TaskResult where
  taskId : TaskId
  workerId : UInt32
  output : List UInt8
  computeMs : UInt64
  outputHash : String
deriving DecidableEq

structure Task where
  id : TaskId
  taskType : TaskType
  status : TaskStatus
  createdAt : UInt64
  assignments : List TaskAssignment
  results : List TaskResult

/-- What a verification finds. -/
inductive VerifyResult where
  | noVerificationNeeded
  | quorumAgreed (agreedHash : String) (agreeCount : Nat)
  | quorumDisagreed (hashes : List String)
  | canaryPassed
  | canaryFailed (workerId : UInt32)
  | insufficientResults
deriving DecidableEq

def VerifyResult.Success : VerifyResult → Prop
  | .noVerificationNeeded | .quorumAgreed _ _ | .canaryPassed => True
  | .quorumDisagreed _ | .canaryFailed _ | .insufficientResults => False

def VerifyResult.Failure : VerifyResult → Prop
  | .quorumDisagreed _ | .canaryFailed _ => True
  | .noVerificationNeeded | .quorumAgreed _ _ | .canaryPassed | .insufficientResults => False

instance (v : VerifyResult) : Decidable v.Success :=
  by cases v <;> unfold VerifyResult.Success <;> infer_instance

instance (v : VerifyResult) : Decidable v.Failure :=
  by cases v <;> unfold VerifyResult.Failure <;> infer_instance

/-! ## Verification -/

/-- The hashes of the results, each with the number of results that have it. -/
def hashCount (results : List TaskResult) : List (String × Nat) :=
  (results.map (·.outputHash)).dedup.map fun hash => (hash, results.countP (·.outputHash == hash))

/-- The most frequent hash: of several, the one that the map visits last. -/
def mostFrequent (it : Iteration (String × Nat)) (results : List TaskResult) :
    Option (String × Nat) :=
  maxByKey Prod.snd (it.order (hashCount results))

def divCeil (n d : Nat) : Nat := (n + d - 1) / d

namespace Task

def new (id : TaskId) (taskType : TaskType) (nowMs : UInt64) : Task :=
  ⟨id, taskType, .pending, nowMs, [], []⟩

def submitResult (task : Task) (result : TaskResult) : Task :=
  { task with results := task.results ++ [result] }

def setStatus (task : Task) (status : TaskStatus) : Task := { task with status }

def verify (it : Iteration (String × Nat)) (task : Task) : VerifyResult × Task :=
  match task.taskType with
  | .embarrassing =>
    if task.results.isEmpty then (.insufficientResults, task)
    else (.noVerificationNeeded, task.setStatus .verified)
  | .quorum replicas =>
    if task.results.length < replicas.toNat then (.insufficientResults, task)
    else
      match mostFrequent it task.results with
      | some (hash, count) =>
        if divCeil replicas.toNat 2 ≤ count then (.quorumAgreed hash count,
          task.setStatus .verified)
        else
          (.quorumDisagreed ((it.order (hashCount task.results)).map Prod.fst),
            task.setStatus .failed)
      | none => (.insufficientResults, task)
  | .canary expectedHash =>
    match task.results.head? with
    | some result =>
      if result.outputHash = expectedHash then (.canaryPassed, task.setStatus .verified)
      else (.canaryFailed result.workerId, task.setStatus .failed)
    | none => (.insufficientResults, task)

end Task

/-! ## What a verification finds -/

section Verification

variable {it : Iteration (String × Nat)} {task : Task} {results : List TaskResult}
    {hash : String} {count : Nat}

theorem hashCount_eq_nil : hashCount results = [] ↔ results = [] := by
  rw [hashCount, List.map_eq_nil_iff, List.dedup_eq_nil, List.map_eq_nil_iff]

theorem mostFrequent_ne_none (it : Iteration (String × Nat)) (h : results ≠ []) :
    mostFrequent it results ≠ none := by
  intro hnone
  have hvisited : it.order (hashCount results) = [] := maxByKey_eq_none.mp hnone
  exact h (hashCount_eq_nil.mp (List.Perm.eq_nil (hvisited ▸ (it.perm (hashCount results)).symm)))

/-- The number of results that the verification waits for. -/
def TaskType.needed : TaskType → Nat
  | .embarrassing | .canary _ => 1
  | .quorum replicas => replicas.toNat

namespace Task

section

variable (status : TaskStatus)

@[simp] theorem id_setStatus : (task.setStatus status).id = task.id := rfl
@[simp] theorem taskType_setStatus : (task.setStatus status).taskType = task.taskType := rfl

@[simp] theorem status_setStatus : (task.setStatus status).status = status := rfl

@[simp] theorem assignments_setStatus :
    (task.setStatus status).assignments = task.assignments := rfl

@[simp] theorem results_setStatus : (task.setStatus status).results = task.results := rfl

end

@[simp] theorem setStatus_self : task.setStatus task.status = task := rfl

@[simp] theorem taskType_submitResult (r : TaskResult) : (task.submitResult r).taskType =
    task.taskType := rfl

@[simp] theorem assignments_submitResult (r : TaskResult) : (task.submitResult r).assignments =
    task.assignments := rfl

@[simp] theorem results_submitResult (r : TaskResult) : (task.submitResult r).results =
    task.results ++ [r] := rfl

@[simp] theorem status_submitResult (r : TaskResult) :
    (task.submitResult r).status = task.status := rfl

/-- The number of results that are still needed. -/
def missing (task : Task) : Nat := task.taskType.needed - task.results.length

/-- Verified or failed. -/
def Settled (task : Task) : Prop := task.status = .verified ∨ task.status = .failed

instance (task : Task) : Decidable task.Settled := inferInstanceAs (Decidable (_ ∨ _))

theorem verify_insufficient (it : Iteration (String × Nat))
    (h : task.results.length < task.taskType.needed) :
    task.verify it = (.insufficientResults, task) := by
  unfold verify
  cases htype : task.taskType with
  | quorum replicas =>
    rw [htype] at h
    exact if_pos h
  | embarrassing | canary expectedHash =>
    rw [htype] at h
    have hnil : task.results = [] := List.length_eq_zero_iff.mp (Nat.lt_one_iff.mp h)
    rw [hnil]
    rfl

theorem verify_embarrassing (it : Iteration (String × Nat)) (htype : task.taskType = .embarrassing)
    (h : task.results ≠ []) :
    task.verify it = (.noVerificationNeeded, task.setStatus .verified) := by
  have hempty : ¬ task.results.isEmpty = true := by rwa [List.isEmpty_iff]
  simp only [verify, htype]
  exact if_neg hempty

theorem verify_quorum {replicas : UInt32} (htype : task.taskType = .quorum replicas)
    (hlength : replicas.toNat ≤ task.results.length)
      (h : mostFrequent it task.results = some (hash, count)) :
    task.verify it =
      if divCeil replicas.toNat 2 ≤ count then (.quorumAgreed hash count, task.setStatus .verified)
      else
        (.quorumDisagreed ((it.order (hashCount task.results)).map Prod.fst),
          task.setStatus .failed) := by
  simp only [verify, htype, h]
  exact if_neg (Nat.not_lt.mpr hlength)

section

variable (it : Iteration (String × Nat))

theorem verify_canary {expectedHash : String} {result : TaskResult}
    (htype : task.taskType = .canary expectedHash) (h : task.results.head? = some result) :
    task.verify it =
      if result.outputHash = expectedHash then (.canaryPassed, task.setStatus .verified)
      else (.canaryFailed result.workerId, task.setStatus .failed) := by
  simp only [verify, htype, h]

/-- A verification of the results that the task needs decides. -/
theorem verify_decides (hne : task.results ≠ []) (h : task.taskType.needed ≤ task.results.length) :
    (∃ v : VerifyResult, v.Success ∧ task.verify it = (v, task.setStatus .verified)) ∨
      ∃ v : VerifyResult, v.Failure ∧ task.verify it = (v, task.setStatus .failed) := by
  cases htype : task.taskType with
  | embarrassing => exact .inl ⟨.noVerificationNeeded, trivial, verify_embarrassing it htype hne⟩
  | quorum replicas =>
    rw [htype] at h
    obtain ⟨⟨hash, count⟩, hfrequent⟩ := Option.ne_none_iff_exists'.mp (mostFrequent_ne_none it hne)
    rw [verify_quorum htype h hfrequent]
    split_ifs with hthreshold
    · exact .inl ⟨.quorumAgreed hash count, trivial, rfl⟩
    · exact .inr ⟨.quorumDisagreed _, trivial, rfl⟩
  | canary expectedHash =>
    obtain ⟨result, hfirst⟩ := Option.ne_none_iff_exists'.mp (mt List.head?_eq_none_iff.mp hne)
    rw [verify_canary it htype hfirst]
    split_ifs with hexpected
    · exact .inl ⟨.canaryPassed, trivial, rfl⟩
    · exact .inr ⟨.canaryFailed result.workerId, trivial, rfl⟩

/-- A verification changes the status only: to verified when it succeeds, to failed when it fails,
and not at all without the results that the task needs. -/
theorem verify_eq (hne : task.results ≠ []) :
    ∃ v status, task.verify it = (v, task.setStatus status) ∧
    (v.Success → status = .verified) ∧ (v.Failure → status = .failed) ∧
    (task.taskType.needed ≤ task.results.length → v.Success ∨ v.Failure) ∧
    (task.results.length < task.taskType.needed → v = .insufficientResults ∧
      status = task.status) := by
  by_cases hneeded : task.taskType.needed ≤ task.results.length
  · have hnot : ¬ task.results.length < task.taskType.needed := Nat.not_lt.mpr hneeded
    rcases verify_decides it hne hneeded with ⟨v, hv, heq⟩ | ⟨v, hv, heq⟩
    · refine ⟨v, _, heq, fun _ => rfl, fun hfailure => ?_, fun _ => .inl hv, fun h => absurd h hnot⟩
      cases v <;> first | exact hv.elim | exact hfailure.elim
    · refine ⟨v, _, heq, fun hsuccess => ?_, fun _ => rfl, fun _ => .inr hv, fun h => absurd h hnot⟩
      cases v <;> first | exact hv.elim | exact hsuccess.elim
  · have hlt := Nat.not_le.mp hneeded
    exact ⟨_, task.status, verify_insufficient it hlt, nofun, nofun, fun h => absurd h hneeded,
      fun _ => ⟨rfl, rfl⟩⟩

end

end Task

end Verification

end P2P333.Platform333.Compute
