import P2P333.ComputeExchange333.Kernel
import P2P333.Lib.Machine

/-!
# The compute exchange: runs

A fresh exchange and the envelopes that it is given. The log of a run has an entry for each command
that was accepted when it came in first; a replay of it leaves no entry. `Traced` is the log with
the steps that it stands for, so that a fact about a run is shown by induction on it.

Results:
1. `effects_eq_log`: the effects of a run are those of its log.
2. `traced_log`: every run is traced.
-/

namespace P2P333.ComputeExchange333

open Lib Machine

/-- An accepted command, with the aggregate that it found and the one that it left. -/
structure Entry where
  before : Aggregate
  command : Command
  effects : List Effect
  next : Aggregate

section Log

variable [CommandDebug]

namespace ComputeExchange

def entry (x : ComputeExchange) (envelope : CommandEnvelope) : Option Entry :=
  match (x.handle envelope).1 with
  | .accepted ⟨_, effects, false⟩ =>
    some ⟨x.aggregate, envelope.command, effects, (x.handle envelope).2.aggregate⟩
  | _ => none

/-- The commands that were accepted and not answered from the inbox. -/
def log : ComputeExchange → List CommandEnvelope → List Entry
  | _, [] => []
  | x, envelope :: rest => (x.entry envelope).toList ++ log (x.handle envelope).2 rest

theorem log_append (x : ComputeExchange) (l l' : List CommandEnvelope) :
    x.log (l ++ l') = x.log l ++ (after handle x l).log l' := by
  induction l generalizing x with
  | nil => rfl
  | cons envelope rest ih => simp only [List.cons_append, log, ih, after_cons, List.append_assoc]

/-- A command that leaves no entry has no effect and leaves the aggregate alone; one that leaves an
entry is a step. -/
theorem entry_cases (x : ComputeExchange) (envelope : CommandEnvelope) :
    (x.entry envelope = none ∧ (x.handle envelope).1.effects = [] ∧
      (x.handle envelope).2.aggregate = x.aggregate) ∨
    ∃ e, x.entry envelope = some e ∧ (x.handle envelope).1.effects = e.effects ∧
      (x.handle envelope).2.aggregate = e.next ∧ e.before = x.aggregate ∧
      e.command = envelope.command ∧ Step x.policy envelope.idempotencyKey
        (expectedGeneration x.aggregate envelope.command) x.aggregate envelope.command e.effects
        e.next := by
  have h := handle_cases x envelope
  unfold entry
  generalize hout : (x.handle envelope).1 = outcome at h ⊢
  generalize hnext : (x.handle envelope).2 = x' at h ⊢
  cases h with
  | emptyKey hkey => exact .inl ⟨rfl, rfl, rfl⟩
  | conflict hkey hrecord hintent => exact .inl ⟨rfl, rfl, rfl⟩
  | @replay record hkey hrecord hintent =>
    refine .inl ⟨?_, CommandOutcome.effects_replayReceipt _, rfl⟩
    cases record.outcome <;> rfl
  | decline hkey hnew => exact .inl ⟨rfl, rfl, rfl⟩
  | accept hkey hnew hgeneration hstep =>
    rw [hgeneration] at hstep
    exact .inr ⟨_, rfl, rfl, rfl, rfl, rfl, hstep⟩

/-- An acceptance without an entry is a replay. -/
theorem replayed_of_entry_eq_none {x : ComputeExchange} {envelope : CommandEnvelope}
    (h : x.entry envelope = none) {d : AcceptedDecision}
    (hd : (x.handle envelope).1 = .accepted d) : d.replayed = true := by
  obtain ⟨events, effects, replayed⟩ := d
  cases replayed with
  | true => rfl
  | false =>
    simp only [entry, hd] at h
    cases h

theorem policy_handle (x : ComputeExchange) (envelope : CommandEnvelope) :
    (x.handle envelope).2.policy = x.policy := by
  have h := handle_cases x envelope
  generalize (x.handle envelope).1 = outcome at h
  generalize (x.handle envelope).2 = x' at h
  cases h <;> rfl

theorem policy_after (x : ComputeExchange) (l : List CommandEnvelope) :
    (after handle x l).policy = x.policy :=
  after_invariant (I := fun y => y.policy = x.policy)
    (fun y envelope hy => (policy_handle y envelope).trans hy) rfl l

/-- The effects of a run are those of its log. -/
theorem effects_eq_log (x : ComputeExchange) (l : List CommandEnvelope) :
    (outputs handle x l).flatMap CommandOutcome.effects = (x.log l).flatMap Entry.effects := by
  induction l generalizing x with
  | nil => rfl
  | cons envelope rest ih =>
    rw [outputs, log, List.flatMap_cons, List.flatMap_append, ih]
    rcases x.entry_cases envelope with ⟨hnone, heffects, -⟩ | ⟨e, hsome, heffects, -⟩
    · rw [hnone, heffects]
      rfl
    · rw [hsome, heffects]
      simp only [Option.toList_some, List.flatMap_cons, List.flatMap_nil, List.append_nil]

end ComputeExchange

end Log

/-- A log with the steps that it stands for. -/
inductive Traced (node : NodeId) (policy : EnginePolicy) : List Entry → Aggregate → Prop
  | start : Traced node policy [] (.new node)
  | step {log : List Entry} {s s' : Aggregate} {key : IdempotencyKey} {command : Command}
      {effects : List Effect} (h : Traced node policy log s)
      (hstep : Step policy key (expectedGeneration s command) s command effects s') :
      Traced node policy (log ++ [⟨s, command, effects, s'⟩]) s'

/-- Every run is traced. -/
theorem traced_log [CommandDebug] (node : NodeId) (policy : EnginePolicy)
    (l : List CommandEnvelope) :
    Traced node policy ((ComputeExchange.new node policy).log l)
      (after ComputeExchange.handle (.new node policy) l).aggregate := by
  induction l using List.reverseRecOn with
  | nil => exact .start
  | append_singleton l envelope ih =>
    have hpolicy := (ComputeExchange.new node policy).policy_after l
    rw [ComputeExchange.log_append, after_concat]
    generalize after ComputeExchange.handle (.new node policy) l = x at ih hpolicy ⊢
    simp only [ComputeExchange.log, List.append_nil]
    rcases x.entry_cases envelope with ⟨hnone, -, hsame⟩ | ⟨e, hsome, -, hnext,
      hbefore, hcmd, hstep⟩
    · rw [hnone, hsame]
      simpa using ih
    · rw [hsome, hnext]
      obtain ⟨before, command, effects, next⟩ := e
      cases hbefore
      cases hcmd
      rw [hpolicy] at hstep
      exact .step ih hstep

/-- A part of a log is reached like the whole. -/
theorem Traced.of_append {node : NodeId} {policy : EnginePolicy} {done rest : List Entry}
    {s : Aggregate} (h : Traced node policy (done ++ rest) s) :
    ∃ t, Traced node policy done t := by
  induction rest using List.reverseRecOn generalizing s with
  | nil => exact ⟨s, by simpa using h⟩
  | append_singleton rest e ih =>
    rw [← List.append_assoc] at h
    generalize hl : done ++ rest ++ [e] = l at h
    cases h with
    | start => simp at hl
    | step h hstep =>
      obtain ⟨hdone, -⟩ := List.append_inj' hl rfl
      exact ih (hdone ▸ h)

/-- The step behind an entry. -/
theorem Traced.entry {node : NodeId} {policy : EnginePolicy} {done rest : List Entry} {e : Entry}
    {s : Aggregate} (h : Traced node policy (done ++ e :: rest) s) :
    Traced node policy done e.before ∧ ∃ key, Step policy key
      (expectedGeneration e.before e.command) e.before e.command e.effects e.next := by
  have hsplit : done ++ e :: rest = (done ++ [e]) ++ rest := by simp
  obtain ⟨t, ht⟩ := (hsplit ▸ h).of_append
  generalize hl : done ++ [e] = l at ht
  cases ht with
  | start => simp at hl
  | @step log s t key command effects ht hstep =>
    obtain ⟨hdone, he⟩ := List.append_inj' hl rfl
    cases he
    exact ⟨hdone ▸ ht, key, hstep⟩

/-! ## A node -/

namespace Demo

scoped instance : CommandDebug := ⟨fun _ => ""⟩

def caps : ResourceCaps := ⟨2, 25, 128, 0, false⟩

def grant : ResourceGrant where
  id := ⟨"grant-1"⟩
  principal := ⟨"contributor"⟩
  issuedAtMs := 100
  expiresAtMs := 1000
  browserForegroundOnly := true
  maxWorkers := 2
  dutyCyclePercent := 25
  memoryMib := 128
  networkBytes := 0
  gpuAllowed := false
  policyHash := EnginePolicy.browserAlphaV1.policyHash

def lease (mode : ExecutionMode) : ResourceLease := ⟨⟨"lease-1"⟩, ⟨"grant-1"⟩, 1, mode, caps⟩

def assignment (id : String) (mode : ExecutionMode) : Assignment :=
  ⟨⟨id⟩, ⟨"lease-1"⟩, 1, ⟨"requester"⟩, "workload", mode, caps⟩

def envelope (key : String) (command : Command) : CommandEnvelope := ⟨⟨key⟩, 1, command⟩

/-- From the grant to the start of an attempt. -/
def started (mode : ExecutionMode) : List CommandEnvelope :=
  [envelope "grant" (.grantConsent grant), envelope "lease" (.openLease (lease mode)),
    envelope "offer" (.offerAssignment (assignment "assignment-1" mode)),
    envelope "start" (.startAttempt ⟨"attempt-1"⟩ ⟨"assignment-1"⟩)]

/-- From the start to the receipt, under keys with a suffix. -/
def settled (suffix : String) : List CommandEnvelope :=
  [envelope ("submit" ++ suffix)
      (.submitResult ⟨"attempt-1"⟩ ⟨⟨"contributor"⟩, "result", caps, 200⟩),
    envelope ("verify" ++ suffix) (.verifyResult ⟨"attempt-1"⟩ ⟨"verifier"⟩
      ⟨⟨"cap-1"⟩, ⟨"verifier"⟩, ⟨"node-1"⟩, ⟨"attempt-1"⟩, 100, 900⟩ .accept),
    envelope ("prepare" ++ suffix) (.prepareSettlement ⟨"settlement-1"⟩ ⟨"attempt-1"⟩ 5),
    envelope ("receipt" ++ suffix) (.recordSettlementReceipt ⟨⟨"settlement-1"⟩, 5, "ref"⟩)]

end Demo

end P2P333.ComputeExchange333
