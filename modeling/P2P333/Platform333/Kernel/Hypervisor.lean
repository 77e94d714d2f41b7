import P2P333.Lib.Checked
import P2P333.Platform333.Kernel.Service

/-!
# The hypervisor service

`HypervisorService` of `333-platform/src/kernel/builtin.rs`: instances of virtual machines are
started and stopped by callers with the capability for it, send heartbeats, and are swept when they
have been silent for too long. The order of the identifiers that a sweep returns is that of the map.

Results:
1. `vmStart_spec`, `vmStop_spec`, `vmHeartbeat_inPlace`, `sweepStale_spec`: what each call does.
2. `hypervisor_run`: the accounts of every run, and what a run without some capability cannot do.
-/

namespace P2P333.Platform333.Kernel

open Std Lib

/-- Where a machine is in its life. -/
inductive VmState where
  | pending
  | starting
  | running
  | stopping
  | stopped
  | error (text : String)
deriving DecidableEq

namespace VmState

def isTerminal : VmState → Bool
  | stopped | error _ => true
  | _ => false

def canTransitionTo (s next : VmState) : Bool :=
  if s = next then true
  else if s.isTerminal then false
  else match s, next with
    | pending, starting | starting, running | running, stopping | stopping, stopped => true
    | _, error _ => true
    | _, _ => false

end VmState

structure VmInstance where
  id : String
  name : String
  state : VmState
  createdAt : UInt64
  heartbeatAt : UInt64

structure HypervisorService where
  instances : OrdMap String VmInstance
  totalSpawned : UInt64
  totalStopped : UInt64

namespace HypervisorService

def new : HypervisorService := ⟨∅, 0, 0⟩

/-- The instance goes through `Starting`, which nobody can see, to `Running`. -/
def vmStart (h : HypervisorService) (id name : String) (now : UInt64) (ctx : ServiceContext) :
    (String × VmState) × HypervisorService :=
  if ctx.caps.has .serviceSpawn = false then
    ((id, .error "capability denied: ServiceSpawn required"), h)
  else if h.instances.contains id then ((id, .error "instance ID already exists"), h)
  else
    ((id, .running), { h with
      instances := h.instances.insert id ⟨id, name, .running, now, now⟩
      totalSpawned := saturatingSucc h.totalSpawned })

/-- The removal of `vm_stop` and of `vm_stop_internal`. -/
def vmStopInternal (h : HypervisorService) (id : String) : VmState × HypervisorService :=
  if h.instances.contains id then
    (.stopped, { h with
      instances := h.instances.erase id, totalStopped := saturatingSucc h.totalStopped })
  else (.error "instance not found", h)

def vmStop (h : HypervisorService) (id : String) (ctx : ServiceContext) :
    VmState × HypervisorService :=
  if ctx.caps.has .serviceKill = false then
    (.error "capability denied: ServiceKill required", h)
  else h.vmStopInternal id

def vmStatus (h : HypervisorService) (id : String) : VmState :=
  match h.instances[id]? with
  | some inst => inst.state
  | none => .error "instance not found"

def vmHeartbeat (h : HypervisorService) (id : String) (now : UInt64) :
    VmState × HypervisorService :=
  match h.instances[id]? with
  | some inst =>
    (inst.state, { h with instances := h.instances.insert id { inst with heartbeatAt := now } })
  | none => (.error "instance not found", h)

/-- Running, and silent for longer than the timeout. -/
def stale (now timeout : UInt64) (inst : VmInstance) : Bool :=
  inst.state == .running && decide (timeout < saturatingSub now inst.heartbeatAt)

def timedOut (now : UInt64) (inst : VmInstance) : VmInstance :=
  { inst with state := .error ("heartbeat timeout: last seen " ++
      toString (saturatingSub now inst.heartbeatAt).toNat ++ "ms ago") }

def sweepStale (h : HypervisorService) (now timeout : UInt64) :
    List String × HypervisorService :=
  ((h.instances.toList.filter fun e => stale now timeout e.2).map Prod.fst,
    { h with instances := h.instances.map fun _ inst =>
        if stale now timeout inst then timedOut now inst else inst })

/-- `Service::stop`: every instance is stopped, without a capability. -/
def shutdown (h : HypervisorService) : HypervisorService :=
  h.instances.keys.foldl (fun h id => (h.vmStopInternal id).2) h

/-! ## One call -/

/-- The calls of the hypervisor. -/
inductive VmCall where
  | start (id name : String) (now : UInt64) (ctx : ServiceContext)
  | stop (id : String) (ctx : ServiceContext)
  | heartbeat (id : String) (now : UInt64)
  | sweep (now timeout : UInt64)
  | shutdown

def step (h : HypervisorService) : VmCall → Option HypervisorService
  | .start id name now ctx => some (h.vmStart id name now ctx).2
  | .stop id ctx => some (h.vmStop id ctx).2
  | .heartbeat id now => some (h.vmHeartbeat id now).2
  | .sweep now timeout => some (h.sweepStale now timeout).2
  | .shutdown => some h.shutdown

/-- An instance stays what it is. It may become silent, and then stays so. -/
structure Ages (inst inst' : VmInstance) : Prop where
  id : inst'.id = inst.id
  name : inst'.name = inst.name
  createdAt : inst'.createdAt = inst.createdAt
  state : inst'.state = inst.state ∨ (inst.state = .running ∧ ∃ text, inst'.state = .error text)

theorem Ages.refl (inst : VmInstance) : Ages inst inst := ⟨rfl, rfl, rfl, .inl rfl⟩

theorem Ages.trans {a b c : VmInstance} (h : Ages a b) (h' : Ages b c) : Ages a c := by
  refine ⟨h'.id.trans h.id, h'.name.trans h.name, h'.createdAt.trans h.createdAt, ?_⟩
  rcases h.state with hab | ⟨hrunning, text, hb⟩
  · rcases h'.state with hbc | ⟨hb, hc⟩
    · exact .inl (hbc.trans hab)
    · exact .inr ⟨hab ▸ hb, hc⟩
  · rcases h'.state with hbc | ⟨hb', -⟩
    · exact .inr ⟨hrunning, text, hbc.trans hb⟩
    · cases hb.symm.trans hb'

variable {inst : VmInstance}

theorem Ages.legal {inst' : VmInstance} (h : Ages inst inst') :
    inst.state.canTransitionTo inst'.state = true := by
  rcases h.state with heq | ⟨hrunning, text, herror⟩
  · unfold VmState.canTransitionTo
    rw [if_pos heq.symm]
  · rw [hrunning, herror]
    rfl

variable {h h' : HypervisorService}

section

variable (h : HypervisorService)

/-- The caller may start an instance, and the identifier is free. -/
theorem vmStart_spec (id name : String) (now : UInt64)
    (ctx : ServiceContext) : (h.vmStart id name now ctx).2 = h ∨
      (Capability.serviceSpawn ∈ ctx.caps ∧ h.instances[id]? = none ∧
        (h.vmStart id name now ctx).2 = { h with
          instances := h.instances.insert id ⟨id, name, .running, now, now⟩
          totalSpawned := saturatingSucc h.totalSpawned }) := by
  unfold vmStart
  split_ifs with hcap hid
  · exact .inl rfl
  · exact .inl rfl
  · refine .inr ⟨CapabilitySet.has_eq_true.mp (by simpa using hcap), ?_, rfl⟩
    exact ExtTreeMap.getElem?_eq_none_of_contains_eq_false (Bool.eq_false_iff.mpr hid)

theorem vmStopInternal_spec (id : String) :
    (h.instances[id]? = none ∧ (h.vmStopInternal id).2 = h) ∨
      ((∃ inst, h.instances[id]? = some inst) ∧ (h.vmStopInternal id).2 = { h with
        instances := h.instances.erase id, totalStopped := saturatingSucc h.totalStopped }) := by
  unfold vmStopInternal
  cases hid : h.instances[id]? with
  | none =>
    have hcontains : h.instances.contains id = false := by
      rw [ExtTreeMap.contains_eq_isSome_getElem?, hid]
      rfl
    rw [hcontains]
    exact .inl ⟨rfl, rfl⟩
  | some inst =>
    have hcontains : h.instances.contains id = true := by
      rw [ExtTreeMap.contains_eq_isSome_getElem?, hid]
      rfl
    rw [hcontains]
    exact .inr ⟨⟨inst, rfl⟩, rfl⟩

theorem vmStop_spec (id : String) (ctx : ServiceContext) : (h.vmStop id ctx).2 = h ∨
      (Capability.serviceKill ∈ ctx.caps ∧ (h.vmStop id ctx).2 = (h.vmStopInternal id).2) := by
  unfold vmStop
  split_ifs with hcap
  · exact .inl rfl
  · exact .inr ⟨CapabilitySet.has_eq_true.mp (by simpa using hcap), rfl⟩

theorem sweepStale_spec (now timeout : UInt64) (id : String) :
    (h.sweepStale now timeout).2.instances[id]? = h.instances[id]?.map fun inst =>
      if stale now timeout inst then timedOut now inst else inst := ExtTreeMap.getElem?_map ..

end

/-! ## Accounts -/

/-- Whatever was started is there or was stopped, unless the counter is at its end. -/
structure Accounts (h : HypervisorService) : Prop where
  total : h.totalSpawned.toNat < 2 ^ 64 - 1 →
    h.totalSpawned.toNat = h.totalStopped.toNat + h.instances.size
  key (id : String) (inst : VmInstance) : h.instances[id]? = some inst → inst.id = id
  state (id : String) (inst : VmInstance) : h.instances[id]? = some inst →
    inst.state = .running ∨ ∃ text, inst.state = .error text

theorem accounts_new : new.Accounts where
  total _ := rfl
  key id inst hid := by
    have hnone : new.instances[id]? = none := ExtTreeMap.getElem?_empty
    cases hnone.symm.trans hid
  state id inst hid := by
    have hnone : new.instances[id]? = none := ExtTreeMap.getElem?_empty
    cases hnone.symm.trans hid

variable {id : String}

theorem Accounts.spawn (ha : h.Accounts) (hid : h.instances[id]? = none)
    (name : String) (now : UInt64) : Accounts { h with
      instances := h.instances.insert id ⟨id, name, .running, now, now⟩
      totalSpawned := saturatingSucc h.totalSpawned } where
  total hlt := by
    have hbefore : h.totalSpawned.toNat < 2 ^ 64 - 1 :=
      Nat.lt_of_le_of_lt (le_saturatingSucc _) hlt
    have hsize : (h.instances.insert id ⟨id, name, .running, now, now⟩).size =
        h.instances.size + 1 := by
      rw [ExtTreeMap.size_insert, ExtTreeMap.contains_eq_isSome_getElem?, hid]
      rfl
    show (saturatingSucc h.totalSpawned).toNat = h.totalStopped.toNat + ExtTreeMap.size _
    rw [toNat_saturatingSucc (by omega), hsize, ha.total hbefore, Nat.add_assoc]
  key id' inst hinst := by
    by_cases heq : id = id'
    · subst heq
      rw [ExtTreeMap.getElem?_insert_self] at hinst
      cases hinst
      rfl
    · rw [OrdMap.getElem?_insert_of_ne _ heq] at hinst
      exact ha.key id' inst hinst
  state id' inst hinst := by
    by_cases heq : id = id'
    · subst heq
      rw [ExtTreeMap.getElem?_insert_self] at hinst
      cases hinst
      exact .inl rfl
    · rw [OrdMap.getElem?_insert_of_ne _ heq] at hinst
      exact ha.state id' inst hinst

theorem getElem?_of_erase {m : OrdMap String VmInstance} {id' : String}
    (h : (m.erase id)[id']? = some inst) : m[id']? = some inst := by
  rw [ExtTreeMap.getElem?_erase] at h
  split at h
  · cases h
  · exact h

theorem Accounts.vmStopInternal (ha : h.Accounts) (id : String) :
    (h.vmStopInternal id).2.Accounts := by
  rcases vmStopInternal_spec h id with ⟨-, hsame⟩ | ⟨⟨inst, hid⟩, herase⟩
  · rwa [hsame]
  · rw [herase]
    refine ⟨fun hlt => ?_, fun id' inst' h' => ha.key id' inst' (getElem?_of_erase h'),
      fun id' inst' h' => ha.state id' inst' (getElem?_of_erase h')⟩
    have htotal := ha.total hlt
    have hpos : h.instances.size ≠ 0 := fun hzero => by
      rw [ExtTreeMap.eq_empty_iff_size_eq_zero.mpr hzero, ExtTreeMap.getElem?_empty] at hid
      cases hid
    show h.totalSpawned.toNat = (saturatingSucc h.totalStopped).toNat +
      (h.instances.erase id).size
    change h.totalSpawned.toNat < 2 ^ 64 - 1 at hlt
    rw [ExtTreeMap.size_erase, ExtTreeMap.contains_eq_isSome_getElem?, hid,
      toNat_saturatingSucc (by omega), Option.isSome_some, if_pos rfl]
    omega

theorem Accounts.shutdown (ha : h.Accounts) : h.shutdown.Accounts := by
  unfold HypervisorService.shutdown
  exact h.instances.keys.foldlRecOn _ ha fun _ ha id _ => ha.vmStopInternal id

/-- Instances that change in place. -/
structure InPlace (h h' : HypervisorService) (f : String → VmInstance → VmInstance) : Prop where
  counters : h'.totalSpawned = h.totalSpawned ∧ h'.totalStopped = h.totalStopped
  size : h'.instances.size = h.instances.size
  instances (id : String) : h'.instances[id]? = h.instances[id]?.map (f id)
  ages (id : String) (inst : VmInstance) : Ages inst (f id inst)

variable {f : String → VmInstance → VmInstance}

theorem Accounts.inPlace (ha : h.Accounts) (hf : InPlace h h' f) : h'.Accounts where
  total hlt := by
    rw [hf.counters.1, hf.counters.2, hf.size]
    exact ha.total (hf.counters.1 ▸ hlt)
  key id inst' hinst' := by
    rw [hf.instances] at hinst'
    obtain ⟨inst, hinst, rfl⟩ := Option.map_eq_some_iff.mp hinst'
    exact (hf.ages id inst).id.trans (ha.key id inst hinst)
  state id inst' hinst' := by
    rw [hf.instances] at hinst'
    obtain ⟨inst, hinst, rfl⟩ := Option.map_eq_some_iff.mp hinst'
    rcases (hf.ages id inst).state with heq | ⟨-, herror⟩
    · rw [heq]
      exact ha.state id inst hinst
    · exact .inr herror

theorem vmHeartbeat_inPlace (h : HypervisorService) (id : String) (now : UInt64) :
    InPlace h (h.vmHeartbeat id now).2 fun id' inst =>
      if id = id' then { inst with heartbeatAt := now } else inst := by
  have hages (id' : String) (inst : VmInstance) :
      Ages inst (if id = id' then { inst with heartbeatAt := now } else inst) := by
    split_ifs
    · exact ⟨rfl, rfl, rfl, .inl rfl⟩
    · exact .refl inst
  unfold vmHeartbeat
  cases hid : h.instances[id]? with
  | none =>
    refine ⟨⟨rfl, rfl⟩, rfl, fun id' => ?_, hages⟩
    by_cases heq : id = id'
    · rw [← heq, hid]
      rfl
    · simp only [if_neg heq, Option.map_id']
  | some inst =>
    refine ⟨⟨rfl, rfl⟩, ?_, fun id' => ?_, hages⟩
    · show (h.instances.insert id _).size = _
      rw [ExtTreeMap.size_insert, ExtTreeMap.contains_eq_isSome_getElem?, hid]
      rfl
    · show (h.instances.insert id _)[id']? = _
      by_cases heq : id = id'
      · subst heq
        rw [ExtTreeMap.getElem?_insert_self, hid, Option.map_some, if_pos rfl]
      · rw [OrdMap.getElem?_insert_of_ne _ heq]
        simp only [if_neg heq, Option.map_id']

theorem sweepStale_inPlace (h : HypervisorService) (now timeout : UInt64) :
    InPlace h (h.sweepStale now timeout).2 fun _ inst =>
      if stale now timeout inst then timedOut now inst else inst where
  counters := ⟨rfl, rfl⟩
  size := ExtTreeMap.size_map
  instances := sweepStale_spec h now timeout
  ages id inst := by
    split_ifs with hstale
    · obtain ⟨hrunning, -⟩ := Bool.and_eq_true_iff.mp hstale
      exact ⟨rfl, rfl, rfl, .inr ⟨by simpa using hrunning, _, rfl⟩⟩
    · exact .refl inst

theorem Accounts.step {c : VmCall} (ha : h.Accounts) (hs : h.step c = some h') : h'.Accounts := by
  cases c with
  | start id name now ctx =>
    cases hs
    rcases vmStart_spec h id name now ctx with hsame | ⟨-, hid, hspawn⟩
    · rwa [hsame]
    · rw [hspawn]
      exact ha.spawn hid name now
  | stop id ctx =>
    cases hs
    rcases vmStop_spec h id ctx with hsame | ⟨-, hstop⟩
    · rwa [hsame]
    · rw [hstop]
      exact ha.vmStopInternal id
  | heartbeat id now =>
    cases hs
    exact ha.inPlace (vmHeartbeat_inPlace h id now)
  | sweep now timeout =>
    cases hs
    exact ha.inPlace (sweepStale_inPlace h now timeout)
  | shutdown =>
    cases hs
    exact ha.shutdown

/-! ## What needs a capability -/

/-- The call may end instances. -/
def VmCall.Kills : VmCall → Prop
  | .stop _ ctx => Capability.serviceKill ∈ ctx.caps
  | .shutdown => True
  | _ => False

/-- The call may begin instances. -/
def VmCall.Spawns : VmCall → Prop
  | .start _ _ _ ctx => Capability.serviceSpawn ∈ ctx.caps
  | _ => False

theorem InPlace.survives (hf : InPlace h h' f) (hinst : h.instances[id]? = some inst) :
    ∃ inst', h'.instances[id]? = some inst' ∧ Ages inst inst' :=
  ⟨f id inst, by rw [hf.instances, hinst, Option.map_some], hf.ages id inst⟩

/-- Without the capability to kill, an instance that is there stays there. -/
theorem survives_step {c : VmCall} (hc : ¬ c.Kills) (hs : h.step c = some h')
    (hinst : h.instances[id]? = some inst) :
    ∃ inst', h'.instances[id]? = some inst' ∧ Ages inst inst' := by
  cases c with
  | start id' name now ctx =>
    cases hs
    rcases vmStart_spec h id' name now ctx with hsame | ⟨-, hid', hspawn⟩
    · rw [hsame]
      exact ⟨inst, hinst, .refl inst⟩
    · have hne : id' ≠ id := by
        rintro rfl
        cases hid'.symm.trans hinst
      rw [hspawn]
      exact ⟨inst, (OrdMap.getElem?_insert_of_ne _ hne _).trans hinst, .refl inst⟩
  | stop id' ctx =>
    cases hs
    rcases vmStop_spec h id' ctx with hsame | ⟨hcap, -⟩
    · rw [hsame]
      exact ⟨inst, hinst, .refl inst⟩
    · exact absurd hcap hc
  | heartbeat id' now =>
    cases hs
    exact (vmHeartbeat_inPlace h id' now).survives hinst
  | sweep now timeout =>
    cases hs
    exact (sweepStale_inPlace h now timeout).survives hinst
  | shutdown => exact absurd trivial hc

theorem InPlace.absent (hf : InPlace h h' f)
    (hid : h.instances[id]? = none) : h'.instances[id]? = none := by
  rw [hf.instances, hid, Option.map_none]

theorem absent_vmStopInternal {id' : String} (hid : h.instances[id]? = none) :
    (h.vmStopInternal id').2.instances[id]? = none := by
  rcases vmStopInternal_spec h id' with ⟨-, hsame⟩ | ⟨-, herase⟩
  · rwa [hsame]
  · rw [herase]
    show (h.instances.erase id')[id]? = none
    rw [ExtTreeMap.getElem?_erase, hid, ite_self]

/-- Without the capability to spawn, what is not there does not come. -/
theorem absent_step {c : VmCall} (hc : ¬ c.Spawns) (hs : h.step c = some h')
    (hid : h.instances[id]? = none) : h'.instances[id]? = none := by
  cases c with
  | start id' name now ctx =>
    cases hs
    rcases vmStart_spec h id' name now ctx with hsame | ⟨hcap, -⟩
    · rwa [hsame]
    · exact absurd hcap hc
  | stop id' ctx =>
    cases hs
    rcases vmStop_spec h id' ctx with hsame | ⟨-, hstop⟩
    · rwa [hsame]
    · rw [hstop]
      exact absent_vmStopInternal hid
  | heartbeat id' now =>
    cases hs
    exact (vmHeartbeat_inPlace h id' now).absent hid
  | sweep now timeout =>
    cases hs
    exact (sweepStale_inPlace h now timeout).absent hid
  | shutdown =>
    cases hs
    unfold HypervisorService.shutdown
    exact h.instances.keys.foldlRecOn
      (motive := fun k : HypervisorService => k.instances[id]? = none) _ hid
      fun _ hid _ _ => absent_vmStopInternal hid

/-- In every run, what was started is there or was stopped. While nobody can kill, an instance takes
only legal transitions, and never runs again once it was found silent; while nobody can spawn,
nothing comes. -/
theorem hypervisor_run (hs : Reachable step (fun _ _ => True) new h) : h.Accounts ∧
    (∀ h', Reachable step (fun _ c => ¬ VmCall.Kills c) h h' → ∀ (id : String) (inst : VmInstance),
      h.instances[id]? = some inst → ∃ inst', h'.instances[id]? = some inst' ∧ Ages inst inst' ∧
        inst.state.canTransitionTo inst'.state = true) ∧
    ∀ h', Reachable step (fun _ c => ¬ VmCall.Spawns c) h h' → ∀ id : String,
      h.instances[id]? = none → h'.instances[id]? = none := by
  refine ⟨hs.invariant accounts_new fun _ _ _ _ ha _ hs => ha.step hs, ?_, ?_⟩
  · intro h' hs' id inst hinst
    obtain ⟨inst', hinst', hage⟩ := hs'.invariant
      (I := fun h' : HypervisorService => ∃ inst', h'.instances[id]? = some inst' ∧ Ages inst inst')
      ⟨inst, hinst, .refl inst⟩ fun _ c _ _ ⟨mid, hmid, hage⟩ hc hs =>
        (survives_step hc hs hmid).imp fun _ hnext => ⟨hnext.1, hage.trans hnext.2⟩
    exact ⟨inst', hinst', hage, hage.legal⟩
  · intro h' hs' id hid
    exact hs'.invariant (I := fun h' : HypervisorService => h'.instances[id]? = none) hid
      fun _ _ _ _ hid hc hs => absent_step hc hs hid

/-- An instance that was silent for 100 seconds is swept, and a heartbeat does not bring it back. -/
theorem hypervisor_run_silent : ∃ h h' : HypervisorService, h.totalSpawned = 1 ∧
    h.vmStatus "vm" = .error "heartbeat timeout: last seen 100000ms ago" ∧
    h' = (h.vmHeartbeat "vm" 100001).2 ∧ h'.vmStatus "vm" = h.vmStatus "vm" ∧
    h.totalSpawned.toNat = h.totalStopped.toNat + h.instances.size := by
  have hs : Reachable step (fun _ _ => True) new ((new.vmStart "vm" "game" 0
      (.new "host" {.serviceSpawn})).2.sweepStale 100000 30000).2 :=
    .tail (.tail .refl (a := .start "vm" "game" 0 (.new "host" {.serviceSpawn})) trivial rfl)
      (a := .sweep 100000 30000) trivial rfl
  generalize hh : ((new.vmStart "vm" "game" 0
    (.new "host" {.serviceSpawn})).2.sweepStale 100000 30000).2 = h at hs
  have hspawned : h.totalSpawned = 1 := by
    rw [← hh]
    decide +kernel
  have hstatus : h.vmStatus "vm" = .error "heartbeat timeout: last seen 100000ms ago" := by
    rw [← hh]
    decide +kernel
  obtain ⟨haccounts, hlegal, -⟩ := hypervisor_run hs
  obtain ⟨inst, hinst⟩ : ∃ inst, h.instances["vm"]? = some inst := by
    rw [← Option.isSome_iff_exists, ← hh]
    decide +kernel
  obtain ⟨inst', hinst', hage, -⟩ := hlegal _ (.tail .refl (a := .heartbeat "vm" 100001) id rfl)
    "vm" inst hinst
  refine ⟨h, _, hspawned, hstatus, rfl, ?_, haccounts.total (by rw [hspawned]; decide)⟩
  rw [vmStatus, hinst] at hstatus
  rw [vmStatus, vmStatus, hinst, hinst']
  rcases hage.state with heq | ⟨hrunning, -⟩
  · exact heq
  · cases hrunning.symm.trans hstatus

end HypervisorService

end P2P333.Platform333.Kernel
