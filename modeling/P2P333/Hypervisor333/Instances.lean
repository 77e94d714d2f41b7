import P2P333.Lib.Checked
import P2P333.Lib.OrdMap
import P2P333.Lib.SplitOnce
import P2P333.Lib.Transition

/-!
# Instances, quotas and snapshots

`333-hypervisor/src/lib.rs`: `InMemoryHypervisor`, one lock around a map of slots. A slot has the
state of an instance, what it has used, and the snapshots of both. Of a manifest only the quota is
read. `drop_snapshot` searches the slots in an order that the map does not fix: the order is an
argument here.

Results:
1. `step_slot`: what a call does to one slot.
2. `quota_run`: no slot, and no snapshot that could be restored, is ever above its quota.
3. `lifecycle_run`: an instance only moves along the edges of its life cycle, whatever is restored.
4. `drop_order`: the order of a search does not matter.
-/

namespace P2P333.Hypervisor333

open Std Lib

/-! ## Definitions -/

/-- Where an instance is in its life. -/
inductive State
  | created
  | running
  | paused
  | stopped
deriving DecidableEq

structure Quota where
  maxMemoryBytes : UInt64
  maxCpuMs : UInt64
  maxFuel : UInt64
deriving DecidableEq

structure Usage where
  memoryBytes : UInt64
  cpuMs : UInt64
  fuelConsumed : UInt64
deriving DecidableEq

/-- Why a call is refused. -/
inductive HyperError
  | unknownInstance
  | alreadyExists (id : String)
  | quotaExceeded (resource : String) (used limit : UInt64)
  | invalidTransition (source target : State)
  | snapshotNotFound (snap : String)
deriving DecidableEq

structure Slot where
  quota : Quota
  state : State
  usage : Usage
  snapshots : OrdMap String (State × Usage)

structure Inner where
  slots : OrdMap String Slot
  snapCounter : UInt64

/-- `saturating_add` of each. -/
def Usage.add (u delta : Usage) : Usage :=
  ⟨⟨saturatingAdd u.memoryBytes.toBitVec delta.memoryBytes.toBitVec⟩,
    ⟨saturatingAdd u.cpuMs.toBitVec delta.cpuMs.toBitVec⟩,
    ⟨saturatingAdd u.fuelConsumed.toBitVec delta.fuelConsumed.toBitVec⟩⟩

def validTransition : State → State → Bool
  | .created, .running | .running, .paused | .paused, .running => true
  | .created, .stopped | .running, .stopped | .paused, .stopped => true
  | _, _ => false

/-- To put back the state that the instance has is not a transition. -/
def validRestore (source target : State) : Bool :=
  decide (source = target) || validTransition source target

def checkSlot (slot : Slot) (delta : Usage) : Except HyperError Unit :=
  let q := slot.quota
  let next := slot.usage.add delta
  if q.maxMemoryBytes < next.memoryBytes then
    .error (.quotaExceeded "memory" next.memoryBytes q.maxMemoryBytes)
  else if q.maxCpuMs < next.cpuMs then .error (.quotaExceeded "cpu_ms" next.cpuMs q.maxCpuMs)
  else if q.maxFuel < next.fuelConsumed then
    .error (.quotaExceeded "fuel" next.fuelConsumed q.maxFuel)
  else .ok ()

def snapId (id : String) (counter : UInt64) : String :=
  "snap-" ++ id ++ "-" ++ toString counter.toNat

namespace Inner

def new : Inner := ⟨∅, 0⟩

def create (g : Inner) (id : String) (quota : Quota) : Except HyperError Inner :=
  if g.slots.contains id then .error (.alreadyExists id)
  else .ok { g with slots := g.slots.insert id ⟨quota, .created, ⟨0, 0, 0⟩, ∅⟩ }

def destroy (g : Inner) (id : String) : Except HyperError Inner :=
  if g.slots.contains id then .ok { g with slots := g.slots.erase id } else .error .unknownInstance

def transition (g : Inner) (id : String) (target : State) : Except HyperError Inner :=
  match g.slots[id]? with
  | none => .error .unknownInstance
  | some slot =>
    if validTransition slot.state target then
      .ok { g with slots := g.slots.insert id { slot with state := target } }
    else .error (.invalidTransition slot.state target)

def start (g : Inner) (id : String) : Except HyperError Inner := g.transition id .running

def pause (g : Inner) (id : String) : Except HyperError Inner := g.transition id .paused

def resume (g : Inner) (id : String) : Except HyperError Inner := g.transition id .running

def stop (g : Inner) (id : String) : Except HyperError Inner := g.transition id .stopped

/-- The counter is counted up first, also where there is no such instance. -/
def snapshot (g : Inner) (id : String) : Except HyperError String × Inner :=
  let counter := g.snapCounter + 1
  match g.slots[id]? with
  | none => (.error .unknownInstance, { g with snapCounter := counter })
  | some slot =>
    let snap := snapId id counter
    (.ok snap, ⟨g.slots.insert id
      { slot with snapshots := slot.snapshots.insert snap (slot.state, slot.usage) }, counter⟩)

def restore (g : Inner) (id snap : String) : Except HyperError Inner :=
  match g.slots[id]? with
  | none => .error .unknownInstance
  | some slot =>
    match slot.snapshots[snap]? with
    | none => .error (.snapshotNotFound snap)
    | some (state, usage) =>
      if validRestore slot.state state then
        .ok { g with slots := g.slots.insert id { slot with state := state, usage := usage } }
      else .error (.invalidTransition slot.state state)

/-- Whether the slot of this instance has the snapshot. -/
def holds (g : Inner) (snap id : String) : Bool :=
  match g.slots[id]? with
  | some slot => slot.snapshots.contains snap
  | none => false

/-- The first slot in this order that has the snapshot loses it. -/
def dropSnapshot (g : Inner) (order : List String) (snap : String) : Except HyperError Inner :=
  match order.find? (g.holds snap) with
  | none => .error (.snapshotNotFound snap)
  | some id =>
    .ok { g with slots := g.slots.modify id fun slot =>
      { slot with snapshots := slot.snapshots.erase snap } }

def record (g : Inner) (id : String) (delta : Usage) : Except HyperError Inner :=
  match g.slots[id]? with
  | none => .error .unknownInstance
  | some slot =>
    match checkSlot slot delta with
    | .error e => .error e
    | .ok () =>
      .ok { g with slots := g.slots.insert id { slot with usage := slot.usage.add delta } }

end Inner

/-! ## Calls -/

/-- The calls of the hypervisor. -/
inductive VmCall
  | create (id : String) (quota : Quota)
  | destroy (id : String)
  | start (id : String)
  | pause (id : String)
  | resume (id : String)
  | stop (id : String)
  | snapshot (id : String)
  | restore (id snap : String)
  | dropSnapshot (order : List String) (snap : String)
  | record (id : String) (delta : Usage)
deriving DecidableEq

namespace Inner

/-- A call that returns an error leaves the hypervisor as it was. -/
def settle (g : Inner) : Except HyperError Inner → Inner
  | .ok g' => g'
  | .error _ => g

def step (g : Inner) : VmCall → Option Inner
  | .create id quota => some (g.settle (g.create id quota))
  | .destroy id => some (g.settle (g.destroy id))
  | .start id => some (g.settle (g.start id))
  | .pause id => some (g.settle (g.pause id))
  | .resume id => some (g.settle (g.resume id))
  | .stop id => some (g.settle (g.stop id))
  | .snapshot id => some (g.snapshot id).2
  | .restore id snap => some (g.settle (g.restore id snap))
  | .dropSnapshot order snap => some (g.settle (g.dropSnapshot order snap))
  | .record id delta => some (g.settle (g.record id delta))

end Inner

/-- What a call does to one slot. -/
inductive SlotStep (a : VmCall) (id : String) : Option Slot → Option Slot → Prop
  | same (o : Option Slot) : SlotStep a id o o
  | created (quota : Quota) : SlotStep a id none (some ⟨quota, .created, ⟨0, 0, 0⟩, ∅⟩)
  | destroyed (slot : Slot) (h : a = .destroy id) : SlotStep a id (some slot) none
  | moved (slot : Slot) (target : State) (h : validTransition slot.state target = true) :
      SlotStep a id (some slot) (some { slot with state := target })
  | captured (slot : Slot) (counter : UInt64) :
      SlotStep a id (some slot) (some { slot with
        snapshots := slot.snapshots.insert (snapId id counter) (slot.state, slot.usage) })
  | restored (slot : Slot) (snap : String) (state : State) (usage : Usage)
      (hsnap : slot.snapshots[snap]? = some (state, usage))
      (h : validRestore slot.state state = true) :
      SlotStep a id (some slot) (some { slot with state := state, usage := usage })
  | dropped (slot : Slot) (snap : String) :
      SlotStep a id (some slot) (some { slot with snapshots := slot.snapshots.erase snap })
  | recorded (slot : Slot) (delta : Usage) (h : checkSlot slot delta = .ok ()) :
      SlotStep a id (some slot) (some { slot with usage := slot.usage.add delta })

namespace Inner

variable {g g' : Inner} {a : VmCall}

/-- A slot that is put in place of the old one. -/
theorem slotStep_insert {id : String} {o : Option Slot} {slot' : Slot} (ho : g.slots[id]? = o)
    (h : SlotStep a id o (some slot')) (id' : String) :
    SlotStep a id' g.slots[id']? (g.slots.insert id slot')[id']? := by
  rcases eq_or_ne id id' with rfl | hne
  · rw [ExtTreeMap.getElem?_insert_self, ho]
    exact h
  · rw [OrdMap.getElem?_insert_of_ne _ hne]
    exact .same _

theorem slotStep_transition (id : String) (target : State) (id' : String) :
    SlotStep a id' g.slots[id']? (g.settle (g.transition id target)).slots[id']? := by
  unfold transition
  split
  · exact .same _
  · next slot hslot =>
    split
    · next h => exact slotStep_insert hslot (.moved slot target h) id'
    · exact .same _

theorem step_slot (hstep : g.step a = some g') (id' : String) :
    SlotStep a id' g.slots[id']? g'.slots[id']? := by
  -- Every call writes one slot at most.
  cases a with
  | create id quota =>
    cases hstep
    unfold create
    split
    · exact .same _
    · next h =>
      have hnone : g.slots[id]? = none :=
        ExtTreeMap.getElem?_eq_none fun hmem => h (ExtTreeMap.contains_iff_mem.mpr hmem)
      exact slotStep_insert hnone (.created quota) id'
  | destroy id =>
    cases hstep
    unfold destroy
    split
    · show SlotStep _ id' g.slots[id']? (g.slots.erase id)[id']?
      rw [ExtTreeMap.getElem?_erase]
      split
      · next heq =>
        rw [LawfulEqCmp.eq_of_compare heq]
        cases g.slots[id']? with
        | none => exact .same _
        | some slot => exact .destroyed slot rfl
      · exact .same _
    · exact .same _
  | start id | resume id =>
    cases hstep
    exact slotStep_transition id .running id'
  | pause id =>
    cases hstep
    exact slotStep_transition id .paused id'
  | stop id =>
    cases hstep
    exact slotStep_transition id .stopped id'
  | snapshot id =>
    cases hstep
    unfold snapshot
    dsimp only
    split
    · exact .same _
    · next slot hslot => exact slotStep_insert hslot (.captured slot _) id'
  | restore id snap =>
    cases hstep
    unfold restore
    split
    · exact .same _
    · next slot hslot =>
      split
      · exact .same _
      · next state usage hsnap =>
        split
        · next h => exact slotStep_insert hslot (.restored slot snap state usage hsnap h) id'
        · exact .same _
  | dropSnapshot order snap =>
    cases hstep
    unfold dropSnapshot
    split
    · exact .same _
    · next id hid =>
      show SlotStep _ id' g.slots[id']? (g.slots.modify id _)[id']?
      rw [ExtTreeMap.getElem?_modify]
      split
      · next heq =>
        rw [LawfulEqCmp.eq_of_compare heq]
        cases g.slots[id']? with
        | none => exact .same _
        | some slot => exact .dropped slot snap
      · exact .same _
  | record id delta =>
    cases hstep
    unfold record
    split
    · exact .same _
    · next slot hslot =>
      split
      · exact .same _
      · next h => exact slotStep_insert hslot (.recorded slot delta h) id'

end Inner

/-! ## Quotas -/

/-- Nothing is above its limit. -/
def Usage.Within (u : Usage) (q : Quota) : Prop :=
  u.memoryBytes ≤ q.maxMemoryBytes ∧ u.cpuMs ≤ q.maxCpuMs ∧ u.fuelConsumed ≤ q.maxFuel

/-- The error names a limit of the quota, and the usage that would be above it. -/
inductive Usage.Passes (u : Usage) (q : Quota) : HyperError → Prop
  | memory : q.maxMemoryBytes < u.memoryBytes →
      Passes u q (.quotaExceeded "memory" u.memoryBytes q.maxMemoryBytes)
  | cpu : q.maxCpuMs < u.cpuMs → Passes u q (.quotaExceeded "cpu_ms" u.cpuMs q.maxCpuMs)
  | fuel : q.maxFuel < u.fuelConsumed →
      Passes u q (.quotaExceeded "fuel" u.fuelConsumed q.maxFuel)

/-- The slot and all its snapshots are within the quota, and the snapshots were taken here. -/
structure Slot.Lawful (id : String) (slot : Slot) : Prop where
  usage : slot.usage.Within slot.quota
  snapshots (snap : String) (state : State) (usage : Usage) :
    slot.snapshots[snap]? = some (state, usage) →
      usage.Within slot.quota ∧ ∃ counter, snap = snapId id counter

variable {id : String} {slot slot' : Slot} {o o' : Option Slot} {a : VmCall}

theorem checkSlot_ok_iff (slot : Slot) (delta : Usage) :
    checkSlot slot delta = .ok () ↔ (slot.usage.add delta).Within slot.quota := by
  unfold checkSlot Usage.Within
  simp only [← UInt64.not_lt]
  split_ifs with hmemory hcpu hfuel <;> simp [*]

theorem checkSlot_error {delta : Usage} {e : HyperError} (h : checkSlot slot delta = .error e) :
    (slot.usage.add delta).Passes slot.quota e := by
  unfold checkSlot at h
  dsimp only at h
  split_ifs at h with hmemory hcpu hfuel
  · cases h
    exact .memory hmemory
  · cases h
    exact .cpu hcpu
  · cases h
    exact .fuel hfuel

theorem SlotStep.lawful (h : SlotStep a id o o') (ho : ∀ slot, o = some slot → slot.Lawful id)
    (hslot' : o' = some slot') : slot'.Lawful id := by
  cases h with
  | same o => exact ho slot' hslot'
  | created quota =>
    cases hslot'
    refine ⟨⟨UInt64.zero_le, UInt64.zero_le, UInt64.zero_le⟩, fun snap state usage h => ?_⟩
    rw [ExtTreeMap.getElem?_empty] at h
    cases h
  | destroyed slot _ => cases hslot'
  | moved slot target _ =>
    cases hslot'
    exact ⟨(ho slot rfl).usage, (ho slot rfl).snapshots⟩
  | captured slot counter =>
    cases hslot'
    refine ⟨(ho slot rfl).usage, fun snap state usage h => ?_⟩
    rw [ExtTreeMap.getElem?_insert] at h
    split at h
    · next heq =>
      cases h
      exact ⟨(ho slot rfl).usage, counter, (LawfulEqCmp.eq_of_compare heq).symm⟩
    · exact (ho slot rfl).snapshots snap state usage h
  | restored slot snap state usage hsnap _ =>
    cases hslot'
    exact ⟨((ho slot rfl).snapshots snap state usage hsnap).1, (ho slot rfl).snapshots⟩
  | dropped slot snap =>
    cases hslot'
    refine ⟨(ho slot rfl).usage, fun snap' state usage h => ?_⟩
    rw [ExtTreeMap.getElem?_erase] at h
    split at h
    · cases h
    · exact (ho slot rfl).snapshots snap' state usage h
  | recorded slot delta h =>
    cases hslot'
    exact ⟨(checkSlot_ok_iff slot delta).mp h, (ho slot rfl).snapshots⟩

namespace Inner

variable {g g' : Inner}

def Lawful (g : Inner) : Prop :=
  ∀ (id : String) (slot : Slot), g.slots[id]? = some slot → slot.Lawful id

theorem lawful_of_reachable {ok : Inner → VmCall → Prop} (hg : Reachable step ok new g) :
    g.Lawful := by
  refine hg.invariant (fun id slot h => ?_) fun g a g' _ ih _ hstep id slot' h => ?_
  · cases (ExtTreeMap.getElem?_empty (a := id)).symm.trans h
  · exact (step_slot hstep id).lawful (ih id) h

end Inner

/-! ## The life cycle -/

/-- The edges of the life cycle. -/
def Edge (source target : State) : Prop := validTransition source target = true

theorem SlotStep.edge (h : SlotStep a id (some slot) o') (ha : a ≠ .destroy id) :
    ∃ slot', o' = some slot' ∧ slot'.quota = slot.quota ∧
      Relation.ReflTransGen Edge slot.state slot'.state := by
  cases h with
  | same _ => exact ⟨slot, rfl, rfl, .refl⟩
  | destroyed _ h => exact absurd h ha
  | moved _ target h => exact ⟨_, rfl, rfl, .single h⟩
  | captured _ _ => exact ⟨_, rfl, rfl, .refl⟩
  | restored _ snap state usage _ h =>
    refine ⟨_, rfl, rfl, ?_⟩
    rcases Bool.or_eq_true_iff.mp h with heq | hedge
    · rw [of_decide_eq_true heq]
    · exact .single hedge
  | dropped _ _ => exact ⟨_, rfl, rfl, .refl⟩
  | recorded _ _ _ => exact ⟨_, rfl, rfl, .refl⟩

theorem stopped_of_edges {s t : State} (h : Relation.ReflTransGen Edge s t) :
    (s = .stopped → t = .stopped) ∧ (t = .created → s = .created) := by
  induction h with
  | refl => exact ⟨id, id⟩
  | @tail t u _ hedge ih =>
    refine ⟨fun hs => ?_, fun hu => ?_⟩
    · -- No edge leads out of this state.
      rw [ih.1 hs] at hedge
      cases u <;> cases hedge
    · -- No edge leads back into that one.
      rw [hu] at hedge
      cases t <;> cases hedge

namespace Inner

variable {g g' : Inner}

/-- From any state on, as long as an instance is not destroyed, it keeps its quota and moves along
the edges of its life cycle only, whatever snapshots are restored: an instance that was stopped
stays so, and an instance that was started never becomes a fresh one. -/
theorem lifecycle_run {id : String} (hg : Reachable step (fun _ a => a ≠ .destroy id) g g')
    {slot : Slot} (hslot : g.slots[id]? = some slot) :
    ∃ slot', g'.slots[id]? = some slot' ∧ slot'.quota = slot.quota ∧
      Relation.ReflTransGen Edge slot.state slot'.state ∧
      (slot.state = .stopped → slot'.state = .stopped) ∧
      (slot'.state = .created → slot.state = .created) := by
  have hrun : ∃ slot' : Slot, g'.slots[id]? = some slot' ∧ slot'.quota = slot.quota ∧
      Relation.ReflTransGen Edge slot.state slot'.state := by
    induction hg with
    | refl => exact ⟨slot, hslot, rfl, .refl⟩
    | tail _ ha hstep ih =>
      obtain ⟨slot₁, hslot₁, hquota₁, hedges₁⟩ := ih
      have hone := step_slot hstep id
      rw [hslot₁] at hone
      obtain ⟨slot₂, hslot₂, hquota₂, hedges₂⟩ := hone.edge ha
      exact ⟨slot₂, hslot₂, hquota₂.trans hquota₁, hedges₁.trans hedges₂⟩
  obtain ⟨slot', hslot', hquota, hedges⟩ := hrun
  exact ⟨slot', hslot', hquota, hedges, stopped_of_edges hedges⟩

end Inner

/-! ## Names of snapshots -/

theorem dash_notMem_toString (n : Nat) : '-' ∉ (toString n).toList := by
  show '-' ∉ (String.ofList (Nat.toDigits 10 n)).toList
  rw [String.toList_ofList]
  intro hmem
  exact absurd (Nat.isDigit_of_mem_toDigits (by decide) (by decide) hmem) (by decide)

/-- The digits of the counter have no dash, so the last dash ends the name of the instance. -/
theorem snapId_injective {id id' : String} {counter counter' : UInt64}
    (h : snapId id counter = snapId id' counter') : id = id' := by
  have hlist := congrArg (fun s => s.toList.reverse) h
  simp only [snapId, String.toList_append, List.reverse_append] at hlist
  have hdash : ("-" : String).toList.reverse = ['-'] := rfl
  rw [hdash, List.singleton_append, List.singleton_append] at hlist
  have hsplit := congrArg (splitOnce ['-']) hlist
  have hnot (n : Nat) : '-' ∉ (toString n).toList.reverse := fun hmem =>
    dash_notMem_toString n (List.mem_reverse.mp hmem)
  rw [splitOnce_of_notMem (hnot _), splitOnce_of_notMem (hnot _)] at hsplit
  have hrest := List.append_cancel_right (congrArg Prod.snd (Option.some.inj hsplit))
  exact String.toList_inj.mp (List.reverse_injective hrest)

namespace Inner

variable {g : Inner}

/-- What is found does not depend on the order, where only one can be found. -/
theorem find?_eq_of_unique {p : String → Bool} {l l' : List String}
    (hunique : ∀ a b, p a = true → p b = true → a = b) (hmem : ∀ a, a ∈ l ↔ a ∈ l') :
    l.find? p = l'.find? p := by
  cases h : l.find? p with
  | none =>
    refine (List.find?_eq_none.mpr fun a ha => ?_).symm
    exact List.find?_eq_none.mp h a ((hmem a).mpr ha)
  | some a =>
    have ha : a ∈ l' := (hmem a).mp (List.mem_of_find?_eq_some h)
    cases h' : l'.find? p with
    | none => exact absurd (List.find?_some h) (List.find?_eq_none.mp h' a ha)
    | some b => rw [hunique a b (List.find?_some h) (List.find?_some h')]

theorem Lawful.holds_unique (h : g.Lawful) {snap id id' : String} (hid : g.holds snap id = true)
    (hid' : g.holds snap id' = true) : id = id' := by
  have hname {id : String} (hid : g.holds snap id = true) :
      ∃ counter, snap = snapId id counter := by
    unfold holds at hid
    split at hid
    · next slot hslot =>
      have hmem : snap ∈ slot.snapshots := ExtTreeMap.contains_iff_mem.mp hid
      obtain ⟨e, he⟩ := Option.isSome_iff_exists.mp (ExtTreeMap.isSome_getElem?_iff_mem.mpr hmem)
      exact ((h id slot hslot).snapshots snap e.1 e.2 he).2
    · cases hid
  obtain ⟨counter, rfl⟩ := hname hid
  obtain ⟨counter', heq⟩ := hname hid'
  exact snapId_injective heq

/-- In every run a snapshot belongs to one instance, so the order in which the slots are searched
for it does not matter, and it is restored to no other instance. -/
theorem drop_order (hg : Reachable step (fun _ _ => True) new g) (snap : String)
    {order order' : List String} (horder : order.Perm g.slots.keys)
    (horder' : order'.Perm g.slots.keys) :
    g.dropSnapshot order snap = g.dropSnapshot order' snap ∧
      ∀ id id' : String, g.holds snap id = true → id' ≠ id →
        ∃ e, g.restore id' snap = .error e ∧
        (e = .unknownInstance ∨ e = .snapshotNotFound snap) := by
  have h := lawful_of_reachable hg
  refine ⟨?_, fun id id' hid hne => ?_⟩
  · unfold dropSnapshot
    rw [find?_eq_of_unique (fun a b ha hb => h.holds_unique ha hb) fun a =>
      horder.mem_iff.trans horder'.mem_iff.symm]
  · have hnot : ¬ g.holds snap id' = true := fun hid' => hne (h.holds_unique hid' hid)
    unfold holds at hnot
    unfold restore
    cases hslot : g.slots[id']? with
    | none => exact ⟨_, rfl, .inl rfl⟩
    | some slot =>
      simp only [hslot] at hnot
      have hnone : slot.snapshots[snap]? = none :=
        ExtTreeMap.getElem?_eq_none fun hmem => hnot (ExtTreeMap.contains_iff_mem.mpr hmem)
      simp only [hnone]
      exact ⟨_, rfl, .inr rfl⟩

end Inner

namespace Demo

def small : Quota := ⟨1024, 100, 10⟩

/-- An instance is started, paused for a snapshot, stopped, and restored. -/
def revive : List VmCall :=
  [.create "a-1" small, .start "a-1", .record "a-1" ⟨1000, 0, 0⟩, .snapshot "a-1", .stop "a-1",
    .restore "a-1" "snap-a-1-1"]

theorem revive_reachable : ∃ g : Inner, Reachable Inner.step (fun _ _ => True) Inner.new g ∧
    (g.slots["a-1"]?.map fun slot => (slot.quota, slot.state, slot.usage)) =
      some (small, .stopped, ⟨1000, 0, 0⟩) ∧ g.slots.keys = ["a-1"] ∧
      g.holds "snap-a-1-1" "a-1" = true :=
  Reachable.of_exec revive (by decide +kernel)

theorem drop_order_revive : ∃ g : Inner, g.holds "snap-a-1-1" "a-1" = true ∧
    ∃ e, g.restore "b" "snap-a-1-1" = .error e ∧
      (e = .unknownInstance ∨ e = .snapshotNotFound "snap-a-1-1") := by
  obtain ⟨g, hg, -, hkeys, hholds⟩ := revive_reachable
  have hperm : ["a-1"].Perm g.slots.keys := by rw [hkeys]
  exact ⟨g, hholds,
    (Inner.drop_order hg "snap-a-1-1" hperm hperm).2 "a-1" "b" hholds (by decide)⟩

/-- An instance that was stopped, with a snapshot from when it ran. -/
def terminal : Inner :=
  ⟨(∅ : OrdMap String Slot).insert "a" ⟨small, .stopped, ⟨0, 0, 0⟩,
    (∅ : OrdMap String (State × Usage)).insert "snap-a-1" (.running, ⟨0, 0, 0⟩)⟩, 1⟩

theorem lifecycle_run_terminal : ∃ (g : Inner) (slot : Slot),
    Reachable Inner.step (fun _ a => a ≠ .destroy "a") terminal g ∧ g.snapCounter = 2 ∧
      g.slots["a"]? = some slot ∧ slot.state = .stopped := by
  obtain ⟨g, hg, hcounter⟩ : ∃ g : Inner,
      Reachable Inner.step (fun _ a => a ≠ .destroy "a") terminal g ∧ g.snapCounter = 2 :=
    Reachable.of_exec [.restore "a" "snap-a-1", .start "a", .snapshot "a"] (by decide +kernel)
  obtain ⟨slot, hslot, -, -, hstopped, -⟩ :=
    Inner.lifecycle_run hg (ExtTreeMap.getElem?_insert_self (t := ∅))
  exact ⟨g, slot, hg, hcounter, hslot, hstopped rfl⟩

end Demo

end P2P333.Hypervisor333
