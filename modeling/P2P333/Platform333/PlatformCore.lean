import P2P333.Platform333.Hlc
import P2P333.Platform333.Tokenomics
import P2P333.Platform333.Bft.State
import P2P333.Platform333.Bft.Executor
import P2P333.Platform333.Crdt.LwwMap
import P2P333.Platform333.Kernel.Worker
import P2P333.Platform333.Kernel.Hypervisor

/-!
# The platform

`333-platform/src/platform.rs`, with the services of `kernel/builtin.rs` and the `MemoryStore` of
`storage/mod.rs`: the map of the world, the consensus, the ledgers and the kernel of one node. The
texts that `serde_json` makes of deltas are a parameter, and the readings of the clock are
arguments. `none` is a panic in one of the ledgers or the job counters.

Results:
1. `hasCapability_boot`: the services keep the capabilities of the boot.
2. `execute_never_denied`: in every run no request is denied, whatever is done with the kernel.
-/

namespace P2P333.Platform333

open Std Lib Platform333.Kernel Platform333.Crdt Platform333.Bft
open Tokenomics (TokenTx TokenResult TokenLedger)

/-! ## The services -/

/-- The services that the crate has outside its tests. -/
inductive Builtin where
  | crdt (writes merges : UInt64)
  | consensus (proposals commits : UInt64)
  | token (transfers : UInt64)
  | hypervisor (h : HypervisorService)

instance instServiceBuiltin : Service Builtin where
  name
    | .crdt .. => "platform:crdt"
    | .consensus .. => "platform:consensus"
    | .token .. => "platform:token"
    | .hypervisor .. => "platform:hypervisor"
  init s ctx := (.ok (), s, ctx)
  run s _ := (.ok (), s)
  stop
    | .hypervisor h => (.ok (), .hypervisor h.shutdown)
    | s => (.ok (), s)

/-- The services and capabilities of the boot. -/
def bootServices : List (Builtin × CapabilitySet) :=
  [(.crdt 0 0, {.worldRead, .worldWrite}), (.consensus 0 0, {.consensusSubmit}),
    (.token 0, {.tokenRead, .tokenTransfer})]

/-- The names come in the order in which the map gives them. -/
def bootKernel (names : List String) : ServiceRegistry Builtin :=
  let registered := bootServices.foldl (fun r s => (r.register s.1 s.2).2) ServiceRegistry.new
  (registered.startAll names).2

/-! ## The core -/

/-- What `serde_json` makes of deltas. -/
class DeltaJson where
  toText : LwwDelta String String → String
  fromText : String → Option (LwwDelta String String)

abbrev MemoryStore : Type := OrdMap Bytes Bytes

/-- What the platform can be asked to execute. -/
inductive ExecutionRequest where
  | crdtUpdate (key : String) (value : Option String)
  | ordered (tx : OrderedTx)
  | token (tx : TokenTx)

/-- What became of a request. -/
inductive ExecutionResponse where
  | crdtDelta (json : String)
  | committed (results : List TxResult)
  | tokenResult (r : TokenResult)
  | queued
  | error (text : String)

structure PlatformCore (W : Type) where
  nodeId : NodeId
  hlc : Hlc
  world : LwwMap String String
  consensus : HotStuffState
  executor : Executor
  tokenLedger : TokenLedger
  storage : MemoryStore
  kernel : ServiceRegistry Builtin
  workQueue : WorkerQueue W

namespace PlatformCore

variable {W : Type}

/-- The order in which the kernel starts its services is an argument. -/
def withIdentity [Ed25519] (nodeId : NodeId) (validators : ValidatorSet) (identity : Identity)
    (names : List String) (wall : UInt64) (now : Nat) : Option (PlatformCore W) :=
  (TokenLedger.new.genesis validators.validators).map fun tokenLedger =>
    { nodeId, tokenLedger
      hlc := .new wall nodeId
      world := .new nodeId
      consensus := .withIdentity nodeId validators identity now
      executor := validators.validators.foldl (fun e v => e.initAccount v 10000) .new
      storage := ∅
      kernel := bootKernel names
      workQueue := .new }

def kernelHasCapability (p : PlatformCore W) (service : String) (cap : Capability) : Bool :=
  p.kernel.hasCapability service cap

def put (p : PlatformCore W) (key value : Bytes) : PlatformCore W :=
  { p with storage := p.storage.insert key value }

variable [DeltaJson]

def execute (p : PlatformCore W) (now : UInt64) :
    ExecutionRequest → Option (ExecutionResponse × PlatformCore W)
  | .crdtUpdate key value =>
    if p.kernelHasCapability "platform:crdt" .worldWrite = false then
      some (.error "capability denied: platform:crdt lacks world:write", p)
    else
      let (delta, world) := match value with
        | some v => p.world.set key v
        | none => p.world.delete key
      let json := DeltaJson.toText delta
      some (.crdtDelta json, { p with hlc := p.hlc.tick now, world }.put
        "last_delta".toByteArray.data.toList json.toByteArray.data.toList)
  | .ordered tx =>
    if p.kernelHasCapability "platform:consensus" .consensusSubmit = false then
      some (.error "capability denied: platform:consensus lacks consensus:submit", p)
    else some (.queued, { p with consensus := (p.consensus.submitTx tx).2 })
  | .token tx =>
    if p.kernelHasCapability "platform:token" .tokenTransfer = false then
      some (.error "capability denied: platform:token lacks token:transfer", p)
    else (p.tokenLedger.execute tx).map fun r =>
      (.tokenResult r.1, { p with tokenLedger := r.2 })

def mergeRemoteDelta (p : PlatformCore W) (deltaJson : String) : PlatformCore W :=
  match DeltaJson.fromText deltaJson with
  | some delta => { p with world := p.world.mergeDelta delta }
  | none => p

def processConsensus (p : PlatformCore W) (m : Moment) (msg : HotStuffMsg) [Ed25519] :
    ProcessResult × PlatformCore W :=
  ((p.consensus.process m msg).1, { p with consensus := (p.consensus.process m msg).2 })

/-- The key under which a committed block is stored. -/
def blockKey (p : PlatformCore W) : Bytes :=
  ("block:" ++ toString p.consensus.committed.length).toByteArray.data.toList

def onCommit (p : PlatformCore W) (txs : List OrderedTx) :
    Option (List TxResult × PlatformCore W) :=
  (p.executor.executeBlock txs).map fun r =>
    (r.1, { p with executor := r.2 }.put p.blockKey (toVec txs))

def tickKernel (p : PlatformCore W) (maxJobs : Nat) (w : W) : Option (Nat × PlatformCore W × W) :=
  (p.workQueue.tick maxJobs w).map fun r =>
    (r.1.length, { p with workQueue := r.2.1 }, r.2.2)

def enqueueWorkWithCap (p : PlatformCore W) (name : String) (priority : JobPriority)
    (requiredCap : Capability) (service : String) (work : W → Ended × W) :
    Option (Except String JobId × PlatformCore W) :=
  if p.kernelHasCapability service requiredCap = false then
    some (.error ("capability denied: " ++ service ++ " lacks " ++ requiredCap.display), p)
  else (p.workQueue.enqueue name priority work).map fun r =>
    (.ok r.1, { p with workQueue := r.2 })

end PlatformCore

/-! ## The boot -/

theorem init_builtin (s : Builtin) (ctx : ServiceContext) : (Service.init s ctx).2.2 = ctx := rfl

/-- The kernel before its services are started. -/
def bootRegistry : ServiceRegistry Builtin :=
  bootServices.foldl (fun r s => (r.register s.1 s.2).2) .new

theorem bootKernel_reachable (names : List String) :
    Reachable ServiceRegistry.step (fun _ _ => True) bootRegistry (bootKernel names) :=
  .tail .refl (a := .startAll names) trivial rfl

/-- The services of the boot are there. -/
theorem bootRegistry_entry {service : String}
    (h : service ∈ ["platform:crdt", "platform:consensus", "platform:token"]) :
    ∃ e, bootRegistry.services[service]? = some e := by
  rw [← Option.isSome_iff_exists]
  fin_cases h <;> decide +kernel

/-- Whatever happens to a kernel after the boot, its services keep the capabilities of the boot. -/
theorem hasCapability_boot {names : List String} {k : ServiceRegistry Builtin}
    {ok : ServiceRegistry Builtin → RegistryCall Builtin → Prop}
    (hs : Reachable ServiceRegistry.step ok (bootKernel names) k) {service : String}
    (h : service ∈ ["platform:crdt", "platform:consensus", "platform:token"]) (cap : Capability) :
    k.hasCapability service cap = bootRegistry.hasCapability service cap := by
  obtain ⟨e, he⟩ := bootRegistry_entry h
  have hall : Reachable ServiceRegistry.step (fun _ _ => True) bootRegistry k :=
    (bootKernel_reachable names).trans (hs.mono fun _ _ _ => trivial)
  exact ServiceRegistry.hasCapability_run init_builtin hall he cap

/-! ## Runs -/

/-- The calls of the platform. -/
inductive PlatformCall (W : Type) where
  | execute (now : UInt64) (req : ExecutionRequest)
  | mergeRemoteDelta (deltaJson : String)
  | processConsensus (m : Moment) (msg : HotStuffMsg)
  | onCommit (txs : List OrderedTx)
  | tickKernel (maxJobs : Nat) (w : W)
  | enqueueWork (name : String) (priority : JobPriority) (cap : Capability) (service : String)
      (work : W → Ended × W)
  | kernel (c : RegistryCall Builtin)

namespace PlatformCore

variable {W : Type} [DeltaJson] [Ed25519] {p p' : PlatformCore W}

def step (p : PlatformCore W) : PlatformCall W → Option (PlatformCore W)
  | .execute now req => (p.execute now req).map Prod.snd
  | .mergeRemoteDelta deltaJson => some (p.mergeRemoteDelta deltaJson)
  | .processConsensus m msg => some (p.processConsensus m msg).2
  | .onCommit txs => (p.onCommit txs).map Prod.snd
  | .tickKernel maxJobs w => (p.tickKernel maxJobs w).map fun r => r.2.1
  | .enqueueWork name priority cap service work =>
    (p.enqueueWorkWithCap name priority cap service work).map Prod.snd
  | .kernel c => (p.kernel.step c).map fun kernel => { p with kernel }

/-- Only the calls to the kernel change it. -/
theorem kernel_step {c : PlatformCall W} (hs : p.step c = some p') :
    p'.kernel = p.kernel ∨ ∃ call, c = .kernel call ∧ p.kernel.step call = some p'.kernel := by
  cases c with
  | execute now req =>
    obtain ⟨r, hr, rfl⟩ := Option.map_eq_some_iff.mp hs
    left
    cases req with
    | crdtUpdate key value | ordered tx =>
      unfold execute at hr
      dsimp only at hr
      split_ifs at hr with hcap
      · cases hr
        rfl
      · cases hr
        rfl
    | token tx =>
      unfold execute at hr
      dsimp only at hr
      split_ifs at hr with hcap
      · cases hr
        rfl
      · obtain ⟨result, -, rfl⟩ := Option.map_eq_some_iff.mp hr
        rfl
  | mergeRemoteDelta deltaJson =>
    cases hs
    left
    unfold mergeRemoteDelta
    split <;> rfl
  | processConsensus m msg =>
    cases hs
    exact .inl rfl
  | onCommit txs | tickKernel maxJobs w =>
    obtain ⟨r, hr, rfl⟩ := Option.map_eq_some_iff.mp hs
    obtain ⟨result, -, rfl⟩ := Option.map_eq_some_iff.mp hr
    exact .inl rfl
  | enqueueWork name priority cap service work =>
    obtain ⟨r, hr, rfl⟩ := Option.map_eq_some_iff.mp hs
    unfold enqueueWorkWithCap at hr
    split_ifs at hr with hcap
    · cases hr
      exact .inl rfl
    · obtain ⟨result, -, rfl⟩ := Option.map_eq_some_iff.mp hr
      exact .inl rfl
  | kernel call =>
    obtain ⟨kernel, hkernel, rfl⟩ := Option.map_eq_some_iff.mp hs
    exact .inr ⟨call, rfl, hkernel⟩

theorem kernel_run {ok : PlatformCore W → PlatformCall W → Prop} (hs : Reachable step ok p p') :
    Reachable ServiceRegistry.step (fun _ _ => True) p.kernel p'.kernel := by
  refine hs.invariant (I := fun p' => Reachable ServiceRegistry.step (fun _ _ => True) p.kernel
    p'.kernel) .refl fun q c q' _ hq _ hstep => ?_
  rcases kernel_step hstep with hsame | ⟨call, -, hcall⟩
  · rwa [hsame]
  · exact .tail hq trivial hcall

/-- In every run after the boot no request is denied, even if its service was stopped. -/
theorem execute_never_denied {names : List String} (hboot : p.kernel = bootKernel names)
    (hs : Reachable step (fun _ _ => True) p p') (now : UInt64) (req : ExecutionRequest)
    {r : ExecutionResponse × PlatformCore W} (hr : p'.execute now req = some r) (text : String) :
    r.1 ≠ .error text := by
  have hkernel := hboot ▸ kernel_run hs
  have hcap {service : String} (hservice : service ∈
      ["platform:crdt", "platform:consensus", "platform:token"]) {cap : Capability}
      (hboot : bootRegistry.hasCapability service cap = true) :
      p'.kernelHasCapability service cap ≠ false := by
    rw [kernelHasCapability, hasCapability_boot hkernel hservice, hboot]
    decide
  cases req with
  | crdtUpdate key value | ordered tx =>
    unfold execute at hr
    dsimp only at hr
    rw [if_neg (hcap (by decide) (by decide +kernel))] at hr
    cases hr
    exact ExecutionResponse.noConfusion
  | token tx =>
    unfold execute at hr
    dsimp only at hr
    rw [if_neg (hcap (by decide) (by decide +kernel))] at hr
    obtain ⟨result, -, rfl⟩ := Option.map_eq_some_iff.mp hr
    exact ExecutionResponse.noConfusion

end PlatformCore

namespace Demo

@[reducible] def noDeltas : DeltaJson where
  toText _ := ""
  fromText _ := none

attribute [local instance] noDeltas Bft.Demo.plainEd25519

def names : List String := ["platform:consensus", "platform:crdt", "platform:token"]

theorem exists_platform : ∃ p : PlatformCore Unit, p.kernel = bootKernel names := by
  obtain ⟨p, -, hkernel⟩ : ∃ p : PlatformCore Unit,
      PlatformCore.withIdentity 1 Bft.Demo.validators (Bft.Demo.identity 1) names 0 0 = some p ∧
        p.kernel = bootKernel names := by
    refine ⟨_, Option.map_eq_some_iff.mpr ⟨_, Option.eq_some_of_isSome ?_, rfl⟩, rfl⟩
    decide +kernel
  exact ⟨p, hkernel⟩

/-- After the service for the map was stopped. -/
def afterStop (p : PlatformCore Unit) : PlatformCore Unit :=
  { p with kernel := (p.kernel.stop "platform:crdt").2 }

/-- The map still takes updates when its service is stopped. -/
theorem execute_never_denied_stopped : ∃ p : PlatformCore Unit,
    (afterStop p).kernel.state "platform:crdt" = some .stopped ∧
      ∃ r, (afterStop p).execute 0 (.crdtUpdate "block:1" (some "stone")) = some r ∧
        ∀ text, r.1 ≠ .error text := by
  obtain ⟨p, hboot⟩ := exists_platform
  have hstate : (afterStop p).kernel.state "platform:crdt" = some .stopped := by
    show (p.kernel.stop "platform:crdt").2.state "platform:crdt" = some .stopped
    rw [hboot]
    decide +kernel
  have hs : Reachable PlatformCore.step (fun _ _ => True) p (afterStop p) :=
    .tail .refl (a := .kernel (.stop "platform:crdt")) trivial rfl
  obtain ⟨r, hr⟩ : ∃ r,
      (afterStop p).execute 0 (.crdtUpdate "block:1" (some "stone")) = some r := by
    unfold PlatformCore.execute
    dsimp only
    split_ifs
    · exact ⟨_, rfl⟩
    · exact ⟨_, rfl⟩
  exact ⟨p, hstate, r, hr, fun text => PlatformCore.execute_never_denied hboot hs 0 _ hr text⟩

end Demo

end P2P333.Platform333
