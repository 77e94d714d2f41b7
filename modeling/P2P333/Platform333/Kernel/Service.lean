import P2P333.Lib.OrdMap
import P2P333.Lib.Transition

/-!
# The service registry

`333-platform/src/kernel/capability.rs`, `lifecycle.rs` and `service.rs`: services are registered
under a name with their capabilities, started once and stopped once. What a service does in its
hooks is a parameter. The order in which the hash map gives its names is an argument of `start_all`
and `stop_all`. Names are ASCII, which matters to the namespaces only.

Results:
1. `ServiceEntry.started`, `ServiceEntry.stopped`: what becomes of an entry.
2. `Rule.goes_step`, `Rule.goes_run`: what starts and stops keep of an entry, every run keeps.
3. `hasCapability_run`: capabilities stay.
-/

namespace P2P333.Platform333.Kernel

open Std Lib

/-! ## Capabilities -/

/-- What a service may do. -/
inductive Capability where
  | worldRead
  | worldWrite
  | consensusSubmit
  | serviceSpawn
  | serviceKill
  | tokenRead
  | tokenTransfer
  | networkSend
  | networkReceive
  | custom (s : String)
deriving DecidableEq

def Capability.display : Capability → String
  | .worldRead => "world:read"
  | .worldWrite => "world:write"
  | .consensusSubmit => "consensus:submit"
  | .serviceSpawn => "service:spawn"
  | .serviceKill => "service:kill"
  | .tokenRead => "token:read"
  | .tokenTransfer => "token:transfer"
  | .networkSend => "network:send"
  | .networkReceive => "network:receive"
  | .custom s => "custom:" ++ s

abbrev CapabilitySet : Type := Finset Capability

namespace CapabilitySet

def has (s : CapabilitySet) (cap : Capability) : Bool := decide (cap ∈ s)

@[simp] theorem has_eq_true {s : CapabilitySet} {cap : Capability} : s.has cap = true ↔ cap ∈ s :=
  decide_eq_true_iff

end CapabilitySet

/-- A capability is missing. -/
inductive CapabilityError where
  | denied (service : String) (cap : Capability)

def CapabilityError.display : CapabilityError → String
  | .denied service cap => "service '" ++ service ++ "' lacks capability '" ++ cap.display ++ "'"

structure ServiceContext where
  serviceName : String
  space : String
  caps : CapabilitySet
  metadata : OrdMap String String

namespace ServiceContext

def new (serviceName : String) (caps : CapabilitySet) : ServiceContext where
  serviceName := serviceName
  space := (serviceName.map fun c => if c = ':' then '_' else c).toLower
  caps := caps
  metadata := ∅

end ServiceContext

/-! ## Lifecycles -/

/-- Where a service is in its life. -/
inductive ServiceState where
  | created
  | starting
  | running
  | stopping
  | stopped
  | failed (e : String)
deriving DecidableEq

namespace ServiceState

def display : ServiceState → String
  | created => "Created"
  | starting => "Starting"
  | running => "Running"
  | stopping => "Stopping"
  | stopped => "Stopped"
  | failed e => "Failed(" ++ e ++ ")"

/-- The legal transitions. -/
def allows : ServiceState → ServiceState → Bool
  | created, starting | created, failed _ => true
  | starting, running | starting, failed _ => true
  | running, stopping | running, failed _ => true
  | stopping, stopped | stopping, failed _ => true
  | _, _ => false

end ServiceState

/-- The state has no such successor. -/
inductive LifecycleError where
  | invalidTransition (source target : ServiceState)

def LifecycleError.display : LifecycleError → String
  | .invalidTransition source target =>
    "illegal transition " ++ source.display ++ " → " ++ target.display

structure LifecycleMachine where
  state : ServiceState
deriving DecidableEq

namespace LifecycleMachine

def new : LifecycleMachine := ⟨.created⟩

/-- The new machine. With an error the old one stays. -/
def transition (m : LifecycleMachine) (next : ServiceState) :
    Except LifecycleError LifecycleMachine :=
  if m.state.allows next then .ok ⟨next⟩ else .error (.invalidTransition m.state next)

/-- `let _ = transition(..)`. -/
def tryTransition (m : LifecycleMachine) (next : ServiceState) : LifecycleMachine :=
  match m.transition next with
  | .ok m' => m'
  | .error _ => m

end LifecycleMachine

/-! ## Services -/

/-- Why the registry refuses a call. -/
inductive ServiceError where
  | lifecycle (e : LifecycleError)
  | capability (e : CapabilityError)
  | notFound (name : String)
  | alreadyRegistered (name : String)
  | custom (text : String)

def ServiceError.display : ServiceError → String
  | .lifecycle e => "lifecycle: " ++ e.display
  | .capability e => "capability: " ++ e.display
  | .notFound n => "service '" ++ n ++ "' not found"
  | .alreadyRegistered n => "service '" ++ n ++ "' already registered"
  | .custom s => s

/-- The hooks answer and leave the service changed; `init` may change the context as well. -/
class Service (S : Type) where
  name : S → String
  init : S → ServiceContext → Except ServiceError Unit × S × ServiceContext
  run : S → ServiceContext → Except ServiceError Unit × S
  stop : S → Except ServiceError Unit × S

structure ServiceEntry (S : Type) where
  service : S
  lifecycle : LifecycleMachine
  ctx : ServiceContext

variable {S : Type} [Service S]

namespace ServiceEntry

/-- The hook has failed with `err`. -/
def fail (e : ServiceEntry S) (err : ServiceError) : Except ServiceError Unit × ServiceEntry S :=
  (.error err, { e with lifecycle := e.lifecycle.tryTransition (.failed err.display) })

/-- What `start` does once it has the entry. -/
def start (e : ServiceEntry S) : Except ServiceError Unit × ServiceEntry S :=
  match e.lifecycle.transition .starting with
  | .error err => (.error (.lifecycle err), e)
  | .ok starting =>
    match Service.init e.service e.ctx with
    | (.error err, service, ctx) => fail ⟨service, starting, ctx⟩ err
    | (.ok _, service, ctx) =>
      match starting.transition .running with
      | .error err => (.error (.lifecycle err), ⟨service, starting, ctx⟩)
      | .ok running =>
        match Service.run service ctx with
        | (.error err, service) => fail ⟨service, running, ctx⟩ err
        | (.ok _, service) => (.ok (), ⟨service, running, ctx⟩)

/-- What `stop` does once it has the entry. -/
def stop (e : ServiceEntry S) : Except ServiceError Unit × ServiceEntry S :=
  match e.lifecycle.transition .stopping with
  | .error err => (.error (.lifecycle err), e)
  | .ok stopping =>
    match Service.stop e.service with
    | (.error err, service) => fail ⟨service, stopping, e.ctx⟩ err
    | (.ok _, service) =>
      match stopping.transition .stopped with
      | .error err => (.error (.lifecycle err), ⟨service, stopping, e.ctx⟩)
      | .ok stopped => (.ok (), ⟨service, stopped, e.ctx⟩)

end ServiceEntry

structure ServiceRegistry (S : Type) where
  services : OrdMap String (ServiceEntry S)

namespace ServiceRegistry

def new : ServiceRegistry S := ⟨∅⟩

def register (r : ServiceRegistry S) (service : S) (caps : CapabilitySet) :
    Except ServiceError Unit × ServiceRegistry S :=
  match r.services[Service.name service]? with
  | some _ => (.error (.alreadyRegistered (Service.name service)), r)
  | none =>
    (.ok (), ⟨r.services.insert (Service.name service)
      ⟨service, .new, .new (Service.name service) caps⟩⟩)

/-- `get_mut`, and then `f` on the entry. -/
def withEntry (r : ServiceRegistry S) (name : String)
    (f : ServiceEntry S → Except ServiceError Unit × ServiceEntry S) :
    Except ServiceError Unit × ServiceRegistry S :=
  match r.services[name]? with
  | none => (.error (.notFound name), r)
  | some e => ((f e).1, ⟨r.services.insert name (f e).2⟩)

def start (r : ServiceRegistry S) (name : String) : Except ServiceError Unit × ServiceRegistry S :=
  r.withEntry name ServiceEntry.start

def stop (r : ServiceRegistry S) (name : String) : Except ServiceError Unit × ServiceRegistry S :=
  r.withEntry name ServiceEntry.stop

def state (r : ServiceRegistry S) (name : String) : Option ServiceState :=
  r.services[name]?.map fun e => e.lifecycle.state

def isRunning (r : ServiceRegistry S) (name : String) : Bool :=
  r.services[name]?.elim false fun e => e.lifecycle.state == .running

def hasCapability (r : ServiceRegistry S) (name : String) (cap : Capability) : Bool :=
  r.services[name]?.elim false fun e => e.ctx.caps.has cap

/-- The error of an answer, at the end of those before it. -/
def pushError (errors : List ServiceError) : Except ServiceError Unit → List ServiceError
  | .ok _ => errors
  | .error err => errors ++ [err]

/-- The names in the order in which the map gives them. -/
def startAll (r : ServiceRegistry S) (names : List String) :
    List ServiceError × ServiceRegistry S :=
  names.foldl (fun acc name => (pushError acc.1 (acc.2.start name).1, (acc.2.start name).2)) ([], r)

def stopAll (r : ServiceRegistry S) (names : List String) :
    List ServiceError × ServiceRegistry S :=
  names.foldl (fun acc name =>
    if acc.2.isRunning name then (pushError acc.1 (acc.2.stop name).1, (acc.2.stop name).2)
    else acc) ([], r)

end ServiceRegistry

/-! ## Entries -/

namespace ServiceEntry

/-- What becomes of an entry that is started. -/
inductive Started (e : ServiceEntry S) : Except ServiceError Unit × ServiceEntry S → Prop
  | refused {err : LifecycleError} : e.lifecycle.state ≠ .created →
      Started e (.error (.lifecycle err), e)
  | initFailed {err : ServiceError} {s : S} {ctx : ServiceContext} :
      e.lifecycle.state = .created → Service.init e.service e.ctx = (.error err, s, ctx) →
      Started e (.error err, ⟨s, ⟨.failed err.display⟩, ctx⟩)
  | runFailed {err : ServiceError} {s s' : S} {ctx : ServiceContext} :
      e.lifecycle.state = .created → Service.init e.service e.ctx = (.ok (), s, ctx) →
      Service.run s ctx = (.error err, s') →
      Started e (.error err, ⟨s', ⟨.failed err.display⟩, ctx⟩)
  | runs {s s' : S} {ctx : ServiceContext} :
      e.lifecycle.state = .created → Service.init e.service e.ctx = (.ok (), s, ctx) →
      Service.run s ctx = (.ok (), s') → Started e (.ok (), ⟨s', ⟨.running⟩, ctx⟩)

theorem started (e : ServiceEntry S) : Started e e.start := by
  obtain ⟨service, ⟨state⟩, ctx⟩ := e
  cases state with
  | created =>
    unfold start
    show Started _ (match Service.init service ctx with | _ => _)
    rcases hinit : Service.init service ctx with ⟨_ | _, s, ctx'⟩
    · exact .initFailed rfl hinit
    · show Started _ (match Service.run s ctx' with | _ => _)
      rcases hrun : Service.run s ctx' with ⟨_ | _, s'⟩
      · exact .runFailed rfl hinit hrun
      · exact .runs rfl hinit hrun
  | starting | running | stopping | stopped | failed _ => exact .refused (by simp)

/-- What becomes of an entry that is stopped. -/
inductive Stopped (e : ServiceEntry S) : Except ServiceError Unit × ServiceEntry S → Prop
  | refused {err : LifecycleError} : e.lifecycle.state ≠ .running →
      Stopped e (.error (.lifecycle err), e)
  | failed {err : ServiceError} {s : S} : e.lifecycle.state = .running →
      Service.stop e.service = (.error err, s) →
      Stopped e (.error err, ⟨s, ⟨.failed err.display⟩, e.ctx⟩)
  | stops {s : S} : e.lifecycle.state = .running → Service.stop e.service = (.ok (), s) →
      Stopped e (.ok (), ⟨s, ⟨.stopped⟩, e.ctx⟩)

theorem stopped (e : ServiceEntry S) : Stopped e e.stop := by
  obtain ⟨service, ⟨state⟩, ctx⟩ := e
  cases state with
  | running =>
    unfold stop
    show Stopped _ (match Service.stop service with | _ => _)
    rcases hstop : Service.stop service with ⟨_ | _, s⟩
    · exact .failed rfl hstop
    · exact .stops rfl hstop
  | created | starting | stopping | stopped | failed _ => exact .refused (by simp)

end ServiceEntry

/-! ## Runs -/

/-- The calls of the registry. -/
inductive RegistryCall (S : Type) where
  | register (service : S) (caps : CapabilitySet)
  | start (name : String)
  | stop (name : String)
  | startAll (names : List String)
  | stopAll (names : List String)

namespace ServiceRegistry

def step (r : ServiceRegistry S) : RegistryCall S → Option (ServiceRegistry S)
  | .register service caps => some (r.register service caps).2
  | .start name => some (r.start name).2
  | .stop name => some (r.stop name).2
  | .startAll names => some (r.startAll names).2
  | .stopAll names => some (r.stopAll names).2

/-! ### What a call does to each entry -/

/-- An entry before and after: it goes on by `R`, or it is new and has `F`. -/
inductive Onward (R : ServiceEntry S → ServiceEntry S → Prop) (F : ServiceEntry S → Prop) :
    Option (ServiceEntry S) → Option (ServiceEntry S) → Prop
  | none : Onward R F none none
  | new {e' : ServiceEntry S} : F e' → Onward R F none (some e')
  | kept {e e' : ServiceEntry S} : R e e' → Onward R F (some e) (some e')

/-- `R` holds of what starts and stops do with an entry, and keeps `F`. -/
structure Rule (R : ServiceEntry S → ServiceEntry S → Prop) (F : ServiceEntry S → Prop) :
    Prop where
  refl (e : ServiceEntry S) : R e e
  trans {e e' e'' : ServiceEntry S} : R e e' → R e' e'' → R e e''
  keeps {e e' : ServiceEntry S} : F e → R e e' → F e'
  start (e : ServiceEntry S) : R e e.start.2
  stop (e : ServiceEntry S) : R e e.stop.2

variable {R : ServiceEntry S → ServiceEntry S → Prop} {F : ServiceEntry S → Prop}
  {r r' r'' : ServiceRegistry S}

/-- All entries go on. -/
def Goes (R : ServiceEntry S → ServiceEntry S → Prop) (F : ServiceEntry S → Prop)
    (r r' : ServiceRegistry S) : Prop :=
  ∀ name : String, Onward R F r.services[name]? r'.services[name]?

section

variable (h : Rule R F)
include h

theorem Rule.goes_refl (r : ServiceRegistry S) : Goes R F r r := by
  intro name
  cases r.services[name]? with
  | none => exact .none
  | some e => exact .kept (h.refl e)

theorem Rule.goes_trans (hr : Goes R F r r') (hr' : Goes R F r' r'') : Goes R F r r'' := by
  intro name
  have hname := hr name
  have hname' := hr' name
  generalize r.services[name]? = a at hname ⊢
  generalize r'.services[name]? = b at hname hname'
  generalize r''.services[name]? = c at hname' ⊢
  cases hname with
  | none => exact hname'
  | new hnew =>
    cases hname' with
    | kept hkept => exact .new (h.keeps hnew hkept)
  | kept hkept =>
    cases hname' with
    | kept hkept' => exact .kept (h.trans hkept hkept')

theorem Rule.goes_withEntry (r : ServiceRegistry S) (name : String)
    {f : ServiceEntry S → Except ServiceError Unit × ServiceEntry S} (hf : ∀ e, R e (f e).2) :
    Goes R F r (r.withEntry name f).2 := by
  unfold withEntry
  cases hname : r.services[name]? with
  | none => exact h.goes_refl r
  | some e =>
    intro name'
    by_cases heq : name = name'
    · subst heq
      rw [hname]
      show Onward R F _ (r.services.insert name (f e).2)[name]?
      rw [ExtTreeMap.getElem?_insert_self]
      exact .kept (hf e)
    · show Onward R F _ (r.services.insert name (f e).2)[name']?
      rw [OrdMap.getElem?_insert_of_ne _ heq]
      exact h.goes_refl r name'

theorem Rule.goes_register (r : ServiceRegistry S) {service : S}
    {caps : CapabilitySet} (hnew : F ⟨service, .new, .new (Service.name service) caps⟩) :
    Goes R F r (r.register service caps).2 := by
  unfold register
  cases hname : r.services[Service.name service]? with
  | some _ => exact h.goes_refl r
  | none =>
    intro name'
    show Onward R F _ (r.services.insert (Service.name service) _)[name']?
    by_cases heq : Service.name service = name'
    · subst heq
      rw [hname, ExtTreeMap.getElem?_insert_self]
      exact .new hnew
    · rw [OrdMap.getElem?_insert_of_ne _ heq]
      exact h.goes_refl r name'

/-- A loop over the names, in each round of which the entries go on. -/
theorem Rule.goes_foldl {f : List ServiceError × ServiceRegistry S → String →
      List ServiceError × ServiceRegistry S} (hf : ∀ acc name, Goes R F acc.2 (f acc name).2)
    (names : List String) (acc : List ServiceError × ServiceRegistry S) :
    Goes R F acc.2 (names.foldl f acc).2 := by
  induction names generalizing acc with
  | nil => exact h.goes_refl acc.2
  | cons name names ih => exact h.goes_trans (hf acc name) (ih (f acc name))

theorem Rule.goes_step {c : RegistryCall S} (hs : r.step c = some r')
    (hnew : ∀ service caps, c = .register service caps →
      F ⟨service, .new, .new (Service.name service) caps⟩) : Goes R F r r' := by
  cases c with
  | register service caps =>
    cases hs
    exact h.goes_register r (hnew service caps rfl)
  | start name =>
    cases hs
    exact h.goes_withEntry r name h.start
  | stop name =>
    cases hs
    exact h.goes_withEntry r name h.stop
  | startAll names =>
    cases hs
    exact h.goes_foldl (fun acc name => h.goes_withEntry acc.2 name h.start) names ([], r)
  | stopAll names =>
    cases hs
    refine h.goes_foldl (fun acc name => ?_) names ([], r)
    split_ifs with hrunning
    · exact h.goes_withEntry acc.2 name h.stop
    · exact h.goes_refl acc.2

theorem Rule.goes_run {ok : ServiceRegistry S → RegistryCall S → Prop}
    (hnew : ∀ r service caps, ok r (.register service caps) →
      F ⟨service, .new, .new (Service.name service) caps⟩)
    (hs : Reachable step ok r r') : Goes R F r r' :=
  hs.invariant (h.goes_refl r) fun _ _ _ _ hr hok hstep =>
    h.goes_trans hr (h.goes_step hstep fun service caps hc => hnew _ service caps (hc ▸ hok))

end

/-! ### Capabilities -/

/-- A service that leaves its context alone never gains or loses a capability. -/
theorem rule_ctx (hinit : ∀ (s : S) ctx, (Service.init s ctx).2.2 = ctx) :
    Rule (fun e e' : ServiceEntry S => e'.ctx = e.ctx) fun _ => True where
  refl _ := rfl
  trans h h' := h'.trans h
  keeps _ _ := trivial
  start e := by
    have hctx : ∀ {a : Except ServiceError Unit} {s : S} {ctx : ServiceContext},
        Service.init e.service e.ctx = (a, s, ctx) → ctx = e.ctx := fun h => by
      rw [← hinit e.service e.ctx, h]
    generalize hr : e.start = r
    have hstarted := e.started
    rw [hr] at hstarted
    cases hstarted with
    | refused => rfl
    | initFailed _ h => exact hctx h
    | runFailed _ h _ => exact hctx h
    | runs _ h _ => exact hctx h
  stop e := by
    generalize hr : e.stop = r
    have hstopped := e.stopped
    rw [hr] at hstopped
    cases hstopped <;> rfl

/-- What a service may do, it may do in every later state, running or not. -/
theorem hasCapability_run (hinit : ∀ (s : S) ctx, (Service.init s ctx).2.2 = ctx)
    {ok : ServiceRegistry S → RegistryCall S → Prop} (hs : Reachable step ok r r')
    {name : String} {e : ServiceEntry S} (he : r.services[name]? = some e) (cap : Capability) :
    r'.hasCapability name cap = r.hasCapability name cap := by
  have hgoes := (rule_ctx hinit).goes_run (fun _ _ _ _ => trivial) hs name
  rw [he] at hgoes
  rw [hasCapability, hasCapability, he]
  generalize r'.services[name]? = a at hgoes ⊢
  cases hgoes with
  | kept hctx =>
    show CapabilitySet.has _ cap = CapabilitySet.has _ cap
    rw [hctx]

end ServiceRegistry

end P2P333.Platform333.Kernel
