import P2P333.StorageAdvanced333.XorParity
import P2P333.Voxel333.World

/-!
# Replication

`QuorumReplication` and `PrimaryBackup` of `333-storage-advanced/src/lib.rs` over the block stores
of `333-content/src/lib.rs`. A store is an `InMemoryBlockStore` or one of another crate, which may
answer anything. A strategy keeps its table of stores locked during a call, while others use the
same stores between two rounds of its loop; whoever waits for the table is modelled as not yet
there. The text of a content id is a parameter.

Results:
1. `reads_genuine`: whatever the stores answer, what is read has the content id, and what is
   acknowledged has its quorum or its primary.
2. `quorum_durable`: an acknowledged block is found as long as fewer than a quorum of the replicas
   that acknowledged it are lost.
3. `primary_durable`: the same for the primary.
-/

namespace P2P333.StorageAdvanced333.Replication

open Lib Voxel333 Function

/-! ## Stores -/

abbrev ReplicaId := String

/-- An `Arc` of a store. -/
abbrev Handle := Nat

/-- Why a call of the store fails. -/
inductive AdvError where
  | noQuorum (ok need : Nat)
  | invalidQuorum (quorum : Nat)
  | cidMismatch (expected actual : Cid)
  | noReplicas
  | backend (text : String)
deriving DecidableEq

/-- `bs58`, which gives a content id its text. -/
class Base58 where
  text : Cid → String

/-- `Display` of `ContentError`. -/
def contentErrorText [Base58] : ContentError → String
  | .notFound cid => "block not found: " ++ Base58.text cid
  | .integrity cid => "integrity: stored hash does not match CID " ++ Base58.text cid
  | .backend text => "backend: " ++ text

/-- The stores of other crates. `E` is all that they know. -/
class OtherStores (E : Type) where
  put : E → Handle → Bytes → Except ContentError Cid × E
  get : E → Handle → Cid → Except ContentError Bytes × E

structure Stores (E : Type) where
  memory : Handle → Option InMemoryBlockStore
  others : E

namespace Stores

variable {E : Type} [Sha256] [OtherStores E]

def put (s : Stores E) (h : Handle) (bytes : Bytes) : Except ContentError Cid × Stores E :=
  match s.memory h with
  | some m => ((m.put bytes).1, { s with memory := update s.memory h (m.put bytes).2 })
  | none => ((OtherStores.put s.others h bytes).1,
      { s with others := (OtherStores.put s.others h bytes).2 })

def get (s : Stores E) (h : Handle) (cid : Cid) : Except ContentError Bytes × Stores E :=
  match s.memory h with
  | some m => (m.get cid, s)
  | none => ((OtherStores.get s.others h cid).1,
      { s with others := (OtherStores.get s.others h cid).2 })

end Stores

/-! ## Strategies -/

structure QuorumReplication where
  quorum : Nat
  stores : OrdMap ReplicaId Handle
  faulty : Finset ReplicaId

def QuorumReplication.new (quorum : Nat) : QuorumReplication := ⟨quorum, ∅, ∅⟩

structure PrimaryBackup where
  primary : ReplicaId
  stores : OrdMap ReplicaId Handle

def PrimaryBackup.new (primary : ReplicaId) : PrimaryBackup := ⟨primary, ∅⟩

/-- Who has to acknowledge a block. -/
inductive ReplicationStrategy where
  | quorum (q : QuorumReplication)
  | primaryBackup (p : PrimaryBackup)

namespace ReplicationStrategy

def stores : ReplicationStrategy → OrdMap ReplicaId Handle
  | quorum q => q.stores
  | primaryBackup p => p.stores

def faulty : ReplicationStrategy → Finset ReplicaId
  | quorum q => q.faulty
  | primaryBackup _ => ∅

def attach (id : ReplicaId) (h : Handle) : ReplicationStrategy → ReplicationStrategy
  | quorum q => quorum { q with stores := q.stores.insert id h }
  | primaryBackup p => primaryBackup { p with stores := p.stores.insert id h }

def markFaulty (id : ReplicaId) : ReplicationStrategy → ReplicationStrategy
  | quorum q => quorum { q with faulty := insert id q.faulty }
  | primaryBackup p => primaryBackup p

/-- What a `put` returns after its loop. -/
def conclude (acked : List ReplicaId) : ReplicationStrategy → Except AdvError (List ReplicaId)
  | quorum q =>
    if acked.length < q.quorum then .error (.noQuorum acked.length q.quorum) else .ok acked
  | primaryBackup _ => .ok acked

end ReplicationStrategy

/-- The loop over the replicas, which `put` of both strategies has. -/
structure Writing where
  cid : Cid
  bytes : Bytes
  todo : List ReplicaId
  seen : Finset ReplicaId
  acked : List ReplicaId

/-- Where a call is: before the primary, or in a loop. -/
inductive Call where
  | putPrimary (primary : ReplicaId) (h : Handle) (cid : Cid) (bytes : Bytes)
      (replicas : List ReplicaId)
  | put (w : Writing)
  | get (cid : Cid) (todo : List ReplicaId) (firstMismatch : Option Cid)
  | getPrimary (primary : ReplicaId) (h : Handle) (cid : Cid)

/-- What a call for a content id has returned. -/
inductive Outcome where
  | stored (cid : Cid) (result : Except AdvError (List ReplicaId))
  | read (cid : Cid) (result : Except AdvError (Bytes × ReplicaId))
deriving DecidableEq

/-- A strategy with its stores, the call in progress and what its calls have returned. -/
structure Replicated (E : Type) where
  stores : Stores E
  strategy : ReplicationStrategy
  call : Option Call
  outcomes : List Outcome

/-- What happens to the store and its replicas. -/
inductive Action (E : Type) where
  | attach (id : ReplicaId) (h : Handle)
  | markFaulty (id : ReplicaId)
  | put (cid : Cid) (bytes : Bytes) (replicas : List ReplicaId)
  | get (cid : Cid) (replicas : List ReplicaId)
  | round
  /-- Someone else uses a store. -/
  | storePut (h : Handle) (bytes : Bytes)
  | storeGet (h : Handle) (cid : Cid)
  | others (e : E)

def Action.isRound {E : Type} : Action E → Bool
  | round => true
  | _ => false

namespace Replicated

variable {E : Type}

def start (strategy : ReplicationStrategy) (inMemory : Handle → Bool) (others : E) :
    Replicated E where
  stores := ⟨fun h => if inMemory h then some InMemoryBlockStore.new else none, others⟩
  strategy := strategy
  call := none
  outcomes := []

def done (s : Replicated E) (o : Outcome) : Replicated E :=
  { s with call := none, outcomes := s.outcomes ++ [o] }

variable [Sha256]

def put (s : Replicated E) (cid : Cid) (bytes : Bytes) (replicas : List ReplicaId) :
    Replicated E :=
  match s.strategy with
  | .quorum q =>
    if q.quorum = 0 then s.done (.stored cid (.error (.invalidQuorum q.quorum)))
    else if replicas = [] then s.done (.stored cid (.error .noReplicas))
    else if Sha256.digest bytes ≠ cid then
      s.done (.stored cid (.error (.cidMismatch cid (Sha256.digest bytes))))
    else { s with call := some (.put ⟨cid, bytes, replicas, ∅, []⟩) }
  | .primaryBackup p =>
    if Sha256.digest bytes ≠ cid then
      s.done (.stored cid (.error (.cidMismatch cid (Sha256.digest bytes))))
    else match p.stores[p.primary]? with
      | none => s.done (.stored cid (.error .noReplicas))
      | some h => { s with call := some (.putPrimary p.primary h cid bytes replicas) }

omit [Sha256] in
def get (s : Replicated E) (cid : Cid) (replicas : List ReplicaId) : Replicated E :=
  match s.strategy with
  | .quorum _ =>
    if replicas = [] then s.done (.read cid (.error .noReplicas))
    else { s with call := some (.get cid replicas none) }
  | .primaryBackup p =>
    match p.stores[p.primary]? with
    | none => s.done (.read cid (.error .noReplicas))
    | some h => { s with call := some (.getPrimary p.primary h cid) }

variable [OtherStores E]

/-- A replica that is seen for the first time, is not marked and has a store gets the bytes. It
acknowledges them if it returns their content id. -/
def writeTo (s : Replicated E) (w : Writing) (r : ReplicaId) : Stores E × Writing :=
  if r ∈ w.seen then (s.stores, w)
  else
    let w := { w with seen := insert r w.seen }
    if r ∈ s.strategy.faulty then (s.stores, w)
    else match s.strategy.stores[r]? with
      | none => (s.stores, w)
      | some h =>
        ((s.stores.put h w.bytes).2,
          match (s.stores.put h w.bytes).1 with
          | .ok cid => if cid = w.cid then { w with acked := w.acked ++ [r] } else w
          | .error _ => w)

variable [Base58]

def putPrimary (s : Replicated E) (primary : ReplicaId) (h : Handle) (cid : Cid) (bytes : Bytes)
    (replicas : List ReplicaId) : Replicated E :=
  let s' := { s with stores := (s.stores.put h bytes).2 }
  match (s.stores.put h bytes).1 with
  | .error e => s'.done (.stored cid (.error (.backend (contentErrorText e))))
  | .ok primaryCid =>
    if primaryCid ≠ cid then s'.done (.stored cid (.error (.cidMismatch cid primaryCid)))
    else { s' with
      call := some (.put ⟨cid, bytes, replicas.filter (· ≠ primary), {primary}, [primary]⟩) }

/-- A replica is asked. Bytes with another content id are noted and the next one is asked. -/
def readFrom (s : Replicated E) (cid : Cid) (r : ReplicaId) (rest : List ReplicaId)
    (firstMismatch : Option Cid) : Replicated E :=
  match s.strategy.stores[r]? with
  | none => { s with call := some (.get cid rest firstMismatch) }
  | some h =>
    let s' := { s with stores := (s.stores.get h cid).2 }
    match (s.stores.get h cid).1 with
    | .error _ => { s' with call := some (.get cid rest firstMismatch) }
    | .ok b =>
      if Sha256.digest b = cid then s'.done (.read cid (.ok (b, r)))
      else { s' with call := some (.get cid rest (firstMismatch.or (some (Sha256.digest b)))) }

def readPrimary (s : Replicated E) (primary : ReplicaId) (h : Handle) (cid : Cid) : Replicated E :=
  let s' := { s with stores := (s.stores.get h cid).2 }
  match (s.stores.get h cid).1 with
  | .error e => s'.done (.read cid (.error (.backend (contentErrorText e))))
  | .ok b =>
    if Sha256.digest b ≠ cid then
      s'.done (.read cid (.error (.cidMismatch cid (Sha256.digest b))))
    else s'.done (.read cid (.ok (b, primary)))

/-- The call in progress goes on. -/
def round (s : Replicated E) : Replicated E :=
  match s.call with
  | none => s
  | some (.putPrimary primary h cid bytes replicas) => s.putPrimary primary h cid bytes replicas
  | some (.put ⟨cid, bytes, r :: rest, seen, acked⟩) =>
    let (stores, w) := s.writeTo ⟨cid, bytes, rest, seen, acked⟩ r
    { s with stores, call := some (.put w) }
  | some (.put ⟨cid, _, [], _, acked⟩) => s.done (.stored cid (s.strategy.conclude acked))
  | some (.get cid (r :: rest) firstMismatch) => s.readFrom cid r rest firstMismatch
  | some (.get cid [] (some actual)) => s.done (.read cid (.error (.cidMismatch cid actual)))
  | some (.get cid [] none) => s.done (.read cid (.error
      (.backend ("cid " ++ Base58.text cid ++ " not found on any replica"))))
  | some (.getPrimary primary h cid) => s.readPrimary primary h cid

/-- The lock that `mark_faulty` takes is free unless a `put` of the quorum strategy has it. -/
def faultyFree (s : Replicated E) : Bool :=
  match s.call with
  | some (.put _) => false
  | _ => true

/-- Who has to wait for a lock does nothing. -/
def step (s : Replicated E) : Action E → Replicated E
  | .attach id h =>
    if s.call.isSome then s else { s with strategy := s.strategy.attach id h }
  | .markFaulty id =>
    if s.faultyFree then { s with strategy := s.strategy.markFaulty id } else s
  | .put cid bytes replicas => if s.call.isSome then s else s.put cid bytes replicas
  | .get cid replicas => if s.call.isSome then s else s.get cid replicas
  | .round => s.round
  | .storePut h bytes => { s with stores := (s.stores.put h bytes).2 }
  | .storeGet h cid => { s with stores := (s.stores.get h cid).2 }
  | .others e => { s with stores := { s.stores with others := e } }

def run (s : Replicated E) (acts : List (Action E)) : Replicated E := acts.foldl step s

end Replicated

/-! ## What stores keep -/

namespace Stores

variable {E : Type} {s s' : Stores E} {h h' : Handle} {cid : Cid}

/-- The store is in memory and has a block under the content id. -/
def Holds (s : Stores E) (h : Handle) (cid : Cid) : Prop :=
  ∃ m, s.memory h = some m ∧ (m.inner cid).isSome

variable [Sha256]

/-- The stores in memory have each block under its own content id. -/
def Genuine (s : Stores E) : Prop :=
  ∀ h m cid b, s.memory h = some m → m.inner cid = some b → Sha256.digest b = cid

/-- The stores in memory stay where they are, with all their blocks. -/
structure Keeps (s s' : Stores E) : Prop where
  memory (h : Handle) : (s'.memory h).isSome = (s.memory h).isSome
  holds (h : Handle) (cid : Cid) : s.Holds h cid → s'.Holds h cid
  genuine : s.Genuine → s'.Genuine

theorem Keeps.refl (s : Stores E) : s.Keeps s := ⟨fun _ => rfl, fun _ _ => id, id⟩

variable [OtherStores E]

theorem put_memory {m : InMemoryBlockStore} (hm : s.memory h = some m) (bytes : Bytes) :
    s.put h bytes = (.ok (Sha256.digest bytes),
      { s with memory := update s.memory h (some (m.put bytes).2) }) := by
  unfold put
  rw [hm]
  rfl

theorem put_others (hm : s.memory h = none) (bytes : Bytes) :
    (s.put h bytes).2.memory = s.memory := by
  unfold put
  rw [hm]

theorem put_holds {m : InMemoryBlockStore} (hm : s.memory h = some m) (bytes : Bytes) :
    (s.put h bytes).2.Holds h (Sha256.digest bytes) := by
  rw [put_memory hm]
  refine ⟨(m.put bytes).2, update_self .., ?_⟩
  show (update m.inner (Sha256.digest bytes) (some bytes) _).isSome = true
  rw [update_self, Option.isSome_some]

theorem put_keeps (s : Stores E) (h : Handle) (bytes : Bytes) : s.Keeps (s.put h bytes).2 := by
  cases hm : s.memory h with
  | none =>
    have hsame := put_others hm bytes
    refine ⟨fun h' => by rw [hsame], fun h' cid hh => ?_, fun hg h' m cid b hm' => ?_⟩
    · rwa [Holds, hsame]
    · rw [hsame] at hm'
      exact hg h' m cid b hm'
  | some m =>
    rw [put_memory hm]
    refine ⟨fun h' => ?_, fun h' cid hh => ?_, fun hg h' m' cid b hm' hb => ?_⟩
    · show (update s.memory h _ h').isSome = _
      by_cases heq : h' = h
      · rw [heq, update_self, hm, Option.isSome_some, Option.isSome_some]
      · rw [update_of_ne heq]
    · obtain ⟨m', hm', hcid⟩ := hh
      by_cases heq : h' = h
      · subst heq
        cases hm.symm.trans hm'
        refine ⟨(m.put bytes).2, update_self .., ?_⟩
        show (update m.inner (Sha256.digest bytes) (some bytes) cid).isSome = true
        by_cases hc : cid = Sha256.digest bytes
        · rw [hc, update_self, Option.isSome_some]
        · rwa [update_of_ne hc]
      · exact ⟨m', (update_of_ne heq ..).trans hm', hcid⟩
    · replace hm' : update s.memory h (some (m.put bytes).2) h' = some m' := hm'
      by_cases heq : h' = h
      · subst heq
        rw [update_self] at hm'
        cases hm'
        replace hb : update m.inner (Sha256.digest bytes) (some bytes) cid = some b := hb
        by_cases hc : cid = Sha256.digest bytes
        · subst hc
          rw [update_self] at hb
          cases hb
          rfl
        · rw [update_of_ne hc] at hb
          exact hg h' m cid b hm hb
      · rw [update_of_ne heq] at hm'
        exact hg h' m' cid b hm' hb

theorem get_memory (s : Stores E) (h : Handle) (cid : Cid) : (s.get h cid).2.memory = s.memory := by
  unfold get
  cases s.memory h <;> rfl

omit [OtherStores E] in
theorem keeps_of_memory (hsame : s'.memory = s.memory) : s.Keeps s' := by
  refine ⟨fun h => by rw [hsame], fun h cid hh => ?_, fun hg h m cid b hm => ?_⟩
  · rwa [Holds, hsame]
  · rw [hsame] at hm
    exact hg h m cid b hm

/-- A block that is there is read. -/
theorem get_holds (hg : s.Genuine) (hh : s.Holds h cid) :
    ∃ b, (s.get h cid).1 = .ok b ∧ Sha256.digest b = cid := by
  obtain ⟨m, hm, hcid⟩ := hh
  obtain ⟨b, hb⟩ := Option.isSome_iff_exists.mp hcid
  have hdigest := hg h m cid b hm hb
  refine ⟨b, ?_, hdigest⟩
  unfold get
  rw [hm]
  exact InMemoryBlockStore.get_eq_ok.mpr ⟨hb, hdigest⟩

end Stores

/-! ## What a step does -/

/-- What a strategy waits for: a number of replicas, or its primary. -/
inductive Kind where
  | quorum (quorum : Nat)
  | primary (primary : ReplicaId)

/-- What is known of the acknowledgements in the loop of a `put`. -/
def Kind.Begun (acked : List ReplicaId) : Kind → Prop
  | quorum n => 0 < n
  | primary id => acked.head? = some id

/-- What is known of them when it succeeds. -/
def Kind.Enough (acked : List ReplicaId) : Kind → Prop
  | quorum n => 0 < n ∧ n ≤ acked.length
  | primary id => acked.head? = some id

namespace ReplicationStrategy

def kind : ReplicationStrategy → Kind
  | quorum q => .quorum q.quorum
  | primaryBackup p => .primary p.primary

section

variable (g : ReplicationStrategy)

@[simp] theorem kind_attach (id : ReplicaId) (h : Handle) : (g.attach id h).kind = g.kind := by
  cases g <;> rfl

@[simp] theorem kind_markFaulty (id : ReplicaId) : (g.markFaulty id).kind = g.kind := by
  cases g <;> rfl

@[simp] theorem stores_markFaulty (id : ReplicaId) : (g.markFaulty id).stores = g.stores := by
  cases g <;> rfl

theorem stores_attach_of_ne {id r : ReplicaId} (hne : id ≠ r)
    (h : Handle) : (g.attach id h).stores[r]? = g.stores[r]? := by
  cases g <;> exact OrdMap.getElem?_insert_of_ne _ hne h

end

theorem conclude_enough {g : ReplicationStrategy} {acked acked' : List ReplicaId}
    (hbegun : g.kind.Begun acked) (h : g.conclude acked = .ok acked') :
    acked' = acked ∧ g.kind.Enough acked := by
  cases g with
  | quorum q =>
    unfold conclude at h
    dsimp only at h
    split_ifs at h with hlt
    cases h
    exact ⟨rfl, hbegun, Nat.not_lt.mp hlt⟩
  | primaryBackup p =>
    cases h
    exact ⟨rfl, hbegun⟩

end ReplicationStrategy

namespace Replicated

variable {E : Type} [Sha256] {s t : Replicated E} {cid : Cid} {r : ReplicaId}

omit [Sha256] in
/-- The replica has the block, unless its store is one of another crate. -/
def Acked (s : Replicated E) (cid : Cid) (r : ReplicaId) : Prop :=
  ∃ h, s.strategy.stores[r]? = some h ∧ ((s.stores.memory h).isSome → s.stores.Holds h cid)

structure WritingSound (s : Replicated E) (w : Writing) : Prop where
  digest : Sha256.digest w.bytes = w.cid
  begun : s.strategy.kind.Begun w.acked
  seen : ∀ r ∈ w.acked, r ∈ w.seen
  nodup : w.acked.Nodup
  acked : ∀ r ∈ w.acked, s.Acked w.cid r

def CallSound (s : Replicated E) : Call → Prop
  | .putPrimary primary h cid bytes _ => s.strategy.kind = .primary primary ∧
      s.strategy.stores[primary]? = some h ∧ Sha256.digest bytes = cid
  | .put w => s.WritingSound w
  | .get .. | .getPrimary .. => True

def Fresh (s : Replicated E) : Outcome → Prop
  | .stored cid (.ok acked) =>
    s.strategy.kind.Enough acked ∧ acked.Nodup ∧ ∀ r ∈ acked, s.Acked cid r
  | .read cid (.ok (bytes, _)) => Sha256.digest bytes = cid
  | .stored _ (.error _) | .read _ (.error _) => True

/-- What a step makes of the stores, of the call in progress and of the outcomes. -/
structure Advance (s t : Replicated E) : Prop where
  strategy : t.strategy = s.strategy
  keeps : s.stores.Keeps t.stores
  call : ∀ c, t.call = some c → t.CallSound c
  fresh : ∃ l, t.outcomes = s.outcomes ++ l ∧ ∀ o ∈ l, t.Fresh o

theorem Advance.done (hkeeps : s.stores.Keeps t.stores) (hstrategy : t.strategy = s.strategy)
    (houtcomes : t.outcomes = s.outcomes)
    {o : Outcome} (ho : t.Fresh o) : Advance s (t.done o) := by
  refine ⟨hstrategy, hkeeps, fun c hc => Option.noConfusion rfl (heq_of_eq hc), [o], ?_,
    fun o' ho' => ?_⟩
  · rw [← houtcomes]
    rfl
  · obtain rfl := List.mem_singleton.mp ho'
    cases o' with
    | stored cid result => cases result <;> exact ho
    | read cid result => cases result <;> exact ho

theorem Advance.going (hkeeps : s.stores.Keeps t.stores) (hstrategy : t.strategy = s.strategy)
    (houtcomes : t.outcomes = s.outcomes) (hcall : ∀ c, t.call = some c → t.CallSound c) :
    Advance s t :=
  ⟨hstrategy, hkeeps, hcall, [], by rw [houtcomes, List.append_nil], fun _ h =>
  absurd h List.not_mem_nil⟩

/-- What was acknowledged stays acknowledged while the table of stores is the same for it. -/
theorem Acked.mono (h : s.Acked cid r) (hkeeps : s.stores.Keeps t.stores)
    (hsame : t.strategy.stores[r]? = s.strategy.stores[r]?) : t.Acked cid r := by
  obtain ⟨handle, hstore, hholds⟩ := h
  refine ⟨handle, hsame.trans hstore, fun hmemory => hkeeps.holds _ _ (hholds ?_)⟩
  rwa [hkeeps.memory] at hmemory

theorem CallSound.mono {c : Call} (h : s.CallSound c) (hkeeps : s.stores.Keeps t.stores)
    (hkind : t.strategy.kind = s.strategy.kind) (hsame : t.strategy.stores = s.strategy.stores) :
    t.CallSound c := by
  cases c with
  | putPrimary primary handle cid bytes replicas =>
    unfold CallSound
    rwa [hkind, hsame]
  | put w =>
    obtain ⟨hdigest, hbegun, hseen, hnodup, hacked⟩ := h
    exact ⟨hdigest, hkind ▸ hbegun, hseen, hnodup, fun r hr =>
      (hacked r hr).mono hkeeps (by rw [hsame])⟩
  | get cid todo firstMismatch => trivial
  | getPrimary primary handle cid => trivial

theorem put_advance (s : Replicated E) (cid : Cid) (bytes : Bytes) (replicas : List ReplicaId) :
    Advance s (s.put cid bytes replicas) := by
  unfold put
  cases hstrategy : s.strategy with
  | quorum q =>
    dsimp only
    split_ifs with hquorum hempty hdigest
    · exact .done (.refl _) rfl rfl trivial
    · exact .done (.refl _) rfl rfl trivial
    · exact .done (.refl _) rfl rfl trivial
    · refine .going (.refl _) hstrategy.symm rfl fun c hc => ?_
      cases hc
      have hnone {P : ReplicaId → Prop} : ∀ r ∈ ([] : List ReplicaId), P r :=
        fun _ h => absurd h List.not_mem_nil
      exact ⟨not_not.mp hdigest, Nat.pos_of_ne_zero hquorum, hnone, List.nodup_nil, hnone⟩
  | primaryBackup p =>
    dsimp only
    split_ifs with hdigest
    · exact .done (.refl _) rfl rfl trivial
    · split
      · exact .done (.refl _) rfl rfl trivial
      · next h hstore =>
        refine .going (.refl _) hstrategy.symm rfl fun c hc => ?_
        cases hc
        exact ⟨rfl, hstore, not_not.mp hdigest⟩

theorem get_advance (s : Replicated E) (cid : Cid) (replicas : List ReplicaId) :
    Advance s (s.get cid replicas) := by
  unfold get
  split
  · split_ifs
    · exact .done (.refl _) rfl rfl trivial
    · refine .going (.refl _) rfl rfl fun c hc => ?_
      cases hc
      trivial
  · split
    · exact .done (.refl _) rfl rfl trivial
    · refine .going (.refl _) rfl rfl fun c hc => ?_
      cases hc
      trivial

variable [OtherStores E]

/-- The round of a loop leaves the loop as it should be. -/
theorem writeTo_sound {w : Writing} (h : s.WritingSound w) (r : ReplicaId) :
    s.stores.Keeps (s.writeTo w r).1 ∧ (s.writeTo w r).2.todo = w.todo ∧
      ∀ call, { s with stores := (s.writeTo w r).1, call }.WritingSound (s.writeTo w r).2 := by
  unfold writeTo
  split_ifs with hseen hfaulty
  · exact ⟨.refl _, rfl, fun call => ⟨h.digest, h.begun, h.seen, h.nodup, h.acked⟩⟩
  · exact ⟨.refl _, rfl, fun call => ⟨h.digest, h.begun, fun r' hr' =>
      Finset.mem_insert_of_mem (h.seen r' hr'), h.nodup, h.acked⟩⟩
  · split
    · exact ⟨.refl _, rfl, fun call => ⟨h.digest, h.begun, fun r' hr' =>
        Finset.mem_insert_of_mem (h.seen r' hr'), h.nodup, h.acked⟩⟩
    · next handle hstore =>
      have hkeeps := s.stores.put_keeps handle w.bytes
      have hsame : ∀ call, { s with stores := (s.stores.put handle w.bytes).2, call }.WritingSound
          { w with seen := insert r w.seen } := fun call =>
        ⟨h.digest, h.begun, fun r' hr' => Finset.mem_insert_of_mem (h.seen r' hr'), h.nodup,
          fun r' hr' => (h.acked r' hr').mono hkeeps rfl⟩
      dsimp only
      split
      · next cid hcid =>
        split_ifs with heq
        · refine ⟨hkeeps, rfl, fun call => ⟨h.digest, ?_, fun r' hr' => ?_, ?_, fun r' hr' => ?_⟩⟩
          · have hbegun := h.begun
            revert hbegun
            show Kind.Begun w.acked s.strategy.kind → Kind.Begun (w.acked ++ [r]) s.strategy.kind
            cases s.strategy.kind with
            | quorum n => exact id
            | primary primary =>
              show w.acked.head? = some primary → (w.acked ++ [r]).head? = some primary
              intro hhead
              rw [List.head?_append, hhead, Option.some_or]
          · show r' ∈ insert r w.seen
            rcases List.mem_append.mp hr' with hr' | hr'
            · exact Finset.mem_insert_of_mem (h.seen r' hr')
            · rw [List.mem_singleton.mp hr']
              exact Finset.mem_insert_self ..
          · show (w.acked ++ [r]).Nodup
            refine h.nodup.append (List.nodup_singleton r) fun r' hr' hr => ?_
            rw [List.mem_singleton.mp hr] at hr'
            exact hseen (h.seen r hr')
          · rcases List.mem_append.mp hr' with hr' | hr'
            · exact (h.acked r' hr').mono hkeeps rfl
            · rw [List.mem_singleton.mp hr']
              refine ⟨handle, hstore, fun hmemory => ?_⟩
              replace hmemory : ((s.stores.put handle w.bytes).2.memory handle).isSome = true :=
                hmemory
              rw [hkeeps.memory] at hmemory
              obtain ⟨m, hm⟩ := Option.isSome_iff_exists.mp hmemory
              have hholds := Stores.put_holds hm w.bytes
              rwa [h.digest] at hholds
        · exact ⟨hkeeps, rfl, hsame⟩
      · exact ⟨hkeeps, rfl, hsame⟩

variable [Base58]

theorem putPrimary_advance {primary : ReplicaId} {h : Handle} {bytes : Bytes}
    {replicas : List ReplicaId} (hsound : s.CallSound (.putPrimary primary h cid bytes replicas)) :
    Advance s (s.putPrimary primary h cid bytes replicas) := by
  obtain ⟨hkind, hstore, hdigest⟩ := hsound
  have hkeeps := s.stores.put_keeps h bytes
  unfold putPrimary
  dsimp only
  split
  · exact .done (t := { s with stores := (s.stores.put h bytes).2 }) hkeeps rfl rfl trivial
  · split_ifs with hcid
    · exact .done (t := { s with stores := (s.stores.put h bytes).2 }) hkeeps rfl rfl trivial
    · refine .going hkeeps rfl rfl fun c hc => ?_
      cases hc
      refine ⟨hdigest, ?_, fun r hr => ?_, List.nodup_singleton _, fun r hr => ?_⟩
      · show Kind.Begun [primary] s.strategy.kind
        rw [hkind]
        rfl
      · exact Finset.mem_singleton.mpr (List.mem_singleton.mp hr)
      · rw [List.mem_singleton.mp hr]
        refine ⟨h, hstore, fun hmemory => ?_⟩
        replace hmemory : ((s.stores.put h bytes).2.memory h).isSome = true := hmemory
        rw [hkeeps.memory] at hmemory
        obtain ⟨m, hm⟩ := Option.isSome_iff_exists.mp hmemory
        have hholds := Stores.put_holds hm bytes
        rwa [hdigest] at hholds

omit [Base58] in
theorem readFrom_advance (s : Replicated E) (cid : Cid) (r : ReplicaId) (rest : List ReplicaId)
    (firstMismatch : Option Cid) : Advance s (s.readFrom cid r rest firstMismatch) := by
  have hgoing (t : Replicated E) (hmemory : t.stores.memory = s.stores.memory)
      (hstrategy : t.strategy = s.strategy)
    (houtcomes : t.outcomes = s.outcomes) (firstMismatch : Option Cid) :
      Advance s { t with call := some (.get cid rest firstMismatch) } := by
    refine .going (Stores.keeps_of_memory hmemory) hstrategy houtcomes fun c hc => ?_
    cases hc
    trivial
  unfold readFrom
  split
  · exact hgoing s rfl rfl rfl _
  · next h hstore =>
    have hmemory := s.stores.get_memory h cid
    dsimp only
    split
    · exact hgoing { s with stores := (s.stores.get h cid).2 } hmemory rfl rfl _
    · split_ifs with hdigest
      · exact .done (t := { s with stores := (s.stores.get h cid).2 })
          (Stores.keeps_of_memory hmemory) rfl rfl hdigest
      · exact hgoing { s with stores := (s.stores.get h cid).2 } hmemory rfl rfl _

theorem readPrimary_advance (s : Replicated E) (primary : ReplicaId) (h : Handle) (cid : Cid) :
    Advance s (s.readPrimary primary h cid) := by
  have hmemory := s.stores.get_memory h cid
  have hdone {o : Outcome} (ho : { s with stores := (s.stores.get h cid).2 }.Fresh o) :
      Advance s ({ s with stores := (s.stores.get h cid).2 }.done o) :=
    .done (t := { s with stores := (s.stores.get h cid).2 }) (Stores.keeps_of_memory hmemory) rfl
      rfl ho
  unfold readPrimary
  dsimp only
  split
  · exact hdone trivial
  · split_ifs with hdigest
    · exact hdone trivial
    · exact hdone (not_not.mp hdigest)

theorem round_advance (h : ∀ c, s.call = some c → s.CallSound c) : Advance s s.round := by
  unfold round
  split
  · next hcall => exact .going (.refl _) rfl rfl fun c hc => absurd (hcall.symm.trans hc) (by simp)
  · next hcall => exact putPrimary_advance (h _ hcall)
  · next cid bytes r rest seen acked hcall =>
    obtain ⟨hdigest, hbegun, hseen, hnodup, hacked⟩ := h _ hcall
    obtain ⟨hkeeps, -, hsound⟩ := writeTo_sound (w := ⟨cid, bytes, rest, seen, acked⟩)
      ⟨hdigest, hbegun, hseen, hnodup, hacked⟩ r
    refine .going hkeeps rfl rfl fun c hc => ?_
    cases hc
    exact hsound _
  · next cid bytes seen acked hcall =>
    obtain ⟨-, hbegun, -, hnodup, hacked⟩ := h _ hcall
    refine .done (.refl _) rfl rfl ?_
    cases hresult : s.strategy.conclude acked with
    | error e => trivial
    | ok acked' =>
      obtain ⟨rfl, henough⟩ := ReplicationStrategy.conclude_enough hbegun hresult
      exact ⟨henough, hnodup, hacked⟩
  · exact readFrom_advance ..
  · exact .done (.refl _) rfl rfl trivial
  · exact .done (.refl _) rfl rfl trivial
  · exact readPrimary_advance ..

/-- Blocks are genuine and the call in progress is as it should be. -/
structure Sound (s : Replicated E) : Prop where
  genuine : s.stores.Genuine
  call : ∀ c, s.call = some c → s.CallSound c

/-- What an action makes of a state. -/
structure Onward (s : Replicated E) (a : Action E) (t : Replicated E) : Prop where
  keeps : s.stores.Keeps t.stores
  kind : t.strategy.kind = s.strategy.kind
  table : ∀ r, (∀ h, a ≠ .attach r h) → t.strategy.stores[r]? = s.strategy.stores[r]?
  call : ∀ c, t.call = some c → t.CallSound c
  fresh : ∃ l, t.outcomes = s.outcomes ++ l ∧ ∀ o ∈ l, t.Fresh o

omit [OtherStores E] [Base58] in
theorem Advance.onward (h : Advance s t) (a : Action E) : Onward s a t :=
  ⟨h.keeps, by rw [h.strategy], fun _ _ => by rw [h.strategy], h.call, h.fresh⟩

theorem step_onward (h : s.Sound) (a : Action E) : Onward s a (s.step a) := by
  have hsame (t : Replicated E) (hkeeps : s.stores.Keeps t.stores)
      (hstrategy : t.strategy = s.strategy) (hcall : t.call = s.call)
      (houtcomes : t.outcomes = s.outcomes) : Onward s a t := by
    refine (Advance.going hkeeps hstrategy houtcomes fun c hc => ?_).onward a
    rw [hcall] at hc
    exact (h.call c hc).mono hkeeps (by rw [hstrategy]) (by rw [hstrategy])
  have hwaits : Onward s a s := hsame s (.refl _) rfl rfl rfl
  cases a with
  | attach id handle =>
    unfold step
    dsimp only
    split_ifs with hbusy
    · exact hwaits
    · refine ⟨.refl _, ReplicationStrategy.kind_attach .., fun r hne => ?_, fun c hc => ?_, [],
        (List.append_nil _).symm, fun _ ho => absurd ho List.not_mem_nil⟩
      · exact s.strategy.stores_attach_of_ne (fun heq => hne handle (by rw [heq])) handle
      · replace hc : s.call = some c := hc
        rw [hc] at hbusy
        exact absurd rfl hbusy
  | markFaulty id =>
    unfold step
    dsimp only
    split_ifs with hfree
    · refine ⟨.refl _, ReplicationStrategy.kind_markFaulty .., fun r _ => ?_, fun c hc => ?_, [],
        (List.append_nil _).symm, fun _ ho => absurd ho List.not_mem_nil⟩
      · show (s.strategy.markFaulty id).stores[r]? = _
        rw [ReplicationStrategy.stores_markFaulty]
      · exact (h.call c hc).mono (.refl _) (ReplicationStrategy.kind_markFaulty ..)
          (ReplicationStrategy.stores_markFaulty ..)
    · exact hwaits
  | put cid bytes replicas =>
    unfold step
    dsimp only
    split_ifs
    · exact hwaits
    · exact (s.put_advance cid bytes replicas).onward _
  | get cid replicas =>
    unfold step
    dsimp only
    split_ifs
    · exact hwaits
    · exact (s.get_advance cid replicas).onward _
  | round => exact (round_advance h.call).onward _
  | storePut handle bytes => exact hsame _ (s.stores.put_keeps handle bytes) rfl rfl rfl
  | storeGet handle cid =>
    exact hsame _ (Stores.keeps_of_memory (s.stores.get_memory handle cid)) rfl rfl rfl
  | others e => exact hsame _ (Stores.keeps_of_memory rfl) rfl rfl rfl

omit [OtherStores E] [Base58] in
theorem Onward.sound {a : Action E} (h : s.Sound) (hs : Onward s a t) : t.Sound :=
  ⟨hs.keeps.genuine h.genuine, hs.call⟩

/-! ## Every run -/

omit [OtherStores E] [Base58] in
theorem start_sound (strategy : ReplicationStrategy) (inMemory : Handle → Bool) (others : E) :
    (start strategy inMemory others).Sound := by
  refine ⟨fun h m cid b hm hb => ?_, fun c hc => by cases hc⟩
  replace hm : (if inMemory h then some InMemoryBlockStore.new else none) = some m := hm
  split_ifs at hm
  cases hm
  cases hb

theorem run_sound (h : s.Sound) (acts : List (Action E)) : (s.run acts).Sound :=
  acts.foldlRecOn step h fun _ h a _ => (step_onward h a).sound h

theorem kind_run (h : s.Sound) (acts : List (Action E)) :
    (s.run acts).strategy.kind = s.strategy.kind := by
  refine (acts.foldlRecOn (motive := fun t : Replicated E => t.Sound ∧
    t.strategy.kind = s.strategy.kind) step ⟨h, rfl⟩ fun t ht a _ => ?_).2
  have honward := step_onward ht.1 a
  exact ⟨honward.sound ht.1, honward.kind.trans ht.2⟩

/-- In every run and whatever the other stores do, bytes that are read have the content id that was
asked for, and a `put` that succeeds has different acknowledgements: at least a quorum, or with the
one of the primary in front. -/
theorem reads_genuine (strategy : ReplicationStrategy) (inMemory : Handle → Bool) (others : E)
    (acts : List (Action E)) :
    (∀ cid bytes id,
      .read cid (.ok (bytes, id)) ∈ ((start strategy inMemory others).run acts).outcomes →
      Sha256.digest bytes = cid) ∧
    (∀ cid acked, .stored cid (.ok acked) ∈ ((start strategy inMemory others).run acts).outcomes →
      strategy.kind.Enough acked ∧ acked.Nodup) := by
  refine (acts.foldlRecOn (motive := fun t : Replicated E => t.Sound ∧ t.strategy.kind =
    strategy.kind ∧ (∀ cid bytes id, .read cid (.ok (bytes, id)) ∈ t.outcomes →
      Sha256.digest bytes = cid) ∧ ∀ cid acked, .stored cid (.ok acked) ∈ t.outcomes →
      strategy.kind.Enough acked ∧ acked.Nodup) step
    ⟨start_sound strategy inMemory others, rfl, fun _ _ _ h => absurd h List.not_mem_nil,
      fun _ _ h => absurd h List.not_mem_nil⟩ fun t ht a _ => ?_).2.2
  obtain ⟨hsound, hkind, hread, hstored⟩ := ht
  have honward := step_onward hsound a
  have hkind' := honward.kind.trans hkind
  obtain ⟨l, hl, hfresh⟩ := honward.fresh
  refine ⟨honward.sound hsound, hkind', fun cid bytes id hmem => ?_, fun cid acked hmem => ?_⟩
  · rw [hl] at hmem
    rcases List.mem_append.mp hmem with hmem | hmem
    · exact hread cid bytes id hmem
    · exact hfresh _ hmem
  · rw [hl] at hmem
    rcases List.mem_append.mp hmem with hmem | hmem
    · exact hstored cid acked hmem
    · obtain ⟨henough, hnodup, -⟩ := hfresh _ hmem
      exact ⟨hkind' ▸ henough, hnodup⟩

/-! ## Durability -/

theorem acked_run (h : s.Sound) (hacked : s.Acked cid r) {acts : List (Action E)}
    (hkept : ∀ a ∈ acts, ∀ handle, a ≠ .attach r handle) : (s.run acts).Acked cid r := by
  refine (acts.foldlRecOn (motive := fun t : Replicated E => t.Sound ∧ t.Acked cid r) step
    ⟨h, hacked⟩ fun t ht a ha => ?_).2
  have honward := step_onward ht.1 a
  exact ⟨honward.sound ht.1, ht.2.mono honward.keeps (honward.table r (hkept a ha))⟩

/-- What is left of a `put` that succeeded at the end of `acts`, after the run `acts'`. -/
theorem put_acked {strategy : ReplicationStrategy} {inMemory : Handle → Bool} {others : E}
    {acts acts' : List (Action E)} (hs : s = (start strategy inMemory others).run acts)
    {acked : List ReplicaId}
    (hput : s.round.outcomes = s.outcomes ++ [.stored cid (.ok acked)])
    (ht : t = s.round.run acts') :
    t.Sound ∧ t.strategy.kind = strategy.kind ∧ strategy.kind.Enough acked ∧
      ∀ r ∈ acked, (∀ a ∈ acts', ∀ h, a ≠ .attach r h) → t.Acked cid r := by
  have hstart := start_sound strategy inMemory others
  have hsound : s.Sound := hs ▸ run_sound hstart acts
  have hkind : s.strategy.kind = strategy.kind := by
    rw [hs, kind_run hstart]
    rfl
  have honward : Onward s .round s.round := step_onward hsound .round
  have hround := honward.sound hsound
  obtain ⟨l, hl, hfresh⟩ := honward.fresh
  obtain rfl := List.append_cancel_left (hput.symm.trans hl)
  obtain ⟨henough, -, hacked⟩ := hfresh _ (List.mem_singleton_self _)
  have hkind' : s.round.strategy.kind = strategy.kind := honward.kind.trans hkind
  subst ht
  exact ⟨run_sound hround acts', (kind_run hround acts').trans hkind', hkind' ▸ henough,
    fun r hr => acked_run hround (hacked r hr)⟩

section

omit [Sha256] [OtherStores E] [Base58]

/-- The store of the replica is in memory. -/
def inMemory (s : Replicated E) (r : ReplicaId) : Bool :=
  s.strategy.stores[r]?.any fun h => (s.stores.memory h).isSome

/-- The replica has the block. -/
def Found (s : Replicated E) (cid : Cid) (r : ReplicaId) : Prop :=
  ∃ h, s.strategy.stores[r]? = some h ∧ s.stores.Holds h cid

theorem Acked.found (h : s.Acked cid r) (hmemory : s.inMemory r = true) : s.Found cid r := by
  obtain ⟨handle, hstore, hholds⟩ := h
  unfold inMemory at hmemory
  rw [hstore] at hmemory
  exact ⟨handle, hstore, hholds hmemory⟩

/-- A `get` that has a store with the block before it, and at most so many rounds to it. -/
inductive Serving (s : Replicated E) (cid : Cid) : Nat → Prop
  | replicas {todo : List ReplicaId} {firstMismatch : Option Cid} :
      s.call = some (.get cid todo firstMismatch) → (∃ r ∈ todo, s.Found cid r) →
      Serving s cid todo.length
  | primary {id : ReplicaId} {h : Handle} :
      s.call = some (.getPrimary id h cid) → s.stores.Holds h cid → Serving s cid 1

end

/-- The call whose outcome has this place has read bytes with the content id. -/
def Served (s : Replicated E) (cid : Cid) (place : Nat) : Prop :=
  ∃ bytes id, s.outcomes[place]? = some (.read cid (.ok (bytes, id))) ∧ Sha256.digest bytes = cid

omit [OtherStores E] [Base58] in
theorem served_done {bytes : Bytes} (hdigest : Sha256.digest bytes = cid) (id : ReplicaId) :
    (s.done (.read cid (.ok (bytes, id)))).Served cid s.outcomes.length := by
  refine ⟨bytes, id, ?_, hdigest⟩
  show (s.outcomes ++ [.read cid (.ok (bytes, id))])[s.outcomes.length]? = _
  rw [List.getElem?_append_right (Nat.le_refl _), Nat.sub_self]
  rfl

theorem Served.run {place : Nat} (h : s.Served cid place) (hsound : s.Sound)
    (acts : List (Action E)) : (s.run acts).Served cid place := by
  refine (acts.foldlRecOn (motive := fun t : Replicated E => t.Sound ∧ t.Served cid place) step
    ⟨hsound, h⟩ fun t ht a _ => ?_).2
  have honward := step_onward ht.1 a
  obtain ⟨bytes, id, hplace, hdigest⟩ := ht.2
  obtain ⟨l, hl, -⟩ := honward.fresh
  refine ⟨honward.sound ht.1, bytes, id, ?_, hdigest⟩
  rw [hl, List.getElem?_append_left (List.getElem?_eq_some_iff.mp hplace).1, hplace]

/-- A round brings a `get` to its end or nearer to the store with the block. -/
theorem serving_round (h : s.Sound) {left : Nat} (hserving : s.Serving cid left) :
    s.round.Served cid s.outcomes.length ∨ ∃ left', left = left' + 1 ∧
      s.round.Serving cid left' ∧ s.round.outcomes = s.outcomes := by
  cases hserving with
  | @primary id handle hcall hholds =>
    left
    obtain ⟨b, hb, hdigest⟩ := Stores.get_holds h.genuine hholds
    have hround : s.round = s.readPrimary id handle cid := by rw [round, hcall]
    rw [hround, readPrimary, hb]
    dsimp only
    rw [if_neg (not_not.mpr hdigest)]
    exact served_done (s := { s with stores := (s.stores.get handle cid).2 }) hdigest id
  | @replicas todo firstMismatch hcall hfound =>
    obtain ⟨r, hr, hfound⟩ := hfound
    cases todo with
    | nil => exact absurd hr List.not_mem_nil
    | cons head rest =>
      have hround : s.round = s.readFrom cid head rest firstMismatch := by rw [round, hcall]
      -- The loop goes on when the head did not have the block.
      have hnext (hne : r ≠ head) {t : Replicated E} {firstMismatch : Option Cid}
          (hmemory : t.stores.memory = s.stores.memory) (hstrategy : t.strategy = s.strategy)
          (hcall : t.call = some (.get cid rest firstMismatch)) : t.Serving cid rest.length := by
        obtain ⟨handle, hstore, hholds⟩ := hfound
        exact .replicas hcall ⟨r, (List.mem_cons.mp hr).resolve_left hne, handle,
          by rw [hstrategy, hstore], (Stores.keeps_of_memory hmemory).holds _ _ hholds⟩
      rw [hround, readFrom]
      cases hstore : s.strategy.stores[head]? with
      | none =>
        right
        refine ⟨rest.length, rfl, hnext ?_ rfl rfl rfl, rfl⟩
        rintro rfl
        obtain ⟨handle, hstore', -⟩ := hfound
        cases hstore.symm.trans hstore'
      | some handle =>
        have hmemory := s.stores.get_memory handle cid
        have hhead : r = head → ∃ b, (s.stores.get handle cid).1 = .ok b ∧
            Sha256.digest b = cid := by
          rintro rfl
          obtain ⟨handle', hstore', hholds⟩ := hfound
          cases hstore.symm.trans hstore'
          exact Stores.get_holds h.genuine hholds
        dsimp only
        cases hget : (s.stores.get handle cid).1 with
        | error e =>
          right
          refine ⟨rest.length, rfl, hnext (fun heq => ?_) hmemory rfl rfl, rfl⟩
          obtain ⟨b, hb, -⟩ := hhead heq
          cases hget.symm.trans hb
        | ok b =>
          dsimp only
          split_ifs with hdigest
          · left
            exact served_done (s := { s with stores := (s.stores.get handle cid).2 }) hdigest head
          · right
            refine ⟨rest.length, rfl, hnext (fun heq => ?_) hmemory rfl rfl, rfl⟩
            obtain ⟨b', hb', hdigest'⟩ := hhead heq
            cases hget.symm.trans hb'
            exact hdigest hdigest'

/-- Whatever else happens meanwhile leaves a `get` as it is. -/
theorem serving_step (h : s.Sound) {left : Nat} (hserving : s.Serving cid left) {a : Action E}
    (ha : a.isRound = false) :
    (s.step a).Serving cid left ∧ (s.step a).outcomes = s.outcomes := by
  have hbusy : s.call.isSome = true := by
    cases hserving with
    | replicas hcall _ => rw [hcall, Option.isSome_some]
    | primary hcall _ => rw [hcall, Option.isSome_some]
  have hkeeps := (step_onward h a).keeps
  have hsame : (s.step a).call = s.call ∧ (s.step a).outcomes = s.outcomes ∧
      (s.step a).strategy.stores = s.strategy.stores := by
    cases a with
    | attach id handle | put cid bytes replicas | get cid replicas =>
      rw [step, if_pos hbusy]
      exact ⟨rfl, rfl, rfl⟩
    | markFaulty id =>
      unfold step
      dsimp only
      split_ifs
      · exact ⟨rfl, rfl, ReplicationStrategy.stores_markFaulty ..⟩
      · exact ⟨rfl, rfl, rfl⟩
    | round => cases ha
    | storePut handle bytes => exact ⟨rfl, rfl, rfl⟩
    | storeGet handle cid => exact ⟨rfl, rfl, rfl⟩
    | others e => exact ⟨rfl, rfl, rfl⟩
  obtain ⟨hcall, houtcomes, hstores⟩ := hsame
  refine ⟨?_, houtcomes⟩
  cases hserving with
  | replicas hget hfound =>
    obtain ⟨r, hr, handle, hstore, hholds⟩ := hfound
    exact .replicas (hcall.trans hget) ⟨r, hr, handle, by rw [hstores, hstore],
      hkeeps.holds _ _ hholds⟩
  | primary hget hholds => exact .primary (hcall.trans hget) (hkeeps.holds _ _ hholds)

theorem serving_run (h : s.Sound) {left : Nat} (hserving : s.Serving cid left)
    {acts : List (Action E)} (hleft : left ≤ acts.countP Action.isRound) :
    (s.run acts).Served cid s.outcomes.length := by
  induction acts generalizing s left with
  | nil =>
    cases hserving with
    | @replicas todo firstMismatch hcall hfound =>
      obtain ⟨r, hr, -⟩ := hfound
      exact absurd (List.length_pos_of_mem hr) (Nat.not_lt.mpr hleft)
    | primary hcall hholds => exact absurd hleft (Nat.not_succ_le_zero 0)
  | cons a acts ih =>
    have hsound := (step_onward h a).sound h
    show ((s.step a).run acts).Served cid s.outcomes.length
    cases ha : a.isRound with
    | false =>
      obtain ⟨hserving, houtcomes⟩ := serving_step h hserving ha
      rw [List.countP_cons_of_neg (by rw [ha]; decide)] at hleft
      rw [← houtcomes]
      exact ih hsound hserving hleft
    | true =>
      rw [List.countP_cons_of_pos ha] at hleft
      cases a with
      | round =>
        rcases serving_round h hserving with hserved | ⟨left', rfl, hserving', houtcomes⟩
        · exact hserved.run hsound acts
        · have houtcomes' : (s.step .round).outcomes = s.outcomes := houtcomes
          rw [← houtcomes']
          exact ih hsound hserving' (Nat.le_of_succ_le_succ hleft)
      | _ => cases ha

/-- A `get` of the quorum strategy over replicas one of which has the block. -/
theorem get_replicas {n : Nat} (hkind : s.strategy.kind = .quorum n) (hidle : s.call = none)
    {replicas : List ReplicaId} (hfound : ∃ r ∈ replicas, s.Found cid r) :
    (s.step (.get cid replicas)).Serving cid replicas.length ∧
      (s.step (.get cid replicas)).outcomes = s.outcomes := by
  have hstep : s.step (.get cid replicas) =
      { s with call := some (.get cid replicas none) } := by
    obtain ⟨stores, strategy, call, outcomes⟩ := s
    cases hidle
    cases strategy with
    | quorum q =>
      obtain ⟨r, hr, -⟩ := hfound
      exact if_neg (List.ne_nil_of_mem hr)
    | primaryBackup p => cases hkind
  rw [hstep]
  exact ⟨.replicas rfl hfound, rfl⟩

/-- After a `put` has succeeded and until one of its replicas gets another store, a `get` finds the
block, if fewer than a quorum of the acknowledgements came from replicas that are not asked or whose
stores are of another crate. It takes a round for each replica at most. -/
theorem quorum_durable {q : QuorumReplication} {inMemory : Handle → Bool} {others : E}
    {acts acts' acts'' : List (Action E)}
    (hs : s = (start (.quorum q) inMemory others).run acts) {acked replicas : List ReplicaId}
    (hput : s.round.outcomes = s.outcomes ++ [.stored cid (.ok acked)])
    (hkept : ∀ a ∈ acts', ∀ r ∈ acked, ∀ h, a ≠ .attach r h) (ht : t = s.round.run acts')
    (hidle : t.call = none)
    (hlost : (acked.filter fun r => !(decide (r ∈ replicas) && t.inMemory r)).length < q.quorum)
    (hrounds : replicas.length ≤ acts''.countP Action.isRound) :
    ((t.step (.get cid replicas)).run acts'').Served cid t.outcomes.length := by
  obtain ⟨htsound, htkind, henough, hacked⟩ := put_acked hs hput ht
  -- One of the acknowledgements is not lost.
  obtain ⟨r, hr, hreplicas, hmemory⟩ : ∃ r ∈ acked, r ∈ replicas ∧ t.inMemory r = true := by
    by_contra hnone
    have hall : acked.filter (fun r => !(decide (r ∈ replicas) && t.inMemory r)) = acked := by
      refine List.filter_eq_self.mpr fun r hr => ?_
      rw [Bool.not_eq_true', Bool.and_eq_false_imp]
      intro hreplicas
      exact Bool.eq_false_iff.mpr fun hmemory => hnone ⟨r, hr, of_decide_eq_true hreplicas, hmemory⟩
    rw [hall] at hlost
    exact absurd henough.2 (Nat.not_le.mpr hlost)
  have hfound : t.Found cid r :=
    (hacked r hr fun a ha => hkept a ha r hr).found hmemory
  obtain ⟨hserving, houtcomes⟩ := get_replicas htkind hidle ⟨r, hreplicas, hfound⟩
  rw [← houtcomes]
  exact serving_run ((step_onward htsound _).sound htsound) hserving hrounds

/-- After a `put` has succeeded and until the primary gets another store, a `get` finds the block in
one round, if the store of the primary is in memory. -/
theorem primary_durable {p : PrimaryBackup} {inMemory : Handle → Bool} {others : E}
    {acts acts' acts'' : List (Action E)}
    (hs : s = (start (.primaryBackup p) inMemory others).run acts)
    {acked replicas : List ReplicaId}
    (hput : s.round.outcomes = s.outcomes ++ [.stored cid (.ok acked)])
    (hkept : ∀ a ∈ acts', ∀ h, a ≠ .attach p.primary h) (ht : t = s.round.run acts')
    (hidle : t.call = none) (hmemory : t.inMemory p.primary = true)
    (hrounds : 0 < acts''.countP Action.isRound) :
    ((t.step (.get cid replicas)).run acts'').Served cid t.outcomes.length := by
  obtain ⟨htsound, htkind, henough, hacked⟩ := put_acked hs hput ht
  obtain ⟨handle, hstore, hholds⟩ : t.Found cid p.primary :=
    (hacked _ (List.mem_of_head? henough) hkept).found hmemory
  have hstep : t.step (.get cid replicas) =
      { t with call := some (.getPrimary p.primary handle cid) } := by
    have hget : t.step (.get cid replicas) = t.get cid replicas := by
      rw [step, hidle]
      exact if_neg Bool.false_ne_true
    rw [hget]
    unfold Replicated.get
    cases hstrategy : t.strategy with
    | quorum q =>
      rw [hstrategy] at htkind
      cases htkind
    | primaryBackup p' =>
      rw [hstrategy] at htkind hstore
      have hprimary : p'.primary = p.primary := Kind.primary.inj htkind
      replace hstore : p'.stores[p.primary]? = some handle := hstore
      dsimp only
      rw [hprimary, hstore]
  have hserving : (t.step (.get cid replicas)).Serving cid 1 := by
    rw [hstep]
    exact .primary rfl hholds
  have houtcomes : (t.step (.get cid replicas)).outcomes = t.outcomes := by rw [hstep]
  rw [← houtcomes]
  exact serving_run ((step_onward htsound _).sound htsound) hserving hrounds

end Replicated

namespace Demo

open Replicated

/-- For content of one byte. -/
@[reducible] def firstByte : Sha256 := ⟨fun bytes => .replicate 32 (bytes.headD 0)⟩

@[reducible] def noText : Base58 := ⟨fun _ => ""⟩

/-- These stores acknowledge everything and hold something else. -/
@[reducible] def liars : OtherStores Unit where
  put e _ bytes := (.ok (firstByte.digest bytes), e)
  get e _ _ := (.ok [9], e)

attribute [local instance] firstByte noText liars

def cid : Cid := .replicate 32 7

/-- Both replicas are asked to store a block, and one of them has a store in memory. -/
def script : List (Action Unit) :=
  [.attach "a" 0, .attach "b" 1, .put cid [7] ["a", "b"], .round, .round]

def stored (strategy : ReplicationStrategy) : Replicated Unit :=
  (start strategy (· == 0) ()).run script

theorem quorum_durable_liar :
    (((stored (.quorum (.new 2))).round.step (.get cid ["b", "a"])).run [.round, .round]).Served
      cid 1 := by
  have hput : (stored (.quorum (.new 2))).round.outcomes =
      (stored (.quorum (.new 2))).outcomes ++ [.stored cid (.ok ["a", "b"])] := by decide +kernel
  have ht : (stored (.quorum (.new 2))).round = (stored (.quorum (.new 2))).round.run [] := rfl
  exact quorum_durable (q := .new 2) rfl hput (fun _ h => absurd h List.not_mem_nil) ht rfl
    (by decide +kernel) (by decide +kernel)

theorem primary_durable_liar :
    (((stored (.primaryBackup (.new "a"))).round.step (.get cid [])).run
    [.round]).Served cid 1 := by
  have hput : (stored (.primaryBackup (.new "a"))).round.outcomes =
      (stored (.primaryBackup (.new "a"))).outcomes ++ [.stored cid (.ok ["a", "b"])] := by
    decide +kernel
  have ht : (stored (.primaryBackup (.new "a"))).round =
      (stored (.primaryBackup (.new "a"))).round.run [] := rfl
  exact primary_durable (p := .new "a") rfl hput (fun _ h => absurd h List.not_mem_nil) ht rfl
    (by decide +kernel) (by decide +kernel)

end Demo

end P2P333.StorageAdvanced333.Replication
