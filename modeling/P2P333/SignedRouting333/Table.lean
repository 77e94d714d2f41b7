import P2P333.Kademlia333.RoutingTable
import P2P333.Lib.Newest

/-!
# The signed routing table

`333-signed-routing/src/lib.rs`: a routing table and, for each peer, the newest record that the peer
has signed. The two are kept in separate stores: the table drops the oldest peer of a full bucket,
and the record of that peer stays. The JSON of a payload and the check of a signature are parameters
(`Signatures`); a panic is `none`.

Results:
1. `observeAll_eq`: what both stores hold after any records.
2. `consistent_iff`: the stores agree exactly as long as no bucket has had more than `kDefault`
   peers with a valid record.
-/

namespace P2P333.SignedRouting333

open Std Lib Kademlia333

/-! ## Records -/

abbrev Signature := List.Vector UInt8 64

/-- Payload that actually gets signed. -/
structure RecordPayload where
  nodeId : NodeId
  addr : String
  ts : UInt64
deriving DecidableEq

/-- `serde_json::to_vec` and `Keypair::verify`. -/
class Signatures where
  toVec : RecordPayload → Except String Bytes
  verify : NodeId → Bytes → Signature → Bool

/-- Why an advert is not taken. -/
inductive RoutingError where
  | badSignature (node : NodeId)
  | ser (e : String)
  | stale (incoming stored : UInt64)
deriving DecidableEq

structure SignedPeerRecord where
  payload : RecordPayload
  sig : Signature
deriving DecidableEq

namespace SignedPeerRecord

def nodeId (r : SignedPeerRecord) : NodeId := r.payload.nodeId

def ts (r : SignedPeerRecord) : Nat := r.payload.ts.toNat

variable [Signatures]

def verify (r : SignedPeerRecord) : Except RoutingError Unit :=
  match Signatures.toVec r.payload with
  | .error e => .error (.ser e)
  | .ok bytes =>
    if Signatures.verify r.payload.nodeId bytes r.sig then .ok ()
    else .error (.badSignature r.payload.nodeId)

/-- The record is one that its peer has signed. -/
def Valid (r : SignedPeerRecord) : Prop := r.verify = .ok ()

instance : DecidablePred Valid := fun r =>
  match h : r.verify with
  | .ok () => .isTrue h
  | .error _ => .isFalse fun hv => by rw [Valid, h] at hv; cases hv

end SignedPeerRecord

/-! ## The table -/

structure SignedRoutingTable where
  inner : RoutingTable
  records : OrdMap NodeId SignedPeerRecord

namespace SignedRoutingTable

def new (localId : NodeId) : SignedRoutingTable := ⟨.new localId, ∅⟩

def len (t : SignedRoutingTable) : Nat := t.records.size

/-- What an accepted record changes. -/
def store (t : SignedRoutingTable) (record : SignedPeerRecord) : Option SignedRoutingTable := do
  let (_, inner) ← t.inner.observe record.nodeId
  some ⟨inner, t.records.insert record.nodeId record⟩

def get (t : SignedRoutingTable) (id : NodeId) : Option SignedPeerRecord := t.records[id]?

def findClosest (t : SignedRoutingTable) (target : NodeId) (count : Nat) :
    List SignedPeerRecord :=
  (t.inner.findClosest target count).filterMap t.get

section Observing

variable [Signatures]

/-- Accept a record iff signature verifies AND ts > stored ts (if any). -/
def observe (t : SignedRoutingTable) (record : SignedPeerRecord) :
    Option (Except RoutingError Unit × SignedRoutingTable) :=
  match record.verify with
  | .error e => some (.error e, t)
  | .ok () =>
    match t.records[record.nodeId]? with
    | some existing =>
      if record.payload.ts ≤ existing.payload.ts then
        some (.error (.stale record.payload.ts existing.payload.ts), t)
      else (t.store record).map (.ok (), ·)
    | none => (t.store record).map (.ok (), ·)

/-- One record after the other: the accepted ones, and the table. -/
def observeAll : SignedRoutingTable → List SignedPeerRecord →
    Option (List SignedPeerRecord × SignedRoutingTable)
  | t, [] => some ([], t)
  | t, record :: rest => do
    let (result, t) ← t.observe record
    let (accepted, t) ← observeAll t rest
    some (if result = .ok () then record :: accepted else accepted, t)

end Observing

/-! ## What the stores hold -/

section Stores

variable [Signatures] {localId : NodeId} {accepted records : List SignedPeerRecord}
  {t t' : SignedRoutingTable}
  {record : SignedPeerRecord}

/-- An error changes nothing. -/
theorem observe_error {e : RoutingError} (h : t.observe record = some (.error e, t')) : t' = t := by
  unfold observe at h
  split at h
  · cases h
    rfl
  · split at h
    · split at h
      · cases h
        rfl
      · obtain ⟨_, _, h⟩ := Option.map_eq_some_iff.mp h
        cases h
    · obtain ⟨_, _, h⟩ := Option.map_eq_some_iff.mp h
      cases h

/-- The two stores after some records were accepted: the table has seen their peers in this order,
and of each peer the newest record is kept. -/
structure Holds (localId : NodeId) (accepted : List SignedPeerRecord) (t : SignedRoutingTable) :
    Prop where
  inner : t.inner = .ofSeen localId kDefault (accepted.map SignedPeerRecord.nodeId)
  newest : ∀ p, Newest SignedPeerRecord.ts {r | r ∈ accepted ∧ r.nodeId = p} t.records[p]?
  valid : ∀ r ∈ accepted, r.Valid

theorem holds_new (localId : NodeId) : Holds localId [] (new localId) where
  inner := RoutingTable.withK_eq localId kDefault
  newest _ := .none fun _ h => List.not_mem_nil h.1
  valid _ h := absurd h List.not_mem_nil

/-- A peer has a stored record if one of its records was accepted. -/
theorem Holds.mem_records (h : Holds localId accepted t) (p : NodeId) :
    p ∈ t.records ↔ p ∈ accepted.map SignedPeerRecord.nodeId := by
  have hnewest := h.newest p
  rw [ExtTreeMap.mem_iff_isSome_getElem?, List.mem_map]
  cases hp : t.records[p]? with
  | none =>
    rw [hp] at hnewest
    cases hnewest with
    | none hempty => exact iff_of_false nofun fun ⟨r, hr⟩ => hempty r hr
  | some r =>
    rw [hp] at hnewest
    cases hnewest with
    | some hmem => exact iff_of_true rfl ⟨r, hmem⟩

theorem Holds.store (h : Holds localId accepted t) (hvalid : record.Valid)
    (hnewer : ∀ r, t.records[record.nodeId]? = some r → r.ts ≤ record.ts) :
    ∃ t', t.store record = some t' ∧ Holds localId (accepted ++ [record]) t' := by
  have hobserve := RoutingTable.observe_ofSeen (by decide : 0 < kDefault) localId
    (accepted.map SignedPeerRecord.nodeId) record.nodeId
  rw [← h.inner] at hobserve
  obtain ⟨⟨changed, inner⟩, hinner, hseen⟩ := Option.map_eq_some_iff.mp hobserve
  refine ⟨⟨inner, t.records.insert record.nodeId record⟩, ?_, ?_, fun p => ?_, ?_⟩
  · rw [SignedRoutingTable.store, hinner]
    rfl
  · rw [List.map_append]
    exact hseen
  · by_cases hp : record.nodeId = p
    · subst hp
      rw [ExtTreeMap.getElem?_insert_self]
      have hset : {r | r ∈ accepted ++ [record] ∧ r.nodeId = record.nodeId} =
          insert record {r | r ∈ accepted ∧ r.nodeId = record.nodeId} := by
        ext r
        simp only [List.mem_append, List.mem_singleton, Set.mem_ofPred_eq, Set.mem_insert_iff]
        constructor
        · rintro ⟨hr | rfl, hnode⟩
          · exact .inr ⟨hr, hnode⟩
          · exact .inl rfl
        · rintro (rfl | ⟨hr, hnode⟩)
          · exact ⟨.inr rfl, rfl⟩
          · exact ⟨.inl hr, hnode⟩
      rw [hset]
      refine Newest.insert_newer fun r hr => ?_
      -- The newest one so far is older, so all of them are.
      have hnewest := h.newest record.nodeId
      cases hstored : t.records[record.nodeId]? with
      | none =>
        rw [hstored] at hnewest
        cases hnewest with
        | none hempty => exact absurd hr (hempty r)
      | some existing =>
        rw [hstored] at hnewest
        cases hnewest with
        | some _ hle => exact (hle r hr).trans (hnewer existing hstored)
    · rw [OrdMap.getElem?_insert_of_ne _ hp]
      have hset : {r | r ∈ accepted ++ [record] ∧ r.nodeId = p} =
          {r | r ∈ accepted ∧ r.nodeId = p} := by
        ext r
        simp only [List.mem_append, List.mem_singleton, Set.mem_ofPred_eq]
        constructor
        · rintro ⟨hr | rfl, hnode⟩
          · exact ⟨hr, hnode⟩
          · exact absurd hnode hp
        · rintro ⟨hr, hnode⟩
          exact ⟨.inl hr, hnode⟩
      rw [hset]
      exact h.newest p
  · intro r hr
    rcases List.mem_append.mp hr with hr | hr
    · exact h.valid r hr
    · rw [List.mem_singleton.mp hr]
      exact hvalid

/-- One record: it is accepted, or nothing changes. If it is valid, its peer is known. -/
theorem Holds.observe (h : Holds localId accepted t) (record : SignedPeerRecord) :
    ∃ result t', t.observe record = some (result, t') ∧
      Holds localId (accepted ++ if result = .ok () then [record] else []) t' ∧
      (result = .ok () → record.Valid) ∧
      (record.Valid → result = .ok () ∨
        record.nodeId ∈ accepted.map SignedPeerRecord.nodeId) := by
  unfold SignedRoutingTable.observe
  cases hverify : record.verify with
  | error e =>
    have hinvalid : ¬ record.Valid := by
      rw [SignedPeerRecord.Valid, hverify]
      nofun
    refine ⟨_, _, rfl, ?_, nofun, fun hv => absurd hv hinvalid⟩
    rw [if_neg nofun, List.append_nil]
    exact h
  | ok u =>
    have hvalid : record.Valid := hverify
    cases hstored : t.records[record.nodeId]? with
    | none =>
      obtain ⟨t', ht', hholds⟩ := h.store hvalid fun r hr => by rw [hstored] at hr; cases hr
      refine ⟨.ok (), t', by dsimp only; rw [ht']; rfl, ?_, fun _ => hvalid, fun _ => .inl rfl⟩
      rw [if_pos rfl]
      exact hholds
    | some existing =>
      dsimp only
      split
      · have hmem : record.nodeId ∈ t.records := by
          rw [ExtTreeMap.mem_iff_isSome_getElem?, hstored]
          rfl
        refine ⟨_, _, rfl, ?_, nofun, fun _ => .inr ((h.mem_records _).mp hmem)⟩
        rw [if_neg nofun, List.append_nil]
        exact h
      · next hnot =>
        have hnewer : ∀ r, t.records[record.nodeId]? = some r → r.ts ≤ record.ts := by
          intro r hr
          cases hstored.symm.trans hr
          exact (Nat.not_le.mp (mt UInt64.le_iff_toNat_le.mpr hnot)).le
        obtain ⟨t', ht', hholds⟩ := h.store hvalid hnewer
        refine ⟨.ok (), t', by rw [ht']; rfl, ?_, fun _ => hvalid, fun _ => .inl rfl⟩
        rw [if_pos rfl]
        exact hholds

/-- The peers that have signed one of the records. -/
def signers (records : List SignedPeerRecord) : List NodeId :=
  (records.filter fun r => r.Valid).map SignedPeerRecord.nodeId

theorem mem_signers_cons {rest : List SignedPeerRecord} {p : NodeId} :
    p ∈ signers (record :: rest) ↔ record.Valid ∧ record.nodeId = p ∨ p ∈ signers rest := by
  rw [signers, List.filter_cons]
  simp only [decide_eq_true_eq]
  split
  · next hvalid =>
    rw [List.map_cons, List.mem_cons, eq_comm]
    simp only [hvalid, true_and, signers]
  · next hinvalid => simp only [hinvalid, false_and, false_or, signers]

/-- After any records, the peers that are known are those that have signed one of them. -/
theorem Holds.observeAll (h : Holds localId accepted t) (records : List SignedPeerRecord) :
    ∃ accepted' t', t.observeAll records = some (accepted', t') ∧
      Holds localId (accepted ++ accepted') t' ∧
      ∀ p, p ∈ (accepted ++ accepted').map SignedPeerRecord.nodeId ↔
        p ∈ accepted.map SignedPeerRecord.nodeId ∨ p ∈ signers records := by
  induction records generalizing accepted t with
  | nil =>
    refine ⟨[], t, rfl, by rwa [List.append_nil], fun p => ?_⟩
    rw [List.append_nil]
    exact (or_iff_left List.not_mem_nil).symm
  | cons record rest ih =>
    obtain ⟨result, t₁, hstep, hholds, hvalid, hknown⟩ := h.observe record
    obtain ⟨accepted', t', hrest, hholds', hpeers⟩ := ih hholds
    refine ⟨if result = .ok () then record :: accepted' else accepted', t', ?_, ?_, fun p => ?_⟩
    · rw [SignedRoutingTable.observeAll, hstep]
      simp only [Option.bind_eq_bind, Option.bind_some, hrest]
    · by_cases hok : result = .ok ()
      · rw [if_pos hok] at hholds' ⊢
        rwa [List.append_assoc] at hholds'
      · rw [if_neg hok] at hholds' ⊢
        rwa [List.append_nil] at hholds'
    · rw [mem_signers_cons]
      have hpeers := hpeers p
      by_cases hok : result = .ok ()
      · rw [if_pos hok, List.append_assoc] at hpeers
        rw [if_pos hok]
        refine hpeers.trans ?_
        rw [List.map_append, List.mem_append, List.map_singleton, List.mem_singleton, or_assoc,
          eq_comm (a := p)]
        simp only [hvalid hok, true_and]
      · rw [if_neg hok, List.append_nil] at hpeers
        rw [if_neg hok]
        refine hpeers.trans ?_
        constructor
        · rintro (hp | hp)
          · exact .inl hp
          · exact .inr (.inr hp)
        · rintro (hp | ⟨hv, rfl⟩ | hp)
          · exact .inl hp
          · exact .inl ((hknown hv).resolve_left hok)
          · exact .inr hp

end Stores

/-! ## Agreement -/

section Agreement

variable [Signatures] {localId : NodeId} {accepted records : List SignedPeerRecord}
  {t : SignedRoutingTable}

/-- The two stores agree, and an error changes nothing. -/
structure Consistent (accepted : List SignedPeerRecord) (t : SignedRoutingTable) : Prop where
  peers : ∀ p, p ∈ t.records ↔ p ∈ t.inner.known
  capacity : t.len ≤ keyBits * kDefault
  closest : ∀ target count, (t.findClosest target count).length = min count t.len
  newest : ∀ p, Newest SignedPeerRecord.ts {r | r ∈ accepted ∧ r.nodeId = p} (t.get p)
  valid : ∀ p r, t.get p = some r → r.Valid
  error : ∀ record e t', t.observe record = some (.error e, t') → t' = t

/-- The peers with a valid record that belong to a bucket. -/
def bucketSigners (localId : NodeId) (i : Nat) (records : List SignedPeerRecord) : Finset NodeId :=
  (RoutingTable.ofClass localId i (signers records)).toFinset

/-- No bucket has to drop a peer. -/
def Fits (localId : NodeId) (records : List SignedPeerRecord) : Prop :=
  ∀ i < keyBits, (bucketSigners localId i records).card ≤ kDefault

instance (localId : NodeId) (records : List SignedPeerRecord) : Decidable (Fits localId records) :=
  inferInstanceAs (Decidable (∀ i < keyBits, (bucketSigners localId i records).card ≤ kDefault))

section

variable (h : Holds localId accepted t)
include h

theorem Holds.get_valid {p : NodeId} {r : SignedPeerRecord} (hr : t.get p = some r) : r.Valid := by
  have hnewest := h.newest p
  rw [show t.records[p]? = some r from hr] at hnewest
  cases hnewest with
  | some hmem => exact h.valid r hmem.1

/-- A peer of another id is in the table as long as its bucket has not dropped it. -/
theorem Holds.mem_known (p : NodeId) : p ∈ t.inner.known ↔
    ∃ i < keyBits, p ∈ recent kDefault
      (RoutingTable.ofClass localId i (accepted.map SignedPeerRecord.nodeId)) := by
  rw [h.inner]
  exact RoutingTable.mem_known_ofSeen

/-- Nothing was dropped exactly if the buckets are large enough. -/
theorem Holds.peers_iff (hother : ∀ r ∈ accepted, r.nodeId ≠ localId) :
    (∀ p, p ∈ t.records ↔ p ∈ t.inner.known) ↔ ∀ i < keyBits,
      (RoutingTable.ofClass localId i (accepted.map SignedPeerRecord.nodeId)).toFinset.card ≤
        kDefault := by
  simp only [List.card_toFinset, ← subset_recent_iff]
  constructor
  · intro hpeers i hi p hp
    have hseen : p ∈ accepted.map SignedPeerRecord.nodeId := (List.mem_filter.mp hp).1
    have hclass : SharesExactly i localId p := of_decide_eq_true (List.mem_filter.mp hp).2
    obtain ⟨j, -, hj⟩ := (h.mem_known p).mp ((hpeers p).mp ((h.mem_records p).mpr hseen))
    rwa [(RoutingTable.sharesExactly_of_mem hj).unique hclass] at hj
  · intro hfits p
    rw [h.mem_records, h.mem_known]
    constructor
    · intro hp
      obtain ⟨r, hr, rfl⟩ := List.mem_map.mp hp
      have hne := hother r hr
      have hlt := leadingZeros_lt_iff.mpr hne.symm
      refine ⟨_, hlt, hfits _ hlt (List.mem_filter.mpr ⟨hp, decide_eq_true ?_⟩)⟩
      exact sharesExactly_leadingZeros hne.symm
    · rintro ⟨i, -, hp⟩
      exact (List.mem_filter.mp (mem_of_recent hp)).1

/-- Where the stores agree, everything else follows. -/
theorem Holds.consistent
    (hpeers : ∀ p, p ∈ t.records ↔ p ∈ t.inner.known) : Consistent accepted t := by
  have hnodup : t.inner.known.Nodup := by
    rw [h.inner]
    exact RoutingTable.nodup_known _ _ _
  have hperm : t.inner.known.Perm t.records.keys := by
    rw [List.perm_ext_iff_of_nodup hnodup ExtTreeMap.nodup_keys]
    intro p
    rw [ExtTreeMap.mem_keys]
    exact (hpeers p).symm
  have hlen : t.inner.known.length = t.len := hperm.length_eq.trans ExtTreeMap.length_keys
  refine ⟨hpeers, ?_, fun target count => ?_, h.newest, fun p r => h.get_valid,
    fun record e t' => observe_error⟩
  · rw [← hlen, h.inner]
    exact RoutingTable.length_known_le _ _ _
  · have hclosest := RoutingTable.findClosest_spec hnodup target count
    rw [← hlen, ← hclosest.length, SignedRoutingTable.findClosest,
      List.filterMap_length_eq_length]
    intro p hp
    exact ExtTreeMap.mem_iff_isSome_getElem?.mp ((hpeers p).mpr (hclosest.subset hp))

end

/-- For every sequence of records from other peers. -/
theorem consistent_iff (localId : NodeId) (records : List SignedPeerRecord)
    (hother : ∀ r ∈ records, r.nodeId ≠ localId) : ∃ accepted t,
      (new localId).observeAll records = some (accepted, t) ∧
        (Consistent accepted t ↔ Fits localId records) := by
  obtain ⟨accepted, t, hrun, hholds, hknown⟩ := (holds_new localId).observeAll records
  rw [List.nil_append] at hholds hknown
  have hsigners (p : NodeId) :
      p ∈ accepted.map SignedPeerRecord.nodeId ↔ p ∈ signers records :=
    (hknown p).trans (or_iff_right List.not_mem_nil)
  have hother' : ∀ r ∈ accepted, r.nodeId ≠ localId := by
    intro r hr
    obtain ⟨r', hr', hnode⟩ := List.mem_map.mp
      ((hsigners _).mp (List.mem_map_of_mem (f := SignedPeerRecord.nodeId) hr))
    rw [← hnode]
    exact hother r' (List.mem_filter.mp hr').1
  have hclass (i : Nat) : (RoutingTable.ofClass localId i
      (accepted.map SignedPeerRecord.nodeId)).toFinset = bucketSigners localId i records := by
    ext p
    rw [bucketSigners, List.mem_toFinset, List.mem_toFinset, RoutingTable.ofClass,
      RoutingTable.ofClass, List.mem_filter, List.mem_filter, hsigners]
  have hiff := hholds.peers_iff hother'
  simp only [hclass] at hiff
  refine ⟨accepted, t, hrun, fun hconsistent => hiff.mp hconsistent.peers, fun hfits => ?_⟩
  exact hholds.consistent (hiff.mpr hfits)

end Agreement

namespace Demo

/-- Signatures that begin with the id of the signer. -/
local instance : Signatures where
  toVec payload := .ok payload.nodeId.toList
  verify node _ sig := sig.toList.take 32 = node.toList

def record (first : UInt8) (ts : UInt64) : SignedPeerRecord :=
  let node := RoutingTable.Demo.peer first
  ⟨⟨node, "127.0.0.1:4001", ts⟩, ⟨node.toList ++ List.replicate 32 0, rfl⟩⟩

/-- One peer with two records, and a peer of another bucket. -/
theorem consistent_iff_three : ∃ accepted t,
    (new (RoutingTable.Demo.peer 0)).observeAll [record 0x80 1, record 0x41 1, record 0x80 2] =
      some (accepted, t) ∧
    (Consistent accepted t ↔
      Fits (RoutingTable.Demo.peer 0) [record 0x80 1, record 0x41 1, record 0x80 2]) :=
  consistent_iff _ _ (by decide)

/-- Peers that share no bit with the local id, one more than their bucket has room for. -/
def crowd : List SignedPeerRecord := (List.range 21).map fun i => record (0x80 + .ofNat i) 1

/-- The record of the peer that the table has dropped stays. -/
theorem stores_disagree : (∀ r ∈ crowd, r.nodeId ≠ RoutingTable.Demo.peer 0) ∧ ∃ accepted t,
    (new (RoutingTable.Demo.peer 0)).observeAll crowd = some (accepted, t) ∧
    RoutingTable.Demo.peer 0x80 ∈ t.records ∧ RoutingTable.Demo.peer 0x80 ∉ t.inner.known ∧
    t.len = 21 ∧ t.inner.len = 20 := by
  refine ⟨by decide, ?_⟩
  have hrun : ((new (RoutingTable.Demo.peer 0)).observeAll crowd).map (fun r =>
      decide (RoutingTable.Demo.peer 0x80 ∈ r.2.records ∧
        RoutingTable.Demo.peer 0x80 ∉ r.2.inner.known ∧ r.2.len = 21 ∧ r.2.inner.len = 20)) =
      some true := by
    decide +kernel
  obtain ⟨⟨accepted, t⟩, hobserve, hfacts⟩ := Option.map_eq_some_iff.mp hrun
  exact ⟨accepted, t, hobserve, of_decide_eq_true hfacts⟩

end Demo

end SignedRoutingTable

end P2P333.SignedRouting333
