import P2P333.Lib.Machine
import P2P333.Lib.OrdMap
import P2P333.Lib.Varint
import P2P333.Platform333.Crdt.LwwMap

/-!
# The sync manager

`333-platform/src/sync.rs` and `wire.rs`: local edits are queued, and a poll sends all that is
queued as one message; a new peer gets the whole map as one message. The encodings of `postcard` and
`serde_json` are parameters.

A message holds at most 65535 bytes. The queue is emptied before its encoding is known to fit.

Results:
1. `carried_poll`, `kept_iff`: what a poll loses, and when nothing is lost in a run.
2. `snapshotWorks_iff`: when a snapshot can be made.
3. `keeps_iff`: both together.
-/

namespace P2P333.Platform333

open Std Lib Platform333.Crdt

/-! ## Wire messages -/

namespace Wire

/-- The types of messages. -/
inductive MsgType where
  | stateUpdate | stateFull | presence | consensus | roomControl | heartbeat | appMessage
deriving DecidableEq

def MsgType.toU8 : MsgType → UInt8
  | stateUpdate => 0x01
  | stateFull => 0x02
  | presence => 0x03
  | consensus => 0x04
  | roomControl => 0x05
  | heartbeat => 0x06
  | appMessage => 0x10

def MsgType.fromU8 (v : UInt8) : Option MsgType :=
  [stateUpdate, stateFull, presence, consensus, roomControl, heartbeat, appMessage].find? fun t =>
    t.toU8 == v

/-- Why bytes are not a message. -/
inductive WireError where
  | payloadTooLarge | bufferTooShort
  | unknownVersion (v : UInt8)
  | invalidLength
deriving DecidableEq

structure WireMessage where
  version : UInt8
  msgType : UInt8
  length : Nat
  payload : Bytes
deriving DecidableEq

/-- What is read from bytes. What a later version may send is skipped. -/
inductive DecodeResult where
  | ok (m : WireMessage)
  | skipVersion (v : UInt8)
  | skipType (v : UInt8)
  | err (e : WireError)
deriving DecidableEq

def wireVersion : UInt8 := 1

def maxPayload : Nat := 65535

def encode (msgType : MsgType) (payload : Bytes) : Except WireError Bytes :=
  if payload.length > maxPayload then .error .payloadTooLarge
  else .ok (wireVersion :: msgType.toU8 :: (beBytes 2 payload.length ++ payload))

def decode (buf : Bytes) : DecodeResult :=
  match buf with
  | version :: msgTypeRaw :: b :: b' :: rest =>
    let length := ofBeBytes [b, b']
    if version ≠ wireVersion then .skipVersion version
    else if MsgType.fromU8 msgTypeRaw = none then .skipType msgTypeRaw
    else if rest.length < length then .err .invalidLength
    else .ok ⟨version, msgTypeRaw, length, rest.take length⟩
  | _ => .err .bufferTooShort

theorem fromU8_toU8 (t : MsgType) : MsgType.fromU8 t.toU8 = some t := by
  cases t <;> decide

theorem encode_eq_ok {t : MsgType} {payload bytes : Bytes} : encode t payload = .ok bytes ↔
    payload.length ≤ maxPayload ∧
      bytes = wireVersion :: t.toU8 :: (beBytes 2 payload.length ++ payload) := by
  unfold encode
  split_ifs with h
  · simp only [false_iff]
    exact fun hle => absurd hle.1 (Nat.not_le.mpr h)
  · rw [Except.ok.injEq]
    exact ⟨fun heq => ⟨Nat.not_lt.mp h, heq.symm⟩, fun heq => heq.2.symm⟩

theorem decode_encode {t : MsgType} {payload bytes : Bytes} (h : encode t payload = .ok bytes) :
    decode bytes = .ok ⟨wireVersion, t.toU8, payload.length, payload⟩ := by
  obtain ⟨hle, rfl⟩ := encode_eq_ok.mp h
  obtain ⟨b, b', hlen⟩ : ∃ b b', beBytes 2 payload.length = [b, b'] :=
    ⟨_, _, rfl⟩
  have hnat : ofBeBytes [b, b'] = payload.length := by
    rw [← hlen, ofBeBytes_beBytes]
    unfold maxPayload at hle
    omega
  rw [hlen]
  simp only [List.cons_append, List.nil_append, decode, ne_eq, not_true_eq_false, if_false,
    fromU8_toU8, reduceCtorEq, hnat, Nat.lt_irrefl, List.take_length]

end Wire

/-! ## Sync messages -/

/-- The largest counter seen of each peer. -/
abbrev StateVector := OrdMap UInt32 UInt64

abbrev Entry := String × LwwEntry String

/-- Some changes, or everything. -/
inductive SyncPayload where
  | delta (senderId : UInt32) (deltas : List Entry) (stateVector : StateVector)
  | fullState (senderId : UInt32) (entries : List Entry) (stateVector : StateVector)

/-- What `postcard` and `serde_json` make of payloads. -/
class Serde where
  toAllocvec : SyncPayload → Option Bytes
  fromBytes : Bytes → Option SyncPayload
  fromSlice : Bytes → Option SyncPayload

structure OutgoingMsg where
  msgType : UInt8
  channel : String
  payload : Bytes
deriving DecidableEq

structure SyncManager where
  nodeId : UInt32
  batchQueue : List Entry
  stateVector : StateVector
  deltaCount : Nat

/-- `entry(peer).or_insert(0)`, raised to the counter. -/
def StateVector.raise (sv : StateVector) (peer : UInt32) (counter : UInt64) : StateVector :=
  sv.insert peer (max (sv[peer]?.getD 0) counter)

namespace SyncManager

def new (nodeId : UInt32) : SyncManager := ⟨nodeId, [], ∅, 0⟩

def onLocalDelta (m : SyncManager) (delta : LwwDelta String String) : SyncManager :=
  { m with
    batchQueue := m.batchQueue ++ delta.changes
    stateVector :=
      delta.changes.foldl (fun sv c => sv.raise m.nodeId c.2.timestamp.counter) m.stateVector
    deltaCount := m.deltaCount + delta.changes.length }

def mergeStateVector (m : SyncManager) (remote : StateVector) : SyncManager :=
  { m with stateVector := remote.toList.foldl (fun sv c => sv.raise c.1 c.2) m.stateVector }

variable [Serde]

def encodeSyncMsg (msgType : Wire.MsgType) (payload : SyncPayload) : Option OutgoingMsg := do
  let bytes ← Serde.toAllocvec payload
  let wireBytes ← (Wire.encode msgType bytes).toOption
  some ⟨msgType.toU8, "crdt", wireBytes⟩

/-- What the next poll sends. -/
def pending (m : SyncManager) : SyncPayload := .delta m.nodeId m.batchQueue m.stateVector

def pollOutgoing (m : SyncManager) : List OutgoingMsg × SyncManager :=
  if m.batchQueue = [] then ([], m)
  else ((encodeSyncMsg .stateUpdate m.pending).toList, { m with batchQueue := [] })

/-- The payload of a snapshot; the entries come in the order in which the map is iterated. -/
def snapshot (m : SyncManager) (order : List Entry) : SyncPayload :=
  .fullState m.nodeId order
    (order.foldl (fun sv c => sv.raise c.2.timestamp.nodeId c.2.timestamp.counter) m.stateVector)

def createFullSnapshot (m : SyncManager) (order : List Entry) : Option OutgoingMsg :=
  encodeSyncMsg .stateFull (m.snapshot order)

def processIncoming (m : SyncManager) (wirePayload : Bytes) (world : LwwMap String String) :
    Bool × SyncManager × LwwMap String String :=
  match (Serde.fromBytes wirePayload).or (Serde.fromSlice wirePayload) with
  | none => (false, m, world)
  | some (.delta _ deltas stateVector) =>
    let m := m.mergeStateVector stateVector
    (true, { m with deltaCount := m.deltaCount + deltas.length }, world.mergeDelta ⟨deltas⟩)
  | some (.fullState _ entries stateVector) =>
    (true, m.mergeStateVector stateVector,
      entries.foldl (fun world c => world.mergeDelta ⟨[c]⟩) world)

/-! ## What is lost -/

/-- What is encoded can be decoded. -/
def Lossless : Prop := ∀ p, ∃ b, Serde.toAllocvec p = some b ∧ Serde.fromBytes b = some p

/-- The encoding of the payload fits a message. -/
def Fits (p : SyncPayload) : Prop := ∃ b, Serde.toAllocvec p = some b ∧ b.length ≤ Wire.maxPayload

/-- The payload that a message carries. -/
def read (msg : OutgoingMsg) : Option SyncPayload :=
  match Wire.decode msg.payload with
  | .ok m => Serde.fromBytes m.payload
  | _ => none

/-- The entries that a message carries. -/
def carried (msg : OutgoingMsg) : List Entry :=
  match read msg with
  | some (.delta _ deltas _) => deltas
  | some (.fullState _ entries _) => entries
  | none => []

/-- What fits is sent, and read back. -/
theorem encodeSyncMsg_of_fits (hlossless : Lossless) {t : Wire.MsgType} {p : SyncPayload}
    (h : Fits p) :
    ∃ msg, encodeSyncMsg t p = some msg ∧ read msg = some p ∧
      ∃ m, Wire.decode msg.payload = .ok m ∧ Serde.fromBytes m.payload = some p := by
  obtain ⟨b, hb, hle⟩ := h
  obtain ⟨b', hb', hback⟩ := hlossless p
  cases hb.symm.trans hb'
  have hencode : Wire.encode t b = .ok (Wire.wireVersion :: t.toU8 :: (beBytes 2 b.length ++ b)) :=
    Wire.encode_eq_ok.mpr ⟨hle, rfl⟩
  have hdecode := Wire.decode_encode hencode
  refine ⟨⟨t.toU8, "crdt", _⟩, ?_, ?_, _, hdecode, hback⟩
  · simp only [encodeSyncMsg, hb, hencode, Except.toOption, bind, Option.bind]
  · simp only [read, hdecode, hback]

theorem encodeSyncMsg_of_not_fits {t : Wire.MsgType} {p : SyncPayload} (h : ¬ Fits p) :
    encodeSyncMsg t p = none := by
  cases hb : Serde.toAllocvec p with
  | none => simp only [encodeSyncMsg, hb, bind, Option.bind]
  | some b =>
    have hlarge : b.length > Wire.maxPayload := by
      by_contra hle
      exact h ⟨b, hb, Nat.not_lt.mp hle⟩
    simp only [encodeSyncMsg, hb, bind, Option.bind, Wire.encode, if_pos hlarge, Except.toOption]

/-- What is asked of a sync manager. -/
inductive Call where
  | onLocalDelta (delta : LwwDelta String String)
  | pollOutgoing

def step (m : SyncManager) : Call → List OutgoingMsg × SyncManager
  | .onLocalDelta delta => ([], m.onLocalDelta delta)
  | .pollOutgoing => m.pollOutgoing

/-- The entries of all local deltas. -/
def edits (calls : List Call) : List Entry :=
  calls.flatMap fun
    | .onLocalDelta delta => delta.changes
    | .pollOutgoing => []

omit [Serde] in
@[simp] theorem edits_delta (delta : LwwDelta String String) (calls : List Call) :
    edits (.onLocalDelta delta :: calls) = delta.changes ++ edits calls := rfl

omit [Serde] in
@[simp] theorem edits_poll (calls : List Call) : edits (.pollOutgoing :: calls) = edits calls := rfl

/-- The entries of all messages, and after them those that are still queued. -/
def accounted (m : SyncManager) (calls : List Call) : List Entry :=
  (Machine.outputs step m calls).flatten.flatMap carried ++ (Machine.after step m calls).batchQueue

/-- Whenever something is polled, it fits a message. -/
def PollsFit (m : SyncManager) (calls : List Call) : Prop :=
  ∀ before rest, calls = before ++ .pollOutgoing :: rest →
    let now := Machine.after step m before
    now.batchQueue ≠ [] → Fits now.pending

theorem pollsFit_cons (m : SyncManager) (c : Call) (calls : List Call) : PollsFit m (c :: calls) ↔
    (c = .pollOutgoing → m.batchQueue ≠ [] → Fits m.pending) ∧ PollsFit (m.step c).2 calls := by
  constructor
  · intro h
    refine ⟨?_, fun before rest hcalls => ?_⟩
    · rintro rfl
      exact h [] calls rfl
    · exact h (c :: before) rest (by rw [hcalls, List.cons_append])
  · rintro ⟨hfirst, hlater⟩ before rest hcalls
    cases before with
    | nil =>
      cases hcalls
      exact hfirst rfl
    | cons d before =>
      cases hcalls
      exact hlater before rest rfl

theorem accounted_cons (m : SyncManager) (c : Call) (calls : List Call) :
    m.accounted (c :: calls) = (m.step c).1.flatMap carried ++ (m.step c).2.accounted calls := by
  rw [accounted, Machine.outputs, List.flatten_cons, List.flatMap_append, List.append_assoc]
  rfl

theorem batchQueue_poll (m : SyncManager) : m.pollOutgoing.2.batchQueue = [] := by
  unfold pollOutgoing
  split_ifs with h
  · exact h
  · rfl

/-- A poll sends the queue. -/
theorem carried_poll (hlossless : Lossless) {m : SyncManager}
    (hfits : m.batchQueue ≠ [] → Fits m.pending) :
    m.pollOutgoing.1.flatMap carried = m.batchQueue := by
  unfold pollOutgoing
  split_ifs with h
  · exact h.symm
  · obtain ⟨msg, hmsg, hread, -⟩ := encodeSyncMsg_of_fits hlossless (t := .stateUpdate) (hfits h)
    rw [hmsg, Option.toList, List.flatMap_singleton, carried, hread]
    rfl

/-- A queue that does not fit is lost. -/
theorem lost_poll {m : SyncManager} (hne : m.batchQueue ≠ []) (hnot : ¬ Fits m.pending) :
    m.pollOutgoing.1 = [] := by
  rw [pollOutgoing, if_neg hne, encodeSyncMsg_of_not_fits hnot]
  rfl

/-- No entry is made up or sent twice. -/
theorem accounted_le (hlossless : Lossless) (m : SyncManager) (calls : List Call) :
    (m.accounted calls).length ≤ (m.batchQueue ++ edits calls).length := by
  induction calls generalizing m with
  | nil =>
    rw [accounted, Machine.outputs, edits, List.flatMap_nil, List.append_nil]
    exact le_rfl
  | cons c calls ih =>
    have hih := ih (m.step c).2
    rw [accounted_cons]
    rw [List.length_append] at hih ⊢
    cases c with
    | onLocalDelta delta =>
      have hqueue : (m.step (.onLocalDelta delta)).2.batchQueue = m.batchQueue ++
        delta.changes := rfl
      have hsent : (m.step (.onLocalDelta delta)).1 = [] := rfl
      rw [hqueue, List.length_append] at hih
      rw [hsent, edits_delta, List.flatMap_nil, List.length_nil, List.length_append,
        List.length_append]
      omega
    | pollOutgoing =>
      have hqueue : (m.step .pollOutgoing).2.batchQueue = [] := batchQueue_poll m
      have hsent : ((m.step .pollOutgoing).1.flatMap carried).length ≤ m.batchQueue.length := by
        by_cases hfits : m.batchQueue ≠ [] → Fits m.pending
        · exact (congrArg List.length (carried_poll hlossless hfits)).le
        · rw [Classical.not_imp] at hfits
          have hlost := lost_poll hfits.1 hfits.2
          show (m.pollOutgoing.1.flatMap carried).length ≤ _
          rw [hlost]
          exact Nat.zero_le _
      rw [hqueue, List.length_nil, Nat.zero_add] at hih
      rw [edits_poll, List.length_append]
      omega

/-- Nothing is lost exactly if every poll fits. -/
theorem accounted_iff (hlossless : Lossless) (m : SyncManager) (calls : List Call) :
    m.accounted calls = m.batchQueue ++ edits calls ↔ PollsFit m calls := by
  induction calls generalizing m with
  | nil =>
    refine iff_of_true (List.append_nil _).symm fun before rest hnil => ?_
    cases List.append_ne_nil_of_right_ne_nil before (List.cons_ne_nil _ rest) hnil.symm
  | cons c calls ih =>
    have hih := ih (m.step c).2
    rw [accounted_cons, pollsFit_cons, ← hih]
    cases c with
    | onLocalDelta delta =>
      have hqueue : (m.step (.onLocalDelta delta)).2.batchQueue = m.batchQueue ++
        delta.changes := rfl
      have hsent : (m.step (.onLocalDelta delta)).1 = [] := rfl
      rw [hqueue, hsent, edits_delta, List.flatMap_nil, List.nil_append, List.append_assoc]
      simp only [reduceCtorEq, false_imp_iff, true_and]
    | pollOutgoing =>
      have hqueue : (m.step .pollOutgoing).2.batchQueue = [] := batchQueue_poll m
      have hstep : (m.step .pollOutgoing).1 = m.pollOutgoing.1 := rfl
      rw [hqueue, edits_poll, List.nil_append, hstep]
      by_cases hfits : m.batchQueue ≠ [] → Fits m.pending
      · rw [carried_poll hlossless hfits, List.append_cancel_left_eq]
        exact ⟨fun h => ⟨fun _ => hfits, h⟩, fun h => h.2⟩
      · refine iff_of_false (fun heq => ?_) fun h => hfits (h.1 rfl)
        rw [Classical.not_imp] at hfits
        -- What is lost is missing for good.
        have hle := accounted_le hlossless (m.step .pollOutgoing).2 calls
        rw [lost_poll hfits.1 hfits.2, List.flatMap_nil, List.nil_append] at heq
        rw [heq, hqueue, List.nil_append, List.length_append] at hle
        exact hfits.1 (List.eq_nil_of_length_eq_zero (by omega))

/-! ## Snapshots -/

/-- There is a snapshot, and a fresh peer gets the map from it. -/
def SnapshotWorks (m : SyncManager) (world : LwwMap String String) (order : List Entry) : Prop :=
  ∃ msg, m.createFullSnapshot order = some msg ∧ ∃ sent, Wire.decode msg.payload = .ok sent ∧
    ∀ id id', ((SyncManager.new id).processIncoming sent.payload (.new id')).2.2.entries =
      world.entries

theorem snapshotWorks_iff (hlossless : Lossless) (m : SyncManager) {world : LwwMap String String}
    {order : List Entry} (horder : world.Lists order) :
    SnapshotWorks m world order ↔ Fits (m.snapshot order) := by
  constructor
  · rintro ⟨msg, hmsg, -⟩
    by_contra hnot
    rw [createFullSnapshot, encodeSyncMsg_of_not_fits hnot] at hmsg
    cases hmsg
  · intro hfits
    obtain ⟨msg, hmsg, -, sent, hsent, hback⟩ :=
      encodeSyncMsg_of_fits hlossless (t := .stateFull) hfits
    refine ⟨msg, hmsg, sent, hsent, fun id id' => ?_⟩
    simp only [processIncoming, hback, Option.some_or, snapshot]
    exact horder.merge_new id'

/-- Edits and maps get through exactly if they fit their messages. -/
theorem keeps_iff (hlossless : Lossless) :
    (∀ nodeId calls, (new nodeId).accounted calls = edits calls ↔ PollsFit (new nodeId) calls) ∧
    ∀ (m : SyncManager) (world : LwwMap String String) (order : List Entry), world.Lists order →
      (SnapshotWorks m world order ↔ Fits (m.snapshot order)) :=
  ⟨fun nodeId calls => accounted_iff hlossless (new nodeId) calls,
    fun m _ _ horder => snapshotWorks_iff hlossless m horder⟩

end SyncManager

namespace Demo

open SyncManager

/-! ### The encoding of `postcard` -/

def putLamport (l : Lamport) : Bytes := varint l.counter.toNat ++ varint l.nodeId.toNat

def putEntry (e : Entry) : Bytes :=
  countedText e.1 ++ (optional countedText e.2.value ++ putLamport e.2.timestamp)

def putStateVector (sv : StateVector) : Bytes :=
  counted (fun c => varint c.1.toNat ++ varint c.2.toNat) sv.toList

def putFields (variant : Nat) (senderId : UInt32) (entries : List Entry)
    (sv : StateVector) : Bytes :=
  varint variant ++ (varint senderId.toNat ++ (counted putEntry entries ++ putStateVector sv))

def putPayload : SyncPayload → Bytes
  | .delta senderId deltas stateVector => putFields 0 senderId deltas stateVector
  | .fullState senderId entries stateVector => putFields 1 senderId entries stateVector

theorem selfDelimiting_u32 : SelfDelimiting fun n : UInt32 => varint n.toNat :=
  selfDelimiting_varint.comap fun _ _ h => UInt32.toNat_inj.mp h

theorem selfDelimiting_u64 : SelfDelimiting fun n : UInt64 => varint n.toNat :=
  selfDelimiting_varint.comap fun _ _ h => UInt64.toNat_inj.mp h

theorem selfDelimiting_putLamport : SelfDelimiting putLamport :=
  (selfDelimiting_u64.append selfDelimiting_u32).comap
    (f := fun l : Lamport => (l.counter, l.nodeId))
    fun ⟨_, _⟩ ⟨_, _⟩ h => by cases h; rfl

theorem selfDelimiting_putEntry : SelfDelimiting putEntry :=
  (selfDelimiting_countedText.append
    ((SelfDelimiting.optional selfDelimiting_countedText).append selfDelimiting_putLamport)).comap
    (f := fun e : Entry => (e.1, e.2.value, e.2.timestamp))
    fun ⟨_, _, _⟩ ⟨_, _, _⟩ h => by cases h; rfl

theorem selfDelimiting_putStateVector : SelfDelimiting putStateVector :=
  (SelfDelimiting.counted (selfDelimiting_u32.append selfDelimiting_u64)).comap
    fun _ _ h => ExtTreeMap.toList_inj.mp h

theorem putPayload_injective : Function.Injective putPayload := by
  have hfields : SelfDelimiting fun p : Nat × UInt32 × List Entry × StateVector =>
      putFields p.1 p.2.1 p.2.2.1 p.2.2.2 :=
    selfDelimiting_varint.append (selfDelimiting_u32.append
      ((SelfDelimiting.counted selfDelimiting_putEntry).append selfDelimiting_putStateVector))
  have hinj : ∀ p q : Nat × UInt32 × List Entry × StateVector,
      putFields p.1 p.2.1 p.2.2.1 p.2.2.2 = putFields q.1 q.2.1 q.2.2.1 q.2.2.2 → p = q :=
    fun _ _ h => hfields.injective h
  intro p q h
  cases p with
  | delta id ds sv =>
    cases q with
    | delta id' ds' sv' => cases hinj (0, id, ds, sv) (0, id', ds', sv') h; rfl
    | fullState id' ds' sv' => cases hinj (0, id, ds, sv) (1, id', ds', sv') h
  | fullState id ds sv =>
    cases q with
    | delta id' ds' sv' => cases hinj (1, id, ds, sv) (0, id', ds', sv') h
    | fullState id' ds' sv' =>
      cases hinj (1, id, ds, sv) (1, id', ds', sv') h; rfl

@[reducible] noncomputable def postcard : Serde where
  toAllocvec p := some (putPayload p)
  fromBytes := Function.partialInv putPayload
  fromSlice _ := none

attribute [local instance] postcard

theorem lossless : Lossless := fun p =>
  ⟨putPayload p, rfl, Function.partialInv_left putPayload_injective p⟩

/-! ### A text that does not fit -/

def letters (n : Nat) : String := String.ofList (List.replicate n 'a')

/-- A text that is one byte too long. -/
def big : String := letters 65536

theorem length_letters (n : Nat) : (utf8 (letters n)).length = n := by
  induction n with
  | zero => rfl
  | succ n ih =>
    have hsplit : letters (n + 1) = String.singleton 'a' ++ letters n := by
      rw [letters, List.replicate_succ, String.ofList_cons, letters]
    have hone : (utf8 (String.singleton 'a')).length = 1 := rfl
    rw [hsplit, utf8_append, List.length_append, ih, hone, Nat.add_comm]

theorem length_putFields_le {k : String} {e : LwwEntry String} {s : String} (he : e.value = some s)
    (variant : Nat) (senderId : UInt32) (sv : StateVector) :
    (utf8 s).length ≤ (putFields variant senderId [(k, e)] sv).length := by
  have hitem : ∀ l : Bytes, l.flatMap (fun b => [b]) = l := fun l => by
    rw [List.flatMap_singleton']
  have htext : countedText s = varint (utf8 s).length ++ utf8 s := by
    rw [countedText, counted, hitem]
  simp only [putFields, counted, List.flatMap_singleton, putEntry, he, Lib.optional, htext,
    List.length_append, List.length_cons]
  omega

def bigEntry : LwwEntry String := ⟨some big, ⟨1, 1⟩⟩

/-- One edit, and a poll. -/
def bigEdit : List Call := [.onLocalDelta ⟨[("block", bigEntry)]⟩, .pollOutgoing]

def bigWorld : LwwMap String String := ⟨Finmap.singleton "block" bigEntry, ⟨1, 1⟩⟩

theorem not_fits {p : SyncPayload} (h : 65536 ≤ (putPayload p).length) : ¬ Fits p := by
  rintro ⟨b, hb, hle⟩
  cases hb
  exact absurd (h.trans hle) (by decide)

/-- The edit is lost, and there is no snapshot of a map with it. -/
theorem edit_lost : ¬ (∀ nodeId calls, (new nodeId).accounted calls = edits calls) ∧
    bigWorld.Lists [("block", bigEntry)] ∧ (new 1).createFullSnapshot
      [("block", bigEntry)] = none := by
  have hlarge : ∀ variant sv, 65536 ≤ (putFields variant 1 [("block", bigEntry)] sv).length :=
    fun variant sv => (length_letters 65536).symm.le.trans (length_putFields_le rfl variant 1 sv)
  refine ⟨fun h => ?_, ⟨List.nodup_singleton _, fun k e => ?_⟩, encodeSyncMsg_of_not_fits
    (not_fits (p := .fullState 1 [("block", bigEntry)] _) (hlarge 1 _))⟩
  · have hfit := (accounted_iff lossless (new 1) bigEdit).mp (h 1 bigEdit)
    have hlast := hfit [.onLocalDelta ⟨[("block", bigEntry)]⟩] [] rfl (List.cons_ne_nil _ _)
    exact not_fits (p := .delta 1 [("block", bigEntry)] _) (hlarge 0 _) hlast
  · rw [List.mem_singleton, Prod.mk.injEq]
    constructor
    · rintro ⟨rfl, rfl⟩
      exact Finmap.lookup_singleton_eq
    · intro h
      have hk : k = "block" := by
        by_contra hne
        have hnone : bigWorld.entries.lookup k = none :=
          Finmap.lookup_eq_none.mpr fun hmem => hne ((Finmap.mem_singleton _ _ _).mp hmem)
        cases hnone.symm.trans h
      subst hk
      exact ⟨rfl, Option.some.inj (h.symm.trans Finmap.lookup_singleton_eq)⟩

/-- A small edit gets through. -/
theorem keeps_iff_small :
    (new 1).accounted [.onLocalDelta ⟨[("block", ⟨some "a", ⟨1, 1⟩⟩)]⟩, .pollOutgoing] =
    [("block", ⟨some "a", ⟨1, 1⟩⟩)] := by
  refine ((keeps_iff lossless).1 1 _).mpr ?_
  rw [pollsFit_cons, pollsFit_cons]
  refine ⟨nofun, fun _ _ => ⟨_, rfl, by decide +kernel⟩, fun before rest hnil => ?_⟩
  cases List.append_ne_nil_of_right_ne_nil before (List.cons_ne_nil _ rest) hnil.symm

end Demo

end P2P333.Platform333
