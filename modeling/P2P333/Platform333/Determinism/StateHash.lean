import P2P333.Lib.Words
import P2P333.Lib.OrdMap
import P2P333.Lib.Text

/-!
# State hashes

`333-platform/src/determinism/state_hash.rs`: the bytes of a state, how they are read back, the hash
of a frame, and the detector that compares the hashes of peers with the own ones. A deserializer
returns a value and the number of bytes that it consumed; here it is a decoder, and what it leaves
is its state. BLAKE3 is a parameter (`Blake3`).

Lengths are written as `len() as u32`, so they are read back only below `2 ^ 32`.

Results:
1. `reads_list`, `reads_map`, `reads_set`: what is read back, and up to which size.
2. `delimits_hashed`: the bytes that are hashed determine the frame and the state.
3. `DesyncDetector.localHashes_record`: what is known as long as nothing leaves the window.
-/

namespace P2P333.Platform333.Determinism

open Std Lib

abbrev Hash := List.Vector UInt8 32

/-- A `BTreeSet`. -/
abbrev OrdSet (κ : Type) [Ord κ] := OrdMap κ Unit

/-! ## Bytes of a state -/

/-- A canonical byte representation. -/
class DeterministicSerialize (α : Type) where
  detSerialize : α → Bytes

export DeterministicSerialize (detSerialize)

instance : DeterministicSerialize UInt8 := ⟨fun x => [x]⟩

instance : DeterministicSerialize UInt16 := ⟨fun x => beBytes 2 x.toNat⟩

instance : DeterministicSerialize UInt32 := ⟨fun x => beBytes 4 x.toNat⟩

instance : DeterministicSerialize UInt64 := ⟨fun x => beBytes 8 x.toNat⟩

instance : DeterministicSerialize Hash := ⟨List.Vector.toList⟩

section Containers

variable {τ κ ν : Type} [DeterministicSerialize τ] [DeterministicSerialize κ]
  [DeterministicSerialize ν] [Ord κ] [TransOrd κ]

instance instSerializeList : DeterministicSerialize (List τ) :=
  ⟨fun l => detSerialize (UInt32.ofNat l.length) ++ l.flatMap detSerialize⟩

/-- A map writes its entries in the order of the keys. -/
instance instSerializeMap : DeterministicSerialize (OrdMap κ ν) :=
  ⟨fun m => detSerialize (UInt32.ofNat m.size) ++
    m.toList.flatMap fun e => detSerialize e.1 ++ detSerialize e.2⟩

/-- How the states write the sets that they hold: the length and the elements in order. -/
def serializeSet (s : OrdSet κ) : Bytes :=
  detSerialize (UInt32.ofNat s.size) ++ s.keys.flatMap detSerialize

end Containers

/-! ## Reading them back -/

class DeterministicDeserialize (α : Type) where
  detDeserialize : Decoder String α

export DeterministicDeserialize (detDeserialize)

/-- The error of a fixed width. -/
def need (what : String) (n : Nat) (buf : Bytes) : String :=
  what ++ ": need " ++ toString n ++ " bytes, got " ++ toString buf.length

instance : DeterministicDeserialize UInt8 :=
  ⟨Decoder.u8 fun _ _ => "det_deserialize u8: buffer empty"⟩

instance : DeterministicDeserialize UInt16 := ⟨Decoder.u16be (need "det_deserialize u16")⟩

instance : DeterministicDeserialize UInt32 := ⟨Decoder.u32be (need "det_deserialize u32")⟩

instance : DeterministicDeserialize UInt64 := ⟨Decoder.u64be (need "det_deserialize u64")⟩

instance : DeterministicDeserialize Hash := ⟨Decoder.vectorOr (need "det_deserialize [u8;32]") 32⟩

section Containers

variable {τ κ ν : Type} [DeterministicDeserialize τ] [DeterministicDeserialize κ]
  [DeterministicDeserialize ν] [Ord κ] [TransOrd κ]

instance instDeserializeList : DeterministicDeserialize (List τ) := ⟨do
  let len ← (detDeserialize : Decoder String UInt32)
  Decoder.many detDeserialize len.toNat⟩

/-- An entry of a map: the key and the value. -/
def deserializeEntry : Decoder String (κ × ν) := do
  let k ← detDeserialize
  let v ← detDeserialize
  pure (k, v)

/-- The entries are inserted one after the other. -/
instance instDeserializeMap : DeterministicDeserialize (OrdMap κ ν) := ⟨do
  let len ← (detDeserialize : Decoder String UInt32)
  let entries ← Decoder.many deserializeEntry len.toNat
  pure (OrdMap.ofEntries entries)⟩

def deserializeSet : Decoder String (OrdSet κ) := do
  let len ← (detDeserialize : Decoder String UInt32)
  let keys ← Decoder.many detDeserialize len.toNat
  pure (OrdMap.ofEntries (keys.map fun k => (k, ())))

end Containers

/-! ## What is read back -/

section Reading

theorem reads_u8 : Reads (detDeserialize : Decoder String UInt8) detSerialize fun _ => True :=
  (exact_u8 _).reads

theorem reads_u16 : Reads (detDeserialize : Decoder String UInt16) detSerialize fun _ => True :=
  (exact_u16be _).reads

theorem reads_u32 : Reads (detDeserialize : Decoder String UInt32) detSerialize fun _ => True :=
  (exact_u32be _).reads

theorem reads_u64 : Reads (detDeserialize : Decoder String UInt64) detSerialize fun _ => True :=
  (exact_u64be _).reads

theorem reads_hash : Reads (detDeserialize : Decoder String Hash) detSerialize fun _ => True :=
  (exact_vectorOr _ 32).reads

/-- A length that fits is the one that was written. -/
theorem toNat_length {n : Nat} (h : n < 2 ^ 32) : (UInt32.ofNat n).toNat = n := by
  rw [UInt32.toNat_ofNat']
  exact Nat.mod_eq_of_lt h

variable {τ κ ν : Type} [DeterministicSerialize τ] [DeterministicDeserialize τ]
  [DeterministicSerialize κ] [DeterministicDeserialize κ] [DeterministicSerialize ν]
  [DeterministicDeserialize ν] [Ord κ] [TransOrd κ] [LawfulEqOrd κ] [DecidableEq κ]

theorem reads_list (h : Reads (detDeserialize : Decoder String τ) detSerialize fun _ => True) :
    Reads (detDeserialize : Decoder String (List τ)) detSerialize fun l => l.length < 2 ^ 32 := by
  intro l rest hl
  rw [detDeserialize, detSerialize, instDeserializeList, instSerializeList]
  simp only [List.append_assoc]
  rw [reads_u32.run_bind _ trivial, toNat_length hl]
  exact h.many (fun _ _ => trivial) rest

section

variable (hk : Reads (detDeserialize : Decoder String κ) detSerialize fun _ => True)
include hk

omit [Ord κ] [TransOrd κ] [LawfulEqOrd κ] [DecidableEq κ] in
theorem reads_entry (hv : Reads (detDeserialize : Decoder String ν) detSerialize fun _ => True) :
    Reads (deserializeEntry : Decoder String (κ × ν)) (fun e => detSerialize e.1 ++
      detSerialize e.2)
      fun _ => True := by
  rintro ⟨k, v⟩ rest -
  rw [deserializeEntry, List.append_assoc, hk.run_bind _ trivial, hv.run_bind _ trivial]
  rfl

theorem reads_map (hv : Reads (detDeserialize : Decoder String ν) detSerialize fun _ => True) :
    Reads (detDeserialize : Decoder String (OrdMap κ ν)) detSerialize fun m => m.size < 2 ^ 32 := by
  intro m rest hm
  rw [detDeserialize, detSerialize, instDeserializeMap,
    instSerializeMap]
  simp only [List.append_assoc]
  rw [reads_u32.run_bind _ trivial, toNat_length hm, ← ExtTreeMap.length_toList, StateT.run_bind,
    (reads_entry hk hv).many fun _ _ => trivial]
  exact congrArg (fun m => Except.ok (m, rest)) (OrdMap.ofEntries_of_perm (List.Perm.refl _))

theorem reads_set :
    Reads (deserializeSet : Decoder String (OrdSet κ)) serializeSet fun s => s.size < 2 ^ 32 := by
  intro s rest hs
  have hkeys : s.keys.map (fun k => (k, ())) = s.toList := by
    rw [← ExtTreeMap.map_fst_toList_eq_keys, List.map_map]
    exact List.map_id _
  rw [deserializeSet, serializeSet, List.append_assoc, reads_u32.run_bind _ trivial,
    toNat_length hs,
    ← ExtTreeMap.length_keys, StateT.run_bind, hk.many fun _ _ => trivial]
  exact congrArg (fun m => Except.ok (m, rest)) (OrdMap.ofEntries_of_perm (by rw [hkeys]))

end

end Reading

/-! ## The hash of a frame -/

/-- BLAKE3, as the crate `blake3` provides it. -/
class Blake3 where
  hash : Bytes → Hash

section Frames

variable {τ : Type} [DeterministicSerialize τ]

/-- What is hashed: a domain separator, the frame and the state. -/
def frameBytes (frameN : UInt64) (tactical : τ) : Bytes :=
  utf8 "333:frame_state_hash:v1:" ++ (detSerialize frameN ++ detSerialize tactical)

def frameStateHash [Blake3] (frameN : UInt64) (tactical : τ) : Hash :=
  Blake3.hash (frameBytes frameN tactical)

/-- Every tenth frame. -/
def shouldBroadcastHash (frameN : UInt64) : Bool := frameN % 10 = 0

/-- The bytes that are hashed determine the frame and what they show of the state. -/
theorem delimits_hashed {γ : Type} {view : τ → γ} {enc : γ → Bytes} {dom : γ → Prop}
    (h : Delimits enc dom) (hview : ∀ t, detSerialize t = enc (view t)) {n n' : UInt64} {t t' : τ}
    (ht : dom (view t)) (ht' : dom (view t')) (heq : frameBytes n t = frameBytes n' t') :
    n = n' ∧ view t = view t' := by
  have hbytes := List.append_cancel_left heq
  rw [hview, hview] at hbytes
  have hboth := (reads_u64.delimits.append h).injOn (a := (n, view t)) (b := (n', view t'))
    ⟨trivial, ht⟩ ⟨trivial, ht'⟩ hbytes
  exact Prod.mk.inj hboth

end Frames

/-! ## The detector -/

/-- A peer whose hash of a frame is not the own one. -/
structure DesyncEvent where
  frameN : UInt64
  peerId : UInt32
  localHash : Hash
  peerHash : Hash
deriving DecidableEq

/-- The own hashes, of which no more than `retention` are kept. -/
structure DesyncDetector where
  localHashes : OrdMap UInt64 Hash
  retention : Nat

namespace DesyncDetector

def new (retention : Nat) : DesyncDetector := ⟨∅, retention⟩

/-- The oldest hash leaves. -/
def removeOldest (hashes : OrdMap UInt64 Hash) : OrdMap UInt64 Hash :=
  match hashes.minKey? with
  | some oldest => hashes.erase oldest
  | none => hashes

/-- One hash after the other leaves as long as there are more than `retention`. -/
def evict (retention : Nat) (hashes : OrdMap UInt64 Hash) : OrdMap UInt64 Hash :=
  removeOldest^[hashes.size - retention] hashes

def recordLocal (d : DesyncDetector) (frameN : UInt64) (hash : Hash) : DesyncDetector :=
  { d with localHashes := evict d.retention (d.localHashes.insert frameN hash) }

/-- No alarm where the own hash is not known. -/
def observePeer (d : DesyncDetector) (peerId : UInt32) (frameN : UInt64) (peerHash : Hash) :
    Option DesyncEvent :=
  match d.localHashes[frameN]? with
  | some localHash =>
    if localHash ≠ peerHash then some ⟨frameN, peerId, localHash, peerHash⟩ else none
  | none => none

variable {d : DesyncDetector}

theorem evict_of_le {retention : Nat} {hashes : OrdMap UInt64 Hash}
    (h : hashes.size ≤ retention) : evict retention hashes = hashes := by
  rw [evict, Nat.sub_eq_zero_of_le h]
  rfl

/-- Nothing leaves while there is room. -/
theorem localHashes_record {frameN : UInt64} {hash : Hash}
    (hroom : d.localHashes.size < d.retention) :
    (d.recordLocal frameN hash).localHashes = d.localHashes.insert frameN hash := by
  refine evict_of_le ?_
  have hsize := ExtTreeMap.size_insert_le (t := d.localHashes) (k := frameN) (v := hash)
  omega

theorem observePeer_eq_some {peerId : UInt32} {frameN : UInt64} {peerHash : Hash}
    {e : DesyncEvent} : d.observePeer peerId frameN peerHash = some e ↔
      ∃ localHash, d.localHashes[frameN]? = some localHash ∧ localHash ≠ peerHash ∧
        e = ⟨frameN, peerId, localHash, peerHash⟩ := by
  unfold observePeer
  split
  · next localHash h =>
    rw [h]
    by_cases hne : localHash = peerHash
    · simp [hne]
    · rw [if_pos hne, Option.some.injEq]
      constructor
      · rintro rfl
        exact ⟨localHash, rfl, hne, rfl⟩
      · rintro ⟨_, hlocal, -, rfl⟩
        cases hlocal
        rfl
  · next h => simp [h]

end DesyncDetector

end P2P333.Platform333.Determinism
