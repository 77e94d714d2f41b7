import P2P333.Platform333.Determinism.StateHash
import P2P333.Platform333.Hlc

/-!
# Tactical states

`333-platform/src/apps/rts_state_tiers.rs`: the state of one turn, its bytes and how they are read
back, and the bridge that keeps an epoch for each frame.

Fixed-point numbers are written with the lowest byte first, everything else with the highest. A
winner follows any tag that is not zero, so that more is accepted than is written.

Results:
1. `reads_tactical`: a state whose sizes fit is read back from its bytes.
-/

namespace P2P333.Platform333.Apps

open Std Lib Platform333.Determinism

/-! ## Types -/

/-- A fixed-point number, Q16.16. -/
structure Fixed32 where
  raw : Int32
deriving DecidableEq

structure UnitTactical where
  unitId : UInt32
  owner : UInt32
  x : Fixed32
  y : Fixed32
  hp : UInt32
  maxHp : UInt32
  animationFrame : UInt8
  abilityCooldown : UInt16
  attackRange : Fixed32
  attackDamage : UInt32
  attackCooldownMax : UInt32
  attackCooldownRemaining : UInt32
deriving DecidableEq

structure TacticalState where
  turnNumber : UInt64
  hlc : Hlc
  units : List UnitTactical
  playerMinerals : OrdMap UInt32 UInt32
  visibility : OrdMap UInt32 UInt64
  stateHash : Hash
  selectedUnits : OrdSet UInt32
  winner : Option UInt32

/-! ## Bytes -/

instance : DeterministicSerialize Fixed32 := ⟨fun x => leBytes 4 x.raw.toUInt32.toNat⟩

instance : DeterministicSerialize UnitTactical := ⟨fun u =>
  detSerialize u.unitId ++ (detSerialize u.owner ++ (detSerialize u.x ++ (detSerialize u.y ++
    (detSerialize u.hp ++ (detSerialize u.maxHp ++ (detSerialize u.animationFrame ++
      (detSerialize u.abilityCooldown ++
        (detSerialize u.attackRange ++ (detSerialize u.attackDamage ++
        (detSerialize u.attackCooldownMax ++ detSerialize u.attackCooldownRemaining))))))))))⟩

def serializeWinner : Option UInt32 → Bytes
  | none => [0]
  | some owner => 1 :: detSerialize owner

instance : DeterministicSerialize TacticalState := ⟨fun t =>
  detSerialize t.turnNumber ++ (detSerialize t.hlc.wallMs ++ (detSerialize t.hlc.counter ++
    (detSerialize t.hlc.nodeId ++ (detSerialize t.units ++ (detSerialize t.playerMinerals ++
      (detSerialize t.visibility ++ (detSerialize t.stateHash ++ (serializeSet t.selectedUnits ++
        serializeWinner t.winner))))))))⟩

instance : DeterministicDeserialize Fixed32 := ⟨do
  let bytes ← Decoder.takeOr (need "Fixed32") 4
  pure ⟨i32OfLe bytes⟩⟩

instance : DeterministicDeserialize UnitTactical := ⟨do
  let unitId ← detDeserialize
  let owner ← detDeserialize
  let x ← detDeserialize
  let y ← detDeserialize
  let hp ← detDeserialize
  let maxHp ← detDeserialize
  let animationFrame ← detDeserialize
  let abilityCooldown ← detDeserialize
  let attackRange ← detDeserialize
  let attackDamage ← detDeserialize
  let attackCooldownMax ← detDeserialize
  let attackCooldownRemaining ← detDeserialize
  pure ⟨unitId, owner, x, y, hp, maxHp, animationFrame, abilityCooldown, attackRange, attackDamage,
    attackCooldownMax, attackCooldownRemaining⟩⟩

/-- Any tag but zero is followed by a winner. -/
def deserializeWinner : Decoder String (Option UInt32) := do
  let winnerTag ← Decoder.u8 fun _ _ => "TacticalState: missing winner tag byte"
  if winnerTag = 0 then pure none
  else do
    let owner ← detDeserialize
    pure (some owner)

instance : DeterministicDeserialize TacticalState := ⟨do
  let turnNumber ← detDeserialize
  let wallMs ← detDeserialize
  let counter ← detDeserialize
  let nodeId ← detDeserialize
  let units ← detDeserialize
  let playerMinerals ← detDeserialize
  let visibility ← detDeserialize
  let stateHash ← detDeserialize
  let selectedUnits ← deserializeSet
  let winner ← deserializeWinner
  pure ⟨turnNumber, ⟨wallMs, counter, nodeId⟩, units, playerMinerals, visibility, stateHash,
    selectedUnits, winner⟩⟩

/-! ## What is read back -/

theorem reads_fixed32 :
    Reads (detDeserialize : Decoder String Fixed32) detSerialize fun _ => True := by
  rintro ⟨raw⟩ rest -
  refine ((exact_takeOr (need "Fixed32") 4).reads.run_bind _ (length_leBytes ..) rest).trans ?_
  rw [i32OfLe_leBytes]
  rfl

theorem reads_unit : Reads (detDeserialize : Decoder String UnitTactical) detSerialize
    fun _ => True := by
  intro u rest _
  rw [detDeserialize, detSerialize, instDeterministicDeserializeUnitTactical,
    instDeterministicSerializeUnitTactical]
  simp only [List.append_assoc]
  rw [reads_u32.run_bind _ trivial, reads_u32.run_bind _ trivial, reads_fixed32.run_bind _ trivial,
    reads_fixed32.run_bind _ trivial, reads_u32.run_bind _ trivial, reads_u32.run_bind _ trivial,
    reads_u8.run_bind _ trivial, reads_u16.run_bind _ trivial, reads_fixed32.run_bind _ trivial,
    reads_u32.run_bind _ trivial, reads_u32.run_bind _ trivial, reads_u32.run_bind _ trivial]
  rfl

theorem reads_winner : Reads deserializeWinner serializeWinner fun _ => True := by
  intro winner rest _
  cases winner with
  | none =>
    exact (exact_u8 _).reads.run_bind _ trivial rest
  | some owner =>
    refine ((exact_u8 _).reads.run_bind _ trivial (detSerialize owner ++ rest)).trans ?_
    exact reads_u32.run_bind _ trivial rest

/-- The sizes fit `u32`. -/
structure TacticalState.Fits (t : TacticalState) : Prop where
  units : t.units.length < 2 ^ 32
  minerals : t.playerMinerals.size < 2 ^ 32
  visibility : t.visibility.size < 2 ^ 32
  selected : t.selectedUnits.size < 2 ^ 32

theorem reads_tactical : Reads (detDeserialize : Decoder String TacticalState) detSerialize
    TacticalState.Fits := by
  intro t rest ht
  rw [detDeserialize, detSerialize, instDeterministicDeserializeTacticalState,
    instDeterministicSerializeTacticalState]
  simp only [List.append_assoc]
  rw [reads_u64.run_bind _ trivial, reads_u64.run_bind _ trivial, reads_u32.run_bind _ trivial,
    reads_u32.run_bind _ trivial, (reads_list reads_unit).run_bind _ ht.units,
    (reads_map reads_u32 reads_u32).run_bind _ ht.minerals,
    (reads_map reads_u32 reads_u64).run_bind _ ht.visibility, reads_hash.run_bind _ trivial,
    (reads_set reads_u32).run_bind _ ht.selected, reads_winner.run_bind _ trivial]
  rfl

/-! ## The bridge -/

structure TacticalDigest where
  stateHash : Hash
  unitCount : UInt32
  totalMinerals : UInt64

structure PersistentDigest where
  entryCount : UInt64
  maxHlcCounter : UInt64

structure CriticalDigest where
  bftView : UInt64
  lastCommittedBlockHash : UInt64
  committedTxCount : UInt32

structure FrameEpoch where
  frame : UInt64
  epochHlc : Hlc
  tactical : TacticalDigest
  persistent : PersistentDigest
  critical : CriticalDigest

/-- The epochs of the last frames, with a clock of its own. -/
structure FrameEpochBridge where
  hlc : Hlc
  epochBuffer : List FrameEpoch
  bufferCapacity : Nat

namespace FrameEpochBridge

def new (now : UInt64) (nodeId : UInt32) (bufferCapacity : Nat) : FrameEpochBridge :=
  ⟨⟨now, 0, nodeId⟩, [], bufferCapacity⟩

/-- `remove(0)` panics if there is no epoch. -/
def pushEpoch (b : FrameEpochBridge) (epoch : FrameEpoch) : Option FrameEpochBridge :=
  if b.epochBuffer.length ≥ b.bufferCapacity then
    match b.epochBuffer with
    | [] => none
    | _ :: epochs => some { b with epochBuffer := epochs ++ [epoch] }
  else some { b with epochBuffer := b.epochBuffer ++ [epoch] }

def capture (b : FrameEpochBridge) (now : UInt64) (frame : UInt64) (tactical : TacticalDigest)
    (persistent : PersistentDigest) (critical : CriticalDigest) : Option FrameEpochBridge :=
  let hlc := b.hlc.tick now
  { b with hlc := hlc }.pushEpoch ⟨frame, hlc, tactical, persistent, critical⟩

/-- It can take an epoch. -/
def Open (b : FrameEpochBridge) : Prop := b.epochBuffer ≠ [] ∨ 0 < b.bufferCapacity

section Epochs

variable {b b' : FrameEpochBridge} {now frame : UInt64} {tactical : TacticalDigest}
  {persistent : PersistentDigest} {critical : CriticalDigest}

theorem pushEpoch_isSome (h : b.Open) (epoch : FrameEpoch) : (b.pushEpoch epoch).isSome := by
  unfold pushEpoch
  split
  · next hfull =>
    cases hbuffer : b.epochBuffer with
    | nil =>
      rw [hbuffer, List.length_nil] at hfull
      exact absurd h (not_or.mpr ⟨not_not.mpr hbuffer, Nat.not_lt.mpr hfull⟩)
    | cons e epochs => rfl
  · rfl

theorem epochBuffer_of_pushEpoch {epoch : FrameEpoch} (h : b.pushEpoch epoch = some b') :
    b'.epochBuffer ≠ [] := by
  unfold pushEpoch at h
  split at h
  · split at h
    · cases h
    · cases h
      exact List.append_ne_nil_of_right_ne_nil _ (List.cons_ne_nil _ _)
  · cases h
    exact List.append_ne_nil_of_right_ne_nil _ (List.cons_ne_nil _ _)

theorem capture_isSome (h : b.Open) :
    (b.capture now frame tactical persistent critical).isSome :=
  pushEpoch_isSome (b := { b with hlc := b.hlc.tick now }) h _

/-- A bridge that has taken an epoch holds one. -/
theorem epochBuffer_of_capture (h : b.capture now frame tactical persistent critical = some b') :
    b'.epochBuffer ≠ [] :=
  epochBuffer_of_pushEpoch h

end Epochs

end FrameEpochBridge

end P2P333.Platform333.Apps
