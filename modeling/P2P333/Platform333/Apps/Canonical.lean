import P2P333.Lib.Readers
import P2P333.Platform333.Apps.TacticalState

/-!
# Canonical snapshots

`det_deserialize` of `333-platform/src/determinism/state_hash.rs` and of
`333-platform/src/apps/rts_state_tiers.rs` with the positions that the source has: every field is
read from a slice that begins where the one before has ended, and a slice out of range is a panic.

A snapshot is what stands in the bytes of a state: maps and sets are lists, with their keys in any
order and more than once, and the winner has a tag, which may be any byte. The state that is read
from it has forgotten all that, so it writes the same bytes only if there was nothing to forget.

Results:
1. `mirrors_tactical`: no slice and no index is out of range.
2. `Snapshot.exact_read`: what the bytes of an accepted input are.
3. `canonical_iff`: which inputs are written again as they were.
-/

namespace P2P333.Platform333.Apps

open Std Lib Platform333.Determinism

/-! ## With positions -/

/-- `det_deserialize` on a slice: the value, and the number of bytes consumed. -/
class DeserializeAt (α : Type) where
  detDeserializeAt : Reader String α

export DeserializeAt (detDeserializeAt)

instance : DeserializeAt UInt8 :=
  ⟨.fixed (fun _ _ => "det_deserialize u8: buffer empty") 1 fun b => .ofNat (ofBeBytes b)⟩

instance : DeserializeAt UInt16 :=
  ⟨.fixed (need "det_deserialize u16") 2 fun b => .ofNat (ofBeBytes b)⟩

instance : DeserializeAt UInt32 :=
  ⟨.fixed (need "det_deserialize u32") 4 fun b => .ofNat (ofBeBytes b)⟩

instance : DeserializeAt UInt64 :=
  ⟨.fixed (need "det_deserialize u64") 8 fun b => .ofNat (ofBeBytes b)⟩

/-- `copy_from_slice` panics unless the lengths agree. -/
def copyFromSlice (bytes : Bytes) : Option Hash :=
  if h : bytes.length = 32 then some ⟨bytes, h⟩ else none

instance : DeserializeAt Hash := ⟨fun buf =>
  if buf.length < 32 then some (.error (need "det_deserialize [u8;32]" 32 buf))
  else ((sliceTo buf 32).bind copyFromSlice).map fun arr => .ok (arr, 32)⟩

section Containers

variable {τ κ ν : Type} [DeserializeAt τ] [DeserializeAt κ] [DeserializeAt ν] [Ord κ]

/-- A length and so many values. -/
def countedAt (m : Scanner String τ) : Scanner String (List τ) := do
  let len ← Scanner.field (detDeserializeAt : Reader String UInt32)
  m.many len.toNat

instance instDeserializeAtList : DeserializeAt (List τ) :=
  ⟨(countedAt (Scanner.field detDeserializeAt)).reader⟩

def entryAt : Scanner String (κ × ν) := do
  let k ← Scanner.field detDeserializeAt
  let v ← Scanner.field detDeserializeAt
  pure (k, v)

instance instDeserializeAtMap : DeserializeAt (OrdMap κ ν) := ⟨Scanner.reader do
  let entries ← countedAt entryAt
  pure (OrdMap.ofEntries entries)⟩

def setAt : Scanner String (OrdSet κ) := do
  let keys ← countedAt (Scanner.field detDeserializeAt)
  pure (OrdMap.ofEntries (keys.map fun k => (k, ())))

end Containers

instance : DeserializeAt Fixed32 := ⟨.fixed (need "Fixed32") 4 fun b => ⟨i32OfLe b⟩⟩

instance : DeserializeAt UnitTactical := ⟨Scanner.reader do
  let unitId ← Scanner.field detDeserializeAt
  let owner ← Scanner.field detDeserializeAt
  let x ← Scanner.field detDeserializeAt
  let y ← Scanner.field detDeserializeAt
  let hp ← Scanner.field detDeserializeAt
  let maxHp ← Scanner.field detDeserializeAt
  let animationFrame ← Scanner.field detDeserializeAt
  let abilityCooldown ← Scanner.field detDeserializeAt
  let attackRange ← Scanner.field detDeserializeAt
  let attackDamage ← Scanner.field detDeserializeAt
  let attackCooldownMax ← Scanner.field detDeserializeAt
  let attackCooldownRemaining ← Scanner.field detDeserializeAt
  pure ⟨unitId, owner, x, y, hp, maxHp, animationFrame, abilityCooldown, attackRange, attackDamage,
    attackCooldownMax, attackCooldownRemaining⟩⟩

def winnerAt : Scanner String (Option UInt32) := do
  let winnerTag ← Scanner.byte fun _ => "TacticalState: missing winner tag byte"
  if winnerTag = 0 then pure none
  else do
    let owner ← Scanner.field detDeserializeAt
    pure (some owner)

instance : DeserializeAt TacticalState := ⟨Scanner.reader do
  let turnNumber ← Scanner.field detDeserializeAt
  let wallMs ← Scanner.field detDeserializeAt
  let counter ← Scanner.field detDeserializeAt
  let nodeId ← Scanner.field detDeserializeAt
  let units ← Scanner.field detDeserializeAt
  let playerMinerals ← Scanner.field detDeserializeAt
  let visibility ← Scanner.field detDeserializeAt
  let stateHash ← Scanner.field detDeserializeAt
  let selectedUnits ← setAt
  let winner ← winnerAt
  pure ⟨turnNumber, ⟨wallMs, counter, nodeId⟩, units, playerMinerals, visibility, stateHash,
    selectedUnits, winner⟩⟩

/-! ## No panic -/

theorem mirrors_u8 : Mirrors (detDeserializeAt : Reader String UInt8) detDeserialize :=
  mirrors_fixed _ 1 _

theorem mirrors_u16 : Mirrors (detDeserializeAt : Reader String UInt16) detDeserialize :=
  mirrors_fixed _ 2 _

theorem mirrors_u32 : Mirrors (detDeserializeAt : Reader String UInt32) detDeserialize :=
  mirrors_fixed _ 4 _

theorem mirrors_u64 : Mirrors (detDeserializeAt : Reader String UInt64) detDeserialize :=
  mirrors_fixed _ 8 _

theorem mirrors_fixed32 : Mirrors (detDeserializeAt : Reader String Fixed32) detDeserialize :=
  mirrors_fixed _ 4 _

theorem mirrors_hash : Mirrors (detDeserializeAt : Reader String Hash) detDeserialize where
  run buf := by
    by_cases hlen : buf.length < 32
    · have hread : (detDeserialize : Decoder String Hash).run buf =
          .error (need "det_deserialize [u8;32]" 32 buf) := dif_pos hlen
      rw [hread]
      exact if_pos hlen
    · have hle := Nat.not_lt.mp hlen
      have htake : (buf.take 32).length = 32 := List.length_take_of_le hle
      have hread : (detDeserialize : Decoder String Hash).run buf =
          .ok (⟨buf.take 32, htake⟩, buf.drop 32) := dif_neg hlen
      rw [hread]
      change _ = some (Except.ok ((⟨buf.take 32, htake⟩ : Hash),
        buf.length - (buf.drop 32).length))
      rw [List.length_drop, Nat.sub_sub_self hle]
      refine (if_neg hlen).trans ?_
      rw [sliceTo, if_pos hle, Option.bind_some, copyFromSlice, dif_pos htake]
      rfl
  suffix buf v rest h := ⟨v.toList, ((exact_vectorOr _ 32).sound _ _ _ h).2.symm⟩

section Containers

variable {τ κ ν : Type} [DeterministicDeserialize τ] [DeterministicDeserialize κ]
  [DeterministicDeserialize ν] [DeserializeAt τ] [DeserializeAt κ] [DeserializeAt ν] [Ord κ]

omit [DeterministicDeserialize τ] [DeserializeAt τ] in
theorem follows_counted {m : Scanner String τ} {d : Decoder String τ} (h : Follows m d) :
    Follows (countedAt m) (do
      let len ← (detDeserialize : Decoder String UInt32)
      d.many len.toNat) :=
  (Follows.field mirrors_u32).bind fun len => h.many len.toNat

theorem mirrors_list (h : Mirrors (detDeserializeAt : Reader String τ) detDeserialize) :
    Mirrors (detDeserializeAt : Reader String (List τ)) detDeserialize :=
  (follows_counted (.field h)).reader

theorem mirrors_map (hk : Mirrors (detDeserializeAt : Reader String κ) detDeserialize)
    (hv : Mirrors (detDeserializeAt : Reader String ν) detDeserialize) :
    Mirrors (detDeserializeAt : Reader String (OrdMap κ ν)) detDeserialize := by
  have hentry : Follows (entryAt : Scanner String (κ × ν)) deserializeEntry :=
    (Follows.field hk).bind fun k => (Follows.field hv).bind fun v => .pure (k, v)
  have hmap := ((follows_counted hentry).bind fun entries =>
    Follows.pure (OrdMap.ofEntries entries)).reader
  rw [bind_assoc] at hmap
  exact hmap

theorem follows_set (hk : Mirrors (detDeserializeAt : Reader String κ) detDeserialize) :
    Follows (setAt : Scanner String (OrdSet κ)) deserializeSet := by
  have hset := (follows_counted (.field hk)).bind fun keys =>
    Follows.pure (OrdMap.ofEntries (keys.map fun k => (k, ())))
  rw [bind_assoc] at hset
  exact hset

end Containers

theorem mirrors_unit : Mirrors (detDeserializeAt : Reader String UnitTactical) detDeserialize := by
  refine Follows.reader ?_
  refine (Follows.field mirrors_u32).bind fun _ => (Follows.field mirrors_u32).bind fun _ => ?_
  refine (Follows.field mirrors_fixed32).bind fun _ => ?_
  refine (Follows.field mirrors_fixed32).bind fun _ => ?_
  refine (Follows.field mirrors_u32).bind fun _ => (Follows.field mirrors_u32).bind fun _ => ?_
  refine (Follows.field mirrors_u8).bind fun _ => (Follows.field mirrors_u16).bind fun _ => ?_
  refine (Follows.field mirrors_fixed32).bind fun _ => (Follows.field mirrors_u32).bind fun _ => ?_
  refine (Follows.field mirrors_u32).bind fun _ => (Follows.field mirrors_u32).bind fun _ => ?_
  exact .pure _

theorem follows_winner : Follows winnerAt deserializeWinner := by
  refine (Follows.byte _).bind fun winnerTag => ?_
  split
  · exact .pure none
  · exact (Follows.field mirrors_u32).bind fun owner => .pure (some owner)

/-- The positions are those that the decoder has left behind. -/
theorem mirrors_tactical :
    Mirrors (detDeserializeAt : Reader String TacticalState) detDeserialize := by
  refine Follows.reader ?_
  refine (Follows.field mirrors_u64).bind fun _ => (Follows.field mirrors_u64).bind fun _ => ?_
  refine (Follows.field mirrors_u32).bind fun _ => (Follows.field mirrors_u32).bind fun _ => ?_
  refine (Follows.field (mirrors_list mirrors_unit)).bind fun _ => ?_
  refine (Follows.field (mirrors_map mirrors_u32 mirrors_u32)).bind fun _ => ?_
  refine (Follows.field (mirrors_map mirrors_u32 mirrors_u64)).bind fun _ => ?_
  refine (Follows.field mirrors_hash).bind fun _ => (follows_set mirrors_u32).bind fun _ => ?_
  exact follows_winner.bind fun _ => .pure _

/-! ## Snapshots -/

/-- What stands in the bytes. -/
structure Snapshot where
  turnNumber : UInt64
  hlc : Hlc
  units : List UnitTactical
  playerMinerals : List (UInt32 × UInt32)
  visibility : List (UInt32 × UInt64)
  stateHash : Hash
  selectedUnits : List UInt32
  winnerTag : UInt8
  winner : Option UInt32

/-- A length and so many values. -/
def counted {α : Type} (enc : α → Bytes) (l : List α) : Bytes :=
  detSerialize (UInt32.ofNat l.length) ++ l.flatMap enc

def entryBytes {κ ν : Type} [DeterministicSerialize κ] [DeterministicSerialize ν] (e : κ × ν) :
    Bytes := detSerialize e.1 ++ detSerialize e.2

namespace Snapshot

def bytes (s : Snapshot) : Bytes :=
  detSerialize s.turnNumber ++ (detSerialize s.hlc.wallMs ++ (detSerialize s.hlc.counter ++
    (detSerialize s.hlc.nodeId ++ (counted detSerialize s.units ++
      (counted entryBytes s.playerMinerals ++ (counted entryBytes s.visibility ++
        (detSerialize s.stateHash ++ (counted detSerialize s.selectedUnits ++
          (detSerialize s.winnerTag ++ s.winner.elim [] detSerialize)))))))))

/-- The lengths fit, and a winner stands behind every tag but zero. -/
structure WellFormed (s : Snapshot) : Prop where
  units : s.units.length < 2 ^ 32
  minerals : s.playerMinerals.length < 2 ^ 32
  visibility : s.visibility.length < 2 ^ 32
  selected : s.selectedUnits.length < 2 ^ 32
  winner : s.winner = none ↔ s.winnerTag = 0

/-- The keys ascend, and the tag is the one of the winner. -/
structure Canonical (s : Snapshot) : Prop where
  minerals : s.playerMinerals.Pairwise fun a b => a.1 < b.1
  visibility : s.visibility.Pairwise fun a b => a.1 < b.1
  selected : s.selectedUnits.Pairwise (· < ·)
  winnerTag : s.winnerTag = 0 ∨ s.winnerTag = 1

/-- The state that is read. -/
def state (s : Snapshot) : TacticalState :=
  ⟨s.turnNumber, s.hlc, s.units, .ofEntries s.playerMinerals, .ofEntries s.visibility, s.stateHash,
    .ofEntries (s.selectedUnits.map fun k => (k, ())), s.winner⟩

/-- The snapshot that a state is written as. -/
def ofState (t : TacticalState) : Snapshot :=
  ⟨t.turnNumber, t.hlc, t.units, t.playerMinerals.toList, t.visibility.toList, t.stateHash,
    t.selectedUnits.keys, if t.winner.isSome then 1 else 0, t.winner⟩

theorem bytes_ofState (t : TacticalState) : (ofState t).bytes = detSerialize t := by
  have hwinner : detSerialize (ofState t).winnerTag ++ t.winner.elim [] detSerialize =
      serializeWinner t.winner := by
    unfold ofState
    cases t.winner <;> rfl
  have hmap {ν : Type} [DeterministicSerialize ν] (m : OrdMap UInt32 ν) :
      counted entryBytes m.toList = detSerialize m := by
    rw [counted, ExtTreeMap.length_toList]
    rfl
  have hset : counted detSerialize t.selectedUnits.keys = serializeSet t.selectedUnits := by
    rw [counted, ExtTreeMap.length_keys]
    rfl
  rw [bytes]
  change _ ++ (_ ++ (_ ++ (_ ++ (_ ++ (counted entryBytes t.playerMinerals.toList ++
    (counted entryBytes t.visibility.toList ++ (_ ++ (counted detSerialize t.selectedUnits.keys ++
      (detSerialize (ofState t).winnerTag ++ t.winner.elim [] detSerialize))))))))) = _
  rw [hmap, hmap, hset, hwinner]
  rfl

/-! ## What the bytes are -/

/-- The winner with its tag. -/
def readWinner : Decoder String (UInt8 × Option UInt32) := do
  let winnerTag ← Decoder.u8 fun _ _ => "TacticalState: missing winner tag byte"
  if winnerTag = 0 then pure (winnerTag, none)
  else do
    let owner ← detDeserialize
    pure (winnerTag, some owner)

def readCounted {α : Type} (d : Decoder String α) : Decoder String (List α) := do
  let len ← (detDeserialize : Decoder String UInt32)
  d.many len.toNat

/-- Everything that stands in the bytes. -/
def read : Decoder String Snapshot := do
  let turnNumber ← detDeserialize
  let wallMs ← detDeserialize
  let counter ← detDeserialize
  let nodeId ← detDeserialize
  let units ← readCounted detDeserialize
  let playerMinerals ← readCounted deserializeEntry
  let visibility ← readCounted deserializeEntry
  let stateHash ← detDeserialize
  let selectedUnits ← readCounted detDeserialize
  let (winnerTag, winner) ← readWinner
  pure ⟨turnNumber, ⟨wallMs, counter, nodeId⟩, units, playerMinerals, visibility, stateHash,
    selectedUnits, winnerTag, winner⟩

theorem deserializeMap_eq {ν : Type} [DeterministicDeserialize ν] :
    (detDeserialize : Decoder String (OrdMap UInt32 ν)) = (do
      let entries ← readCounted deserializeEntry
      pure (OrdMap.ofEntries entries)) := by
  rw [readCounted, bind_assoc]
  rfl

theorem deserializeSet_eq : (deserializeSet : Decoder String (OrdSet UInt32)) = (do
    let keys ← readCounted detDeserialize
    pure (OrdMap.ofEntries (keys.map fun k => (k, ())))) := by
  rw [readCounted, bind_assoc]
  rfl

theorem deserializeWinner_eq : deserializeWinner = (do
    let p ← readWinner
    pure p.2) := by
  rw [readWinner, deserializeWinner, bind_assoc]
  refine bind_congr fun winnerTag => ?_
  split
  · rfl
  · rw [bind_assoc]
    rfl

/-- The source forgets at once what the state does not hold. -/
theorem map_read : state <$> read = (detDeserialize : Decoder String TacticalState) := by
  have hunits : (detDeserialize : Decoder String (List UnitTactical)) =
      readCounted detDeserialize := rfl
  rw [detDeserialize, instDeterministicDeserializeTacticalState, read, deserializeMap_eq,
    deserializeMap_eq, deserializeSet_eq, deserializeWinner_eq, hunits]
  simp only [map_eq_pure_bind, bind_assoc, pure_bind]
  rfl

theorem exact_u32 : Exact (detDeserialize : Decoder String UInt32) detSerialize fun _ => True :=
  exact_u32be _

theorem exact_counted {α : Type} {d : Decoder String α} {enc : α → Bytes}
    (h : Exact d enc fun _ => True) :
    Exact (readCounted d) (counted enc) fun l => l.length < 2 ^ 32 where
  complete l rest hl := by
    rw [readCounted, counted, List.append_assoc, reads_u32.run_bind _ trivial, toNat_length hl]
    exact h.reads.many (fun _ _ => trivial) rest
  sound bs l rest hrun := by
    obtain ⟨len, mid, hlen, hmany⟩ := Exact.run_bind_eq_ok.mp hrun
    obtain ⟨-, rfl⟩ := exact_u32.sound _ _ _ hlen
    obtain ⟨⟨hlength, -⟩, rfl⟩ := (h.many len.toNat).sound _ _ _ hmany
    refine ⟨hlength ▸ len.toNat_lt, ?_⟩
    rw [counted, hlength, UInt32.ofNat_toNat, List.append_assoc]

theorem exact_entry {κ ν : Type} [DeterministicSerialize κ] [DeterministicDeserialize κ]
    [DeterministicSerialize ν] [DeterministicDeserialize ν]
    (hk : Exact (detDeserialize : Decoder String κ) detSerialize fun _ => True)
    (hv : Exact (detDeserialize : Decoder String ν) detSerialize fun _ => True) :
    Exact (deserializeEntry : Decoder String (κ × ν)) entryBytes fun _ => True where
  complete e rest _ := by
    exact reads_entry hk.reads hv.reads e rest trivial
  sound bs e rest hrun := by
    obtain ⟨k, mid, hkrun, hrun⟩ := Exact.run_bind_eq_ok.mp hrun
    obtain ⟨v, mid', hvrun, hrun⟩ := Exact.run_bind_eq_ok.mp hrun
    cases hrun
    rw [(hk.sound _ _ _ hkrun).2, (hv.sound _ _ _ hvrun).2, entryBytes, List.append_assoc]
    exact ⟨trivial, rfl⟩

theorem exact_fixed32 :
    Exact (detDeserialize : Decoder String Fixed32) detSerialize fun _ => True where
  complete := reads_fixed32
  sound bs x rest hrun := by
    obtain ⟨b, mid, hb, hx⟩ := Exact.run_bind_eq_ok.mp hrun
    cases hx
    obtain ⟨hlength, rfl⟩ := (exact_takeOr _ 4).sound _ _ _ hb
    refine ⟨trivial, congrArg (· ++ rest) ?_⟩
    have hlt := ofLeBytes_lt b
    rw [hlength] at hlt
    have hword : (i32OfLe b).toUInt32.toNat = ofLeBytes b := by
      rw [i32OfLe, UInt32.toUInt32_toInt32]
      exact Nat.mod_eq_of_lt hlt
    change b = leBytes 4 (i32OfLe b).toUInt32.toNat
    rw [hword, ← hlength, leBytes_ofLeBytes]

theorem exact_unit :
    Exact (detDeserialize : Decoder String UnitTactical) detSerialize fun _ => True where
  complete := reads_unit
  sound bs u rest hrun := by
    refine ⟨trivial, ?_⟩
    rw [detDeserialize, instDeterministicDeserializeUnitTactical] at hrun
    simp only [Exact.run_bind_eq_ok] at hrun
    obtain ⟨a1, r1, h1, a2, r2, h2, a3, r3, h3, a4, r4, h4, a5, r5, h5, a6, r6, h6, a7, r7, h7,
      a8, r8, h8, a9, r9, h9, a10, r10, h10, a11, r11, h11, a12, r12, h12, hrun⟩ := hrun
    cases hrun
    obtain ⟨-, rfl⟩ := exact_u32.sound _ _ _ h12
    obtain ⟨-, rfl⟩ := exact_u32.sound _ _ _ h11
    obtain ⟨-, rfl⟩ := exact_u32.sound _ _ _ h10
    obtain ⟨-, rfl⟩ := exact_fixed32.sound _ _ _ h9
    obtain ⟨-, rfl⟩ := (exact_u16be _).sound _ _ _ h8
    obtain ⟨-, rfl⟩ := (exact_u8 _).sound _ _ _ h7
    obtain ⟨-, rfl⟩ := exact_u32.sound _ _ _ h6
    obtain ⟨-, rfl⟩ := exact_u32.sound _ _ _ h5
    obtain ⟨-, rfl⟩ := exact_fixed32.sound _ _ _ h4
    obtain ⟨-, rfl⟩ := exact_fixed32.sound _ _ _ h3
    obtain ⟨-, rfl⟩ := exact_u32.sound _ _ _ h2
    obtain ⟨-, rfl⟩ := exact_u32.sound _ _ _ h1
    rw [detSerialize, instDeterministicSerializeUnitTactical]
    simp only [List.append_assoc]
    rfl

theorem exact_readWinner : Exact readWinner (fun p => detSerialize p.1 ++ p.2.elim [] detSerialize)
    fun p => p.2 = none ↔ p.1 = 0 where
  complete := by
    rintro ⟨winnerTag, winner⟩ rest hp
    have htag := (exact_u8 fun _ _ => "TacticalState: missing winner tag byte").reads
    rw [readWinner, List.append_assoc]
    refine (htag.run_bind _ trivial _).trans ?_
    cases winner with
    | none =>
      rw [if_pos (hp.mp rfl)]
      rfl
    | some owner =>
      rw [if_neg fun hzero => Option.some_ne_none owner (hp.mpr hzero), Option.elim_some,
        reads_u32.run_bind _ trivial]
      rfl
  sound bs p rest hrun := by
    obtain ⟨winnerTag, mid, htag, howner⟩ := Exact.run_bind_eq_ok.mp hrun
    obtain ⟨-, rfl⟩ := (exact_u8 _).sound _ _ _ htag
    split at howner
    · next hzero =>
      cases howner
      exact ⟨iff_of_true rfl hzero, rfl⟩
    · next hne =>
      obtain ⟨owner, mid', howner, hpair⟩ := Exact.run_bind_eq_ok.mp howner
      cases hpair
      obtain ⟨-, rfl⟩ := exact_u32.sound _ _ _ howner
      exact ⟨iff_of_false (Option.some_ne_none owner) hne, rfl⟩

theorem exact_read : Exact read bytes WellFormed where
  complete s rest hs := by
    rw [read, bytes]
    simp only [List.append_assoc]
    rw [reads_u64.run_bind _ trivial, reads_u64.run_bind _ trivial, reads_u32.run_bind _ trivial,
      reads_u32.run_bind _ trivial, (exact_counted exact_unit).reads.run_bind _ hs.units,
      (exact_counted (exact_entry exact_u32 exact_u32)).reads.run_bind _ hs.minerals,
      (exact_counted (exact_entry exact_u32 (exact_u64be _))).reads.run_bind _ hs.visibility,
      reads_hash.run_bind _ trivial, (exact_counted exact_u32).reads.run_bind _ hs.selected,
      ← List.append_assoc]
    refine (exact_readWinner.reads.run_bind _
      (a := (s.winnerTag, s.winner)) hs.winner rest).trans ?_
    rfl
  sound bs s rest hrun := by
    rw [read] at hrun
    simp only [Exact.run_bind_eq_ok] at hrun
    obtain ⟨a1, r1, h1, a2, r2, h2, a3, r3, h3, a4, r4, h4, a5, r5, h5, a6, r6, h6, a7, r7, h7,
      a8, r8, h8, a9, r9, h9, ⟨a10, a11⟩, r10, h10, hrun⟩ := hrun
    cases hrun
    obtain ⟨hwinner, rfl⟩ := exact_readWinner.sound _ _ _ h10
    obtain ⟨hselected, rfl⟩ := (exact_counted exact_u32).sound _ _ _ h9
    obtain ⟨-, rfl⟩ := (exact_vectorOr _ 32).sound _ _ _ h8
    obtain ⟨hvisibility, rfl⟩ :=
      (exact_counted (exact_entry exact_u32 (exact_u64be _))).sound _ _ _ h7
    obtain ⟨hminerals, rfl⟩ := (exact_counted (exact_entry exact_u32 exact_u32)).sound _ _ _ h6
    obtain ⟨hunits, rfl⟩ := (exact_counted exact_unit).sound _ _ _ h5
    obtain ⟨-, rfl⟩ := exact_u32.sound _ _ _ h4
    obtain ⟨-, rfl⟩ := exact_u32.sound _ _ _ h3
    obtain ⟨-, rfl⟩ := (exact_u64be _).sound _ _ _ h2
    obtain ⟨-, rfl⟩ := (exact_u64be _).sound _ _ _ h1
    refine ⟨⟨hunits, hminerals, hvisibility, hselected, hwinner⟩, ?_⟩
    rw [bytes]
    simp only [List.append_assoc]
    rfl

/-! ## Which snapshots are canonical -/

variable {s : Snapshot}

theorem toList_ofEntries_u32 {ν : Type} {l : List (UInt32 × ν)} :
    (OrdMap.ofEntries l).toList = l ↔ l.Pairwise fun a b => a.1 < b.1 := by
  rw [OrdMap.toList_ofEntries]
  exact ⟨List.Pairwise.imp Std.compare_eq_lt.mp, List.Pairwise.imp Std.compare_eq_lt.mpr⟩

theorem keys_ofEntries {l : List UInt32} :
    (OrdMap.ofEntries (l.map fun k => (k, ()))).keys = l ↔ l.Pairwise (· < ·) := by
  have hentries : (OrdMap.ofEntries (l.map fun k => (k, ()))).toList =
      l.map (fun k => (k, ())) ↔ (OrdMap.ofEntries (l.map fun k => (k, ()))).keys = l := by
    rw [← ExtTreeMap.map_fst_toList_eq_keys]
    constructor
    · intro h
      rw [h, List.map_map]
      exact List.map_id l
    · intro h
      conv_rhs => rw [← h, List.map_map]
      exact (List.map_id _).symm
  rw [← hentries, toList_ofEntries_u32, List.pairwise_map]

theorem WellFormed.ofState (h : s.WellFormed) : (ofState s.state).WellFormed where
  units := h.units
  minerals := (ExtTreeMap.length_toList.trans_le ExtTreeMap.size_ofList_le).trans_lt h.minerals
  visibility := (ExtTreeMap.length_toList.trans_le ExtTreeMap.size_ofList_le).trans_lt h.visibility
  selected := by
    refine LE.le.trans_lt ?_ h.selected
    refine ExtTreeMap.length_keys.trans_le (ExtTreeMap.size_ofList_le.trans_eq ?_)
    exact List.length_map _
  winner := by
    change s.winner = none ↔ (if s.winner.isSome then 1 else 0 : UInt8) = 0
    cases s.winner with
    | none => decide
    | some owner => exact iff_of_false (Option.some_ne_none owner) (by decide : (1 : UInt8) ≠ 0)

theorem WellFormed.winnerTag_iff (h : s.WellFormed) :
    (if s.winner.isSome then 1 else 0) = s.winnerTag ↔ s.winnerTag = 0 ∨ s.winnerTag = 1 := by
  have hwinner := h.winner
  cases hw : s.winner with
  | none =>
    have hzero := hwinner.mp hw
    rw [hzero]
    decide
  | some owner =>
    have hne : s.winnerTag ≠ 0 := fun hzero => Option.some_ne_none owner (hw ▸ hwinner.mpr hzero)
    exact ⟨fun hone => .inr hone.symm, fun htag => (htag.resolve_left hne).symm⟩

/-- Nothing was forgotten. -/
theorem ofState_state (h : s.WellFormed) : Snapshot.ofState s.state = s ↔ s.Canonical := by
  have hfields : Snapshot.ofState s.state = s ↔
      (OrdMap.ofEntries s.playerMinerals).toList = s.playerMinerals ∧
      (OrdMap.ofEntries s.visibility).toList = s.visibility ∧
      (OrdMap.ofEntries (s.selectedUnits.map fun k => (k, ()))).keys = s.selectedUnits ∧
      (if s.winner.isSome then 1 else 0) = s.winnerTag := by
    cases s
    simp only [Snapshot.ofState, state, Snapshot.mk.injEq, true_and, and_true]
    exact Iff.rfl
  rw [hfields, toList_ofEntries_u32, toList_ofEntries_u32, keys_ofEntries, h.winnerTag_iff]
  exact ⟨fun ⟨hm, hv, hs, ht⟩ => ⟨hm, hv, hs, ht⟩, fun hc => ⟨hc.1, hc.2, hc.3, hc.4⟩⟩

theorem detDeserializeAt_bytes (h : s.WellFormed) :
    (detDeserializeAt : Reader String TacticalState) s.bytes =
      some (.ok (s.state, s.bytes.length)) := by
  have hrun : (detDeserialize : Decoder String TacticalState).run s.bytes = .ok (s.state, []) := by
    have hread := exact_read.complete s [] h
    rw [List.append_nil] at hread
    rw [← map_read, map_eq_pure_bind]
    exact Exact.run_bind_eq_ok.mpr ⟨s, [], hread, rfl⟩
  rw [mirrors_tactical.run, hrun]
  rfl

/-- No input is read out of range. What is accepted is a snapshot, and it is written again as it
stands in the input exactly if it is canonical. -/
theorem canonical_iff (b : Bytes) :
    ∃ r, (detDeserializeAt : Reader String TacticalState) b = some r ∧ ∀ t n, r = .ok (t, n) →
      n ≤ b.length ∧ ∃ s : Snapshot, s.WellFormed ∧ s.state = t ∧ s.bytes = b.take n ∧
        (detSerialize t = b.take n ↔ s.Canonical) := by
  refine ⟨_, mirrors_tactical.run b, fun t n hr => ?_⟩
  cases hrun : (detDeserialize : Decoder String TacticalState).run b with
  | error e =>
    rw [hrun] at hr
    cases hr
  | ok p =>
    obtain ⟨t', rest⟩ := p
    rw [hrun] at hr
    cases hr
    rw [← map_read, map_eq_pure_bind] at hrun
    obtain ⟨s, mid, hread, hstate⟩ := Exact.run_bind_eq_ok.mp hrun
    cases hstate
    obtain ⟨hs, rfl⟩ := exact_read.sound _ _ _ hread
    have hn : (s.bytes ++ rest).length - rest.length = s.bytes.length := by
      rw [List.length_append, Nat.add_sub_cancel]
    rw [hn, List.take_left]
    refine ⟨by rw [List.length_append]; exact Nat.le_add_right _ _, s, hs, rfl, rfl, ?_⟩
    rw [← bytes_ofState, ← ofState_state hs]
    exact ⟨fun heq => exact_read.reads.delimits.injOn hs.ofState hs heq, fun heq => by rw [heq]⟩

/-- No units, and a winner behind the tag. -/
def won (winnerTag : UInt8) : Snapshot :=
  ⟨7, ⟨100, 0, 1⟩, [], [], [], .replicate 32 0, [], winnerTag, some 3⟩

theorem wellFormed_won {winnerTag : UInt8} (h : winnerTag ≠ 0) : (won winnerTag).WellFormed :=
  ⟨Nat.two_pow_pos 32, Nat.two_pow_pos 32, Nat.two_pow_pos 32, Nat.two_pow_pos 32,
  iff_of_false (Option.some_ne_none 3) h⟩

/-- The tag two is read like the tag one, and written as one. -/
theorem not_canonical : ∃ b b' t, b' ≠ b ∧
    (detDeserializeAt : Reader String TacticalState) b = some (.ok (t, b.length)) ∧
    detSerialize t ≠ b.take b.length ∧
    (detDeserializeAt : Reader String TacticalState) b' = some (.ok (t, b'.length)) := by
  refine ⟨(won 2).bytes, (won 1).bytes, (won 2).state, by decide +kernel,
    detDeserializeAt_bytes (wellFormed_won (by decide)), ?_,
    detDeserializeAt_bytes (wellFormed_won (by decide))⟩
  rw [← bytes_ofState]
  decide +kernel

end Snapshot

end P2P333.Platform333.Apps
