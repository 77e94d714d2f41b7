import P2P333.Consensus333.Basic
import P2P333.Lib.Transition
import P2P333.Lib.Words

/-!
# The voxel world

`333-voxel-ref/src/lib.rs`: chunks of 4096 voxels, their bytes, the content store that holds them,
and the world with its loaded copies. A placement writes to the loaded copy and stores that. The
content store is a parameter. An operation that would panic has no result.

Results:
1. `cell_injective`: a position is its chunk and the cell in it.
2. `placed_iff`: when a placement changes one voxel of the stored chunk.
-/

namespace P2P333.Voxel333

open Lib Consensus333 Function

/-! ## Data -/

/-- `content333::Cid`. -/
abbrev Cid := List.Vector UInt8 32

/-- Why a chunk is not read. -/
inductive ContentError where
  | notFound (cid : Cid)
  | integrity (cid : Cid)
  | backend (text : String)
deriving DecidableEq

/-- `content333::BlockStore`. -/
class BlockStore (S : Type) where
  put : S → Bytes → Except ContentError Cid × S
  get : S → Cid → Except ContentError Bytes

structure ChunkCoord where
  x : Int32
  y : Int32
  z : Int32
deriving DecidableEq

/-- What the texts of the content errors say. -/
inductive ContentText where
  | store (e : ContentError)
  | shortChunkPayload
  | chunkCoordMismatch
deriving DecidableEq

/-- Why a call of the world fails. -/
inductive VoxelError where
  | chunkMissing (coord : ChunkCoord)
  | outOfRange (i : Nat)
  | consensus (text : ConsensusError)
  | content (text : ContentText)
deriving DecidableEq

/-- `CHUNK_DIM`. -/
def chunkDim : Nat := 16

abbrev BlockKind := UInt16

structure Chunk where
  coord : ChunkCoord
  blocks : List BlockKind
deriving DecidableEq

namespace Chunk

def empty (coord : ChunkCoord) : Chunk := ⟨coord, .replicate (chunkDim * chunkDim * chunkDim) 0⟩

def index (x y z : Nat) : Nat := x + y * chunkDim + z * chunkDim * chunkDim

def get (c : Chunk) (x y z : Nat) : Except VoxelError BlockKind :=
  match c.blocks[index x y z]? with
  | some kind => .ok kind
  | none => .error (.outOfRange (index x y z))

def set (c : Chunk) (x y z : Nat) (kind : BlockKind) : Except VoxelError Chunk :=
  if index x y z < c.blocks.length then .ok { c with blocks := c.blocks.set (index x y z) kind }
  else .error (.outOfRange (index x y z))

def canonicalBytes (c : Chunk) : Bytes :=
  leBytes 4 c.coord.x.toUInt32.toNat ++ leBytes 4 c.coord.y.toUInt32.toNat ++
    leBytes 4 c.coord.z.toUInt32.toNat ++ c.blocks.flatMap fun b => leBytes 2 b.toNat

end Chunk

/-- `div_euclid`. -/
def chunkOf (x : Int32) : Int32 := .ofInt (x.toInt / chunkDim)

/-- `rem_euclid`. -/
def localOf (x : Int32) : Nat := (x.toInt % chunkDim).toNat

structure BlockPlaceOp where
  actor : NodeId
  x : Int32
  y : Int32
  z : Int32
  kind : BlockKind
deriving DecidableEq

def ChunkCoord.of (x y z : Int32) : ChunkCoord := ⟨chunkOf x, chunkOf y, chunkOf z⟩

/-- The cell of a position in its chunk. -/
def cell (x y z : Int32) : Nat := Chunk.index (localOf x) (localOf y) (localOf z)

namespace BlockPlaceOp

def chunkCoord (op : BlockPlaceOp) : ChunkCoord := .of op.x op.y op.z

def localCoords (op : BlockPlaceOp) : Nat × Nat × Nat := (localOf op.x, localOf op.y, localOf op.z)

def cell (op : BlockPlaceOp) : Nat := Voxel333.cell op.x op.y op.z

end BlockPlaceOp

/-! ## The content store in memory -/

/-- SHA-256, as the crate `sha2` provides it. -/
class Sha256 where
  digest : Bytes → Cid

/-- `content333::InMemoryBlockStore`. -/
structure InMemoryBlockStore where
  inner : Cid → Option Bytes

namespace InMemoryBlockStore

variable [Sha256]

def new : InMemoryBlockStore := ⟨fun _ => none⟩

def put (s : InMemoryBlockStore) (bytes : Bytes) : Except ContentError Cid × InMemoryBlockStore :=
  (.ok (Sha256.digest bytes), ⟨update s.inner (Sha256.digest bytes) (some bytes)⟩)

/-- The bytes are hashed again. -/
def get (s : InMemoryBlockStore) (cid : Cid) : Except ContentError Bytes :=
  match s.inner cid with
  | none => .error (.notFound cid)
  | some bytes => if Sha256.digest bytes ≠ cid then .error (.integrity cid) else .ok bytes

instance : BlockStore InMemoryBlockStore := ⟨put, get⟩

theorem get_eq_ok {s : InMemoryBlockStore} {cid : Cid} {bytes : Bytes} :
    BlockStore.get s cid = .ok bytes ↔ s.inner cid = some bytes ∧ Sha256.digest bytes = cid := by
  show s.get cid = .ok bytes ↔ _
  unfold get
  cases s.inner cid with
  | none => exact iff_of_false nofun nofun
  | some bytes' =>
    simp only [Option.some.injEq]
    split_ifs with hdigest
    · refine iff_of_false nofun ?_
      rintro ⟨rfl, hbytes⟩
      exact hdigest hbytes
    · refine ⟨?_, fun h => congrArg _ h.1⟩
      rintro ⟨⟩
      exact ⟨rfl, not_not.mp hdigest⟩

end InMemoryBlockStore

/-! ## The store of the chunks -/

/-- An odd byte at the end panics. -/
def blocksOf : Bytes → Option (List BlockKind)
  | [] => some []
  | [_] => none
  | lo :: hi :: rest => (blocksOf rest).map (UInt16.ofNat (ofLeBytes [lo, hi]) :: ·)

def coordOf (bytes : Bytes) : ChunkCoord :=
  ⟨i32OfLe (bytes.take 4), i32OfLe ((bytes.drop 4).take 4), i32OfLe ((bytes.drop 8).take 4)⟩

structure ChunkStore (S : Type) where
  inner : S
  index : ChunkCoord → Option Cid

namespace ChunkStore

variable {S : Type} [BlockStore S]

def put (s : ChunkStore S) (chunk : Chunk) : Except VoxelError Cid × ChunkStore S :=
  match BlockStore.put s.inner chunk.canonicalBytes with
  | (.error e, inner) => (.error (.content (.store e)), { s with inner })
  | (.ok cid, inner) => (.ok cid, ⟨inner, update s.index chunk.coord (some cid)⟩)

def get (s : ChunkStore S) (coord : ChunkCoord) : Option (Except VoxelError Chunk) :=
  match s.index coord with
  | none => some (.error (.chunkMissing coord))
  | some cid =>
    match BlockStore.get s.inner cid with
    | .error e => some (.error (.content (.store e)))
    | .ok bytes =>
      if bytes.length < 12 + chunkDim * chunkDim * chunkDim * 2 then
        some (.error (.content .shortChunkPayload))
      else if coordOf bytes ≠ coord then some (.error (.content .chunkCoordMismatch))
      else (blocksOf (bytes.drop 12)).map fun blocks => .ok ⟨coord, blocks⟩

/-- The chunk that is stored, of any number of blocks. -/
def stored (s : ChunkStore S) (coord : ChunkCoord) : Option Chunk :=
  (s.index coord).bind fun cid =>
    match BlockStore.get s.inner cid with
    | .error _ => none
    | .ok bytes => (blocksOf (bytes.drop 12)).map fun blocks => ⟨coordOf bytes, blocks⟩

end ChunkStore

/-! ## The world -/

structure WorldState (S : Type) where
  chunks : ChunkStore S
  loaded : ChunkCoord → Option Chunk
  settledHeight : UInt64

namespace WorldState

variable {S : Type} [BlockStore S]

def new (inner : S) : WorldState S := ⟨⟨inner, fun _ => none⟩, fun _ => none, 0⟩

def load (w : WorldState S) (coord : ChunkCoord) : Option (Except VoxelError Unit × WorldState S) :=
  (w.chunks.get coord).map fun
    | .error e => (.error e, w)
    | .ok chunk => (.ok (), { w with loaded := update w.loaded coord (some chunk) })

def loadOrCreate (w : WorldState S) (coord : ChunkCoord) : WorldState S :=
  match w.loaded coord with
  | some _ => w
  | none => { w with loaded := update w.loaded coord (some (.empty coord)) }

def voxel (w : WorldState S) (x y z : Int32) : Except VoxelError BlockKind :=
  match w.loaded (.of x y z) with
  | none => .error (.chunkMissing (.of x y z))
  | some chunk => chunk.get (localOf x) (localOf y) (localOf z)

def applyCommitted (w : WorldState S) (op : BlockPlaceOp) : Except VoxelError Unit × WorldState S :=
  let coord := op.chunkCoord
  let w := w.loadOrCreate coord
  match w.loaded coord with
  | none => (.error (.chunkMissing coord), w)
  | some chunk =>
    match chunk.set op.localCoords.1 op.localCoords.2.1 op.localCoords.2.2 op.kind with
    | .error e => (.error e, w)
    | .ok chunk =>
      let w := { w with loaded := update w.loaded coord (some chunk) }
      match w.chunks.put chunk with
      | (.error e, chunks) => (.error e, { w with chunks })
      | (.ok _, chunks) => (.ok (), { w with chunks })

def advanceHeight (w : WorldState S) (h : UInt64) : WorldState S :=
  if w.settledHeight < h then { w with settledHeight := h } else w

end WorldState

/-! ## Positions -/

theorem toInt_chunkOf (x : Int32) : (chunkOf x).toInt = x.toInt / 16 := by
  have hlow := x.le_toInt
  have hhigh := x.toInt_lt
  have hdiv : x.toInt / 16 * 16 + x.toInt % 16 = x.toInt := by omega
  rw [chunkOf, Int32.toInt_ofInt_of_le] <;> simp only [chunkDim] <;> omega

theorem localOf_lt (x : Int32) : localOf x < 16 := by
  unfold localOf chunkDim
  omega

theorem coordinate_injective {x x' : Int32} (hchunk : chunkOf x = chunkOf x')
    (hlocal : localOf x = localOf x') : x = x' := by
  apply Int32.toInt_inj.mp
  have hdiv := congrArg Int32.toInt hchunk
  rw [toInt_chunkOf, toInt_chunkOf] at hdiv
  unfold localOf chunkDim at hlocal
  omega

theorem index_injective {x y z x' y' z' : Nat} (hx : x < 16) (hy : y < 16) (hx' : x' < 16)
    (hy' : y' < 16) (h : Chunk.index x y z = Chunk.index x' y' z') : x = x' ∧ y = y' ∧ z = z' := by
  unfold Chunk.index chunkDim at h
  omega

/-- A position is its chunk and the cell in it. -/
theorem cell_injective {x y z x' y' z' : Int32} (hcoord : ChunkCoord.of x y z = .of x' y' z')
    (hcell : cell x y z = cell x' y' z') : x = x' ∧ y = y' ∧ z = z' := by
  obtain ⟨hx, hy, hz⟩ := ChunkCoord.mk.inj hcoord
  obtain ⟨hx', hy', hz'⟩ :=
    index_injective (localOf_lt _) (localOf_lt _) (localOf_lt _) (localOf_lt _) hcell
  exact ⟨coordinate_injective hx hx', coordinate_injective hy hy', coordinate_injective hz hz'⟩

theorem cell_lt (x y z : Int32) : cell x y z < chunkDim * chunkDim * chunkDim := by
  have hx := localOf_lt x
  have hy := localOf_lt y
  have hz := localOf_lt z
  unfold cell Chunk.index chunkDim
  omega

/-! ## Bytes -/

theorem blocksOf_flatMap (l : List BlockKind) :
    blocksOf (l.flatMap fun b => leBytes 2 b.toNat) = some l := by
  induction l with
  | nil => rfl
  | cons b l ih =>
    have hb : UInt16.ofNat (ofLeBytes (leBytes 2 b.toNat)) = b := by
      rw [ofLeBytes_leBytes b.toNat_lt, UInt16.ofNat_toNat]
    show (blocksOf (l.flatMap fun b => leBytes 2 b.toNat)).map
      (UInt16.ofNat (ofLeBytes (leBytes 2 b.toNat)) :: ·) = _
    rw [ih, hb, Option.map_some]

namespace Chunk

variable (c : Chunk)

theorem length_canonicalBytes : c.canonicalBytes.length = 12 + 2 * c.blocks.length := by
  have hsum : (c.blocks.map fun _ => 2).sum = 2 * c.blocks.length := by
    rw [List.map_const', List.sum_replicate, smul_eq_mul, Nat.mul_comm]
  simp only [canonicalBytes, List.length_append, length_leBytes, List.length_flatMap, hsum]

theorem coordOf_canonicalBytes : coordOf c.canonicalBytes = c.coord := by
  have hx := length_leBytes 4 c.coord.x.toUInt32.toNat
  have hy := length_leBytes 4 c.coord.y.toUInt32.toNat
  have hz := length_leBytes 4 c.coord.z.toUInt32.toNat
  simp only [coordOf, canonicalBytes, List.append_assoc]
  rw [List.take_left' hx, List.drop_left' hx, List.take_left' hy, ← List.append_assoc,
    List.drop_left' (by rw [List.length_append, hx, hy]), List.take_left' hz, i32OfLe_leBytes,
    i32OfLe_leBytes, i32OfLe_leBytes]

theorem blocksOf_canonicalBytes : blocksOf (c.canonicalBytes.drop 12) = some c.blocks := by
  rw [canonicalBytes, List.drop_left' (by simp only [List.length_append, length_leBytes]),
    blocksOf_flatMap]

/-- The chunk with one cell set. -/
def place (op : BlockPlaceOp) : Chunk := { c with blocks := c.blocks.set op.cell op.kind }

variable {c} {op : BlockPlaceOp} {x y z : Int32}

theorem get_place_self (h : op.cell < c.blocks.length) :
    (c.place op).get (localOf op.x) (localOf op.y) (localOf op.z) = .ok op.kind := by
  have hcell : (c.blocks.set op.cell op.kind)[op.cell]? = some op.kind := List.getElem?_set_self h
  unfold get place
  rw [show index (localOf op.x) (localOf op.y) (localOf op.z) = op.cell from rfl, hcell]

theorem get_place_of_ne (h : cell x y z ≠ op.cell) :
    (c.place op).get (localOf x) (localOf y) (localOf z) = c.get (localOf x) (localOf y)
      (localOf z) := by
  have hcell : (c.blocks.set op.cell op.kind)[cell x y z]? = c.blocks[cell x y z]? :=
    List.getElem?_set_ne h.symm
  unfold get place
  rw [show index (localOf x) (localOf y) (localOf z) = cell x y z from rfl, hcell]

end Chunk

/-! ## What is stored -/

namespace ChunkStore

variable {S : Type} [BlockStore S] {s : ChunkStore S} {coord : ChunkCoord} {c : Chunk} {cid : Cid}

/-- Everything in the index is the chunk of its coordinate. -/
def Sound (s : ChunkStore S) : Prop := ∀ coord cid, s.index coord = some cid →
  ∃ c : Chunk, c.coord = coord ∧ BlockStore.get s.inner cid = .ok c.canonicalBytes

/-- The content store takes the bytes, returns them, and still returns what it had. -/
def Returns (inner : S) (bytes : Bytes) : Prop :=
  ∃ cid inner', BlockStore.put inner bytes = (.ok cid, inner') ∧
  BlockStore.get inner' cid = .ok bytes ∧
  ∀ cid' bytes', BlockStore.get inner cid' = .ok bytes' → BlockStore.get inner' cid' = .ok bytes'

/-- The store in memory returns what is put unless it has other bytes with the same digest. -/
theorem returns_inMemory [Sha256] {s : InMemoryBlockStore} {bytes : Bytes}
    (h : ∀ b, s.inner (Sha256.digest bytes) = some b → b = bytes) : Returns s bytes := by
  refine ⟨Sha256.digest bytes, _, rfl, InMemoryBlockStore.get_eq_ok.mpr
    ⟨update_self _ _ s.inner, rfl⟩,
    fun cid' bytes' hget => ?_⟩
  obtain ⟨hold, hdigest⟩ := InMemoryBlockStore.get_eq_ok.mp hget
  refine InMemoryBlockStore.get_eq_ok.mpr ⟨?_, hdigest⟩
  by_cases hcid : cid' = Sha256.digest bytes
  · subst hcid
    rw [h bytes' hold]
    exact update_self _ _ s.inner
  · exact (update_of_ne hcid _ s.inner).trans hold

theorem stored_of_index (hindex : s.index coord = some cid)
    (hget : BlockStore.get s.inner cid = .ok c.canonicalBytes) : s.stored coord = some c := by
  simp only [stored, hindex, Option.bind_some, hget, c.blocksOf_canonicalBytes,
    c.coordOf_canonicalBytes,
    Option.map_some]

theorem stored_of_index_none (hindex : s.index coord = none) : s.stored coord = none := by
  rw [stored, hindex]
  rfl

theorem coord_of_stored (h : s.Sound) (hstored : s.stored coord = some c) : c.coord = coord := by
  cases hindex : s.index coord with
  | none => cases (stored_of_index_none hindex).symm.trans hstored
  | some cid =>
    obtain ⟨c', hcoord, hget⟩ := h coord cid hindex
    cases (stored_of_index hindex hget).symm.trans hstored
    exact hcoord

/-- A chunk that is read is stored and has all its blocks. -/
theorem stored_of_get (h : s.Sound) (hget : s.get coord = some (.ok c)) :
    s.stored coord = some c ∧ chunkDim * chunkDim * chunkDim ≤ c.blocks.length := by
  cases hindex : s.index coord with
  | none =>
    rw [get, hindex] at hget
    cases hget
  | some cid =>
    obtain ⟨c', hcoord, hbytes⟩ := h coord cid hindex
    rw [stored_of_index hindex hbytes]
    simp only [get, hindex, hbytes, c'.blocksOf_canonicalBytes, c'.coordOf_canonicalBytes,
      c'.length_canonicalBytes, hcoord] at hget
    split_ifs at hget with hshort hmismatch
    · cases hget
    · exact absurd rfl hmismatch
    · obtain rfl : c' = c := by
        subst hcoord
        exact Except.ok.inj (Option.some.inj hget)
      exact ⟨rfl, by omega⟩

/-- A stored chunk that has all its blocks is read. -/
theorem get_of_stored (h : s.Sound) (hstored : s.stored coord = some c)
    (hlength : chunkDim * chunkDim * chunkDim ≤ c.blocks.length) : s.get coord = some (.ok c) := by
  cases hindex : s.index coord with
  | none => cases (stored_of_index_none hindex).symm.trans hstored
  | some cid =>
    obtain ⟨c', hcoord, hbytes⟩ := h coord cid hindex
    obtain rfl : c' = c := Option.some.inj ((stored_of_index hindex hbytes).symm.trans hstored)
    have hlong : ¬ 12 + 2 * c'.blocks.length < 12 + chunkDim * chunkDim * chunkDim * 2 := by omega
    subst hcoord
    simp only [get, hindex, hbytes, c'.length_canonicalBytes, if_neg hlong,
      c'.coordOf_canonicalBytes,
      ne_eq, not_true_eq_false, if_false, c'.blocksOf_canonicalBytes, Option.map_some]

theorem put_spec (h : s.Sound) (hreturns : Returns s.inner c.canonicalBytes) :
    ∃ cid s', s.put c = (.ok cid, s') ∧ s'.Sound ∧ s'.stored c.coord = some c ∧
      ∀ coord ≠ c.coord, s'.stored coord = s.stored coord := by
  obtain ⟨cid, inner', hput, hnew, hold⟩ := hreturns
  have hself : (update s.index c.coord (some cid)) c.coord = some cid :=
    update_self ..
  refine ⟨cid, ⟨inner', update s.index c.coord (some cid)⟩, ?_, ?_,
    stored_of_index hself hnew, fun coord hne => ?_⟩
  · rw [put, hput]
  · intro coord cid' hindex
    by_cases hcoord : coord = c.coord
    · subst hcoord
      obtain rfl : cid = cid' := Option.some.inj (hself.symm.trans hindex)
      exact ⟨c, rfl, hnew⟩
    · obtain ⟨c', hc', hget⟩ := h coord cid' ((update_of_ne hcoord _ _).symm.trans hindex)
      exact ⟨c', hc', hold _ _ hget⟩
  · have hsame : (update s.index c.coord (some cid)) coord = s.index coord :=
      update_of_ne hne ..
    cases hindex : s.index coord with
    | none =>
      rw [stored_of_index_none hindex]
      exact stored_of_index_none (hsame.trans hindex)
    | some cid' =>
      obtain ⟨c', -, hget⟩ := h coord cid' hindex
      rw [stored_of_index hindex hget]
      exact stored_of_index (hsame.trans hindex) (hold _ _ hget)

end ChunkStore

/-! ## One placement -/

namespace WorldState

open ChunkStore

variable {S : Type} [BlockStore S] {w w' : WorldState S} {op : BlockPlaceOp}

/-- The loaded chunk, or the empty one. -/
def loadedOrEmpty (w : WorldState S) (coord : ChunkCoord) : Chunk :=
  (w.loaded coord).getD (.empty coord)

/-- The stored chunk, or the empty one. -/
def storedOrEmpty (w : WorldState S) (coord : ChunkCoord) : Chunk :=
  (w.chunks.stored coord).getD (.empty coord)

/-- The chunk that a placement stores. -/
def working (w : WorldState S) (op : BlockPlaceOp) : Chunk :=
  (w.loadedOrEmpty op.chunkCoord).place op

/-- Loaded chunks are those of their coordinates and have all their blocks. -/
def Full (w : WorldState S) : Prop := ∀ coord c, w.loaded coord = some c →
  c.coord = coord ∧ chunkDim * chunkDim * chunkDim ≤ c.blocks.length

omit [BlockStore S] in
theorem Full.loadedOrEmpty (h : w.Full) (coord : ChunkCoord) :
    (w.loadedOrEmpty coord).coord = coord ∧
    chunkDim * chunkDim * chunkDim ≤ (w.loadedOrEmpty coord).blocks.length := by
  unfold WorldState.loadedOrEmpty
  cases hloaded : w.loaded coord with
  | none => exact ⟨rfl, (List.length_replicate ..).ge⟩
  | some c => exact h coord c hloaded

omit [BlockStore S] in
theorem loadOrCreate_eq (w : WorldState S) (coord : ChunkCoord) : w.loadOrCreate coord =
    { w with loaded := update w.loaded coord (some (w.loadedOrEmpty coord)) } := by
  unfold loadOrCreate loadedOrEmpty
  cases hloaded : w.loaded coord with
  | none => rfl
  | some c =>
    have hsame : update w.loaded coord (some c) = w.loaded :=
      update_eq_self_iff.mpr hloaded.symm
    rw [Option.getD_some, hsame]

/-- The working chunk becomes the loaded one and is put. -/
theorem applyCommitted_eq (h : w.Full) (op : BlockPlaceOp) :
    w.applyCommitted op = ((w.chunks.put (w.working op)).1.map fun _ => (),
      { w with
        chunks := (w.chunks.put (w.working op)).2
        loaded := update w.loaded op.chunkCoord (some (w.working op)) }) := by
  have hroom : Chunk.index op.localCoords.1 op.localCoords.2.1 op.localCoords.2.2 <
      (w.loadedOrEmpty op.chunkCoord).blocks.length :=
    (cell_lt op.x op.y op.z).trans_le (h.loadedOrEmpty op.chunkCoord).2
  have hset :
    (w.loadedOrEmpty op.chunkCoord).set op.localCoords.1 op.localCoords.2.1 op.localCoords.2.2
      op.kind = .ok (w.working op) := if_pos hroom
  unfold applyCommitted
  simp only [loadOrCreate_eq, update_self, hset, update_idem]
  rcases w.chunks.put (w.working op) with ⟨e | cid, chunks⟩ <;> rfl

/-- One voxel of the stored chunk is changed. -/
structure Placed (w : WorldState S) (op : BlockPlaceOp) : Prop where
  ok : (w.applyCommitted op).1 = .ok ()
  chunk : (w.applyCommitted op).2.chunks.stored op.chunkCoord =
    some ((w.storedOrEmpty op.chunkCoord).place op)
  others : ∀ coord ≠ op.chunkCoord, (w.applyCommitted op).2.chunks.stored coord =
    w.chunks.stored coord
  /-- What is read in the chunk is what is stored: the new block, and all others as they were. -/
  voxel : ∀ x y z, ChunkCoord.of x y z = op.chunkCoord → (w.applyCommitted op).2.voxel x y z =
    if (x, y, z) = (op.x, op.y, op.z) then .ok op.kind
    else (w.storedOrEmpty op.chunkCoord).get (localOf x) (localOf y) (localOf z)

/-- The loaded copy and the stored chunk differ at most in the cell that is written. -/
structure Agrees (w : WorldState S) (op : BlockPlaceOp) : Prop where
  length : (w.loadedOrEmpty op.chunkCoord).blocks.length =
    (w.storedOrEmpty op.chunkCoord).blocks.length
  cells : ∀ i ≠ op.cell,
    (w.loadedOrEmpty op.chunkCoord).blocks[i]? = (w.storedOrEmpty op.chunkCoord).blocks[i]?

theorem storedOrEmpty_coord (h : w.chunks.Sound) (coord : ChunkCoord) :
    (w.storedOrEmpty coord).coord = coord := by
  unfold storedOrEmpty
  cases hstored : w.chunks.stored coord with
  | none => rfl
  | some c => exact coord_of_stored h hstored

theorem agrees_iff (hfull : w.Full) (hsound : w.chunks.Sound) :
    w.Agrees op ↔ w.working op = (w.storedOrEmpty op.chunkCoord).place op := by
  have hcoord : (w.loadedOrEmpty op.chunkCoord).coord = (w.storedOrEmpty op.chunkCoord).coord :=
    (hfull.loadedOrEmpty _).1.trans (storedOrEmpty_coord hsound _).symm
  have hroom : op.cell < (w.loadedOrEmpty op.chunkCoord).blocks.length :=
    (cell_lt op.x op.y op.z).trans_le (hfull.loadedOrEmpty op.chunkCoord).2
  rw [working, Chunk.place, Chunk.place, Chunk.mk.injEq]
  constructor
  · intro h
    refine ⟨hcoord, List.ext_getElem? fun i => ?_⟩
    by_cases hi : op.cell = i
    · rw [← hi, List.getElem?_set_self hroom, List.getElem?_set_self (h.length ▸ hroom)]
    · rw [List.getElem?_set_ne hi, List.getElem?_set_ne hi]
      exact h.cells i (Ne.symm hi)
  · rintro ⟨-, hblocks⟩
    refine ⟨?_, fun i hi => ?_⟩
    · have hlength := congrArg List.length hblocks
      rwa [List.length_set, List.length_set] at hlength
    · have hcell := congrArg (·[i]?) hblocks
      rwa [List.getElem?_set_ne hi.symm, List.getElem?_set_ne hi.symm] at hcell

/-- A placement changes one voxel of the stored chunk exactly when the loaded copy was the stored
chunk but for that voxel. -/
theorem placed_iff_agrees (hfull : w.Full) (hsound : w.chunks.Sound)
    (hreturns : Returns w.chunks.inner (w.working op).canonicalBytes) : w.Placed op ↔
      w.Agrees op := by
  have hcoord : (w.working op).coord = op.chunkCoord := (hfull.loadedOrEmpty _).1
  obtain ⟨cid, chunks, hput, -, hstored, hothers⟩ := put_spec hsound hreturns
  rw [hcoord] at hstored hothers
  have happly := applyCommitted_eq hfull op
  rw [hput] at happly
  rw [agrees_iff hfull hsound]
  constructor
  · intro h
    have hchunk := h.chunk
    rw [happly] at hchunk
    exact Option.some.inj (hstored.symm.trans hchunk)
  · intro h
    refine ⟨?_, ?_, ?_, fun x y z hxyz => ?_⟩
    · rw [happly]
      rfl
    · rw [happly, ← h]
      exact hstored
    · rw [happly]
      exact hothers
    · rw [happly]
      simp only [voxel, hxyz, update_self, h]
      have hroom : op.cell < (w.storedOrEmpty op.chunkCoord).blocks.length := by
        have hagrees := ((agrees_iff hfull hsound).mpr h).length
        rw [← hagrees]
        exact (cell_lt op.x op.y op.z).trans_le (hfull.loadedOrEmpty op.chunkCoord).2
      split_ifs with hposition
      · obtain ⟨rfl, rfl, rfl⟩ : x = op.x ∧ y = op.y ∧ z = op.z := by simpa using hposition
        exact Chunk.get_place_self hroom
      · refine Chunk.get_place_of_ne fun hcell => hposition ?_
        obtain ⟨rfl, rfl, rfl⟩ := cell_injective hxyz hcell
        rfl

/-! ## Runs -/

/-- The calls of the world. -/
inductive Action where
  | put (chunk : Chunk)
  | load (coord : ChunkCoord)
  | loadOrCreate (coord : ChunkCoord)
  | applyCommitted (op : BlockPlaceOp)

def step (w : WorldState S) : Action → Option (WorldState S)
  | .put chunk => some { w with chunks := (w.chunks.put chunk).2 }
  | .load coord => (w.load coord).map Prod.snd
  | .loadOrCreate coord => some (w.loadOrCreate coord)
  | .applyCommitted op => some (w.applyCommitted op).2

/-- The content store returns what is put. -/
def ok (w : WorldState S) : Action → Prop
  | .put chunk => Returns w.chunks.inner chunk.canonicalBytes
  | .applyCommitted op => Returns w.chunks.inner (w.working op).canonicalBytes
  | .load _ | .loadOrCreate _ => True

omit [BlockStore S] in
theorem Full.update (h : w.Full) {coord : ChunkCoord} {c : Chunk} (hcoord : c.coord = coord)
    (hlength : chunkDim * chunkDim * chunkDim ≤ c.blocks.length) :
    { w with loaded := update w.loaded coord (some c) }.Full := by
  refine (forall_update_iff w.loaded fun coord' copy => ∀ c', copy = some c' →
    c'.coord = coord' ∧ chunkDim * chunkDim * chunkDim ≤ c'.blocks.length).mpr
      ⟨?_, fun coord' _ => h coord'⟩
  rintro _ ⟨⟩
  exact ⟨hcoord, hlength⟩

omit [BlockStore S] in
theorem Full.working (h : w.Full) (op : BlockPlaceOp) : (w.working op).coord = op.chunkCoord ∧
    chunkDim * chunkDim * chunkDim ≤ (w.working op).blocks.length :=
  ⟨(h.loadedOrEmpty _).1, (h.loadedOrEmpty _).2.trans_eq (List.length_set ..).symm⟩

theorem step_sound {a : Action} (hfull : w.Full) (hsound : w.chunks.Sound) (hok : w.ok a)
    (hstep : w.step a = some w') : w'.Full ∧ w'.chunks.Sound := by
  cases a with
  | put chunk =>
    obtain ⟨cid, chunks, hput, hsound', -⟩ := put_spec hsound hok
    rw [step, hput] at hstep
    obtain rfl := Option.some.inj hstep
    exact ⟨hfull, hsound'⟩
  | load coord =>
    obtain ⟨⟨r, w''⟩, hload, rfl⟩ := Option.map_eq_some_iff.mp hstep
    obtain ⟨r, hget, hload⟩ := Option.map_eq_some_iff.mp hload
    cases r with
    | error e =>
      obtain ⟨-, rfl⟩ := Prod.mk.inj hload
      exact ⟨hfull, hsound⟩
    | ok c =>
      obtain ⟨-, rfl⟩ := Prod.mk.inj hload
      obtain ⟨hstored, hlength⟩ := stored_of_get hsound hget
      exact ⟨hfull.update (coord_of_stored hsound hstored) hlength, hsound⟩
  | loadOrCreate coord =>
    obtain rfl := Option.some.inj hstep
    rw [loadOrCreate_eq]
    exact ⟨hfull.update (hfull.loadedOrEmpty coord).1 (hfull.loadedOrEmpty coord).2, hsound⟩
  | applyCommitted op =>
    obtain ⟨cid, chunks, hput, hsound', -⟩ := put_spec hsound hok
    rw [step, applyCommitted_eq hfull, hput] at hstep
    obtain rfl := Option.some.inj hstep
    exact ⟨hfull.update (hfull.working op).1 (hfull.working op).2, hsound'⟩

theorem sound_of_reachable {inner : S} (h : Reachable step ok (new inner) w) :
    w.Full ∧ w.chunks.Sound :=
  h.invariant (I := fun w => w.Full ∧ w.chunks.Sound) ⟨nofun, nofun⟩
    fun _ _ _ _ hI hok hstep => step_sound hI.1 hI.2 hok hstep

/-- In every run, a placement changes one voxel exactly when the loaded copy and the stored chunk
agree elsewhere. -/
theorem placed_iff {inner : S} (h : Reachable step ok (new inner) w) (op : BlockPlaceOp)
    (hreturns : Returns w.chunks.inner (w.working op).canonicalBytes) : w.Placed op ↔ w.Agrees op :=
  placed_iff_agrees (sound_of_reachable h).1 (sound_of_reachable h).2 hreturns

end WorldState

namespace Demo

open ChunkStore WorldState

/-- The bytes of the first blocks. -/
@[reducible] def firstBlocks : Sha256 :=
  ⟨fun bytes => ⟨(bytes.drop 12 ++ .replicate 32 0).take 32, by simp⟩⟩

attribute [local instance] firstBlocks

def origin : ChunkCoord := ⟨0, 0, 0⟩

/-- Stored, but not loaded. -/
def building : Chunk := ⟨origin, (List.replicate 4096 0).set 1 9⟩

def first : BlockPlaceOp := ⟨.replicate 32 0, 0, 0, 0, 1⟩

def stored : WorldState InMemoryBlockStore :=
  { new InMemoryBlockStore.new with chunks := ((new InMemoryBlockStore.new).chunks.put building).2 }

theorem reachable_stored : Reachable step ok (new InMemoryBlockStore.new) stored :=
  .tail (a := .put building) .refl (returns_inMemory nofun) rfl

theorem stored_building : stored.chunks.stored origin = some building := by
  have hreturns : Returns InMemoryBlockStore.new building.canonicalBytes := returns_inMemory nofun
  obtain ⟨cid, chunks, hput, -, hstored, -⟩ :=
    put_spec (s := (new InMemoryBlockStore.new).chunks) (c := building) nofun hreturns
  have hchunks : stored.chunks = chunks := congrArg Prod.snd hput
  rw [hchunks]
  exact hstored

/-- The store takes any bytes that begin with other blocks. -/
theorem returns_of_ne {bytes : Bytes}
    (hne : Sha256.digest bytes ≠ Sha256.digest building.canonicalBytes) :
    Returns stored.chunks.inner bytes := by
  refine returns_inMemory fun b hb => ?_
  have hnone : update (fun _ => none) (Sha256.digest building.canonicalBytes)
      (some building.canonicalBytes) (Sha256.digest bytes) = none := update_of_ne hne ..
  cases hnone.symm.trans hb

/-- The placement erases the other block of the stored chunk. -/
theorem block_erased : ∃ w :
    WorldState InMemoryBlockStore, Reachable step ok (new InMemoryBlockStore.new) w ∧
    Returns w.chunks.inner (w.working first).canonicalBytes ∧ ¬ w.Placed first := by
  have hreturns : Returns stored.chunks.inner (stored.working first).canonicalBytes :=
    returns_of_ne (by decide +kernel)
  refine ⟨stored, reachable_stored, hreturns, fun h => ?_⟩
  obtain ⟨hfull, hsound⟩ := sound_of_reachable reachable_stored
  have hcells := ((placed_iff_agrees hfull hsound hreturns).mp h).cells 1 (by decide)
  have horigin : first.chunkCoord = origin := by decide
  rw [horigin, storedOrEmpty, stored_building] at hcells
  revert hcells
  decide +kernel

/-- The chunk is loaded before the placement. -/
def loaded : WorldState InMemoryBlockStore :=
  { stored with loaded := update stored.loaded origin (some building) }

theorem placed_iff_loaded : loaded.Placed first := by
  have hload : stored.step (.load origin) = some loaded := by
    have hget := get_of_stored (sound_of_reachable reachable_stored).2 stored_building
      ((List.length_set ..).trans (List.length_replicate ..)).ge
    rw [step, load, hget]
    rfl
  have hreach : Reachable step ok (new InMemoryBlockStore.new) loaded :=
    .tail (a := .load origin) reachable_stored trivial hload
  refine (placed_iff hreach first (returns_of_ne (by decide +kernel))).mpr ?_
  have horigin : first.chunkCoord = origin := by decide
  have hloaded : loaded.loaded origin = some building := by
    show update stored.loaded origin (some building) origin = _
    rw [update_self]
  have hsame : loaded.loadedOrEmpty first.chunkCoord = loaded.storedOrEmpty first.chunkCoord := by
    rw [horigin, storedOrEmpty, show loaded.chunks.stored origin = some building from
      stored_building,
      loadedOrEmpty, hloaded, Option.getD_some]
  exact ⟨by rw [hsame], fun i _ => by rw [hsame]⟩

end Demo

end P2P333.Voxel333
