import P2P333.Lib.Newest
import P2P333.Lib.Checked

/-!
# Last-writer-wins maps

`333-platform/src/lamport.rs` and `crdt/lww_map.rs`: Lamport clocks, and maps in which the write
with the latest timestamp wins. A hash map is a finite map, and the order in which one is iterated
is an argument.

Results:
1. `Tops.mergeEntry`, `Tops.merge`: merging keeps the latest writes.
2. `Tops.entries_eq`: a map is determined by the writes that it has the latest of.
3. `clock_merge`: the clock is ahead of all that was merged.
-/

namespace P2P333.Platform333.Crdt

open Lib

/-! ## Lamport clocks -/

structure Lamport where
  counter : UInt64
  nodeId : UInt32
deriving DecidableEq

namespace Lamport

def key (l : Lamport) : ℕ ×ₗ ℕ := toLex (l.counter.toNat, l.nodeId.toNat)

theorem key_injective : Function.Injective key := by
  rintro ⟨c, n⟩ ⟨c', n'⟩ h
  have h : (c.toNat, n.toNat) = (c'.toNat, n'.toNat) := h
  rw [Prod.mk.injEq] at h
  rw [UInt64.toNat_inj.mp h.1, UInt32.toNat_inj.mp h.2]

/-- Timestamps are compared by counter and then by node. -/
instance : LinearOrder Lamport := .lift' key key_injective

theorem lt_of_counter {l l' : Lamport} (h : l.counter.toNat < l'.counter.toNat) : l < l' :=
  Prod.Lex.toLex_lt_toLex.mpr (.inl h)

theorem counter_le {l l' : Lamport} (h : l ≤ l') : l.counter.toNat ≤ l'.counter.toNat := by
  rcases Prod.Lex.toLex_le_toLex.mp h with h | ⟨h, -⟩
  · exact h.le
  · exact h.le

def new (nodeId : UInt32) : Lamport := ⟨0, nodeId⟩

/-- A local event. The clock is the timestamp of it. -/
def tick (l : Lamport) : Lamport := { l with counter := saturatingSucc l.counter }

def recv (l remote : Lamport) : Lamport :=
  { l with counter := saturatingSucc (max l.counter remote.counter) }

theorem counter_recv {l remote : Lamport} {n : Nat} (hl : l.counter.toNat ≤ n)
    (hremote : remote.counter.toNat ≤ n) (hn : n + 1 < 2 ^ 64) :
    l.counter.toNat ≤ (l.recv remote).counter.toNat ∧
      remote.counter.toNat ≤ (l.recv remote).counter.toNat ∧
      (l.recv remote).counter.toNat ≤ n + 1 := by
  have hmax := toNat_max l.counter remote.counter
  have hrecv : (l.recv remote).counter.toNat = max l.counter.toNat remote.counter.toNat + 1 := by
    rw [recv, toNat_saturatingSucc (by omega), hmax]
  omega

end Lamport

/-! ## Maps -/

structure LwwEntry (V : Type) where
  value : Option V
  timestamp : Lamport
deriving DecidableEq

structure LwwMap (K V : Type) where
  entries : Finmap fun _ : K => LwwEntry V
  clock : Lamport

structure LwwDelta (K V : Type) where
  changes : List (K × LwwEntry V)

namespace LwwMap

variable {K V : Type} [DecidableEq K]

def new (nodeId : UInt32) : LwwMap K V := ⟨∅, .new nodeId⟩

/-- What a local write puts in. -/
def write (m : LwwMap K V) (key : K) (value : Option V) : LwwDelta K V × LwwMap K V :=
  let ts := m.clock.tick
  let entry := ⟨value, ts⟩
  (⟨[(key, entry)]⟩, ⟨m.entries.insert key entry, ts⟩)

def set (m : LwwMap K V) (key : K) (value : V) : LwwDelta K V × LwwMap K V :=
  m.write key (some value)

def delete (m : LwwMap K V) (key : K) : LwwDelta K V × LwwMap K V := m.write key none

def get (m : LwwMap K V) (key : K) : Option V := (m.entries.lookup key).bind LwwEntry.value

/-- One entry of a delta or of another map. -/
def mergeEntry (m : LwwMap K V) (c : K × LwwEntry V) : LwwMap K V :=
  let clock := m.clock.recv c.2.timestamp
  match m.entries.lookup c.1 with
  | some e =>
    if c.2.timestamp < e.timestamp then { m with clock }
    else if e.timestamp = c.2.timestamp ∧
      c.2.timestamp.nodeId ≤ e.timestamp.nodeId then { m with clock }
    else ⟨m.entries.insert c.1 c.2, clock⟩
  | none => ⟨m.entries.insert c.1 c.2, clock⟩

def mergeDelta (m : LwwMap K V) (delta : LwwDelta K V) : LwwMap K V :=
  delta.changes.foldl mergeEntry m

/-- The entries of the other map come in the order in which it is iterated. -/
def mergeFull (m : LwwMap K V) (order : List (K × LwwEntry V)) : LwwMap K V :=
  order.foldl mergeEntry m

/-- An order in which the map may be iterated. -/
structure Lists (m : LwwMap K V) (order : List (K × LwwEntry V)) : Prop where
  keys : (order.map Prod.fst).Nodup
  mem : ∀ k e, (k, e) ∈ order ↔ m.entries.lookup k = some e

/-! ## The latest writes -/

/-- The writes of a list to a key. -/
def writesAt (S : List (K × LwwEntry V)) (key : K) : Set (K × LwwEntry V) := {x | x ∈ S ∧ x.1 = key}

/-- The entry of each key is the latest of these writes to it. -/
def Tops (m : LwwMap K V) (S : List (K × LwwEntry V)) : Prop :=
  ∀ key, Newest (fun x => x.2.timestamp) (writesAt S key) ((m.entries.lookup key).map (Prod.mk key))

variable {m : LwwMap K V} {S T : List (K × LwwEntry V)} {c : K × LwwEntry V}

omit [DecidableEq K] in
theorem writesAt_cons_self : writesAt (c :: S) c.1 = insert c (writesAt S c.1) := by
  ext x
  simp only [writesAt, List.mem_cons, Set.mem_ofPred_eq, Set.mem_insert_iff]
  constructor
  · rintro ⟨rfl | hx, hkey⟩
    · exact .inl rfl
    · exact .inr ⟨hx, hkey⟩
  · rintro (rfl | ⟨hx, hkey⟩)
    · exact ⟨.inl rfl, rfl⟩
    · exact ⟨.inr hx, hkey⟩

omit [DecidableEq K] in
theorem writesAt_cons_of_ne {key : K} (h : c.1 ≠ key) : writesAt (c :: S) key = writesAt S key := by
  ext x
  simp only [writesAt, List.mem_cons, Set.mem_ofPred_eq]
  constructor
  · rintro ⟨rfl | hx, hkey⟩
    · exact absurd hkey h
    · exact ⟨hx, hkey⟩
  · rintro ⟨hx, hkey⟩
    exact ⟨.inr hx, hkey⟩

theorem Tops.new (nodeId : UInt32) : Tops (LwwMap.new nodeId : LwwMap K V) [] :=
  fun _ => .none fun _ hx => by cases hx.1

/-- A write that is later than all of its key. -/
theorem Tops.put (h : Tops m S) (hnewer : ∀ x ∈ S, x.1 = c.1 → x.2.timestamp ≤ c.2.timestamp)
    (clock : Lamport) : Tops ⟨m.entries.insert c.1 c.2, clock⟩ (c :: S) := by
  intro key
  by_cases hkey : c.1 = key
  · subst hkey
    rw [Finmap.lookup_insert, writesAt_cons_self]
    exact Newest.insert_newer fun x hx => hnewer x hx.1 hx.2
  · rw [Finmap.lookup_insert_of_ne _ (Ne.symm hkey), writesAt_cons_of_ne hkey]
    exact h key

/-- A write that is not later than the entry. -/
theorem Tops.skip (h : Tops m S) {e : LwwEntry V} (he : m.entries.lookup c.1 = some e)
    (hle : c.2.timestamp ≤ e.timestamp) (clock : Lamport) : Tops ⟨m.entries, clock⟩ (c :: S) := by
  intro key
  by_cases hkey : c.1 = key
  · subst hkey
    have hc := h c.1
    simp only [he, Option.map_some] at hc
    rw [writesAt_cons_self]
    simp only [he, Option.map_some]
    exact hc.insert_older rfl hle
  · rw [writesAt_cons_of_ne hkey]
    exact h key

theorem Tops.mergeEntry (h : Tops m S) (c : K × LwwEntry V) : Tops (m.mergeEntry c) (c :: S) := by
  have hall : ∀ x ∈ S, x.1 = c.1 → ∃ e, m.entries.lookup c.1 = some e ∧
      x.2.timestamp ≤ e.timestamp := by
    intro x hx hkey
    have hc := h c.1
    cases hlook : m.entries.lookup c.1 with
    | none =>
      rw [hlook] at hc
      cases hc with
      | none hempty => exact absurd ⟨hx, hkey⟩ (hempty x)
    | some e =>
      rw [hlook] at hc
      cases hc with
      | some _ hle => exact ⟨e, rfl, hle x ⟨hx, hkey⟩⟩
  unfold LwwMap.mergeEntry
  split
  · next e he =>
    split_ifs with hlt heq
    · exact h.skip he hlt.le _
    · exact h.skip he heq.1.ge _
    · refine h.put (fun x hx hkey => ?_) _
      obtain ⟨e', he', hle⟩ := hall x hx hkey
      cases he.symm.trans he'
      exact hle.trans (not_lt.mp hlt)
  · next hnone =>
    refine h.put (fun x hx hkey => ?_) _
    obtain ⟨e, he, -⟩ := hall x hx hkey
    cases hnone.symm.trans he

theorem Tops.merge (h : Tops m S) (changes : List (K × LwwEntry V)) :
    Tops (changes.foldl LwwMap.mergeEntry m) (changes.reverse ++ S) := by
  induction changes generalizing m S with
  | nil => exact h
  | cons c changes ih =>
    rw [List.reverse_cons, List.append_assoc]
    exact ih (h.mergeEntry c)

/-- Only which writes there are matters. -/
theorem Tops.congr (h : Tops m S) (hmem : ∀ x, x ∈ S ↔ x ∈ T) : Tops m T := by
  intro key
  have hset : writesAt S key = writesAt T key := by
    ext x
    simp only [writesAt, Set.mem_ofPred_eq, hmem]
  exact hset ▸ h key

/-- Writes that are covered by later ones may be added. -/
theorem Tops.absorb (h : Tops m S) (hsub : ∀ x ∈ S, x ∈ T)
    (hcovered : ∀ x ∈ T, ∃ y ∈ S, y.1 = x.1 ∧ x.2.timestamp ≤ y.2.timestamp) : Tops m T := by
  intro key
  refine (h key).absorb (fun x hx => ⟨hsub x hx.1, hx.2⟩) fun x hx => ?_
  obtain ⟨y, hy, hkey, hle⟩ := hcovered x hx.1
  exact ⟨y, ⟨hy, hkey.trans hx.2⟩, hle⟩

variable {order : List (K × LwwEntry V)}

/-- The entries of a map cover all that it is the latest of. -/
theorem Tops.covered (h : Tops m S) (horder : m.Lists order) :
    (∀ x ∈ order, x ∈ S) ∧
      ∀ x ∈ S, ∃ y ∈ order, y.1 = x.1 ∧ x.2.timestamp ≤ y.2.timestamp := by
  constructor
  · rintro ⟨key, e⟩ hx
    have hkey := h key
    rw [(horder.mem key e).mp hx] at hkey
    cases hkey with
    | some hmem => exact hmem.1
  · intro x hx
    have hkey := h x.1
    cases hlook : m.entries.lookup x.1 with
    | none =>
      rw [hlook] at hkey
      cases hkey with
      | none hempty => exact absurd ⟨hx, rfl⟩ (hempty x)
    | some e =>
      rw [hlook] at hkey
      cases hkey with
      | some _ hle => exact ⟨(x.1, e), (horder.mem x.1 e).mpr hlook, rfl, hle x ⟨hx, rfl⟩⟩

/-- The latest writes are determined if no two writes to a key have the same timestamp. -/
theorem Tops.entries_eq {m' : LwwMap K V} (h : Tops m S) (h' : Tops m' S)
    (hinj : ∀ x ∈ S, ∀ y ∈ S, x.1 = y.1 → x.2.timestamp = y.2.timestamp → x = y) :
    m.entries = m'.entries := by
  refine Finmap.ext_lookup fun key => ?_
  have heq := (h key).unique (h' key) fun x hx y hy =>
    hinj x hx.1 y hy.1 (hx.2.trans hy.2.symm)
  exact Option.map_injective (Prod.mk_right_injective key) heq

theorem Lists.eq_of_key (h : m.Lists order)
    {x y : K × LwwEntry V} (hx : x ∈ order) (hy : y ∈ order) (heq : x.1 = y.1) : x = y :=
  List.inj_on_of_nodup_map h.keys hx hy heq

/-- A map has the latest of its own entries. -/
theorem Lists.tops (h : m.Lists order) : Tops m order := by
  intro key
  cases hlook : m.entries.lookup key with
  | none =>
    refine .none fun x hx => ?_
    have hmem := (h.mem x.1 x.2).mp hx.1
    rw [hx.2, hlook] at hmem
    cases hmem
  | some e =>
    have hmem := (h.mem key e).mpr hlook
    refine .some ⟨hmem, rfl⟩ fun x hx => ?_
    rw [h.eq_of_key hx.1 hmem hx.2]

/-- All entries of one map, merged into an empty one. -/
theorem Lists.merge_new (h : m.Lists order) (nodeId : UInt32) :
    (order.foldl LwwMap.mergeEntry (LwwMap.new nodeId)).entries = m.entries := by
  have hmerged := ((Tops.new (K := K) (V := V) nodeId).merge order).congr (T := order) fun x => by
    rw [List.append_nil, List.mem_reverse]
  exact hmerged.entries_eq h.tops fun x hx y hy hkey _ => h.eq_of_key hx hy hkey

/-! ## The clock -/

theorem clock_mergeEntry (m : LwwMap K V) (c : K × LwwEntry V) :
    (m.mergeEntry c).clock = m.clock.recv c.2.timestamp := by
  unfold mergeEntry
  split
  · split_ifs <;> rfl
  · rfl

theorem nodeId_merge (m : LwwMap K V) (changes : List (K × LwwEntry V)) :
    (changes.foldl mergeEntry m).clock.nodeId = m.clock.nodeId := by
  induction changes generalizing m with
  | nil => rfl
  | cons c changes ih =>
    rw [List.foldl_cons, ih, clock_mergeEntry]
    rfl

/-- Every entry that is merged is one more event. -/
theorem clock_merge {changes : List (K × LwwEntry V)} {n : Nat} (hm : m.clock.counter.toNat ≤ n)
    (hchanges : ∀ c ∈ changes, c.2.timestamp.counter.toNat ≤ n) (hn : n + changes.length < 2 ^ 64) :
    m.clock.counter.toNat ≤ (changes.foldl mergeEntry m).clock.counter.toNat ∧
      (∀ c ∈ changes,
        c.2.timestamp.counter.toNat ≤ (changes.foldl mergeEntry m).clock.counter.toNat) ∧
      (changes.foldl mergeEntry m).clock.counter.toNat ≤ n + changes.length := by
  induction changes generalizing m n with
  | nil => exact ⟨le_rfl, nofun, hm⟩
  | cons c changes ih =>
    rw [List.length_cons] at hn ⊢
    have hc := hchanges c List.mem_cons_self
    obtain ⟨hown, hremote, hle⟩ := Lamport.counter_recv hm hc (by omega)
    rw [← clock_mergeEntry] at hown hremote hle
    obtain ⟨hgrows, hlater, hbound⟩ := ih hle
      (fun d hd => (hchanges d (List.mem_cons_of_mem c hd)).trans (Nat.le_succ n)) (by omega)
    refine ⟨hown.trans hgrows, fun d hd => ?_, hbound.trans (by omega)⟩
    rcases List.mem_cons.mp hd with rfl | hd
    · exact hremote.trans hgrows
    · exact hlater d hd

end LwwMap

end P2P333.Platform333.Crdt
