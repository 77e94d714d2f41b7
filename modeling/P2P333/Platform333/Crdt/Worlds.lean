import P2P333.Platform333.Crdt.LwwMap
import P2P333.Lib.Transition

/-!
# Replicas of a map

Any number of replicas write to a last-writer-wins map, and send their deltas and whole maps to one
another. What was sent arrives in any order, any number of times, or never. A local write is put in
without a comparison: it is the clock that is ahead of all that its replica has seen.

A replica learns of the writes in a delta. From a whole map it learns of the entries, and through
them of all that the sender knew; both readings are kept here.

Results:
1. `inv_reachable`: the clocks, the timestamps and the entries in every run.
2. `converge`: an entry is the latest write that its replica has learned of.
-/

namespace P2P333.Platform333.Crdt

open Lib Function

/-- A whole map on its way, with all that its sender knew. -/
structure Shared (K V : Type) where
  map : LwwMap K V
  known : List (K × LwwEntry V)

structure World (K V : Type) where
  replica : UInt32 → LwwMap K V
  /-- The writes that a replica has made, got in deltas, or that the senders of maps knew. -/
  known : UInt32 → List (K × LwwEntry V)
  /-- The writes that a replica has made, or that stood in what it got. -/
  received : UInt32 → List (K × LwwEntry V)
  issued : List (K × LwwEntry V)
  shared : List (Shared K V)
  /-- The clock events so far. -/
  events : Nat

/-- A replica changes its map, or merges what others have shared. -/
inductive Action (K V : Type) where
  | set (v : UInt32) (key : K) (value : V)
  | delete (v : UInt32) (key : K)
  | share (v : UInt32)
  | mergeDelta (v : UInt32) (delta : LwwDelta K V)
  | mergeFull (v : UInt32) (sent : Shared K V) (order : List (K × LwwEntry V))

namespace World

variable {K V : Type} [DecidableEq K]

/-- The replicas have different node ids. -/
def start : World K V := ⟨.new, fun _ => [], fun _ => [], [], [], 0⟩

def wrote (w : World K V) (v : UInt32) (r : LwwDelta K V × LwwMap K V) : World K V :=
  { w with
    replica := update w.replica v r.2
    known := update w.known v (r.1.changes ++ w.known v)
    received := update w.received v (r.1.changes ++ w.received v)
    issued := r.1.changes ++ w.issued
    events := w.events + 1 }

def step (w : World K V) : Action K V → Option (World K V)
  | .set v key value => some (w.wrote v ((w.replica v).set key value))
  | .delete v key => some (w.wrote v ((w.replica v).delete key))
  | .share v => some { w with shared := ⟨w.replica v, w.known v⟩ :: w.shared }
  | .mergeDelta v delta => some
    { w with
      replica := update w.replica v ((w.replica v).mergeDelta delta)
      known := update w.known v (delta.changes ++ w.known v)
      received := update w.received v (delta.changes ++ w.received v)
      events := w.events + delta.changes.length }
  | .mergeFull v sent order => some
    { w with
      replica := update w.replica v ((w.replica v).mergeFull order)
      known := update w.known v (sent.known ++ w.known v)
      received := update w.received v (order ++ w.received v)
      events := w.events + order.length }

/-- Only what was issued or shared arrives, and there are fewer than `2 ^ 64` events. A delta may
carry any number of writes. -/
def Allowed (w : World K V) : Action K V → Prop
  | .set _ _ _ | .delete _ _ => w.events + 1 < 2 ^ 64
  | .share _ => True
  | .mergeDelta _ delta =>
    (∀ c ∈ delta.changes, c ∈ w.issued) ∧ w.events + delta.changes.length < 2 ^ 64
  | .mergeFull _ sent order =>
    sent ∈ w.shared ∧ sent.map.Lists order ∧ w.events + order.length < 2 ^ 64

/-! ## The invariant -/

structure Inv (w : World K V) : Prop where
  nodeId : ∀ v, (w.replica v).clock.nodeId = v
  counter_le : ∀ v, (w.replica v).clock.counter.toNat ≤ w.events
  /-- The clock of a replica is ahead of the timestamps that it has given out. -/
  own : ∀ x ∈ w.issued,
    x.2.timestamp.counter.toNat ≤ (w.replica x.2.timestamp.nodeId).clock.counter.toNat
  stamps : (w.issued.map fun x => x.2.timestamp).Nodup
  known_issued : ∀ v, ∀ x ∈ w.known v, x ∈ w.issued
  received_known : ∀ v, ∀ x ∈ w.received v, x ∈ w.known v
  /-- The clock of a replica is ahead of all that it has seen. -/
  ahead : ∀ v, ∀ x ∈ w.known v,
    x.2.timestamp.counter.toNat ≤ (w.replica v).clock.counter.toNat
  tops : ∀ v, (w.replica v).Tops (w.known v)
  tops_received : ∀ v, (w.replica v).Tops (w.received v)
  shared_tops : ∀ s ∈ w.shared, s.map.Tops s.known
  shared_issued : ∀ s ∈ w.shared, ∀ x ∈ s.known, x ∈ w.issued

variable {w : World K V}

theorem inv_start : Inv (start : World K V) where
  nodeId _ := rfl
  counter_le _ := Nat.zero_le _
  own _ hx := by cases hx
  stamps := List.nodup_nil
  known_issued _ _ hx := by cases hx
  received_known _ _ hx := by cases hx
  ahead _ _ hx := by cases hx
  tops v := LwwMap.Tops.new v
  tops_received v := LwwMap.Tops.new v
  shared_tops _ hs := by cases hs
  shared_issued _ hs := by cases hs

theorem Inv.issued_le (h : Inv w) {x : K × LwwEntry V} (hx : x ∈ w.issued) :
    x.2.timestamp.counter.toNat ≤ w.events :=
  (h.own x hx).trans (h.counter_le _)

/-- The timestamp of the next write of a replica. -/
theorem Inv.tick (h : Inv w) (v : UInt32) (hn : w.events + 1 < 2 ^ 64) :
    (w.replica v).clock.tick.counter.toNat = (w.replica v).clock.counter.toNat + 1 := by
  have hle := h.counter_le v
  exact toNat_saturatingSucc (by omega)

/-- A local write is later than all that its replica knows. -/
theorem Inv.newest (h : Inv w) (v : UInt32) (hn : w.events + 1 < 2 ^ 64) {x : K × LwwEntry V}
    (hx : x ∈ w.known v) : x.2.timestamp < (w.replica v).clock.tick := by
  have hahead := h.ahead v x hx
  have htick := h.tick v hn
  exact Lamport.lt_of_counter (by omega)

omit [DecidableEq K] in
/-- What holds of the replica that has changed, and held of the others, holds of all. -/
theorem forall_update {P : UInt32 → LwwMap K V → List (K × LwwEntry V) →
    List (K × LwwEntry V) → Prop}
    {v : UInt32} {r : LwwMap K V} {known received : List (K × LwwEntry V)}
    (hv : P v r known received)
    (hothers : ∀ u, P u (w.replica u) (w.known u) (w.received u)) (u : UInt32) :
    P u (update w.replica v r u) (update w.known v known u)
      (update w.received v received u) := by
  by_cases hu : u = v
  · subst hu
    simp only [update_self]
    exact hv
  · simp only [update_of_ne hu]
    exact hothers u

/-- A replica gets ahead of all that it learns of. -/
theorem Inv.learn (h : Inv w) (v : UInt32) {r : LwwMap K V} {n : Nat}
    (issued : List (K × LwwEntry V)) {learned changes : List (K × LwwEntry V)}
    (hnode : r.clock.nodeId = v)
    (hgrows : (w.replica v).clock.counter.toNat ≤ r.clock.counter.toNat)
    (hbound : r.clock.counter.toNat ≤ w.events + n)
    (hown : ∀ x ∈ issued, x.2.timestamp.nodeId = v)
    (hstamps : ((issued ++ w.issued).map fun x => x.2.timestamp).Nodup)
    (hissued : ∀ x ∈ issued, x ∈ learned) (hlearned : ∀ x ∈ learned, x ∈ issued ++ w.issued)
    (hahead : ∀ x ∈ learned, x.2.timestamp.counter.toNat ≤ r.clock.counter.toNat)
    (hsub : ∀ x ∈ changes, x ∈ learned) (htops : r.Tops (learned ++ w.known v))
    (hreceived : r.Tops (changes ++ w.received v)) :
    Inv { w with
      replica := update w.replica v r
      known := update w.known v (learned ++ w.known v)
      received := update w.received v (changes ++ w.received v)
      issued := issued ++ w.issued
      events := w.events + n } := by
  -- The clauses are about one replica each: the new one here, an old one elsewhere.
  have hall : ∀ {P : UInt32 → LwwMap K V → List (K × LwwEntry V) → List (K × LwwEntry V) → Prop},
      P v r (learned ++ w.known v) (changes ++ w.received v) →
      (∀ u, P u (w.replica u) (w.known u) (w.received u)) →
      ∀ u, P u (update w.replica v r u)
        (update w.known v (learned ++ w.known v) u)
        (update w.received v (changes ++ w.received v) u) := forall_update
  have hclock : ∀ u, (w.replica u).clock.counter.toNat ≤
      (update w.replica v r u).clock.counter.toNat :=
    hall (P := fun u r _ _ => (w.replica u).clock.counter.toNat ≤ r.clock.counter.toNat) hgrows
      fun u => le_rfl
  constructor
  case nodeId => exact hall (P := fun u r _ _ => r.clock.nodeId = u) hnode h.nodeId
  case counter_le =>
    exact hall (P := fun _ r _ _ => r.clock.counter.toNat ≤ w.events + n) hbound
      fun u => (h.counter_le u).trans (Nat.le_add_right _ _)
  case own =>
    intro x hx
    rcases List.mem_append.mp hx with hx | hx
    · simp only [hown x hx, update_self]
      exact hahead x (hissued x hx)
    · exact (h.own x hx).trans (hclock _)
  case stamps => exact hstamps
  case known_issued =>
    refine hall (P := fun _ _ known _ => ∀ x ∈ known, x ∈ issued ++ w.issued)
      (fun x hx => ?_) fun u x hx => List.mem_append_right _ (h.known_issued u x hx)
    rcases List.mem_append.mp hx with hx | hx
    · exact hlearned x hx
    · exact List.mem_append_right _ (h.known_issued v x hx)
  case received_known =>
    refine hall (P := fun _ _ known received => ∀ x ∈ received, x ∈ known)
      (fun x hx => ?_) h.received_known
    rcases List.mem_append.mp hx with hx | hx
    · exact List.mem_append_left _ (hsub x hx)
    · exact List.mem_append_right _ (h.received_known v x hx)
  case ahead =>
    refine hall (P := fun _ r known _ => ∀ x ∈ known,
      x.2.timestamp.counter.toNat ≤ r.clock.counter.toNat) (fun x hx => ?_) h.ahead
    rcases List.mem_append.mp hx with hx | hx
    · exact hahead x hx
    · exact (h.ahead v x hx).trans hgrows
  case tops => exact hall (P := fun _ r known _ => r.Tops known) htops h.tops
  case tops_received =>
    exact hall (P := fun _ r _ received => r.Tops received) hreceived h.tops_received
  case shared_tops => exact h.shared_tops
  case shared_issued => exact fun s hs x hx => List.mem_append_right _ (h.shared_issued s hs x hx)

theorem Inv.write (h : Inv w) (v : UInt32) (key : K) (value : Option V)
    (hn : w.events + 1 < 2 ^ 64) :
    Inv (w.wrote v ((w.replica v).write key value)) := by
  have htick := h.tick v hn
  have hle := h.counter_le v
  have hnode : (w.replica v).clock.tick.nodeId = v := h.nodeId v
  have htops : ∀ S, (w.replica v).Tops S → (∀ x ∈ S, x ∈ w.known v) →
      (((w.replica v).write key value).2).Tops (((w.replica v).write key value).1.changes ++ S) :=
    fun S hS hsub => hS.put
      (c := (key, ⟨value, _⟩)) (fun x hx _ => (h.newest v hn (hsub x hx)).le) _
  have hnew : ∀ x ∈ w.issued, x.2.timestamp ≠ (w.replica v).clock.tick := by
    intro x hx heq
    have hown := h.own x hx
    rw [heq, hnode, htick] at hown
    omega
  have hone : ∀ x ∈ ((w.replica v).write key value).1.changes,
      x.2.timestamp = (w.replica v).clock.tick := by
    intro x hx
    rw [LwwMap.write, List.mem_singleton] at hx
    rw [hx]
  refine h.learn v _ hnode (htick ▸ Nat.le_succ _) (htick ▸ Nat.succ_le_succ hle)
    (fun x hx => (hone x hx).symm ▸ hnode) ?_ (fun x hx => hx)
    (fun x hx => List.mem_append_left _ hx)
    (fun x hx => (hone x hx).symm ▸ le_rfl) (fun x hx => hx) (htops _ (h.tops v) fun x hx => hx)
    (htops _ (h.tops_received v) (h.received_known v))
  refine List.nodup_cons.mpr ⟨fun hmem => ?_, h.stamps⟩
  obtain ⟨x, hx, heq⟩ := List.mem_map.mp hmem
  exact hnew x hx heq

/-- A replica learns of writes through changes that cover them. -/
theorem Inv.merge (h : Inv w) (v : UInt32) {changes learned : List (K × LwwEntry V)}
    (hissued : ∀ x ∈ learned, x ∈ w.issued) (hsub : ∀ x ∈ changes, x ∈ learned)
    (hcovered : ∀ x ∈ learned, ∃ y ∈ changes, y.1 = x.1 ∧ x.2.timestamp ≤ y.2.timestamp)
    (hn : w.events + changes.length < 2 ^ 64) :
    Inv { w with
      replica := update w.replica v (changes.foldl LwwMap.mergeEntry (w.replica v))
      known := update w.known v (learned ++ w.known v)
      received := update w.received v (changes ++ w.received v)
      events := w.events + changes.length } := by
  obtain ⟨hgrow, hlater, hbound⟩ := LwwMap.clock_merge (h.counter_le v)
    (fun c hc => h.issued_le (hissued c (hsub c hc))) hn
  have htops : ∀ S, (w.replica v).Tops S →
      (changes.foldl LwwMap.mergeEntry (w.replica v)).Tops (changes ++ S) := fun S hS =>
    (hS.merge changes).congr fun x => by rw [List.mem_append, List.mem_append, List.mem_reverse]
  have hnode : (changes.foldl LwwMap.mergeEntry (w.replica v)).clock.nodeId = v := by
    rw [LwwMap.nodeId_merge, h.nodeId]
  -- What covers a write is not later than the clock.
  have hahead : ∀ x ∈ learned, x.2.timestamp.counter.toNat ≤
      (changes.foldl LwwMap.mergeEntry (w.replica v)).clock.counter.toNat := by
    intro x hx
    obtain ⟨y, hy, -, hle⟩ := hcovered x hx
    exact (Lamport.counter_le hle).trans (hlater y hy)
  refine h.learn v [] hnode hgrow hbound nofun h.stamps nofun hissued hahead hsub ?_
    (htops _ (h.tops_received v))
  refine (htops _ (h.tops v)).absorb (fun x hx => ?_) fun x hx => ?_
  · rcases List.mem_append.mp hx with hx | hx
    · exact List.mem_append_left _ (hsub x hx)
    · exact List.mem_append_right _ hx
  · rcases List.mem_append.mp hx with hx | hx
    · obtain ⟨y, hy, hkey, hle⟩ := hcovered x hx
      exact ⟨y, List.mem_append_left _ hy, hkey, hle⟩
    · exact ⟨x, List.mem_append_right _ hx, rfl, le_rfl⟩

theorem Inv.step (h : Inv w) {a : Action K V} {w' : World K V} (hok : Allowed w a)
    (hstep : step w a = some w') : Inv w' := by
  cases a with
  | set v key value =>
    cases hstep
    exact h.write v key (some value) hok
  | delete v key =>
    cases hstep
    exact h.write v key none hok
  | share v =>
    cases hstep
    refine { h with
      shared_tops := fun s hs => ?_
      shared_issued := fun s hs x hx => ?_ }
    · rcases List.mem_cons.mp hs with rfl | hs
      · exact h.tops v
      · exact h.shared_tops s hs
    · rcases List.mem_cons.mp hs with rfl | hs
      · exact h.known_issued v x hx
      · exact h.shared_issued s hs x hx
  | mergeDelta v delta =>
    obtain ⟨hissued, hn⟩ := hok
    cases hstep
    exact h.merge v hissued (fun x hx => hx) (fun x hx => ⟨x, hx, rfl, le_rfl⟩) hn
  | mergeFull v sent order =>
    obtain ⟨hsent, hlists, hn⟩ := hok
    cases hstep
    obtain ⟨hsub, hcovered⟩ := (h.shared_tops sent hsent).covered hlists
    exact h.merge v (h.shared_issued sent hsent) hsub hcovered hn

/-- Runs in which only what was sent arrives. -/
abbrev Reachable : World K V → Prop := Lib.Reachable step Allowed start

theorem inv_reachable (h : Reachable w) : Inv w :=
  Lib.Reachable.invariant inv_start (fun _ _ _ _ hinv hok hstep => hinv.step hok hstep) h

/-! ## Convergence -/

/-- The entry of a key is the write to it with the largest timestamp, if there is any. -/
def EntryIsLatest (m : LwwMap K V) (S : List (K × LwwEntry V)) : Prop :=
  (∀ key e, m.entries.lookup key = some e →
    (key, e) ∈ S ∧ ∀ x ∈ S, x.1 = key → x.2.timestamp ≤ e.timestamp) ∧
  ∀ x ∈ S, ∃ e, m.entries.lookup x.1 = some e

theorem entryIsLatest_of_tops {m : LwwMap K V} {S : List (K × LwwEntry V)} (h : m.Tops S) :
    EntryIsLatest m S := by
  refine ⟨fun key e he => ?_, fun x hx => ?_⟩
  · have hkey := h key
    rw [he] at hkey
    cases hkey with
    | some hmem hle => exact ⟨hmem.1, fun x hx hxkey => hle x ⟨hx, hxkey⟩⟩
  · have hkey := h x.1
    cases hlook : m.entries.lookup x.1 with
    | none =>
      rw [hlook] at hkey
      cases hkey with
      | none hempty => exact absurd ⟨hx, rfl⟩ (hempty x)
    | some e => exact ⟨e, rfl⟩

/-- A write of a replica now is later than all that it has seen, and is the entry of its key. -/
def Overrides (w : World K V) (v : UInt32) (key : K) (value : Option V)
    (r : LwwDelta K V × LwwMap K V) : Prop :=
  ∃ e : LwwEntry V, r.1.changes = [(key, e)] ∧ e.value = value ∧
    r.2.entries.lookup key = some e ∧ ∀ x ∈ w.known v, x.2.timestamp < e.timestamp

structure Converged (w : World K V) : Prop where
  latest : ∀ v, EntryIsLatest (w.replica v) (w.known v) ∧ EntryIsLatest (w.replica v) (w.received v)
  /-- No two writes have the same timestamp. -/
  stamps : (w.issued.map fun x => x.2.timestamp).Nodup
  set_overrides : w.events + 1 < 2 ^ 64 → ∀ v key value,
    Overrides w v key (some value) ((w.replica v).set key value)
  delete_overrides : w.events + 1 < 2 ^ 64 → ∀ v key,
    Overrides w v key none ((w.replica v).delete key)
  same_known : ∀ u v, (∀ x, x ∈ w.known u ↔ x ∈ w.known v) →
    (w.replica u).entries = (w.replica v).entries
  same_received : ∀ u v, (∀ x, x ∈ w.received u ↔ x ∈ w.received v) →
    (w.replica u).entries = (w.replica v).entries

theorem Inv.injective (h : Inv w) : ∀ x ∈ w.issued, ∀ y ∈ w.issued,
    x.2.timestamp = y.2.timestamp → x = y := fun _ hx _ hy heq =>
  List.inj_on_of_nodup_map h.stamps hx hy heq

theorem Inv.overrides (h : Inv w) (hn : w.events + 1 < 2 ^ 64) (v : UInt32) (key : K)
    (value : Option V) : Overrides w v key value ((w.replica v).write key value) :=
  ⟨_, rfl, rfl, Finmap.lookup_insert _, fun _ hx => h.newest v hn hx⟩

/-- Whatever arrives in which order, the replicas converge. -/
theorem converge (h : Reachable w) : Converged w := by
  have hinv := inv_reachable h
  refine ⟨fun v => ⟨entryIsLatest_of_tops (hinv.tops v),
      entryIsLatest_of_tops (hinv.tops_received v)⟩, hinv.stamps,
    fun hn v key value => hinv.overrides hn v key (some value),
    fun hn v key => hinv.overrides hn v key none, fun u v hsame => ?_, fun u v hsame => ?_⟩
  · refine ((hinv.tops u).congr hsame).entries_eq (hinv.tops v) fun x hx y hy _ => ?_
    exact hinv.injective x (hinv.known_issued v x hx) y (hinv.known_issued v y hy)
  · refine ((hinv.tops_received u).congr hsame).entries_eq (hinv.tops_received v)
      fun x hx y hy _ => ?_
    exact hinv.injective x (hinv.known_issued v x (hinv.received_known v x hx)) y
      (hinv.known_issued v y (hinv.received_known v y hy))

end World

namespace Demo

open World

def one : World Nat Nat := (start : World Nat Nat).wrote 1
    ((start : World Nat Nat).replica 1 |>.set 0 10)

def two : World Nat Nat := one.wrote 2 ((one.replica 2).set 0 20)

def delta (v : UInt32) (value : Nat) : LwwDelta Nat Nat := ⟨[(0, ⟨some value, ⟨1, v⟩⟩)]⟩

def exchanged : World Nat Nat :=
  ((step two (.mergeDelta 1 (delta 2 20))).bind fun w =>
    step w (.mergeDelta 2 (delta 1 10))).getD start

theorem reachable_exchanged : Reachable exchanged := by
  have hone : Reachable one := .tail (a := .set 1 0 10) .refl (show 0 + 1 < 2 ^ 64 by decide) rfl
  have htwo : Reachable two := .tail (a := .set 2 0 20) hone (show 1 + 1 < 2 ^ 64 by decide) rfl
  have hissued : two.issued = (delta 2 20).changes ++ (delta 1 10).changes := by decide +kernel
  refine .tail (a := .mergeDelta 2 (delta 1 10))
    (.tail (a := .mergeDelta 1 (delta 2 20)) htwo ⟨fun c hc => ?_, by decide⟩ rfl)
    ⟨fun c hc => ?_, by decide⟩ rfl
  · rw [hissued]
    exact List.mem_append_left _ hc
  · show c ∈ two.issued
    rw [hissued]
    exact List.mem_append_right _ hc

/-- Two concurrent writes to one key. -/
theorem converge_two : (exchanged.replica 1).entries = (exchanged.replica 2).entries :=
  (converge reachable_exchanged).same_known 1 2 fun _ => by
    show _ ∈ (delta 2 20).changes ++ (delta 1 10).changes ↔
      _ ∈ (delta 1 10).changes ++ (delta 2 20).changes
    rw [List.mem_append, List.mem_append, or_comm]

example : (exchanged.replica 1).get 0 = some 20 := by decide +kernel

end Demo

end P2P333.Platform333.Crdt
