import P2P333.Lib.Ascending

/-!
# Combinators of replicated values

`333-crdt/src/traits.rs`, `lww.rs`, `scalar.rs` and `map.rs`: values with a merge, and the
registers, tombstones and maps made of them. The vectors of the maps are ascending by key, which is
a field here.

Results:
1. `LawfulCrdt (Lww V)`, `LawfulCrdt (Deletable V)`, `LawfulCrdt (Map K V)`, `LawfulCrdt (LwwMap K
   V)`: the laws of the values carry over.
2. `Map.get_merge`, `LwwMap.getWithTs_merge`: what a key has after a merge.
3. `combinators_lawful`: both for all values and keys.
-/

namespace P2P333.Crdt333

open Lib

variable {K V T : Type*}

/-- `merge self other` is what `self` becomes. -/
class Crdt (T : Type*) where
  merge : T → T → T

open Crdt (merge)

class LawfulCrdt (T : Type*) [Crdt T] : Prop where
  comm (a b : T) : merge a b = merge b a
  assoc (a b c : T) : merge (merge a b) c = merge a (merge b c)
  idem (a : T) : merge a a = a

open LawfulCrdt (comm assoc idem)

section Laws

variable [Crdt T] [LawfulCrdt T]

instance : Std.Commutative (merge : T → T → T) := ⟨comm⟩
instance : Std.Associative (merge : T → T → T) := ⟨assoc⟩
instance : Std.IdempotentOp (merge : T → T → T) := ⟨idem⟩

end Laws

/-! ## Plain values -/

class AutoCrdt (T : Type*) extends LinearOrder T

instance [AutoCrdt T] : Crdt T := ⟨fun self other => if self < other then other else self⟩

theorem merge_eq_max [AutoCrdt T] (a b : T) : merge a b = max a b := (max_def_lt a b).symm

instance [AutoCrdt T] : LawfulCrdt T where
  comm a b := by rw [merge_eq_max, merge_eq_max, max_comm]
  assoc a b c := by rw [merge_eq_max, merge_eq_max, merge_eq_max, merge_eq_max, max_assoc]
  idem a := by rw [merge_eq_max, max_self]

instance : AutoCrdt String := {}

/-- Different values collapse to `none`. -/
instance [DecidableEq T] : Crdt (Option T) :=
  ⟨fun self other => if self ≠ other then none else self⟩

theorem merge_option [DecidableEq T] (a b : Option T) : merge a b = if a = b then a
    else none := ite_not ..

instance [DecidableEq T] : LawfulCrdt (Option T) where
  comm a b := by
    rw [merge_option, merge_option]
    split_ifs with hab hba hba
    · exact hab
    · exact absurd hab.symm hba
    · exact absurd hba.symm hab
    · rfl
  assoc a b c := by
    simp only [merge_option]
    grind
  idem a := by rw [merge_option, if_pos rfl]

/-! ## Registers -/

section Newer

variable [Crdt V] {a b c : UInt64 × V}

/-- The larger timestamp wins, equal timestamps merge the values. -/
def newer (a b : UInt64 × V) : UInt64 × V :=
  match compare a.1 b.1 with
  | .lt => b
  | .gt => a
  | .eq => (a.1, merge a.2 b.2)

theorem newer_of_lt (h : a.1.toNat < b.1.toNat) : newer a b = b := by
  have hcompare : compare a.1 b.1 = .lt := Std.compare_eq_lt.mpr (UInt64.lt_iff_toNat_lt.mpr h)
  rw [newer, hcompare]

theorem newer_of_gt (h : b.1.toNat < a.1.toNat) : newer a b = a := by
  have hcompare : compare a.1 b.1 = .gt := Std.compare_eq_gt.mpr (UInt64.lt_iff_toNat_lt.mpr h)
  rw [newer, hcompare]

theorem newer_of_eq (h : a.1.toNat = b.1.toNat) : newer a b = (a.1, merge a.2 b.2) := by
  have hcompare : compare a.1 b.1 = .eq := Std.compare_eq_iff_eq.mpr (UInt64.toNat_inj.mp h)
  rw [newer, hcompare]

/-- The timestamp of the newer one. -/
theorem newer_ts (a b : UInt64 × V) : (newer a b).1.toNat = max a.1.toNat b.1.toNat := by
  rcases lt_trichotomy a.1.toNat b.1.toNat with h | h | h
  · rw [newer_of_lt h, max_eq_right h.le]
  · rw [newer_of_eq h, ← h, max_self]
  · rw [newer_of_gt h, max_eq_left h.le]

theorem newer_comm [LawfulCrdt V] (a b : UInt64 × V) : newer a b = newer b a := by
  rcases lt_trichotomy a.1.toNat b.1.toNat with h | h | h
  · rw [newer_of_lt h, newer_of_gt h]
  · rw [newer_of_eq h, newer_of_eq h.symm, UInt64.toNat_inj.mp h, comm a.2 b.2]
  · rw [newer_of_gt h, newer_of_lt h]

theorem newer_assoc [LawfulCrdt V] (a b c : UInt64 × V) : newer (newer a b) c = newer a
    (newer b c) := by
  have hright := newer_ts b c
  rcases lt_trichotomy a.1.toNat b.1.toNat with hab | hab | hab
  · rw [newer_of_lt hab]
    exact (newer_of_lt (by omega)).symm
  · rcases lt_trichotomy b.1.toNat c.1.toNat with hbc | hbc | hbc
    · rw [newer_of_lt hbc, newer_of_lt (show a.1.toNat < c.1.toNat by omega)]
      exact newer_of_lt (by rw [newer_ts]; omega)
    · have hac : (newer a b).1.toNat = c.1.toNat := by rw [newer_ts]; omega
      have hbc' : a.1.toNat = (newer b c).1.toNat := by omega
      rw [newer_of_eq hac, newer_of_eq hbc', newer_of_eq hab, newer_of_eq hbc, assoc]
    · rw [newer_of_gt hbc, newer_of_gt (by rw [newer_ts]; omega)]
  · rw [newer_of_gt hab]
    rcases lt_trichotomy b.1.toNat c.1.toNat with hbc | hbc | hbc
    · rw [newer_of_lt hbc]
    · rw [newer_of_gt (show c.1.toNat < a.1.toNat by omega)]
      exact (newer_of_gt (by omega)).symm
    · rw [newer_of_gt hbc, newer_of_gt hab, newer_of_gt (by omega)]

theorem newer_self [LawfulCrdt V] (a : UInt64 × V) : newer a a = a := by
  rw [newer_of_eq rfl, idem]

instance [LawfulCrdt V] : Std.Commutative (newer : UInt64 × V → UInt64 × V → UInt64 × V) :=
  ⟨newer_comm⟩
instance [LawfulCrdt V] : Std.Associative (newer : UInt64 × V → UInt64 × V → UInt64 × V) :=
  ⟨newer_assoc⟩
instance [LawfulCrdt V] : Std.IdempotentOp (newer : UInt64 × V → UInt64 × V → UInt64 × V) :=
  ⟨newer_self⟩

end Newer

structure Lww (V : Type*) where
  ts : UInt64
  v : V

namespace Lww

def timestamp (r : Lww V) : UInt64 := r.ts

def get (r : Lww V) : V := r.v

instance [Crdt V] : Crdt (Lww V) where
  merge self other := match compare self.ts other.ts with
    | .lt => ⟨other.ts, other.v⟩
    | .eq => ⟨self.ts, merge self.v other.v⟩
    | .gt => self

/-- A register as a pair. -/
def pair (r : Lww V) : UInt64 × V := (r.timestamp, r.get)

theorem pair_injective : Function.Injective (pair (V := V)) := fun ⟨_, _⟩ ⟨_, _⟩ h => by
  cases h
  rfl

theorem pair_merge [Crdt V] (a b : Lww V) : (merge a b).pair = newer a.pair b.pair := by
  change (match compare a.ts b.ts with
    | .lt => (⟨b.ts, b.v⟩ : Lww V)
    | .eq => ⟨a.ts, merge a.v b.v⟩
    | .gt => a).pair = match compare a.ts b.ts with
    | .lt => b.pair
    | .gt => a.pair
    | .eq => (a.ts, merge a.v b.v)
  cases compare a.ts b.ts <;> rfl

instance [Crdt V] [LawfulCrdt V] : LawfulCrdt (Lww V) where
  comm a b := pair_injective (by rw [pair_merge, pair_merge, newer_comm])
  assoc a b c :=
    pair_injective (by rw [pair_merge, pair_merge, pair_merge, pair_merge, newer_assoc])
  idem a := pair_injective (by rw [pair_merge, newer_self])

end Lww

/-! ## Tombstones -/

/-- A value that may be deleted for good. -/
inductive Deletable (T : Type*) where
  | present (v : T)
  | deleted

namespace Deletable

instance [Crdt T] : Crdt (Deletable T) where
  merge
    | deleted, _ => deleted
    | present _, deleted => deleted
    | present v, present v2 => present (merge v v2)

theorem merge_present [Crdt T] (v v2 : T) : merge (present v) (present v2) = present
    (merge v v2) := rfl

instance [Crdt T] [LawfulCrdt T] : LawfulCrdt (Deletable T) where
  comm a b := by
    cases a with
    | deleted => cases b <;> rfl
    | present v =>
      cases b with
      | deleted => rfl
      | present v2 => rw [merge_present, merge_present, comm v v2]
  assoc a b c := by
    cases a with
    | deleted => rfl
    | present v =>
      cases b with
      | deleted => rfl
      | present v2 =>
        cases c with
        | deleted => rfl
        | present v3 =>
          rw [merge_present, merge_present, merge_present, merge_present, assoc v v2 v3]
  idem a := by
    cases a with
    | deleted => rfl
    | present v => rw [merge_present, idem v]

end Deletable

/-! ## Maps -/

structure Map (K V : Type*) [LinearOrder K] where
  vals : List (K × V)
  ascending : Entries.Ascending vals

namespace Map

variable [LinearOrder K] {a b : Map K V} {k : K} {v : V}

theorem ext (h : a.vals = b.vals) : a = b := by
  cases a
  cases b
  cases h
  rfl

instance [Crdt V] : Crdt (Map K V) where
  merge self other :=
    ⟨Entries.mergeWith merge self.vals other.vals, self.ascending.mergeWith other.ascending⟩

def get (m : Map K V) (k : K) : Option V := Entries.find m.vals k

def items (m : Map K V) : List (K × V) := m.vals

theorem get_eq_some : a.get k = some v ↔ (k, v) ∈ a.items := Entries.find_eq_some a.ascending

theorem get_merge [Crdt V] (a b : Map K V) (k : K) :
    (merge a b).get k = Option.merge merge (a.get k) (b.get k) :=
  Entries.find_mergeWith a.ascending b.ascending k

instance [Crdt V] [LawfulCrdt V] : LawfulCrdt (Map K V) where
  comm a b := ext (Entries.mergeWith_comm a.ascending b.ascending)
  assoc a b c := ext (Entries.mergeWith_assoc a.ascending b.ascending c.ascending)
  idem a := ext (Entries.mergeWith_self a.ascending)

end Map

/-! ## Maps of registers -/

structure LwwMap (K V : Type*) [LinearOrder K] where
  vals : List (K × UInt64 × V)
  ascending : Entries.Ascending vals

namespace LwwMap

variable [LinearOrder K] {a b : LwwMap K V} {k : K} {ts : UInt64} {v : V}

theorem ext (h : a.vals = b.vals) : a = b := by
  cases a
  cases b
  cases h
  rfl

def new : LwwMap K V := ⟨[], List.Pairwise.nil⟩

def rawItem (k : K) (ts : UInt64) (v : V) : LwwMap K V :=
  ⟨[(k, ts, v)], List.pairwise_singleton _ _⟩

def getWithTs (m : LwwMap K V) (k : K) : Option (UInt64 × V) := Entries.find m.vals k

def get (m : LwwMap K V) (k : K) : Option V := (Entries.find m.vals k).map Prod.snd

def items (m : LwwMap K V) : List (K × UInt64 × V) := m.vals

instance [Crdt V] : Crdt (LwwMap K V) where
  merge self other :=
    ⟨Entries.mergeWith newer self.vals other.vals, self.ascending.mergeWith other.ascending⟩

def put [Crdt V] (m : LwwMap K V) (k : K) (ts : UInt64) (v : V) : LwwMap K V :=
  merge m (rawItem k ts v)

theorem getWithTs_eq_some : a.getWithTs k = some (ts, v) ↔ (k, ts, v) ∈ a.items :=
  Entries.find_eq_some a.ascending

theorem getWithTs_merge [Crdt V] (a b : LwwMap K V) (k : K) :
    (merge a b).getWithTs k = Option.merge newer (a.getWithTs k) (b.getWithTs k) :=
  Entries.find_mergeWith a.ascending b.ascending k

instance [Crdt V] [LawfulCrdt V] : LawfulCrdt (LwwMap K V) where
  comm a b := ext (Entries.mergeWith_comm a.ascending b.ascending)
  assoc a b c := ext (Entries.mergeWith_assoc a.ascending b.ascending c.ascending)
  idem a := ext (Entries.mergeWith_self a.ascending)

end LwwMap

/-! ## All combinators -/

/-- The entries are those that are found, in strictly ascending order of their keys, and those of a
merge are the joined ones. -/
structure Keyed {M E : Type*} [LinearOrder K] [Crdt M] (items : M → List (K × E))
    (get : M → K → Option E)
    (join : E → E → E) : Prop where
  ascending (m : M) : (items m).Pairwise (·.1 < ·.1)
  found (m : M) (k : K) (e : E) : get m k = some e ↔ (k, e) ∈ items m
  joined (a b : M) (k : K) : get (merge a b) k = Option.merge join (get a k) (get b k)

theorem combinators_lawful (K V : Type*) [LinearOrder K] [Crdt V] [LawfulCrdt V] :
    LawfulCrdt (Lww V) ∧ LawfulCrdt (Deletable V) ∧ LawfulCrdt (Map K V) ∧ LawfulCrdt (LwwMap K V) ∧
    Keyed (K := K) (M := Map K V) Map.items Map.get merge ∧
    Keyed (K := K) (M := LwwMap K V) LwwMap.items LwwMap.getWithTs newer ∧
    ∀ (m : LwwMap K V) (k : K), m.get k = (m.getWithTs k).map Prod.snd :=
  ⟨inferInstance, inferInstance, inferInstance, inferInstance,
    ⟨Map.ascending, fun _ _ _ => Map.get_eq_some, Map.get_merge⟩,
    ⟨LwwMap.ascending, fun _ _ _ => LwwMap.getWithTs_eq_some, LwwMap.getWithTs_merge⟩,
      fun _ _ => rfl⟩

/-- Maps of maps of registers of texts. -/
theorem combinators_lawful_nested : LawfulCrdt (Map String (LwwMap String String)) ∧
    Keyed (K := String) (M := Map String (LwwMap String String)) Map.items Map.get merge := by
  obtain ⟨-, -, hmap, -, hkeyed, -, -⟩ := combinators_lawful String (LwwMap String String)
  exact ⟨hmap, hkeyed⟩

end P2P333.Crdt333
