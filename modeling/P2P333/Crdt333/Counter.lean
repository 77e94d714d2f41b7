import P2P333.Lib.Checked
import P2P333.Lib.MaxMap
import P2P333.Crdt333.Combinators
import P2P333.Crdt333.Rcb

/-!
# Counters

`333-crdt/src/counter.rs`: a counter that goes up and down, as two maps of maxima. The sums of
`value` are over fewer than `2 ^ 63` replicas, so that they fit their `i128`.

Results:
1. `LawfulCrdt PNCounter`: the laws of the merge.
2. `count_bump_self`, `count_bump_of_ne`: an update changes the number of its own replica only, and
   stops at the largest `u64`.
3. `value_eq_sum`: the value, from the numbers of all who may have one.
-/

namespace P2P333.Crdt333

open Std Lib Transfer333
open Crdt (merge)

/-- The largest `u64`. -/
def cap : Nat := 2 ^ 64 - 1

@[ext] structure PNCounter where
  p : OrdMap ReplicaId U64
  n : OrdMap ReplicaId U64

namespace PNCounter

-- A side of a counter is a map like that of a version vector, whose equality is decided already.
instance instDecidableEq : DecidableEq PNCounter := fun c d =>
  decidable_of_iff (VersionVector.mk c.p = ⟨d.p⟩ ∧ VersionVector.mk c.n = ⟨d.n⟩) (by
    rw [VersionVector.mk.injEq, VersionVector.mk.injEq, PNCounter.ext_iff])

def new : PNCounter := ⟨∅, ∅⟩

/-- What `increment` does to `p` and `decrement` to `n`. -/
def bump (m : OrdMap ReplicaId U64) (replica : ReplicaId) (delta : U64) : OrdMap ReplicaId U64 :=
  m.insert replica (saturatingAdd (m[replica]?.getD 0) delta)

def increment (c : PNCounter) (replica : ReplicaId) (delta : U64) : PNCounter :=
  { c with p := bump c.p replica delta }

def decrement (c : PNCounter) (replica : ReplicaId) (delta : U64) : PNCounter :=
  { c with n := bump c.n replica delta }

/-- Value = ΣP - ΣN. -/
def value (c : PNCounter) : Int := OrdMap.sumBy BitVec.toNat c.p - OrdMap.sumBy BitVec.toNat c.n

instance instCrdt : Crdt PNCounter where
  merge self other := ⟨self.p.mergeMax other.p, self.n.mergeMax other.n⟩

theorem merge_eq (c d : PNCounter) : merge c d = ⟨c.p.mergeMax d.p, c.n.mergeMax d.n⟩ := rfl

instance instLawfulCrdt : LawfulCrdt PNCounter where
  comm c d := by rw [merge_eq, merge_eq, OrdMap.mergeMax_comm c.p, OrdMap.mergeMax_comm c.n]
  assoc c d e := by simp only [merge_eq, OrdMap.mergeMax_assoc]
  idem c := by rw [merge_eq, OrdMap.mergeMax_self, OrdMap.mergeMax_self]

section

variable (m : OrdMap ReplicaId U64)

theorem count_bump_self (r : ReplicaId) (d : U64) :
    (bump m r d).count r = min cap (m.count r + d.toNat) := by
  rw [bump, OrdMap.count_insert_self, toNat_saturatingAdd]
  rfl

theorem count_bump_of_ne {r r' : ReplicaId} (h : r ≠ r') (d : U64) :
    (bump m r d).count r' = m.count r' := OrdMap.count_insert_of_ne m h _

theorem count_le_cap (r : ReplicaId) : m.count r ≤ cap :=
  Nat.le_sub_one_of_lt (BitVec.isLt _)

/-- An update only raises a number, so the map before it leaves no trace in the map after it. -/
theorem mergeMax_bump (r : ReplicaId) (d : U64) : m.mergeMax (bump m r d) = bump m r d := by
  refine ExtTreeMap.ext_getElem? fun k => ?_
  rw [OrdMap.getElem?_mergeMax]
  by_cases hk : r = k
  · subst hk
    rw [bump, ExtTreeMap.getElem?_insert_self]
    cases hm : m[r]? with
    | none => rfl
    | some v =>
      have hle : v.toNat ≤ (saturatingAdd v d).toNat := by
        rw [toNat_saturatingAdd]
        exact Nat.le_min.mpr ⟨Nat.le_sub_one_of_lt v.isLt, Nat.le_add_right _ _⟩
      simp only [OrdMap.maxEntry, Option.getD_some]
      split_ifs with hlt
      · rfl
      · exact congrArg some (BitVec.eq_of_toNat_eq (Nat.le_antisymm hle
          (BitVec.le_def.mp (BitVec.not_lt.mp hlt))))
  · rw [bump, OrdMap.getElem?_insert_of_ne m hk]
    cases m[k]? with
    | none => rfl
    | some v => exact OrdMap.maxEntry_self (some v)

end

/-- The value, from the numbers of all who may have one. -/
theorem value_eq_sum {c : PNCounter} {ids : List ReplicaId} (hids : ids.Nodup)
    (hp : ∀ r, 0 < c.p.count r → r ∈ ids) (hn : ∀ r, 0 < c.n.count r → r ∈ ids) :
    c.value = (ids.map c.p.count).sum - (ids.map c.n.count).sum := by
  rw [value, OrdMap.sumBy_eq_sum_count hids hp, OrdMap.sumBy_eq_sum_count hids hn]

end PNCounter

end P2P333.Crdt333
