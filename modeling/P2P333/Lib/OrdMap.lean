import Mathlib

/-!
# Ordered maps

Finite maps with ordered keys, as `Std.ExtTreeMap` over `compare`. Keys may be pairs or arrays,
compared lexicographically. This module adds what the map library leaves out: sums over the entries,
how an insertion changes them, and rebuilding a map from the list of its entries.
-/

namespace P2P333.Lib

open Std

/-- Pairs are compared lexicographically. -/
instance instOrdProd {α β : Type*} [Ord α] [Ord β] : Ord (α × β) := lexOrd

section Vector

variable {α : Type*} [Ord α] {n : Nat}

/-- Arrays of one length are compared lexicographically. -/
instance instOrdVector : Ord (List.Vector α n) := ⟨fun v w => compare v.toList w.toList⟩

theorem compare_vector (v w : List.Vector α n) : compare v w = compare v.toList w.toList := rfl

instance instTransOrdVector [TransOrd α] : TransOrd (List.Vector α n) where
  eq_swap {v w} := by rw [compare_vector, compare_vector, OrientedOrd.eq_swap]
  isLE_trans {u v w} huv hvw := by
    rw [compare_vector] at huv hvw ⊢
    exact TransCmp.isLE_trans huv hvw

instance instLawfulEqOrdVector [LawfulEqOrd α] : LawfulEqOrd (List.Vector α n) where
  compare_self {v} := by rw [compare_vector, ReflOrd.compare_self]
  eq_of_compare {v w} h := List.Vector.eq v w (LawfulEqOrd.eq_of_compare h)

end Vector

/-- The arrays that are names and digests. -/
instance instTransOrdBytes32 : TransOrd (List.Vector UInt8 32) := instTransOrdVector

instance instLawfulEqOrdBytes32 : LawfulEqOrd (List.Vector UInt8 32) := instLawfulEqOrdVector

abbrev OrdMap (κ ν : Type) [Ord κ] : Type := ExtTreeMap κ ν compare

variable {κ ν : Type} [Ord κ] [TransOrd κ] [LawfulEqOrd κ]

namespace OrdMap

variable {k : κ}

theorem getElem?_insert_of_ne (m : OrdMap κ ν) {k' : κ} (h : k ≠ k') (v : ν) :
    (m.insert k v)[k']? = m[k']? := by
  rw [ExtTreeMap.getElem?_insert, if_neg (by simpa using h)]

variable {m : OrdMap κ ν} {v : ν}

theorem getElem?_filter_eq_some {p : κ → ν → Bool} :
    (m.filter p)[k]? = some v ↔ m[k]? = some v ∧ p k v = true := by
  rw [ExtTreeMap.getElem?_filter', Option.filter_eq_some_iff]

theorem nodup_toList (m : OrdMap κ ν) : m.toList.Nodup := by
  have h := ExtTreeMap.distinct_keys_toList (t := m)
  exact h.imp fun hne he => hne (by rw [he]; exact ReflCmp.compare_self)

/-! ## Sums over the entries -/

/-- The sum of `f` over the values of `m`. -/
def sumBy (f : ν → Nat) (m : OrdMap κ ν) : Nat := (m.toList.map fun e => f e.2).sum

theorem toList_insert_perm (m : OrdMap κ ν) (k : κ) (v : ν) :
    (m.insert k v).toList.Perm ((k, v) :: (m.erase k).toList) := by
  rw [List.perm_ext_iff_of_nodup (nodup_toList _)]
  · rintro ⟨k', v'⟩
    rw [List.mem_cons, ExtTreeMap.mem_toList_iff_getElem?_eq_some,
      ExtTreeMap.mem_toList_iff_getElem?_eq_some, ExtTreeMap.getElem?_insert,
      ExtTreeMap.getElem?_erase]
    by_cases h : k = k'
    · subst h
      simp [eq_comm]
    · simp [h, Ne.symm h]
  · refine List.nodup_cons.mpr ⟨?_, nodup_toList _⟩
    rw [ExtTreeMap.mem_toList_iff_getElem?_eq_some]
    simp

theorem erase_insert_perm (m : OrdMap κ ν) (h : m[k]? = some v) :
    m.toList.Perm ((k, v) :: (m.erase k).toList) := by
  have hm : m.insert k v = m := by
    apply ExtTreeMap.ext_getElem?
    intro k'
    by_cases hk : k = k'
    · subst hk
      rw [ExtTreeMap.getElem?_insert_self, h]
    · rw [getElem?_insert_of_ne m hk]
  have hp := toList_insert_perm m k v
  rwa [hm] at hp

theorem erase_of_getElem?_eq_none (h : m[k]? = none) : m.erase k = m := by
  apply ExtTreeMap.ext_getElem?
  intro k'
  rw [ExtTreeMap.getElem?_erase]
  split
  · next he => rw [← LawfulEqCmp.eq_of_compare he, h]
  · rfl

omit [LawfulEqOrd κ] in
theorem sumBy_perm {f : ν → Nat} {l : List (κ × ν)} (h : m.toList.Perm l) :
    sumBy f m = (l.map fun e => f e.2).sum :=
  (h.map _).sum_eq

/-- An insertion adds the new value and takes away the value it replaces. -/
theorem sumBy_insert (f : ν → Nat) (m : OrdMap κ ν) (k : κ) (v : ν) :
    sumBy f (m.insert k v) + (m[k]?.elim 0 f) = sumBy f m + f v := by
  rw [sumBy_perm (toList_insert_perm m k v)]
  cases h : m[k]? with
  | none => simp [erase_of_getElem?_eq_none h, sumBy]; omega
  | some w => rw [sumBy_perm (erase_insert_perm m h)]; simp; omega

theorem le_sumBy (f : ν → Nat) (h : m[k]? = some v) : f v ≤ sumBy f m := by
  rw [sumBy_perm (erase_insert_perm m h)]
  simp

/-- A removal takes away the value that was there. -/
theorem sumBy_erase (f : ν → Nat) (h : m[k]? = some v) : sumBy f (m.erase k) + f v = sumBy f m := by
  rw [sumBy_perm (erase_insert_perm m h), List.map_cons, List.sum_cons, sumBy, Nat.add_comm]

theorem modify_eq_insert (h : m[k]? = some v) (f : ν → ν) : m.modify k f = m.insert k (f v) := by
  apply ExtTreeMap.ext_getElem?
  intro k'
  rw [ExtTreeMap.getElem?_modify, ExtTreeMap.getElem?_insert, h, Option.map_some]

/-- A change of one value. -/
theorem sumBy_modify (f : ν → Nat) (h : m[k]? = some v) (g : ν → ν) :
    sumBy f (m.modify k g) + f v = sumBy f m + f (g v) := by
  have hinsert := sumBy_insert f m k (g v)
  rwa [h, Option.elim_some, ← modify_eq_insert h] at hinsert

omit [LawfulEqOrd κ] in
/-- A change of all values. -/
theorem sumBy_map (f : ν → Nat) (g : ν → ν) (m : OrdMap κ ν) :
    sumBy f (m.map fun _ => g) = sumBy (fun v => f (g v)) m := by
  rw [sumBy, sumBy, ExtTreeMap.toList_map, List.map_map]
  rfl

theorem sumBy_congr_add {f g h : ν → Nat}
    (heq : ∀ (k : κ) (v : ν), m[k]? = some v → f v = g v + h v) :
    sumBy f m = sumBy g m + sumBy h m := by
  rw [sumBy, sumBy, sumBy, ← List.sum_map_add]
  exact congrArg List.sum (List.map_congr_left fun e he =>
    heq e.1 e.2 (ExtTreeMap.mem_toList_iff_getElem?_eq_some.mp he))

theorem sumBy_eq_zero {f : ν → Nat} (h : ∀ (k : κ) (v : ν), m[k]? = some v → f v = 0) :
    sumBy f m = 0 := by
  refine List.sum_eq_zero fun n hn => ?_
  obtain ⟨e, he, rfl⟩ := List.mem_map.mp hn
  exact h e.1 e.2 (ExtTreeMap.mem_toList_iff_getElem?_eq_some.mp he)

/-- Two different keys together contribute at most the whole sum. -/
theorem add_le_sumBy (f : ν → Nat) {k' : κ} {v' : ν} (hne : k ≠ k')
    (h : m[k]? = some v) (h' : m[k']? = some v') : f v + f v' ≤ sumBy f m := by
  have he : (m.erase k)[k']? = some v' := by
    rw [ExtTreeMap.getElem?_erase, if_neg (by simpa using hne), h']
  have hrest := le_sumBy f he
  rw [sumBy_perm (erase_insert_perm m h)]
  simp only [List.map_cons, List.sum_cons]
  unfold sumBy at hrest
  omega

/-! ## Rebuilding a map from its entries -/

section Rebuild

variable [DecidableEq κ]

/-- The map of a list of entries; a later entry replaces an earlier one with the same key. -/
def ofEntries (l : List (κ × ν)) : OrdMap κ ν := ExtTreeMap.ofList l compare

variable {l : List (κ × ν)}

/-- The entries of a map rebuild it, in whatever order they are listed. -/
theorem ofEntries_of_perm {m : OrdMap κ ν} (h : l.Perm m.toList) : ofEntries l = m := by
  have hdistinct : l.Pairwise fun a b => ¬ compare a.1 b.1 = .eq :=
    (h.pairwise_iff (fun hab he => hab (OrientedCmp.eq_symm he))).mpr
      ExtTreeMap.distinct_keys_toList
  apply ExtTreeMap.ext_getElem?
  intro k
  cases hk : m[k]? with
  | some v =>
    exact ExtTreeMap.getElem?_ofList_of_mem ReflCmp.compare_self hdistinct
      (h.mem_iff.mpr (ExtTreeMap.mem_toList_iff_getElem?_eq_some.mpr hk))
  | none =>
    refine ExtTreeMap.getElem?_ofList_of_contains_eq_false ?_
    rw [Bool.eq_false_iff, ne_eq, List.contains_iff_mem, List.mem_map]
    rintro ⟨⟨k', v⟩, hmem, rfl⟩
    have := ExtTreeMap.mem_toList_iff_getElem?_eq_some.mp (h.mem_iff.mp hmem)
    rw [hk] at this
    cases this

/-- Values that carry their own key rebuild the map they came from. -/
theorem ofEntries_map_values {m : OrdMap κ ν} {key : ν → κ}
    (hkey : ∀ k v, m[k]? = some v → key v = k) :
    ofEntries ((m.toList.map Prod.snd).map fun v => (key v, v)) = m := by
  refine ofEntries_of_perm (List.Perm.of_eq ?_)
  rw [List.map_map]
  conv_rhs => rw [← List.map_id m.toList]
  refine List.map_congr_left ?_
  rintro ⟨k, v⟩ he
  simp only [Function.comp_apply, id_eq]
  rw [hkey k v (ExtTreeMap.mem_toList_iff_getElem?_eq_some.mp he)]

/-- A map built from entries has no others. -/
theorem mem_of_ofEntries {k : κ} {v : ν} (h : (ofEntries l)[k]? = some v) : (k, v) ∈ l := by
  unfold ofEntries at h
  rw [ExtTreeMap.ofList_eq_insertMany_empty, ExtTreeMap.getElem?_insertMany_list] at h
  simp only [ExtTreeMap.getElem?_empty, Option.or_none,
    List.findSomeRev?_eq_findSome?_reverse] at h
  obtain ⟨⟨k', v'⟩, he, hv⟩ := List.exists_of_findSome?_eq_some h
  split at hv
  · next hc =>
    cases hv
    rw [← LawfulEqCmp.eq_of_compare hc]
    exact List.mem_reverse.mp he
  · cases hv

/-- Every value of a map built from values that carry their own key sits at its key. -/
theorem key_of_ofEntries {key : ν → κ} {vs : List ν} {k : κ} {v : ν}
    (h : (ofEntries (vs.map fun v => (key v, v)))[k]? = some v) : key v = k := by
  obtain ⟨w, -, he⟩ := List.mem_map.mp (mem_of_ofEntries h)
  cases he
  rfl

/-- The entries of a map that is built from a list are the list only if its keys ascend. -/
theorem toList_ofEntries :
    (ofEntries l).toList = l ↔ l.Pairwise fun a b => compare a.1 b.1 = .lt := by
  constructor
  · intro h
    rw [← h]
    exact ExtTreeMap.ordered_keys_toList
  · intro h
    have hdistinct : l.Pairwise fun a b => ¬ compare a.1 b.1 = .eq :=
      h.imp fun hlt heq => by rw [hlt] at heq; cases heq
    have hnodup : l.Nodup := hdistinct.imp fun hne heq => hne (by
      rw [heq]
      exact ReflCmp.compare_self)
    have hperm : (ofEntries l).toList.Perm l := by
      rw [List.perm_ext_iff_of_nodup (nodup_toList _) hnodup]
      rintro ⟨k, v⟩
      rw [ExtTreeMap.mem_toList_iff_getElem?_eq_some]
      exact ⟨mem_of_ofEntries, fun hmem =>
        ExtTreeMap.getElem?_ofList_of_mem ReflCmp.compare_self hdistinct hmem⟩
    refine hperm.eq_of_pairwise (fun a b _ _ hab hba => ?_) ExtTreeMap.ordered_keys_toList h
    have hswap : compare a.1 b.1 = (compare b.1 a.1).swap := OrientedOrd.eq_swap
    rw [hswap, hba] at hab
    cases hab

end Rebuild

end OrdMap

end P2P333.Lib
