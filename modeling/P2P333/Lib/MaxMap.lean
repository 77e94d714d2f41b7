import P2P333.Lib.OrdMap

/-!
# Maps of maxima

Ordered maps whose values are words, where merging takes the larger value at every key and a missing
key counts as zero: the state of a grow-only counter. The merge is a semilattice with the empty map
as its bottom.
-/

namespace P2P333.Lib

open Std

variable {κ : Type} [Ord κ] [TransOrd κ] [LawfulEqOrd κ] {w : Nat}

namespace OrdMap

/-- `let e = entry(k).or_insert(0); if v > e { e = v }`. -/
def raiseEntry (m : OrdMap κ (BitVec w)) (e : κ × BitVec w) : OrdMap κ (BitVec w) :=
  m.insert e.1 (if m[e.1]?.getD 0 < e.2 then e.2 else m[e.1]?.getD 0)

/-- The entries of `m'` are raised in `m` one after the other. -/
def mergeMax (m m' : OrdMap κ (BitVec w)) : OrdMap κ (BitVec w) := m'.toList.foldl raiseEntry m

/-- The number at `k`, zero where there is none. -/
def count (m : OrdMap κ (BitVec w)) (k : κ) : Nat := (m[k]?.getD 0).toNat

/-- The larger of two entries. -/
def maxEntry : Option (BitVec w) → Option (BitVec w) → Option (BitVec w)
  | none, o => o
  | some v, none => some v
  | some v, some v' => some (if v < v' then v' else v)

section Entry

variable {a b c : Option (BitVec w)}

theorem maxEntry_none (a : Option (BitVec w)) : maxEntry a none = a := by cases a <;> rfl

theorem maxEntry_comm (a b : Option (BitVec w)) : maxEntry a b = maxEntry b a := by
  cases a with
  | none => exact (maxEntry_none b).symm
  | some v =>
    cases b with
    | none => rfl
    | some v' =>
      simp only [maxEntry, Option.some.injEq]
      split_ifs <;> bv_omega

theorem maxEntry_assoc (a b c : Option (BitVec w)) :
    maxEntry (maxEntry a b) c = maxEntry a (maxEntry b c) := by
  cases a <;> cases b <;> cases c <;> simp only [maxEntry]
  simp only [Option.some.injEq]
  split_ifs <;> bv_omega

theorem maxEntry_self (a : Option (BitVec w)) : maxEntry a a = a := by
  cases a with
  | none => rfl
  | some v => simp [maxEntry]

theorem toNat_maxEntry (a b : Option (BitVec w)) :
    ((maxEntry a b).getD 0).toNat = max (a.getD 0).toNat (b.getD 0).toNat := by
  cases a with
  | none => simp [maxEntry]
  | some v =>
    cases b with
    | none => simp [maxEntry]
    | some v' =>
      simp only [maxEntry, Option.getD_some]
      split_ifs with h
      · exact (max_eq_right (Nat.le_of_lt (BitVec.lt_def.mp h))).symm
      · exact (max_eq_left (BitVec.le_def.mp (BitVec.not_lt.mp h))).symm

end Entry

omit [LawfulEqOrd κ] in
theorem getElem?_raiseEntry_self (m : OrdMap κ (BitVec w)) (e : κ × BitVec w) :
    (raiseEntry m e)[e.1]? = maxEntry m[e.1]? (some e.2) := by
  rw [raiseEntry, ExtTreeMap.getElem?_insert_self]
  cases m[e.1]? with
  | none =>
    simp only [Option.getD_none, maxEntry, Option.some.injEq]
    split_ifs with h
    · rfl
    · have hzero : (0 : BitVec w).toNat = 0 := BitVec.toNat_zero
      rw [BitVec.lt_def, hzero, Nat.not_lt, Nat.le_zero] at h
      exact BitVec.eq_of_toNat_eq (hzero.trans h.symm)
  | some v => rfl

theorem getElem?_raiseEntry_of_ne (m : OrdMap κ (BitVec w)) {e : κ × BitVec w} {k : κ}
    (h : e.1 ≠ k) : (raiseEntry m e)[k]? = m[k]? := getElem?_insert_of_ne _ h _

theorem getElem?_foldl_raiseEntry {l : List (κ × BitVec w)} (hl : (l.map Prod.fst).Nodup)
    (m : OrdMap κ (BitVec w)) (k : κ) :
    (∀ v, (k, v) ∈ l → (l.foldl raiseEntry m)[k]? = maxEntry m[k]? (some v)) ∧
      (k ∉ l.map Prod.fst → (l.foldl raiseEntry m)[k]? = m[k]?) := by
  induction l generalizing m with
  | nil => exact ⟨fun v hv => absurd hv List.not_mem_nil, fun _ => rfl⟩
  | cons e l ih =>
    obtain ⟨hhead, htail⟩ := List.nodup_cons.mp hl
    obtain ⟨hmem, hnotMem⟩ := ih htail (raiseEntry m e)
    refine ⟨fun v hv => ?_, fun hk => ?_⟩
    · rcases List.mem_cons.mp hv with rfl | hv
      · rw [List.foldl_cons, hnotMem hhead, getElem?_raiseEntry_self m (k, v)]
      · have hne : e.1 ≠ k := fun h => hhead (h ▸ List.mem_map_of_mem hv)
        rw [List.foldl_cons, hmem v hv, getElem?_raiseEntry_of_ne m hne]
    · obtain ⟨hne, hk⟩ := not_or.mp (fun h => hk (List.mem_cons.mpr h))
      rw [List.foldl_cons, hnotMem hk, getElem?_raiseEntry_of_ne m (Ne.symm hne)]

theorem nodup_keys (m : OrdMap κ (BitVec w)) : (m.toList.map Prod.fst).Nodup := by
  refine List.pairwise_map.mpr ((ExtTreeMap.distinct_keys_toList (t := m)).imp ?_)
  rintro e e' hne heq
  exact hne (by rw [heq]; exact ReflCmp.compare_self)

@[simp] theorem getElem?_mergeMax (m m' : OrdMap κ (BitVec w)) (k : κ) :
    (mergeMax m m')[k]? = maxEntry m[k]? m'[k]? := by
  obtain ⟨hmem, hnotMem⟩ := getElem?_foldl_raiseEntry (nodup_keys m') m k
  cases hk : m'[k]? with
  | none =>
    rw [maxEntry_none]
    refine hnotMem fun h => ?_
    obtain ⟨e, he, rfl⟩ := List.mem_map.mp h
    rw [ExtTreeMap.mem_toList_iff_getElem?_eq_some.mp he] at hk
    cases hk
  | some v => exact hmem v (ExtTreeMap.mem_toList_iff_getElem?_eq_some.mpr hk)

variable {m m' m'' : OrdMap κ (BitVec w)} {k : κ}

theorem mergeMax_comm (m m' : OrdMap κ (BitVec w)) : mergeMax m m' = mergeMax m' m :=
  ExtTreeMap.ext_getElem? fun k => by
    rw [getElem?_mergeMax, getElem?_mergeMax, maxEntry_comm]

theorem mergeMax_assoc (m m' m'' : OrdMap κ (BitVec w)) :
    mergeMax (mergeMax m m') m'' = mergeMax m (mergeMax m' m'') :=
  ExtTreeMap.ext_getElem? fun k => by simp only [getElem?_mergeMax, maxEntry_assoc]

theorem mergeMax_self (m : OrdMap κ (BitVec w)) : mergeMax m m = m :=
  ExtTreeMap.ext_getElem? fun k => by rw [getElem?_mergeMax, maxEntry_self]

theorem count_mergeMax (m m' : OrdMap κ (BitVec w)) (k : κ) :
    (mergeMax m m').count k = max (m.count k) (m'.count k) := by
  rw [count, getElem?_mergeMax, toNat_maxEntry]
  rfl

omit [LawfulEqOrd κ] in
theorem count_insert_self (m : OrdMap κ (BitVec w)) (k : κ) (v : BitVec w) :
    count (m.insert k v) k = v.toNat := by
  rw [count, ExtTreeMap.getElem?_insert_self]
  rfl

theorem count_insert_of_ne (m : OrdMap κ (BitVec w)) {k k' : κ} (h : k ≠ k') (v : BitVec w) :
    count (m.insert k v) k' = m.count k' := by
  rw [count, getElem?_insert_of_ne _ h]
  rfl

/-- A sum of the values is the sum of the counts of all who may be among the keys. -/
theorem sumBy_eq_sum_count [DecidableEq κ] {ids : List κ} (hids : ids.Nodup)
    (hkeys : ∀ k, 0 < m.count k → k ∈ ids) :
    sumBy BitVec.toNat m = (ids.map m.count).sum := by
  have hsum : sumBy BitVec.toNat m = ((m.toList.map Prod.fst).map m.count).sum := by
    rw [sumBy, List.map_map]
    refine congrArg List.sum (List.map_congr_left fun e he => ?_)
    rw [Function.comp_apply, count, ExtTreeMap.mem_toList_iff_getElem?_eq_some.mp he]
    rfl
  rw [hsum, ← List.sum_toFinset _ (nodup_keys m), ← List.sum_toFinset _ hids]
  refine Finset.sum_congr_of_eq_on_inter (fun k _ hk => ?_) (fun k _ hk => ?_) fun _ _ _ => rfl
  · refine Nat.eq_zero_of_not_pos fun hpos => hk (List.mem_toFinset.mpr (hkeys k hpos))
  · rw [count]
    cases hv : m[k]? with
    | none => rfl
    | some v =>
      refine absurd (List.mem_toFinset.mpr (List.mem_map.mpr ⟨(k, v), ?_, rfl⟩)) hk
      exact ExtTreeMap.mem_toList_iff_getElem?_eq_some.mpr hv

end OrdMap

end P2P333.Lib
