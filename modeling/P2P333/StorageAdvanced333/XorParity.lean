import Mathlib

/-!
# Parity shards

`XorParityEncoder` of `333-storage-advanced/src/lib.rs`: a payload is cut into `k` data shards of
one length, the last ones filled up with zeros, and `m` copies of their XOR are added.

Results:
1. `foldl_xorInto_cancel`: XOR of the same shards twice.
2. `flatMap_dataShard`: the data shards are the payload with its padding.
3. `decode_shards_of_encode`: what a part of the shards decodes to.
-/

namespace P2P333.StorageAdvanced333

abbrev Bytes := List UInt8

/-! ## Encoder and decoder -/

/-- Why a payload cannot be had. -/
inductive AdvError where
  | notEnoughShards (have_ need : Nat)
  | emptyPayload
deriving DecidableEq

structure Shard where
  index : Nat
  data : Bytes
deriving DecidableEq

/-- The constructor asserts that there is a data shard and a parity shard. -/
structure XorParityEncoder where
  k : Nat
  m : Nat
  one_le_k : 1 ≤ k
  one_le_m : 1 ≤ m

/-- `for (p, v) in parity.iter_mut().zip(s.iter()) { *p ^= *v }`: what the other has no byte for
stays. -/
def xorInto : Bytes → Bytes → Bytes
  | [], _ => []
  | p :: ps, [] => p :: ps
  | p :: ps, v :: vs => (p ^^^ v) :: xorInto ps vs

def resize (l : Bytes) (n : Nat) (x : UInt8) : Bytes := l.take n ++ List.replicate (n - l.length) x

def dataShard (payload : Bytes) (shardLen i : Nat) : Bytes :=
  let start := i * shardLen
  let stop := min ((i + 1) * shardLen) payload.length
  let s := if start < stop then (payload.drop start).take (stop - start) else []
  resize s shardLen 0

def record (found : Nat → Option Shard) (s : Shard) : Nat → Option Shard :=
  Function.update found s.index (some s)

/-- The last shard with the index. -/
def byIdx (shards : List Shard) : Nat → Option Shard := shards.foldl record fun _ => none

namespace XorParityEncoder

variable (enc : XorParityEncoder)

def dataShardSize (payloadLen : Nat) : Nat := max (payloadLen ⌈/⌉ enc.k) 1

def encode (payload : Bytes) : Except AdvError (List Shard) :=
  if payload.isEmpty then .error .emptyPayload
  else
    let shardLen := enc.dataShardSize payload.length
    let dataShards := (List.range enc.k).map (dataShard payload shardLen)
    let parity := dataShards.foldl xorInto (List.replicate shardLen 0)
    .ok (dataShards.mapIdx Shard.mk ++ (List.range enc.m).map fun j => ⟨enc.k + j, parity⟩)

/-- The XOR of the parity shard with the data shards that are there. -/
def recover (data : List (Option Bytes)) (miss : Nat) (parity : Bytes) : Bytes :=
  data.zipIdx.foldl (fun rec e =>
    if e.2 = miss then rec
    else match e.1 with
      | some d => xorInto rec d
      | none => rec) parity

def missingIndices (shards : List Shard) : List Nat :=
  (List.range enc.k).filter fun i => (byIdx shards i).isNone

def decode (shards : List Shard) : Except AdvError Bytes :=
  if shards.isEmpty then .error (.notEnoughShards 0 enc.k)
  else
    let found := byIdx shards
    let data := (List.range enc.k).map fun i => (found i).map Shard.data
    match enc.missingIndices shards with
    | [] => .ok (data.reduceOption.flatten)
    | [miss] =>
      match (List.range' enc.k enc.m).findSome? fun j => (found j).map Shard.data with
      | none => .error (.notEnoughShards (enc.k - 1) enc.k)
      | some parity => .ok ((data.set miss (some (recover data miss parity))).reduceOption.flatten)
    | missing => .error (.notEnoughShards (enc.k - missing.length) enc.k)

end XorParityEncoder

/-! ## XOR of shards -/

section Xor

variable {a b c : Bytes} {l : List Bytes}

theorem xorInto_right_comm (a b c : Bytes) : xorInto (xorInto a b) c = xorInto (xorInto a c) b := by
  induction a generalizing b c with
  | nil => rfl
  | cons x a ih =>
    cases b with
    | nil => cases c <;> rfl
    | cons y b =>
      cases c with
      | nil => rfl
      | cons z c =>
        simp only [xorInto, ih b c]
        rw [UInt8.xor_assoc, UInt8.xor_comm y z, ← UInt8.xor_assoc]

theorem xorInto_cancel (a b : Bytes) : xorInto (xorInto a b) b = a := by
  induction a generalizing b with
  | nil => rfl
  | cons x a ih =>
    cases b with
    | nil => rfl
    | cons y b =>
      simp only [xorInto, ih b]
      rw [UInt8.xor_assoc, UInt8.xor_self, UInt8.xor_zero]

theorem xorInto_zeros (b : Bytes) : xorInto (List.replicate b.length 0) b = b := by
  induction b with
  | nil => rfl
  | cons y b ih =>
    rw [List.length_cons, List.replicate_succ, xorInto, ih, UInt8.zero_xor]

theorem foldl_xorInto_comm (a b : Bytes) (l : List Bytes) :
    l.foldl xorInto (xorInto a b) = xorInto (l.foldl xorInto a) b := by
  induction l generalizing a with
  | nil => rfl
  | cons c l ih => rw [List.foldl_cons, List.foldl_cons, xorInto_right_comm, ih]

/-- The same shards twice cancel out. -/
theorem foldl_xorInto_cancel (a : Bytes) (l : List Bytes) : l.foldl xorInto
    (l.foldl xorInto a) = a := by
  induction l generalizing a with
  | nil => rfl
  | cons b l ih =>
    rw [List.foldl_cons, List.foldl_cons, ← foldl_xorInto_comm, xorInto_cancel, ih]

theorem foldl_xorInto_perm {l' : List Bytes} (h : l.Perm l') (a : Bytes) :
    l.foldl xorInto a = l'.foldl xorInto a :=
  h.foldl_eq' (fun b _ c _ a => xorInto_right_comm a b c) a

end Xor

/-! ## Data shards -/

section DataShards

variable {payload : Bytes} {L i k : Nat}

theorem dataShard_eq (payload : Bytes) (L i : Nat) :
    dataShard payload L i = (payload.drop (i * L)).take L ++ List.replicate
      (L - (payload.length - i * L)) 0 := by
  have hcut : (if i * L < min ((i + 1) * L) payload.length then
      (payload.drop (i * L)).take (min ((i + 1) * L) payload.length - i * L) else []) =
      (payload.drop (i * L)).take L := by
    rw [Nat.add_one_mul]
    split_ifs with hstart
    · refine List.take_eq_take_iff.mpr ?_
      rw [List.length_drop]
      omega
    · refine (List.eq_nil_of_length_eq_zero ?_).symm
      rw [List.length_take, List.length_drop]
      omega
  have hlength : L - ((payload.drop (i * L)).take L).length = L - (payload.length - i * L) := by
    rw [List.length_take, List.length_drop]
    omega
  rw [dataShard, hcut, resize, List.take_take, min_self, hlength]

theorem length_dataShard (payload : Bytes) (L i : Nat) : (dataShard payload L i).length = L := by
  rw [dataShard_eq, List.length_append, List.length_take, List.length_drop, List.length_replicate]
  omega

/-- A data shard is a piece of the padded payload. -/
theorem dataShard_padded (hi : i < k) : dataShard payload L i =
    ((payload ++ List.replicate (k * L - payload.length) 0).drop (i * L)).take L := by
  have hroom : i * L + L ≤ k * L := by
    rw [← Nat.succ_mul]
    exact Nat.mul_le_mul_right L hi
  rw [dataShard_eq, List.drop_append, List.take_append, List.drop_replicate, List.take_replicate,
    List.length_drop]
  congr 2
  omega

theorem flatMap_pieces (l : Bytes) (L k : Nat) :
    (List.range k).flatMap (fun i => (l.drop (i * L)).take L) = l.take (k * L) := by
  induction k with
  | zero => rw [Nat.zero_mul, List.take_zero, List.range_zero, List.flatMap_nil]
  | succ k ih =>
    rw [List.range_succ, List.flatMap_append, ih, List.flatMap_singleton, Nat.succ_mul,
      List.take_add]

/-- The data shards are the payload with its padding. -/
theorem flatMap_dataShard (h : payload.length ≤ k * L) :
    (List.range k).flatMap (dataShard payload L) =
    payload ++ List.replicate (k * L - payload.length) 0 := by
  have hpieces : (List.range k).flatMap (dataShard payload L) = (List.range k).flatMap fun i =>
      ((payload ++ List.replicate (k * L - payload.length) 0).drop (i * L)).take L :=
    List.flatMap_congr fun i hi => dataShard_padded (List.mem_range.mp hi)
  rw [hpieces, flatMap_pieces]
  refine List.take_of_length_le ?_
  rw [List.length_append, List.length_replicate]
  omega

/-- The parity without the other data shards. -/
theorem foldl_parity (payload : Bytes) (L : Nat) (hi : i < k) :
    (((List.range k).filter (· != i)).map (dataShard payload L)).foldl xorInto
      (((List.range k).map (dataShard payload L)).foldl xorInto (List.replicate L 0)) =
        dataShard payload L i := by
  have hfilter : (List.range k).filter (· != i) = (List.range k).erase i :=
    (List.nodup_range.erase_eq_filter i).symm
  have hperm := ((List.perm_cons_erase (List.mem_range.mpr hi)).map (dataShard payload L))
  have hzeros : xorInto (List.replicate L 0) (dataShard payload L i) = dataShard payload L i := by
    have h := xorInto_zeros (dataShard payload L i)
    rwa [length_dataShard] at h
  rw [hfilter, foldl_xorInto_perm hperm, List.map_cons, List.foldl_cons, hzeros,
    foldl_xorInto_cancel]

end DataShards

/-! ## Shards by their index -/

section ByIdx

variable {shards : List Shard} {i : Nat} {s : Shard}

/-- A data or parity shard with the index is there. -/
def Present (shards : List Shard) (i : Nat) : Prop := ∃ s ∈ shards, s.index = i

instance : Decidable (Present shards i) := inferInstanceAs (Decidable (∃ s ∈ shards, s.index = i))

theorem record_self (found : Nat → Option Shard) (s : Shard) : record found s s.index = some s :=
  Function.update_self ..

theorem record_of_ne (found : Nat → Option Shard) (h : i ≠ s.index) : record found s i = found i :=
  Function.update_of_ne h ..

theorem foldl_record (shards : List Shard) (found : Nat → Option Shard) (i : Nat) :
    (∀ s, shards.foldl record found i = some s → (s ∈ shards ∧ s.index = i) ∨ found i = some s) ∧
    (shards.foldl record found i = none ↔ found i = none ∧ ¬ Present shards i) := by
  induction shards generalizing found with
  | nil => exact ⟨fun _ h => .inr h, fun h => ⟨h, fun ⟨_, hs, _⟩ => nomatch hs⟩, And.left⟩
  | cons a shards ih =>
    obtain ⟨hsome, hnone⟩ := ih (record found a)
    rw [List.foldl_cons]
    by_cases ha : i = a.index
    · subst ha
      rw [record_self] at hsome hnone
      refine ⟨fun s hs => .inl ?_, ?_⟩
      · rcases hsome s hs with ⟨hmem, hindex⟩ | hself
        · exact ⟨List.mem_cons_of_mem _ hmem, hindex⟩
        · cases hself
          exact ⟨List.mem_cons_self, rfl⟩
      · rw [hnone]
        exact iff_of_false (fun h => nomatch h.1) fun h => h.2 ⟨a, List.mem_cons_self, rfl⟩
    · rw [record_of_ne found ha] at hsome hnone
      refine ⟨fun s hs => (hsome s hs).imp_left fun h => ⟨List.mem_cons_of_mem _ h.1, h.2⟩, ?_⟩
      rw [hnone]
      refine and_congr_right fun _ => not_congr ?_
      constructor
      · rintro ⟨s, hs, hindex⟩
        exact ⟨s, List.mem_cons_of_mem _ hs, hindex⟩
      · rintro ⟨s, hs, hindex⟩
        rcases List.mem_cons.mp hs with rfl | hs
        · exact absurd hindex.symm ha
        · exact ⟨s, hs, hindex⟩

theorem byIdx_eq_some (h : byIdx shards i = some s) : s ∈ shards ∧ s.index = i :=
  ((foldl_record shards (fun _ => none) i).1 s h).resolve_right nofun

theorem byIdx_eq_none : byIdx shards i = none ↔ ¬ Present shards i :=
  (foldl_record shards (fun _ => none) i).2.trans (and_iff_right rfl)

end ByIdx

/-! ## Shards of one payload -/

namespace XorParityEncoder

variable (enc : XorParityEncoder)

section Encoded

variable {payload : Bytes} {all shards : List Shard} {i : Nat} {s : Shard}

def parityShard (payload : Bytes) (shardLen : Nat) : Bytes :=
  ((List.range enc.k).map (dataShard payload shardLen)).foldl xorInto (List.replicate shardLen 0)

theorem mem_encode (h : enc.encode payload = .ok all) (hs : s ∈ all) :
    (s.index < enc.k ∧ s.data = dataShard payload (enc.dataShardSize payload.length) s.index) ∨
      (enc.k ≤ s.index ∧ s.index < enc.k + enc.m ∧
        s.data = enc.parityShard payload (enc.dataShardSize payload.length)) := by
  rw [encode] at h
  split_ifs at h
  cases h
  rcases List.mem_append.mp hs with hdata | hparity
  · obtain ⟨i, hi, rfl⟩ := List.mem_mapIdx.mp hdata
    rw [List.length_map, List.length_range] at hi
    refine .inl ⟨hi, ?_⟩
    dsimp only
    rw [List.getElem_map, List.getElem_range]
  · obtain ⟨j, hj, rfl⟩ := List.mem_map.mp hparity
    exact .inr ⟨Nat.le_add_right .., Nat.add_lt_add_left (List.mem_range.mp hj) _, rfl⟩

/-- The data shards cover the payload. -/
theorem length_le_dataShardSize (n : Nat) : n ≤ enc.k * enc.dataShardSize n := by
  have hk : 0 < enc.k := enc.one_le_k
  have hceil : n ≤ enc.k * (n ⌈/⌉ enc.k) := by
    have h := le_smul_ceilDiv (β := Nat) (b := n) hk
    rwa [smul_eq_mul] at h
  exact hceil.trans (Nat.mul_le_mul_left _ (Nat.le_max_left ..))

end Encoded

/-- `recover` goes through the other data shards in their order. -/
theorem recover_eq (shard : Nat → Bytes) (data : Nat → Option Bytes) (k miss : Nat) (parity : Bytes)
    (h : ∀ i < k, i ≠ miss → data i = some (shard i)) :
    recover ((List.range k).map data) miss parity =
      (((List.range k).filter (· != miss)).map shard).foldl xorInto parity := by
  induction k generalizing parity with
  | zero => rfl
  | succ k ih =>
    have hlast := ih parity fun i hi => h i (Nat.lt_succ_of_lt hi)
    rw [recover] at hlast ⊢
    rw [List.range_succ, List.map_append, List.zipIdx_append, List.foldl_append, hlast,
      List.filter_append,
      List.map_append, List.foldl_append, List.length_map, List.length_range]
    by_cases hk : k = miss
    · subst hk
      simp
    · have hdata := h k (Nat.lt_succ_self k) hk
      simp [hk, hdata]

section Decoded

variable {payload : Bytes} {all shards : List Shard} {i miss : Nat} {s : Shard}

/-- All data shards, or all but one and a parity shard. -/
def Enough (shards : List Shard) : Prop :=
  (∀ i < enc.k, Present shards i) ∨
    ((∃! i, i < enc.k ∧ ¬ Present shards i) ∧ ∃ j, enc.k ≤ j ∧ Present shards j)

theorem mem_missingIndices : i ∈ enc.missingIndices shards ↔ i < enc.k ∧ ¬ Present shards i := by
  rw [missingIndices, List.mem_filter, List.mem_range, Option.isNone_iff_eq_none, byIdx_eq_none]

theorem missingIndices_eq_nil : enc.missingIndices shards = [] ↔ ∀ i < enc.k, Present shards i := by
  rw [List.eq_nil_iff_forall_not_mem]
  simp only [mem_missingIndices, not_and, not_not]

theorem missingIndices_eq_singleton :
    (∃ miss, enc.missingIndices shards = [miss]) ↔ ∃! i, i < enc.k ∧ ¬ Present shards i := by
  have hnodup : (enc.missingIndices shards).Nodup := List.nodup_range.filter _
  simp only [← mem_missingIndices]
  constructor
  · rintro ⟨miss, h⟩
    rw [h]
    exact ⟨miss, List.mem_singleton_self miss, fun _ => List.eq_of_mem_singleton⟩
  · rintro ⟨miss, hmiss, honly⟩
    refine ⟨miss, List.perm_singleton.mp ?_⟩
    refine (List.perm_ext_iff_of_nodup hnodup (List.nodup_singleton miss)).mpr fun i => ?_
    rw [List.mem_singleton]
    exact ⟨honly i, fun h => h ▸ hmiss⟩

theorem byIdx_data (h : enc.encode payload = .ok all) (hsub : shards ⊆ all) (hi : i < enc.k)
    (hin : Present shards i) :
    (byIdx shards i).map Shard.data = some
      (dataShard payload (enc.dataShardSize payload.length) i) := by
  obtain ⟨s, hs⟩ := Option.ne_none_iff_exists'.mp (mt byIdx_eq_none.mp (not_not_intro hin))
  obtain ⟨hmem, rfl⟩ := byIdx_eq_some hs
  rcases enc.mem_encode h (hsub hmem) with ⟨_, hdata⟩ | ⟨hparity, _⟩
  · rw [hs, Option.map_some, hdata]
  · exact absurd hi (Nat.not_lt.mpr hparity)

theorem flatten_map_some (g : Nat → Bytes) (k : Nat) :
    ((List.range k).map fun i => some (g i)).reduceOption.flatten = (List.range k).flatMap g := by
  have hsome : (List.range k).map (fun i => some (g i)) = ((List.range k).map g).map some := by
    rw [List.map_map]
    rfl
  rw [hsome, List.reduceOption, List.filterMap_map, List.flatMap_def]
  exact congrArg List.flatten List.filterMap_some

/-- The parity shard that `decode` takes. -/
theorem findSome_parity (h : enc.encode payload = .ok all) (hsub : shards ⊆ all) :
    ((List.range' enc.k enc.m).findSome? fun j => (byIdx shards j).map Shard.data) =
      some (enc.parityShard payload (enc.dataShardSize payload.length)) ∧
        (∃ j, enc.k ≤ j ∧ Present shards j) ∨
    ((List.range' enc.k enc.m).findSome? fun j => (byIdx shards j).map Shard.data) = none ∧
      ¬ ∃ j, enc.k ≤ j ∧ Present shards j := by
  cases hfind : (List.range' enc.k enc.m).findSome? fun j => (byIdx shards j).map Shard.data with
  | some parity =>
    obtain ⟨j, hj, hdata⟩ := List.exists_of_findSome?_eq_some hfind
    obtain ⟨s, hs, rfl⟩ := Option.map_eq_some_iff.mp hdata
    obtain ⟨hmem, rfl⟩ := byIdx_eq_some hs
    have hk : enc.k ≤ s.index := (List.mem_range'_1.mp hj).1
    rcases enc.mem_encode h (hsub hmem) with ⟨hlt, _⟩ | ⟨_, _, hparity⟩
    · exact absurd hlt (Nat.not_lt.mpr hk)
    · exact .inl ⟨congrArg some hparity, s.index, hk, s, hmem, rfl⟩
  | none =>
    refine .inr ⟨rfl, ?_⟩
    rintro ⟨j, hk, s, hs, rfl⟩
    rcases enc.mem_encode h (hsub hs) with ⟨hlt, _⟩ | ⟨_, hlt, _⟩
    · exact absurd hlt (Nat.not_lt.mpr hk)
    · have hnone := List.findSome?_eq_none_iff.mp hfind s.index (List.mem_range'_1.mpr ⟨hk, hlt⟩)
      rw [Option.map_eq_none_iff, byIdx_eq_none] at hnone
      exact hnone ⟨s, hs, rfl⟩

theorem set_recover (h : enc.encode payload = .ok all) (hsub : shards ⊆ all)
    (hmiss : enc.missingIndices shards = [miss]) :
    let L := enc.dataShardSize payload.length
    let data := (List.range enc.k).map fun i => (byIdx shards i).map Shard.data
    data.set miss (some (recover data miss (enc.parityShard payload L))) =
      (List.range enc.k).map fun i => some (dataShard payload L i) := by
  intro L data
  have hin : ∀ i < enc.k, i ≠ miss → Present shards i := by
    intro i hi hne
    refine not_not.mp fun hout => hne ?_
    exact List.eq_of_mem_singleton (hmiss ▸ enc.mem_missingIndices.mpr ⟨hi, hout⟩ : i ∈ [miss])
  have hlt : miss < enc.k := (enc.mem_missingIndices.mp (hmiss ▸ List.mem_singleton_self miss)).1
  have hrec : recover data miss (enc.parityShard payload L) = dataShard payload L miss := by
    rw [recover_eq (dataShard payload L) _ enc.k miss _ fun i hi hne =>
      enc.byIdx_data h hsub hi (hin i hi hne)]
    exact foldl_parity payload L hlt
  refine List.ext_getElem (by simp [data]) fun i _ hi => ?_
  rw [List.length_map, List.length_range] at hi
  rw [List.getElem_set]
  split_ifs with heq
  · subst heq
    simp [hrec]
  · have hdata := enc.byIdx_data h hsub hi (hin i hi (Ne.symm heq))
    simpa [data] using hdata

theorem decode_eq (h : enc.encode payload = .ok all) (hsub : shards ⊆ all) :
    (enc.Enough shards → enc.decode shards =
      .ok ((List.range enc.k).flatMap (dataShard payload (enc.dataShardSize payload.length)))) ∧
    (¬ enc.Enough shards → ∃ held < enc.k, enc.decode shards = .error
      (.notEnoughShards held enc.k)) := by
  have hk : 0 < enc.k := enc.one_le_k
  rw [decode]
  split_ifs with hempty
  · rw [List.isEmpty_iff] at hempty
    subst hempty
    have hnone : ∀ i, ¬ Present [] i := fun i ⟨s, hs, _⟩ => nomatch hs
    refine ⟨?_, fun _ => ⟨0, hk, rfl⟩⟩
    rintro (hall | ⟨_, j, _, hj⟩)
    · exact absurd (hall 0 hk) (hnone 0)
    · exact absurd hj (hnone j)
  -- Without a gap the data is here; one gap takes a parity shard; two are too many.
  · cases hmissing : enc.missingIndices shards with
    | nil =>
      have hall := enc.missingIndices_eq_nil.mp hmissing
      refine ⟨fun _ => ?_, fun hnot => absurd (.inl hall) hnot⟩
      have hdata : ((List.range enc.k).map fun i => (byIdx shards i).map Shard.data) =
          (List.range enc.k).map fun i => some
            (dataShard payload (enc.dataShardSize payload.length) i) :=
        List.map_congr_left fun i hi =>
          enc.byIdx_data h hsub (List.mem_range.mp hi) (hall i (List.mem_range.mp hi))
      dsimp only
      rw [hdata, flatten_map_some]
    | cons miss rest =>
      cases rest with
      | nil =>
        have hone := enc.missingIndices_eq_singleton.mp ⟨miss, hmissing⟩
        have hnotAll : ¬ ∀ i < enc.k, Present shards i := by
          rw [← missingIndices_eq_nil, hmissing]
          exact List.cons_ne_nil _ _
        dsimp only
        rcases enc.findSome_parity h hsub with ⟨hfind, hparity⟩ | ⟨hfind, hparity⟩
        · refine ⟨fun _ => ?_, fun hnot => absurd (.inr ⟨hone, hparity⟩) hnot⟩
          rw [hfind]
          dsimp only
          rw [enc.set_recover h hsub hmissing, flatten_map_some]
        · rw [hfind]
          refine ⟨fun henough => ?_, fun _ => ⟨enc.k - 1, Nat.sub_lt hk Nat.one_pos, rfl⟩⟩
          rcases henough with hall | ⟨_, hj⟩
          · exact absurd hall hnotAll
          · exact absurd hj hparity
      | cons other rest =>
        dsimp only
        refine ⟨fun henough => ?_, fun _ => ⟨_, Nat.sub_lt hk (Nat.succ_pos _), rfl⟩⟩
        rcases henough with hall | ⟨hone, _⟩
        · rw [← missingIndices_eq_nil, hmissing] at hall
          cases hall
        · obtain ⟨i, hi⟩ := enc.missingIndices_eq_singleton.mpr hone
          rw [hmissing] at hi
          cases hi

end Decoded

/-- What a part of the shards of a payload decodes to, whatever the order and the repetitions. -/
theorem decode_shards_of_encode (payload : Bytes) (hne : payload ≠ []) :
    ∃ all, enc.encode payload = .ok all ∧
    ∀ shards ⊆ all,
      (enc.Enough shards → enc.decode shards = .ok (payload ++
        List.replicate (enc.k * enc.dataShardSize payload.length - payload.length) 0)) ∧
      (¬ enc.Enough shards → ∃ held < enc.k, enc.decode shards = .error
        (.notEnoughShards held enc.k)) := by
  have hsome : ∃ all, enc.encode payload = .ok all := by
    rw [encode, if_neg (by rwa [List.isEmpty_iff])]
    exact ⟨_, rfl⟩
  obtain ⟨all, hall⟩ := hsome
  refine ⟨all, hall, fun shards hsub => ?_⟩
  rw [← flatMap_dataShard (enc.length_le_dataShardSize payload.length)]
  exact enc.decode_eq hall hsub

/-- The middle data shard of three is lost, and a shard has come twice. -/
theorem decode_shards_of_encode_middle :
    ∃ all, (⟨3, 1, by decide, by decide⟩ : XorParityEncoder).encode [1, 2, 3, 4] = .ok all ∧
    (⟨3, 1, by decide, by decide⟩ : XorParityEncoder).decode [⟨3, [2, 6]⟩, ⟨2, [0, 0]⟩, ⟨0, [1, 2]⟩,
      ⟨3, [2, 6]⟩] =
      .ok ([1, 2, 3, 4] ++ [0, 0]) := by
  obtain ⟨all, hall, h⟩ :=
    decode_shards_of_encode ⟨3, 1, by decide, by decide⟩ [1, 2, 3, 4] (by decide)
  refine ⟨all, hall, (h _ ?_).1 (.inr ⟨⟨1, ?_, ?_⟩, 3, by decide, ?_⟩)⟩
  · cases hall
    decide
  · decide
  · have honly : ∀ i < 3, ¬ Present
      [⟨3, [2, 6]⟩, ⟨2, [0, 0]⟩, ⟨0, [1, 2]⟩, ⟨3, [2, 6]⟩] i → i = 1 := by
      decide
    exact fun i ⟨hi, hout⟩ => honly i hi hout
  · exact ⟨⟨3, [2, 6]⟩, by decide, rfl⟩

end XorParityEncoder

end P2P333.StorageAdvanced333
