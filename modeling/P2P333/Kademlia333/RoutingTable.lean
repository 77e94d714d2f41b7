import P2P333.Kademlia333.Distance
import P2P333.Lib.Recent

/-!
# The routing table

`333-kademlia/src/kbucket.rs` and `333-kademlia/src/routing_table.rs`: buckets that keep the peers
seen last, one for each number of bits that a peer shares with the local id, and the search for the
peers closest to a target. A panic is `none`.

Results:
1. `observeAll_eq`: what a table holds, as a function of the peers that it has seen.
2. `findClosest_spec`: what a search returns.
3. `exact_lru`: the two together.
-/

namespace P2P333.Kademlia333

open Std Lib

/-! ## Buckets -/

def kDefault : Nat := 20

structure KBucket where
  k : Nat
  entries : List NodeId
deriving DecidableEq

namespace KBucket

def new (k : Nat) : KBucket := ⟨k, []⟩

def isFull (b : KBucket) : Bool := b.entries.length ≥ b.k

/-- Whether the bucket has changed, and the bucket. -/
def observe (b : KBucket) (n : NodeId) : Bool × KBucket :=
  match b.entries.idxOf? n with
  | some pos =>
    if pos = b.entries.length - 1 then (false, b)
    else (true, { b with entries := b.entries.eraseIdx pos ++ [n] })
  | none =>
    let entries := if b.isFull then b.entries.tail else b.entries
    (true, { b with entries := entries ++ [n] })

/-- The bucket that has seen these peers. -/
def ofSeen (k : Nat) (seen : List NodeId) : KBucket := ⟨k, recent k seen⟩

/-- A bucket holds the last peers that it has seen. -/
theorem observe_ofSeen {k : Nat} (hk : 0 < k) (seen : List NodeId) (n : NodeId) :
    ((ofSeen k seen).observe n).2 = ofSeen k (seen ++ [n]) := by
  unfold observe ofSeen
  cases hpos : (recent k seen).idxOf? n with
  | some pos =>
    have herase : (recent k seen).erase n = (recent k seen).eraseIdx pos := by
      rw [List.erase_eq_eraseIdx, hpos]
    obtain ⟨hlt, hn, -⟩ := List.idxOf?_eq_some_iff.mp hpos
    have hmem : n ∈ recent k seen := hn ▸ List.getElem_mem hlt
    rw [recent_concat_of_mem hmem, herase]
    dsimp only
    split
    · next hlast =>
      -- It has been the last already.
      have hne : recent k seen ≠ [] := List.ne_nil_of_mem hmem
      have hn' : (recent k seen).getLast hne = n := by
        rw [List.getLast_eq_getElem, ← hn]
        congr 1
        exact hlast.symm
      rw [hlast, List.eraseIdx_length_sub_one, ← hn', List.dropLast_append_getLast]
    · rfl
  | none =>
    have hgone : n ∉ recent k seen := List.idxOf?_eq_none_iff.mp hpos
    rw [recent_concat_of_notMem hk hgone]
    dsimp only [isFull]
    simp only [decide_eq_true_eq]

end KBucket

/-! ## Tables -/

def keyBits : Nat := 256

structure RoutingTable where
  localId : NodeId
  k : Nat
  buckets : List KBucket
deriving DecidableEq

namespace RoutingTable

def withK (localId : NodeId) (k : Nat) : RoutingTable :=
  ⟨localId, k, (List.range keyBits).map fun _ => KBucket.new k⟩

def new (localId : NodeId) : RoutingTable := withK localId kDefault

/-- No bucket is for the local id itself. -/
def bucketIndex (t : RoutingTable) (peer : NodeId) : Option Nat :=
  let lz := (Distance.between t.localId peer).leadingZeros
  if lz ≥ keyBits then none else some lz

def observe (t : RoutingTable) (peer : NodeId) : Option (Bool × RoutingTable) :=
  match t.bucketIndex peer with
  | some i => do
    let b ← t.buckets[i]?
    some ((b.observe peer).1, { t with buckets := t.buckets.set i (b.observe peer).2 })
  | none => some (false, t)

/-- Number of known peers. -/
def len (t : RoutingTable) : Nat := (t.buckets.map fun b => b.entries.length).sum

def known (t : RoutingTable) : List NodeId := t.buckets.flatMap KBucket.entries

def findClosest (t : RoutingTable) (target : NodeId) (count : Nat) : List NodeId :=
  (t.known.mergeSort fun a b =>
    (compare (Distance.between a target) (Distance.between b target)).isLE).take count

/-- One peer after the other. -/
def observeAll (t : RoutingTable) (peers : List NodeId) : Option RoutingTable :=
  peers.foldlM (fun t peer => (t.observe peer).map Prod.snd) t

/-! ## What a table holds -/

section Holding

variable {localId : NodeId} {k : Nat} {seen : List NodeId} {peer : NodeId} {i : Nat}

/-- The peers of a bucket. -/
def ofClass (localId : NodeId) (i : Nat) (seen : List NodeId) : List NodeId :=
  seen.filter fun peer => SharesExactly i localId peer

/-- The table that has seen these peers. -/
def ofSeen (localId : NodeId) (k : Nat) (seen : List NodeId) : RoutingTable :=
  ⟨localId, k, (List.range keyBits).map fun i => .ofSeen k (ofClass localId i seen)⟩

theorem withK_eq (localId : NodeId) (k : Nat) : withK localId k = ofSeen localId k [] := by
  have hnew : KBucket.new k = .ofSeen k [] := by
    rw [KBucket.ofSeen, recent, List.dedup_nil, List.rtake_nil]
    rfl
  rw [withK, hnew]
  rfl

theorem ofClass_concat (localId : NodeId) (i : Nat) (seen : List NodeId) (peer : NodeId) :
    ofClass localId i (seen ++ [peer]) =
      if SharesExactly i localId peer then ofClass localId i seen ++ [peer]
      else ofClass localId i seen := by
  rw [ofClass, List.filter_append, List.filter_cons, List.filter_nil]
  simp only [decide_eq_true_eq]
  split
  · rfl
  · exact List.append_nil _

theorem bucketIndex_eq_some :
    (ofSeen localId k seen).bucketIndex peer = some i ↔
      i < keyBits ∧ SharesExactly i localId peer := by
  unfold bucketIndex
  dsimp only [ofSeen]
  constructor
  · intro h
    split at h
    · cases h
    · next hlt =>
      cases h
      have hlt := Nat.not_le.mp hlt
      exact ⟨hlt, (leadingZeros_eq_iff hlt).mp rfl⟩
  · rintro ⟨hlt, hs⟩
    rw [(leadingZeros_eq_iff hlt).mpr hs, if_neg (Nat.not_le.mpr hlt)]

/-- A peer changes its bucket and no other. -/
theorem observe_ofSeen (hk : 0 < k) (localId : NodeId) (seen : List NodeId) (peer : NodeId) :
    ((ofSeen localId k seen).observe peer).map Prod.snd =
      some (ofSeen localId k (seen ++ [peer])) := by
  unfold observe
  cases hindex : (ofSeen localId k seen).bucketIndex peer with
  | none =>
    have hno (i : Nat) (hi : i < keyBits) : ¬ SharesExactly i localId peer := by
      intro hs
      rw [bucketIndex_eq_some.mpr ⟨hi, hs⟩] at hindex
      cases hindex
    have hsame : ofSeen localId k (seen ++ [peer]) = ofSeen localId k seen := by
      unfold ofSeen
      congr 1
      refine List.map_congr_left fun i hi => ?_
      rw [ofClass_concat, if_neg (hno i (List.mem_range.mp hi))]
    rw [hsame]
    rfl
  | some i =>
    obtain ⟨hi, hs⟩ := bucketIndex_eq_some.mp hindex
    have hbucket : (ofSeen localId k seen).buckets[i]? =
        some (.ofSeen k (ofClass localId i seen)) := by
      rw [ofSeen, List.getElem?_map, List.getElem?_range hi]
      rfl
    simp only [hbucket, Option.bind_eq_bind, Option.bind_some, Option.map_some,
      KBucket.observe_ofSeen hk]
    unfold ofSeen
    congr 2
    refine List.ext_getElem (by simp only [List.length_set, List.length_map]) fun j _ _ => ?_
    rw [List.getElem_set, List.getElem_map, List.getElem_map, List.getElem_range, ofClass_concat]
    split
    · next heq =>
      subst heq
      rw [if_pos hs]
    · next hne => rw [if_neg fun hs' => hne (hs.unique hs')]

theorem observeAll_eq (hk : 0 < k) (localId : NodeId) (peers : List NodeId) :
    (withK localId k).observeAll peers = some (ofSeen localId k peers) := by
  have hrun (seen : List NodeId) : (ofSeen localId k seen).observeAll peers =
      some (ofSeen localId k (seen ++ peers)) := by
    induction peers generalizing seen with
    | nil =>
      rw [List.append_nil]
      rfl
    | cons peer peers ih =>
      rw [observeAll, List.foldlM_cons, observe_ofSeen hk]
      refine (ih (seen ++ [peer])).trans ?_
      rw [List.append_assoc]
      rfl
  rw [withK_eq]
  exact hrun []

end Holding

/-! ## Searches -/

section Searches

variable {localId : NodeId} {k : Nat} {seen : List NodeId}

theorem mem_known_ofSeen {peer : NodeId} : peer ∈ (ofSeen localId k seen).known ↔
    ∃ i < keyBits, peer ∈ recent k (ofClass localId i seen) := by
  simp only [known, ofSeen, List.mem_flatMap, List.mem_map, List.mem_range,
    exists_exists_and_eq_and, KBucket.ofSeen]

theorem sharesExactly_of_mem {i : Nat} {peer : NodeId}
    (h : peer ∈ recent k (ofClass localId i seen)) : SharesExactly i localId peer :=
  of_decide_eq_true (List.mem_filter.mp (mem_of_recent h)).2

theorem nodup_known (localId : NodeId) (k : Nat) (seen : List NodeId) :
    (ofSeen localId k seen).known.Nodup := by
  rw [known, ofSeen, List.nodup_flatMap]
  constructor
  · intro b hb
    obtain ⟨i, -, rfl⟩ := List.mem_map.mp hb
    exact nodup_recent
  · rw [List.pairwise_map]
    refine List.nodup_range.imp fun hne => ?_
    exact fun peer hi hj => hne ((sharesExactly_of_mem hi).unique (sharesExactly_of_mem hj))

theorem localId_notMem_known : localId ∉ (ofSeen localId k seen).known := by
  intro h
  obtain ⟨i, -, hi⟩ := mem_known_ofSeen.mp h
  exact not_sharesExactly_self i localId (sharesExactly_of_mem hi)

theorem length_known (t : RoutingTable) : t.known.length = t.len := List.length_flatMap

/-- A table has room for `k` peers in each bucket. -/
theorem length_known_le (localId : NodeId) (k : Nat) (seen : List NodeId) :
    (ofSeen localId k seen).known.length ≤ keyBits * k := by
  rw [known, ofSeen, List.flatMap_map, List.length_flatMap]
  refine (List.sum_le_card_nsmul _ k fun x hx => ?_).trans_eq ?_
  · obtain ⟨i, -, rfl⟩ := List.mem_map.mp hx
    exact length_recent.trans_le (Nat.min_le_left _ _)
  · rw [List.length_map, List.length_range, smul_eq_mul]

/-- What a search is for: the known peers that are closest to the target, in order. -/
structure Closest (known : List NodeId) (target : NodeId) (count : Nat) (found : List NodeId) :
    Prop where
  nodup : found.Nodup
  increasing : found.Pairwise fun a b => xorDistance a target < xorDistance b target
  length : found.length = min count known.length
  subset : found ⊆ known
  closest : ∀ a ∈ found, ∀ b ∈ known, b ∉ found → xorDistance a target < xorDistance b target

theorem findClosest_spec {t : RoutingTable} (h : t.known.Nodup) (target : NodeId) (count : Nat) :
    Closest t.known target count (t.findClosest target count) := by
  have hle (a b : NodeId) :
      (compare (Distance.between a target) (Distance.between b target)).isLE = true ↔
        xorDistance a target ≤ xorDistance b target := by
    rw [compare_between]
    exact Nat.isLE_compare
  unfold findClosest
  generalize hsorted : (t.known.mergeSort fun a b =>
    (compare (Distance.between a target) (Distance.between b target)).isLE) = sorted
  have hperm : sorted.Perm t.known := hsorted ▸ List.mergeSort_perm _ _
  have hnodup : sorted.Nodup := hperm.nodup_iff.mpr h
  have hweak : sorted.Pairwise fun a b => xorDistance a target ≤ xorDistance b target := by
    rw [← hsorted]
    refine (List.pairwise_mergeSort (fun a b c hab hbc => ?_) (fun a b => ?_) _).imp fun hab =>
      (hle _ _).mp hab
    · exact (hle a c).mpr (((hle a b).mp hab).trans ((hle b c).mp hbc))
    · rw [Bool.or_eq_true, hle, hle]
      exact Nat.le_total _ _
  -- No two are equally far.
  have hstrict : sorted.Pairwise fun a b => xorDistance a target < xorDistance b target :=
    (hweak.and hnodup).imp fun h => Nat.lt_of_le_of_ne h.1 fun heq => h.2 (xorDistance_inj heq)
  have hsplit := List.take_append_drop count sorted
  rw [← hsplit] at hstrict
  obtain ⟨hfirst, -, hcross⟩ := List.pairwise_append.mp hstrict
  refine ⟨hnodup.sublist (List.take_sublist _ _), hfirst, ?_, fun a ha => ?_,
    fun a ha b hb hout => ?_⟩
  · rw [List.length_take, hperm.length_eq]
  · exact hperm.mem_iff.mp (List.mem_of_mem_take ha)
  · have hb' := hperm.mem_iff.mpr hb
    rw [← hsplit, List.mem_append] at hb'
    exact hcross a ha b (hb'.resolve_left hout)

/-- After any sequence of observations. -/
theorem exact_lru (hk : 0 < k) (localId : NodeId) (peers : List NodeId) :
    ∃ t, (withK localId k).observeAll peers = some t ∧
      t.buckets.length = keyBits ∧
      (∀ i < keyBits, ∃ b, t.buckets[i]? = some b ∧
        b.entries = recent k (peers.filter fun peer => SharesExactly i localId peer)) ∧
      localId ∉ t.known ∧ t.known.length = t.len ∧
      ∀ target count, Closest t.known target count (t.findClosest target count) := by
  refine ⟨_, observeAll_eq hk localId peers, ?_, fun i hi => ?_, localId_notMem_known,
    length_known _, findClosest_spec (nodup_known localId k peers)⟩
  · rw [ofSeen, List.length_map, List.length_range]
  · refine ⟨.ofSeen k (ofClass localId i peers), ?_, rfl⟩
    rw [ofSeen, List.getElem?_map, List.getElem?_range hi]
    rfl

end Searches

namespace Demo

def peer (first : UInt8) : NodeId := ⟨first :: List.replicate 31 0, rfl⟩

/-- Buckets of two. Of the peers that share no bit, the oldest has left. -/
theorem exact_lru_two : ∃ t, (withK (peer 0) 2).observeAll
      [peer 0x80, peer 0x90, peer 0x41, peer 0x80, peer 0xA0] = some t ∧
    (∃ b, t.buckets[0]? = some b ∧ b.entries = [peer 0x80, peer 0xA0]) ∧
    Closest t.known (peer 0x40) 2 (t.findClosest (peer 0x40) 2) := by
  obtain ⟨t, ht, -, hbuckets, -, -, hclosest⟩ := exact_lru (by decide : 0 < 2) (peer 0)
    [peer 0x80, peer 0x90, peer 0x41, peer 0x80, peer 0xA0]
  obtain ⟨b, hb, hentries⟩ := hbuckets 0 (by decide)
  refine ⟨t, ht, ⟨b, hb, hentries.trans ?_⟩, hclosest (peer 0x40) 2⟩
  decide +kernel

end Demo

end RoutingTable

end P2P333.Kademlia333
