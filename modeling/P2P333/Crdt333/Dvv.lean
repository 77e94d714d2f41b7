import P2P333.Crdt333.Rcb

/-!
# Dotted version vectors

`DvvSet` of `333-crdt/src/dvv.rs`: values with the dot of the write that they come from, and a
version vector for the writes that the replica knows of.

Results:
1. `le_merge_left`, `le_merge_right`, `merge_le`: a merged vector has the larger counters.
2. `write_spec`: a write drops the older values of its own replica only.
3. `mem_merge`: a merge keeps the newest values of each replica.
-/

namespace P2P333.Crdt333

open Std Lib Transfer333

variable {T : Type}

/-! ## Merging version vectors -/

namespace VersionVector

/-- `let e = entry(rid).or_insert(0); if v > e { e = v }`. -/
def raise (v : VersionVector) (e : ReplicaId × U64) : VersionVector :=
  v.set e.1 (if v.get e.1 < e.2 then e.2 else v.get e.1)

def merge (v w : VersionVector) : VersionVector := w.clocks.toList.foldl raise v

variable {v w : VersionVector} {r : ReplicaId} {bound : Nat}

theorem get_raise_self (v : VersionVector) (e : ReplicaId × U64) :
    ((v.raise e).get e.1).toNat = max (v.get e.1).toNat e.2.toNat := by
  rw [raise, get_set_self]
  split_ifs with h
  · exact (max_eq_right (Nat.le_of_lt (BitVec.lt_def.mp h))).symm
  · exact (max_eq_left (BitVec.le_def.mp (BitVec.not_lt.mp h))).symm

theorem le_get_raise (v : VersionVector) (e : ReplicaId × U64) (r : ReplicaId) :
    (v.get r).toNat ≤ ((v.raise e).get r).toNat := by
  by_cases hr : e.1 = r
  · subst hr
    rw [get_raise_self]
    exact le_max_left _ _
  · rw [raise, get_set_of_ne _ hr]

theorem foldl_raise (l : List (ReplicaId × U64)) (v : VersionVector) (r : ReplicaId) (bound : Nat) :
    (v.get r).toNat ≤ ((l.foldl raise v).get r).toNat ∧
    (∀ c, (r, c) ∈ l → c.toNat ≤ ((l.foldl raise v).get r).toNat) ∧
    ((v.get r).toNat ≤ bound → (∀ c, (r, c) ∈ l → c.toNat ≤ bound) →
      ((l.foldl raise v).get r).toNat ≤ bound) := by
  induction l generalizing v with
  | nil => exact ⟨le_rfl, nofun, fun h _ => h⟩
  | cons e l ih =>
    obtain ⟨hself, hlist, hbound⟩ := ih (v.raise e)
    refine ⟨(le_get_raise v e r).trans hself, fun c hc => ?_, fun hv hl => hbound ?_ fun c hc =>
      hl c (.tail _ hc)⟩
    · rcases List.mem_cons.mp hc with rfl | hc
      · refine Nat.le_trans ?_ hself
        rw [get_raise_self v (r, c)]
        exact le_max_right _ _
      · exact hlist c hc
    · by_cases hr : e.1 = r
      · subst hr
        rw [get_raise_self]
        exact max_le hv (hl e.2 List.mem_cons_self)
      · rwa [raise, get_set_of_ne _ hr]

theorem le_merge_left (v w : VersionVector) (r : ReplicaId) :
    (v.get r).toNat ≤ ((v.merge w).get r).toNat :=
  (foldl_raise _ v r 0).1

theorem le_merge_right (v w : VersionVector) (r : ReplicaId) :
    (w.get r).toNat ≤ ((v.merge w).get r).toNat := by
  cases hr : w.clocks[r]? with
  | none =>
    rw [get, hr]
    exact Nat.zero_le _
  | some c =>
    rw [get, hr]
    exact (foldl_raise _ v r 0).2.1 c (ExtTreeMap.mem_toList_iff_getElem?_eq_some.mpr hr)

theorem merge_le (hv : (v.get r).toNat ≤ bound) (hw : (w.get r).toNat ≤ bound) :
    ((v.merge w).get r).toNat ≤ bound := by
  refine (foldl_raise _ v r bound).2.2 hv fun c hc => ?_
  rw [get, ExtTreeMap.mem_toList_iff_getElem?_eq_some.mp hc] at hw
  exact hw

end VersionVector

/-! ## Sets of dotted values -/

structure Dot where
  replicaHash : U64
  counter : U64
deriving DecidableEq

structure DvvSet (T : Type) where
  entries : List (Dot × T)
  context : VersionVector

namespace DvvSet

def new : DvvSet T := ⟨[], .new⟩

/-- The two `retain`s, of which the first one keeps everything. -/
def write (s : DvvSet T) (replica : ReplicaId) (replicaHash : U64) (value : T) :
    Option (DvvSet T) :=
  (s.context.tick replica).map fun p =>
    ⟨s.entries.filter (fun e => !(e.1.replicaHash == replicaHash && decide (e.1.counter < p.1))) ++
      [(⟨replicaHash, p.1⟩, value)], p.2⟩

def addEntry (entries : List (Dot × T)) (e : Dot × T) : List (Dot × T) :=
  if entries.any fun e' => e'.1 = e.1 then entries else entries ++ [e]

/-- `per_replica_max.get(h).unwrap_or(0)`. -/
def perReplicaMax (entries : List (Dot × T)) (h : U64) : U64 :=
  entries.foldl (fun m e => if e.1.replicaHash = h ∧ m < e.1.counter then e.1.counter else m) 0

def merge (s other : DvvSet T) : DvvSet T :=
  let entries := other.entries.foldl addEntry s.entries
  ⟨entries.filter fun e => perReplicaMax entries e.1.replicaHash = e.1.counter,
    s.context.merge other.context⟩

section Entries

variable {entries entries' : List (Dot × T)} {e : Dot × T} {h : U64}

theorem mem_addEntry {e' : Dot × T} : e' ∈ addEntry entries e ↔
    e' ∈ entries ∨ (e' = e ∧ ∀ e₁ ∈ entries, e₁.1 ≠ e.1) := by
  unfold addEntry
  split_ifs with hany
  · rw [List.any_eq_true] at hany
    obtain ⟨e₁, hmem, heq⟩ := hany
    exact (or_iff_left fun hnew => hnew.2 e₁ hmem (of_decide_eq_true heq)).symm
  · rw [List.mem_append, List.mem_singleton]
    refine or_congr_right (and_iff_left fun e₁ hmem heq => hany ?_).symm
    exact List.any_eq_true.mpr ⟨e₁, hmem, decide_eq_true heq⟩

theorem nodup_addEntry (hnodup : (entries.map Prod.fst).Nodup) (e : Dot × T) :
    ((addEntry entries e).map Prod.fst).Nodup := by
  unfold addEntry
  split_ifs with hany
  · exact hnodup
  · rw [List.map_append, List.map_singleton, ← List.concat_eq_append]
    refine hnodup.concat fun hmem => hany ?_
    obtain ⟨e', he', heq⟩ := List.mem_map.mp hmem
    exact List.any_eq_true.mpr ⟨e', he', decide_eq_true heq⟩

theorem nodup_foldl_addEntry (hnodup : (entries.map Prod.fst).Nodup) (entries' : List (Dot × T)) :
    ((entries'.foldl addEntry entries).map Prod.fst).Nodup := by
  induction entries' generalizing entries with
  | nil => exact hnodup
  | cons e entries' ih => exact ih (nodup_addEntry hnodup e)

/-- All entries, if a dot has only one value. -/
theorem mem_foldl_addEntry (hsame : ∀ e ∈ entries, ∀ e' ∈ entries', e.1 = e'.1 → e = e')
    (hself : ∀ e ∈ entries', ∀ e' ∈ entries', e.1 = e'.1 → e = e') :
    e ∈ entries'.foldl addEntry entries ↔ e ∈ entries ∨ e ∈ entries' := by
  induction entries' generalizing entries with
  | nil => exact (or_iff_left (List.not_mem_nil)).symm
  | cons a entries' ih =>
    have hstep : ∀ e ∈ addEntry entries a, ∀ e' ∈ entries', e.1 = e'.1 → e = e' := by
      intro e he e' he'
      rcases mem_addEntry.mp he with he | ⟨rfl, -⟩
      · exact hsame e he e' (.tail _ he')
      · exact hself e (.head _) e' (.tail _ he')
    rw [List.foldl_cons, ih hstep fun e he e' he' => hself e (.tail _ he) e' (.tail _ he'),
      mem_addEntry, List.mem_cons]
    constructor
    · rintro ((he | ⟨rfl, -⟩) | he)
      · exact .inl he
      · exact .inr (.inl rfl)
      · exact .inr (.inr he)
    · rintro (he | rfl | he)
      · exact .inl (.inl he)
      · by_cases hnew : ∀ e₁ ∈ entries, e₁.1 ≠ e.1
        · exact .inl (.inr ⟨rfl, hnew⟩)
        · push Not at hnew
          obtain ⟨e₁, hmem, heq⟩ := hnew
          exact .inl (.inl (hsame e₁ hmem e (.head _) heq ▸ hmem))
      · exact .inr he

theorem foldl_max (entries : List (Dot × T)) (h m : U64) :
    let top :=
      entries.foldl (fun m e => if e.1.replicaHash = h ∧ m < e.1.counter then e.1.counter else m) m
    m.toNat ≤ top.toNat ∧ (∀ e ∈ entries, e.1.replicaHash = h → e.1.counter.toNat ≤ top.toNat) ∧
      (top = m ∨ ∃ e ∈ entries, e.1.replicaHash = h ∧ e.1.counter = top) := by
  induction entries generalizing m with
  | nil => exact ⟨le_rfl, nofun, .inl rfl⟩
  | cons a entries ih =>
    intro top
    obtain ⟨hm, hle, htop⟩ := ih (if a.1.replicaHash = h ∧ m < a.1.counter then a.1.counter else m)
    rw [show List.foldl _ _ entries = top from rfl] at hm hle htop
    split_ifs at hm htop with ha
    · refine ⟨(Nat.le_of_lt (BitVec.lt_def.mp ha.2)).trans hm, fun e he heq => ?_, .inr ?_⟩
      · rcases List.mem_cons.mp he with rfl | he
        · exact hm
        · exact hle e he heq
      · rcases htop with htop | ⟨e, he, htop⟩
        · exact ⟨a, .head _, ha.1, htop.symm⟩
        · exact ⟨e, .tail _ he, htop⟩
    · refine ⟨hm, fun e he heq => ?_, htop.imp_right fun ⟨e, he, htop⟩ => ⟨e, .tail _ he, htop⟩⟩
      rcases List.mem_cons.mp he with rfl | he
      · have hsmall := BitVec.le_def.mp (BitVec.not_lt.mp fun hlt => ha ⟨heq, hlt⟩)
        exact hsmall.trans hm
      · exact hle e he heq

/-- The newest entries of their replicas. -/
theorem perReplicaMax_eq (he : e ∈ entries) : perReplicaMax entries e.1.replicaHash = e.1.counter ↔
    ∀ e' ∈ entries, e'.1.replicaHash = e.1.replicaHash →
      e'.1.counter.toNat ≤ e.1.counter.toNat := by
  obtain ⟨-, hle, htop⟩ := foldl_max entries e.1.replicaHash 0
  rw [show List.foldl _ _ entries = perReplicaMax entries e.1.replicaHash from rfl] at hle htop
  constructor
  · intro heq e' he' hsame
    rw [← heq]
    exact hle e' he' hsame
  · intro hnewest
    refine BitVec.eq_of_toNat_eq (Nat.le_antisymm ?_ (hle e he rfl))
    rcases htop with htop | ⟨e', he', hsame, htop⟩
    · rw [htop]
      exact Nat.zero_le _
    · rw [← htop]
      exact hnewest e' he' hsame

end Entries

/-- What a write keeps, and its own value. -/
theorem write_spec {s s' : DvvSet T} {replica : ReplicaId} {replicaHash : U64} {value : T}
    (h : s.write replica replicaHash value = some s') : ∃ counter : U64,
      counter.toNat = (s.context.get replica).toNat + 1 ∧ s'.context =
        s.context.set replica counter ∧
      s'.entries =
        s.entries.filter
        (fun e => !(e.1.replicaHash == replicaHash && decide (e.1.counter < counter))) ++
        [(⟨replicaHash, counter⟩, value)] := by
  obtain ⟨⟨counter, context⟩, htick, rfl⟩ := Option.map_eq_some_iff.mp h
  obtain ⟨hcounter, rfl⟩ := VersionVector.tick_eq_some.mp htick
  exact ⟨counter, hcounter, rfl, rfl⟩

/-- What a merge keeps. -/
theorem mem_merge {s other : DvvSet T} {e : Dot × T}
    (hsame : ∀ e ∈ s.entries, ∀ e' ∈ other.entries, e.1 = e'.1 → e = e')
    (hself : ∀ e ∈ other.entries, ∀ e' ∈ other.entries, e.1 = e'.1 → e = e') :
    e ∈ (s.merge other).entries ↔ (e ∈ s.entries ∨ e ∈ other.entries) ∧
      ∀ e', e' ∈ s.entries ∨ e' ∈ other.entries → e'.1.replicaHash = e.1.replicaHash →
        e'.1.counter.toNat ≤ e.1.counter.toNat := by
  simp only [merge, List.mem_filter, decide_eq_true_eq]
  refine (and_congr_right perReplicaMax_eq).trans ?_
  simp only [mem_foldl_addEntry hsame hself]

end DvvSet

end P2P333.Crdt333
