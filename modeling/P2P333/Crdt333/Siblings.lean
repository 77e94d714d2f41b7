import P2P333.Crdt333.Dvv
import P2P333.Lib.Machine

/-!
# Siblings

Replicas that write to their `DvvSet`s and merge copies of them. A write follows the writes that its
replica has seen. A set holds the newest write of each writer that it has seen, and these are the
writes that no other one follows just as long as nobody writes to a set that holds a value of
somebody else.

Results:
1. `Inv.step`: a set holds the newest write of each writer that it has seen.
2. `exact_iff`: when these are the writes that are not followed by another one.
3. `siblings_iff`: in which runs they are.
-/

namespace P2P333.Crdt333

open Std Lib Transfer333 Machine Function

variable {T ι : Type}

/-! ## Replicas -/

/-- Replicas with different ids and different hashes. -/
structure Replicas (ι : Type) where
  id : ι → ReplicaId
  hash : ι → U64
  id_injective : Injective id
  hash_injective : Injective hash

/-- A write with the writes that its replica had seen. -/
structure Write (ι T : Type) where
  writer : ι
  counter : U64
  value : T
  past : List (ι × U64)
deriving DecidableEq

namespace Write

def dot (w : Write ι T) : ι × U64 := (w.writer, w.counter)

def entry (R : Replicas ι) (w : Write ι T) : Dot × T := (⟨R.hash w.writer, w.counter⟩, w.value)

/-- `w'` was made where `w` had been seen. -/
def FollowedBy (w w' : Write ι T) : Prop := w.dot ∈ w'.past

end Write

/-- A set with the writes that it has seen, directly or through merges. -/
structure Site (ι T : Type) where
  set : DvvSet T
  seen : List (Write ι T)

/-- The replicas, the copies that were made of their sets, and all writes. -/
structure Siblings (ι T : Type) where
  sites : ι → Site ι T
  copies : List (Site ι T)
  made : List (Write ι T)

/-- What happens to the replicas of a register. -/
inductive SiblingOp (ι T : Type) where
  | write (i : ι) (value : T)
  | copy (i : ι)
  | merge (i : ι) (n : Nat)

namespace Site

/-- The values are those of the writes that were seen, less those that another one of them follows.
-/
structure Exact (R : Replicas ι) (x : Site ι T) : Prop where
  nodup : x.set.entries.Nodup
  mem_iff : ∀ e, e ∈ x.set.entries ↔
    ∃ w ∈ x.seen, w.entry R = e ∧ ∀ w' ∈ x.seen, ¬ w.FollowedBy w'

/-- The newest write of its writer. -/
def Newest (x : Site ι T) (w : Write ι T) : Prop :=
  w ∈ x.seen ∧ ∀ w' ∈ x.seen, w'.writer = w.writer → w'.counter.toNat ≤ w.counter.toNat

structure Good (R : Replicas ι) (x : Site ι T) : Prop where
  nodup : (x.set.entries.map Prod.fst).Nodup
  held : ∀ e, e ∈ x.set.entries ↔ ∃ w, x.Newest w ∧ w.entry R = e
  bound : ∀ w ∈ x.seen, w.counter.toNat ≤ (x.set.context.get (R.id w.writer)).toNat
  closed : ∀ w ∈ x.seen, ∀ d ∈ w.past, ∃ w' ∈ x.seen, w'.dot = d

end Site

namespace Siblings

variable {R : Replicas ι} {s s' : Siblings ι T} {x a b : Site ι T} {w w' : Write ι T} {i j : ι}

def start : Siblings ι T := ⟨fun _ => ⟨.new, []⟩, [], []⟩

/-- The site after a write, with the write. -/
def written (R : Replicas ι) (x : Site ι T) (i : ι) (value : T) : Option (Write ι T × Site ι T) :=
  (x.set.write (R.id i) (R.hash i) value).map fun set =>
    let w : Write ι T := ⟨i, set.context.get (R.id i), value, x.seen.map Write.dot⟩
    (w, ⟨set, w :: x.seen⟩)

def merged (x y : Site ι T) : Site ι T := ⟨x.set.merge y.set, x.seen ++ y.seen⟩

def step [DecidableEq ι] (R : Replicas ι) (s : Siblings ι T) : SiblingOp ι T →
    Option (Unit × Siblings ι T)
  | .write i value => (written R (s.sites i) i value).map fun r =>
    ((), { s with sites := update s.sites i r.2, made := r.1 :: s.made })
  | .copy i => some ((), { s with copies := s.copies ++ [s.sites i] })
  | .merge i n => match s.copies[n]? with
    | none => some ((), s)
    | some y => some ((), { s with sites := update s.sites i (merged (s.sites i) y) })

/-- A replica or a copy. -/
def Has (s : Siblings ι T) (x : Site ι T) : Prop := (∃ i, s.sites i = x) ∨ x ∈ s.copies

/-- Every set is as it should be. -/
def Exact (R : Replicas ι) (s : Siblings ι T) : Prop := ∀ x, s.Has x → x.Exact R

/-- Only sets without values of others are written to, unless the counter overflows. -/
def Alone (R : Replicas ι) (s : Siblings ι T) : SiblingOp ι T → Prop
  | .write i _ => ((s.sites i).set.context.get (R.id i)).toNat + 1 < 2 ^ 64 →
    ∀ e ∈ (s.sites i).set.entries, e.1.replicaHash = R.hash i
  | _ => True

structure Inv (R : Replicas ι) (s : Siblings ι T) : Prop where
  good : ∀ x, s.Has x → x.Good R
  sub : ∀ x, s.Has x → x.seen ⊆ s.made
  own : ∀ w ∈ s.made, w ∈ (s.sites w.writer).seen
  ahead : ∀ x, s.Has x → ∀ j,
    (x.set.context.get (R.id j)).toNat ≤ ((s.sites j).set.context.get (R.id j)).toNat
  unique : ∀ w ∈ s.made, ∀ w' ∈ s.made, w.dot = w'.dot → w = w'
  ordered : ∀ w ∈ s.made, ∀ w' ∈ s.made, w.writer = w'.writer → w.counter.toNat < w'.counter.toNat →
    w.FollowedBy w'
  before : ∀ w ∈ s.made, ∀ c, (w.writer, c) ∈ w.past → c.toNat < w.counter.toNat

/-! ## The newest writes -/

theorem entry_injective (hw : w ∈ s.made) (hw' : w' ∈ s.made) (h : s.Inv R)
    (heq : w.entry R = w'.entry R) :
    w = w' := by
  have hdot : (⟨R.hash w.writer, w.counter⟩ : Dot) = ⟨R.hash w'.writer, w'.counter⟩ :=
    congrArg Prod.fst heq
  rw [Dot.mk.injEq] at hdot
  exact h.unique w hw w' hw' (Prod.ext (R.hash_injective hdot.1) hdot.2)

/-- Every writer that was seen has a newest write. -/
theorem exists_newest (hw : w ∈ x.seen) : ∃ w', x.Newest w' ∧ w'.writer = w.writer ∧
    w.counter.toNat ≤ w'.counter.toNat := by
  have hfinite : {v : Write ι T | v ∈ x.seen ∧ v.writer = w.writer}.Finite :=
    (List.finite_toSet x.seen).subset fun _ hv => hv.1
  obtain ⟨w', ⟨hmem, hwriter⟩, hmax⟩ :=
    Set.exists_max_image _ (fun v => v.counter.toNat) hfinite ⟨w, hw, rfl⟩
  exact ⟨w', ⟨hmem, fun v hv heq => hmax v ⟨hv, heq.trans hwriter⟩⟩, hwriter, hmax w ⟨hw, rfl⟩⟩

/-- What is held is not followed by another write exactly if the newest writes are not. -/
theorem exact_iff (h : s.Inv R) (hx : s.Has x) :
    x.Exact R ↔ ∀ w, x.Newest w → ∀ w' ∈ x.seen, ¬ w.FollowedBy w' := by
  have hsub := h.sub x hx
  have hgood := h.good x hx
  constructor
  · intro hexact w hw
    obtain ⟨v, hv, heq, hfree⟩ := (hexact.mem_iff _).mp ((hgood.held _).mpr ⟨w, hw, rfl⟩)
    rwa [← entry_injective (hsub hv) (hsub hw.1) h heq]
  · intro hfree
    refine ⟨List.Nodup.of_map _ hgood.nodup, fun e => (hgood.held e).trans ?_⟩
    constructor
    · rintro ⟨w, hw, heq⟩
      exact ⟨w, hw.1, heq, hfree w hw⟩
    · rintro ⟨w, hw, heq, hnot⟩
      refine ⟨w, ⟨hw, fun w' hw' hwriter => ?_⟩, heq⟩
      by_contra hlt
      exact hnot w' hw' (h.ordered w (hsub hw) w' (hsub hw') hwriter.symm (Nat.lt_of_not_le hlt))

/-! ## Writes -/

section Writes

variable {value : T} {y : Site ι T}

/-- A write is the next one of its replica, and follows all that its replica has seen. -/
structure Written (R : Replicas ι) (x : Site ι T) (i : ι) (w : Write ι T)
    (y : Site ι T) : Prop where
  writer : w.writer = i
  next : w.counter.toNat = (x.set.context.get (R.id i)).toNat + 1
  past : w.past = x.seen.map Write.dot
  seen : y.seen = w :: x.seen
  context : y.set.context = x.set.context.set (R.id i) w.counter
  entries : y.set.entries = x.set.entries.filter
    (fun e => !(e.1.replicaHash == R.hash i && decide (e.1.counter < w.counter))) ++ [w.entry R]

theorem written_spec (h : written R x i value = some (w, y)) : Written R x i w y := by
  obtain ⟨set, hset, heq⟩ := Option.map_eq_some_iff.mp h
  obtain ⟨counter, hcounter, hcontext, hentries⟩ := DvvSet.write_spec hset
  have hget : set.context.get (R.id i) = counter := by
    rw [hcontext, VersionVector.get_set_self]
  rw [Prod.mk.injEq] at heq
  obtain ⟨rfl, rfl⟩ := heq
  refine ⟨rfl, by rw [hget, hcounter], rfl, rfl, by rw [hget, hcontext], ?_⟩
  rw [hget, hentries]
  rfl

theorem written_eq_none : written R x i value = none ↔
    2 ^ 64 ≤ (x.set.context.get (R.id i)).toNat + 1 := by
  rw [written, Option.map_eq_none_iff, DvvSet.write, Option.map_eq_none_iff, VersionVector.tick,
    Option.map_eq_none_iff, checkedAdd_eq_none]
  rfl

theorem Written.older (hw : Written R x i w y) (hx : x.Good R) (hw' : w' ∈ x.seen)
    (hi : w'.writer = i) :
    w'.counter.toNat < w.counter.toNat := by
  have hbound := hx.bound w' hw'
  rw [hi] at hbound
  exact Nat.lt_of_le_of_lt hbound (hw.next ▸ Nat.lt_succ_self _)

/-- The new write and the newest ones of the others. -/
theorem Written.newest_iff (hw : Written R x i w y) (hx : x.Good R) :
    y.Newest w' ↔ w' = w ∨ (x.Newest w' ∧ w'.writer ≠ i) := by
  rw [Site.Newest, hw.seen]
  constructor
  · rintro ⟨hmem, hmax⟩
    refine (List.mem_cons.mp hmem).imp_right fun hmem => ?_
    refine ⟨⟨hmem, fun v hv => hmax v (.tail _ hv)⟩, fun hi => ?_⟩
    exact absurd (hmax w (.head _) (hw.writer.trans hi.symm)) (Nat.not_le.mpr (hw.older hx hmem hi))
  · rintro (rfl | ⟨⟨hmem, hmax⟩, hi⟩)
    · refine ⟨.head _, fun v hv hwriter => ?_⟩
      rcases List.mem_cons.mp hv with rfl | hv
      · exact le_rfl
      · exact (hw.older hx hv (hwriter.trans hw.writer)).le
    · refine ⟨.tail _ hmem, fun v hv hwriter => ?_⟩
      rcases List.mem_cons.mp hv with rfl | hv
      · exact absurd (hwriter.symm.trans hw.writer) hi
      · exact hmax v hv hwriter

/-- The values of the others stay. -/
theorem Written.mem_entries (hw : Written R x i w y) (hx : x.Good R) {e : Dot × T} :
    e ∈ y.set.entries ↔ (e ∈ x.set.entries ∧ e.1.replicaHash ≠ R.hash i) ∨ e = w.entry R := by
  rw [hw.entries, List.mem_append, List.mem_singleton, List.mem_filter]
  refine or_congr_left (and_congr_right fun he => ?_)
  obtain ⟨v, hv, rfl⟩ := (hx.held e).mp he
  rw [Bool.not_eq_true', Bool.and_eq_false_iff, beq_eq_false_iff_ne]
  refine or_iff_left_of_imp fun hnew hhash => ?_
  have hlt : v.counter < w.counter := BitVec.lt_def.mpr (hw.older hx hv.1 (R.hash_injective hhash))
  exact absurd hlt (of_decide_eq_false hnew)

theorem Written.good (hw : Written R x i w y) (hx : x.Good R) : y.Good R where
  nodup := by
    rw [hw.entries, List.map_append, List.map_singleton, ← List.concat_eq_append]
    refine (hx.nodup.sublist (List.filter_sublist.map _)).concat fun hmem => ?_
    obtain ⟨e, he, heq⟩ := List.mem_map.mp hmem
    obtain ⟨v, hv, rfl⟩ := (hx.held e).mp (List.mem_filter.mp he).1
    have hdot : (⟨R.hash v.writer, v.counter⟩ : Dot) = ⟨R.hash w.writer, w.counter⟩ := heq
    rw [Dot.mk.injEq] at hdot
    have holder := hw.older hx hv.1 ((R.hash_injective hdot.1).trans hw.writer)
    rw [hdot.2] at holder
    exact lt_irrefl _ holder
  held e := by
    simp only [hw.mem_entries hx, hw.newest_iff hx, hx.held]
    constructor
    · rintro (⟨⟨v, hv, rfl⟩, hhash⟩ | rfl)
      · exact ⟨v, .inr ⟨hv, fun hi => hhash (congrArg R.hash hi)⟩, rfl⟩
      · exact ⟨w, .inl rfl, rfl⟩
    · rintro ⟨v, rfl | ⟨hv, hi⟩, rfl⟩
      · exact .inr rfl
      · exact .inl ⟨⟨v, hv, rfl⟩, fun hhash => hi (R.hash_injective hhash)⟩
  bound v hv := by
    rw [hw.seen] at hv
    rw [hw.context]
    by_cases hi : v.writer = i
    · rw [hi, VersionVector.get_set_self]
      rcases List.mem_cons.mp hv with rfl | hv
      · exact le_rfl
      · exact (hw.older hx hv hi).le
    · rw [VersionVector.get_set_of_ne _ fun heq => hi (R.id_injective heq).symm]
      rcases List.mem_cons.mp hv with rfl | hv
      · exact absurd hw.writer hi
      · exact hx.bound v hv
  closed v hv d hd := by
    rw [hw.seen] at hv ⊢
    rcases List.mem_cons.mp hv with rfl | hv
    · rw [hw.past] at hd
      obtain ⟨v', hv', hdot⟩ := List.mem_map.mp hd
      exact ⟨v', .tail _ hv', hdot⟩
    · obtain ⟨v', hv', hdot⟩ := hx.closed v hv d hd
      exact ⟨v', .tail _ hv', hdot⟩

end Writes

/-! ## Merges -/

section Merges

/-- The writes of both sides. -/
theorem newest_merged {x y : Site ι T} : (merged x y).Newest w ↔
    (x.Newest w ∨ y.Newest w) ∧ ∀ w', x.Newest w' ∨ y.Newest w' → w'.writer = w.writer →
      w'.counter.toNat ≤ w.counter.toNat := by
  rw [Site.Newest, merged]
  simp only [List.mem_append]
  constructor
  · rintro ⟨hmem, hmax⟩
    refine ⟨hmem.imp (fun hx => ⟨hx, fun v hv => hmax v (.inl hv)⟩) fun hy =>
      ⟨hy, fun v hv => hmax v (.inr hv)⟩, ?_⟩
    exact fun v hv => hmax v (hv.imp And.left And.left)
  · rintro ⟨hmem, hmax⟩
    refine ⟨hmem.imp And.left And.left, fun v hv hwriter => ?_⟩
    rcases hv with hv | hv
    · obtain ⟨v', hv', heq, hle⟩ := exists_newest hv
      exact hle.trans (hmax v' (.inl hv') (heq.trans hwriter))
    · obtain ⟨v', hv', heq, hle⟩ := exists_newest hv
      exact hle.trans (hmax v' (.inr hv') (heq.trans hwriter))

theorem Inv.good_merged (h : s.Inv R) (ha : s.Has a) (hb : s.Has b) : (merged a b).Good R := by
  have hsame : ∀ {x y : Site ι T}, s.Has x → s.Has y → ∀ e ∈ x.set.entries, ∀ e' ∈ y.set.entries,
      e.1 = e'.1 → e = e' := by
    intro x y hx hy e he e' he' hdot
    obtain ⟨v, hv, rfl⟩ := ((h.good x hx).held e).mp he
    obtain ⟨v', hv', rfl⟩ := ((h.good y hy).held e').mp he'
    rw [Write.entry, Write.entry, Dot.mk.injEq] at hdot
    rw [h.unique v (h.sub x hx hv.1) v' (h.sub y hy hv'.1)
      (Prod.ext (R.hash_injective hdot.1) hdot.2)]
  refine ⟨?_, fun e => ?_, fun v hv => ?_, fun v hv d hd => ?_⟩
  · exact (DvvSet.nodup_foldl_addEntry (h.good a ha).nodup _).sublist (List.filter_sublist.map _)
  · rw [merged, DvvSet.mem_merge (hsame ha hb) (hsame hb hb)]
    simp only [(h.good a ha).held, (h.good b hb).held]
    constructor
    · rintro ⟨hmem, hmax⟩
      obtain ⟨v, hv, rfl⟩ : ∃ v, (a.Newest v ∨ b.Newest v) ∧ v.entry R = e := by
        rcases hmem with ⟨v, hv, heq⟩ | ⟨v, hv, heq⟩
        · exact ⟨v, .inl hv, heq⟩
        · exact ⟨v, .inr hv, heq⟩
      refine ⟨v, newest_merged.mpr ⟨hv, fun v' hv' hwriter => ?_⟩, rfl⟩
      exact hmax (v'.entry R) (hv'.imp (fun h => ⟨v', h, rfl⟩) fun h => ⟨v', h, rfl⟩)
        (congrArg R.hash hwriter)
    · rintro ⟨v, hv, rfl⟩
      obtain ⟨hside, hmax⟩ := newest_merged.mp hv
      refine ⟨hside.imp (fun h => ⟨v, h, rfl⟩) fun h => ⟨v, h, rfl⟩, ?_⟩
      rintro e' (⟨v', hv', rfl⟩ | ⟨v', hv', rfl⟩) hhash
      · exact hmax v' (.inl hv') (R.hash_injective hhash)
      · exact hmax v' (.inr hv') (R.hash_injective hhash)
  · rcases List.mem_append.mp hv with hv | hv
    · exact ((h.good a ha).bound v hv).trans (VersionVector.le_merge_left ..)
    · exact ((h.good b hb).bound v hv).trans (VersionVector.le_merge_right ..)
  · rcases List.mem_append.mp hv with hv | hv
    · obtain ⟨v', hv', hdot⟩ := (h.good a ha).closed v hv d hd
      exact ⟨v', List.mem_append_left _ hv', hdot⟩
    · obtain ⟨v', hv', hdot⟩ := (h.good b hb).closed v hv d hd
      exact ⟨v', List.mem_append_right _ hv', hdot⟩

/-- A merge of two sets without followed values has none. -/
theorem Inv.exact_merged (h : s.Inv R) (ha : s.Has a) (hb : s.Has b) (hexact : a.Exact R)
    (hexact' : b.Exact R)
    (hw : (merged a b).Newest w) (hw' : w' ∈ (merged a b).seen) : ¬ w.FollowedBy w' := by
  have hside : ∀ {x : Site ι T}, s.Has x → x.Exact R → w' ∈ x.seen → x.seen ⊆ (merged a b).seen →
      ¬ w.FollowedBy w' := by
    intro x hx hexact hw' hsub hfollowed
    obtain ⟨v, hv, hdot⟩ := (h.good x hx).closed w' hw' _ hfollowed
    have hmade : w ∈ s.made := by
      rcases List.mem_append.mp hw.1 with hmem | hmem
      · exact h.sub a ha hmem
      · exact h.sub b hb hmem
    have heq := h.unique v (h.sub x hx hv) w hmade hdot
    subst heq
    exact (exact_iff h hx).mp hexact v ⟨hv, fun u hu => hw.2 u (hsub hu)⟩ w' hw' hfollowed
  rcases List.mem_append.mp hw' with hmem | hmem
  · exact hside ha hexact hmem fun _ => List.mem_append_left _
  · exact hside hb hexact' hmem fun _ => List.mem_append_right _

end Merges

/-! ## Steps -/

theorem inv_start (R : Replicas ι) : (start : Siblings ι T).Inv R where
  good x hx := by
    obtain ⟨-, rfl⟩ | hcopy := hx
    · refine ⟨List.nodup_nil, fun e => iff_of_false List.not_mem_nil ?_, nofun, nofun⟩
      rintro ⟨w, hw, -⟩
      exact List.not_mem_nil hw.1
    · exact absurd hcopy List.not_mem_nil
  sub x hx := by
    obtain ⟨-, rfl⟩ | hcopy := hx
    · exact List.nil_subset _
    · exact absurd hcopy List.not_mem_nil
  own := nofun
  ahead x hx j := by
    obtain ⟨-, rfl⟩ | hcopy := hx
    · exact le_rfl
    · exact absurd hcopy List.not_mem_nil
  unique := nofun
  ordered := nofun
  before := nofun

theorem exact_start (R : Replicas ι) : (start : Siblings ι T).Exact R := by
  rintro x (⟨-, rfl⟩ | hcopy)
  · refine ⟨List.nodup_nil, fun e => iff_of_false List.not_mem_nil ?_⟩
    rintro ⟨w, hw, -⟩
    exact List.not_mem_nil hw
  · exact absurd hcopy List.not_mem_nil

theorem has_copy {s : Siblings ι T}
    (h : (Siblings.mk s.sites (s.copies ++ [s.sites i]) s.made).Has x) : s.Has x := by
  rcases h with hsite | hcopy
  · exact .inl hsite
  · rcases List.mem_append.mp hcopy with hcopy | hnew
    · exact .inr hcopy
    · exact .inl ⟨i, (List.mem_singleton.mp hnew).symm⟩

section Steps

variable [DecidableEq ι] {y : Site ι T} {u : Unit} {op : SiblingOp ι T}

/-- The set of one replica, and all writes. -/
def setSite (s : Siblings ι T) (i : ι) (y : Site ι T) (made : List (Write ι T)) : Siblings ι T :=
  ⟨update s.sites i y, s.copies, made⟩

theorem has_setSite {made : List (Write ι T)} (h : (s.setSite i y made).Has x) :
    x = y ∨ s.Has x := by
  rcases h with ⟨j, rfl⟩ | hcopy
  · by_cases hj : j = i
    · subst hj
      exact .inl (update_self ..)
    · exact .inr (.inl ⟨j, (update_of_ne hj ..).symm⟩)
  · exact .inr (.inr hcopy)

theorem setSite_self (s : Siblings ι T) (i : ι) (y : Site ι T) (made : List (Write ι T)) :
    (s.setSite i y made).sites i = y := update_self ..

theorem setSite_of_ne (s : Siblings ι T) (y : Site ι T) (made : List (Write ι T)) (h : j ≠ i) :
    (s.setSite i y made).sites j = s.sites j := update_of_ne h ..

theorem Inv.merge (h : s.Inv R) (hb : s.Has b) :
    (s.setSite i (merged (s.sites i) b) s.made).Inv R := by
  have ha : s.Has (s.sites i) := .inl ⟨i, rfl⟩
  have hgrown : ∀ j, ((s.sites j).set.context.get (R.id j)).toNat ≤
      (((s.setSite i (merged (s.sites i) b) s.made).sites j).set.context.get (R.id j)).toNat := by
    intro j
    by_cases hj : j = i
    · subst hj
      rw [setSite_self]
      exact VersionVector.le_merge_left ..
    · rw [setSite_of_ne _ _ _ hj]
  refine ⟨fun x hx => ?_, fun x hx => ?_, fun w hw => ?_, fun x hx j => ?_, h.unique,
    h.ordered, h.before⟩
  · rcases has_setSite hx with rfl | hx
    · exact h.good_merged ha hb
    · exact h.good x hx
  · rcases has_setSite hx with rfl | hx
    · exact List.append_subset.mpr ⟨h.sub _ ha, h.sub b hb⟩
    · exact h.sub x hx
  · by_cases hi : w.writer = i
    · rw [hi, setSite_self]
      exact List.mem_append_left _ (hi ▸ h.own w hw)
    · rw [setSite_of_ne _ _ _ hi]
      exact h.own w hw
  · refine Nat.le_trans ?_ (hgrown j)
    rcases has_setSite hx with rfl | hx
    · exact VersionVector.merge_le (h.ahead _ ha j) (h.ahead b hb j)
    · exact h.ahead x hx j

theorem Inv.write (h : s.Inv R) (hw : Written R (s.sites i) i w y) :
    (s.setSite i y (w :: s.made)).Inv R := by
  have ha : s.Has (s.sites i) := .inl ⟨i, rfl⟩
  -- The writer has seen its own writes, so that the new counter is above theirs.
  have holder : ∀ {v}, v ∈ s.made → v.writer = i → v.counter.toNat < w.counter.toNat := by
    intro v hv hi
    exact hw.older (h.good _ ha) (hi ▸ h.own v hv) hi
  have hgrown : ∀ j, ((s.sites j).set.context.get (R.id j)).toNat ≤
      (((s.setSite i y (w :: s.made)).sites j).set.context.get (R.id j)).toNat := by
    intro j
    by_cases hj : j = i
    · subst hj
      rw [setSite_self, hw.context, VersionVector.get_set_self, hw.next]
      exact Nat.le_succ _
    · rw [setSite_of_ne _ _ _ hj]
  refine ⟨fun x hx => ?_, fun x hx => ?_, fun v hv => ?_, fun x hx j => ?_, ?_, ?_, ?_⟩
  · rcases has_setSite hx with rfl | hx
    · exact hw.good (h.good _ ha)
    · exact h.good x hx
  · rcases has_setSite hx with rfl | hx
    · rw [hw.seen]
      exact List.cons_subset_cons w (h.sub _ ha)
    · exact fun v hv => .tail _ (h.sub x hx hv)
  · by_cases hi : v.writer = i
    · rw [hi, setSite_self, hw.seen]
      exact (List.mem_cons.mp hv).elim (fun heq => heq ▸ .head _) fun hv =>
        .tail _ (hi ▸ h.own v hv)
    · rw [setSite_of_ne _ _ _ hi]
      rcases List.mem_cons.mp hv with rfl | hv
      · exact absurd hw.writer hi
      · exact h.own v hv
  · rcases has_setSite hx with rfl | hx
    · by_cases hj : j = i
      · rw [hj, setSite_self]
      · rw [setSite_of_ne _ _ _ hj, hw.context, VersionVector.get_set_of_ne _ fun heq =>
          hj (R.id_injective heq).symm]
        exact h.ahead _ ha j
    · exact (h.ahead x hx j).trans (hgrown j)
  · intro v hv v' hv' hdot
    obtain ⟨hwriter, hcounter⟩ := Prod.mk.inj hdot
    rcases List.mem_cons.mp hv with rfl | hold
    · rcases List.mem_cons.mp hv' with rfl | hold'
      · rfl
      · exact absurd (holder hold' (hwriter.symm.trans hw.writer))
          (by rw [hcounter]; exact lt_irrefl _)
    · rcases List.mem_cons.mp hv' with rfl | hold'
      · exact absurd (holder hold (hwriter.trans hw.writer)) (by rw [hcounter]; exact lt_irrefl _)
      · exact h.unique v hold v' hold' hdot
  · intro v hv v' hv' hwriter hlt
    rcases List.mem_cons.mp hv' with rfl | hold'
    · rcases List.mem_cons.mp hv with rfl | hold
      · exact absurd hlt (lt_irrefl _)
      · have hi := hwriter.trans hw.writer
        rw [Write.FollowedBy, hw.past]
        exact List.mem_map_of_mem (hi ▸ h.own v hold)
    · rcases List.mem_cons.mp hv with rfl | hold
      · exact absurd hlt (lt_asymm (holder hold' (hwriter.symm.trans hw.writer)))
      · exact h.ordered v hold v' hold' hwriter hlt
  · intro v hv c hc
    rcases List.mem_cons.mp hv with rfl | hv
    · rw [hw.past] at hc
      obtain ⟨v', hv', hdot⟩ := List.mem_map.mp hc
      obtain ⟨hwriter, rfl⟩ := Prod.mk.inj hdot
      exact hw.older (h.good _ ha) hv' (hwriter.trans hw.writer)
    · exact h.before v hv c hc

/-- A set holds the newest write of each writer that it has seen. -/
theorem Inv.step (h : s.Inv R) (hstep : s.step R op = some (u, s')) : s'.Inv R := by
  cases op with
  | write i value =>
    obtain ⟨⟨w, y⟩, hw, heq⟩ := Option.map_eq_some_iff.mp hstep
    cases heq
    exact h.write (written_spec hw)
  | copy i =>
    cases hstep
    exact ⟨fun x hx => h.good x (has_copy hx), fun x hx => h.sub x (has_copy hx), h.own,
      fun x hx => h.ahead x (has_copy hx), h.unique, h.ordered, h.before⟩
  | merge i n =>
    rw [Siblings.step] at hstep
    cases hcopy : s.copies[n]? with
    | none =>
      rw [hcopy] at hstep
      cases hstep
      exact h
    | some b =>
      rw [hcopy] at hstep
      cases hstep
      exact h.merge (.inr (List.mem_of_getElem? hcopy))

/-- A merge keeps what the two sides have in common. -/
theorem exact_merge (h : s.Inv R) (hexact : s.Exact R) {i : ι} {n : Nat} {s' : Siblings ι T}
    (hs' : (failing (step R) (some s) (.merge i n)).2 = some s') : s'.Exact R := by
  obtain ⟨_, u, ⟨⟩, hstep⟩ := failing_eq_some.mp hs'
  have hinv := h.step hstep
  rw [step] at hstep
  cases hcopy : s.copies[n]? with
  | none =>
    rw [hcopy] at hstep
    cases hstep
    exact hexact
  | some b =>
    rw [hcopy] at hstep
    cases hstep
    have ha : s.Has (s.sites i) := .inl ⟨i, rfl⟩
    have hb : s.Has b := .inr (List.mem_of_getElem? hcopy)
    intro x hx
    rcases has_setSite hx with rfl | hold
    · exact (exact_iff hinv hx).mpr fun w hw w' => h.exact_merged ha hb (hexact _ ha)
        (hexact b hb) hw
    · exact hexact x hold

/-- A write keeps it where the site has seen only its own writes. -/
theorem exact_write (h : s.Inv R) (hexact : s.Exact R) (i : ι) (value : T) :
    (∀ s', (failing (step R) (some s) (.write i value)).2 = some s' → s'.Exact R) ↔
      s.Alone R (.write i value) := by
  have ha : s.Has (s.sites i) := .inl ⟨i, rfl⟩
  have hgood := h.good _ ha
  cases hwritten : written R (s.sites i) i value with
  | none =>
    have hfull := written_eq_none.mp hwritten
    refine iff_of_true (fun s' hs' => ?_) fun hroom => absurd hroom (Nat.not_lt.mpr hfull)
    obtain ⟨_, u, ⟨⟩, hstep⟩ := failing_eq_some.mp hs'
    rw [step, hwritten] at hstep
    cases hstep
  | some r =>
    obtain ⟨w, y⟩ := r
    have hw := written_spec hwritten
    have hroom : ((s.sites i).set.context.get (R.id i)).toNat + 1 < 2 ^ 64 :=
      hw.next ▸ w.counter.isLt
    have hstep : step R s (.write i value) = some ((), s.setSite i y (w :: s.made)) := by
      rw [step, hwritten]
      rfl
    have hinv := h.step hstep
    have hy : (s.setSite i y (w :: s.made)).Has y := .inl ⟨i, setSite_self ..⟩
    constructor
    · intro hall _ e he
      have hfree := (exact_iff hinv hy).mp (hall _ (failing_eq_some.mpr ⟨s, (), rfl, hstep⟩) y hy)
      obtain ⟨v, hv, rfl⟩ := (hgood.held e).mp he
      by_contra hother
      refine hfree v
        ((hw.newest_iff hgood).mpr (.inr ⟨hv, fun hi => hother (congrArg R.hash hi)⟩)) w ?_ ?_
      · rw [hw.seen]
        exact .head _
      · rw [Write.FollowedBy, hw.past]
        exact List.mem_map_of_mem hv.1
    · intro halone s' hs'
      obtain ⟨_, u, ⟨⟩, hs'⟩ := failing_eq_some.mp hs'
      rw [hstep] at hs'
      cases hs'
      have hown : ∀ v ∈ (s.sites i).seen, v.writer = i := by
        intro v hv
        obtain ⟨v', hv', hwriter, -⟩ := exists_newest hv
        exact hwriter ▸ R.hash_injective (halone hroom _ ((hgood.held _).mpr ⟨v', hv', rfl⟩))
      intro x hx
      rcases has_setSite hx with rfl | hold
      · refine (exact_iff hinv hx).mpr fun v hv w' hw' hfollowed => ?_
        obtain rfl : v = w := ((hw.newest_iff hgood).mp hv).resolve_right fun hold =>
          hold.2 (hown v hold.1.1)
        rw [hw.seen] at hw'
        rcases List.mem_cons.mp hw' with rfl | hw'
        · exact lt_irrefl _ (hinv.before _ (.head _) _ hfollowed)
        · have hi := hown w' hw'
          have hwriter : v.dot = (w'.writer, v.counter) := Prod.ext (hw.writer.trans hi.symm) rfl
          rw [Write.FollowedBy, hwriter] at hfollowed
          exact lt_asymm (hw.older hgood hw' hi) (h.before w' (h.sub _ ha hw') _ hfollowed)
      · exact hexact x hold

/-- An operation that goes through. -/
theorem exact_step (h : s.Inv R) (hexact : s.Exact R) (op : SiblingOp ι T) :
    (∀ s', (failing (step R) (some s) op).2 = some s' → s'.Exact R) ↔ s.Alone R op := by
  cases op with
  | copy i =>
    refine iff_of_true (fun s' hs' => ?_) trivial
    cases hs'
    exact fun x hx => hexact x (has_copy hx)
  | merge i n => exact iff_of_true (fun s' hs' => exact_merge h hexact hs') trivial
  | write i value => exact exact_write h hexact i value

/-- Every set holds the writes that were seen and not followed, in exactly the runs in which nobody
writes to a set that holds a value of somebody else. -/
theorem siblings_iff (R : Replicas ι) (ops : List (SiblingOp ι T)) :
    (∀ done, done <+: ops → ∀ s, after (failing (step R)) (some start) done = some s → s.Exact R) ↔
      ∀ done op, done ++ [op] <+: ops →
        ∀ s, after (failing (step R)) (some start) done = some s → s.Alone R op := by
  refine Machine.invariant_iff (I := fun st : Option (Siblings ι T) => ∀ s, st = some s → s.Inv R)
    (P := fun st => ∀ s, st = some s → s.Exact R)
      (Q := fun st op => ∀ s, st = some s → s.Alone R op) ?_ ?_ ?_ ?_ ops
  · intro st op hinv s' hs'
    obtain ⟨s, u, rfl, hstep⟩ := failing_eq_some.mp hs'
    exact (hinv s rfl).step hstep
  · intro st op hinv hexact
    cases st with
    | none => exact iff_of_true nofun nofun
    | some s =>
      rw [exact_step (hinv s rfl) (hexact s rfl) op]
      exact ⟨fun h s' hs' => Option.some.inj hs' ▸ h, fun h => h s rfl⟩
  · exact fun s hs => Option.some.inj hs ▸ inv_start R
  · exact fun s hs => Option.some.inj hs ▸ exact_start R

end Steps

namespace Demo

def pair : Replicas Bool where
  id b := if b then ⟨"A", Str.fits_A⟩ else ⟨"B", Str.fits_B⟩
  hash b := if b then 1 else 2
  id_injective := by decide
  hash_injective := by decide

/-- One replica writes over the value of the other one. -/
def overwritten : List (SiblingOp Bool Nat) :=
  [.write true 10, .copy true, .merge false 0, .write false 20]

/-- Both values are kept. -/
theorem sibling_kept : ¬ ∀ (ι : Type) [DecidableEq ι] (R : Replicas ι)
    (ops done : List (SiblingOp ι Nat)),
    done <+: ops → ∀ s, after (failing (step R)) (some start) done = some s → s.Exact R := by
  intro h
  have hentries : (after (failing (step pair)) (some start) overwritten).map
      (fun s => (s.sites false).set.entries) = some [(⟨1, 1⟩, 10), (⟨2, 1⟩, 20)] :=
        by decide +kernel
  have hseen :
    (after (failing (step pair)) (some start) overwritten).map (fun s => (s.sites false).seen) =
      some [⟨false, 1, 20, [(true, 1)]⟩, ⟨true, 1, 10, []⟩] := by decide +kernel
  obtain ⟨s, hs, hentries⟩ := Option.map_eq_some_iff.mp hentries
  rw [hs, Option.map_some, Option.some.injEq] at hseen
  have hexact := h Bool pair overwritten overwritten List.prefix_rfl s hs _ (.inl ⟨false, rfl⟩)
  obtain ⟨w, hw, heq, hfree⟩ := (hexact.mem_iff (⟨1, 1⟩, 10)).mp (by rw [hentries]; decide)
  rw [hseen] at hw hfree
  have hfollowed : ∀ w ∈ ([⟨false, 1, 20, [(true, 1)]⟩, ⟨true, 1, 10, []⟩] : List (Write Bool Nat)),
      w.entry pair = (⟨1, 1⟩, 10) → w.dot ∈ [(true, (1 : U64))] := by decide
  exact hfree _ (.head _) (hfollowed w hw heq)

end Demo

end Siblings

end P2P333.Crdt333
