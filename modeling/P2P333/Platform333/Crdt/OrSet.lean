import P2P333.Lib.Checked
import P2P333.Lib.Transition

/-!
# Observed-remove sets

`333-platform/src/crdt/or_set.rs`, without garbage collection. Each add has a tag of its own, and a
remove takes away the tags that its replica sees at that time. A hash map is the function that looks
keys up in it, and the order in which a map or a set is iterated is an argument.

Any number of replicas add and remove, and send their deltas and whole sets to one another. What was
sent arrives in any order, any number of times, or never. A delta is the record of its operation; a
replica that gets a whole set learns of all that the sender knew.

Results:
1. `Shows.add`, `Shows.remove`, `Shows.mergeDelta`, `Shows.mergeFull`: what a replica holds is what
   it learned.
2. `orset_converges`: the elements that are present, in every run.
-/

namespace P2P333.Platform333.Crdt

open Lib Function

/-- Each add has its own. -/
structure Tag where
  nodeId : UInt32
  seq : UInt64
deriving DecidableEq

structure ORSetDelta (T : Type) where
  adds : List (T × Tag)
  removes : List Tag
deriving DecidableEq

structure ORSet (T : Type) where
  nodeId : UInt32
  seq : UInt64
  entries : T → Option (Finset Tag)
  tombstones : Finset Tag

namespace ORSet

variable {T : Type} [DecidableEq T]

def new (nodeId : UInt32) : ORSet T := ⟨nodeId, 0, fun _ => none, ∅⟩

/-- `entry(value).or_default().insert(tag)`. -/
def enter (entries : T → Option (Finset Tag)) (value : T) (tag : Tag) : T → Option (Finset Tag) :=
  update entries value (some (insert tag ((entries value).getD ∅)))

/-- A build with overflow checks (`checks`) panics when the numbers run out, one without wraps. -/
def add (checks : Bool) (s : ORSet T) (value : T) : Option (ORSetDelta T × ORSet T) :=
  if checks ∧ s.seq.toNat + 1 = 2 ^ 64 then none
  else
    let tag : Tag := ⟨s.nodeId, s.seq + 1⟩
    some (⟨[(value, tag)], []⟩,
      { s with seq := s.seq + 1, entries := enter s.entries value tag })

/-- The tags of the value come in this order. -/
def remove (s : ORSet T) (value : T) (order : List Tag) : ORSetDelta T × ORSet T :=
  match s.entries value with
  | none => (⟨[], []⟩, s)
  | some tags =>
    let left := order.foldl Finset.erase tags
    (⟨[], order⟩, { s with
      entries := update s.entries value (if left = ∅ then none else some left)
      tombstones := order.foldl (fun stones tag => insert tag stones) s.tombstones })

def contains (s : ORSet T) (value : T) : Bool := (s.entries value).any fun tags => tags ≠ ∅

/-- The tag is dead, whichever element it is at. -/
def strike (s : ORSet T) (tag : Tag) : ORSet T :=
  { s with
    entries := fun value => (s.entries value).map fun tags => tags.erase tag
    tombstones := insert tag s.tombstones }

/-- Elements without tags are dropped. -/
def cleanUp (s : ORSet T) : ORSet T :=
  { s with entries := fun value => (s.entries value).filter fun tags => tags ≠ ∅ }

/-- A tag that is not dead. -/
def mergeAdd (s : ORSet T) (a : T × Tag) : ORSet T :=
  if a.2 ∈ s.tombstones then s else { s with entries := enter s.entries a.1 a.2 }

def mergeDelta (s : ORSet T) (delta : ORSetDelta T) : ORSet T :=
  delta.adds.foldl mergeAdd (delta.removes.foldl (fun s tag => (s.strike tag).cleanUp) s)

/-- The entries and the tombstones of the other set come in these orders. -/
def mergeFull (s : ORSet T) (order : List (T × Tag)) (stones : List Tag) : ORSet T :=
  (stones.foldl strike (order.foldl mergeAdd s)).cleanUp

/-! ## The tags of an element -/

/-- The tag is at the element. -/
def Has (s : ORSet T) (value : T) (tag : Tag) : Prop := ∃ tags ∈ s.entries value, tag ∈ tags

/-- An order in which the tags of the element may come. -/
structure ListsTags (s : ORSet T) (value : T) (order : List Tag) : Prop where
  nodup : order.Nodup
  mem : ∀ tag, tag ∈ order ↔ s.Has value tag

/-- Orders in which the entries and the tombstones may come. -/
structure Lists (s : ORSet T) (order : List (T × Tag)) (stones : List Tag) : Prop where
  entries : ∀ value tag, (value, tag) ∈ order ↔ s.Has value tag
  tombstones : ∀ tag, tag ∈ stones ↔ tag ∈ s.tombstones

variable {s : ORSet T} {value x : T} {tag t : Tag}

omit [DecidableEq T] in
theorem contains_iff : s.contains value ↔ ∃ tag, s.Has value tag := by
  unfold contains Has
  cases s.entries value with
  | none => simp
  | some tags => simp [Finset.eq_empty_iff_forall_notMem]

theorem exists_enter {entries : T → Option (Finset Tag)} :
    (∃ tags ∈ enter entries value tag x, t ∈ tags) ↔
      (x = value ∧ t = tag) ∨ ∃ tags ∈ entries x, t ∈ tags := by
  unfold enter
  by_cases hx : x = value
  · subst hx
    rw [update_self]
    cases entries x with
    | none => simp
    | some tags => simp
  · rw [update_of_ne hx]
    simp [hx]

omit [DecidableEq T] in
theorem has_strike : (s.strike tag).Has x t ↔ s.Has x t ∧ t ≠ tag := by
  simp only [Has, strike]
  cases s.entries x with
  | none => simp
  | some tags => simp [and_comm]

omit [DecidableEq T] in
theorem has_cleanUp : s.cleanUp.Has x t ↔ s.Has x t := by
  simp only [Has, cleanUp]
  cases s.entries x with
  | none => simp
  | some tags =>
    by_cases hempty : tags = ∅
    · simp [hempty]
    · simp [hempty]

theorem has_mergeAdd {a : T × Tag} :
    (s.mergeAdd a).Has x t ↔ s.Has x t ∨ ((x, t) = a ∧ t ∉ s.tombstones) := by
  obtain ⟨value, tag⟩ := a
  unfold mergeAdd
  split_ifs with hdead
  · refine ⟨.inl, fun h => h.resolve_right ?_⟩
    rintro ⟨heq, hlive⟩
    cases heq
    exact hlive hdead
  · refine exists_enter.trans ?_
    rw [Prod.mk.injEq, or_comm]
    refine or_congr_right (iff_self_and.mpr ?_)
    rintro ⟨-, rfl⟩
    exact hdead

/-! ## Loops -/

theorem tombstones_mergeAdds (adds : List (T × Tag)) :
    (adds.foldl mergeAdd s).tombstones = s.tombstones := by
  induction adds generalizing s with
  | nil => rfl
  | cons a adds ih =>
    rw [List.foldl_cons, ih, mergeAdd]
    split <;> rfl

theorem has_mergeAdds (adds : List (T × Tag)) :
    (adds.foldl mergeAdd s).Has x t ↔ s.Has x t ∨ ((x, t) ∈ adds ∧ t ∉ s.tombstones) := by
  induction adds generalizing s with
  | nil => simp
  | cons a adds ih =>
    have hsame : (s.mergeAdd a).tombstones = s.tombstones := tombstones_mergeAdds [a]
    rw [List.foldl_cons, ih, has_mergeAdd, hsame, List.mem_cons, or_and_right, or_assoc]

omit [DecidableEq T] in
/-- Each tag in turn is struck, whatever is dropped in between. -/
theorem strikes {f : ORSet T → Tag → ORSet T}
    (hhas : ∀ s tag x t, (f s tag).Has x t ↔ s.Has x t ∧ t ≠ tag)
    (hstones : ∀ s tag, (f s tag).tombstones = insert tag s.tombstones) (stones : List Tag) :
    (∀ x t, (stones.foldl f s).Has x t ↔ s.Has x t ∧ t ∉ stones) ∧
      ∀ t, t ∈ (stones.foldl f s).tombstones ↔ t ∈ s.tombstones ∨ t ∈ stones := by
  induction stones generalizing s with
  | nil => simp
  | cons tag stones ih =>
    obtain ⟨ih, ih'⟩ := ih (s := f s tag)
    refine ⟨fun x t => ?_, fun t => ?_⟩
    · rw [List.foldl_cons, ih, hhas, List.mem_cons, not_or, and_assoc]
    · rw [List.foldl_cons, ih', hstones, Finset.mem_insert, List.mem_cons, or_comm (a := t = tag),
        or_assoc]

theorem mem_foldl_erase (order : List Tag) (tags : Finset Tag) :
    t ∈ order.foldl Finset.erase tags ↔ t ∈ tags ∧ t ∉ order := by
  induction order generalizing tags with
  | nil => simp
  | cons tag order ih =>
    rw [List.foldl_cons, ih, Finset.mem_erase, List.mem_cons, not_or]
    exact ⟨fun ⟨⟨hne, h⟩, hn⟩ => ⟨h, hne, hn⟩, fun ⟨h, hne, hn⟩ => ⟨⟨hne, h⟩, hn⟩⟩

theorem mem_foldl_insert (order : List Tag) (stones : Finset Tag) :
    t ∈ order.foldl (fun stones tag => insert tag stones) stones ↔ t ∈ stones ∨ t ∈ order := by
  induction order generalizing stones with
  | nil => simp
  | cons tag order ih =>
    rw [List.foldl_cons, ih, Finset.mem_insert, List.mem_cons, or_comm (a := t = tag), or_assoc]

/-- A remove gives no tags out. -/
theorem keeps_remove (s : ORSet T) (value : T) (order : List Tag) :
    (s.remove value order).2.nodeId = s.nodeId ∧ (s.remove value order).2.seq = s.seq := by
  unfold remove
  split <;> exact ⟨rfl, rfl⟩

omit [DecidableEq T] in
/-- Merging gives no tags out. -/
theorem keeps_foldl {α : Type} {f : ORSet T → α → ORSet T}
    (hf : ∀ s a, (f s a).nodeId = s.nodeId ∧ (f s a).seq = s.seq) (l : List α) (s : ORSet T) :
    (l.foldl f s).nodeId = s.nodeId ∧ (l.foldl f s).seq = s.seq := by
  induction l generalizing s with
  | nil => exact ⟨rfl, rfl⟩
  | cons a l ih =>
    obtain ⟨hnode, hseq⟩ := ih (f s a)
    exact ⟨hnode.trans (hf s a).1, hseq.trans (hf s a).2⟩

theorem keeps_mergeAdd (s : ORSet T) (a : T × Tag) :
    (s.mergeAdd a).nodeId = s.nodeId ∧ (s.mergeAdd a).seq = s.seq := by
  unfold mergeAdd
  split <;> exact ⟨rfl, rfl⟩

theorem keeps_mergeDelta (s : ORSet T) (d : ORSetDelta T) :
    (s.mergeDelta d).nodeId = s.nodeId ∧ (s.mergeDelta d).seq = s.seq := by
  obtain ⟨hnode, hseq⟩ := keeps_foldl (f := fun s tag => (s.strike tag).cleanUp)
    (fun _ _ => ⟨rfl, rfl⟩) d.removes s
  obtain ⟨hnode', hseq'⟩ := keeps_foldl keeps_mergeAdd d.adds
    (d.removes.foldl (fun s tag => (s.strike tag).cleanUp) s)
  exact ⟨hnode'.trans hnode, hseq'.trans hseq⟩

theorem keeps_mergeFull (s : ORSet T) (order : List (T × Tag)) (stones : List Tag) :
    (s.mergeFull order stones).nodeId = s.nodeId ∧ (s.mergeFull order stones).seq = s.seq := by
  obtain ⟨hnode, hseq⟩ := keeps_foldl keeps_mergeAdd order s
  obtain ⟨hnode', hseq'⟩ := keeps_foldl (f := strike) (fun _ _ => ⟨rfl, rfl⟩) stones
    (order.foldl mergeAdd s)
  exact ⟨hnode'.trans hnode, hseq'.trans hseq⟩

/-! ## The effects of the operations -/

/-- A remove takes away the tags of the value, which are the ones that it gives away. -/
theorem remove_spec {order : List Tag} (hlists : s.ListsTags value order) :
    (∀ x t, (s.remove value order).2.Has x t ↔ s.Has x t ∧ x ≠ value) ∧
      (∀ t, t ∈ (s.remove value order).2.tombstones ↔ t ∈ s.tombstones ∨ s.Has value t) ∧
      (s.remove value order).1.adds = [] ∧
      ∀ t, t ∈ (s.remove value order).1.removes ↔ s.Has value t := by
  have hmem := hlists.mem
  unfold ORSet.remove
  cases hentries : s.entries value with
  | none =>
    have hnone : ∀ t, ¬ s.Has value t := by
      rintro t ⟨tags, htags, -⟩
      rw [hentries] at htags
      cases htags
    refine ⟨fun x t => (and_iff_left_of_imp ?_).symm, fun t => (or_iff_left (hnone t)).symm, rfl,
      fun t => iff_of_false List.not_mem_nil (hnone t)⟩
    rintro hx rfl
    exact hnone t hx
  | some tags =>
    have htags : ∀ t, t ∈ tags ↔ t ∈ order := by
      intro t
      rw [hmem, Has, hentries]
      simp
    have hleft : order.foldl Finset.erase tags = ∅ := by
      refine Finset.eq_empty_iff_forall_notMem.mpr fun t ht => ?_
      obtain ⟨hin, hout⟩ := (mem_foldl_erase order tags).mp ht
      exact hout ((htags t).mp hin)
    refine ⟨fun x t => ?_, fun t => ?_, rfl, hmem⟩
    · simp only [Has, hleft, if_true]
      by_cases hx : x = value
      · subst hx
        rw [update_self]
        simp
      · rw [update_of_ne hx]
        exact (and_iff_left hx).symm
    · rw [← hmem]
      exact mem_foldl_insert order s.tombstones

/-- A delta strikes its removed tags, and adds what is not dead. -/
theorem mergeDelta_spec (s : ORSet T) (d : ORSetDelta T) :
    (∀ x t, (s.mergeDelta d).Has x t ↔ (s.Has x t ∧ t ∉ d.removes) ∨
      ((x, t) ∈ d.adds ∧ t ∉ s.tombstones ∧ t ∉ d.removes)) ∧
      ∀ t, t ∈ (s.mergeDelta d).tombstones ↔ t ∈ s.tombstones ∨ t ∈ d.removes := by
  obtain ⟨hhas, hstones⟩ := strikes (s := s) (f := fun s tag => (s.strike tag).cleanUp)
    (fun s tag x t => has_cleanUp.trans has_strike) (fun s tag => rfl) d.removes
  refine ⟨fun x t => ?_, fun t => ?_⟩
  · rw [ORSet.mergeDelta, has_mergeAdds, hhas, hstones, not_or]
  · rw [ORSet.mergeDelta, tombstones_mergeAdds, hstones]

/-- A set adds what is not dead here, and strikes what is dead there. -/
theorem mergeFull_spec {o : ORSet T} {order : List (T × Tag)} {stones : List Tag}
    (hlists : o.Lists order stones) :
    (∀ x t, (s.mergeFull order stones).Has x t ↔
      (s.Has x t ∨ (o.Has x t ∧ t ∉ s.tombstones)) ∧ t ∉ o.tombstones) ∧
      ∀ t, t ∈ (s.mergeFull order stones).tombstones ↔ t ∈ s.tombstones ∨ t ∈ o.tombstones := by
  obtain ⟨hhas, hstones⟩ := strikes (s := order.foldl mergeAdd s) (f := strike)
    (fun s tag x t => has_strike) (fun s tag => rfl) stones
  refine ⟨fun x t => ?_, fun t => ?_⟩
  · rw [ORSet.mergeFull, has_cleanUp, hhas, has_mergeAdds, hlists.entries, hlists.tombstones]
  · refine (hstones t).trans ?_
    rw [tombstones_mergeAdds, hlists.tombstones]

/-! ## What a set shows -/

/-- The operations have added the tag to the element. -/
def AddedBy (L : List (ORSetDelta T)) (value : T) (tag : Tag) : Prop :=
  ∃ d ∈ L, (value, tag) ∈ d.adds

/-- The operations have removed the tag. -/
def RemovedBy (L : List (ORSetDelta T)) (tag : Tag) : Prop := ∃ d ∈ L, tag ∈ d.removes

/-- The tags are those that were added and not removed, and those that were removed are dead. -/
structure Shows (s : ORSet T) (L : List (ORSetDelta T)) : Prop where
  has : ∀ value tag, s.Has value tag ↔ AddedBy L value tag ∧ ¬ RemovedBy L tag
  tombstones : ∀ tag, tag ∈ s.tombstones ↔ RemovedBy L tag

variable {L L' : List (ORSetDelta T)} {d : ORSetDelta T}

section

omit [DecidableEq T]

theorem addedBy_cons : AddedBy (d :: L) value tag ↔ (value, tag) ∈ d.adds ∨
    AddedBy L value tag := by
  unfold AddedBy
  simp

theorem removedBy_cons : RemovedBy (d :: L) tag ↔ tag ∈ d.removes ∨ RemovedBy L tag := by
  unfold RemovedBy
  simp

theorem addedBy_append : AddedBy (L ++ L') value tag ↔ AddedBy L value tag ∨
    AddedBy L' value tag := by
  unfold AddedBy
  simp only [List.mem_append, or_and_right, exists_or]

theorem removedBy_append : RemovedBy (L ++ L') tag ↔ RemovedBy L tag ∨ RemovedBy L' tag := by
  unfold RemovedBy
  simp only [List.mem_append, or_and_right, exists_or]

theorem shows_new (nodeId : UInt32) : (new nodeId : ORSet T).Shows [] where
  has value tag := by simp [Has, new, AddedBy]
  tombstones tag := by simp [new, RemovedBy]

end

/-- A tag that has not been removed is put in without looking. -/
theorem Shows.add {checks : Bool} {s' : ORSet T} (h : s.Shows L)
    (hadd : s.add checks value = some (d, s')) (hfresh : ¬ RemovedBy L ⟨s.nodeId, s.seq + 1⟩) :
    s'.Shows (d :: L) := by
  unfold ORSet.add at hadd
  split at hadd
  · cases hadd
  · cases hadd
    constructor
    · intro x t
      refine exists_enter.trans ?_
      rw [addedBy_cons, removedBy_cons, List.mem_singleton, Prod.mk.injEq]
      have hold : (∃ tags ∈ s.entries x, t ∈ tags) ↔ _ := h.has x t
      rw [hold]
      constructor
      · rintro (⟨rfl, rfl⟩ | ⟨hadded, hlive⟩)
        · exact ⟨.inl ⟨rfl, rfl⟩, not_or.mpr ⟨List.not_mem_nil, hfresh⟩⟩
        · exact ⟨.inr hadded, not_or.mpr ⟨List.not_mem_nil, hlive⟩⟩
      · rintro ⟨hadded, hlive⟩
        exact hadded.imp_right fun hadded => ⟨hadded, (not_or.mp hlive).2⟩
    · intro t
      rw [removedBy_cons, h.tombstones]
      exact (or_iff_right List.not_mem_nil).symm

/-- Only the tags of the value are taken away, which no other value has. -/
theorem Shows.remove {order : List Tag} (h : s.Shows L) (hlists : s.ListsTags value order)
    (hown : ∀ x tag, AddedBy L x tag → AddedBy L value tag → x = value) :
    (s.remove value order).2.Shows ((s.remove value order).1 :: L) := by
  obtain ⟨hhas, hstones, hadds, hremoves⟩ := remove_spec hlists
  constructor
  · intro x t
    rw [hhas, addedBy_cons, removedBy_cons, hadds, hremoves, or_iff_right List.not_mem_nil, not_or,
      and_left_comm, ← h.has, and_comm]
    refine and_congr_left fun hx => ⟨?_, ?_⟩
    · exact fun hne hin => hne (hown x t ((h.has x t).mp hx).1 ((h.has value t).mp hin).1)
    · rintro hout rfl
      exact hout hx
  · intro t
    rw [hstones, removedBy_cons, hremoves, h.tombstones, or_comm]

theorem Shows.mergeDelta (h : s.Shows L) (d : ORSetDelta T) : (s.mergeDelta d).Shows (d :: L) := by
  obtain ⟨hhas, hstones⟩ := s.mergeDelta_spec d
  constructor
  · intro x t
    rw [hhas, h.has, h.tombstones, addedBy_cons, removedBy_cons]
    tauto
  · intro t
    rw [hstones, h.tombstones, removedBy_cons, or_comm]

theorem Shows.mergeFull {o : ORSet T} {order : List (T × Tag)} {stones : List Tag} (h : s.Shows L)
    (ho : o.Shows L') (hlists : o.Lists order stones) :
    (s.mergeFull order stones).Shows (L' ++ L) := by
  obtain ⟨hhas, hstones⟩ := mergeFull_spec (s := s) hlists
  constructor
  · intro x t
    rw [hhas, h.has, h.tombstones, ho.has, ho.tombstones, addedBy_append, removedBy_append]
    tauto
  · intro t
    rw [hstones, h.tombstones, ho.tombstones, removedBy_append, or_comm]

end ORSet

/-! ## Replicas -/

/-- A replica, and the operations that it has learned of. -/
structure Site (T : Type) where
  replica : ORSet T
  learned : List (ORSetDelta T)

/-- What a replica was asked to do. -/
inductive Call (T : Type) where
  | add (v : UInt32) (value : T)
  | remove (v : UInt32) (value : T)

/-- A call, the delta that it gave, and the operations that its replica knew of before. -/
structure Made (T : Type) where
  call : Call T
  delta : ORSetDelta T
  seen : List (ORSetDelta T)

/-- The delta is what the call is for: an add gives its value one tag of its replica, and a remove
takes away the tags that its replica saw at the value, and no others. -/
def Made.Does {T : Type} (m : Made T) : Prop :=
  match m.call with
  | .add v value => ∃ seq, m.delta = ⟨[(value, ⟨v, seq⟩)], []⟩
  | .remove _ value => m.delta.adds = [] ∧ ∀ tag, tag ∈ m.delta.removes ↔
    ORSet.AddedBy m.seen value tag ∧ ¬ ORSet.RemovedBy m.seen tag

/-- The two operations have no tag in common. -/
def Made.Apart {T : Type} (m m' : Made T) : Prop :=
  ∀ a ∈ m.delta.adds, ∀ a' ∈ m'.delta.adds, a.2 ≠ a'.2

structure SetWorld (T : Type) where
  site : UInt32 → Site T
  issued : List (Made T)
  /-- The whole sets on their way, as they were when they were sent. -/
  shared : List (Site T)

/-- A replica changes its set, or merges what others have shared. -/
inductive SetAction (T : Type) where
  | add (v : UInt32) (value : T)
  | remove (v : UInt32) (value : T) (order : List Tag)
  | share (v : UInt32)
  | mergeDelta (v : UInt32) (delta : ORSetDelta T)
  | mergeFull (v : UInt32) (sent : Site T) (order : List (T × Tag)) (stones : List Tag)

namespace SetWorld

variable {T : Type} [DecidableEq T]

/-- The replicas have different node ids. -/
def start : SetWorld T := ⟨fun v => ⟨.new v, []⟩, [], []⟩

def put (w : SetWorld T) (v : UInt32) (replica : ORSet T)
    (more : List (ORSetDelta T)) : SetWorld T :=
  { w with site := update w.site v ⟨replica, more ++ (w.site v).learned⟩ }

/-- A replica has done what it was asked for. -/
def made (w : SetWorld T) (v : UInt32) (call : Call T) (r : ORSetDelta T × ORSet T) : SetWorld T :=
  { w.put v r.2 [r.1] with issued := ⟨call, r.1, (w.site v).learned⟩ :: w.issued }

def step (checks : Bool) (w : SetWorld T) : SetAction T → Option (SetWorld T)
  | .add v value => ((w.site v).replica.add checks value).map fun r => w.made v (.add v value) r
  | .remove v value order =>
    some (w.made v (.remove v value) ((w.site v).replica.remove value order))
  | .share v => some { w with shared := w.site v :: w.shared }
  | .mergeDelta v delta => some (w.put v ((w.site v).replica.mergeDelta delta) [delta])
  | .mergeFull v sent order stones =>
    some (w.put v ((w.site v).replica.mergeFull order stones) sent.learned)

/-- Only what was issued or shared arrives. Without overflow checks a replica does not wrap its
numbers. -/
def Allowed (checks : Bool) (w : SetWorld T) : SetAction T → Prop
  | .add v _ => checks ∨ (w.site v).replica.seq.toNat + 1 < 2 ^ 64
  | .remove v value order => (w.site v).replica.ListsTags value order
  | .share _ => True
  | .mergeDelta _ delta => ∃ m ∈ w.issued, m.delta = delta
  | .mergeFull _ sent order stones => sent ∈ w.shared ∧ sent.replica.Lists order stones

/-! ## The invariant -/

/-- The replica shows what it has learned, which was issued. -/
structure Sound (issued : List (Made T)) (s : Site T) : Prop where
  shows : s.replica.Shows s.learned
  issued : ∀ d ∈ s.learned, ∃ m ∈ issued, m.delta = d

structure Inv (w : SetWorld T) : Prop where
  nodeId : ∀ v, (w.site v).replica.nodeId = v
  /-- The numbers of a replica are ahead of the tags that it has given out. -/
  own : ∀ m ∈ w.issued, ∀ a ∈ m.delta.adds, a.2.seq.toNat ≤ (w.site a.2.nodeId).replica.seq.toNat
  fresh : w.issued.Pairwise Made.Apart
  does : ∀ m ∈ w.issued, m.Does
  seen : ∀ m ∈ w.issued, ∀ d ∈ m.seen, ∃ m' ∈ w.issued, m'.delta = d
  sites : ∀ v, Sound w.issued (w.site v)
  shared : ∀ s ∈ w.shared, Sound w.issued s

variable {w : SetWorld T} {checks : Bool}

section

omit [DecidableEq T]

theorem inv_start : Inv (start : SetWorld T) where
  nodeId _ := rfl
  own := nofun
  fresh := .nil
  does := nofun
  seen := nofun
  sites v := ⟨ORSet.shows_new v, nofun⟩
  shared := nofun

theorem Sound.mono {issued issued' : List (Made T)} {s : Site T} (h : Sound issued s)
    (hsub : ∀ m ∈ issued, m ∈ issued') : Sound issued' s :=
  ⟨h.shows, fun d hd => (h.issued d hd).imp fun _ hm => ⟨hsub _ hm.1, hm.2⟩⟩

/-- A tag belongs to one operation, and to one element there. -/
theorem Inv.unique (h : Inv w) {m m' : Made T} (hm : m ∈ w.issued) (hm' : m' ∈ w.issued)
    {a a' : T × Tag} (ha : a ∈ m.delta.adds) (ha' : a' ∈ m'.delta.adds) (heq : a.2 = a'.2) :
    a = a' ∧ m = m' := by
  have hsame : m = m' := by
    by_contra hne
    have : Std.Symm (Made.Apart (T := T)) :=
      ⟨fun _ _ hap b hb b' hb' => (hap b' hb' b hb).symm⟩
    exact h.fresh.forall hm hm' hne a ha a' ha' heq
  subst hsame
  refine ⟨?_, rfl⟩
  have hdoes := h.does m hm
  unfold Made.Does at hdoes
  split at hdoes
  · obtain ⟨seq, hdelta⟩ := hdoes
    rw [hdelta] at ha ha'
    rw [List.mem_singleton.mp ha, List.mem_singleton.mp ha']
  · rw [hdoes.1] at ha
    cases ha

/-- An operation that takes tags away is a remove: it saw them at its value. -/
theorem Inv.observes (h : Inv w) {m : Made T} (hm : m ∈ w.issued) (hne : m.delta.removes ≠ []) :
    ∃ value, ∀ tag, tag ∈ m.delta.removes ↔
      ORSet.AddedBy m.seen value tag ∧ ¬ ORSet.RemovedBy m.seen tag := by
  have hdoes := h.does m hm
  unfold Made.Does at hdoes
  split at hdoes
  · obtain ⟨seq, hdelta⟩ := hdoes
    rw [hdelta] at hne
    exact absurd rfl hne
  · exact ⟨_, hdoes.2⟩

/-- What was issued has no tag that was not given out. -/
theorem Inv.removed_le (h : Inv w) {L : List (ORSetDelta T)}
    (hL : ∀ d ∈ L, ∃ m ∈ w.issued, m.delta = d) {tag : Tag} (hremoved : ORSet.RemovedBy L tag) :
    tag.seq.toNat ≤ (w.site tag.nodeId).replica.seq.toNat := by
  obtain ⟨d, hd, htag⟩ := hremoved
  obtain ⟨m, hm, rfl⟩ := hL d hd
  obtain ⟨value, hobserves⟩ := h.observes hm (List.ne_nil_of_mem htag)
  obtain ⟨⟨d', hd', hadded⟩, -⟩ := (hobserves tag).mp htag
  obtain ⟨m', hm', rfl⟩ := h.seen m hm d' hd'
  exact h.own m' hm' _ hadded

/-- A tag is at one element only. -/
theorem Inv.added_unique (h : Inv w) {L : List (ORSetDelta T)}
    (hL : ∀ d ∈ L, ∃ m ∈ w.issued, m.delta = d) {value x : T} {tag : Tag}
    (hx : ORSet.AddedBy L x tag) (hvalue : ORSet.AddedBy L value tag) : x = value := by
  obtain ⟨d, hd, hadded⟩ := hx
  obtain ⟨d', hd', hadded'⟩ := hvalue
  obtain ⟨m, hm, rfl⟩ := hL d hd
  obtain ⟨m', hm', rfl⟩ := hL d' hd'
  exact congrArg Prod.fst (h.unique hm hm' hadded hadded' rfl).1

/-- A replica got something, and nothing was issued. -/
theorem Inv.put (h : Inv w) (v : UInt32) {replica : ORSet T} {more : List (ORSetDelta T)}
    (hnode : replica.nodeId = (w.site v).replica.nodeId)
      (hseq : replica.seq = (w.site v).replica.seq)
    (hshows : replica.Shows (more ++ (w.site v).learned))
    (hmore : ∀ d ∈ more, ∃ m ∈ w.issued, m.delta = d) : Inv (w.put v replica more) := by
  have hkeep : ∀ u, ((w.put v replica more).site u).replica.nodeId = (w.site u).replica.nodeId ∧
      ((w.put v replica more).site u).replica.seq = (w.site u).replica.seq := by
    refine (forall_update_iff w.site fun u s => s.replica.nodeId =
      (w.site u).replica.nodeId ∧ s.replica.seq = (w.site u).replica.seq).mpr ?_
    exact ⟨⟨hnode, hseq⟩, fun u _ => ⟨rfl, rfl⟩⟩
  refine { h with
    nodeId := fun u => (hkeep u).1.trans (h.nodeId u)
    own := fun m hm a ha => ?_
    sites := (forall_update_iff w.site fun _ s => Sound w.issued s).mpr
      ⟨⟨hshows, fun d hd => ?_⟩, fun u _ => h.sites u⟩ }
  · rw [(hkeep _).2]
    exact h.own m hm a ha
  · rcases List.mem_append.mp hd with hd | hd
    · exact hmore d hd
    · exact (h.sites v).issued d hd

/-- A replica has made an operation: its new tags are ahead of all its others. -/
theorem Inv.made (h : Inv w) (v : UInt32) {call : Call T} {r : ORSetDelta T × ORSet T}
    (hnode : r.2.nodeId = (w.site v).replica.nodeId)
    (hseq : (w.site v).replica.seq.toNat ≤ r.2.seq.toNat)
    (hshows : r.2.Shows (r.1 :: (w.site v).learned))
    (hnew : ∀ a ∈ r.1.adds, a.2.nodeId = v ∧ (w.site v).replica.seq.toNat < a.2.seq.toNat ∧
      a.2.seq.toNat ≤ r.2.seq.toNat)
    (hdoes : Made.Does ⟨call, r.1, (w.site v).learned⟩) : Inv (w.made v call r) := by
  have hkeep : ∀ u, ((w.made v call r).site u).replica.nodeId = (w.site u).replica.nodeId ∧
      (w.site u).replica.seq.toNat ≤ ((w.made v call r).site u).replica.seq.toNat := by
    refine (forall_update_iff w.site fun u s => s.replica.nodeId =
      (w.site u).replica.nodeId ∧ (w.site u).replica.seq.toNat ≤ s.replica.seq.toNat).mpr ?_
    exact ⟨⟨hnode, hseq⟩, fun u _ => ⟨rfl, Nat.le_refl _⟩⟩
  have hfresh : ∀ m ∈ w.issued, Made.Apart ⟨call, r.1, (w.site v).learned⟩ m := by
    intro m hm a ha a' ha' heq
    obtain ⟨hnode', hlt, -⟩ := hnew a ha
    have hle := h.own m hm a' ha'
    rw [← heq, hnode'] at hle
    exact Nat.not_lt.mpr hle hlt
  have hmore : ∀ m ∈ w.issued, m ∈ (w.made v call r).issued :=
    fun m hm => List.mem_cons_of_mem _ hm
  refine ⟨fun u => (hkeep u).1.trans (h.nodeId u), fun m hm a ha => ?_, .cons hfresh h.fresh,
    List.forall_mem_cons.mpr ⟨hdoes, h.does⟩, fun m hm d hd => ?_, ?_,
    fun s hs => (h.shared s hs).mono hmore⟩
  · rcases List.mem_cons.mp hm with rfl | hm
    · obtain ⟨hnode', -, hle⟩ := hnew a ha
      rw [hnode', SetWorld.made, SetWorld.put]
      simp only [update_self]
      exact hle
    · exact (h.own m hm a ha).trans (hkeep _).2
  · rcases List.mem_cons.mp hm with rfl | hm
    · exact ((h.sites v).issued d hd).imp fun m' hm' => ⟨hmore m' hm'.1, hm'.2⟩
    · exact (h.seen m hm d hd).imp fun m' hm' => ⟨hmore m' hm'.1, hm'.2⟩
  · refine (forall_update_iff w.site fun _ s => Sound (w.made v call r).issued s).mpr
      ⟨⟨hshows, fun d hd => ?_⟩, fun u _ => (h.sites u).mono hmore⟩
    rcases List.mem_cons.mp hd with rfl | hd
    · exact ⟨_, List.mem_cons_self, rfl⟩
    · exact ((h.sites v).issued d hd).imp fun m hm => ⟨hmore m hm.1, hm.2⟩

end

theorem Inv.add (h : Inv w) {v : UInt32} {value : T} {r : ORSetDelta T × ORSet T}
    (hok : checks ∨ (w.site v).replica.seq.toNat + 1 < 2 ^ 64)
    (hadd : (w.site v).replica.add checks value = some r) :
    Inv (w.made v (.add v value) r) := by
  have hshows := (h.sites v).shows.add hadd
  unfold ORSet.add at hadd
  split at hadd
  · cases hadd
  · next hno =>
    have hsucc := toNat_succ_of_guarded hok hno
    cases hadd
    refine h.made v rfl ?_ (hshows fun hremoved => ?_) ?_ ⟨_, by rw [h.nodeId v]⟩
    · rw [hsucc]
      exact Nat.le_succ _
    · have hle := h.removed_le (h.sites v).issued hremoved
      rw [h.nodeId v, hsucc] at hle
      exact Nat.not_succ_le_self _ hle
    · intro a ha
      rw [List.mem_singleton.mp ha]
      exact ⟨h.nodeId v, hsucc ▸ Nat.lt_succ_self _, Nat.le_refl _⟩

theorem Inv.remove (h : Inv w) {v : UInt32} {value : T} {order : List Tag}
    (hlists : (w.site v).replica.ListsTags value order) :
    Inv (w.made v (.remove v value) ((w.site v).replica.remove value order)) := by
  have hshows := (h.sites v).shows.remove hlists fun x tag hx hvalue =>
    h.added_unique (h.sites v).issued hx hvalue
  obtain ⟨-, -, hadds, hremoves⟩ := ORSet.remove_spec hlists
  have hdoes : Made.Does ⟨.remove v value, ((w.site v).replica.remove value order).1,
      (w.site v).learned⟩ :=
    ⟨hadds, fun tag => (hremoves tag).trans ((h.sites v).shows.has value tag)⟩
  obtain ⟨hnode, hseq⟩ := (w.site v).replica.keeps_remove value order
  refine h.made v hnode (Nat.le_of_eq (congrArg _ hseq.symm)) hshows (fun a ha => ?_) hdoes
  rw [hadds] at ha
  cases ha

theorem Inv.step (h : Inv w) {a : SetAction T} {w' : SetWorld T} (hok : Allowed checks w a)
    (hstep : step checks w a = some w') : Inv w' := by
  cases a with
  | add v value =>
    obtain ⟨r, hadd, rfl⟩ := Option.map_eq_some_iff.mp hstep
    exact h.add hok hadd
  | remove v value order =>
    cases hstep
    exact h.remove hok
  | share v =>
    cases hstep
    refine { h with shared := fun s hs => ?_ }
    rcases List.mem_cons.mp hs with rfl | hs
    · exact h.sites v
    · exact h.shared s hs
  | mergeDelta v delta =>
    cases hstep
    obtain ⟨m, hm, rfl⟩ := hok
    refine h.put v (ORSet.keeps_mergeDelta _ _).1 (ORSet.keeps_mergeDelta _ _).2
      ((h.sites v).shows.mergeDelta m.delta) fun d hd => ⟨m, hm, ?_⟩
    rw [List.mem_singleton.mp hd]
  | mergeFull v sent order stones =>
    obtain ⟨hsent, hlists⟩ := hok
    cases hstep
    have hsound := h.shared sent hsent
    exact h.put v (ORSet.keeps_mergeFull _ _ _).1 (ORSet.keeps_mergeFull _ _ _).2
      ((h.sites v).shows.mergeFull hsound.shows hlists) hsound.issued

/-- Runs in which only what was sent arrives. -/
abbrev Reachable (checks : Bool) : SetWorld T → Prop :=
  Lib.Reachable (step checks) (Allowed checks) start

theorem inv_reachable (h : Reachable checks w) : Inv w :=
  Lib.Reachable.invariant inv_start (fun _ _ _ _ hinv hok hstep => hinv.step hok hstep) h

/-! ## Convergence -/

structure Converges (w : SetWorld T) : Prop where
  /-- An element is present if some tag of it was learned of that no remove took away. -/
  present : ∀ v value, (w.site v).replica.contains value ↔
    ∃ tag, ORSet.AddedBy (w.site v).learned value tag ∧ ¬ ORSet.RemovedBy (w.site v).learned tag
  /-- The deltas are what the calls are for, and each add has a tag of its own. -/
  calls : ∀ m ∈ w.issued, m.Does
  fresh : w.issued.Pairwise Made.Apart
  same : ∀ u v, (∀ d, d ∈ (w.site u).learned ↔ d ∈ (w.site v).learned) →
    ∀ value, (w.site u).replica.contains value = (w.site v).replica.contains value
  /-- An add wins if no remove was made by a replica that knew of it. -/
  addWins : ∀ v, ∀ d ∈ (w.site v).learned, ∀ value tag, (value, tag) ∈ d.adds →
    (∀ m ∈ w.issued, m.delta ∈ (w.site v).learned → m.delta.removes ≠ [] → d ∉ m.seen) →
      (w.site v).replica.contains value

theorem orset_converges (h : Reachable checks w) : Converges w := by
  have hinv := inv_reachable h
  have hpresent : ∀ v value, (w.site v).replica.contains value ↔ _ := fun v value =>
    ORSet.contains_iff.trans (exists_congr fun tag => (hinv.sites v).shows.has value tag)
  refine ⟨hpresent, hinv.does, hinv.fresh, fun u v hsame value => ?_,
    fun v d hd value tag hadded hno => ?_⟩
  · rw [Bool.eq_iff_iff, hpresent, hpresent]
    simp only [ORSet.AddedBy, ORSet.RemovedBy, hsame]
  · refine (hpresent v value).mpr ⟨tag, ⟨d, hd, hadded⟩, ?_⟩
    rintro ⟨e, he, hremoved⟩
    obtain ⟨m, hm, rfl⟩ := (hinv.sites v).issued e he
    have hne := List.ne_nil_of_mem hremoved
    obtain ⟨x, hobserves⟩ := hinv.observes hm hne
    obtain ⟨⟨d', hd', hadded'⟩, -⟩ := (hobserves tag).mp hremoved
    obtain ⟨m', hm', rfl⟩ := hinv.seen m hm d' hd'
    obtain ⟨m'', hm'', rfl⟩ := (hinv.sites v).issued d hd
    refine hno m hm he hne ?_
    rwa [← (hinv.unique hm' hm'' hadded' hadded rfl).2]

end SetWorld

namespace SetDemo

open SetWorld

def tag (n : UInt64) : Tag := ⟨1, n⟩

/-- The first replica adds 7, the second removes it, and the first adds it again meanwhile. -/
def actions : List (SetAction Nat) :=
  [.add 1 7, .mergeDelta 2 ⟨[(7, tag 1)], []⟩, .remove 2 7 [tag 1], .add 1 7,
    .mergeDelta 1 ⟨[], [tag 1]⟩, .mergeDelta 2 ⟨[(7, tag 2)], []⟩]

/-- The world after the first `n` actions. -/
def after (n : Nat) : SetWorld Nat :=
  (actions.take n).foldl (fun w a => (step true w a).getD w) start

theorem reachable_after : Reachable true (after 6) := by
  have hlists : ((after 2).site 2).replica.ListsTags 7 [tag 1] := by
    have hentries : ((after 2).site 2).replica.entries 7 = some {tag 1} := by decide +kernel
    refine ⟨List.nodup_singleton _, fun t => ?_⟩
    rw [ORSet.Has, hentries]
    simp
  have hfirst : ∃ m ∈ (after 1).issued, m.delta = ⟨[(7, tag 1)], []⟩ := ⟨_, .head _, rfl⟩
  have hremove : ∃ m ∈ (after 4).issued, m.delta = ⟨[], [tag 1]⟩ := ⟨_, .tail _ (.head _), rfl⟩
  have hagain : ∃ m ∈ (after 5).issued, m.delta = ⟨[(7, tag 2)], []⟩ := ⟨_, .head _, rfl⟩
  have hone : Reachable true (after 1) := .tail (a := .add 1 7) .refl (.inl rfl) rfl
  have htwo : Reachable true (after 2) :=
    .tail (a := .mergeDelta 2 ⟨[(7, tag 1)], []⟩) hone hfirst rfl
  have hthree : Reachable true (after 3) := .tail (a := .remove 2 7 [tag 1]) htwo hlists rfl
  have hfour : Reachable true (after 4) := .tail (a := .add 1 7) hthree (.inl rfl) rfl
  have hfive : Reachable true (after 5) :=
    .tail (a := .mergeDelta 1 ⟨[], [tag 1]⟩) hfour hremove rfl
  exact .tail (a := .mergeDelta 2 ⟨[(7, tag 2)], []⟩) hfive hagain rfl

/-- The remove has seen the first add only, and both replicas hold the element. -/
theorem readd_survives :
    ((after 6).site 1).replica.contains 7 ∧ ((after 6).site 2).replica.contains 7 ∧
      ((after 3).site 2).replica.contains 7 = false := by
  have hconverges := orset_converges reachable_after
  have hunseen : ∀ m ∈ (after 6).issued, m.delta.removes ≠ [] →
      (⟨[(7, tag 2)], []⟩ : ORSetDelta Nat) ∉ m.seen := by decide +kernel
  exact ⟨hconverges.addWins 1 ⟨[(7, tag 2)], []⟩ (by decide +kernel) 7 (tag 2) List.mem_cons_self
      fun m hm _ => hunseen m hm,
    hconverges.addWins 2 ⟨[(7, tag 2)], []⟩ (by decide +kernel) 7 (tag 2) List.mem_cons_self
      fun m hm _ => hunseen m hm, by decide +kernel⟩

end SetDemo

end P2P333.Platform333.Crdt
