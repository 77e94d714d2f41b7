import P2P333.Lib.Checked
import P2P333.Platform333.Crdt.Rga
import P2P333.Lib.Transition

/-!
# Replicas of an array

Any number of replicas of `333-platform/src/crdt/rga.rs` insert and delete, and send their
operations to one another. What was sent arrives any number of times or never, and after all that
its replica had applied when it was made.

Results:
1. `inv_reachable`: in every run in which nodes fit where they arrive, the nodes stand in document
   order.
2. `rga_converges`: then replicas that have applied the same operations show the same list.
-/

namespace P2P333.Platform333.Crdt

open Lib Lib.DocumentOrder Function

namespace RGAOp

variable {T : Type}

/-- The node that an operation inserts. -/
def inserts : RGAOp T → Option PosId
  | insert id _ _ => some id
  | delete _ => none

/-- The node that must be there before. -/
def refersTo : RGAOp T → Option PosId
  | insert _ parent _ => parent
  | delete id => some id

end RGAOp

/-- A replica, and the operations that it has applied, its own among them. -/
structure ArraySite (T : Type) where
  replica : RGA T
  applied : List (RGAOp T)

/-- An operation, with those that its replica had applied when it was made. -/
structure Issued (T : Type) where
  op : RGAOp T
  seen : List (RGAOp T)

structure ArrayWorld (T : Type) where
  site : UInt32 → ArraySite T
  issued : List (Issued T)

/-- A replica edits its array, or an operation reaches it. -/
inductive ArrayAction (T : Type) where
  | insertAt (v : UInt32) (visibleIdx : Nat) (value : T)
  | deleteAt (v : UInt32) (visibleIdx : Nat)
  | apply (v : UInt32) (op : RGAOp T)

namespace ArrayWorld

variable {T : Type}

/-- The replicas have different node ids. -/
def start : ArrayWorld T := ⟨fun v => ⟨.new v, []⟩, []⟩

def put (w : ArrayWorld T) (v : UInt32) (replica : RGA T) (op : RGAOp T) : ArrayWorld T :=
  { w with site := update w.site v ⟨replica, op :: (w.site v).applied⟩ }

/-- A replica has made an operation. -/
def made (w : ArrayWorld T) (v : UInt32) (r : RGAOp T × RGA T) : ArrayWorld T :=
  { w.put v r.2 r.1 with issued := ⟨r.1, (w.site v).applied⟩ :: w.issued }

def step (checks : Bool) (w : ArrayWorld T) : ArrayAction T → Option (ArrayWorld T)
  | .insertAt v visibleIdx value =>
    ((w.site v).replica.insertAt checks visibleIdx value).map fun r => w.made v r
  | .deleteAt v visibleIdx =>
    some (((w.site v).replica.deleteAt visibleIdx).elim w fun r => w.made v r)
  | .apply v op => some (w.put v ((w.site v).replica.apply op) op)

/-- What arrives was made, and its replica had applied nothing that is missing here. Without
overflow checks a replica does not wrap its numbers. -/
def Causal (checks : Bool) (w : ArrayWorld T) : ArrayAction T → Prop
  | .insertAt v _ _ => checks ∨ (w.site v).replica.seq.toNat + 1 < 2 ^ 64
  | .deleteAt _ _ => True
  | .apply v op => ∃ m ∈ w.issued, m.op = op ∧ ∀ o ∈ m.seen, o ∈ (w.site v).applied

/-- A node that arrives for the first time fits. -/
def Fitting (w : ArrayWorld T) : ArrayAction T → Prop
  | .apply v (.insert id parent _) =>
    (RGA.findIndex (w.site v).replica.nodes id).isSome ∨ RGA.Fits (w.site v).replica.nodes parent id
  | _ => True

/-! ## The invariant -/

/-- The way down to each node. -/
def wayTo : List (Issued T) → PosId → List PosId
  | [], _ => []
  | ⟨.insert id parent _, _⟩ :: issued, k =>
    if k = id then above (wayTo issued) parent ++ [id] else wayTo issued k
  | ⟨.delete _, _⟩ :: issued, k => wayTo issued k

structure Sound (issued : List (Issued T)) (s : ArraySite T) : Prop where
  made : ∀ op ∈ s.applied, ∃ m ∈ issued, m.op = op
  /-- The nodes are those that were inserted, and the tombstones those that were deleted. -/
  holds : ∀ n, n ∈ s.replica.nodes ↔
    .insert n.id n.parent n.value ∈ s.applied ∧ (n.deleted = true ↔ .delete n.id ∈ s.applied)
  dead : ∀ k, .delete k ∈ s.applied → ∃ m ∈ s.replica.nodes, m.id = k
  inOrder : RGA.InOrder (wayTo issued) s.replica.nodes
  ahead : ∀ n ∈ s.replica.nodes, n.id.seq.toNat ≤ s.replica.seq.toNat

structure Inv (w : ArrayWorld T) : Prop where
  nodeId : ∀ v, (w.site v).replica.nodeId = v
  /-- The numbers of a replica are ahead of the ids that it has given out. -/
  own : ∀ m ∈ w.issued, ∀ id ∈ m.op.inserts,
    id.seq.toNat ≤ (w.site id.nodeId).replica.seq.toNat
  unique : ∀ m ∈ w.issued, ∀ m' ∈ w.issued, ∀ id ∈ m.op.inserts, id ∈ m'.op.inserts → m.op = m'.op
  refers : ∀ m ∈ w.issued, ∀ k ∈ m.op.refersTo, ∃ op ∈ m.seen, k ∈ op.inserts
  somewhere : ∀ m ∈ w.issued, ∃ v, m.op ∈ (w.site v).applied
  sites : ∀ v, Sound w.issued (w.site v)

section Sites

variable {issued : List (Issued T)} {s : ArraySite T} {op : RGAOp T} {id k : PosId}
  {parent : Option PosId} {value : T}

section

variable (h : Sound issued s)
include h

theorem Sound.node (hop : .insert id parent value ∈ s.applied) :
    ∃ n ∈ s.replica.nodes, n.id = id ∧ n.parent = parent ∧ n.value = value := by
  by_cases hdead : .delete id ∈ s.applied
  · exact ⟨⟨id, value, true, parent⟩, (h.holds _).mpr ⟨hop, iff_of_true rfl hdead⟩, rfl, rfl, rfl⟩
  · exact ⟨⟨id, value, false, parent⟩, (h.holds _).mpr ⟨hop, iff_of_false nofun hdead⟩,
      rfl, rfl, rfl⟩

theorem Sound.node_of_inserts (hop : op ∈ s.applied) (hk : k ∈ op.inserts) :
    ∃ n ∈ s.replica.nodes, n.id = k := by
  cases op with
  | insert id parent value =>
    cases hk
    obtain ⟨n, hn, hid, -⟩ := h.node hop
    exact ⟨n, hn, hid⟩
  | delete => cases hk

/-- A node is put in that fits. -/
theorem Sound.insert (hissued : ∃ m ∈ issued, m.op = .insert id parent value)
    (hway : wayTo issued id = above (wayTo issued) parent ++ [id])
    (hknown : ∀ i, parent = some i → ∃ m ∈ s.replica.nodes, m.id = i)
    (hfresh : ∀ n ∈ s.replica.nodes, n.id ≠ id) (hfits : RGA.Fits s.replica.nodes parent id)
    {seq : UInt64} (hseq : s.replica.seq.toNat ≤ seq.toNat) (hid : id.seq.toNat ≤ seq.toNat) :
    Sound issued ⟨{ s.replica with seq := seq, nodes := RGA.place s.replica.nodes id parent value },
      .insert id parent value :: s.applied⟩ := by
  have hmem : ∀ n, n ∈ RGA.place s.replica.nodes id parent value ↔ _ := fun n =>
    RGA.mem_place (n := n) h.inOrder hknown hfresh hfits
  have halive : RGAOp.delete id ∉ s.applied := by
    intro hdead
    obtain ⟨m, hm, hmid⟩ := h.dead id hdead
    exact hfresh m hm hmid
  have hdelete : ∀ k, RGAOp.delete k ∈ RGAOp.insert id parent value :: s.applied ↔
      RGAOp.delete k ∈ s.applied := by simp
  constructor
  · exact List.forall_mem_cons.mpr ⟨hissued, h.made⟩
  · intro n
    rw [hmem, hdelete, List.mem_cons, RGAOp.insert.injEq]
    constructor
    · rintro (rfl | hn)
      · exact ⟨.inl ⟨rfl, rfl, rfl⟩, iff_of_false nofun halive⟩
      · exact ((h.holds n).mp hn).imp_left .inr
    · rintro ⟨⟨rfl, rfl, rfl⟩ | hop, hdeleted⟩
      · have hfalse : n.deleted = false := Bool.eq_false_iff.mpr fun htrue =>
          halive (hdeleted.mp htrue)
        exact .inl (by rw [← hfalse])
      · exact .inr ((h.holds n).mpr ⟨hop, hdeleted⟩)
  · intro k hk
    obtain ⟨m, hm, hmid⟩ := h.dead k ((hdelete k).mp hk)
    exact ⟨m, (hmem m).mpr (.inr hm), hmid⟩
  · exact RGA.inOrder_place h.inOrder hway hknown hfresh hfits
  · intro n hn
    rcases (hmem n).mp hn with rfl | hn
    · exact hid
    · exact (h.ahead n hn).trans hseq

/-- A node becomes a tombstone. -/
theorem Sound.delete {left right : List (RGANode T)} {m : RGANode T}
    (hissued : ∃ m' ∈ issued, m'.op = .delete m.id) (heq : s.replica.nodes = left ++ m :: right) :
    Sound issued ⟨{ s.replica with nodes := RGA.markDeleted s.replica.nodes left.length },
      .delete m.id :: s.applied⟩ := by
  have hmem : m ∈ s.replica.nodes := by simp [heq]
  have hmap := RGA.markDeleted_eq h.inOrder heq
  have hinsert : ∀ n :
    RGANode T, RGAOp.insert n.id n.parent n.value ∈ RGAOp.delete m.id :: s.applied ↔
      RGAOp.insert n.id n.parent n.value ∈ s.applied := by simp
  constructor
  · exact List.forall_mem_cons.mpr ⟨hissued, h.made⟩
  · intro n
    rw [hmap, hinsert, List.mem_map, List.mem_cons, RGAOp.delete.injEq]
    by_cases hid : n.id = m.id
    · constructor
      · rintro ⟨n', hn', rfl⟩
        split_ifs at hid ⊢ with hid'
        · exact ⟨((h.holds n').mp hn').1, iff_of_true rfl (.inl hid')⟩
        · exact absurd hid hid'
      · rintro ⟨hop, hdeleted⟩
        obtain ⟨n', hn', hid', hparent, hvalue⟩ := h.node hop
        refine ⟨n', hn', ?_⟩
        rw [if_pos (hid'.trans hid), hid', hparent, hvalue, ← hdeleted.mpr (.inl hid)]
    · rw [or_iff_right hid, ← h.holds]
      constructor
      · rintro ⟨n', hn', rfl⟩
        split_ifs at hid ⊢ with hid'
        · exact absurd hid' hid
        · exact hn'
      · exact fun hn => ⟨n, hn, if_neg hid⟩
  · intro k hk
    have hsame : ∃ n ∈ s.replica.nodes, n.id = k := by
      rcases List.mem_cons.mp hk with heq' | hk
      · cases heq'
        exact ⟨m, hmem, rfl⟩
      · exact h.dead k hk
    obtain ⟨n, hn, rfl⟩ := hsame
    refine ⟨_, hmap ▸ List.mem_map_of_mem hn, ?_⟩
    split_ifs <;> rfl
  · rw [hmap]
    exact h.inOrder.map (fun n => by split_ifs <;> rfl) fun n => by split_ifs <;> rfl
  · intro n hn
    rw [hmap] at hn
    obtain ⟨n', hn', rfl⟩ := List.mem_map.mp hn
    have hahead := h.ahead n' hn'
    split_ifs <;> exact hahead

/-- One more operation somewhere, which has a new id if it inserts. -/
theorem Sound.mono (m : Issued T)
    (hfresh : ∀ id ∈ m.op.inserts, ∀ n ∈ s.replica.nodes, n.id ≠ id) : Sound (m :: issued) s := by
  refine { h with
    made := fun op hop => (h.made op hop).imp fun _ hm => ⟨List.mem_cons_of_mem _ hm.1, hm.2⟩
    inOrder := h.inOrder.congr fun n hn => ?_ }
  obtain ⟨op, seen⟩ := m
  cases op with
  | insert id parent value => exact if_neg (hfresh id rfl n hn)
  | delete => rfl

/-- What was applied before changes nothing. -/
theorem Sound.again (hop : op ∈ s.applied) : Sound issued ⟨s.replica, op :: s.applied⟩ := by
  have hsame : ∀ o, o ∈ op :: s.applied ↔ o ∈ s.applied := fun o =>
    ⟨fun ho => (List.mem_cons.mp ho).elim (fun heq => heq ▸ hop) fun ho => ho,
      List.mem_cons_of_mem _⟩
  refine ⟨fun o ho => h.made o ((hsame o).mp ho), fun n => ?_, fun k hk =>
    h.dead k ((hsame _).mp hk),
    h.inOrder, h.ahead⟩
  rw [hsame, hsame]
  exact h.holds n

end

end Sites

variable {w : ArrayWorld T} {checks : Bool} {v : UInt32}

theorem inv_start : Inv (start : ArrayWorld T) where
  nodeId _ := rfl
  own := nofun
  unique := nofun
  refers := nofun
  somewhere := nofun
  sites _ := ⟨nofun, fun _ => iff_of_false nofun nofun, nofun, ⟨.nil, nofun, nofun⟩, nofun⟩

/-- An id that a replica has not given out is nowhere. -/
theorem Inv.fresh (h : Inv w) {id : PosId} (hnode : id.nodeId = v)
    (hlt : (w.site v).replica.seq.toNat < id.seq.toNat) (u : UInt32) :
    ∀ n ∈ (w.site u).replica.nodes, n.id ≠ id := by
  rintro n hn rfl
  obtain ⟨m, hm, hop⟩ := (h.sites u).made _ (((h.sites u).holds n).mp hn).1
  have hown := h.own m hm n.id (by rw [hop]; rfl)
  rw [hnode] at hown
  exact Nat.not_lt.mpr hown hlt

/-- A replica keeps its node id, its number does not go down, and no operation is forgotten. -/
theorem put_keeps {replica : RGA T} (op : RGAOp T)
    (hnode : replica.nodeId = (w.site v).replica.nodeId)
    (hseq : (w.site v).replica.seq.toNat ≤ replica.seq.toNat) :
    ∀ u, ((w.put v replica op).site u).replica.nodeId = (w.site u).replica.nodeId ∧
      (w.site u).replica.seq.toNat ≤ ((w.put v replica op).site u).replica.seq.toNat ∧
      ∀ o ∈ (w.site u).applied, o ∈ ((w.put v replica op).site u).applied := by
  refine (forall_update_iff w.site fun u s => s.replica.nodeId =
    (w.site u).replica.nodeId ∧ (w.site u).replica.seq.toNat ≤ s.replica.seq.toNat ∧
      ∀ o ∈ (w.site u).applied, o ∈ s.applied).mpr ?_
  exact ⟨⟨hnode, hseq, fun o ho => List.mem_cons_of_mem _ ho⟩,
    fun u _ => ⟨rfl, Nat.le_refl _, fun o ho => ho⟩⟩

/-- A replica has applied an operation. -/
theorem Inv.put (h : Inv w) {replica : RGA T} {op : RGAOp T}
    (hnode : replica.nodeId = (w.site v).replica.nodeId)
    (hseq : (w.site v).replica.seq.toNat ≤ replica.seq.toNat)
    (hsound : Sound w.issued ⟨replica, op :: (w.site v).applied⟩) : Inv (w.put v replica op) := by
  have hkeep := put_keeps op hnode hseq
  refine { h with
    nodeId := fun u => (hkeep u).1.trans (h.nodeId u)
    own := fun m hm id hid => (h.own m hm id hid).trans (hkeep _).2.1
    somewhere := fun m hm => (h.somewhere m hm).imp fun u hu => (hkeep u).2.2 _ hu
    sites := (forall_update_iff w.site fun _ s => Sound w.issued s).mpr
      ⟨hsound, fun u _ => h.sites u⟩ }

/-- A replica has made an operation: the id that it gives out is new. -/
theorem Inv.made (h : Inv w) {r : RGAOp T × RGA T}
    (hnode : r.2.nodeId = (w.site v).replica.nodeId)
    (hseq : (w.site v).replica.seq.toNat ≤ r.2.seq.toNat)
    (hnew : ∀ id ∈ r.1.inserts, id.nodeId = v ∧ (w.site v).replica.seq.toNat < id.seq.toNat ∧
      id.seq.toNat ≤ r.2.seq.toNat)
    (hrefers : ∀ k ∈ r.1.refersTo, ∃ op ∈ (w.site v).applied, k ∈ op.inserts)
    (hsound : Sound (⟨r.1, (w.site v).applied⟩ :: w.issued) ⟨r.2, r.1 :: (w.site v).applied⟩) :
    Inv (w.made v r) := by
  have hkeep := put_keeps r.1 hnode hseq
  have hhere : (w.made v r).site v = ⟨r.2, r.1 :: (w.site v).applied⟩ := update_self ..
  have hother : ∀ m ∈ w.issued, ∀ id ∈ m.op.inserts, id ∉ r.1.inserts := by
    intro m hm id hid hid'
    obtain ⟨hnode', hlt, -⟩ := hnew id hid'
    have hle := h.own m hm id hid
    rw [hnode'] at hle
    exact Nat.not_lt.mpr hle hlt
  refine ⟨fun u => (hkeep u).1.trans (h.nodeId u), fun m hm id hid => ?_,
    fun m hm m' hm' id hid hid' => ?_, fun m hm => ?_, fun m hm => ?_, ?_⟩
  · rcases List.mem_cons.mp hm with rfl | hm
    · obtain ⟨rfl, -, hle⟩ := hnew id hid
      rw [hhere]
      exact hle
    · exact (h.own m hm id hid).trans (hkeep _).2.1
  · rcases List.mem_cons.mp hm with rfl | hm
    · rcases List.mem_cons.mp hm' with rfl | hm'
      · rfl
      · exact absurd hid (hother m' hm' id hid')
    · rcases List.mem_cons.mp hm' with rfl | hm'
      · exact absurd hid' (hother m hm id hid)
      · exact h.unique m hm m' hm' id hid hid'
  · rcases List.mem_cons.mp hm with rfl | hm
    · exact hrefers
    · exact h.refers m hm
  · rcases List.mem_cons.mp hm with rfl | hm
    · exact ⟨v, by rw [hhere]; exact List.mem_cons_self⟩
    · exact (h.somewhere m hm).imp fun u hu => (hkeep u).2.2 _ hu
  · refine (forall_update_iff w.site fun _ s => Sound (w.made v r).issued s).mpr
      ⟨hsound, fun u _ => (h.sites u).mono _ fun id hid => ?_⟩
    exact h.fresh (hnew id hid).1 (hnew id hid).2.1 u

theorem Inv.insertAt (h : Inv w) {visibleIdx : Nat} {value : T} {r : RGAOp T × RGA T}
    (hok : checks ∨ (w.site v).replica.seq.toNat + 1 < 2 ^ 64)
    (hinsert : (w.site v).replica.insertAt checks visibleIdx value = some r) :
      Inv (w.made v r) := by
  unfold RGA.insertAt at hinsert
  split at hinsert
  · cases hinsert
  · next hno =>
    have hsucc := toNat_succ_of_guarded hok hno
    have hle : (w.site v).replica.seq.toNat ≤ ((w.site v).replica.seq + 1).toNat :=
      hsucc ▸ Nat.le_succ _
    have hfresh : ∀ u, ∀ n ∈ (w.site u).replica.nodes,
        n.id ≠ ⟨(w.site v).replica.nodeId, (w.site v).replica.seq + 1⟩ :=
      h.fresh (h.nodeId v) (hsucc ▸ Nat.lt_succ_self _)
    cases hinsert
    refine h.made rfl hle ?_ ?_ ?_
    · intro id hid
      cases hid
      exact ⟨h.nodeId v, hsucc ▸ Nat.lt_succ_self _, Nat.le_refl _⟩
    · intro k hk
      obtain ⟨m, hm, rfl⟩ := RGA.parentAt_mem hk
      exact ⟨_, (((h.sites v).holds m).mp hm).1, rfl⟩
    · have hmono :=
        (h.sites v).mono ⟨.insert ⟨(w.site v).replica.nodeId, (w.site v).replica.seq + 1⟩
        (RGA.parentAt (w.site v).replica.nodes visibleIdx) value, (w.site v).applied⟩ (by
          intro id hid
          cases hid
          exact hfresh v)
      refine hmono.insert ⟨_, List.mem_cons_self, rfl⟩ ?_
        (fun i hi => RGA.parentAt_mem hi) (hfresh v)
        (RGA.fits_of_highest fun n hn => PosId.lt_of_seq ?_) hle (Nat.le_refl _)
      · rw [wayTo, if_pos rfl]
        cases hparent : RGA.parentAt (w.site v).replica.nodes visibleIdx with
        | none => rfl
        | some k =>
          obtain ⟨m, hm, rfl⟩ := RGA.parentAt_mem hparent
          rw [above, above, wayTo, if_neg (hfresh v m hm)]
      · rw [hsucc]
        exact Nat.lt_succ_of_le ((h.sites v).ahead n hn)

theorem Inv.deleteAt (h : Inv w) {visibleIdx : Nat} {r : RGAOp T × RGA T}
    (hdelete : (w.site v).replica.deleteAt visibleIdx = some r) : Inv (w.made v r) := by
  obtain ⟨index, hindex, hdelete⟩ := Option.bind_eq_some_iff.mp hdelete
  obtain ⟨node, hnode, hdelete⟩ := Option.bind_eq_some_iff.mp hdelete
  obtain ⟨left, m, right, heq, rfl, -⟩ := RGA.visibleToInternal_eq_some hindex
  have hm : node = m := by
    rw [heq, List.getElem?_append_right (Nat.le_refl _), Nat.sub_self] at hnode
    exact (Option.some.inj hnode).symm
  subst hm
  have hmem : node ∈ (w.site v).replica.nodes := by simp [heq]
  cases hdelete
  refine h.made rfl (Nat.le_refl _) nofun ?_ ?_
  · intro k hk
    cases hk
    exact ⟨_, (((h.sites v).holds node).mp hmem).1, rfl⟩
  · have hmono := (h.sites v).mono ⟨.delete node.id, (w.site v).applied⟩ nofun
    exact hmono.delete ⟨_, List.mem_cons_self, rfl⟩ heq

theorem Inv.apply (h : Inv w) {op : RGAOp T} {m : Issued T} (hm : m ∈ w.issued) (hop : m.op = op)
    (hseen : ∀ o ∈ m.seen, o ∈ (w.site v).applied) (hfitting : Fitting w (.apply v op)) :
    Inv (w.put v ((w.site v).replica.apply op) op) := by
  have hrefers : ∀ k ∈ op.refersTo, ∃ n ∈ (w.site v).replica.nodes, n.id = k := by
    intro k hk
    obtain ⟨o, ho, hk⟩ := h.refers m hm k (hop ▸ hk)
    exact (h.sites v).node_of_inserts (hseen o ho) hk
  cases op with
  | insert id parent value =>
    simp only [RGA.apply]
    split
    · next hthere =>
      -- The node that is there was put in by this very operation.
      obtain ⟨n, hn, rfl⟩ := RGA.findIndex_isSome.mp hthere
      have happlied := (((h.sites v).holds n).mp hn).1
      obtain ⟨m', hm', hop'⟩ := (h.sites v).made _ happlied
      have hsame := h.unique m hm m' hm' n.id (by rw [hop]; rfl) (by rw [hop']; rfl)
      rw [hop, hop'] at hsame
      exact h.put rfl (Nat.le_refl _) ((h.sites v).again (hsame ▸ happlied))
    · next hnew =>
      have hfresh : ∀ n ∈ (w.site v).replica.nodes, n.id ≠ id := fun n hn hid =>
        hnew (RGA.findIndex_isSome.mpr ⟨n, hn, hid⟩)
      obtain ⟨u, hu⟩ := h.somewhere m hm
      rw [hop] at hu
      obtain ⟨n, hn, rfl, rfl, rfl⟩ := (h.sites u).node hu
      have hmax : (w.site v).replica.seq.toNat ≤ (if n.id.seq > (w.site v).replica.seq then n.id.seq
            else (w.site v).replica.seq).toNat ∧
          n.id.seq.toNat ≤ (if n.id.seq > (w.site v).replica.seq then n.id.seq
            else (w.site v).replica.seq).toNat := by
        split
        · next hlt => exact ⟨(UInt64.lt_iff_toNat_lt.mp hlt).le, Nat.le_refl _⟩
        · next hle => exact ⟨Nat.le_refl _, Nat.le_of_not_lt (UInt64.lt_iff_toNat_lt.not.mp hle)⟩
      exact h.put rfl hmax.1 ((h.sites v).insert ⟨m, hm, hop⟩ ((h.sites u).inOrder.grows n hn)
        hrefers hfresh (hfitting.resolve_left hnew) hmax.1 hmax.2)
  | delete id =>
    obtain ⟨n, hn, rfl⟩ := hrefers id rfl
    obtain ⟨index, hindex⟩ := Option.isSome_iff_exists.mp (RGA.findIndex_isSome.mpr ⟨n, hn, rfl⟩)
    obtain ⟨left, n', right, heq, rfl, hid⟩ := RGA.findIndex_eq_some hindex
    simp only [RGA.apply, hindex]
    refine h.put rfl (Nat.le_refl _) ?_
    rw [← hid] at hop ⊢
    exact (h.sites v).delete ⟨m, hm, hop⟩ heq

theorem Inv.step (h : Inv w) {a : ArrayAction T} {w' : ArrayWorld T}
    (hok : Causal checks w a ∧ Fitting w a)
    (hstep : step checks w a = some w') : Inv w' := by
  cases a with
  | insertAt v visibleIdx value =>
    obtain ⟨r, hinsert, rfl⟩ := Option.map_eq_some_iff.mp hstep
    exact h.insertAt hok.1 hinsert
  | deleteAt v visibleIdx =>
    cases hstep
    cases hdelete : (w.site v).replica.deleteAt visibleIdx with
    | none => exact h
    | some r => exact h.deleteAt hdelete
  | apply v op =>
    obtain ⟨⟨m, hm, hop, hseen⟩, hfitting⟩ := hok
    cases hstep
    exact h.apply hm hop hseen hfitting

/-! ## Convergence -/

/-- Runs in which what arrives was made, in causal order. -/
abbrev Delivered (checks : Bool) : ArrayWorld T → Prop :=
  Lib.Reachable (step checks) (Causal checks) start

/-- Runs in which, moreover, each node fits where it arrives. -/
abbrev Reachable (checks : Bool) : ArrayWorld T → Prop :=
  Lib.Reachable (step checks) (fun w a => Causal checks w a ∧ Fitting w a) start

theorem inv_reachable (h : Reachable checks w) : Inv w :=
  Lib.Reachable.invariant inv_start (fun _ _ _ _ hinv hok hstep => hinv.step hok hstep) h

/-- Replicas that have applied the same operations show the same list, as long as each node fitted.
-/
theorem rga_converges (h : Reachable checks w) (u v : UInt32)
    (hsame : ∀ op, op ∈ (w.site u).applied ↔ op ∈ (w.site v).applied) :
    (w.site u).replica.toVec = (w.site v).replica.toVec := by
  have hinv := inv_reachable h
  have hnodes : (w.site u).replica.nodes = (w.site v).replica.nodes := by
    refine (hinv.sites u).inOrder.eq_of_mem_iff (hinv.sites v).inOrder fun n => ?_
    rw [(hinv.sites u).holds, (hinv.sites v).holds, hsame, hsame]
  rw [RGA.toVec, RGA.toVec, hnodes]

end ArrayWorld

namespace ArrayDemo

open ArrayWorld

def p : PosId := ⟨1, 1⟩

def opP : RGAOp Char := .insert p none 'p'

def opQ : RGAOp Char := .insert ⟨0, 1⟩ none 'q'

def opC : RGAOp Char := .insert ⟨2, 2⟩ (some p) 'c'

def opD : RGAOp Char := .insert ⟨1, 2⟩ (some p) 'd'

/-- Two nodes below `p`, and one next to it. -/
def written : List (ArrayAction Char) :=
  [.insertAt 1 0 'p', .insertAt 0 0 'q', .apply 2 opP, .insertAt 2 1 'c', .insertAt 1 1 'd']

/-- The replicas 3 and 4 apply the operations in these orders. -/
def both (l l' : List (RGAOp Char)) : List (ArrayAction Char) :=
  written ++ l.map (.apply 3) ++ l'.map (.apply 4)

instance decidableCausal (w : ArrayWorld Char) : (a : ArrayAction Char) →
    Decidable (Causal true w a)
  | .insertAt _ _ _ => isTrue (.inl rfl)
  | .deleteAt _ _ => isTrue trivial
  | .apply v op => inferInstanceAs
    (Decidable (∃ m ∈ w.issued, m.op = op ∧ ∀ o ∈ m.seen, o ∈ (w.site v).applied))

instance decidableFits (nodes : List (RGANode Char)) (parent : Option PosId) (id : PosId) :
    Decidable (RGA.Fits nodes parent id) :=
  inferInstanceAs (Decidable ((∀ n ∈ nodes.drop (RGA.searchStart nodes parent), n.parent ≠ parent) ∨
    (∃ n ∈ nodes.drop (RGA.searchStart nodes parent), n.parent = parent ∧ n.id < id) ∨
      ∀ n ∈ nodes.drop (RGA.searchStart nodes parent), n.parent = parent ∨
        ∃ m ∈ nodes.drop (RGA.searchStart nodes parent), n.parent = some m.id))

instance decidableFitting (w : ArrayWorld Char) : (a : ArrayAction Char) → Decidable (Fitting w a)
  | .insertAt _ _ _ => isTrue trivial
  | .deleteAt _ _ => isTrue trivial
  | .apply _ (.delete _) => isTrue trivial
  | .apply v (.insert id parent _) => inferInstanceAs (Decidable
    ((RGA.findIndex (w.site v).replica.nodes id).isSome ∨
      RGA.Fits (w.site v).replica.nodes parent id))

/-- The replicas 3 and 4 have applied the same operations. -/
def Same (w : ArrayWorld Char) : Prop :=
  (∀ op ∈ (w.site 3).applied, op ∈ (w.site 4).applied) ∧
    ∀ op ∈ (w.site 4).applied, op ∈ (w.site 3).applied

instance (w : ArrayWorld Char) : Decidable (Same w) := inferInstanceAs (Decidable (_ ∧ _))

theorem Same.iff {w : ArrayWorld Char} (h : Same w) (op : RGAOp Char) :
    op ∈ (w.site 3).applied ↔ op ∈ (w.site 4).applied := ⟨h.1 op, h.2 op⟩

/-- All nodes fit: the lists are the same. -/
theorem converge_fitting : ∃ w : ArrayWorld Char,
    (w.site 3).replica.toVec = ['p', 'c', 'd', 'q'] ∧ (w.site 4).replica.toVec =
      ['p', 'c', 'd', 'q'] := by
  have hrun : ∃ w : ArrayWorld Char, Reachable true w ∧
      Same w ∧ (w.site 3).replica.toVec = ['p', 'c', 'd', 'q'] :=
    Lib.Reachable.of_exec (both [opP, opC, opD, opQ] [opP, opD, opQ, opC]) (by decide +kernel)
  obtain ⟨w, hreach, hsame, hvec⟩ := hrun
  exact ⟨w, hvec, (rga_converges hreach 3 4 hsame.iff).symm.trans hvec⟩

/-- The lower node arrives when the one next to its parent is there already, and is put behind it.
-/
theorem late_child_diverges : ∃ w : ArrayWorld Char, Delivered true w ∧
    (∀ op, op ∈ (w.site 3).applied ↔ op ∈ (w.site 4).applied) ∧
    (w.site 3).replica.toVec ≠ (w.site 4).replica.toVec := by
  have hrun : ∃ w : ArrayWorld Char, Delivered true w ∧
      Same w ∧ (w.site 3).replica.toVec ≠ (w.site 4).replica.toVec :=
    Lib.Reachable.of_exec (both [opP, opC, opD, opQ] [opP, opC, opQ, opD]) (by decide +kernel)
  obtain ⟨w, hreach, hsame, hvec⟩ := hrun
  exact ⟨w, hreach, hsame.iff, hvec⟩

end ArrayDemo

end P2P333.Platform333.Crdt
