import P2P333.Lib.Transition
import P2P333.Platform333.Crdt.Rga

/-!
# Local edits

One replica of `333-platform/src/crdt/rga.rs`. Its user inserts and deletes at visible positions,
and between two edits any operations arrive, whether or not another replica has made them.

A new id is higher than all ids in the list, so a new node is put right after its parent. That is so
until the numbers run out, which takes one operation that carries the last of them.

Results:
1. `ids_step`: ids stay different, and the counter stays ahead of them.
2. `place_highest`: where a node with the highest id is put.
3. `edits_land`: every edit changes the visible list at the position that was asked for.
-/

namespace P2P333.Platform333.Crdt

open Lib

namespace RGA

variable {T : Type}

def len (r : RGA T) : Nat := (r.nodes.filter fun n => !n.deleted).length

/-- The values of the nodes that are not deleted. -/
def shown (nodes : List (RGANode T)) : List T :=
  (nodes.filter fun n => !n.deleted).map RGANode.value

section Nodes

variable {nodes left right : List (RGANode T)} {m n : RGANode T}
    {parent : Option PosId} {id : PosId}

theorem shown_append (left right : List (RGANode T)) :
    shown (left ++ right) = shown left ++ shown right := by
  rw [shown, List.filter_append, List.map_append]
  rfl

theorem shown_cons (n : RGANode T) (nodes : List (RGANode T)) :
    shown (n :: nodes) = if n.deleted then shown nodes else n.value :: shown nodes := by
  rw [shown, List.filter_cons]
  cases n.deleted <;> rfl

theorem length_shown (nodes : List (RGANode T)) :
    (shown nodes).length = (nodes.filter fun n => !n.deleted).length := List.length_map _

/-- The node before which `k` visible ones stand. -/
theorem visibleToInternal_of_lt {k : Nat} (h : k < (shown nodes).length) :
    ∃ left m right, nodes = left ++ m :: right ∧ visibleToInternal k nodes = some left.length ∧
      m.deleted = false ∧ (shown left).length = k := by
  induction nodes generalizing k with
  | nil => cases h
  | cons n nodes ih =>
    rw [shown_cons] at h
    unfold visibleToInternal
    split at h
    · next hdeleted =>
      obtain ⟨left, m, right, rfl, hindex, hm, hk⟩ := ih h
      refine ⟨n :: left, m, right, rfl, ?_, hm, ?_⟩
      · rw [if_pos hdeleted, hindex]
        rfl
      · rw [shown_cons, if_pos hdeleted, hk]
    · next hvisible =>
      cases k with
      | zero =>
        refine ⟨[], n, nodes, rfl, ?_, Bool.eq_false_iff.mpr hvisible, rfl⟩
        rw [if_neg hvisible]
        rfl
      | succ k =>
        obtain ⟨left, m, right, rfl, hindex, hm, hk⟩ := ih (Nat.lt_of_succ_lt_succ h)
        refine ⟨n :: left, m, right, rfl, ?_, hm, ?_⟩
        · rw [if_neg hvisible]
          exact congrArg (Option.map (· + 1)) hindex
        · rw [shown_cons, if_neg hvisible, List.length_cons, hk]

theorem findIndex_of_nodup (h : ((left ++ m :: right).map RGANode.id).Nodup) :
    findIndex (left ++ m :: right) m.id = some left.length := by
  rw [List.map_append, List.nodup_append] at h
  have hnot : ∀ n ∈ left, n.id ≠ m.id := fun n hn =>
    h.2.2 _ (List.mem_map_of_mem hn) _ (List.mem_map_of_mem List.mem_cons_self)
  have hnone : left.findIdx? (fun n => decide (n.id = m.id)) = none :=
    List.findIdx?_eq_none_iff.mpr fun n hn => decide_eq_false (hnot n hn)
  rw [findIndex, List.findIdx?_append, hnone, List.findIdx?_cons, decide_eq_true rfl]
  simp

theorem scan_le (parent : Option PosId) (id : PosId) (skipping : Bool) (nodes : List (RGANode T)) :
    scan parent id skipping nodes ≤ nodes.length := by
  induction nodes generalizing skipping with
  | nil => exact Nat.le_refl _
  | cons n nodes ih =>
    simp only [scan, List.length_cons]
    split_ifs
    · exact Nat.succ_le_succ (ih true)
    · exact Nat.zero_le _
    · exact Nat.succ_le_succ (ih true)
    · exact Nat.zero_le _

theorem searchStart_le (nodes : List (RGANode T)) (parent : Option PosId) :
    searchStart nodes parent ≤ nodes.length := by
  cases parent with
  | none => exact Nat.zero_le _
  | some pid =>
    rw [searchStart]
    cases hindex : findIndex nodes pid with
    | none => exact Nat.zero_le _
    | some index =>
      obtain ⟨left, m, right, rfl, rfl, -⟩ := findIndex_eq_some hindex
      rw [Option.elim_some, List.length_append, List.length_cons]
      omega

theorem findInsertPoint_le (nodes : List (RGANode T)) (parent : Option PosId) (id : PosId) :
    findInsertPoint nodes parent id ≤ nodes.length := by
  have hscan := scan_le parent id false (nodes.drop (searchStart nodes parent))
  rw [List.length_drop] at hscan
  have hstart := searchStart_le nodes parent
  rw [findInsertPoint]
  omega

/-- A node with the highest id passes no other node. -/
theorem scan_of_highest (h : ∀ n ∈ nodes, n.id < id) : scan parent id false nodes = 0 := by
  cases nodes with
  | nil => rfl
  | cons n nodes =>
    simp only [scan, Bool.false_eq_true, if_false]
    split
    · exact if_neg (h n List.mem_cons_self).asymm
    · rfl

/-- A node with the highest id is put where as many visible nodes stand before it as were asked
for. -/
theorem place_highest {visibleIdx : Nat} (value : T) (hnodup : (nodes.map RGANode.id).Nodup)
    (hhighest : ∀ n ∈ nodes, n.id < id) (hle : visibleIdx ≤ (shown nodes).length) :
    ∃ left right, nodes = left ++ right ∧ (shown left).length = visibleIdx ∧
      place nodes id (parentAt nodes visibleIdx) value =
        left ++ ⟨id, value, false, parentAt nodes visibleIdx⟩ :: right := by
  have hpoint : findInsertPoint nodes (parentAt nodes visibleIdx) id =
      searchStart nodes (parentAt nodes visibleIdx) := by
    rw [findInsertPoint, scan_of_highest fun n hn => hhighest n (List.mem_of_mem_drop hn)]
    rfl
  cases visibleIdx with
  | zero => exact ⟨[], nodes, rfl, rfl, place_eq rfl hpoint.symm⟩
  | succ k =>
    obtain ⟨left, m, right, rfl, hindex, hm, hk⟩ := visibleToInternal_of_lt hle
    have hparent : parentAt (left ++ m :: right) (k + 1) = some m.id := by
      rw [parentAt, hindex, Option.bind_some, List.getElem?_append_right (Nat.le_refl _),
        Nat.sub_self]
      rfl
    have hsplit : left ++ m :: right = (left ++ [m]) ++ right := by
      rw [List.append_assoc]
      rfl
    refine ⟨left ++ [m], right, hsplit, ?_, place_eq hsplit ?_⟩
    · rw [shown_append, List.length_append, hk, shown_cons, hm]
      rfl
    · rw [hpoint, hparent, searchStart, findIndex_of_nodup hnodup]
      simp

end Nodes

/-! ## Edits -/

/-- What happens to a replica. -/
inductive Edit (T : Type) where
  | insertAt (visibleIdx : Nat) (value : T)
  | deleteAt (visibleIdx : Nat)
  | apply (op : RGAOp T)

def step (checks : Bool) (r : RGA T) : Edit T → Option (RGA T)
  | .insertAt visibleIdx value => (r.insertAt checks visibleIdx value).map Prod.snd
  | .deleteAt visibleIdx => some ((r.deleteAt visibleIdx).elim r Prod.snd)
  | .apply op => some (r.apply op)

/-- There is a next number. -/
def HasRoom (r : RGA T) : Prop := r.seq.toNat + 1 < 2 ^ 64

/-- Nothing is inserted once the numbers have run out. -/
def Numbered (r : RGA T) : Edit T → Prop
  | .insertAt .. => r.HasRoom
  | .deleteAt _ | .apply _ => True

/-- The ids are different, and none has a number above the counter. -/
structure Ids (r : RGA T) : Prop where
  nodup : (r.nodes.map RGANode.id).Nodup
  ahead : ∀ id ∈ r.nodes.map RGANode.id, id.seq.toNat ≤ r.seq.toNat

variable {r r' : RGA T} {checks : Bool}

theorem ids_new (nodeId : UInt32) : Ids (new nodeId : RGA T) := ⟨List.nodup_nil, nofun⟩

theorem toNat_seq_succ (h : r.HasRoom) : (r.seq + 1).toNat = r.seq.toNat + 1 := by
  rw [UInt64.toNat_add]
  exact Nat.mod_eq_of_lt h

/-- The next id is the highest. -/
theorem Ids.lt_next (h : Ids r) (hroom : r.HasRoom) {n : RGANode T} (hn : n ∈ r.nodes) :
    n.id < ⟨r.nodeId, r.seq + 1⟩ := by
  refine PosId.lt_of_seq ?_
  rw [toNat_seq_succ hroom]
  exact Nat.lt_succ_of_le (h.ahead _ (List.mem_map_of_mem hn))

/-- A node with a new id comes in. -/
theorem Ids.place (h : Ids r) {id : PosId} {parent : Option PosId} {value : T} {seq : UInt64}
    (hfresh : ∀ n ∈ r.nodes, n.id ≠ id) (hold : r.seq.toNat ≤ seq.toNat)
    (hnew : id.seq.toNat ≤ seq.toNat) :
    Ids { r with seq := seq, nodes := RGA.place r.nodes id parent value } := by
  have hle : findInsertPoint r.nodes parent id ≤ r.nodes.length := findInsertPoint_le ..
  have hids : (RGA.place r.nodes id parent value).map RGANode.id =
      (r.nodes.map RGANode.id).insertIdx (findInsertPoint r.nodes parent id) id :=
    List.map_insertIdx ..
  have hperm := List.perm_insertIdx id (r.nodes.map RGANode.id)
    (i := findInsertPoint r.nodes parent id) (by rwa [List.length_map])
  refine ⟨?_, fun i hi => ?_⟩
  · rw [hids, hperm.nodup_iff]
    refine List.nodup_cons.mpr ⟨fun hin => ?_, h.nodup⟩
    obtain ⟨n, hn, hid⟩ := List.mem_map.mp hin
    exact hfresh n hn hid
  · rw [hids, hperm.mem_iff] at hi
    rcases List.mem_cons.mp hi with rfl | hi
    · exact hnew
    · exact (h.ahead i hi).trans hold

theorem ids_markDeleted (nodes : List (RGANode T)) (index : Nat) :
    (markDeleted nodes index).map RGANode.id = nodes.map RGANode.id := by
  induction nodes generalizing index with
  | nil => cases index <;> rfl
  | cons n nodes ih =>
    cases index with
    | zero => rfl
    | succ index => exact congrArg (n.id :: ·) (ih index)

/-- A tombstone keeps its id. -/
theorem Ids.markDeleted (h : Ids r) (index : Nat) :
    Ids { r with nodes := RGA.markDeleted r.nodes index } := by
  have hids := ids_markDeleted r.nodes index
  exact ⟨hids.symm ▸ h.nodup, hids.symm ▸ h.ahead⟩

theorem Ids.apply (h : Ids r) (op : RGAOp T) : Ids (r.apply op) := by
  cases op with
  | insert id parent value =>
    simp only [RGA.apply]
    split
    · exact h
    · next hnew =>
      refine h.place (fun n hn hid => hnew (findIndex_isSome.mpr ⟨n, hn, hid⟩)) ?_ ?_
      · split
        · next hlt => exact (UInt64.lt_iff_toNat_lt.mp hlt).le
        · exact Nat.le_refl _
      · split
        · exact Nat.le_refl _
        · next hle => exact Nat.le_of_not_lt (UInt64.lt_iff_toNat_lt.not.mp hle)
  | delete id =>
    simp only [RGA.apply]
    split
    · exact h.markDeleted _
    · exact h

/-- An insert that has a number. -/
theorem insertAt_of_room (h : r.HasRoom) (visibleIdx : Nat) (value : T) :
    r.insertAt checks visibleIdx value =
      some (.insert ⟨r.nodeId, r.seq + 1⟩ (parentAt r.nodes visibleIdx) value,
        { r with
          seq := r.seq + 1
          nodes := place r.nodes ⟨r.nodeId, r.seq + 1⟩ (parentAt r.nodes visibleIdx) value }) :=
  if_neg fun hout => h.ne hout.2

theorem deleteAt_eq_some {visibleIdx : Nat} {op : RGAOp T}
    (h : r.deleteAt visibleIdx = some (op, r')) :
    ∃ index, r' = { r with nodes := markDeleted r.nodes index } := by
  obtain ⟨index, -, h⟩ := Option.bind_eq_some_iff.mp h
  obtain ⟨node, -, h⟩ := Option.bind_eq_some_iff.mp h
  cases h
  exact ⟨index, rfl⟩

theorem ids_step (h : Ids r) {e : Edit T} (hok : r.Numbered e) (hstep : step checks r e = some r') :
    Ids r' := by
  cases e with
  | insertAt visibleIdx value =>
    have hroom : r.HasRoom := hok
    rw [step, insertAt_of_room hroom] at hstep
    cases hstep
    refine h.place (fun n hn => (h.lt_next hroom hn).ne) ?_ (Nat.le_refl _)
    rw [toNat_seq_succ hroom]
    exact Nat.le_succ _
  | deleteAt visibleIdx =>
    cases hstep
    cases hdelete : r.deleteAt visibleIdx with
    | none => exact h
    | some d =>
      obtain ⟨op, r'⟩ := d
      obtain ⟨index, rfl⟩ := deleteAt_eq_some hdelete
      exact h.markDeleted index
  | apply op =>
    cases hstep
    exact h.apply op

/-! ## Where edits land -/

/-- An insert puts its value at the position that was asked for. -/
def InsertsLand (checks : Bool) (r : RGA T) : Prop :=
  ∀ visibleIdx ≤ r.len, ∀ value, ∃ op r', r.insertAt checks visibleIdx value = some (op, r') ∧
    r'.toVec = r.toVec.insertIdx visibleIdx value

/-- A delete takes away the value at the position, and no other. -/
def DeletesLand (r : RGA T) : Prop :=
  ∀ visibleIdx < r.len, ∃ op r', r.deleteAt visibleIdx = some (op, r') ∧
    r'.toVec = r.toVec.eraseIdx visibleIdx

theorem Ids.insertsLand (h : Ids r) (hroom : r.HasRoom) : InsertsLand checks r := by
  intro visibleIdx hle value
  obtain ⟨left, right, hnodes, hshown, hplace⟩ := place_highest value h.nodup
    (fun n hn => h.lt_next hroom hn) (hle.trans_eq (length_shown _).symm)
  refine ⟨_, _, insertAt_of_room hroom visibleIdx value, ?_⟩
  have hold : r.toVec = shown left ++ shown right := by
    rw [← shown_append, ← hnodes]
    rfl
  have hnew : shown (RGA.place r.nodes ⟨r.nodeId, r.seq + 1⟩ (parentAt r.nodes visibleIdx) value) =
      shown left ++ value :: shown right := by
    rw [hplace, shown_append, shown_cons]
    rfl
  refine hnew.trans ?_
  rw [hold, ← hshown, insertIdx_length]

theorem deletesLand (r : RGA T) : DeletesLand r := by
  intro visibleIdx hlt
  obtain ⟨left, m, right, hnodes, hindex, hm, hshown⟩ :=
    visibleToInternal_of_lt (hlt.trans_eq (length_shown _).symm)
  have hnode : r.nodes[left.length]? = some m := by
    rw [hnodes, List.getElem?_append_right (Nat.le_refl _), Nat.sub_self]
    rfl
  refine ⟨.delete m.id, { r with nodes := markDeleted r.nodes left.length }, ?_, ?_⟩
  · rw [deleteAt, hindex]
    simp only [Option.bind_eq_bind, Option.bind_some, hnode]
  · have hold : r.toVec = shown left ++ m.value :: shown right := by
      have hcons : shown (m :: right) = m.value :: shown right := by
        rw [shown_cons, hm]
        rfl
      rw [← hcons, ← shown_append, ← hnodes]
      rfl
    have hnew : shown (markDeleted r.nodes left.length) = shown left ++ shown right := by
      rw [markDeleted, hnodes, modify_length, shown_append, shown_cons]
      rfl
    rw [hold, ← hshown, List.eraseIdx_append_of_length_le (Nat.le_refl _), Nat.sub_self]
    exact hnew

/-- The states that edits and operations lead to, as long as no number above the last is taken. -/
abbrev Reached (checks : Bool) (nodeId : UInt32) : RGA T → Prop :=
  Lib.Reachable (step checks) Numbered (new nodeId)

theorem ids_reached {nodeId : UInt32} (h : Reached checks nodeId r) : Ids r :=
  Lib.Reachable.invariant (ids_new nodeId) (fun _ _ _ _ hids hok hstep => ids_step hids hok hstep) h

/-- Every delete lands where it was asked for, and every insert as long as there is a next number.
-/
theorem edits_land {nodeId : UInt32} (h : Reached checks nodeId r) :
    DeletesLand r ∧ (r.HasRoom → InsertsLand checks r) :=
  ⟨deletesLand r, fun hroom => (ids_reached h).insertsLand hroom⟩

end RGA

namespace EditDemo

open RGA

instance (r : RGA Char) : Decidable r.HasRoom := inferInstanceAs (Decidable (_ < _))

instance (r : RGA Char) : ∀ e, Decidable (r.Numbered e)
  | .insertAt .. => inferInstanceAs (Decidable r.HasRoom)
  | .deleteAt _ | .apply _ => .isTrue trivial

/-- A node of another replica arrives between two edits. -/
theorem edits_land_mixed : ∃ r : RGA Char, r.toVec = ['h', 'o'] ∧ DeletesLand r ∧
    InsertsLand true r := by
  have hrun : ∃ r : RGA Char, Reached true 1 r ∧ r.HasRoom ∧ r.toVec = ['h', 'o'] :=
    Lib.Reachable.of_exec [.insertAt 0 'h', .apply (.insert ⟨2, 7⟩ (some ⟨1, 1⟩) 'a'),
      .insertAt 2 'o', .deleteAt 1] (by decide +kernel)
  obtain ⟨r, hreach, hroom, hvec⟩ := hrun
  obtain ⟨hdeletes, hinserts⟩ := edits_land hreach
  exact ⟨r, hvec, hdeletes, hinserts hroom⟩

/-- Another replica has taken the last number. -/
def exhausted : RGA Char := (new 1).apply (.insert ⟨2, UInt64.ofNat (2 ^ 64 - 1)⟩ none 'x')

theorem reached_exhausted (checks : Bool) : Reached checks 1 exhausted :=
  .tail (a := .apply (.insert ⟨2, UInt64.ofNat (2 ^ 64 - 1)⟩ none 'x')) .refl trivial rfl

/-- An insert at the front comes last, or panics. -/
theorem exhausted_not_lands : Reached true 1 exhausted ∧ Reached false 1 exhausted ∧
    ¬ InsertsLand true exhausted ∧ ¬ InsertsLand false exhausted := by
  refine ⟨reached_exhausted true, reached_exhausted false, fun h => ?_, fun h => ?_⟩
  · obtain ⟨op, r', hinsert, -⟩ := h 0 (Nat.zero_le _) 'y'
    cases hinsert
  · obtain ⟨op, r', hinsert, hvec⟩ := h 0 (Nat.zero_le _) 'y'
    cases hinsert
    exact absurd hvec (by decide +kernel)

end EditDemo

end P2P333.Platform333.Crdt
