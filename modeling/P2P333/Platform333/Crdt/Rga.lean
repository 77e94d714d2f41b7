import P2P333.Lib.DocumentOrder

/-!
# Replicated growable arrays

`333-platform/src/crdt/rga.rs`: a list of nodes, each below the node after which it was inserted.
Nodes with the same parent stand with the higher id first, and a deleted node stays as a tombstone.

The search for the place of a node skips from a sibling to the next one. If all siblings have higher
ids it skips to the end of the list, past nodes that are not below the parent: replicas may then
differ. `Fits` says that the search does not do this.

Results:
1. `findInsertPoint_split`: where a node that fits is put, all before it come before it in document
   order and all after it come after it.
2. `fits_of_highest`: a node with the highest id fits everywhere.
-/

namespace P2P333.Platform333.Crdt

open Lib Lib.DocumentOrder

/-! ## Nodes -/

structure PosId where
  nodeId : UInt32
  seq : UInt64
deriving DecidableEq

namespace PosId

def cmpKey (p : PosId) : ℕ ×ₗ ℕ := toLex (p.seq.toNat, p.nodeId.toNat)

theorem cmpKey_injective : Function.Injective cmpKey := by
  rintro ⟨n, s⟩ ⟨n', s'⟩ h
  have h : (s.toNat, n.toNat) = (s'.toNat, n'.toNat) := h
  rw [Prod.mk.injEq] at h
  rw [UInt64.toNat_inj.mp h.1, UInt32.toNat_inj.mp h.2]

/-- Positions are compared by number and then by node. -/
instance : LinearOrder PosId := .lift' cmpKey cmpKey_injective

theorem lt_of_seq {p q : PosId} (h : p.seq.toNat < q.seq.toNat) : p < q :=
  Prod.Lex.toLex_lt_toLex.mpr (.inl h)

end PosId

structure RGANode (T : Type) where
  id : PosId
  value : T
  deleted : Bool
  parent : Option PosId
deriving DecidableEq

/-- What replicas send one another. -/
inductive RGAOp (T : Type) where
  | insert (id : PosId) (parent : Option PosId) (value : T)
  | delete (id : PosId)
deriving DecidableEq

structure RGA (T : Type) where
  nodeId : UInt32
  seq : UInt64
  nodes : List (RGANode T)

namespace RGA

variable {T : Type}

def new (nodeId : UInt32) : RGA T := ⟨nodeId, 0, []⟩

def findIndex (nodes : List (RGANode T)) (id : PosId) : Option Nat := nodes.findIdx? (·.id = id)

/-- The index of the visible node before which `k` visible ones stand. -/
def visibleToInternal : Nat → List (RGANode T) → Option Nat
  | _, [] => none
  | k, n :: nodes =>
    if n.deleted then (visibleToInternal k nodes).map (· + 1)
    else match k with
      | 0 => some 0
      | k + 1 => (visibleToInternal k nodes).map (· + 1)

/-- How many nodes are passed. After a sibling with a higher id (`skipping`) all nodes are skipped
until the next sibling. -/
def scan (parent : Option PosId) (newId : PosId) : Bool → List (RGANode T) → Nat
  | _, [] => 0
  | skipping, n :: nodes =>
    if n.parent = parent then
      if newId < n.id then scan parent newId true nodes + 1 else 0
    else if skipping then scan parent newId true nodes + 1
    else 0

/-- Where the search begins: after the parent. -/
def searchStart (nodes : List (RGANode T)) : Option PosId → Nat
  | some pid => (findIndex nodes pid).elim 0 (· + 1)
  | none => 0

def findInsertPoint (nodes : List (RGANode T)) (parent : Option PosId) (newId : PosId) : Nat :=
  let start := searchStart nodes parent
  start + scan parent newId false (nodes.drop start)

def place (nodes : List (RGANode T)) (id : PosId) (parent : Option PosId) (value : T) :
    List (RGANode T) :=
  nodes.insertIdx (findInsertPoint nodes parent id) ⟨id, value, false, parent⟩

def markDeleted (nodes : List (RGANode T)) (index : Nat) : List (RGANode T) :=
  nodes.modify index fun n => { n with deleted := true }

/-- The node that stands before the place, if there is any. -/
def parentAt (nodes : List (RGANode T)) : Nat → Option PosId
  | 0 => none
  | k + 1 => (visibleToInternal k nodes).bind fun i => nodes[i]?.map RGANode.id

/-- A build with overflow checks (`checks`) panics when the numbers run out, one without wraps. -/
def insertAt (checks : Bool) (r : RGA T) (visibleIdx : Nat) (value : T) :
    Option (RGAOp T × RGA T) :=
  if checks ∧ r.seq.toNat + 1 = 2 ^ 64 then none
  else
    let id : PosId := ⟨r.nodeId, r.seq + 1⟩
    let parent := parentAt r.nodes visibleIdx
    some (.insert id parent value,
      { r with seq := r.seq + 1, nodes := place r.nodes id parent value })

/-- Nothing happens if there is no such node. -/
def deleteAt (r : RGA T) (visibleIdx : Nat) : Option (RGAOp T × RGA T) := do
  let index ← visibleToInternal visibleIdx r.nodes
  let node ← r.nodes[index]?
  some (.delete node.id, { r with nodes := markDeleted r.nodes index })

def apply (r : RGA T) : RGAOp T → RGA T
  | .insert id parent value =>
    if (findIndex r.nodes id).isSome then r
    else { r with
      nodes := place r.nodes id parent value
      seq := if id.seq > r.seq then id.seq else r.seq }
  | .delete id =>
    match findIndex r.nodes id with
    | some index => { r with nodes := markDeleted r.nodes index }
    | none => r

def toVec (r : RGA T) : List T := (r.nodes.filter fun n => !n.deleted).map RGANode.value

/-! ## Where the search does not go wrong -/

/-- The parent has no child yet, or one with a lower id, or nothing but what is below it comes after
it. -/
def Fits (nodes : List (RGANode T)) (parent : Option PosId) (id : PosId) : Prop :=
  let rest := nodes.drop (searchStart nodes parent)
  (∀ n ∈ rest, n.parent ≠ parent) ∨ (∃ n ∈ rest, n.parent = parent ∧ n.id < id) ∨
    ∀ n ∈ rest, n.parent = parent ∨ ∃ m ∈ rest, n.parent = some m.id

/-- Nodes in document order. -/
abbrev InOrder (path : PosId → List PosId) (nodes : List (RGANode T)) : Prop :=
  Forest RGANode.id RGANode.parent path nodes

/-- The search for a node that is not there yet, from the end of `pre`. -/
structure Search (path : PosId → List PosId) (parent : Option PosId) (id : PosId)
    (pre rest : List (RGANode T)) : Prop where
  inOrder : InOrder path (pre ++ rest)
  known : ∀ i, parent = some i → ∃ m ∈ pre ++ rest, m.id = i
  fresh : ∀ n ∈ pre ++ rest, n.id ≠ id
  before : ∀ n ∈ pre, path n.id = above path parent ∨ Before (path n.id) (above path parent)
  after : ∀ n ∈ rest, Before (above path parent) (path n.id)

/-- All of the first `k` nodes come before the path, and all others after it. -/
def SplitAt (path : PosId → List PosId) (p : List PosId) (nodes : List (RGANode T))
    (k : Nat) : Prop :=
  ∃ left right, nodes = left ++ right ∧ left.length = k ∧
    (∀ n ∈ left, Before (path n.id) p) ∧ ∀ n ∈ right, Before p (path n.id)

section Searches

variable {path : PosId → List PosId} {nodes pre rest done todo : List (RGANode T)}
  {parent : Option PosId} {id : PosId} {n m : RGANode T}

section

variable (h : Search path parent id pre rest)
include h

theorem Search.path_eq (hn : n ∈ rest)
    (hparent : n.parent = parent) :
    path n.id = above path parent ++ [n.id] := by
  rw [h.inOrder.grows n (List.mem_append_right _ hn), hparent]

/-- What is below the parent has a sibling on its way. -/
theorem Search.sibling (hn : n ∈ rest)
    (hbelow : above path parent <+: path n.id) :
    ∃ m ∈ rest, m.parent = parent ∧ (∃ r, path n.id = above path parent ++ m.id :: r) ∧
      (m = n ∨ Before (path m.id) (path n.id)) := by
  obtain ⟨q, hq⟩ := hbelow
  have hafter := h.after n hn
  cases q with
  | nil =>
    rw [← hq, List.append_nil] at hafter
    exact absurd hafter (Before.irrefl _)
  | cons c r =>
    obtain ⟨m, hm, rfl, hparent, hway⟩ :=
      h.inOrder.child (List.mem_append_right _ hn) h.known hq.symm
    refine ⟨m, ?_, hparent, ⟨r, hq.symm⟩, hway⟩
    refine (List.mem_append.mp hm).resolve_left fun hpre => ?_
    have hdown : Before (above path parent) (path m.id) := by
      rw [h.inOrder.grows m hm, hparent]
      exact before_append _ (List.cons_ne_nil _ _)
    rcases h.before m hpre with heq | hbefore
    · exact Before.irrefl _ (heq ▸ hdown)
    · exact hdown.asymm hbefore

theorem Search.lower (hn : n ∈ rest)
    (hparent : n.parent = parent)
    (hid : ¬ id < n.id) : Before (above path parent ++ [id]) (path n.id) := by
  rw [h.path_eq hn hparent]
  have hne := h.fresh n (List.mem_append_right _ hn)
  exact before_sibling _ [] [] (lt_of_le_of_ne (not_lt.mp hid) hne)

theorem Search.outside (hn : n ∈ rest)
    (hnot : ¬ above path parent <+: path n.id) : Before (above path parent ++ [id]) (path n.id) :=
  (h.after n hn).append_left hnot [id]

/-- Once a node comes after the place, all nodes do. -/
theorem Search.stop (hrest : rest = done ++ n :: todo)
    (hn : Before (above path parent ++ [id]) (path n.id)) :
    SplitAt path (above path parent ++ [id]) (n :: todo) 0 := by
  refine ⟨[], n :: todo, rfl, rfl, nofun, fun m hm => ?_⟩
  rcases List.mem_cons.mp hm with rfl | hm
  · exact hn
  · have hsorted := (List.pairwise_append.mp h.inOrder.sorted).2.1
    rw [hrest] at hsorted
    exact hn.trans (List.rel_of_pairwise_cons (List.pairwise_append.mp hsorted).2.1 hm)

end

/-- One more node is passed. -/
theorem SplitAt.pass {p : List PosId} {k : Nat} (h : SplitAt path p todo k)
    (hn : Before (path n.id) p) : SplitAt path p (n :: todo) (k + 1) := by
  obtain ⟨left, right, rfl, rfl, hleft, hright⟩ := h
  exact ⟨n :: left, right, rfl, rfl, List.forall_mem_cons.mpr ⟨hn, hleft⟩, hright⟩

/-- What is still to be searched is below the parent, or comes after a sibling with a lower id. -/
def Ahead (path : PosId → List PosId) (parent : Option PosId) (id : PosId)
    (todo : List (RGANode T)) :
    Prop :=
  ∀ n ∈ todo, above path parent <+: path n.id ∨
    ∃ s ∈ todo, s.parent = parent ∧ s.id < id ∧ Before (path s.id) (path n.id)

/-- Nodes that are skipped come before the place. The induction is on what is still to be searched.
-/
theorem Search.scan_skipping (h : Search path parent id pre rest) (hrest : rest = done ++ todo)
    (hdone : ∀ n ∈ done, Before (path n.id) (above path parent ++ [id]))
    (hahead : Ahead path parent id todo) :
    SplitAt path (above path parent ++ [id]) todo (scan parent id true todo) := by
  induction todo generalizing done with
  | nil => exact ⟨[], [], rfl, rfl, nofun, nofun⟩
  | cons n todo ih =>
    have hn : n ∈ rest := by simp [hrest]
    have hsorted := (List.pairwise_append.mp h.inOrder.sorted).2.1
    rw [hrest] at hsorted
    obtain ⟨-, hsortedTodo, hcross⟩ := List.pairwise_append.mp hsorted
    have hlater : ∀ m ∈ todo, Before (path n.id) (path m.id) := fun m =>
      List.rel_of_pairwise_cons hsortedTodo
    have hpass : Before (path n.id) (above path parent ++ [id]) →
      ¬ (n.parent = parent ∧ n.id < id) →
        SplitAt path (above path parent ++ [id]) (n :: todo) (scan parent id true todo + 1) := by
      intro hbefore hnot
      have hmoved : rest = (done ++ [n]) ++ todo := by
        rw [hrest, List.append_assoc]
        rfl
      refine SplitAt.pass (ih hmoved ?_ ?_) hbefore
      · intro m hm
        rcases List.mem_append.mp hm with hm | hm
        · exact hdone m hm
        · rw [List.mem_singleton.mp hm]
          exact hbefore
      · intro m hm
        refine (hahead m (List.mem_cons_of_mem _ hm)).imp_right ?_
        rintro ⟨s, hs, hsibling, hid, hsm⟩
        rcases List.mem_cons.mp hs with rfl | hs
        · exact absurd ⟨hsibling, hid⟩ hnot
        · exact ⟨s, hs, hsibling, hid, hsm⟩
    simp only [scan, if_true]
    split_ifs with hparent hid
    · refine hpass ?_ fun hlow => hid.asymm hlow.2
      rw [h.path_eq hn hparent]
      exact before_sibling _ [] [] hid
    · exact h.stop hrest (h.lower hn hparent hid)
    · refine hpass ?_ fun hlow => hparent hlow.1
      rcases hahead n List.mem_cons_self with hbelow | ⟨s, hs, hsibling, -, hbefore⟩
      · -- The sibling above it has been passed, so that its id is higher.
        obtain ⟨m, hm, hsibling, ⟨r, hr⟩, rfl | hbefore⟩ := h.sibling hn hbelow
        · exact absurd hsibling hparent
        · have hpassed : m ∈ done := by
            rw [hrest] at hm
            refine (List.mem_append.mp hm).resolve_right fun htodo => ?_
            rcases List.mem_cons.mp htodo with rfl | htodo
            · exact hparent hsibling
            · exact hbefore.asymm (hlater m htodo)
          have hhigher : id < m.id := not_not.mp fun hlow =>
            (hdone m hpassed).asymm (h.lower hm hsibling hlow)
          rw [hr]
          exact before_sibling _ r [] hhigher
      · rcases List.mem_cons.mp hs with rfl | hs
        · exact absurd hsibling hparent
        · exact absurd (hlater s hs) hbefore.asymm

theorem Search.scan (h : Search path parent id pre rest)
    (hfits : (∀ n ∈ rest, n.parent ≠ parent) ∨ Ahead path parent id rest) :
    SplitAt path (above path parent ++ [id]) rest (scan parent id false rest) := by
  cases rest with
  | nil => exact ⟨[], [], rfl, rfl, nofun, nofun⟩
  | cons n todo =>
    have hn : n ∈ n :: todo := List.mem_cons_self
    simp only [RGA.scan, Bool.false_eq_true, if_false]
    split_ifs with hparent hid
    · have hbefore : Before (path n.id) (above path parent ++ [id]) := by
        rw [h.path_eq hn hparent]
        exact before_sibling _ [] [] hid
      have hahead := hfits.resolve_left fun hnone => hnone n hn hparent
      refine (h.scan_skipping (List.singleton_append (x := n)).symm ?_ fun m hm => ?_).pass hbefore
      · intro m hm
        rw [List.mem_singleton.mp hm]
        exact hbefore
      · refine (hahead m (List.mem_cons_of_mem _ hm)).imp_right ?_
        rintro ⟨s, hs, hsibling, hlow, hsm⟩
        rcases List.mem_cons.mp hs with rfl | hs
        · exact absurd hlow hid.asymm
        · exact ⟨s, hs, hsibling, hlow, hsm⟩
    · exact h.stop (List.nil_append _).symm (h.lower hn hparent hid)
    · refine h.stop (List.nil_append _).symm (h.outside hn fun hbelow => ?_)
      -- A sibling above the first node would come before it.
      obtain ⟨m, hm, hsibling, -, rfl | hbefore⟩ := h.sibling hn hbelow
      · exact hparent hsibling
      · rcases List.mem_cons.mp hm with rfl | hm
        · exact hparent hsibling
        · have hsorted := (List.pairwise_append.mp h.inOrder.sorted).2.1
          exact hbefore.asymm (List.rel_of_pairwise_cons hsorted hm)

theorem findIndex_isSome {i : PosId} : (findIndex nodes i).isSome ↔ ∃ m ∈ nodes, m.id = i := by
  simp [findIndex, List.findIdx?_isSome]

theorem findIndex_eq_some {i : PosId} {index : Nat} (h : findIndex nodes i = some index) :
    ∃ left m right, nodes = left ++ m :: right ∧ left.length = index ∧ m.id = i := by
  obtain ⟨hlt, hid, -⟩ := List.findIdx?_eq_some_iff_getElem.mp h
  refine ⟨nodes.take index, nodes[index], nodes.drop (index + 1), ?_, ?_, of_decide_eq_true hid⟩
  · rw [List.getElem_cons_drop, List.take_append_drop]
  · rw [List.length_take, Nat.min_eq_left hlt.le]

/-- The search begins where all that follows comes after the parent. -/
theorem search_start (h : InOrder path nodes)
    (hknown : ∀ i, parent = some i → ∃ m ∈ nodes, m.id = i)
    (hfresh : ∀ n ∈ nodes, n.id ≠ id) :
    ∃ pre, pre.length = searchStart nodes parent ∧ nodes = pre ++
      nodes.drop (searchStart nodes parent) ∧
      Search path parent id pre (nodes.drop (searchStart nodes parent)) := by
  cases parent with
  | none =>
    refine ⟨[], rfl, rfl, h, hknown, hfresh, nofun, fun n hn => ?_⟩
    rw [h.grows n hn]
    exact before_append [] (by simp)
  | some k =>
    obtain ⟨index, hindex⟩ := Option.isSome_iff_exists.mp (findIndex_isSome.mpr (hknown k rfl))
    have hstart : searchStart nodes (some k) = index + 1 :=
      by rw [searchStart, hindex, Option.elim_some]
    obtain ⟨left, m, right, rfl, rfl, rfl⟩ := findIndex_eq_some hindex
    have hdrop : (left ++ m :: right).drop (left.length + 1) = right := by
      rw [List.drop_append, List.drop_eq_nil_of_le (Nat.le_succ _), Nat.add_sub_cancel_left]
      rfl
    rw [hstart, hdrop]
    obtain ⟨-, hsorted, hcross⟩ := List.pairwise_append.mp h.sorted
    have heq : left ++ m :: right = (left ++ [m]) ++ right := by rw [List.append_assoc]; rfl
    refine ⟨left ++ [m], by simp, heq, heq ▸ h, ?_, ?_, fun n hn => ?_, fun n hn => ?_⟩
    · exact heq ▸ hknown
    · exact heq ▸ hfresh
    · rcases List.mem_append.mp hn with hn | hn
      · exact .inr (hcross n hn m List.mem_cons_self)
      · exact .inl (by rw [List.mem_singleton.mp hn]; rfl)
    · exact List.rel_of_pairwise_cons hsorted hn

/-- All that is below the parent, one generation after the other. -/
theorem below_of_descends (h : Search path parent id pre rest)
    (hall : ∀ n ∈ rest, n.parent = parent ∨ ∃ m ∈ rest, n.parent = some m.id) :
    ∀ n ∈ rest, above path parent <+: path n.id := by
  intro n hn
  induction hlen : (path n.id).length using Nat.strong_induction_on generalizing n with
  | _ len ih =>
    have hgrows := h.inOrder.grows n (List.mem_append_right _ hn)
    rcases hall n hn with hparent | ⟨m, hm, hparent⟩
    · rw [hgrows, hparent]
      exact List.prefix_append _ _
    · rw [hparent, above] at hgrows
      have hshort : (path m.id).length < len := by
        rw [← hlen, hgrows, List.length_append]
        exact Nat.lt_succ_self _
      rw [hgrows]
      exact (ih _ hshort m hm rfl).trans (List.prefix_append _ _)

theorem Search.of_fits (h : Search path parent id pre rest)
    (hfits : (∀ n ∈ rest, n.parent ≠ parent) ∨ (∃ n ∈ rest, n.parent = parent ∧ n.id < id) ∨
      ∀ n ∈ rest, n.parent = parent ∨ ∃ m ∈ rest, n.parent = some m.id) :
    (∀ n ∈ rest, n.parent ≠ parent) ∨ Ahead path parent id rest := by
  refine hfits.imp_right ?_
  rintro (⟨s, hs, hsibling, hlow⟩ | hall) n hn
  · by_cases hbelow : above path parent <+: path n.id
    · exact .inl hbelow
    · refine .inr ⟨s, hs, hsibling, hlow, ?_⟩
      rw [h.path_eq hs hsibling]
      exact (h.after n hn).append_left hbelow _
  · exact .inl (below_of_descends h hall n hn)

/-- A node that fits is put where it belongs. -/
theorem findInsertPoint_split (h : InOrder path nodes)
    (hknown : ∀ i, parent = some i → ∃ m ∈ nodes, m.id = i) (hfresh : ∀ n ∈ nodes, n.id ≠ id)
    (hfits : Fits nodes parent id) :
    SplitAt path (above path parent ++ [id]) nodes (findInsertPoint nodes parent id) := by
  obtain ⟨pre, hlen, heq, hsearch⟩ := search_start h hknown hfresh
  obtain ⟨left, right, hrest, hcount, hleft, hright⟩ := hsearch.scan (hsearch.of_fits hfits)
  refine ⟨pre ++ left, right, ?_, ?_, fun n hn => ?_, hright⟩
  · rw [List.append_assoc, ← hrest]
    exact heq
  · rw [List.length_append, hlen, hcount, findInsertPoint]
  · rcases List.mem_append.mp hn with hn | hn
    · have hdown : Before (above path parent) (above path parent ++ [id]) :=
        before_append _ (List.cons_ne_nil _ _)
      rcases hsearch.before n hn with heq | hbefore
      · rwa [heq]
      · exact hbefore.trans hdown
    · exact hleft n hn

theorem insertIdx_length {α : Type} (left right : List α) (a : α) :
    (left ++ right).insertIdx left.length a = left ++ a :: right := by
  induction left with
  | nil => rfl
  | cons b left ih => rw [List.cons_append, List.length_cons, List.insertIdx_succ_cons, ih]; rfl

theorem modify_length {α : Type} (left right : List α) (a : α) (f : α → α) :
    (left ++ a :: right).modify left.length f = left ++ f a :: right := by
  induction left with
  | nil => rfl
  | cons b left ih => rw [List.cons_append, List.length_cons, List.modify_succ_cons, ih]; rfl

theorem place_eq {left right : List (RGANode T)} {value : T} (heq : nodes = left ++ right)
    (hlen : left.length = findInsertPoint nodes parent id) :
    place nodes id parent value = left ++ ⟨id, value, false, parent⟩ :: right := by
  rw [place, ← hlen, heq, insertIdx_length]

theorem inOrder_place {value : T} (h : InOrder path nodes)
    (hway : path id = above path parent ++ [id])
    (hknown : ∀ i, parent = some i → ∃ m ∈ nodes, m.id = i) (hfresh : ∀ n ∈ nodes, n.id ≠ id)
    (hfits : Fits nodes parent id) : InOrder path (place nodes id parent value) := by
  obtain ⟨left, right, heq, hlen, hleft, hright⟩ := findInsertPoint_split h hknown hfresh hfits
  rw [place_eq heq hlen]
  rw [← hway] at hleft hright
  subst heq
  exact h.insert (x := ⟨id, value, false, parent⟩) hway hknown hleft hright

theorem mem_place {value : T} (h : InOrder path nodes)
    (hknown : ∀ i, parent = some i → ∃ m ∈ nodes, m.id = i) (hfresh : ∀ n ∈ nodes, n.id ≠ id)
    (hfits : Fits nodes parent id) :
    n ∈ place nodes id parent value ↔ n = ⟨id, value, false, parent⟩ ∨ n ∈ nodes := by
  obtain ⟨left, right, heq, hlen, -, -⟩ := findInsertPoint_split h hknown hfresh hfits
  rw [place_eq heq hlen, List.perm_middle.mem_iff, List.mem_cons, ← heq]

/-- The tombstone is the node with the id. -/
theorem markDeleted_eq {left right : List (RGANode T)} (h : InOrder path nodes)
    (heq : nodes = left ++ m :: right) : markDeleted nodes left.length =
      nodes.map fun n => if n.id = m.id then { n with deleted := true } else n := by
  have hnodup := h.nodup
  rw [heq, List.map_append, List.map_cons, List.nodup_append] at hnodup
  obtain ⟨-, hright, hcross⟩ := hnodup
  have hsame : ∀ l : List (RGANode T), (∀ n ∈ l, n.id ≠ m.id) →
      (l.map fun n => if n.id = m.id then { n with deleted := true } else n) = l := by
    intro l hl
    refine (List.map_congr_left fun n hn => ?_).trans (List.map_id _)
    exact if_neg (hl n hn)
  rw [heq, List.map_append, List.map_cons, if_pos rfl, hsame left, hsame right, markDeleted,
    modify_length]
  · exact fun n hn heq' => (List.nodup_cons.mp hright).1 (heq' ▸ List.mem_map_of_mem hn)
  · exact fun n hn heq' => hcross _ (List.mem_map_of_mem hn) _ List.mem_cons_self heq'

/-- All siblings of a node with the highest id are lower. -/
theorem fits_of_highest (h : ∀ n ∈ nodes, n.id < id) : Fits nodes parent id := by
  by_cases hnone : ∀ n ∈ nodes.drop (searchStart nodes parent), n.parent ≠ parent
  · exact .inl hnone
  · simp only [not_forall, ne_eq, not_not, exists_prop] at hnone
    obtain ⟨n, hn, hsibling⟩ := hnone
    exact .inr (.inl ⟨n, hn, hsibling, h n (List.mem_of_mem_drop hn)⟩)

theorem visibleToInternal_eq_some {k index : Nat} (h : visibleToInternal k nodes = some index) :
    ∃ left m right, nodes = left ++ m :: right ∧ left.length = index ∧ m.deleted = false := by
  induction nodes generalizing k index with
  | nil => cases h
  | cons n nodes ih =>
    have hlater : ∀ {k}, (visibleToInternal k nodes).map (· + 1) = some index →
        ∃ left m right, n :: nodes = left ++ m :: right ∧ left.length = index ∧
          m.deleted = false := by
      intro k h
      obtain ⟨index, hindex, rfl⟩ := Option.map_eq_some_iff.mp h
      obtain ⟨left, m, right, rfl, rfl, hm⟩ := ih hindex
      exact ⟨n :: left, m, right, rfl, rfl, hm⟩
    unfold visibleToInternal at h
    split at h
    · exact hlater h
    · next hvisible =>
      cases k with
      | zero =>
        cases h
        exact ⟨[], n, nodes, rfl, rfl, Bool.eq_false_iff.mpr hvisible⟩
      | succ k => exact hlater h

/-- A node is put after a node that is there. -/
theorem parentAt_mem {visibleIdx : Nat} {i : PosId} (h : parentAt nodes visibleIdx = some i) :
    ∃ m ∈ nodes, m.id = i := by
  cases visibleIdx with
  | zero => cases h
  | succ k =>
    obtain ⟨index, hindex, h⟩ := Option.bind_eq_some_iff.mp h
    obtain ⟨m, hm, rfl⟩ := Option.map_eq_some_iff.mp h
    exact ⟨m, List.mem_of_getElem? hm, rfl⟩

end Searches

end RGA

end P2P333.Platform333.Crdt
