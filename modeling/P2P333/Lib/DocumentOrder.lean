import Mathlib

/-!
# Forests in document order

A forest is a list of nodes, each with a parent or none. The path of a node leads down to it. In
document order a node comes before its descendants, and of two siblings the one with the greater id
comes first, with all that is below it. Paths decide: the order is the lexicographic one, with
greater ids first.

A list in document order is determined by its members. A node can be put in where all before it have
smaller paths and all after it greater ones.
-/

namespace P2P333.Lib.DocumentOrder

variable {κ ν : Type*} [LinearOrder κ]

/-- The path `p` comes before the path `q`. -/
def Before (p q : List κ) : Prop := List.Lex (fun a b => b < a) p q

variable {p q r : List κ} {a b : κ}

theorem Before.irrefl (p : List κ) : ¬ Before p p :=
  List.lex_irrefl (r := fun a b : κ => b < a) (fun _ => lt_irrefl _) p

theorem Before.trans (h : Before p q) (h' : Before q r) : Before p r :=
  List.lex_trans (r := fun a b : κ => b < a) (fun hab hbc => hbc.trans hab) h h'

theorem Before.asymm (h : Before p q) : ¬ Before q p := fun h' => Before.irrefl p (h.trans h')

/-- A node comes before what is below it. -/
theorem before_append (p : List κ) (hq : q ≠ []) : Before p (p ++ q) := by
  induction p with
  | nil =>
    cases q with
    | nil => exact absurd rfl hq
    | cons => exact .nil
  | cons a p ih => exact .cons ih

/-- What comes after a node and is not below it comes after all that is. -/
theorem Before.append_left (h : Before p q) (hnot : ¬ p <+: q) (r : List κ) :
    Before (p ++ r) q := by
  induction h with
  | nil => exact absurd List.nil_prefix hnot
  | rel hlt => exact .rel hlt
  | cons _ ih => exact .cons (ih fun hprefix' => hnot (List.cons_prefix_cons.mpr ⟨rfl, hprefix'⟩))

/-- Siblings, with what is below them: the greater id comes first. -/
theorem before_sibling (p q r : List κ) (h : b < a) : Before (p ++ a :: q) (p ++ b :: r) :=
  List.Lex.append_left (fun a b : κ => b < a) (.rel h) p

/-! ## Forests -/

/-- The path of a parent. -/
def above (path : κ → List κ) : Option κ → List κ
  | none => []
  | some k => path k

variable (ident : ν → κ) (parent : ν → Option κ) (path : κ → List κ)

/-- The nodes are listed in document order, with the parents of all of them. -/
structure Forest (l : List ν) : Prop where
  sorted : l.Pairwise fun n m => Before (path (ident n)) (path (ident m))
  grows : ∀ n ∈ l, path (ident n) = above path (parent n) ++ [ident n]
  closed : ∀ n ∈ l, ∀ k, parent n = some k → ∃ m ∈ l, ident m = k

variable {ident parent path} {l left right : List ν} {n m x : ν} {k : Option κ}

/-- A parent is determined by its path. -/
theorem Forest.above_inj (h : Forest ident parent path l)
    {k k' : Option κ} (hk : ∀ i, k = some i → ∃ m ∈ l, ident m = i)
    (hk' : ∀ i, k' = some i → ∃ m ∈ l, ident m = i)
    (heq : above path k = above path k') : k = k' := by
  have hpath : ∀ i, (∃ m ∈ l, ident m = i) → ∃ q, path i = q ++ [i] := by
    rintro i ⟨m, hm, rfl⟩
    exact ⟨_, h.grows m hm⟩
  cases k with
  | none =>
    cases k' with
    | none => rfl
    | some i =>
      obtain ⟨q, hq⟩ := hpath i (hk' i rfl)
      rw [above, above, hq] at heq
      cases List.append_ne_nil_of_right_ne_nil q (List.cons_ne_nil i []) heq.symm
  | some i =>
    obtain ⟨q, hq⟩ := hpath i (hk i rfl)
    cases k' with
    | none =>
      rw [above, above, hq] at heq
      cases List.append_ne_nil_of_right_ne_nil q (List.cons_ne_nil i []) heq
    | some j =>
      obtain ⟨q', hq'⟩ := hpath j (hk' j rfl)
      rw [above, above, hq, hq'] at heq
      exact congrArg some (List.singleton_inj.mp (List.append_inj' heq rfl).2)

/-- On the way from a parent down to a node is a child of the parent. -/
theorem Forest.child (h : Forest ident parent path l) (hn : n ∈ l)
    (hk : ∀ i, k = some i → ∃ m ∈ l, ident m = i) {c : κ} {rest : List κ}
    (hpath : path (ident n) = above path k ++ c :: rest) :
    ∃ m ∈ l, ident m = c ∧ parent m = k ∧
      (m = n ∨ Before (path (ident m)) (path (ident n))) := by
  induction rest using List.reverseRecOn generalizing n with
  | nil =>
    obtain ⟨habove, hid⟩ := List.append_inj' ((h.grows n hn).symm.trans hpath) rfl
    exact ⟨n, hn, List.singleton_inj.mp hid, h.above_inj (h.closed n hn) hk habove, .inl rfl⟩
  | append_singleton rest i ih =>
    have hgrows := h.grows n hn
    rw [hpath, ← List.cons_append, ← List.append_assoc] at hgrows
    obtain ⟨habove, -⟩ := List.append_inj' hgrows rfl
    cases hparent : parent n with
    | none =>
      rw [hparent] at habove
      cases List.append_ne_nil_of_right_ne_nil _ (List.cons_ne_nil c rest) habove
    | some j =>
      obtain ⟨u, hu, rfl⟩ := h.closed n hn j hparent
      rw [hparent] at habove
      obtain ⟨m, hm, hid, hmk, hbefore⟩ := ih hu habove.symm
      have hup : Before (path (ident u)) (path (ident n)) := by
        rw [h.grows n hn, hparent]
        exact before_append _ (List.cons_ne_nil _ _)
      refine ⟨m, hm, hid, hmk, .inr ?_⟩
      rcases hbefore with rfl | hbefore
      · exact hup
      · exact hbefore.trans hup

theorem Forest.insert (h : Forest ident parent path (left ++ right))
    (hgrows : path (ident x) = above path (parent x) ++ [ident x])
    (hclosed : ∀ i, parent x = some i → ∃ m ∈ left ++ right, ident m = i)
    (hleft : ∀ n ∈ left, Before (path (ident n)) (path (ident x)))
    (hright : ∀ n ∈ right, Before (path (ident x)) (path (ident n))) :
    Forest ident parent path (left ++ x :: right) := by
  obtain ⟨hsorted, hsorted', hcross⟩ := List.pairwise_append.mp h.sorted
  have hmem : ∀ n, n ∈ left ++ x :: right ↔ n = x ∨ n ∈ left ++ right := fun n => by
    rw [List.perm_middle.mem_iff, List.mem_cons]
  have hmore : ∀ i, (∃ m ∈ left ++ right, ident m = i) → ∃ m ∈ left ++ x :: right, ident m = i :=
    fun i ⟨m, hm, hid⟩ => ⟨m, (hmem m).mpr (.inr hm), hid⟩
  refine ⟨List.pairwise_append.mpr ⟨hsorted, List.pairwise_cons.mpr ⟨hright, hsorted'⟩, ?_⟩,
    fun n hn => ?_, fun n hn i hi => ?_⟩
  · intro n hn m hm
    rcases List.mem_cons.mp hm with rfl | hm
    · exact hleft n hn
    · exact hcross n hn m hm
  · rcases (hmem n).mp hn with rfl | hn
    · exact hgrows
    · exact h.grows n hn
  · rcases (hmem n).mp hn with rfl | hn
    · exact hmore i (hclosed i hi)
    · exact hmore i (h.closed n hn i hi)

section

variable (h : Forest ident parent path l)
include h

/-- Nodes may change as long as they keep their ids and parents. -/
theorem Forest.map {f : ν → ν} (hid : ∀ n, ident (f n) = ident n)
    (hparent : ∀ n, parent (f n) = parent n) : Forest ident parent path (l.map f) := by
  refine ⟨List.pairwise_map.mpr (by simpa only [hid] using h.sorted), fun n hn => ?_,
    fun n hn i hi => ?_⟩
  · obtain ⟨m, hm, rfl⟩ := List.mem_map.mp hn
    rw [hid, hparent]
    exact h.grows m hm
  · obtain ⟨m, hm, rfl⟩ := List.mem_map.mp hn
    obtain ⟨u, hu, rfl⟩ := h.closed m hm i ((hparent m).symm.trans hi)
    exact ⟨f u, List.mem_map_of_mem hu, hid u⟩

/-- Only the paths of the nodes matter. -/
theorem Forest.congr {path' : κ → List κ}
    (heq : ∀ n ∈ l, path' (ident n) = path (ident n)) : Forest ident parent path' l := by
  have habove : ∀ n ∈ l, above path' (parent n) = above path (parent n) := by
    intro n hn
    cases hparent : parent n with
    | none => rfl
    | some i =>
      obtain ⟨m, hm, rfl⟩ := h.closed n hn i hparent
      exact heq m hm
  refine ⟨h.sorted.imp_of_mem fun hn hm hbefore => ?_, fun n hn => ?_, h.closed⟩
  · rwa [heq _ hn, heq _ hm]
  · rw [heq n hn, habove n hn]
    exact h.grows n hn

theorem Forest.nodup : (l.map ident).Nodup := by
  refine List.pairwise_map.mpr (h.sorted.imp fun hbefore heq => ?_)
  rw [heq] at hbefore
  exact Before.irrefl _ hbefore

/-- A list in document order is determined by its members. -/
theorem Forest.eq_of_mem_iff {l' : List ν}
    (h' : Forest ident parent path l') (hmem : ∀ n, n ∈ l ↔ n ∈ l') : l = l' := by
  have hperm : l.Perm l' := (List.perm_ext_iff_of_nodup h.nodup.of_map h'.nodup.of_map).mpr hmem
  exact hperm.eq_of_pairwise (fun _ _ _ _ hbefore hafter => absurd hafter hbefore.asymm)
    h.sorted h'.sorted

end

end P2P333.Lib.DocumentOrder
