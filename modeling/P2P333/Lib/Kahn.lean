import Mathlib

/-!
# Kahn's algorithm

A topological sort of nodes `v` with dependencies `deps v`: nodes without open dependencies are on a
stack; the one on top is taken off, and the nodes that depend on it have one open dependency less.
If every node is taken off once, the nodes come out after their dependencies, so there are no
cycles.
-/

namespace P2P333.Lib.Kahn

open Function

variable {ν : Type*} [DecidableEq ν]

/-- The nodes that depend on `u`, as often as they name it. -/
def dependents (nodes : List ν) (deps : ν → List ν) (u : ν) : List ν :=
  nodes.flatMap fun v => ((deps v).filter (· = u)).map fun _ => v

/-- One dependency of `v` is no longer open. The state has the numbers of open dependencies and the
stack. -/
def visit (s : (ν → Nat) × List ν) (v : ν) : (ν → Nat) × List ν :=
  (update s.1 v (s.1 v - 1), if s.1 v - 1 = 0 then v :: s.2 else s.2)

/-- Take nodes off the stack, at most `fuel` of them. -/
def drain (next : ν → List ν) : Nat → (ν → Nat) × List ν → List ν
  | 0, _ => []
  | _ + 1, (_, []) => []
  | fuel + 1, (opened, u :: stack) =>
    u :: drain next fuel ((next u).foldl visit (opened, stack))

/-- The nodes in the order in which they are taken off the stack. -/
def order (nodes : List ν) (deps : ν → List ν) : List ν :=
  drain (dependents nodes deps) nodes.length
    (fun v => (deps v).length, (nodes.filter fun v => (deps v).length = 0).reverse)

variable {nodes : List ν} {deps : ν → List ν}

theorem count_dependents (hnodes : nodes.Nodup) {v : ν} (hv : v ∈ nodes) (u : ν) :
    (dependents nodes deps u).count v = (deps v).count u := by
  have hzero : ∀ l : List ν, v ∉ l →
      (l.flatMap fun w => ((deps w).filter (· = u)).map fun _ => w).count v = 0 := by
    intro l hl
    refine List.count_eq_zero.mpr fun hmem => hl ?_
    obtain ⟨w, hw, hmem⟩ := List.mem_flatMap.mp hmem
    obtain ⟨x, -, rfl⟩ := List.mem_map.mp hmem
    exact hw
  have hself : (((deps v).filter (· = u)).map fun _ => v).count v = (deps v).count u := by
    rw [List.map_const', List.count_replicate_self, List.count, List.countP_eq_length_filter]
    congr 1
  unfold dependents
  induction nodes with
  | nil => cases hv
  | cons w l ih =>
    obtain ⟨hw, hl⟩ := List.nodup_cons.mp hnodes
    rw [List.flatMap_cons, List.count_append]
    rcases List.mem_cons.mp hv with rfl | hv
    · rw [hself, hzero l hw, Nat.add_zero]
    · have hne : w ≠ v := fun heq => hw (heq ▸ hv)
      have hnone : (((deps w).filter (· = u)).map fun _ => w).count v = 0 :=
        List.count_eq_zero.mpr fun hmem => by
          obtain ⟨x, -, rfl⟩ := List.mem_map.mp hmem
          exact hne rfl
      rw [hnone, Nat.zero_add, ih hl hv]

theorem mem_dependents {u v : ν} (h : v ∈ dependents nodes deps u) : v ∈ nodes := by
  obtain ⟨w, hw, hmem⟩ := List.mem_flatMap.mp h
  obtain ⟨x, -, rfl⟩ := List.mem_map.mp hmem
  exact hw

/-- The state of the algorithm: `taken` are the nodes that came off the stack, and `rest` are the
dependents of the last of them that are still to be visited. -/
structure Inv (nodes : List ν) (deps : ν → List ν) (taken rest : List ν)
    (s : (ν → Nat) × List ν) : Prop where
  within : ∀ v ∈ taken ++ s.2, v ∈ nodes
  nodup : (taken ++ s.2).Nodup
  opened : ∀ v ∈ nodes, s.1 v = ((deps v).filter (· ∉ taken)).length + rest.count v
  ready : ∀ v ∈ taken ++ s.2, s.1 v = 0
  sorted : ∀ before v after, taken = before ++ v :: after → ∀ d ∈ deps v, d ∈ before
  rest : ∀ v ∈ rest, v ∈ nodes

variable {taken rest : List ν} {s : (ν → Nat) × List ν}

theorem Inv.visit {v : ν} (h : Inv nodes deps taken (v :: rest) s) :
    Inv nodes deps taken rest (visit s v) := by
  have hv := h.rest v List.mem_cons_self
  have hopen := h.opened v hv
  rw [List.count_cons_self] at hopen
  have hnew : v ∉ taken ++ s.2 := fun hmem => by
    have hzero := h.ready v hmem
    omega
  have hself : (Kahn.visit s v).1 v = s.1 v - 1 := update_self ..
  have hother : ∀ w, w ≠ v → (Kahn.visit s v).1 w = s.1 w := fun w hwv =>
    update_of_ne hwv ..
  have hcount : ∀ w ∈ nodes, (Kahn.visit s v).1 w =
      ((deps w).filter (· ∉ taken)).length + rest.count w := by
    intro w hw
    by_cases hwv : w = v
    · subst hwv
      omega
    · rw [hother w hwv, h.opened w hw, List.count_cons_of_ne (Ne.symm hwv)]
  have hold : ∀ w ∈ taken ++ s.2, (Kahn.visit s v).1 w = 0 := fun w hw => by
    rw [hother w (ne_of_mem_of_not_mem hw hnew), h.ready w hw]
  by_cases hzero : s.1 v - 1 = 0
  · have hstack : (Kahn.visit s v).2 = v :: s.2 := if_pos hzero
    have hmem : ∀ w, w ∈ taken ++ v :: s.2 ↔ w = v ∨ w ∈ taken ++ s.2 := fun w => by
      rw [List.perm_middle.mem_iff, List.mem_cons]
    refine ⟨fun w hw => ?_, ?_, hcount, fun w hw => ?_, h.sorted,
      fun w hw => h.rest w (List.mem_cons_of_mem _ hw)⟩
    · rw [hstack] at hw
      exact ((hmem w).mp hw).elim (fun heq => heq ▸ hv) (h.within w)
    · rw [hstack]
      exact List.perm_middle.nodup_iff.mpr (List.nodup_cons.mpr ⟨hnew, h.nodup⟩)
    · rw [hstack] at hw
      rcases (hmem w).mp hw with rfl | hw
      · rw [hself, hzero]
      · exact hold w hw
  · have hstack : (Kahn.visit s v).2 = s.2 := if_neg hzero
    refine ⟨fun w hw => ?_, ?_, hcount, fun w hw => ?_, h.sorted,
      fun w hw => h.rest w (List.mem_cons_of_mem _ hw)⟩
    · rw [hstack] at hw
      exact h.within w hw
    · rw [hstack]
      exact h.nodup
    · rw [hstack] at hw
      exact hold w hw

theorem Inv.foldl_visit (h : Inv nodes deps taken rest s) :
    Inv nodes deps taken [] (rest.foldl Kahn.visit s) := by
  induction rest generalizing s with
  | nil => exact h
  | cons v rest ih => exact ih h.visit

theorem length_filter_concat {u : ν} (hu : u ∉ taken) (l : List ν) :
    (l.filter (· ∉ taken)).length = (l.filter (· ∉ taken ++ [u])).length + l.count u := by
  induction l with
  | nil => rfl
  | cons v l ih =>
    by_cases hv : v = u
    · subst hv
      simp [hu] at ih ⊢
      omega
    · by_cases hmem : v ∈ taken
      · simpa [hmem, hv] using ih
      · simp [hmem, hv] at ih ⊢
        omega

/-- The node on top of the stack is taken off: all it depends on has been taken off before. -/
theorem Inv.take (hnodes : nodes.Nodup) {opened : ν → Nat} {u : ν} {stack : List ν}
    (h : Inv nodes deps taken [] (opened, u :: stack)) :
    Inv nodes deps (taken ++ [u]) (dependents nodes deps u) (opened, stack) := by
  have hu : u ∈ taken ++ u :: stack := List.mem_append_right _ List.mem_cons_self
  have hassoc : taken ++ [u] ++ stack = taken ++ u :: stack := by simp
  have hfresh : u ∉ taken := fun hmem =>
    (List.nodup_append.mp h.nodup).2.2 u hmem u List.mem_cons_self rfl
  have hdeps : ∀ d ∈ deps u, d ∈ taken := by
    have hzero := h.ready u hu
    rw [h.opened u (h.within u hu), List.count_nil, Nat.add_zero, List.length_eq_zero_iff,
      List.filter_eq_nil_iff] at hzero
    exact fun d hd => by simpa using hzero d hd
  refine ⟨hassoc ▸ h.within, hassoc ▸ h.nodup, fun v hv => ?_, hassoc ▸ h.ready, ?_,
    fun v hv => mem_dependents hv⟩
  · rw [h.opened v hv, List.count_nil, Nat.add_zero, count_dependents hnodes hv]
    exact length_filter_concat hfresh _
  · intro before v after hsplit d hd
    rcases List.eq_nil_or_concat after with rfl | ⟨after, w, rfl⟩
    · obtain ⟨rfl, ⟨⟩⟩ := List.append_inj' hsplit rfl
      exact hdeps d hd
    · rw [List.concat_eq_append, ← List.cons_append, ← List.append_assoc] at hsplit
      exact h.sorted before v after (List.append_inj' hsplit rfl).1 d hd

/-- What has been taken off and what still will be is sorted. -/
theorem Inv.drain (hnodes : nodes.Nodup) (fuel : Nat) (h : Inv nodes deps taken [] s) :
    ∃ stack opened, Inv nodes deps (taken ++ drain (dependents nodes deps) fuel s) []
      (opened, stack) := by
  induction fuel generalizing taken s with
  | zero => exact ⟨s.2, s.1, by simpa [Kahn.drain] using h⟩
  | succ fuel ih =>
    obtain ⟨opened, stack⟩ := s
    cases stack with
    | nil => exact ⟨[], opened, by simpa [Kahn.drain] using h⟩
    | cons u stack =>
      have hnext := ih (h.take hnodes).foldl_visit
      rwa [List.append_assoc] at hnext

theorem inv_start (hnodes : nodes.Nodup) : Inv nodes deps [] []
    (fun v => (deps v).length, (nodes.filter fun v => (deps v).length = 0).reverse) where
  within v hv := List.mem_of_mem_filter (List.mem_reverse.mp hv)
  nodup := List.nodup_reverse.mpr (hnodes.filter _)
  opened v _ := by simp
  ready v hv := of_decide_eq_true (List.mem_filter.mp (List.mem_reverse.mp hv)).2
  sorted before v after h := by simp at h
  rest := nofun

/-- If all nodes have been taken off, then among any that are left one depends on none of them. -/
theorem exists_ready (hnodes : nodes.Nodup) (hall : (order nodes deps).length = nodes.length)
    {done : ν → Prop} (hleft : ∃ v ∈ nodes, ¬ done v) :
    ∃ v ∈ nodes, ¬ done v ∧ ∀ d ∈ deps v, done d := by
  obtain ⟨stack, opened, h⟩ := (inv_start hnodes : Inv nodes deps [] [] _).drain hnodes nodes.length
  have hsub : order nodes deps ⊆ nodes := fun v hv => h.within v (List.mem_append_left _ hv)
  have hperm : (order nodes deps).Perm nodes :=
    (List.subperm_of_subset (List.nodup_append.mp h.nodup).1 hsub).perm_of_length_le hall.ge
  -- the first one in the order that is not done
  have hfirst : ∀ l : List ν, (∃ v ∈ l, ¬ done v) →
      ∃ before v after, l = before ++ v :: after ∧ ¬ done v ∧ ∀ d ∈ before, done d := by
    intro l
    induction l with
    | nil => rintro ⟨v, hv, -⟩; cases hv
    | cons w l ih =>
      rintro ⟨v, hv, hnot⟩
      by_cases hw : done w
      · have hvl : v ∈ l := (List.mem_cons.mp hv).resolve_left fun heq => hnot (heq ▸ hw)
        obtain ⟨before, v, after, rfl, hnot, hbefore⟩ := ih ⟨v, hvl, hnot⟩
        exact ⟨w :: before, v, after, rfl, hnot, List.forall_mem_cons.mpr ⟨hw, hbefore⟩⟩
      · exact ⟨[], w, l, rfl, hw, nofun⟩
  obtain ⟨v, hv, hnot⟩ := hleft
  obtain ⟨before, v, after, heq, hnot, hbefore⟩ :=
    hfirst (order nodes deps) ⟨v, hperm.mem_iff.mpr hv, hnot⟩
  refine ⟨v, hsub (heq ▸ List.mem_append_right _ List.mem_cons_self), hnot, fun d hd => ?_⟩
  exact hbefore d (h.sorted before v after heq d hd)

/-! ## Cycles -/

/-- Every node without open dependencies has been taken off or is on the stack. -/
def Full (nodes : List ν) (taken : List ν) (s : (ν → Nat) × List ν) : Prop :=
  ∀ v ∈ nodes, s.1 v = 0 → v ∈ taken ++ s.2

theorem Full.visit (h : Full nodes taken s) (v : ν) : Full nodes taken (visit s v) := by
  intro w hw hzero
  by_cases hwv : w = v
  · subst hwv
    have hself : s.1 w - 1 = 0 := (update_self ..).symm.trans hzero
    have hstack : (Kahn.visit s w).2 = w :: s.2 := if_pos hself
    rw [hstack]
    exact List.mem_append_right _ List.mem_cons_self
  · have hold : w ∈ taken ++ s.2 := h w hw ((update_of_ne hwv ..).symm.trans hzero)
    have hgrown : s.2 ⊆ (Kahn.visit s v).2 := by
      rw [Kahn.visit]
      dsimp only
      split_ifs
      · exact List.subset_cons_self v s.2
      · exact List.Subset.refl _
    exact List.mem_append.mpr ((List.mem_append.mp hold).imp_right fun hmem => hgrown hmem)

theorem Full.foldl_visit (h : Full nodes taken s) (rest : List ν) :
    Full nodes taken (rest.foldl Kahn.visit s) := by
  induction rest generalizing s with
  | nil => exact h
  | cons v rest ih => exact ih (h.visit v)

/-- The stack runs empty unless the fuel does. -/
theorem Inv.drain_full (hnodes : nodes.Nodup) (fuel : Nat) (h : Inv nodes deps taken [] s)
    (hfull : Full nodes taken s) : ∃ stack opened,
      Inv nodes deps (taken ++ Kahn.drain (dependents nodes deps) fuel s) [] (opened, stack) ∧
      Full nodes (taken ++ Kahn.drain (dependents nodes deps) fuel s) (opened, stack) ∧
      (stack = [] ∨ (Kahn.drain (dependents nodes deps) fuel s).length = fuel) := by
  induction fuel generalizing taken s with
  | zero =>
    rw [Kahn.drain, List.append_nil]
    exact ⟨s.2, s.1, h, hfull, .inr rfl⟩
  | succ fuel ih =>
    obtain ⟨opened, stack⟩ := s
    cases stack with
    | nil =>
      rw [Kahn.drain, List.append_nil]
      exact ⟨[], opened, h, hfull, .inl rfl⟩
    | cons u stack =>
      have htake : Full nodes (taken ++ [u]) (opened, stack) := fun v hv hzero => by
        rw [List.append_assoc]
        exact hfull v hv hzero
      obtain ⟨stack', opened', hinv', hfull', hend⟩ :=
        ih (h.take hnodes).foldl_visit (htake.foldl_visit (dependents nodes deps u))
      rw [List.append_assoc] at hinv' hfull'
      exact ⟨stack', opened', hinv', hfull', hend.imp_right (congrArg Nat.succ)⟩

omit [DecidableEq ν] in
theorem full_start : Full nodes []
    (fun v => (deps v).length, (nodes.filter fun v => (deps v).length = 0).reverse) :=
    fun _ hv hzero =>
  List.mem_reverse.mpr (List.mem_filter.mpr ⟨hv, decide_eq_true hzero⟩)

/-- If some nodes have not been taken off, each of them depends on another one of them. -/
theorem exists_open (hnodes : nodes.Nodup) (hleft : (order nodes deps).length ≠ nodes.length) :
    (∃ v ∈ nodes, v ∉ order nodes deps) ∧
      ∀ v ∈ nodes, v ∉ order nodes deps → ∃ d ∈ deps v, d ∉ order nodes deps := by
  obtain ⟨stack, opened, h, hfull, hend⟩ :=
    (inv_start hnodes : Inv nodes deps [] [] _).drain_full hnodes nodes.length full_start
  rw [List.nil_append] at h hfull
  obtain rfl : stack = [] := hend.resolve_right hleft
  have htaken : ∀ v ∈ nodes, opened v = 0 → v ∈ order nodes deps := fun v hv hzero =>
    (List.mem_append.mp (hfull v hv hzero)).resolve_right List.not_mem_nil
  have hopened : ∀ v ∈ nodes, opened v = ((deps v).filter (· ∉ order nodes deps)).length :=
    fun v hv => (h.opened v hv).trans (Nat.add_zero _)
  refine ⟨?_, fun v hv hnot => ?_⟩
  · by_contra hall
    push Not at hall
    have hsub : order nodes deps ⊆ nodes := fun v hv => h.within v (List.mem_append_left _ hv)
    have hle := (List.subperm_of_subset (List.nodup_append.mp h.nodup).1 hsub).length_le
    exact hleft (Nat.le_antisymm hle (List.subperm_of_subset hnodes hall).length_le)
  · have hopen : opened v ≠ 0 := fun hzero => hnot (htaken v hv hzero)
    rw [hopened v hv] at hopen
    obtain ⟨d, hd⟩ := List.exists_mem_of_length_pos (Nat.pos_of_ne_zero hopen)
    exact ⟨d, (List.mem_filter.mp hd).1, of_decide_eq_true (List.mem_filter.mp hd).2⟩

/-- `v` is a node that depends on `d`. -/
def Dep (nodes : List ν) (deps : ν → List ν) (v d : ν) : Prop := v ∈ nodes ∧ d ∈ deps v

/-- All nodes are taken off exactly if there are no cycles. -/
theorem length_order_iff (hnodes : nodes.Nodup) (hclosed : ∀ v ∈ nodes, ∀ d ∈ deps v, d ∈ nodes) :
    (order nodes deps).length = nodes.length ↔ ∀ v, ¬ Relation.TransGen (Dep nodes deps) v v := by
  constructor
  · intro hall v hcycle
    obtain ⟨_, ⟨hv, -⟩, -⟩ := Relation.TransGen.head'_iff.mp hcycle
    -- among the nodes that lead to `v`, each one depends on another
    have hfirst : ∃ w ∈ nodes, ¬ ¬ Relation.TransGen (Dep nodes deps) w v ∧
        ∀ d ∈ deps w, ¬ Relation.TransGen (Dep nodes deps) d v :=
      exists_ready hnodes hall ⟨v, hv, not_not_intro hcycle⟩
    obtain ⟨w, -, hw, hdeps⟩ := hfirst
    obtain ⟨d, hd, hrest⟩ := Relation.TransGen.head'_iff.mp (not_not.mp hw)
    rcases Relation.reflTransGen_iff_eq_or_transGen.mp hrest with rfl | hrest
    · exact hdeps _ hd.2 hcycle
    · exact hdeps d hd.2 hrest
  · intro hacyclic
    by_contra hleft
    obtain ⟨⟨v, hv, hnot⟩, hopen⟩ := exists_open hnodes hleft
    let below (d v : {v // v ∈ nodes}) : Prop := Relation.TransGen (Dep nodes deps) v.1 d.1
    have : Finite {v // v ∈ nodes} := (List.finite_toSet nodes).to_subtype
    have : IsTrans _ below := ⟨fun _ _ _ h h' => h'.trans h⟩
    have : Std.Irrefl below := ⟨fun v => hacyclic v.1⟩
    obtain ⟨m, hm, hmin⟩ := (Finite.wellFounded_of_trans_of_irrefl below).has_min
      {v | v.1 ∉ order nodes deps} ⟨⟨v, hv⟩, hnot⟩
    obtain ⟨d, hd, hdnot⟩ := hopen m.1 m.2 hm
    exact hmin ⟨d, hclosed m.1 m.2 d hd⟩ hdnot (.single ⟨m.2, hd⟩)

end P2P333.Lib.Kahn
