import Mathlib

/-!
# Flooding a graph

An item spreads over the edges of a graph. Some nodes are informed, and an edge may have a debt: an
informed end owes the item to the other end, and something under way will settle that. When every
edge out of an informed node leads to an informed node or has a debt, the nodes that are informed
once no debt is left are all those that a path leads to.

The relation `owes` stands for whatever a protocol has under way for an edge: the item itself, an
announcement of it, a request for it.
-/

namespace P2P333.Lib

variable {ν : Type*} {edge : ν → ν → Prop} {informed informed' : ν → Prop}
    {owes owes' : ν → ν → Prop}

/-- Every edge out of an informed node leads to an informed node, or has a debt. -/
def Flooding (edge : ν → ν → Prop) (informed : ν → Prop) (owes : ν → ν → Prop) : Prop :=
  ∀ u v, edge u v → informed u → informed v ∨ owes u v

/-- One step of a protocol: no node forgets, the debts that go are settled or passed on, and a node
that learns the item takes on the debts of all its edges. -/
theorem Flooding.step (h : Flooding edge informed owes) (hkeep : ∀ u, informed u → informed' u)
    (hdebt : ∀ u v, edge u v → informed u → owes u v → informed' v ∨ owes' u v)
    (hnew : ∀ u v, edge u v → ¬ informed u → informed' u → informed' v ∨ owes' u v) :
    Flooding edge informed' owes' := by
  intro u v huv hu
  by_cases hold : informed u
  · rcases h u v huv hold with hv | howed
    · exact .inl (hkeep v hv)
    · exact hdebt u v huv hold howed
  · exact hnew u v huv hold hu

/-- A step that settles no debt and informs nobody. -/
theorem Flooding.mono (h : Flooding edge informed owes) (hkeep : ∀ u, informed u ↔ informed' u)
    (hdebt : ∀ u v, owes u v → informed' v ∨ owes' u v) : Flooding edge informed' owes' :=
  h.step (fun u hu => (hkeep u).mp hu) (fun u v _ _ howed => hdebt u v howed)
    fun u _ _ hold hu => absurd ((hkeep u).mpr hu) hold

/-- Without debts a path out of an informed node leads to informed nodes only. -/
theorem Flooding.informed_of_path (h : Flooding edge informed owes)
    (hquiet : ∀ u v, edge u v → ¬ owes u v) {u v : ν} (hpath : Relation.ReflTransGen edge u v)
    (hu : informed u) : informed v := by
  induction hpath with
  | refl => exact hu
  | tail _ hedge ih => exact (h _ _ hedge ih).resolve_right (hquiet _ _ hedge)

end P2P333.Lib
