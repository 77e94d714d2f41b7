import Mathlib

/-!
# Joins of several values

What values are joined into by a commutative, associative and idempotent operation depends neither
on their order nor on how often each of them is there.

Results:
1. `foldl_op_of_mem`: all that are among the joined values end at the same one.
2. `foldl_op_congr`: only which values are joined matters.
-/

namespace P2P333.Lib

open Std

variable {α : Type*}

theorem foldl_op (op : α → α → α) [Associative op] (a b : α) (l : List α) :
    l.foldl op (op a b) = op a (l.foldl op b) := List.foldl_assoc

variable {op : α → α → α} {a b : α} {l l' : List α} [hassoc : Associative op]
  [hcomm : Commutative op] [hidem : IdempotentOp op]

theorem op_foldl_of_mem (a : α) (h : b ∈ l) : op b (l.foldl op a) = l.foldl op a := by
  rw [← foldl_op op]
  induction l generalizing a with
  | nil => exact absurd h List.not_mem_nil
  | cons c l ih =>
    rcases List.mem_cons.mp h with rfl | h
    · have habsorb : op (op b a) b = op a b := by
        rw [hcomm.comm b a, hassoc.assoc, hidem.idempotent]
      rw [List.foldl_cons, List.foldl_cons, habsorb]
    · rw [List.foldl_cons, List.foldl_cons, hassoc.assoc, ih (op a c) h]

/-- All that are among the joined values end at the same one. -/
theorem foldl_op_of_mem (ha : a ∈ l) (hb : b ∈ l) : l.foldl op a = l.foldl op b :=
  calc l.foldl op a = op b (l.foldl op a) := (op_foldl_of_mem a hb).symm
    _ = op a (l.foldl op b) := by rw [← foldl_op op, hcomm.comm, foldl_op op]
    _ = l.foldl op b := op_foldl_of_mem b ha

/-- Values that are joined already change nothing. -/
theorem foldl_op_of_subset (h : l' ⊆ l) : l'.foldl op (l.foldl op a) = l.foldl op a := by
  induction l' with
  | nil => rfl
  | cons c l' ih =>
    obtain ⟨hc, hl'⟩ := List.cons_subset.mp h
    have habsorb : op (l.foldl op a) c = l.foldl op a :=
      (hcomm.comm _ c).trans (op_foldl_of_mem a hc)
    rw [List.foldl_cons, habsorb, ih hl']

omit hidem in
theorem foldl_op_comm (a : α) (l l' : List α) :
    l'.foldl op (l.foldl op a) = l.foldl op (l'.foldl op a) := by
  induction l' generalizing a with
  | nil => rfl
  | cons c l' ih =>
    rw [List.foldl_cons, List.foldl_cons, ← ih (op a c), hcomm.comm _ c, ← foldl_op op,
      hcomm.comm c a]

/-- Only which values are joined matters. -/
theorem foldl_op_congr (a : α) (h : ∀ x, x ∈ l ↔ x ∈ l') : l.foldl op a = l'.foldl op a :=
  calc l.foldl op a = l'.foldl op (l.foldl op a) :=
      (foldl_op_of_subset fun x hx => (h x).mpr hx).symm
    _ = l.foldl op (l'.foldl op a) := foldl_op_comm a l l'
    _ = l'.foldl op a := foldl_op_of_subset fun x hx => (h x).mp hx

end P2P333.Lib
