import Mathlib

/-!
# Splitting and trimming

The first occurrence of a part within a list, and the list without its ends.
-/

namespace P2P333.Lib

variable {α : Type*} [DecidableEq α] {needle s a b : List α} {c : α}

/-! ## The first occurrence -/

/-- What stands in front of the first occurrence, and what stands behind it. -/
def splitOnce (needle : List α) : List α → Option (List α × List α)
  | [] => if needle = [] then some ([], []) else none
  | c :: s =>
    if needle.isPrefixOf (c :: s) then some ([], (c :: s).drop needle.length)
    else (splitOnce needle s).map fun r => (c :: r.1, r.2)

/-- Nothing of `needle` starts before position `n`. -/
def FirstAt (needle s : List α) (n : Nat) : Prop := ∀ p q, s = p ++ needle ++ q → n ≤ p.length

theorem splitOnce_eq_some (hne : needle ≠ []) :
    splitOnce needle s = some (b, a) ↔ s = b ++ needle ++ a ∧ FirstAt needle s b.length := by
  induction s generalizing b with
  | nil =>
    rw [splitOnce, if_neg hne]
    refine iff_of_false (by simp) fun h => hne ?_
    exact (List.append_eq_nil_iff.mp (List.append_eq_nil_iff.mp h.1.symm).1).2
  | cons c s ih =>
    rw [splitOnce]
    split
    · next hpre =>
      obtain ⟨q, hq⟩ := List.isPrefixOf_iff_prefix.mp hpre
      rw [← hq, List.drop_left, Option.some.injEq, Prod.mk.injEq]
      constructor
      · rintro ⟨rfl, rfl⟩
        exact ⟨rfl, fun _ _ _ => Nat.zero_le _⟩
      · rintro ⟨heq, hfirst⟩
        obtain rfl : b = [] := List.eq_nil_of_length_eq_zero (Nat.le_zero.mp (hfirst [] q rfl))
        exact ⟨rfl, List.append_cancel_left heq⟩
    · next hpre =>
      rw [Option.map_eq_some_iff]
      constructor
      · rintro ⟨⟨b', a'⟩, h, heq⟩
        cases heq
        obtain ⟨hs, hfirst⟩ := ih.mp h
        refine ⟨by rw [hs]; rfl, fun p q heq => ?_⟩
        cases p with
        | nil => exact absurd (List.isPrefixOf_iff_prefix.mpr ⟨q, heq.symm⟩) hpre
        | cons d p => exact Nat.succ_le_succ (hfirst p q (List.cons.inj heq).2)
      · rintro ⟨heq, hfirst⟩
        cases b with
        | nil => exact absurd (List.isPrefixOf_iff_prefix.mpr ⟨a, heq.symm⟩) hpre
        | cons d b =>
          obtain ⟨rfl, hs⟩ := List.cons.inj heq
          refine ⟨(b, a), ih.mpr ⟨hs, fun p q hpq => ?_⟩, rfl⟩
          exact Nat.succ_le_succ_iff.mp (hfirst (c :: p) q (by rw [hpq]; rfl))

/-- Splitting at a single element. -/
theorem splitOnce_singleton : splitOnce [c] s = some (b, a) ↔ s = b ++ c :: a ∧ c ∉ b := by
  rw [splitOnce_eq_some (List.cons_ne_nil c []), List.append_assoc, List.singleton_append]
  refine and_congr_right fun hs => ⟨fun hfirst hmem => ?_, fun hmem p q heq => ?_⟩
  · obtain ⟨p, q, rfl⟩ := List.append_of_mem hmem
    have hle := hfirst p (q ++ c :: a) (by rw [hs]; simp)
    simp at hle
  · refine Nat.not_lt.mp fun hlt => hmem ?_
    have hget : s[p.length]? = some c := by rw [heq]; simp
    rw [hs, List.getElem?_append_left hlt] at hget
    exact List.mem_of_getElem? hget

theorem splitOnce_of_notMem (h : c ∉ b) (a : List α) : splitOnce [c] (b ++ c :: a) = some (b, a) :=
  splitOnce_singleton.mpr ⟨rfl, h⟩

/-! ## Parts between separators -/

/-- A part holds no separator, and only what the list holds. -/
theorem of_mem_splitOn {part : List α} (h : part ∈ s.splitOn c) : c ∉ part ∧ part.Sublist s := by
  induction s generalizing part with
  | nil =>
    obtain rfl : part = [] := by simpa using h
    exact ⟨List.not_mem_nil, List.Sublist.refl _⟩
  | cons d s ih =>
    rw [List.splitOn_cons_eq_if_modifyHead] at h
    split at h
    · rcases List.mem_cons.mp h with rfl | h
      · exact ⟨List.not_mem_nil, List.nil_sublist _⟩
      · exact ⟨(ih h).1, (ih h).2.cons d⟩
    · next hd =>
      obtain ⟨first, rest, hparts⟩ := List.exists_cons_of_ne_nil (List.splitOn_ne_nil c s)
      rw [hparts, List.modifyHead_cons] at h
      rcases List.mem_cons.mp h with rfl | h
      · obtain ⟨hmem, hsub⟩ := ih (hparts ▸ List.mem_cons_self)
        refine ⟨?_, hsub.cons_cons d⟩
        rw [List.mem_cons, not_or]
        exact ⟨fun heq => hd (beq_iff_eq.mpr heq.symm), hmem⟩
      · obtain ⟨hmem, hsub⟩ := ih (hparts ▸ List.mem_cons_of_mem first h)
        exact ⟨hmem, hsub.cons d⟩

omit [DecidableEq α] in
theorem mem_intercalate {ls : List (List α)} {x : α} (h : x ∈ [c].intercalate ls) :
    x = c ∨ ∃ l ∈ ls, x ∈ l := by
  induction ls with
  | nil => cases h
  | cons l ls ih =>
    cases ls with
    | nil =>
      rw [List.intercalate_singleton] at h
      exact .inr ⟨l, List.mem_cons_self, h⟩
    | cons l' ls =>
      rw [List.intercalate_cons_cons, List.mem_append, List.mem_append, List.mem_singleton] at h
      rcases h with (h | h) | h
      · exact .inr ⟨l, List.mem_cons_self, h⟩
      · exact .inl h
      · refine (ih h).imp_right ?_
        rintro ⟨m, hm, hx⟩
        exact ⟨m, List.mem_cons_of_mem l hm, hx⟩

/-! ## The ends -/

section Trim

variable {α : Type*} {p : α → Bool} {l w w' m : List α} {x y : α}

/-- The list without what satisfies `p` at both ends. -/
def trimBoth (p : α → Bool) (l : List α) : List α := (l.dropWhile p).rdropWhile p

theorem trimBoth_isInfix (p : α → Bool) (l : List α) : trimBoth p l <:+: l :=
  (List.rdropWhile_prefix p _).isInfix.trans (List.dropWhile_suffix p).isInfix

theorem rdropWhile_append_of_pos (hw' : ∀ c ∈ w', p c = true) :
    (l ++ w').rdropWhile p = l.rdropWhile p := by
  have hend : ∀ c ∈ w'.reverse, p c = true := fun c hc => hw' c (List.mem_reverse.mp hc)
  rw [List.rdropWhile, List.reverse_append, List.dropWhile_append_of_pos hend, List.rdropWhile]

theorem trimBoth_append (hw : ∀ c ∈ w, p c = true) (hw' : ∀ c ∈ w', p c = true) :
    trimBoth p (w ++ l ++ w') = trimBoth p l := by
  rw [trimBoth, List.append_assoc, List.dropWhile_append_of_pos hw, List.dropWhile_append]
  split
  · next hnil =>
    rw [List.isEmpty_iff] at hnil
    rw [trimBoth, hnil, List.dropWhile_eq_nil_iff.mpr hw']
  · rw [rdropWhile_append_of_pos hw', trimBoth]

/-- What begins with `x` and ends with `y` is left when the rest goes. -/
theorem trimBoth_between (hw : ∀ c ∈ w, p c = true) (hw' : ∀ c ∈ w', p c = true)
    (hx : p x = false) (hy : p y = false) :
    trimBoth p (w ++ (x :: m ++ [y]) ++ w') = x :: m ++ [y] := by
  rw [trimBoth_append hw hw', trimBoth, List.cons_append,
    List.dropWhile_cons_of_neg (by simp [hx]), ← List.cons_append,
    List.rdropWhile_concat_neg _ _ _ (by simp [hy])]

theorem trimBoth_of_neg (hl : ∀ c ∈ l, p c = false) : trimBoth p l = l := by
  have hstart : l.dropWhile p = l := by
    cases l with
    | nil => rfl
    | cons c l => exact List.dropWhile_cons_of_neg (by simp [hl c List.mem_cons_self])
  rw [trimBoth, hstart, List.rdropWhile_eq_self_iff]
  intro hne
  simp [hl _ (List.getLast_mem hne)]

/-- Only what satisfies `p` goes. -/
theorem exists_trimBoth (p : α → Bool) (l : List α) : ∃ w w', l = w ++ trimBoth p l ++ w' ∧
    (∀ c ∈ w, p c = true) ∧ ∀ c ∈ w', p c = true := by
  refine ⟨l.takeWhile p, (l.dropWhile p).rtakeWhile p, ?_, fun c hc => List.mem_takeWhile_imp hc,
    fun c hc => List.mem_rtakeWhile_imp hc⟩
  rw [trimBoth, List.append_assoc, List.rdropWhile_append_rtakeWhile,
    List.takeWhile_append_dropWhile]

end Trim

end P2P333.Lib
