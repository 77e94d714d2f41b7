import Mathlib

/-!
# Sliding boundaries

A text, a header and a payload in a row. If nothing says where the text ends, the row can be cut in
another place: the longer text holds the header of the shorter one, or ends inside it.
-/

namespace P2P333.Lib

variable {α : Type*} {t h p t' h' p' : List α}

/-- The row `t h p` is cut later, into `t' h' p'`. -/
inductive Slides (t h p t' h' p' : List α) : Prop
  /-- The longer text holds the header and a piece of the payload. -/
  | contained {d : List α} (text : t' = t ++ h ++ d) (rest : p = d ++ h' ++ p')
  /-- The longer text ends inside the header. -/
  | overlapping {d u : List α} (text : t' = t ++ d) (some : d ≠ []) (inside : h = d ++ u)
      (more : u ≠ []) (rest : u ++ p = h' ++ p')

theorem Slides.append_eq (hs : Slides t h p t' h' p') : t ++ (h ++ p) = t' ++ (h' ++ p') := by
  cases hs with
  | contained htext hrest => simp only [htext, hrest, List.append_assoc]
  | overlapping htext _ hinside _ hrest =>
    rw [htext, hinside, List.append_assoc, List.append_assoc, hrest]

theorem Slides.ne (hs : Slides t h p t' h' p') (hh : h ≠ []) : t ≠ t' := by
  have hnil : ∀ d, t' = t ++ d → t = t' → d = [] := by
    rintro d hd rfl
    exact List.self_eq_append_right.mp hd
  intro heq
  cases hs with
  | contained htext =>
    rw [List.append_assoc] at htext
    exact hh (List.append_eq_nil_iff.mp (hnil _ htext heq)).1
  | overlapping htext hd => exact hd (hnil _ htext heq)

/-- Where the text is longer. -/
theorem slides_of_longer {d : List α} (htext : t' = t ++ d) (hd : d ≠ [])
    (heq : h ++ p = d ++ (h' ++ p')) : Slides t h p t' h' p' := by
  rcases List.append_eq_append_iff.mp heq with ⟨c, rfl, hpayload⟩ | ⟨u, hinside, hrest⟩
  · exact .contained (by rw [htext, List.append_assoc]) (by rw [hpayload, List.append_assoc])
  · by_cases hu : u = []
    · subst hu
      rw [List.append_nil] at hinside
      rw [List.nil_append] at hrest
      exact .contained (d := []) (by rw [htext, hinside, List.append_nil]) hrest.symm
    · exact .overlapping htext hd hinside hu hrest.symm

/-- Two cuts of one row are the same, or one of them is later. -/
theorem eq_or_slides (heq : t ++ (h ++ p) = t' ++ (h' ++ p')) :
    (t = t' ∧ h ++ p = h' ++ p') ∨ Slides t h p t' h' p' ∨ Slides t' h' p' t h p := by
  rcases List.append_eq_append_iff.mp heq with ⟨d, htext, hrest⟩ | ⟨d, htext, hrest⟩
  · by_cases hd : d = []
    · subst hd
      rw [List.append_nil] at htext
      exact .inl ⟨htext.symm, hrest⟩
    · exact .inr (.inl (slides_of_longer htext hd hrest))
  · by_cases hd : d = []
    · subst hd
      rw [List.append_nil] at htext
      exact .inl ⟨htext, hrest.symm⟩
    · exact .inr (.inr (slides_of_longer htext hd hrest))

end P2P333.Lib
