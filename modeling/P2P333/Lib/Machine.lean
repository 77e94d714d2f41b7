import Mathlib

/-!
# Deterministic machines

A machine answers each input and moves on: `step : σ → α → β × σ`. This module has the state after a
list of inputs and the answers to it, the invariant rule, the rule of retries (where the machine
knows the inputs that it has handled, copies of them that come in later leave no trace), and
machines that can fail at an input and then stop for good.
-/

namespace P2P333.Lib.Machine

variable {σ α β : Type*} (step : σ → α → β × σ)

/-- The state after the inputs. -/
def after (s : σ) (l : List α) : σ := l.foldl (fun s a => (step s a).2) s

/-- The answers to the inputs. -/
def outputs : σ → List α → List β
  | _, [] => []
  | s, a :: l => (step s a).1 :: outputs (step s a).2 l

@[simp] theorem after_nil (s : σ) : after step s [] = s := rfl

@[simp] theorem after_cons (s : σ) (a : α) (l : List α) :
    after step s (a :: l) = after step (step s a).2 l := rfl

theorem after_append (s : σ) (l l' : List α) :
    after step s (l ++ l') = after step (after step s l) l' :=
  List.foldl_append

theorem after_concat (s : σ) (l : List α) (a : α) :
    after step s (l ++ [a]) = (step (after step s l) a).2 := after_append ..

theorem outputs_append (s : σ) (l l' : List α) :
    outputs step s (l ++ l') = outputs step s l ++ outputs step (after step s l) l' := by
  induction l generalizing s with
  | nil => rfl
  | cons a l ih => simp only [List.cons_append, outputs, ih, after_cons]

theorem length_outputs (s : σ) (l : List α) : (outputs step s l).length = l.length := by
  induction l generalizing s with
  | nil => rfl
  | cons a l ih => exact congrArg Nat.succ (ih _)

variable {step}

/-- The invariant rule. -/
theorem after_invariant {I : σ → Prop} (hstep : ∀ s a, I s → I (step s a).2) {s : σ} (h : I s)
    (l : List α) : I (after step s l) := by
  induction l generalizing s with
  | nil => exact h
  | cons a l ih => exact ih (hstep s a h)

/-- A property that a step keeps exactly under a condition holds all along a run exactly if each
step of it meets the condition. The steps may use an invariant. -/
theorem invariant_iff {I P : σ → Prop} {Q : σ → α → Prop} (hI : ∀ s a, I s → I (step s a).2)
    (hstep : ∀ s a, I s → P s → (P (step s a).2 ↔ Q s a)) {s : σ} (h : I s) (hP : P s)
    (l : List α) : (∀ done, done <+: l → P (after step s done)) ↔
      ∀ done a, done ++ [a] <+: l → Q (after step s done) a := by
  constructor
  · intro hall done a hdone
    have hbefore := hall done ((List.prefix_append done [a]).trans hdone)
    have hafter := hall (done ++ [a]) hdone
    rw [after_concat] at hafter
    exact (hstep _ a (after_invariant hI h done) hbefore).mp hafter
  · intro hall done
    induction done using List.reverseRecOn with
    | nil => exact fun _ => hP
    | append_singleton done a ih =>
      intro hdone
      have hbefore := ih ((List.prefix_append done [a]).trans hdone)
      rw [after_concat]
      exact (hstep _ a (after_invariant hI h done) hbefore).mpr (hall done a hdone)

/-! ## Retries -/

/-- Every marked input is a copy of one that came before it. -/
def Retries : List α → List (α × Bool) → Prop
  | _, [] => True
  | seen, (a, copy) :: rest => (copy = true → a ∈ seen) ∧ Retries (a :: seen) rest

/-- The inputs that are not marked as copies. -/
def originals (l : List (α × Bool)) : List α := (l.filter fun a => !a.2).map Prod.fst

/-- The answers to the inputs that are not marked as copies. -/
def originalOutputs (step : σ → α → β × σ) (s : σ) (l : List (α × Bool)) : List β :=
  ((outputs step s (l.map Prod.fst)).zip l).filterMap fun o => if o.2.2 then none else some o.1

/-- The machine knows what it has handled: the input changes nothing any more. -/
structure Remembers (step : σ → α → β × σ) (Known : σ → α → Prop) : Prop where
  handled : ∀ s a, Known (step s a).2 a
  kept : ∀ s a b, Known s a → Known (step s b).2 a
  silent : ∀ s a, Known s a → (step s a).2 = s

variable {Known : σ → α → Prop}

theorem Remembers.cons (h : Remembers step Known) {s : σ} {seen : List α}
    (hseen : ∀ a ∈ seen, Known s a) (a : α) : ∀ b ∈ a :: seen, Known (step s a).2 b := by
  intro b hb
  rcases List.mem_cons.mp hb with rfl | hb
  · exact h.handled s b
  · exact h.kept s b a (hseen b hb)

/-- Copies leave no trace: neither in the state nor in the answers to the other inputs. -/
theorem retries_invisible (h : Remembers step Known) {s : σ} {seen : List α}
    (hseen : ∀ a ∈ seen, Known s a) {l : List (α × Bool)} (hl : Retries seen l) :
    after step s (l.map Prod.fst) = after step s (originals l) ∧
      originalOutputs step s l = outputs step s (originals l) := by
  induction l generalizing s seen with
  | nil => exact ⟨rfl, rfl⟩
  | cons x rest ih =>
    obtain ⟨a, copy⟩ := x
    obtain ⟨hcopy, hrest⟩ := hl
    have hih := ih (h.cons hseen a) hrest
    cases copy with
    | true =>
      have hsame : (step s a).2 = s := h.silent s a (hseen a (hcopy rfl))
      rw [hsame] at hih
      simp only [List.map_cons, after_cons, hsame, originals, originalOutputs, outputs,
        List.zip_cons_cons, List.filterMap_cons, if_true, List.filter_cons, Bool.not_true,
        Bool.false_eq_true, if_false]
      exact hih
    | false =>
      simp only [List.map_cons, after_cons, originals, originalOutputs, outputs,
        List.zip_cons_cons, List.filterMap_cons, List.filter_cons, Bool.not_false, if_true,
        Bool.false_eq_true, if_false]
      exact ⟨hih.1, congrArg _ hih.2⟩

/-- What is read off the answers is the same, if the answer to a copy has none of it. -/
theorem retries_flatMap {γ : Type*} (h : Remembers step Known) {f : β → List γ}
    (hf : ∀ s a, Known s a → f (step s a).1 = []) {s : σ} {seen : List α}
    (hseen : ∀ a ∈ seen, Known s a) {l : List (α × Bool)} (hl : Retries seen l) :
    (outputs step s (l.map Prod.fst)).flatMap f = (outputs step s (originals l)).flatMap f := by
  induction l generalizing s seen with
  | nil => rfl
  | cons x rest ih =>
    obtain ⟨a, copy⟩ := x
    obtain ⟨hcopy, hrest⟩ := hl
    have hih := ih (h.cons hseen a) hrest
    cases copy with
    | true =>
      have hknown := hseen a (hcopy rfl)
      rw [h.silent s a hknown] at hih
      simp only [List.map_cons, outputs, List.flatMap_cons, hf s a hknown, h.silent s a hknown,
        List.nil_append, originals, List.filter_cons, Bool.not_true, Bool.false_eq_true, if_false]
      exact hih
    | false =>
      simp only [List.map_cons, outputs, List.flatMap_cons, originals, List.filter_cons,
        Bool.not_false, if_true]
      exact congrArg _ hih

/-! ## Failure -/

section Failure

variable (step : σ → α → Option (β × σ))

/-- A machine that stops for good where `step` fails. -/
def failing : Option σ → α → Option β × Option σ
  | some s, a => ((step s a).map Prod.fst, (step s a).map Prod.snd)
  | none, _ => (none, none)

variable {step}

theorem failing_eq_some {s : Option σ} {a : α} {s' : σ} :
    (failing step s a).2 = some s' ↔ ∃ s₀ b, s = some s₀ ∧ step s₀ a = some (b, s') := by
  cases s with
  | none => exact ⟨nofun, fun ⟨_, _, h, _⟩ => nomatch h⟩
  | some s₀ =>
    rw [failing, Option.map_eq_some_iff]
    constructor
    · rintro ⟨⟨b, s'⟩, h, rfl⟩
      exact ⟨s₀, b, rfl, h⟩
    · rintro ⟨s₀, b, ⟨⟩, h⟩
      exact ⟨(b, s'), h, rfl⟩

/-- A machine that has got through some inputs was in some state before the last one. -/
theorem after_failing_concat {s : Option σ} {l : List α} {a : α} {s' : σ} :
    after (failing step) s (l ++ [a]) = some s' ↔
      ∃ s₀ b, after (failing step) s l = some s₀ ∧ step s₀ a = some (b, s') := by
  rw [after_concat]
  exact failing_eq_some

end Failure

end P2P333.Lib.Machine
