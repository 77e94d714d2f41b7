import Mathlib

/-!
# Transition systems

A system is a partial step function `step : σ → α → Option σ`. A run is a sequence of actions
whose steps all succeed and all satisfy a guard `ok : σ → α → Prop` on the state before the step.
This module has the reachable states of such a system, the invariant rule, the projection of a
product system to one of its components, and a checker that turns an executable run into a proof
of reachability.
-/

namespace P2P333.Lib

open Function

variable {σ α ι : Type*}

/-- The states reached from `start` by steps that satisfy `ok`. -/
inductive Reachable (step : σ → α → Option σ) (ok : σ → α → Prop) (start : σ) : σ → Prop
  | refl : Reachable step ok start start
  | tail {s s' : σ} {a : α} :
      Reachable step ok start s → ok s a → step s a = some s' → Reachable step ok start s'

variable {step : σ → α → Option σ} {ok ok' : σ → α → Prop} {start : σ}

/-- The invariant rule. The step case may use that its source state is reachable. -/
theorem Reachable.invariant {I : σ → Prop} (h0 : I start)
    (hstep : ∀ s a s', Reachable step ok start s → I s → ok s a → step s a = some s' → I s')
    {s : σ} (h : Reachable step ok start s) : I s := by
  induction h with
  | refl => exact h0
  | tail hr hok hs ih => exact hstep _ _ _ hr ih hok hs

/-- A weaker guard reaches more states. -/
theorem Reachable.mono (hok : ∀ s a, ok s a → ok' s a) {s : σ} (h : Reachable step ok start s) :
    Reachable step ok' start s := by
  induction h with
  | refl => exact .refl
  | tail _ ha hs ih => exact .tail ih (hok _ _ ha) hs

/-- A run that goes on is a run. -/
theorem Reachable.trans {s t : σ} (h : Reachable step ok start s) (h' : Reachable step ok s t) :
    Reachable step ok start t := by
  induction h' with
  | refl => exact h
  | tail _ ha hs ih => exact .tail ih ha hs

/-- A guard that holds along the run because of an invariant can be added to it. -/
theorem Reachable.strengthen {I : σ → Prop} (hI : ∀ s, Reachable step ok start s → I s)
    (hok : ∀ s a, I s → ok s a → ok' s a) {s : σ} (h : Reachable step ok start s) :
    Reachable step ok' start s := by
  induction h with
  | refl => exact .refl
  | tail hr ha hs ih => exact .tail ih (hok _ _ (hI _ hr) ha) hs

/-! ## Products -/

/-- One component `i` of a product takes the step `a`; the others stay. -/
def componentStep [DecidableEq ι] (step : ι → σ → α → Option σ) (s : ι → σ) (ia : ι × α) :
    Option (ι → σ) :=
  (step ia.1 (s ia.1) ia.2).map (update s ia.1)

theorem componentStep_eq_some [DecidableEq ι] {step : ι → σ → α → Option σ} {s s' : ι → σ}
    {ia : ι × α} :
    componentStep step s ia = some s' ↔
      ∃ x, step ia.1 (s ia.1) ia.2 = some x ∧ s' = update s ia.1 x := by
  unfold componentStep
  rw [Option.map_eq_some_iff]
  exact exists_congr fun _ => and_congr_right fun _ => eq_comm

/-- A run of the product is, seen from one component, a run of that component. -/
theorem Reachable.component [DecidableEq ι] {step : ι → σ → α → Option σ}
    {ok : (ι → σ) → ι × α → Prop} {ok' : ι → σ → α → Prop} {start : ι → σ}
    (hok : ∀ s i a, ok s (i, a) → ok' i (s i) a) {s : ι → σ}
    (h : Reachable (componentStep step) ok start s) (i : ι) :
    Reachable (step i) (ok' i) (start i) (s i) := by
  induction h with
  | refl => exact .refl
  | @tail s s' ia _ ha hs ih =>
    obtain ⟨x, hx, rfl⟩ := componentStep_eq_some.mp hs
    by_cases hi : i = ia.1
    · subst hi
      rw [update_self]
      exact .tail ih (hok _ _ _ ha) hx
    · rw [update_of_ne hi]
      exact ih

/-! ## Executable runs -/

/-- Run a list of actions, checking the guard before each one. -/
def exec (step : σ → α → Option σ) (check : σ → α → Bool) : σ → List α → Option σ
  | s, [] => some s
  | s, a :: rest =>
    if check s a then (step s a).bind fun s' => exec step check s' rest else none

theorem Reachable.of_exec_from {check : σ → α → Bool} (hc : ∀ s a, check s a = true → ok s a) :
    ∀ {l : List α} {s s' : σ}, Reachable step ok start s → exec step check s l = some s' →
      Reachable step ok start s'
  | [], s, s', hs, h => by
    simp only [exec, Option.some.injEq] at h
    exact h ▸ hs
  | a :: rest, s, s', hs, h => by
    simp only [exec] at h
    split at h
    · next ha =>
      obtain ⟨t, ht, hrest⟩ := Option.bind_eq_some_iff.mp h
      exact of_exec_from hc (.tail hs (hc s a ha) ht) hrest
    · cases h

/-- A run of decidable steps that ends in a state with the decidable property `P` gives a reachable
state with it. -/
theorem Reachable.of_exec [∀ s a, Decidable (ok s a)] {P : σ → Prop} [DecidablePred P] (l : List α)
    (h : (exec step (fun s a => decide (ok s a)) start l).map (fun s => decide (P s)) = some true) :
    ∃ s, Reachable step ok start s ∧ P s := by
  obtain ⟨s, hs, hp⟩ := Option.map_eq_some_iff.mp h
  exact ⟨s, of_exec_from (fun _ _ => of_decide_eq_true) .refl hs, of_decide_eq_true hp⟩

/-- The same for a run that is continued: the property may compare the two states. -/
theorem Reachable.of_exec_then [∀ s a, Decidable (ok s a)] {P : σ → σ → Prop}
    [∀ s s', Decidable (P s s')] (l l' : List α)
    (h : ((exec step (fun s a => decide (ok s a)) start l).bind fun s =>
      (exec step (fun s a => decide (ok s a)) s l').map fun s' => decide (P s s')) = some true) :
    ∃ s s', Reachable step ok start s ∧ Reachable step ok s s' ∧ P s s' := by
  obtain ⟨s, hs, h⟩ := Option.bind_eq_some_iff.mp h
  obtain ⟨s', hs', hp⟩ := Option.map_eq_some_iff.mp h
  exact ⟨s, s', of_exec_from (fun _ _ => of_decide_eq_true) .refl hs,
    of_exec_from (fun _ _ => of_decide_eq_true) .refl hs', of_decide_eq_true hp⟩

end P2P333.Lib
