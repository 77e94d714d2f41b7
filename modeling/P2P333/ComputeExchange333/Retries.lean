import P2P333.ComputeExchange333.Consent

/-!
# Retries are invisible

An envelope that was handled has its decision in the inbox, and a copy of it is answered from there.
An envelope without a key, or with a key that stands for another intent, claims no record; it was
turned away and its copies are turned away alike. No copy changes the aggregate or asks for an
effect.

An effect id is a key, a colon and a role without a colon, so it tells the key; each key is decided
at most once, and a decision has at most one effect.

Results:
1. `retries_are_invisible`: copies inserted into a run leave no trace, and what each of them is
   told.
2. `effect_ids`: no effect id occurs twice in a run.
-/

namespace P2P333.ComputeExchange333

open Lib Machine

section Retries

variable [CommandDebug]

namespace ComputeExchange

/-- A copy of the envelope changes nothing. -/
def Settled (x : ComputeExchange) (envelope : CommandEnvelope) : Prop :=
  envelope.idempotencyKey.isEmpty = true ∨ ∃ record, x.inbox[envelope.idempotencyKey]? = some record

/-- The envelope is turned away without a record: its key is empty, or stands for another intent. -/
def TurnsAway (x : ComputeExchange) (envelope : CommandEnvelope) : Prop :=
  envelope.idempotencyKey.isEmpty = true ∨
    ∃ record, x.inbox[envelope.idempotencyKey]? = some record ∧
      record.intent ≠ ⟨envelope.generation, envelope.command⟩

/-- A record stays. -/
theorem getElem?_handle {x : ComputeExchange} {key : IdempotencyKey} {r : InboxRecord}
    (h : x.inbox[key]? = some r) (envelope : CommandEnvelope) :
    (x.handle envelope).2.inbox[key]? = some r := by
  have hcases := handle_cases x envelope
  generalize (x.handle envelope).1 = outcome at hcases
  generalize (x.handle envelope).2 = x' at hcases ⊢
  have hinsert : ∀ outcome, x.inbox[envelope.idempotencyKey]? = none →
      (x.record envelope outcome)[key]? = some r := by
    intro outcome hnew
    have hne : envelope.idempotencyKey ≠ key := by
      rintro rfl
      cases h.symm.trans hnew
    rw [record, OrdMap.getElem?_insert_of_ne _ hne, h]
  cases hcases with
  | decline hkey hnew => exact hinsert _ hnew
  | accept hkey hnew hgeneration hstep => exact hinsert _ hnew
  | _ => exact h

theorem getElem?_after {x : ComputeExchange} {key : IdempotencyKey} {r : InboxRecord}
    (h : x.inbox[key]? = some r) (l : List CommandEnvelope) :
    (after handle x l).inbox[key]? = some r :=
  after_invariant (I := fun y : ComputeExchange => y.inbox[key]? = some r)
    (fun _ envelope hy => getElem?_handle hy envelope) h l

theorem remembers : Remembers handle Settled where
  handled x envelope := by
    have hcases := handle_cases x envelope
    generalize (x.handle envelope).1 = outcome at hcases
    generalize (x.handle envelope).2 = x' at hcases ⊢
    cases hcases with
    | emptyKey hkey => exact .inl hkey
    | conflict hkey hrecord hintent => exact .inr ⟨_, hrecord⟩
    | replay hkey hrecord hintent => exact .inr ⟨_, hrecord⟩
    | decline hkey hnew | accept hkey hnew hgeneration hstep =>
      exact .inr ⟨_, Std.ExtTreeMap.getElem?_insert_self⟩
  kept x envelope other h := by
    rcases h with hkey | ⟨record, hrecord⟩
    · exact .inl hkey
    · exact .inr ⟨record, getElem?_handle hrecord other⟩
  silent x envelope h := by
    rcases h with hkey | ⟨record, hrecord⟩
    · rw [handle, if_pos hkey]
    · unfold handle
      split
      · rfl
      · simp only [hrecord]
        split <;> rfl

/-- What a copy is answered has no effects. -/
theorem effects_of_settled (x : ComputeExchange) (envelope : CommandEnvelope)
    (h : x.Settled envelope) : (x.handle envelope).1.effects = [] := by
  rcases h with hkey | ⟨record, hrecord⟩
  · rw [handle, if_pos hkey]
    rfl
  · unfold handle
    split
    · rfl
    · simp only [hrecord]
      split
      · exact CommandOutcome.effects_replayReceipt _
      · rfl

/-- What an envelope is answered whose key has a record. -/
theorem handle_of_record {x : ComputeExchange} {envelope : CommandEnvelope} {r : InboxRecord}
    (hkey : envelope.idempotencyKey.isEmpty = false)
    (h : x.inbox[envelope.idempotencyKey]? = some r) :
    (x.handle envelope).1 =
      if r.intent = ⟨envelope.generation, envelope.command⟩ then r.outcome.replayReceipt
      else rejected (.idempotencyConflict envelope.idempotencyKey r.fingerprint
        (fingerprint ⟨envelope.generation, envelope.command⟩)) := by
  unfold handle
  simp only [hkey, Bool.false_eq_true, if_false, h]
  split <;> rfl

/-- What a copy is told: the outcome of the first one, marked as replayed, if that one was decided;
and the same refusal, if it was turned away. -/
theorem answer_to_copy (x : ComputeExchange) (envelope : CommandEnvelope)
    (mid : List CommandEnvelope) :
    (¬ x.TurnsAway envelope → ((after handle x (envelope :: mid)).handle envelope).1 =
      (x.handle envelope).1.replayReceipt) ∧
    (x.TurnsAway envelope → ((after handle x (envelope :: mid)).handle envelope).1 =
      (x.handle envelope).1) := by
  have hcases := handle_cases x envelope
  rw [after_cons]
  generalize hout : (x.handle envelope).1 = outcome at hcases ⊢
  generalize (x.handle envelope).2 = x' at hcases ⊢
  cases hcases with
  | emptyKey hkey =>
    refine ⟨fun h => absurd (.inl hkey) h, fun _ => ?_⟩
    rw [handle, if_pos hkey]
  | conflict hkey hrecord hintent =>
    refine ⟨fun h => absurd (.inr ⟨_, hrecord, hintent⟩) h, fun _ => ?_⟩
    rw [handle_of_record hkey (getElem?_after hrecord mid), if_neg hintent]
  | replay hkey hrecord hintent =>
    have hdecided : ¬ x.TurnsAway envelope := by
      rintro (hempty | ⟨r, hr, hne⟩)
      · rw [hkey] at hempty
        cases hempty
      · cases hrecord.symm.trans hr
        exact hne hintent
    refine ⟨fun _ => ?_, fun h => absurd h hdecided⟩
    rw [handle_of_record hkey (getElem?_after hrecord mid), if_pos hintent,
      CommandOutcome.replayReceipt_replayReceipt]
  | decline hkey hnew | accept hkey hnew hgeneration hstep =>
    have hdecided : ¬ x.TurnsAway envelope := by
      rintro (hempty | ⟨r, hr, -⟩)
      · rw [hkey] at hempty
        cases hempty
      · cases hnew.symm.trans hr
    refine ⟨fun _ => ?_, fun h => absurd h hdecided⟩
    rw [handle_of_record hkey (getElem?_after Std.ExtTreeMap.getElem?_insert_self mid)]
    exact if_pos rfl

end ComputeExchange

end Retries

/-! ## Effect ids -/

/-- The roles of the effects. -/
def roles : List String :=
  ["start-sandbox", "stop-sandbox", "stop-sandbox-result-submitted", "post-service-credit"]

/-- What stands before the last occurrence of a letter is told by the whole. -/
theorem append_cons_inj_right {α : Type*} {a : α} {x x' z z' : List α}
    (h : x ++ a :: z = x' ++ a :: z') (hz : a ∉ z) (hz' : a ∉ z') : x = x' ∧ z = z' := by
  rcases List.append_eq_append_iff.mp h with ⟨as, hx, hrest⟩ | ⟨as, hx, hrest⟩
  · cases as with
    | nil =>
      rw [List.nil_append] at hrest
      exact ⟨by simpa using hx.symm, (List.cons.inj hrest).2⟩
    | cons b as =>
      obtain ⟨-, hin⟩ := List.cons.inj hrest
      exact absurd (hin ▸ List.mem_append_right as List.mem_cons_self) hz
  · cases as with
    | nil =>
      rw [List.nil_append] at hrest
      exact ⟨by simpa using hx, (List.cons.inj hrest).2.symm⟩
    | cons b as =>
      obtain ⟨-, hin⟩ := List.cons.inj hrest
      exact absurd (hin ▸ List.mem_append_right as List.mem_cons_self) hz'

/-- An effect id tells its key: the role after the last colon has no colon. -/
theorem effectId_inj {key key' : IdempotencyKey} {role role' : String} (hrole : role ∈ roles)
    (hrole' : role' ∈ roles) (h : effectId key role = effectId key' role') : key = key' := by
  have hcolon : ∀ r ∈ roles, ':' ∉ r.toList := by decide
  have htext := congrArg (fun id : EffectId => id.text.toList) h
  simp only [effectId, String.toList_append, List.append_assoc] at htext
  have hkey := (append_cons_inj_right htext (hcolon role hrole) (hcolon role' hrole')).1
  cases key
  cases key'
  exact congrArg StringId.mk (String.toList_inj.mp hkey)

theorem Step.effect_id {policy : EnginePolicy} {key : IdempotencyKey} {generation : UInt64}
    {s s' : Aggregate} {command : Command} {effects : List Effect}
    (h : Step policy key generation s command effects s') :
    effects = [] ∨ ∃ e role, effects = [e] ∧ role ∈ roles ∧ e.id = effectId key role := by
  cases h with
  | expire | revoke => exact .inr ⟨_, "stop-sandbox", rfl, by decide, rfl⟩
  | start => exact .inr ⟨_, "start-sandbox", rfl, by decide, rfl⟩
  | submit => exact .inr ⟨_, "stop-sandbox-result-submitted", rfl, by decide, rfl⟩
  | prepare => exact .inr ⟨_, "post-service-credit", rfl, by decide, rfl⟩
  | _ => exact .inl rfl

section Main

open ComputeExchange

variable [CommandDebug]

/-- The effect ids of a run are distinct, and their keys have a record. -/
theorem effect_ids (node : NodeId) (policy : EnginePolicy) (l : List CommandEnvelope) :
    (((outputs handle (.new node policy) l).flatMap
      CommandOutcome.effects).map Effect.id).Nodup ∧
    ∀ e ∈ (outputs handle (.new node policy) l).flatMap CommandOutcome.effects,
      ∃ key role r, e.id = effectId key role ∧ role ∈ roles ∧
        (after handle (.new node policy) l).inbox[key]? = some r := by
  induction l using List.reverseRecOn with
  | nil => exact ⟨.nil, fun _ => nofun⟩
  | append_singleton l envelope ih =>
    obtain ⟨hnodup, hkeys⟩ := ih
    rw [outputs_append, List.flatMap_append, List.map_append, after_concat]
    generalize (outputs handle (.new node policy) l).flatMap
      CommandOutcome.effects = effects at hnodup hkeys ⊢
    generalize after handle (.new node policy) l = x at hkeys ⊢
    have hkept : ∀ e ∈ effects, ∃ key role r, e.id = effectId key role ∧ role ∈ roles ∧
        (x.handle envelope).2.inbox[key]? = some r := by
      intro e he
      obtain ⟨key, role, r, hid, hrole, hr⟩ := hkeys e he
      exact ⟨key, role, r, hid, hrole, getElem?_handle hr envelope⟩
    simp only [outputs, List.flatMap_cons, List.flatMap_nil, List.append_nil]
    by_cases hsettled : x.Settled envelope
    · rw [effects_of_settled x envelope hsettled, List.map_nil, List.append_nil,
        List.append_nil]
      exact ⟨hnodup, hkept⟩
    · have hnew : ∀ r, x.inbox[envelope.idempotencyKey]? ≠ some r :=
        fun r hr => hsettled (.inr ⟨r, hr⟩)
      have hrecorded : ∃ r, (x.handle envelope).2.inbox[envelope.idempotencyKey]? = some r :=
        (remembers.handled x envelope).resolve_left fun hkey =>
          hsettled (.inl hkey)
      have hrole : (x.handle envelope).1.effects = [] ∨ ∃ e role,
          (x.handle envelope).1.effects = [e] ∧ role ∈ roles ∧
            e.id = effectId envelope.idempotencyKey role := by
        rcases x.entry_cases envelope with ⟨-, hnil, -⟩ | ⟨entry, -, heffects, -, -, -, hstep⟩
        · exact .inl hnil
        · rw [heffects]
          exact hstep.effect_id
      rcases hrole with hnil | ⟨e, role, hone, hrole, hid⟩
      · rw [hnil, List.map_nil, List.append_nil, List.append_nil]
        exact ⟨hnodup, hkept⟩
      · rw [hone]
        refine ⟨?_, fun e' he' => ?_⟩
        · rw [List.map_singleton, ← List.concat_eq_append, List.nodup_concat]
          refine ⟨fun hin => ?_, hnodup⟩
          obtain ⟨e', he', heq⟩ := List.mem_map.mp hin
          obtain ⟨key, role', r, hid', hrole', hr⟩ := hkeys e' he'
          -- An id that was there before belongs to a key that has a record, and this one has none.
          have hkey := effectId_inj hrole' hrole (hid'.symm.trans (heq.trans hid))
          subst hkey
          exact hnew r hr
        · rcases List.mem_append.mp he' with he' | he'
          · exact hkept e' he'
          · obtain ⟨r, hr⟩ := hrecorded
            rw [List.mem_singleton.mp he']
            exact ⟨envelope.idempotencyKey, role, r, hid, hrole, hr⟩

/-- Retries are invisible. Copies of envelopes that were handled before, inserted anywhere into a
run, change neither the exchange that the run ends in, nor its effects, nor the answers to the other
envelopes. A copy is told the first outcome, marked as replayed and without effects; the copy of an
envelope that was turned away, because its key is empty or stands for another intent, is turned away
with the same reason. And no effect id occurs twice in a run. -/
theorem retries_are_invisible (node : NodeId) (policy : EnginePolicy) :
    (∀ l : List (CommandEnvelope × Bool), Retries [] l →
      after handle (.new node policy) (l.map Prod.fst) =
        after handle (.new node policy) (originals l) ∧
      (outputs handle (.new node policy) (l.map Prod.fst)).flatMap
          CommandOutcome.effects =
        (outputs handle (.new node policy) (originals l)).flatMap
          CommandOutcome.effects ∧
      originalOutputs handle (.new node policy) l =
        outputs handle (.new node policy) (originals l)) ∧
    (∀ done envelope mid x, x = after handle (.new node policy) done →
      ((after handle x (envelope :: mid)).handle envelope).1.effects = [] ∧
      (¬ x.TurnsAway envelope →
        ((after handle x (envelope :: mid)).handle envelope).1 =
          (x.handle envelope).1.replayReceipt) ∧
      (x.TurnsAway envelope →
        ((after handle x (envelope :: mid)).handle envelope).1 =
          (x.handle envelope).1)) ∧
    ∀ l, (((outputs handle (.new node policy) l).flatMap
      CommandOutcome.effects).map Effect.id).Nodup := by
  refine ⟨fun l hl => ?_, fun done envelope mid x hx => ?_, fun l => (effect_ids node policy l).1⟩
  · have hseen : ∀ a ∈ [], (new node policy).Settled a :=
      fun _ h => absurd h List.not_mem_nil
    obtain ⟨hafter, houtputs⟩ := retries_invisible remembers hseen hl
    exact ⟨hafter, retries_flatMap remembers
      effects_of_settled hseen hl, houtputs⟩
  · refine ⟨effects_of_settled _ envelope ?_, x.answer_to_copy envelope mid⟩
    rw [after_cons]
    exact after_invariant
      (fun y other hy => remembers.kept y envelope other hy)
      (remembers.handled x envelope) mid

end Main

namespace Demo

/-- The copy of an envelope without a key is refused like the first one, not marked as replayed. -/
theorem turned_away_again :
    ¬ (∀ done envelope mid x, x = after ComputeExchange.handle
        (.new ⟨"node-1"⟩ .browserAlphaV1) done →
      ((after ComputeExchange.handle x (envelope :: mid)).handle envelope).1 =
        (x.handle envelope).1.replayReceipt) := by
  intro h
  have hempty := h [] (envelope "" (.grantConsent grant)) [] _ rfl
  have hreplayed := congrArg CommandOutcome.replayed hempty
  exact absurd hreplayed (by decide +kernel)

end Demo

end P2P333.ComputeExchange333
