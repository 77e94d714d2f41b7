import P2P333.Substrate.Ltdd.Verdict

/-!
# Receipts of agreement

The loop that `record_convergence` of `substrate/crates/crdt` and `record_replays` of
`substrate/crates/replay` share: every state is recorded, a state that is not the first one is
recorded as an offender, and agreement is recorded where there is no offender. A receipt has the
names of its three events, and the attributes that they carry.

Results:
1. `foldl_recordState`: what the loop returns and ships, from any point on.
2. `record_spec`: what a receipt ships.
3. `record_exact`: what a store says that it was shipped to.
-/

namespace P2P333.Substrate

variable {ι σ : Type}

/-- `Event::new(cid, name)`, with the attributes in this order. -/
def eventWith (cid name : String) (attrs : List (String × Value)) : Event :=
  attrs.foldl (fun e a => e.withAttr a.1 a.2) (Event.new cid name)

structure Receipt (ι σ : Type) where
  final : String
  diverged : String
  agreed : String
  finalAttrs : ι → σ → List (String × Value)
  divergedAttrs : ι → σ → σ → List (String × Value)
  distinct : [final, diverged, agreed].Nodup

/-- How many are not in this state. -/
def differing [DecidableEq σ] (canonical : σ) (states : List (ι × σ)) : Nat :=
  states.countP fun s => decide (s.2 ≠ canonical)

/-- The first state, or this one where there is none. -/
def canonicalState (fallback : σ) (states : List (ι × σ)) : σ :=
  (states.head?.map Prod.snd).getD fallback

namespace Receipt

variable [DecidableEq σ] (p : Receipt ι σ)

/-- What the loop does with one state. -/
def recordState (cid : String) (canonical : σ) (r : Bool × List (List Event)) (s : ι × σ) :
    Bool × List (List Event) :=
  let shipped := r.2 ++ [[eventWith cid p.final (p.finalAttrs s.1 s.2)]]
  if s.2 = canonical then (r.1, shipped)
  else (false, shipped ++ [[eventWith cid p.diverged (p.divergedAttrs s.1 s.2 canonical)]])

def record (cid : String) (fallback : σ) (agreedAttrs : List (String × Value))
    (states : List (ι × σ)) : Bool × List (List Event) :=
  let r := states.foldl (p.recordState cid (canonicalState fallback states)) (true, [])
  if r.1 then (true, r.2 ++ [[eventWith cid p.agreed agreedAttrs]]) else r

/-- What is shipped about one state. -/
def stateEvents (cid : String) (canonical : σ) (s : ι × σ) : List Event :=
  eventWith cid p.final (p.finalAttrs s.1 s.2) ::
    if s.2 = canonical then []
    else [eventWith cid p.diverged (p.divergedAttrs s.1 s.2 canonical)]

end Receipt

/-! ## What the loop ships -/

@[simp] theorem event_eventWith (cid name : String) (attrs : List (String × Value)) :
    (eventWith cid name attrs).event = name ∧ (eventWith cid name attrs).cid = cid := by
  have h (e : Event) : (attrs.foldl (fun e a => e.withAttr a.1 a.2) e).event = e.event ∧
      (attrs.foldl (fun e a => e.withAttr a.1 a.2) e).cid = e.cid := by
    induction attrs generalizing e with
    | nil => exact ⟨rfl, rfl⟩
    | cons a attrs ih => exact ih (e.withAttr a.1 a.2)
  exact h (Event.new cid name)

section Differing

variable [DecidableEq σ] {canonical : σ} {states : List (ι × σ)}

theorem differing_cons (s : ι × σ) : differing canonical (s :: states) =
    differing canonical states + if s.2 = canonical then 0 else 1 := by
  unfold differing
  rw [List.countP_cons]
  split <;> simp_all

theorem differing_eq_zero : differing canonical states = 0 ↔ ∀ s ∈ states, s.2 = canonical := by
  simp [differing]

/-- The state that the others are compared to is the state of one of them. -/
theorem differing_canonicalState (fallback : σ) :
    differing (canonicalState fallback states) states = 0 ↔
      ∀ s ∈ states, ∀ t ∈ states, s.2 = t.2 := by
  rw [differing_eq_zero]
  cases states with
  | nil =>
    exact ⟨fun _ s hs => absurd hs List.not_mem_nil, fun _ s hs => absurd hs List.not_mem_nil⟩
  | cons s states =>
    show (∀ t ∈ s :: states, t.2 = s.2) ↔ _
    refine ⟨fun h t ht u hu => (h t ht).trans (h u hu).symm, fun h t ht => ?_⟩
    exact h t ht s List.mem_cons_self

end Differing

namespace Receipt

variable [DecidableEq σ] (p : Receipt ι σ) {cid : String} {canonical : σ} {states : List (ι × σ)}

theorem foldl_recordState (cid : String) (canonical : σ) (states : List (ι × σ))
    (r : Bool × List (List Event)) :
    let r' := states.foldl (p.recordState cid canonical) r
    (r'.1 = true ↔ r.1 = true ∧ differing canonical states = 0) ∧
      r'.2.flatten = r.2.flatten ++ states.flatMap (p.stateEvents cid canonical) := by
  induction states generalizing r with
  | nil => simp [differing]
  | cons s states ih =>
    obtain ⟨hok, hshipped⟩ := ih (p.recordState cid canonical r s)
    rw [List.foldl_cons]
    dsimp only
    rw [hok, hshipped, differing_cons, List.flatMap_cons, ← List.append_assoc]
    unfold recordState stateEvents
    split <;> simp

omit [DecidableEq σ] in
theorem names_ne : p.final ≠ p.diverged ∧ p.final ≠ p.agreed ∧ p.diverged ≠ p.agreed := by
  have h := p.distinct
  simp only [List.nodup_cons, List.mem_cons, List.not_mem_nil, or_false, not_or] at h
  exact ⟨h.1.1, h.1.2, h.2.1⟩

theorem countEvent_stateEvents (cid : String) (canonical : σ) (states : List (ι × σ)) :
    let es := states.flatMap (p.stateEvents cid canonical)
    countEvent p.final es = states.length ∧
      countEvent p.diverged es = differing canonical states ∧ countEvent p.agreed es = 0 := by
  obtain ⟨hfd, hfa, hda⟩ := p.names_ne
  induction states with
  | nil => exact ⟨rfl, rfl, rfl⟩
  | cons s states ih =>
    obtain ⟨hfinal, hdiverged, hagreed⟩ := ih
    simp only [List.flatMap_cons, countEvent_append, hfinal, hdiverged, hagreed,
      differing_cons, List.length_cons, stateEvents]
    split <;> simp [hfd, hfa, hda, hfd.symm, Nat.add_comm]

theorem cid_of_mem_stateEvents {e : Event}
    (he : e ∈ states.flatMap (p.stateEvents cid canonical)) : e.cid = cid := by
  obtain ⟨s, -, he⟩ := List.mem_flatMap.mp he
  unfold stateEvents at he
  rcases List.mem_cons.mp he with rfl | he
  · exact (event_eventWith ..).2
  · split at he
    · cases he
    · rw [List.mem_singleton.mp he]
      exact (event_eventWith ..).2

/-- What a receipt returns and ships. -/
theorem record_spec (cid : String) (fallback : σ) (agreedAttrs : List (String × Value))
    (states : List (ι × σ)) :
    let r := p.record cid fallback agreedAttrs states
    (r.1 = true ↔ ∀ s ∈ states, ∀ t ∈ states, s.2 = t.2) ∧
      countEvent p.final r.2.flatten = states.length ∧
      countEvent p.diverged r.2.flatten = differing (canonicalState fallback states) states ∧
      countEvent p.agreed r.2.flatten = (if r.1 then 1 else 0) ∧
      ∀ e ∈ r.2.flatten, e.cid = cid := by
  obtain ⟨hok, hshipped⟩ :=
    p.foldl_recordState cid (canonicalState fallback states) states (true, [])
  obtain ⟨hfinal, hdiverged, hagreed⟩ :=
    p.countEvent_stateEvents cid (canonicalState fallback states) states
  obtain ⟨-, hfa, hda⟩ := p.names_ne
  rw [List.flatten_nil, List.nil_append] at hshipped
  rw [← differing_canonicalState fallback]
  unfold record
  dsimp only
  split
  · next h =>
    rw [List.flatten_append, hshipped]
    simp only [countEvent_append, hfinal, hdiverged, hagreed]
    refine ⟨by simpa [h] using hok, by simp [hfa.symm], by simp [hda.symm], by simp,
      fun e he => ?_⟩
    rcases List.mem_append.mp he with he | he
    · exact p.cid_of_mem_stateEvents he
    · rw [List.mem_singleton.mp he]
      exact (event_eventWith ..).2
  · next h =>
    rw [hshipped, hfinal, hdiverged, hagreed]
    exact ⟨by simpa [h] using hok, rfl, rfl, rfl, fun e he => p.cid_of_mem_stateEvents he⟩

/-- What a store says about a cycle that only this receipt has shipped to it. -/
theorem record_exact (store : MemoryStore) (hfresh : store.query cid = []) (fallback : σ)
    (agreedAttrs : List (String × Value)) (states : List (ι × σ)) :
    let r := p.record cid fallback agreedAttrs states
    let after := store.shipAll r.2
    (r.1 = true ↔ ∀ s ∈ states, ∀ t ∈ states, s.2 = t.2) ∧
      (verifyPresent after cid p.agreed 1 = .present ↔
        store.unreachable = false ∧ store.drop = false ∧ r.1 = true) ∧
      (verifyPresent after cid p.diverged 1 = .absent ↔
        store.unreachable = false ∧ (store.drop = true ∨ r.1 = true)) ∧
      ∀ n, verifyPresent after cid p.diverged n = .present ↔ store.unreachable = false ∧
        n ≤ if store.drop then 0 else differing (canonicalState fallback states) states := by
  obtain ⟨hok, -, hdiverged, hagreed, hcid⟩ := p.record_spec cid fallback agreedAttrs states
  refine ⟨hok, ?_, ?_, fun n => ?_⟩
  · rw [MemoryStore.verifyPresent_one hfresh hcid, hagreed]
    cases (p.record cid fallback agreedAttrs states).1 <;> simp
  · rw [MemoryStore.verifyPresent_zero hfresh hcid, hdiverged, differing_canonicalState, hok]
  · rw [MemoryStore.verifyPresent_shipAll hfresh hcid, hdiverged]
    cases store.unreachable <;> simp

end Receipt

end P2P333.Substrate
