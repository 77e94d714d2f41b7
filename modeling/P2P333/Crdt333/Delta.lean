import P2P333.Lib.Transition
import P2P333.Crdt333.Counter

/-!
# Deltas

`333-crdt/src/delta.rs`: a value with a buffer of deltas that go to the other peers. A relay is
peers that change their values, stage and drain deltas, absorb deltas that others have drained, in
any order, any number of times or never, and merge whole values.

Results:
1. `Relay.step_bounded`, `bounded`: in every run, what bounds the deltas and the values with
   unstaged changes bounds all values.
2. `relay_converges`: peers that have staged and drained everything and know every delta agree.
3. `counter_exact`: a peer never counts more than was added, and peers that agree count exactly
   that.
-/

namespace P2P333.Crdt333

open Lib Transfer333 Function
open Crdt (merge)

variable {T ι O : Type*} [Crdt T]

/-! ## The order of the merge -/

/-- Merging `a` into `b` changes nothing. -/
def Below (a b : T) : Prop := merge a b = b

section Below

variable [LawfulCrdt T] {a b c : T}

theorem Below.refl (a : T) : Below a a := LawfulCrdt.idem a

theorem Below.trans (hab : Below a b) (hbc : Below b c) : Below a c := by
  have h : merge (merge a b) c = merge a (merge b c) :=
    LawfulCrdt.assoc a b c
  rw [hab, hbc] at h
  exact h.symm

theorem Below.antisymm (hab : Below a b) (hba : Below b a) : a = b := by
  rw [← hba, LawfulCrdt.comm, hab]

theorem below_merge_left (a b : T) : Below a (merge a b) := by
  rw [Below, ← LawfulCrdt.assoc, LawfulCrdt.idem]

theorem below_merge_right (a b : T) : Below b (merge a b) := by
  rw [LawfulCrdt.comm a b]
  exact below_merge_left b a

theorem merge_below (hac : Below a c) (hbc : Below b c) : Below (merge a b) c := by
  rw [Below, LawfulCrdt.assoc, hbc, hac]

end Below

/-! ## The wrapper -/

def mergeDelta (self delta : T) : T := merge self delta

structure DeltaWrap (T : Type*) where
  state : T
  buffer : List T

namespace DeltaWrap

def new (state : T) : DeltaWrap T := ⟨state, []⟩

/-- `state_mut`, with what the caller does to the state. -/
def stateMut (w : DeltaWrap T) (f : T → T) : DeltaWrap T := { w with state := f w.state }

def stage (w : DeltaWrap T) : DeltaWrap T := { w with buffer := w.buffer ++ [w.state] }

def drain (w : DeltaWrap T) : List T × DeltaWrap T := (w.buffer, { w with buffer := [] })

/-- Into the state and into the buffer, for the peers behind this one. -/
def absorb (w : DeltaWrap T) (delta : T) : DeltaWrap T :=
  ⟨mergeDelta w.state delta, w.buffer ++ [delta]⟩

instance instCrdt : Crdt (DeltaWrap T) where
  merge self other := { self with state := merge self.state other.state }

end DeltaWrap

/-! ## Relays -/

/-- A peer, with what it did to its value, whether it has staged since, and the deltas that it
drained or absorbed. -/
structure Peer (T O : Type*) where
  wrap : DeltaWrap T
  updates : List O
  staged : Bool
  known : List T

structure Relay (ι T O : Type*) where
  peer : ι → Peer T O
  /-- All deltas that were drained so far. -/
  sent : List T

namespace Peer

def update (p : Peer T O) (f : T → T) (o : O) : Peer T O :=
  { p with wrap := p.wrap.stateMut f, updates := p.updates ++ [o], staged := false }

def stage (p : Peer T O) : Peer T O := { p with wrap := p.wrap.stage, staged := true }

def drain (p : Peer T O) : Peer T O :=
  { p with wrap := p.wrap.drain.2, known := p.known ++ p.wrap.drain.1 }

def absorb (p : Peer T O) (delta : T) : Peer T O :=
  { p with wrap := p.wrap.absorb delta, known := p.known ++ [delta] }

def mergeWith (p q : Peer T O) : Peer T O := { p with wrap := merge p.wrap q.wrap }

end Peer

namespace Relay

/-- What the replicas do: each has a state and a buffer of deltas. -/
inductive Action (ι T O : Type*)
  | update (i : ι) (o : O)
  | stage (i : ι)
  | drain (i : ι)
  | absorb (i : ι) (delta : T)
  | merge (i j : ι)

def start (initial : T) : Relay ι T O := ⟨fun _ => ⟨.new initial, [], true, []⟩, []⟩

variable [DecidableEq ι]

/-- The peer `i` becomes `p`, and `deltas` go out. -/
def set (s : Relay ι T O) (i : ι) (p : Peer T O) (deltas : List T) : Relay ι T O :=
  ⟨update s.peer i p, s.sent ++ deltas⟩

def step (change : ι → O → T → T) (s : Relay ι T O) : Action ι T O → Option (Relay ι T O)
  | .update i o => some (s.set i ((s.peer i).update (change i o) o) [])
  | .stage i => some (s.set i (s.peer i).stage [])
  | .drain i => some (s.set i (s.peer i).drain (s.peer i).wrap.drain.1)
  | .absorb i delta => some (s.set i ((s.peer i).absorb delta) [])
  | .merge i j => some (s.set i ((s.peer i).mergeWith (s.peer j)) [])

/-- A peer absorbs only what some peer has drained. -/
def Genuine (s : Relay ι T O) : Action ι T O → Prop
  | .absorb _ delta => delta ∈ s.sent
  | _ => True

/-- Nothing is unstaged or undrained, and every peer knows every delta. -/
structure Quiescent (s : Relay ι T O) : Prop where
  staged (i : ι) : (s.peer i).staged = true
  drained (i : ι) : (s.peer i).wrap.buffer = []
  known (i : ι) : s.sent ⊆ (s.peer i).known

/-- `u` is above the initial value, the deltas and the values with unstaged changes. -/
structure Bounds (initial u : T) (s : Relay ι T O) : Prop where
  initial : Below initial u
  sent : ∀ d ∈ s.sent, Below d u
  buffer (i : ι) : ∀ d ∈ (s.peer i).wrap.buffer, Below d u
  unstaged (i : ι) : (s.peer i).staged = false → Below (s.peer i).wrap.state u

/-- What bounds the deltas bounds all values, and a value bounds what its peer started with and what
it knows. -/
structure Bounded (initial : T) (s : Relay ι T O) : Prop where
  state (u : T) : s.Bounds initial u → ∀ i, Below (s.peer i).wrap.state u
  initial (i : ι) : Below initial (s.peer i).wrap.state
  known (i : ι) : ∀ d ∈ (s.peer i).known, Below d (s.peer i).wrap.state
  buffer (i : ι) : ∀ d ∈ (s.peer i).wrap.buffer, Below d (s.peer i).wrap.state

variable {s s' : Relay ι T O} {i : ι} {p : Peer T O} {deltas : List T} {initial u : T}
  {change : ι → O → T → T}

omit [Crdt T] in
@[simp] theorem set_peer_self (s : Relay ι T O) (i : ι) (p : Peer T O) (deltas : List T) :
    (s.set i p deltas).peer i = p := update_self ..

omit [Crdt T] in
theorem set_peer_of_ne {j : ι} (h : j ≠ i) : (s.set i p deltas).peer j = s.peer j :=
  update_of_ne h ..

/-- What is on its way after the step covers what was on its way before it. -/
theorem Bounds.of_set (h : (s.set i p deltas).Bounds initial u)
    (hbuffer : ∀ d ∈ (s.peer i).wrap.buffer, d ∈ p.wrap.buffer ∨ d ∈ deltas)
    (hunstaged : (s.peer i).staged = false → Below (s.peer i).wrap.state u) :
    s.Bounds initial u where
  initial := h.initial
  sent d hd := h.sent d (List.mem_append_left _ hd)
  buffer j d hd := by
    by_cases hj : j = i
    · subst hj
      rcases hbuffer d hd with hd | hd
      · exact h.buffer j d (by rwa [set_peer_self])
      · exact h.sent d (List.mem_append_right _ hd)
    · exact h.buffer j d (by rwa [set_peer_of_ne hj])
  unstaged j hstaged := by
    by_cases hj : j = i
    · exact hj ▸ hunstaged (hj ▸ hstaged)
    · have hpeer : (s.set i p deltas).peer j = s.peer j := set_peer_of_ne hj
      have hbelow := h.unstaged j (by rwa [hpeer])
      rwa [hpeer] at hbelow

variable [LawfulCrdt T]

/-- A peer changes, its value grows, and its new value has the bounds of the relay. -/
theorem Bounded.set (h : s.Bounded initial)
    (hgrow : Below (s.peer i).wrap.state p.wrap.state)
    (hbuffer : ∀ d ∈ p.wrap.buffer, Below d p.wrap.state)
    (hknown : ∀ d ∈ p.known, Below d p.wrap.state)
    (hback : ∀ u, (s.set i p deltas).Bounds initial u →
      s.Bounds initial u ∧ ((∀ j, Below (s.peer j).wrap.state u) → Below p.wrap.state u)) :
    (s.set i p deltas).Bounded initial where
  state u hu j := by
    obtain ⟨hold, hnew⟩ := hback u hu
    have hall := h.state u hold
    by_cases hj : j = i
    · rw [hj, set_peer_self]
      exact hnew hall
    · rw [set_peer_of_ne hj]
      exact hall j
  initial j := by
    by_cases hj : j = i
    · rw [hj, set_peer_self]
      exact (h.initial i).trans hgrow
    · rw [set_peer_of_ne hj]
      exact h.initial j
  known j := by
    by_cases hj : j = i
    · rwa [hj, set_peer_self]
    · rw [set_peer_of_ne hj]
      exact h.known j
  buffer j := by
    by_cases hj : j = i
    · rwa [hj, set_peer_self]
    · rw [set_peer_of_ne hj]
      exact h.buffer j

omit [DecidableEq ι] in
theorem bounded_start (initial : T) : (start initial : Relay ι T O).Bounded initial where
  state _ hu _ := hu.initial
  initial _ := Below.refl initial
  known _ _ hd := absurd hd List.not_mem_nil
  buffer _ _ hd := absurd hd List.not_mem_nil

theorem step_bounded (hchange : ∀ i o t, Below t (change i o t)) {a : Action ι T O}
    (h : s.Bounded initial) (hok : s.Genuine a) (hs : s.step change a = some s') :
    s'.Bounded initial := by
  cases a with
  | update i o =>
    cases hs
    have hgrow := hchange i o (s.peer i).wrap.state
    refine h.set hgrow (fun d hd => (h.buffer i d hd).trans hgrow)
      (fun d hd => (h.known i d hd).trans hgrow) fun u hu => ?_
    -- The new value is unstaged, so `u` is above it, and with it above the old one.
    have hnew : Below (change i o (s.peer i).wrap.state) u := by
      have := hu.unstaged i
      rw [set_peer_self] at this
      exact this rfl
    exact ⟨hu.of_set (fun d hd => .inl hd) fun _ => hgrow.trans hnew, fun _ => hnew⟩
  | stage i =>
    cases hs
    refine h.set (Below.refl _) (fun d hd => ?_) (h.known i) fun u hu => ?_
    · rcases List.mem_append.mp hd with hd | hd
      · exact h.buffer i d hd
      · rw [List.mem_singleton.mp hd]
        exact Below.refl _
    · have hnew : Below (s.peer i).wrap.state u := by
        refine hu.buffer i _ ?_
        rw [set_peer_self]
        exact List.mem_append_right _ (List.mem_singleton.mpr rfl)
      exact ⟨hu.of_set (fun d hd => .inl (List.mem_append_left _ hd)) fun _ => hnew, fun _ => hnew⟩
  | drain i =>
    cases hs
    refine h.set (Below.refl _) (fun d hd => absurd hd List.not_mem_nil) (fun d hd => ?_)
      fun u hu => ?_
    · rcases List.mem_append.mp hd with hd | hd
      · exact h.known i d hd
      · exact h.buffer i d hd
    · refine ⟨hu.of_set (fun d hd => .inr hd) fun hstaged => ?_, fun hall => hall i⟩
      have := hu.unstaged i
      rw [set_peer_self] at this
      exact this hstaged
  | absorb i delta =>
    cases hs
    have hgrow : Below (s.peer i).wrap.state (merge (s.peer i).wrap.state delta) :=
      below_merge_left _ _
    have hdelta : Below delta (merge (s.peer i).wrap.state delta) := below_merge_right _ _
    have hcases {l : List T} (hl : ∀ d ∈ l, Below d (s.peer i).wrap.state) :
        ∀ d ∈ l ++ [delta], Below d (merge (s.peer i).wrap.state delta) := by
      intro d hd
      rcases List.mem_append.mp hd with hd | hd
      · exact (hl d hd).trans hgrow
      · exact List.mem_singleton.mp hd ▸ hdelta
    refine h.set hgrow (hcases (h.buffer i)) (hcases (h.known i)) fun u hu => ?_
    refine ⟨hu.of_set (fun d hd => .inl (List.mem_append_left _ hd)) fun hstaged => ?_,
      fun hall => merge_below (hall i) (hu.sent delta (List.mem_append_left _ hok))⟩
    have := hu.unstaged i
    rw [set_peer_self] at this
    exact hgrow.trans (this hstaged)
  | merge i j =>
    cases hs
    have hgrow : Below (s.peer i).wrap.state (merge (s.peer i).wrap.state (s.peer j).wrap.state) :=
      below_merge_left _ _
    refine h.set hgrow (fun d hd => (h.buffer i d hd).trans hgrow)
      (fun d hd => (h.known i d hd).trans hgrow) fun u hu => ?_
    refine ⟨hu.of_set (fun d hd => .inl hd) fun hstaged => ?_,
      fun hall => merge_below (hall i) (hall j)⟩
    have := hu.unstaged i
    rw [set_peer_self] at this
    exact hgrow.trans (this hstaged)

theorem bounded (hchange : ∀ i o t, Below t (change i o t))
    (hs : Reachable (step change) Genuine (start initial : Relay ι T O) s) : s.Bounded initial :=
  hs.invariant (bounded_start initial) fun _ _ _ _ h hok hs => step_bounded hchange h hok hs

omit [DecidableEq ι] in
/-- A value that knows everything bounds everything. -/
theorem Bounded.agree (h : s.Bounded initial) (hq : s.Quiescent) (i j : ι) :
    (s.peer i).wrap.state = (s.peer j).wrap.state := by
  have hbounds (k : ι) : s.Bounds initial (s.peer k).wrap.state := by
    refine ⟨h.initial k, fun d hd => h.known k d (hq.known k hd), fun l d hd => ?_,
      fun l hstaged => ?_⟩
    · exact absurd (hq.drained l ▸ hd) List.not_mem_nil
    · exact absurd (hq.staged l) (by rw [hstaged]; decide)
  exact (h.state _ (hbounds j) i).antisymm (h.state _ (hbounds i) j)

/-- Peers that have staged and drained everything and know every delta agree on a value that is
above the initial value and every delta, and below whatever else is. -/
theorem relay_converges (hchange : ∀ i o t, Below t (change i o t))
    (hs : Reachable (step change) Genuine (start initial : Relay ι T O) s) (hq : s.Quiescent)
    (i : ι) : (∀ j, (s.peer j).wrap.state = (s.peer i).wrap.state) ∧
      Below initial (s.peer i).wrap.state ∧ (∀ d ∈ s.sent, Below d (s.peer i).wrap.state) ∧
      ∀ u, Below initial u → (∀ d ∈ s.sent, Below d u) → Below (s.peer i).wrap.state u := by
  have h := bounded hchange hs
  refine ⟨fun j => h.agree hq j i, h.initial i, fun d hd => h.known i d (hq.known i hd),
    fun u hu hsent => ?_⟩
  refine h.state u ⟨hu, hsent, fun j d hd => ?_, fun j hstaged => ?_⟩ i
  · exact absurd (hq.drained j ▸ hd) List.not_mem_nil
  · exact absurd (hq.staged j) (by rw [hstaged]; decide)

end Relay

/-! ## Counters -/

/-- The two counters of a PN-counter. -/
inductive Side
  | p
  | n
deriving DecidableEq

/-- An amount that a peer adds on one side. -/
structure CounterUpdate where
  side : Side
  delta : U64
deriving DecidableEq

def CounterUpdate.amount (side : Side) (u : CounterUpdate) : Nat :=
  if u.side = side then u.delta.toNat else 0

/-- What the updates add on one side. -/
def added (side : Side) (updates : List CounterUpdate) : Nat :=
  (updates.map (CounterUpdate.amount side)).sum

namespace PNCounter

def part (c : PNCounter) : Side → OrdMap ReplicaId U64
  | .p => c.p
  | .n => c.n

/-- The number of the replica on one side. -/
def tally (c : PNCounter) (side : Side) (r : ReplicaId) : Nat := (c.part side).count r

/-- A peer changes its own number. -/
def change (name : ι → ReplicaId) (i : ι) (u : CounterUpdate) (c : PNCounter) : PNCounter :=
  match u.side with
  | .p => c.increment (name i) u.delta
  | .n => c.decrement (name i) u.delta

theorem below_change (name : ι → ReplicaId) (i : ι) (u : CounterUpdate) (c : PNCounter) :
    Below c (c.change name i u) := by
  obtain ⟨side, delta⟩ := u
  cases side with
  | p =>
    show PNCounter.mk (c.p.mergeMax (bump c.p (name i) delta)) (c.n.mergeMax c.n) = _
    rw [mergeMax_bump, OrdMap.mergeMax_self]
    rfl
  | n =>
    show PNCounter.mk (c.p.mergeMax c.p) (c.n.mergeMax (bump c.n (name i) delta)) = _
    rw [mergeMax_bump, OrdMap.mergeMax_self]
    rfl

theorem tally_merge (c d : PNCounter) (side : Side) (r : ReplicaId) :
    (merge c d).tally side r = max (c.tally side r) (d.tally side r) := by
  cases side <;> exact OrdMap.count_mergeMax ..

theorem tally_change_self (name : ι → ReplicaId) (i : ι) (u : CounterUpdate) (c : PNCounter)
    (side : Side) : (c.change name i u).tally side (name i) =
      min cap (c.tally side (name i) + u.amount side) := by
  obtain ⟨side', delta⟩ := u
  have hkeep : ∀ m : OrdMap ReplicaId U64, m.count (name i) = min cap (m.count (name i) + 0) :=
    fun m => (Nat.min_eq_right (count_le_cap m (name i))).symm
  cases side <;> cases side'
  · exact count_bump_self ..
  · exact hkeep c.p
  · exact hkeep c.n
  · exact count_bump_self ..

theorem tally_change_of_ne {name : ι → ReplicaId} {i : ι} {r : ReplicaId} (h : name i ≠ r)
    (u : CounterUpdate) (c : PNCounter) (side : Side) :
    (c.change name i u).tally side r = c.tally side r := by
  obtain ⟨side', delta⟩ := u
  cases side <;> cases side'
  · exact count_bump_of_ne _ h _
  · rfl
  · rfl
  · exact count_bump_of_ne _ h _

end PNCounter

theorem min_add_min_cap (a b : Nat) : min cap (a + b) = min cap (min cap a + b) := by omega

theorem added_concat (side : Side) (l : List CounterUpdate) (u : CounterUpdate) :
    added side (l ++ [u]) = added side l + u.amount side := by
  rw [added, List.map_append, List.sum_append, List.map_singleton, List.sum_singleton]
  rfl

/-- Peers that count, each under its own name. -/
abbrev CounterRelay (ι : Type*) : Type _ := Relay ι PNCounter CounterUpdate

namespace CounterRelay

variable [DecidableEq ι] {name : ι → ReplicaId} {s s' : CounterRelay ι} {i : ι}

/-- The most that the peer `j` can have counted. -/
def total (s : CounterRelay ι) (side : Side) (j : ι) : Nat :=
  min cap (added side (s.peer j).updates)

/-- Every number in the counter is that of a peer, and no larger than what the peer added. -/
def Within (name : ι → ReplicaId) (s : CounterRelay ι) (c : PNCounter) : Prop :=
  ∀ side r, c.tally side r = 0 ∨ ∃ j, name j = r ∧ c.tally side r ≤ s.total side j

/-- Nothing counts too much, and every peer counts all that it added itself. -/
structure Counted (name : ι → ReplicaId) (s : CounterRelay ι) : Prop where
  state (i : ι) : s.Within name (s.peer i).wrap.state
  buffer (i : ι) : ∀ d ∈ (s.peer i).wrap.buffer, s.Within name d
  sent : ∀ d ∈ s.sent, s.Within name d
  own (side : Side) (i : ι) : (s.peer i).wrap.state.tally side (name i) = s.total side i

section

omit [DecidableEq ι]

theorem Within.merge {c d : PNCounter} (hc : s.Within name c) (hd : s.Within name d) :
    s.Within name (merge c d) := by
  intro side r
  rw [PNCounter.tally_merge]
  rcases max_cases (c.tally side r) (d.tally side r) with ⟨hmax, -⟩ | ⟨hmax, -⟩
  · rw [hmax]
    exact hc side r
  · rw [hmax]
    exact hd side r

/-- Whatever is within bounds adds nothing to a peer's own number. -/
theorem Within.own_merge (hname : Injective name) {d : PNCounter} (hd : s.Within name d)
    {side : Side} (h : (s.peer i).wrap.state.tally side (name i) = s.total side i) :
    (Crdt.merge (s.peer i).wrap.state d).tally side (name i) = s.total side i := by
  rw [PNCounter.tally_merge, h, Nat.max_eq_left]
  rcases hd side (name i) with hzero | ⟨j, hj, hle⟩
  · rw [hzero]
    exact Nat.zero_le _
  · exact hname hj ▸ hle

theorem counted_start (name : ι → ReplicaId) : Counted name (Relay.start .new) := by
  have hnone : Within name (Relay.start .new : CounterRelay ι) .new :=
    fun side r => .inl (by cases side <;> rfl)
  refine ⟨fun _ => hnone, fun _ _ hd => absurd hd List.not_mem_nil,
    fun _ hd => absurd hd List.not_mem_nil, fun side i => ?_⟩
  cases side <;> rfl

end

/-- A peer changes, but its updates stay: everything else is as it was. -/
theorem Counted.set {p : Peer PNCounter CounterUpdate} {deltas : List PNCounter}
    (h : s.Counted name) (hupdates : p.updates = (s.peer i).updates)
    (hstate : s.Within name p.wrap.state) (hbuffer : ∀ d ∈ p.wrap.buffer, s.Within name d)
    (hdeltas : ∀ d ∈ deltas, s.Within name d)
    (hown : ∀ side, p.wrap.state.tally side (name i) = s.total side i) :
    Counted name (s.set i p deltas) := by
  have htotal (side : Side) (j : ι) : total (s.set i p deltas) side j = s.total side j := by
    by_cases hj : j = i
    · rw [total, hj, Relay.set_peer_self, hupdates, total]
    · rw [total, Relay.set_peer_of_ne hj, total]
  have hwithin {c : PNCounter} (hc : s.Within name c) : Within name (s.set i p deltas) c := by
    intro side r
    rcases hc side r with hzero | ⟨j, hj, hle⟩
    · exact .inl hzero
    · exact .inr ⟨j, hj, by rwa [htotal]⟩
  refine ⟨fun j => hwithin ?_, fun j d hd => hwithin ?_, fun d hd => hwithin ?_, fun side j => ?_⟩
  · by_cases hj : j = i
    · rwa [hj, Relay.set_peer_self]
    · rw [Relay.set_peer_of_ne hj]
      exact h.state j
  · by_cases hj : j = i
    · rw [hj, Relay.set_peer_self] at hd
      exact hbuffer d hd
    · rw [Relay.set_peer_of_ne hj] at hd
      exact h.buffer j d hd
  · rcases List.mem_append.mp hd with hd | hd
    · exact h.sent d hd
    · exact hdeltas d hd
  · rw [htotal]
    by_cases hj : j = i
    · rw [hj, Relay.set_peer_self]
      exact hown side
    · rw [Relay.set_peer_of_ne hj]
      exact h.own side j

/-- A peer adds to its own number. -/
theorem Counted.update (h : s.Counted name) (i : ι) (u : CounterUpdate) :
    Counted name (s.set i ((s.peer i).update (PNCounter.change name i u) u) []) := by
  generalize hs : s.set i ((s.peer i).update (PNCounter.change name i u) u) [] = s'
  have hpeer : s'.peer i = (s.peer i).update (PNCounter.change name i u) u := by
    rw [← hs, Relay.set_peer_self]
  have hother {j : ι} (hj : j ≠ i) : s'.peer j = s.peer j := by
    rw [← hs, Relay.set_peer_of_ne hj]
  -- The own total grows, and no other one changes.
  have hgrow (side : Side) : total s' side i = min cap (s.total side i + u.amount side) := by
    rw [total, hpeer]
    show min cap (added side ((s.peer i).updates ++ [u])) = _
    rw [added_concat, total, min_add_min_cap]
  have htotal (side : Side) (j : ι) : s.total side j ≤ total s' side j := by
    by_cases hj : j = i
    · subst hj
      rw [hgrow]
      exact Nat.le_min.mpr ⟨Nat.min_le_left _ _, Nat.le_add_right _ _⟩
    · rw [total, total, hother hj]
  have hwithin {c : PNCounter} (hc : s.Within name c) : Within name s' c := by
    intro side r
    rcases hc side r with hzero | ⟨j, hj, hle⟩
    · exact .inl hzero
    · exact .inr ⟨j, hj, hle.trans (htotal side j)⟩
  have hown (side : Side) :
      (s'.peer i).wrap.state.tally side (name i) = total s' side i := by
    rw [hpeer, hgrow, ← h.own side i]
    exact PNCounter.tally_change_self ..
  refine ⟨fun j => ?_, fun j d hd => ?_, fun d hd => ?_, fun side j => ?_⟩
  · by_cases hj : j = i
    · subst hj
      intro side r
      by_cases hr : name j = r
      · subst hr
        exact .inr ⟨j, rfl, (hown side).le⟩
      · rw [hpeer]
        show (PNCounter.change name j u _).tally side r = 0 ∨ ∃ k, name k = r ∧
          (PNCounter.change name j u _).tally side r ≤ _
        rw [PNCounter.tally_change_of_ne hr]
        exact hwithin (h.state j) side r
    · rw [hother hj]
      exact hwithin (h.state j)
  · by_cases hj : j = i
    · rw [hj, hpeer] at hd
      exact hwithin (h.buffer i d hd)
    · rw [hother hj] at hd
      exact hwithin (h.buffer j d hd)
  · rw [← hs] at hd
    exact hwithin (h.sent d ((List.mem_append.mp hd).resolve_right List.not_mem_nil))
  · by_cases hj : j = i
    · exact hj ▸ hown side
    · rw [hother hj, total, hother hj]
      exact h.own side j

theorem step_counted (hname : Injective name) {a : Relay.Action ι PNCounter CounterUpdate}
    (h : s.Counted name) (hok : Relay.Genuine s a)
    (hs : Relay.step (PNCounter.change name) s a = some s') : Counted name s' := by
  cases a with
  | update i u =>
    cases hs
    exact h.update i u
  | stage i =>
    cases hs
    refine h.set rfl (h.state i) (fun d hd => ?_) (fun _ hd => absurd hd List.not_mem_nil)
      fun side => h.own side i
    rcases List.mem_append.mp hd with hd | hd
    · exact h.buffer i d hd
    · exact List.mem_singleton.mp hd ▸ h.state i
  | drain i =>
    cases hs
    exact h.set rfl (h.state i) (fun _ hd => absurd hd List.not_mem_nil) (h.buffer i)
      fun side => h.own side i
  | absorb i delta =>
    cases hs
    have hdelta := h.sent delta hok
    refine h.set rfl ((h.state i).merge hdelta) (fun d hd => ?_)
      (fun _ hd => absurd hd List.not_mem_nil) fun side => hdelta.own_merge hname (h.own side i)
    rcases List.mem_append.mp hd with hd | hd
    · exact h.buffer i d hd
    · exact List.mem_singleton.mp hd ▸ hdelta
  | merge i j =>
    cases hs
    exact h.set rfl ((h.state i).merge (h.state j)) (h.buffer i)
      (fun _ hd => absurd hd List.not_mem_nil) fun side =>
        (h.state j).own_merge hname (h.own side i)

theorem counted (hname : Injective name)
    (hs : Reachable (Relay.step (PNCounter.change name)) Relay.Genuine (Relay.start .new) s) :
    s.Counted name :=
  hs.invariant (counted_start name) fun _ _ _ _ h hok hs => step_counted hname h hok hs

/-- A peer never counts more than another one added, and once the peers agree, every one counts
exactly what was added, up to the largest `u64` for each peer and side. -/
theorem counter_exact [Fintype ι] (hname : Injective name)
    (hs : Reachable (Relay.step (PNCounter.change name)) Relay.Genuine (Relay.start .new) s) :
    (∀ side i j, (s.peer i).wrap.state.tally side (name j) ≤
        min cap (added side (s.peer j).updates)) ∧
      (s.Quiescent → ∀ i, (s.peer i).wrap.state.value =
        (∑ j, min cap (added .p (s.peer j).updates) : Nat) -
          (∑ j, min cap (added .n (s.peer j).updates) : Nat)) := by
  have h := counted hname hs
  refine ⟨fun side i j => ?_, fun hq i => ?_⟩
  · rcases h.state i side (name j) with hzero | ⟨k, hk, hle⟩
    · rw [hzero]
      exact Nat.zero_le _
    · exact hname hk ▸ hle
  · have hagree (side : Side) (j : ι) :
        (s.peer i).wrap.state.tally side (name j) = s.total side j := by
      rw [(Relay.bounded (PNCounter.below_change name) hs).agree hq i j]
      exact h.own side j
    have hmem (side : Side) (r : ReplicaId) (hr : 0 < (s.peer i).wrap.state.tally side r) :
        r ∈ (Finset.univ.toList.map name) := by
      rcases h.state i side r with hzero | ⟨j, rfl, -⟩
      · exact absurd hzero (Nat.ne_of_gt hr)
      · exact List.mem_map_of_mem (Finset.mem_toList.mpr (Finset.mem_univ j))
    have hsum (side : Side) : ((Finset.univ.toList.map name).map
        ((s.peer i).wrap.state.tally side)).sum = ∑ j, s.total side j := by
      rw [List.map_map, Finset.sum_eq_multiset_sum, ← Finset.coe_toList Finset.univ]
      exact congrArg List.sum (List.map_congr_left fun j _ => hagree side j)
    rw [PNCounter.value_eq_sum ((Finset.nodup_toList _).map hname) (hmem .p) (hmem .n)]
    exact congrArg₂ (fun a b : Nat => (a : Int) - b) (hsum .p) (hsum .n)

namespace Demo

def nameOf (i : Bool) : ReplicaId := if i then ⟨"A", Str.fits_A⟩ else ⟨"B", Str.fits_B⟩

def five : PNCounter := PNCounter.new.increment (nameOf true) 5

def three : PNCounter := five.decrement (nameOf false) 2

/-- One peer adds 5, the other one hears of it and takes away 2. -/
def bothCount : List (Relay.Action Bool PNCounter CounterUpdate) :=
  [.update true ⟨.p, 5⟩, .stage true, .drain true, .absorb false five, .drain false,
    .update false ⟨.n, 2⟩, .stage false, .drain false, .absorb true three, .drain true]

instance decidableGenuine (s : CounterRelay Bool) :
    (a : Relay.Action Bool PNCounter CounterUpdate) → Decidable (Relay.Genuine s a)
  | .update _ _ => .isTrue trivial
  | .stage _ => .isTrue trivial
  | .drain _ => .isTrue trivial
  | .absorb _ delta => inferInstanceAs (Decidable (delta ∈ s.sent))
  | .merge _ _ => .isTrue trivial

theorem bothCount_quiescent : ∃ s : CounterRelay Bool,
    Reachable (Relay.step (PNCounter.change nameOf)) Relay.Genuine (Relay.start .new) s ∧
      s.Quiescent ∧ s.sent = [five, five, three, three] ∧
      (s.peer true).updates = [⟨.p, 5⟩] ∧ (s.peer false).updates = [⟨.n, 2⟩] := by
  obtain ⟨s, hs, hpeer, hsent, hupdates⟩ : ∃ s : CounterRelay Bool,
      Reachable (Relay.step (PNCounter.change nameOf)) Relay.Genuine (Relay.start .new) s ∧
      (∀ i, (s.peer i).staged = true ∧ (s.peer i).wrap.buffer = [] ∧
        ∀ d ∈ s.sent, d ∈ (s.peer i).known) ∧ s.sent = [five, five, three, three] ∧
      (s.peer true).updates = [⟨.p, 5⟩] ∧ (s.peer false).updates = [⟨.n, 2⟩] :=
    Reachable.of_exec bothCount (by decide +kernel)
  exact ⟨s, hs, ⟨fun i => (hpeer i).1, fun i => (hpeer i).2.1, fun i => (hpeer i).2.2⟩, hsent,
    hupdates⟩

theorem relay_converges_demo : ∃ s : CounterRelay Bool, s.sent = [five, five, three, three] ∧
    (s.peer false).wrap.state = (s.peer true).wrap.state := by
  obtain ⟨s, hs, hq, hsent, -⟩ := bothCount_quiescent
  exact ⟨s, hsent, (Relay.relay_converges (PNCounter.below_change nameOf) hs hq true).1 false⟩

theorem counter_exact_demo : ∃ s : CounterRelay Bool, s.sent = [five, five, three, three] ∧
    ∀ i, (s.peer i).wrap.state.value = 3 := by
  obtain ⟨s, hs, hq, hsent, htrue, hfalse⟩ := bothCount_quiescent
  refine ⟨s, hsent, fun i => ?_⟩
  rw [(counter_exact (by decide) hs).2 hq i, Fintype.sum_bool, Fintype.sum_bool, htrue, hfalse]
  decide

end Demo

end CounterRelay

end P2P333.Crdt333
