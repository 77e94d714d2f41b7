import P2P333.Lib.Bytes

/-!
# Partial views of the members

`InMemoryHyParView` of `333-membership/src/lib.rs`: a small active view of the neighbours and a
passive view of backups. The lock is held for each call. A random peer is the first of its view. An
operation that would panic has no result.

Results:
1. `addActive_spec`, `onDisconnect_spec`: who comes into the active view, who leaves it and which
   events are sent.
2. `wellFormed_iff`: the views are well formed after all calls exactly when no capacity is zero.
-/

namespace P2P333.Membership333

/-! ## Data -/

/-- `identity333::NodeId`, a key of 32 bytes. -/
abbrev NodeId := List.Vector UInt8 32

structure ViewSizes where
  activeCapacity : Nat
  passiveCapacity : Nat
deriving DecidableEq

/-- No capacity is zero. -/
structure ViewSizes.Positive (sizes : ViewSizes) : Prop where
  active : 0 < sizes.activeCapacity
  passive : 0 < sizes.passiveCapacity

/-- Outbound events, each with its destination. -/
inductive Event where
  | forwardJoin (dest newNode : NodeId) (ttl : UInt8)
  | neighbor (dest : NodeId) (highPriority : Bool)
  | shuffle (dest : NodeId) (sample : List NodeId)
  | shuffleReply (dest : NodeId) (sample : List NodeId)
  | disconnect (dest : NodeId)
deriving DecidableEq

def Event.dest : Event → NodeId
  | .forwardJoin dest _ _ | .neighbor dest _ | .shuffle dest _ | .shuffleReply dest
    _ | .disconnect dest => dest

structure Inner where
  me : NodeId
  active : List NodeId
  passive : List NodeId
  sizes : ViewSizes
deriving DecidableEq

namespace Inner

/-! ## Operations -/

def new (me : NodeId) (sizes : ViewSizes) : Inner := ⟨me, [], [], sizes⟩

def dropRandomActive (s : Inner) : Option NodeId × Inner :=
  match s.active with
  | [] => (none, s)
  | peer :: rest => (some peer, { s with active := rest })

/-- `remove(0)` panics on an empty vector. -/
def addPassive (s : Inner) (peer : NodeId) : Option Inner :=
  if peer = s.me ∨ peer ∈ s.active ∨ peer ∈ s.passive then some s
  else if s.sizes.passiveCapacity ≤ s.passive.length then
    match s.passive with
    | [] => none
    | _ :: rest => some { s with passive := rest ++ [peer] }
  else some { s with passive := s.passive ++ [peer] }

/-- The peer that is evicted comes with the new state. -/
def addActive (s : Inner) (peer : NodeId) : Option (Option NodeId × Inner) :=
  if peer = s.me ∨ peer ∈ s.active then some (none, s)
  else
    let s := { s with passive := s.passive.filter (· ≠ peer) }
    let (evicted, s) :=
      if s.sizes.activeCapacity ≤ s.active.length then s.dropRandomActive else (none, s)
    let s := { s with active := s.active ++ [peer] }
    match evicted with
    | none => some (none, s)
    | some ev => (s.addPassive ev).map fun s => (some ev, s)

/-- What is evicted is not told. -/
def join (s : Inner) (contact : NodeId) : Option (List Event × Inner) :=
  (s.addActive contact).map fun r => ([.neighbor contact true], r.2)

def onForwardJoin (s : Inner) (_sender newNode : NodeId) (ttl : UInt8) :
    Option (List Event × Inner) :=
  if ttl = 0 ∨ s.active.length < s.sizes.activeCapacity then
    (s.addActive newNode).map fun r =>
      (.neighbor newNode (ttl == 0) :: r.1.toList.map .disconnect, r.2)
  else
    match s.active with
    | [] => some ([], s)
    | next :: _ => some ([.forwardJoin next newNode (ttl - 1)], s)

def onNeighbor (s : Inner) (sender : NodeId) (_highPriority : Bool) : Option (List Event × Inner) :=
  (s.addActive sender).map fun r => (r.1.toList.map .disconnect, r.2)

def onDisconnect (s : Inner) (sender : NodeId) : Option (List Event × Inner) :=
  let s := { s with active := s.active.filter (· ≠ sender) }
  (s.addPassive sender).map fun s =>
    if s.active.length < s.sizes.activeCapacity then
      match s.passive with
      | [] => ([], s)
      | promote :: rest =>
        ([.neighbor promote false], { s with passive := rest, active := s.active ++ [promote] })
    else ([], s)

def addAllPassive (s : Inner) (sample : List NodeId) : Option Inner := sample.foldlM addPassive s

def onShuffle (s : Inner) (sender : NodeId) (sample : List NodeId) : Option (List Event × Inner) :=
  let replySample := s.passive.take sample.length
  (s.addAllPassive sample).map fun s => ([.shuffleReply sender replySample], s)

def onShuffleReply (s : Inner) (sample : List NodeId) : Option (List Event × Inner) :=
  (s.addAllPassive sample).map fun s => ([], s)

end Inner

/-- The calls that change the views of a node. -/
inductive Call where
  | join (contact : NodeId)
  | onForwardJoin (sender newNode : NodeId) (ttl : UInt8)
  | onNeighbor (sender : NodeId) (highPriority : Bool)
  | onDisconnect (sender : NodeId)
  | onShuffle (sender : NodeId) (sample : List NodeId)
  | onShuffleReply (sample : List NodeId)
deriving DecidableEq

namespace Inner

def step (s : Inner) : Call → Option (List Event × Inner)
  | .join contact => s.join contact
  | .onForwardJoin sender newNode ttl => s.onForwardJoin sender newNode ttl
  | .onNeighbor sender highPriority => s.onNeighbor sender highPriority
  | .onDisconnect sender => s.onDisconnect sender
  | .onShuffle sender sample => s.onShuffle sender sample
  | .onShuffleReply sample => s.onShuffleReply sample

def run (s : Inner) (calls : List Call) : Option Inner :=
  calls.foldlM (fun s c => (s.step c).map Prod.snd) s

/-! ## Well-formed views -/

structure WellFormed (s : Inner) : Prop where
  me_active : s.me ∉ s.active
  me_passive : s.me ∉ s.passive
  nodup_active : s.active.Nodup
  nodup_passive : s.passive.Nodup
  disjoint : ∀ p ∈ s.active, p ∉ s.passive
  active_le : s.active.length ≤ s.sizes.activeCapacity
  passive_le : s.passive.length ≤ s.sizes.passiveCapacity

variable {s : Inner} {peer : NodeId}

theorem wellFormed_new (me : NodeId) (sizes : ViewSizes) : (new me sizes).WellFormed :=
  ⟨nofun, nofun, .nil, .nil, nofun, Nat.zero_le _, Nat.zero_le _⟩

theorem WellFormed.push (h : s.WellFormed) {l : List NodeId} (hl : l.Sublist s.passive)
    (hme : peer ≠ s.me) (hactive : peer ∉ s.active) (hpeer : peer ∉ l)
    (hlen : l.length < s.sizes.passiveCapacity) : { s with passive := l ++ [peer] }.WellFormed := by
  refine ⟨h.me_active, ?_, h.nodup_active, ?_, ?_, h.active_le, ?_⟩
  · simp only [List.mem_append, List.mem_singleton, not_or]
    exact ⟨fun hl' => h.me_passive (hl.subset hl'), Ne.symm hme⟩
  · exact List.concat_eq_append ▸ (hl.nodup h.nodup_passive).concat hpeer
  · intro p hp
    simp only [List.mem_append, List.mem_singleton, not_or]
    exact ⟨fun hl' => h.disjoint p hp (hl.subset hl'), fun heq => hactive (heq ▸ hp)⟩
  · simp only [List.length_append, List.length_singleton]
    omega

theorem WellFormed.promote (h : s.WellFormed) {l l' : List NodeId} (hl : l.Sublist s.active)
    (hl' : l'.Sublist s.passive) (hme : peer ≠ s.me) (hactive : peer ∉ l) (hpassive : peer ∉ l')
    (hlen : l.length < s.sizes.activeCapacity) :
    { s with active := l ++ [peer], passive := l' }.WellFormed := by
  refine ⟨?_, fun hmem => h.me_passive (hl'.subset hmem), ?_, hl'.nodup h.nodup_passive, ?_, ?_,
    hl'.length_le.trans h.passive_le⟩
  · simp only [List.mem_append, List.mem_singleton, not_or]
    exact ⟨fun hmem => h.me_active (hl.subset hmem), Ne.symm hme⟩
  · exact List.concat_eq_append ▸ (hl.nodup h.nodup_active).concat hactive
  · simp only [List.mem_append, List.mem_singleton]
    rintro p (hp | rfl)
    · exact fun hmem => h.disjoint p (hl.subset hp) (hl'.subset hmem)
    · exact hpassive
  · simp only [List.length_append, List.length_singleton]
    omega

/-- The passive view gets the peer unless it is known, and loses at most its first. -/
theorem addPassive_spec (h : s.WellFormed) (hsizes : 0 < s.sizes.passiveCapacity) (peer : NodeId) :
    ∃ passive, s.addPassive peer = some { s with passive } ∧ { s with passive }.WellFormed := by
  unfold addPassive
  split_ifs with hknown hfull
  · exact ⟨s.passive, rfl, h⟩
  · rw [not_or, not_or] at hknown
    obtain ⟨hme, hactive, hpassive⟩ := hknown
    cases hl : s.passive with
    | nil =>
      rw [hl, List.length_nil] at hfull
      omega
    | cons first rest =>
      have hrest : rest.Sublist s.passive := hl ▸ List.sublist_cons_self first rest
      have hle := h.passive_le
      rw [hl, List.length_cons] at hle
      exact ⟨rest ++ [peer], rfl,
        h.push hrest hme hactive (fun hp => hpassive (hrest.subset hp)) hle⟩
  · rw [not_or, not_or] at hknown
    obtain ⟨hme, hactive, hpassive⟩ := hknown
    exact ⟨s.passive ++ [peer], rfl, h.push (.refl _) hme hactive hpassive (Nat.lt_of_not_le hfull)⟩

/-- The peer that has to make room. -/
def evictee (s : Inner) (peer : NodeId) : Option NodeId :=
  if peer = s.me ∨ peer ∈ s.active ∨ s.active.length < s.sizes.activeCapacity then none
  else s.active.head?

/-- One peer comes into the active view, and one leaves it before. -/
structure Moves (s s' : Inner) (took dropped : Option NodeId) : Prop where
  wellFormed : s'.WellFormed
  me : s'.me = s.me
  sizes : s'.sizes = s.sizes
  active : ∀ q ≠ s.me, q ∈ s'.active ↔ took = some q ∨ (q ∈ s.active ∧ dropped ≠ some q)

theorem addActive_spec (h : s.WellFormed) (hsizes : s.sizes.Positive) (peer : NodeId) :
    ∃ s', s.addActive peer = some (s.evictee peer, s') ∧ Moves s s' (some peer)
      (s.evictee peer) := by
  by_cases hknown : peer = s.me ∨ peer ∈ s.active
  · have hevictee : s.evictee peer = none := if_pos (or_assoc.mp (.inl hknown))
    refine ⟨s, ?_, h, rfl, rfl, fun q hq => ?_⟩
    · rw [addActive, if_pos hknown, hevictee]
    · rw [hevictee]
      refine ⟨fun hmem => .inr ⟨hmem, nofun⟩, ?_⟩
      rintro (heq | hmem)
      · obtain rfl := Option.some.inj heq
        exact hknown.resolve_left hq
      · exact hmem.1
  · obtain ⟨hme, hactive⟩ := not_or.mp hknown
    have hpassive : peer ∉ s.passive.filter (· ≠ peer) := by simp
    by_cases hroom : s.active.length < s.sizes.activeCapacity
    · have hevictee : s.evictee peer = none := if_pos (.inr (.inr hroom))
      refine ⟨_, ?_, h.promote (.refl _) List.filter_sublist hme hactive hpassive hroom, rfl, rfl,
        fun q _ => ?_⟩
      · simp only [addActive, if_neg hknown, hevictee, if_neg (Nat.not_le.mpr hroom)]
      · simp [hevictee, or_comm, eq_comm]
    -- The view is full: its first peer goes to the passive view.
    · have hevictee : s.evictee peer = s.active.head? :=
        if_neg fun h => h.elim hme (Or.elim · hactive hroom)
      cases hl : s.active with
      | nil =>
        rw [hl, List.length_nil] at hroom
        exact absurd hsizes.active hroom
      | cons first rest =>
        have hrest : rest.Sublist s.active := hl ▸ List.sublist_cons_self first rest
        have hlen : rest.length < s.sizes.activeCapacity := by
          have hle := h.active_le
          rw [hl, List.length_cons] at hle
          omega
        have hnodup := h.nodup_active
        rw [hl, List.nodup_cons] at hnodup
        have hmid := h.promote hrest (List.filter_sublist (p := (· ≠ peer))) hme
          (fun hmem => hactive (hrest.subset hmem)) hpassive hlen
        obtain ⟨passive, hadd, hwell⟩ := addPassive_spec hmid hsizes.passive first
        rw [hl, List.head?_cons] at hevictee
        refine ⟨_, ?_, hwell, rfl, rfl, fun q _ => ?_⟩
        · rw [hl] at hroom
          rw [addActive, if_neg hknown]
          simp only [hl, if_pos (Nat.not_lt.mp hroom), dropRandomActive, hadd, hevictee]
          rfl
        · rw [hl, hevictee]
          rw [List.mem_append, List.mem_singleton, List.mem_cons, ne_eq, Option.some.injEq,
            Option.some.injEq]
          refine ⟨?_, ?_⟩
          · rintro (hmem | heq)
            · exact .inr ⟨.inr hmem, fun heq => hnodup.1 (heq ▸ hmem)⟩
            · exact .inl heq.symm
          · rintro (heq | ⟨heq | hmem, hne⟩)
            · exact .inr heq.symm
            · exact absurd heq.symm hne
            · exact .inl hmem

/-! ## Every call -/

/-- The peer that takes the place of one that has disconnected. -/
def promotee (s : Inner) (sender : NodeId) : Option NodeId :=
  ({ s with active := s.active.filter (· ≠ sender) }.addPassive sender).bind fun s =>
    if s.active.length < s.sizes.activeCapacity then s.passive.head? else none

theorem onDisconnect_spec (h : s.WellFormed) (hsizes : s.sizes.Positive) (sender : NodeId) :
    ∃ s', s.onDisconnect sender = some ((s.promotee sender).toList.map (.neighbor · false), s') ∧
      Moves s s' (s.promotee sender) (some sender) := by
  have hsub : (s.active.filter (· ≠ sender)).Sublist s.active := List.filter_sublist
  have hwell : { s with active := s.active.filter (· ≠ sender) }.WellFormed :=
    ⟨fun hmem => h.me_active (hsub.subset hmem), h.me_passive, hsub.nodup h.nodup_active,
      h.nodup_passive, fun p hp => h.disjoint p (hsub.subset hp), hsub.length_le.trans h.active_le,
      h.passive_le⟩
  obtain ⟨passive, hadd, hwell'⟩ := addPassive_spec hwell hsizes.passive sender
  have hmem : ∀ q, q ∈ s.active.filter (· ≠ sender) ↔ q ∈ s.active ∧ some sender ≠ some q := by
    intro q
    rw [List.mem_filter, decide_eq_true_iff, ne_comm, ne_eq, ne_eq, Option.some.injEq]
  unfold onDisconnect promotee
  simp only [hadd, Option.map_some, Option.bind_some]
  split_ifs with hroom
  · cases passive with
    | nil => exact ⟨_, rfl, hwell', rfl, rfl, fun q _ => (hmem q).trans (or_iff_right nofun).symm⟩
    | cons promote rest =>
      have hnodup := List.nodup_cons.mp hwell'.nodup_passive
      have hout : promote ∉ s.active.filter (· ≠ sender) := fun hp =>
        hwell'.disjoint promote hp List.mem_cons_self
      refine ⟨_, rfl, hwell'.promote (.refl _) (List.sublist_cons_self promote rest)
        (fun hme => hwell'.me_passive (hme ▸ List.mem_cons_self)) hout hnodup.1 hroom, rfl, rfl,
        fun q _ => ?_⟩
      simp only [List.mem_append, List.mem_singleton, hmem, List.head?_cons, Option.some.injEq]
      exact or_comm.trans (or_congr_left eq_comm)
  · exact ⟨_, rfl, hwell', rfl, rfl, fun q _ => (hmem q).trans (or_iff_right nofun).symm⟩

theorem addAllPassive_spec (h : s.WellFormed) (hsizes : 0 < s.sizes.passiveCapacity)
    (sample : List NodeId) :
    ∃ passive, s.addAllPassive sample = some { s with passive } ∧
      { s with passive }.WellFormed := by
  induction sample generalizing s with
  | nil => exact ⟨s.passive, rfl, h⟩
  | cons peer sample ih =>
    obtain ⟨passive, hadd, hwell⟩ := addPassive_spec h hsizes peer
    obtain ⟨passive', hall, hwell'⟩ := ih hwell hsizes
    refine ⟨passive', ?_, hwell'⟩
    rw [addAllPassive, List.foldlM_cons, hadd]
    exact hall

/-- The peer that a call takes into the active view. -/
def took (s : Inner) : Call → Option NodeId
  | .join contact => some contact
  | .onForwardJoin _ newNode ttl =>
    if ttl = 0 ∨ s.active.length < s.sizes.activeCapacity then some newNode else none
  | .onNeighbor sender _ => some sender
  | .onDisconnect sender => s.promotee sender
  | .onShuffle _ _ | .onShuffleReply _ => none

/-- The peer that a call removes from the active view. -/
def dropped (s : Inner) : Call → Option NodeId
  | .join contact => s.evictee contact
  | .onForwardJoin _ newNode ttl =>
    if ttl = 0 ∨ s.active.length < s.sizes.activeCapacity then s.evictee newNode else none
  | .onNeighbor sender _ => s.evictee sender
  | .onDisconnect sender => some sender
  | .onShuffle _ _ | .onShuffleReply _ => none

/-- The peers that are told that they are neighbours. -/
def contacted (s : Inner) : Call → Option NodeId
  | .onNeighbor _ _ => none
  | c => s.took c

/-- The peers that are told that they are no longer neighbours. -/
def noticed (s : Inner) : Call → Option NodeId
  | .join _ | .onDisconnect _ => none
  | c => s.dropped c

theorem Moves.rfl (h : s.WellFormed) : Moves s s none none :=
  ⟨h, .refl _, .refl _, fun _ _ =>
    ⟨fun hmem => .inr ⟨hmem, nofun⟩, fun hq => (hq.resolve_left nofun).1⟩⟩

/-- What a call does to the active view and to whom it sends events. -/
theorem step_spec (h : s.WellFormed) (hsizes : s.sizes.Positive) (c : Call) :
    ∃ events s', s.step c = some (events, s') ∧ Moves s s' (s.took c) (s.dropped c) ∧
      (∀ q, (∃ highPriority, .neighbor q highPriority ∈ events) ↔ s.contacted c = some q) ∧
      (∀ q, .disconnect q ∈ events ↔ s.noticed c = some q) := by
  cases c with
  | join contact =>
    obtain ⟨s', hadd, hmoves⟩ := addActive_spec h hsizes contact
    refine ⟨[.neighbor contact true], s', ?_, hmoves, ?_, ?_⟩
    · rw [step, join, hadd, Option.map_some]
    · simp [contacted, took, eq_comm]
    · simp [noticed]
  | onForwardJoin sender newNode ttl =>
    by_cases hstop : ttl = 0 ∨ s.active.length < s.sizes.activeCapacity
    · obtain ⟨s', hadd, hmoves⟩ := addActive_spec h hsizes newNode
      have htook : s.took (.onForwardJoin sender newNode ttl) = some newNode := if_pos hstop
      have hdropped : s.dropped (.onForwardJoin sender newNode ttl) =
        s.evictee newNode := if_pos hstop
      have hcontacted : s.contacted (.onForwardJoin sender newNode ttl) = some newNode := htook
      have hnoticed : s.noticed (.onForwardJoin sender newNode ttl) = s.evictee newNode := hdropped
      refine ⟨.neighbor newNode (ttl == 0) :: (s.evictee newNode).toList.map .disconnect, s', ?_,
        htook ▸ hdropped ▸ hmoves, fun q => ?_, fun q => ?_⟩
      · rw [step, onForwardJoin, if_pos hstop, hadd, Option.map_some]
      · simp [hcontacted, eq_comm]
      · simp [hnoticed]
    · have htook : s.took (.onForwardJoin sender newNode ttl) = none := if_neg hstop
      have hdropped : s.dropped (.onForwardJoin sender newNode ttl) = none := if_neg hstop
      have hcontacted : s.contacted (.onForwardJoin sender newNode ttl) = none := htook
      have hnoticed : s.noticed (.onForwardJoin sender newNode ttl) = none := hdropped
      rw [step, onForwardJoin, if_neg hstop, htook, hdropped, hcontacted, hnoticed]
      cases s.active with
      | nil => exact ⟨[], s, rfl, .rfl h, by simp, by simp⟩
      | cons next _ =>
        exact ⟨[.forwardJoin next newNode (ttl - 1)], s, rfl, .rfl h, by simp, by simp⟩
  | onNeighbor sender highPriority =>
    obtain ⟨s', hadd, hmoves⟩ := addActive_spec h hsizes sender
    refine ⟨(s.evictee sender).toList.map .disconnect, s', ?_, hmoves, fun q => ?_, fun q => ?_⟩
    · rw [step, onNeighbor, hadd, Option.map_some]
    · simp [contacted]
    · simp [noticed, dropped]
  | onDisconnect sender =>
    obtain ⟨s', hcall, hmoves⟩ := onDisconnect_spec h hsizes sender
    exact ⟨_, s', hcall, hmoves, fun q => by simp [contacted, took], fun q => by simp [noticed]⟩
  | onShuffle sender sample =>
    obtain ⟨passive, hadd, hwell⟩ := addAllPassive_spec h hsizes.passive sample
    refine ⟨[.shuffleReply sender (s.passive.take sample.length)], _, ?_,
      ⟨hwell, rfl, rfl, (Moves.rfl h).active⟩, ?_, ?_⟩
    · rw [step, onShuffle, hadd, Option.map_some]
    · simp [contacted, took]
    · simp [noticed, dropped]
  | onShuffleReply sample =>
    obtain ⟨passive, hadd, hwell⟩ := addAllPassive_spec h hsizes.passive sample
    refine ⟨[], _, ?_, ⟨hwell, rfl, rfl, (Moves.rfl h).active⟩, ?_, ?_⟩
    · rw [step, onShuffleReply, hadd, Option.map_some]
    · simp [contacted, took]
    · simp [noticed, dropped]

/-! ## All calls -/

theorem run_wellFormed (h : s.WellFormed) (hsizes : s.sizes.Positive) (calls : List Call) :
    ∃ s', s.run calls = some s' ∧ s'.WellFormed := by
  induction calls generalizing s with
  | nil => exact ⟨s, rfl, h⟩
  | cons c calls ih =>
    obtain ⟨events, s₁, hstep, hmoves, -⟩ := step_spec h hsizes c
    obtain ⟨s', hrun, hwell⟩ := ih hmoves.wellFormed (hmoves.sizes ▸ hsizes)
    refine ⟨s', ?_, hwell⟩
    rw [run, List.foldlM_cons, hstep]
    exact hrun

theorem exists_other (me : NodeId) : ∃ other : NodeId, other ≠ me := by
  by_cases hme : me = .replicate 32 0
  · exact ⟨.replicate 32 1, hme ▸ by decide⟩
  · exact ⟨_, Ne.symm hme⟩

/-- No call panics and the views stay well formed, exactly when no capacity is zero. -/
theorem wellFormed_iff (me : NodeId) (sizes : ViewSizes) :
    (∀ calls, ∃ s, (new me sizes).run calls = some s ∧ s.WellFormed) ↔ sizes.Positive := by
  refine ⟨fun h => ?_, fun hsizes => run_wellFormed (wellFormed_new me sizes) hsizes⟩
  obtain ⟨other, hother⟩ := exists_other me
  constructor
  · -- A view of capacity zero takes the contact of a join.
    obtain ⟨s, hrun, hwell⟩ := h [.join other]
    by_contra hzero
    rw [Nat.not_lt, Nat.le_zero] at hzero
    simp [run, step, join, addActive, new, hother, hzero, dropRandomActive] at hrun
    subst hrun
    have hle : 1 ≤ sizes.activeCapacity := hwell.active_le
    omega
  · -- A passive view of capacity zero has no first peer to remove.
    obtain ⟨s, hrun, -⟩ := h [.onShuffleReply [other]]
    by_contra hzero
    rw [Nat.not_lt, Nat.le_zero] at hzero
    simp [run, step, onShuffleReply, addAllPassive, addPassive, new, hother, hzero] at hrun

end Inner

namespace Demo

def here : NodeId := .replicate 32 0

def there : NodeId := .replicate 32 1

/-- An active view of capacity zero takes a peer, and a passive one panics. -/
theorem zero_capacities :
    (∃ s, (Inner.new here ⟨0, 1⟩).run [.join there] = some s ∧
      s.sizes.activeCapacity < s.active.length) ∧
    (Inner.new here ⟨1, 0⟩).run [.onShuffleReply [there]] = none :=
  ⟨⟨⟨here, [there], [], ⟨0, 1⟩⟩, by decide +kernel, by decide⟩, by decide +kernel⟩

end Demo

end P2P333.Membership333
