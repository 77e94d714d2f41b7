import P2P333.Lib.Transition
import P2P333.Membership333.Views

/-!
# Symmetry of the active views

A network of nodes of `333-membership/src/lib.rs`. Every event that a call returns is in flight
until it is delivered to its destination, in any order. Joins, random walks and shuffles start at
any time.

Results:
1. `Inv.performed`: what holds of two nodes and the events between them, kept by every call that
   contradicts no event of its node in flight.
2. `symmetric`: the active views are symmetric when nothing is in flight.
-/

namespace P2P333.Membership333

open Lib Function

/-! ## The network -/

/-- What the log keeps. -/
inductive Entry where
  /-- The node has processed a disconnect from the peer. -/
  | disconnected (node peer : NodeId)
  /-- The node has sent a neighbor event to the peer. -/
  | contacted (node peer : NodeId)
deriving DecidableEq

/-- The events in flight come with their senders. The log has the newest entry first. -/
structure Network where
  nodes : NodeId → Inner
  flight : List (NodeId × Event)
  log : List Entry

/-- What happens in the network. -/
inductive Action where
  | join (node contact : NodeId)
  | forwardJoin (sender dest newNode : NodeId) (ttl : UInt8)
  | shuffle (sender dest : NodeId) (sample : List NodeId)
  | deliver (sender : NodeId) (event : Event)

def Event.call (sender : NodeId) : Event → Call
  | .forwardJoin _ newNode ttl => .onForwardJoin sender newNode ttl
  | .neighbor _ highPriority => .onNeighbor sender highPriority
  | .shuffle _ sample => .onShuffle sender sample
  | .shuffleReply _ sample => .onShuffleReply sample
  | .disconnect _ => .onDisconnect sender

/-- What a call adds to the log before its own events. -/
def arrival (node : NodeId) : Call → List Entry
  | .onDisconnect sender => [.disconnected node sender]
  | _ => []

def contacts (node : NodeId) (events : List Event) : List Entry :=
  events.filterMap fun
    | .neighbor dest _ => some (.contacted node dest)
    | _ => none

/-- The node has processed a disconnect from the peer, and neither has contacted the other since. -/
def Parted (node peer : NodeId) : List Entry → Prop
  | [] => False
  | entry :: log => entry = .disconnected node peer ∨
    (entry ≠ .contacted node peer ∧ entry ≠ .contacted peer node ∧ Parted node peer log)

namespace Network

def start (sizes : NodeId → ViewSizes) : Network := ⟨fun p => Inner.new p (sizes p), [], []⟩

def perform (w : Network) (node : NodeId) (c : Call) : Option Network :=
  ((w.nodes node).step c).map fun r =>
    { nodes := update w.nodes node r.2
      flight := w.flight ++ r.1.map (node, ·)
      log := contacts node r.1 ++ (arrival node c ++ w.log) }

def step (w : Network) : Action → Option Network
  | .join node contact => w.perform node (.join contact)
  | .forwardJoin sender dest newNode ttl =>
    some { w with flight := w.flight ++ [(sender, .forwardJoin dest newNode ttl)] }
  | .shuffle sender dest sample =>
    some { w with flight := w.flight ++ [(sender, .shuffle dest sample)] }
  | .deliver sender event =>
    if (sender, event) ∈ w.flight then
      { w with flight := w.flight.erase (sender, event) }.perform event.dest (event.call sender)
    else none

def active (w : Network) (p : NodeId) : List NodeId := (w.nodes p).active

/-- A neighbor event is in flight. -/
def Joining (w : Network) (p q : NodeId) : Prop :=
  ∃ highPriority, (p, .neighbor q highPriority) ∈ w.flight

/-- A disconnect is in flight. -/
def Leaving (w : Network) (p q : NodeId) : Prop := (p, .disconnect q) ∈ w.flight

/-- The call takes no peer to which a disconnect of the node is in flight, and drops none to which a
neighbor event of it is. -/
structure Clear (w : Network) (node : NodeId) (c : Call) : Prop where
  took : ∀ q ∈ (w.nodes node).took c, q ≠ node → ¬ w.Leaving node q
  dropped : ∀ q ∈ (w.nodes node).dropped c, (w.nodes node).took c ≠ some q → ¬ w.Joining node q

/-- Not by enumeration of all nodes. -/
instance (priority := high) {P : NodeId → Prop} [DecidablePred P] :
    ∀ o : Option NodeId, Decidable (∀ q ∈ o, P q)
  | none => .isTrue nofun
  | some p => decidable_of_iff (P p) ⟨fun h _ hq => Option.some.inj hq ▸ h, fun h => h p rfl⟩

instance (w : Network) (p q : NodeId) : Decidable (w.Joining p q) :=
  decidable_of_iff ((p, .neighbor q true) ∈ w.flight ∨ (p, .neighbor q false) ∈ w.flight)
    ⟨fun h => h.elim (⟨true, ·⟩) (⟨false, ·⟩), fun ⟨b, h⟩ => by cases b with
      | true => exact .inl h
      | false => exact .inr h⟩

instance (w : Network) (p q : NodeId) : Decidable (w.Leaving p q) :=
  inferInstanceAs (Decidable ((p, .disconnect q) ∈ w.flight))

instance (w : Network) (node : NodeId) (c : Call) : Decidable (w.Clear node c) :=
  decidable_of_iff ((∀ q ∈ (w.nodes node).took c, q ≠ node → ¬ w.Leaving node q) ∧
      ∀ q ∈ (w.nodes node).dropped c, (w.nodes node).took c ≠ some q → ¬ w.Joining node q)
    ⟨fun h => ⟨h.1, h.2⟩, fun h => ⟨h.took, h.dropped⟩⟩

/-- A join drops no peer that has the node in its view. -/
def ok (w : Network) : Action → Prop
  | .join node contact => w.Clear node (.join contact) ∧
    ∀ q ∈ (w.nodes node).evictee contact, node ∉ w.active q
  | .deliver sender event => w.Clear event.dest (event.call sender)
  | .forwardJoin _ _ _ _ | .shuffle _ _ _ => True

instance (w : Network) : ∀ a, Decidable (w.ok a)
  | .join node contact => inferInstanceAs (Decidable (w.Clear node (.join contact) ∧
      ∀ q ∈ (w.nodes node).evictee contact, node ∉ w.active q))
  | .deliver sender event => inferInstanceAs (Decidable (w.Clear event.dest (event.call sender)))
  | .forwardJoin _ _ _ _ | .shuffle _ _ _ => .isTrue trivial

end Network

/-! ## Who is told -/

namespace Inner

variable {s : Inner} {c : Call} {q : NodeId}

theorem evictee_ne (s : Inner) (peer : NodeId) : s.evictee peer ≠ some peer := by
  unfold evictee
  split_ifs with h
  · nofun
  · intro heq
    exact h (.inr (.inl (List.mem_of_head? heq)))

theorem took_of_contacted (h : s.contacted c = some q) : s.took c = some q := by
  cases c with
  | onNeighbor => cases h
  | join | onForwardJoin | onDisconnect | onShuffle | onShuffleReply => exact h

theorem contacted_of_took (h : s.took c = some q) :
    s.contacted c = some q ∨ ∃ highPriority, c = .onNeighbor q highPriority := by
  cases c with
  | onNeighbor sender highPriority =>
    obtain rfl := Option.some.inj h
    exact .inr ⟨highPriority, rfl⟩
  | join | onForwardJoin | onDisconnect | onShuffle | onShuffleReply => exact .inl h

theorem dropped_of_noticed (h : s.noticed c = some q) :
    s.dropped c = some q ∧ s.took c ≠ some q := by
  cases c with
  | onForwardJoin sender newNode ttl =>
    refine ⟨h, ?_⟩
    by_cases hstop : ttl = 0 ∨ s.active.length < s.sizes.activeCapacity
    · have hevictee : s.evictee newNode = some q := (if_pos hstop).symm.trans h
      have htook : s.took (.onForwardJoin sender newNode ttl) = some newNode := if_pos hstop
      rw [htook]
      rintro ⟨⟩
      exact evictee_ne s _ hevictee
    · cases (if_neg hstop).symm.trans h
  | onNeighbor sender highPriority =>
    refine ⟨h, ?_⟩
    rintro ⟨⟩
    exact evictee_ne s _ h
  | join | onDisconnect | onShuffle | onShuffleReply => cases h

theorem noticed_of_dropped (h : s.dropped c = some q) : s.noticed c = some q ∨
    (∃ contact, c = .join contact ∧ s.evictee contact = some q) ∨ c = .onDisconnect q := by
  cases c with
  | join contact => exact .inr (.inl ⟨contact, rfl, h⟩)
  | onDisconnect sender =>
    obtain rfl := Option.some.inj h
    exact .inr (.inr rfl)
  | onForwardJoin | onNeighbor | onShuffle | onShuffleReply => exact .inl h

end Inner

/-! ## The log -/

theorem parted_append {node peer : NodeId} {l log : List Entry} (h : Parted node peer (l ++ log)) :
    .disconnected node peer ∈ l ∨
      (.contacted node peer ∉ l ∧ .contacted peer node ∉ l ∧ Parted node peer log) := by
  induction l with
  | nil => exact .inr ⟨nofun, nofun, h⟩
  | cons entry l ih =>
    rcases h with rfl | ⟨hne, hne', h⟩
    · exact .inl List.mem_cons_self
    · refine (ih h).imp (List.mem_cons_of_mem _) fun ⟨hout, hout', hlog⟩ => ⟨?_, ?_, hlog⟩
      · exact fun hmem => (List.mem_cons.mp hmem).elim (fun heq => hne heq.symm) hout
      · exact fun hmem => (List.mem_cons.mp hmem).elim (fun heq => hne' heq.symm) hout'

theorem mem_contacts {node : NodeId} {events : List Event} {entry : Entry} :
    entry ∈ contacts node events ↔
      ∃ dest, entry = .contacted node dest ∧ ∃ highPriority,
        .neighbor dest highPriority ∈ events := by
  rw [contacts, List.mem_filterMap]
  constructor
  · rintro ⟨event, hevent, hentry⟩
    cases event with
    | neighbor dest highPriority =>
      exact ⟨dest, (Option.some.inj hentry).symm, highPriority, hevent⟩
    | forwardJoin | shuffle | shuffleReply | disconnect => cases hentry
  · rintro ⟨dest, rfl, highPriority, hevent⟩
    exact ⟨_, hevent, rfl⟩

/-! ## One call in the network -/

namespace Network

variable {w w' : Network} {node p q : NodeId} {c : Call} {sizes : NodeId → ViewSizes}

/-- What a call of a node does to the network, with the event that it was delivered for. -/
structure Performed (w w' : Network) (node : NodeId) (c : Call) : Prop where
  others : ∀ p ≠ node, w'.nodes p = w.nodes p
  moves : Inner.Moves (w.nodes node) (w'.nodes node) ((w.nodes node).took c)
    ((w.nodes node).dropped c)
  joining : ∀ {p q : NodeId}, w'.Joining p q → w.Joining p q ∨
    (p = node ∧ (w.nodes node).contacted c = some q)
  joining_keep : ∀ {p q : NodeId}, w.Joining p q →
    (q = node ∧ ∃ highPriority, c = .onNeighbor p highPriority) ∨ w'.Joining p q
  joining_new : ∀ {q : NodeId}, (w.nodes node).contacted c = some q → w'.Joining node q
  leaving : ∀ {p q : NodeId}, w'.Leaving p q → w.Leaving p q ∨
    (p = node ∧ (w.nodes node).noticed c = some q)
  leaving_keep : ∀ {p q : NodeId}, w.Leaving p q → (q = node ∧ c = .onDisconnect p) ∨ w'.Leaving p q
  leaving_new : ∀ {q : NodeId}, (w.nodes node).noticed c = some q → w'.Leaving node q
  parted : ∀ {p q : NodeId}, Parted q p w'.log → (q = node → (w.nodes node).contacted c ≠ some p) ∧
    (p = node → (w.nodes node).contacted c ≠ some q) ∧
    ((q = node ∧ c = .onDisconnect p) ∨ Parted q p w.log)

/-- What holds of two nodes and the events between them. -/
structure Inv (sizes : NodeId → ViewSizes) (w : Network) : Prop where
  me : ∀ p, (w.nodes p).me = p
  sizes : ∀ p, (w.nodes p).sizes = sizes p
  wellFormed : ∀ p, (w.nodes p).WellFormed
  joining : ∀ p q, p ≠ q → w.Joining p q → q ∈ w.active p
  leaving : ∀ p q, p ≠ q → w.Leaving p q → q ∉ w.active p
  answered : ∀ p q, p ≠ q → q ∈ w.active p → p ∉ w.active q → w.Joining p q ∨ w.Leaving q p
  apart : ∀ p q, p ≠ q → Parted q p w.log → p ∉ w.active q ∧ ¬ w.Joining p q

theorem Performed.active_self (h : Performed w w' node c) (hI : Inv sizes w) (hq : q ≠ node) :
    q ∈ w'.active node ↔ (w.nodes node).took c = some q ∨
      (q ∈ w.active node ∧ (w.nodes node).dropped c ≠ some q) :=
  h.moves.active q (by rwa [hI.me node])

theorem Performed.active_other (h : Performed w w' node c) (hp : p ≠ node) :
    w'.active p = w.active p := by
  rw [active, active, h.others p hp]

/-- The node has a peer that does not have it: one of them is still to be told. -/
theorem Inv.answered_own (hI : Inv sizes w) (h : Performed w w' node c) (hne : node ≠ q)
    (hneighbor : ∀ sender highPriority, c = .onNeighbor sender highPriority → w.Joining sender node)
    (hactive : q ∈ w'.active node) (hnot : node ∉ w.active q) :
    w'.Joining node q ∨ w'.Leaving q node := by
  rw [h.active_self hI hne.symm] at hactive
  rcases hactive with htook | ⟨hmem, hdropped⟩
  · -- A peer that is taken without being told has told the node.
    rcases Inner.contacted_of_took htook with hnew | ⟨highPriority, hc⟩
    · exact .inl (h.joining_new hnew)
    · exact absurd (hI.joining q node hne.symm (hneighbor q highPriority hc)) hnot
  · rcases hI.answered node q hne hmem hnot with hold | hold
    · exact .inl ((h.joining_keep hold).resolve_left fun harrived => hne harrived.1.symm)
    · refine .inr ((h.leaving_keep hold).resolve_left ?_)
      rintro ⟨-, rfl⟩
      exact hdropped rfl

/-- The same for a peer that has the node. -/
theorem Inv.answered_peer (hI : Inv sizes w) (h : Performed w w' node c) (hne : p ≠ node)
    (hjoin : ∀ contact, c = .join contact → ∀ q ∈ (w.nodes node).evictee contact, node ∉ w.active q)
    (hdisconnect : ∀ sender, c = .onDisconnect sender → w.Leaving sender node)
    (hactive : node ∈ w.active p) (hnot : p ∉ w'.active node) :
    w'.Joining p node ∨ w'.Leaving node p := by
  rw [h.active_self hI hne] at hnot
  obtain ⟨htook, hkept⟩ := not_or.mp hnot
  by_cases hmem : p ∈ w.active node
  · have hdropped : (w.nodes node).dropped c = some p := by
      by_contra hdropped
      exact hkept ⟨hmem, hdropped⟩
    rcases Inner.noticed_of_dropped hdropped with hnew | ⟨contact, rfl, hevictee⟩ | rfl
    · exact .inr (h.leaving_new hnew)
    · exact absurd hactive (hjoin contact rfl p hevictee)
    · exact absurd hactive (hI.leaving p node hne (hdisconnect p rfl))
  · rcases hI.answered p node hne hactive hmem with hold | hold
    · refine .inl ((h.joining_keep hold).resolve_left ?_)
      rintro ⟨-, highPriority, rfl⟩
      exact htook rfl
    · exact .inr ((h.leaving_keep hold).resolve_left fun harrived => hne harrived.1)

/-- The invariant is kept by a call that contradicts no event of its node in flight. -/
theorem Inv.performed (hI : Inv sizes w) (h : Performed w w' node c) (hclear : w.Clear node c)
    (hjoin : ∀ contact, c = .join contact → ∀ q ∈ (w.nodes node).evictee contact, node ∉ w.active q)
    (hneighbor : ∀ sender highPriority, c = .onNeighbor sender highPriority → w.Joining sender node)
    (hdisconnect : ∀ sender, c = .onDisconnect sender → w.Leaving sender node) : Inv sizes w' where
  me p := by
    by_cases hp : p = node
    · rw [hp, h.moves.me, hI.me]
    · rw [h.others p hp, hI.me]
  sizes p := by
    by_cases hp : p = node
    · rw [hp, h.moves.sizes, hI.sizes]
    · rw [h.others p hp, hI.sizes]
  wellFormed p := by
    by_cases hp : p = node
    · exact hp ▸ h.moves.wellFormed
    · exact h.others p hp ▸ hI.wellFormed p
  joining p q hpq hjoining := by
    -- The event was in flight before, or the call has just sent it.
    rcases h.joining hjoining with hold | ⟨rfl, hnew⟩
    · have hactive := hI.joining p q hpq hold
      by_cases hp : p = node
      · subst hp
        rw [h.active_self hI hpq.symm]
        by_cases htook : (w.nodes p).took c = some q
        · exact .inl htook
        · exact .inr ⟨hactive, fun hdropped => hclear.dropped q hdropped htook hold⟩
      · rwa [h.active_other hp]
    · rw [h.active_self hI hpq.symm]
      exact .inl (Inner.took_of_contacted hnew)
  leaving p q hpq hleaving := by
    rcases h.leaving hleaving with hold | ⟨rfl, hnew⟩
    · have hactive := hI.leaving p q hpq hold
      by_cases hp : p = node
      · subst hp
        rw [h.active_self hI hpq.symm]
        rintro (htook | ⟨hmem, -⟩)
        · exact hclear.took q htook hpq.symm hold
        · exact hactive hmem
      · rwa [h.active_other hp]
    · obtain ⟨hdropped, htook⟩ := Inner.dropped_of_noticed hnew
      rw [h.active_self hI hpq.symm]
      exact fun hmem => hmem.elim htook fun hkept => hkept.2 hdropped
  answered p q hpq hactive hnot := by
    by_cases hp : p = node
    · subst hp
      rw [h.active_other hpq.symm] at hnot
      exact hI.answered_own h hpq hneighbor hactive hnot
    · rw [h.active_other hp] at hactive
      by_cases hq : q = node
      · subst hq
        exact hI.answered_peer h hpq hjoin hdisconnect hactive hnot
      · rw [h.active_other hq] at hnot
        exact (hI.answered p q hpq hactive hnot).imp
          (fun hold => (h.joining_keep hold).resolve_left fun harrived => hq harrived.1)
          fun hold => (h.leaving_keep hold).resolve_left fun harrived => hp harrived.1
  apart p q hpq hparted := by
    obtain ⟨hself, hpeer, hcause⟩ := h.parted hparted
    have hnew : ¬ (p = node ∧ (w.nodes node).contacted c = some q) :=
      fun hnew => hpeer hnew.1 hnew.2
    rcases hcause with ⟨rfl, rfl⟩ | hold
    · have hleaving := hdisconnect p rfl
      refine ⟨?_, fun hjoining => ?_⟩
      · rw [h.active_self hI hpq]
        exact fun hmem => hmem.elim (hself rfl) fun hkept => hkept.2 rfl
      · exact hI.leaving p q hpq hleaving
          (hI.joining p q hpq ((h.joining hjoining).resolve_right hnew))
    · obtain ⟨hout, hquiet⟩ := hI.apart p q hpq hold
      refine ⟨?_, fun hjoining => hquiet ((h.joining hjoining).resolve_right hnew)⟩
      by_cases hq : q = node
      · subst hq
        rw [h.active_self hI hpq]
        rintro (htook | ⟨hmem, -⟩)
        · rcases Inner.contacted_of_took htook with hcontacted | ⟨highPriority, hc⟩
          · exact hself rfl hcontacted
          · exact hquiet (hneighbor p highPriority hc)
        · exact hout hmem
      · rwa [h.active_other hq]

theorem performed_of_perform (hI : Inv sizes w) (hsizes : ∀ p, (sizes p).Positive)
    {flight : List (NodeId × Event)} (hsub : flight ⊆ w.flight)
    (hneighbor : ∀ p q highPriority, (p, .neighbor q highPriority) ∈ w.flight →
      (p, .neighbor q highPriority) ∈ flight ∨ (q = node ∧ c = .onNeighbor p highPriority))
    (hdisconnect : ∀ p q, (p, .disconnect q) ∈ w.flight →
      (p, .disconnect q) ∈ flight ∨ (q = node ∧ c = .onDisconnect p))
    (hperform : { w with flight }.perform node c = some w') : Performed w w' node c := by
  obtain ⟨events, s', hstep, hmoves, hcontacted, hnoticed⟩ :=
    Inner.step_spec (hI.wellFormed node) (hI.sizes node ▸ hsizes node) c
  rw [perform, hstep, Option.map_some, Option.some.injEq] at hperform
  subst hperform
  have hflight : ∀ p event, (p, event) ∈ flight ++ events.map (node, ·) ↔
      (p, event) ∈ flight ∨ (p = node ∧ event ∈ events) := by
    intro p event
    rw [List.mem_append, List.mem_map]
    refine or_congr_right ⟨?_, ?_⟩
    · rintro ⟨event', hevent, heq⟩
      obtain ⟨rfl, rfl⟩ := Prod.mk.inj heq
      exact ⟨rfl, hevent⟩
    · rintro ⟨rfl, hevent⟩
      exact ⟨event, hevent, rfl⟩
  refine ⟨fun p hp => update_of_ne hp _ _, ?_, ?_, ?_, ?_, ?_, ?_, ?_, ?_⟩
  · show Inner.Moves _ (update w.nodes node s' node) _ _
    rwa [update_self]
  · rintro p q ⟨highPriority, hmem⟩
    rcases (hflight _ _).mp hmem with hold | ⟨rfl, hnew⟩
    · exact .inl ⟨highPriority, hsub hold⟩
    · exact .inr ⟨rfl, (hcontacted q).mp ⟨highPriority, hnew⟩⟩
  · rintro p q ⟨highPriority, hmem⟩
    rcases hneighbor p q highPriority hmem with hkept | ⟨hq, hc⟩
    · exact .inr ⟨highPriority, (hflight _ _).mpr (.inl hkept)⟩
    · exact .inl ⟨hq, highPriority, hc⟩
  · intro q hq
    obtain ⟨highPriority, hevent⟩ := (hcontacted q).mpr hq
    exact ⟨highPriority, (hflight _ _).mpr (.inr ⟨rfl, hevent⟩)⟩
  · intro p q hmem
    rcases (hflight _ _).mp hmem with hold | ⟨rfl, hnew⟩
    · exact .inl (hsub hold)
    · exact .inr ⟨rfl, (hnoticed q).mp hnew⟩
  · intro p q hmem
    rcases hdisconnect p q hmem with hkept | harrived
    · exact .inr ((hflight _ _).mpr (.inl hkept))
    · exact .inl harrived
  · intro q hq
    exact (hflight _ _).mpr (.inr ⟨rfl, (hnoticed q).mpr hq⟩)
  · intro p q hparted
    have hentry : ∀ entry ∈ contacts node events, ∀ a b, entry ≠ .disconnected a b := by
      rintro entry hmem a b rfl
      obtain ⟨dest, heq, -⟩ := mem_contacts.mp hmem
      cases heq
    obtain ⟨hout, hout', hlog⟩ := (parted_append hparted).resolve_left
      fun hmem => hentry _ hmem q p rfl
    refine ⟨?_, ?_, ?_⟩
    · rintro rfl hnew
      exact hout (mem_contacts.mpr ⟨p, rfl, (hcontacted p).mpr hnew⟩)
    · rintro rfl hnew
      exact hout' (mem_contacts.mpr ⟨q, rfl, (hcontacted q).mpr hnew⟩)
    · rcases parted_append hlog with harrival | ⟨-, -, hold⟩
      · cases c with
        | onDisconnect sender =>
          obtain ⟨rfl, rfl⟩ := Entry.disconnected.inj (List.mem_singleton.mp harrival)
          exact .inl ⟨rfl, rfl⟩
        | join | onForwardJoin | onNeighbor | onShuffle | onShuffleReply => cases harrival
      · exact .inr hold

/-- Random walks and shuffles that start. -/
theorem Inv.launch (hI : Inv sizes w) (sender : NodeId) (event : Event)
    (hneighbor : ∀ q highPriority, event ≠ .neighbor q highPriority)
    (hdisconnect : ∀ q, event ≠ .disconnect q) :
    Inv sizes { w with flight := w.flight ++ [(sender, event)] } := by
  have hmem : ∀ x, x ∈ w.flight ++ [(sender, event)] ↔ x ∈ w.flight ∨ x = (sender, event) := by simp
  have hjoining : ∀ p q, Joining { w with flight := w.flight ++ [(sender, event)] } p q ↔
    w.Joining p q := by
    refine fun p q => exists_congr fun highPriority => (hmem _).trans (or_iff_left ?_)
    exact fun heq => hneighbor q highPriority (Prod.mk.inj heq).2.symm
  have hleaving : ∀ p q, Leaving { w with flight := w.flight ++ [(sender, event)] } p q ↔
    w.Leaving p q :=
    fun p q => (hmem _).trans (or_iff_left fun heq => hdisconnect q (Prod.mk.inj heq).2.symm)
  refine ⟨hI.me, hI.sizes, hI.wellFormed, fun p q hpq h => hI.joining p q hpq ((hjoining p q).mp h),
    fun p q hpq h => hI.leaving p q hpq ((hleaving p q).mp h), fun p q hpq hactive hnot => ?_,
    fun p q hpq hparted => ?_⟩
  · rw [hjoining, hleaving]
    exact hI.answered p q hpq hactive hnot
  · rw [hjoining]
    exact hI.apart p q hpq hparted

theorem Inv.step {a : Action} (hsizes : ∀ p, (sizes p).Positive) (hI : Inv sizes w) (hok : w.ok a)
    (hstep : w.step a = some w') : Inv sizes w' := by
  cases a with
  | join contact =>
    exact hI.performed (performed_of_perform hI hsizes (List.Subset.refl _) (fun _ _ _ => .inl)
      (fun _ _ => .inl) hstep) hok.1 (by rintro _ ⟨⟩; exact hok.2) nofun nofun
  | forwardJoin sender dest newNode ttl | shuffle sender dest sample =>
    obtain rfl := Option.some.inj hstep
    exact hI.launch sender _ nofun nofun
  | deliver sender event =>
    simp only [Network.step] at hstep
    split_ifs at hstep with hflight
    have hkeep : ∀ x ∈ w.flight, x ∈ w.flight.erase (sender, event) ∨ x = (sender, event) := by
      intro x hx
      by_cases heq : x = (sender, event)
      · exact .inr heq
      · exact .inl ((List.mem_erase_of_ne heq).mpr hx)
    have hperformed : Performed w w' event.dest (event.call sender) := by
      refine performed_of_perform hI hsizes List.erase_subset (fun p q highPriority hmem => ?_)
        (fun p q hmem => ?_) hstep
      · refine (hkeep _ hmem).imp_right fun heq => ?_
        obtain ⟨rfl, rfl⟩ := Prod.mk.inj heq
        exact ⟨rfl, rfl⟩
      · refine (hkeep _ hmem).imp_right fun heq => ?_
        obtain ⟨rfl, rfl⟩ := Prod.mk.inj heq
        exact ⟨rfl, rfl⟩
    cases event with
    | neighbor dest highPriority =>
      refine hI.performed hperformed hok nofun ?_ nofun
      rintro _ _ ⟨⟩
      exact ⟨highPriority, hflight⟩
    | disconnect dest =>
      refine hI.performed hperformed hok nofun nofun ?_
      rintro _ ⟨⟩
      exact hflight
    | forwardJoin | shuffle | shuffleReply => exact hI.performed hperformed hok nofun nofun nofun

theorem inv_start (sizes : NodeId → ViewSizes) : Inv sizes (start sizes) where
  me _ := rfl
  sizes _ := rfl
  wellFormed p := Inner.wellFormed_new p (sizes p)
  joining := by
    rintro _ _ _ ⟨_, hmem⟩
    cases hmem
  leaving _ _ _ := nofun
  answered _ _ _ := nofun
  apart _ _ _ := nofun

theorem inv_of_reachable (hsizes : ∀ p, (sizes p).Positive)
    (h : Reachable step ok (start sizes) w) :
    Inv sizes w :=
  h.invariant (inv_start sizes) fun _ _ _ _ hI hok hstep => hI.step hsizes hok hstep

/-- With nothing in flight the active views are symmetric, and a peer whose disconnect was processed
is in the view again only if one of the two has contacted the other. -/
theorem symmetric (hsizes : ∀ p, (sizes p).Positive) (h : Reachable step ok (start sizes) w)
    (hquiet : w.flight = []) :
    (∀ p q, p ∈ w.active q ↔ q ∈ w.active p) ∧ ∀ p q, Parted q p w.log → p ∉ w.active q := by
  have hI := inv_of_reachable hsizes h
  have hdirection : ∀ p q, q ∈ w.active p → p ∈ w.active q := by
    intro p q hactive
    by_contra hnot
    by_cases hpq : p = q
    · exact hnot (hpq ▸ hactive)
    · rcases hI.answered p q hpq hactive hnot with ⟨_, hmem⟩ | hmem
      · rw [hquiet] at hmem
        cases hmem
      · rw [Leaving, hquiet] at hmem
        cases hmem
  refine ⟨fun p q => ⟨hdirection q p, hdirection p q⟩, fun p q hparted => ?_⟩
  by_cases hpq : p = q
  · subst hpq
    have hme := (hI.wellFormed p).me_active
    rwa [hI.me] at hme
  · exact (hI.apart p q hpq hparted).1

end Network

namespace Demo

open Network

def node (k : UInt8) : NodeId := .replicate 32 k

def small : NodeId → ViewSizes := fun _ => ⟨1, 2⟩

theorem small_positive (p : NodeId) : (small p).Positive := ⟨Nat.one_pos, Nat.two_pos⟩

/-- The second join drops the contact of the first one, who is not told. -/
def secondJoin : List Action :=
  [.join (node 0) (node 1), .deliver (node 0) (.neighbor (node 1) true),
   .join (node 0) (node 2), .deliver (node 0) (.neighbor (node 2) true)]

/-- The disconnect to node 1 overtakes the neighbor event. No join drops a peer. -/
def overtaken : List Action :=
  [.join (node 3) (node 1), .deliver (node 3) (.neighbor (node 1) true),
   .shuffle (node 4) (node 3) [node 4], .deliver (node 4) (.shuffle (node 3) [node 4]),
   .deliver (node 3) (.shuffleReply (node 4) []),
   .join (node 0) (node 1), .join (node 2) (node 0), .deliver (node 2) (.neighbor (node 0) true),
   .deliver (node 0) (.disconnect (node 1)), .deliver (node 0) (.neighbor (node 1) true),
   .deliver (node 1) (.disconnect (node 3)), .deliver (node 3) (.neighbor (node 4) false)]

/-- Every join finds room. -/
def Roomy (w : Network) : Action → Prop
  | .join node contact => (w.nodes node).evictee contact = none
  | _ => True

instance (w : Network) : ∀ a, Decidable (Roomy w a)
  | .join node contact => inferInstanceAs (Decidable ((w.nodes node).evictee contact = none))
  | .forwardJoin _ _ _ _ | .shuffle _ _ _ | .deliver _ _ => .isTrue trivial

/-- Node 1 keeps a neighbour that has dropped it, and nothing is in flight. -/
def Asymmetric (w : Network) : Prop :=
  w.flight = [] ∧ node 0 ∈ w.active (node 1) ∧ node 1 ∉ w.active (node 0)

instance (w : Network) : Decidable (Asymmetric w) :=
  decidable_of_iff (w.flight.isEmpty ∧ node 0 ∈ w.active (node 1) ∧ node 1 ∉ w.active (node 0))
    (and_congr_left fun _ => List.isEmpty_iff)

theorem asymmetric :
    (∃ w, Reachable Network.step (fun _ _ => True) (start small) w ∧ Asymmetric w) ∧
    ∃ w, Reachable Network.step Roomy (start small) w ∧ Asymmetric w := by
  refine ⟨Reachable.of_exec secondJoin ?_, Reachable.of_exec overtaken ?_⟩ <;> decide +kernel

theorem symmetric_first_join :
    ∃ w : Network, w.flight = [] ∧ node 0 ∈ w.active (node 1) ∧ node 1 ∈ w.active (node 0) := by
  have hrun : ∃ w, Reachable Network.step ok (start small) w ∧
      (w.flight.isEmpty ∧ node 1 ∈ w.active (node 0)) :=
    Reachable.of_exec (secondJoin.take 2) (by decide +kernel)
  obtain ⟨w, hreach, hempty, hactive⟩ := hrun
  have hquiet := List.isEmpty_iff.mp hempty
  exact ⟨w, hquiet, ((symmetric small_positive hreach hquiet).1 _ _).mpr hactive, hactive⟩

end Demo

end P2P333.Membership333
