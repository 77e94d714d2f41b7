import P2P333.Gossip333.Plumtree
import P2P333.Lib.Flooding
import P2P333.Lib.Transition

/-!
# Plumtree delivers everywhere

A connected overlay of `InMemoryPlumtree` nodes. Every event that a node emits is delivered once, to
its destination and in any order; the nodes tick and originate messages in between.

Duplicates prune edges on both sides while messages are under way, so the eager edges alone may fall
apart. What holds of every edge is that an end that has a message owes it to the other end, unless
that one has it too: the body, an announcement or a request is under way, or the announcement is
pending.

Results:
1. `delivered`: with nothing under way and nothing pending, every node has every message that was
   originated; the views are disjoint and hold the peers at all times.
-/

namespace P2P333.Gossip333

open Lib Function

/-! ## Networks -/

/-- Nodes with the peers that were added to each of them. -/
structure Overlay where
  nodes : List NodeId
  peers : NodeId → List NodeId
  both : ∀ u ∈ nodes, ∀ v ∈ peers u, v ∈ nodes ∧ u ∈ peers v
  connected : ∀ u ∈ nodes, ∀ v ∈ nodes, Relation.ReflTransGen (fun a b => b ∈ peers a) u v

/-- The nodes, the events under way with the node that has emitted each of them, and what has been
originated. -/
structure Network where
  node : NodeId → Plumtree
  flight : List (NodeId × Event)
  sent : List (MsgId × Bytes)

/-- What happens in a network of nodes that gossip. -/
inductive Action where
  | broadcast (u : NodeId) (payload : Bytes) (id : MsgId) (order : Order)
  | deliver (src : NodeId) (ev : Event) (order : Order)
  | tick (u : NodeId)

namespace Plumtree

/-- The handler of an event that comes from `src`. -/
def receive (t : Plumtree) (src : NodeId) (order : Order) : Event → List Event × Plumtree
  | .eager _ msg => t.onReceive order msg
  | .iHave _ id sender => ([], t.onIhave src id sender)
  | .graft _ id => t.onGraft src id
  | .prune _ => ([], t.onPrune src)

end Plumtree

namespace Network

def start (o : Overlay) : Network :=
  ⟨fun u => (o.peers u).foldl Plumtree.addPeer (.new u), [], []⟩

/-- The node `u` has moved on and emitted some events. -/
def put (net : Network) (u : NodeId) (x : List Event × Plumtree) : Network :=
  { net with node := update net.node u x.2, flight := net.flight ++ x.1.map (u, ·) }

def step (o : Overlay) (net : Network) : Action → Option Network
  | .broadcast u payload id order =>
    if u ∈ o.nodes then
      some (({ net with sent := (id, payload) :: net.sent } : Network).put u
        ((net.node u).broadcast order payload id))
    else none
  | .deliver src ev order =>
    if (src, ev) ∈ net.flight then
      some (({ net with flight := net.flight.erase (src, ev) } : Network).put ev.dest
        ((net.node ev.dest).receive src order ev))
    else none
  | .tick u => if u ∈ o.nodes then some (net.put u (net.node u).tick) else none

/-- Every message has an id of its own. -/
def Distinct (net : Network) : Action → Prop
  | .broadcast _ _ id _ => id ∉ net.sent.map Prod.fst
  | _ => True

/-- Nothing is under way and nothing is pending. -/
structure Quiet (o : Overlay) (net : Network) : Prop where
  flight : net.flight = []
  pending : ∀ u ∈ o.nodes, (net.node u).pendingIhave = []

/-! ## The invariant -/

/-- A connection between nodes. -/
def edge (o : Overlay) (u v : NodeId) : Prop := u ∈ o.nodes ∧ v ∈ o.peers u

def Has (net : Network) (id : MsgId) (u : NodeId) : Prop := ((net.node u).get id).isSome

/-- Something is under way between `u` and `v` that will make `v` have the message. -/
def Owes (net : Network) (id : MsgId) (u v : NodeId) : Prop :=
  (∃ msg : Msg, msg.id = id ∧ (u, .eager v msg) ∈ net.flight) ∨
    (∃ sender, (u, .iHave v id sender) ∈ net.flight) ∨
    (∃ origin, (u, id, origin) ∈ (net.node v).pendingIhave) ∨
    (v, .graft u id) ∈ net.flight

/-- An event of `u` goes to one of its peers, and a body is what `u` has. -/
def Genuine (o : Overlay) (t : Plumtree) (u : NodeId) (ev : Event) : Prop :=
  edge o u ev.dest ∧ ∀ dest msg, ev = .eager dest msg →
    msg.sender = u ∧ t.get msg.id = some msg.payload

/-- What a node keeps about its peers and its messages. -/
structure Settled (o : Overlay) (sent : List (MsgId × Bytes)) (u : NodeId)
    (t : Plumtree) : Prop where
  me : t.me = u
  views : t.Views (o.peers u)
  pending : ∀ p ∈ t.pendingIhave, edge o p.1 u
  seen : ∀ id payload, t.get id = some payload → (id, payload) ∈ sent

structure Inv (o : Overlay) (net : Network) : Prop where
  settled : ∀ u ∈ o.nodes, Settled o net.sent u (net.node u)
  flight : ∀ x ∈ net.flight, Genuine o (net.node x.1) x.1 x.2
  distinct : (net.sent.map Prod.fst).Nodup
  flooding : ∀ m ∈ net.sent, Flooding (edge o) (net.Has m.1) (net.Owes m.1)
  started : ∀ m ∈ net.sent, ∃ u ∈ o.nodes, net.Has m.1 u

variable {o : Overlay} {net : Network} {u v : NodeId} {t : Plumtree} {events : List Event}
  {sent : List (MsgId × Bytes)}

theorem edge_symm (h : edge o u v) : edge o v u := o.both u h.1 v h.2

theorem mem_put {x : NodeId × Event} : x ∈ (net.put u (events, t)).flight ↔
    x ∈ net.flight ∨ x.1 = u ∧ x.2 ∈ events := by
  obtain ⟨a, ev⟩ := x
  simp only [put, List.mem_append, List.mem_map, Prod.mk.injEq]
  constructor
  · rintro (h | ⟨ev', hev, rfl, rfl⟩)
    · exact .inl h
    · exact .inr ⟨rfl, hev⟩
  · rintro (h | ⟨rfl, hev⟩)
    · exact .inl h
    · exact .inr ⟨ev, hev, rfl, rfl⟩

/-- What a node does when it receives an event, ticks or originates a message. It forgets nothing,
turns announcements into requests, and tells its peers what it has learned. -/
structure Moves (o : Overlay) (net : Network) (sent : List (MsgId × Bytes)) (u : NodeId)
    (events : List Event) (t : Plumtree) : Prop where
  settled : Settled o sent u t
  genuine : ∀ ev ∈ events, Genuine o t u ev
  keeps : ∀ id payload, (net.node u).get id = some payload → t.get id = some payload
  pending : ∀ p ∈ (net.node u).pendingIhave,
    p ∈ t.pendingIhave ∨ (t.get p.2.1).isSome ∨ .graft p.1 p.2.1 ∈ events
  learned : ∀ id, ¬ net.Has id u → (t.get id).isSome → ∀ v ∈ o.peers u, net.Has id v ∨
    (∃ msg : Msg, msg.id = id ∧ .eager v msg ∈ events) ∨ ∃ sender, .iHave v id sender ∈ events

variable {id : MsgId}

theorem Moves.has (h : Moves o net sent u events t) (hv : net.Has id v) :
    Has (put { net with sent := sent } u (events, t)) id v := by
  unfold Has put at *
  dsimp only
  by_cases hvu : v = u
  · subst hvu
    rw [update_self]
    obtain ⟨payload, hpayload⟩ := Option.isSome_iff_exists.mp hv
    rw [h.keeps id payload hpayload]
    rfl
  · rwa [update_of_ne hvu]

/-- What is owed stays owed, or is settled. -/
theorem Moves.owes (h : Moves o net sent u events t) {a b : NodeId}
    (howed : net.Owes id a b) : Has (put { net with sent := sent } u (events, t)) id b ∨
      Owes (put { net with sent := sent } u (events, t)) id a b := by
  rcases howed with ⟨msg, hid, hx⟩ | ⟨sender, hx⟩ | ⟨origin, hp⟩ | hx
  · exact .inr (.inl ⟨msg, hid, mem_put.mpr (.inl hx)⟩)
  · exact .inr (.inr (.inl ⟨sender, mem_put.mpr (.inl hx)⟩))
  · by_cases hbu : b = u
    · subst hbu
      rcases h.pending _ hp with hp | hseen | hgraft
      · refine .inr (.inr (.inr (.inl ⟨origin, ?_⟩)))
        simp only [put, update_self]
        exact hp
      · left
        simp only [Has, put, update_self]
        exact hseen
      · exact .inr (.inr (.inr (.inr (mem_put.mpr (.inr ⟨rfl, hgraft⟩)))))
    · refine .inr (.inr (.inr (.inl ⟨origin, ?_⟩)))
      simp only [put, update_of_ne hbu]
      exact hp
  · exact .inr (.inr (.inr (.inr (mem_put.mpr (.inl hx)))))

/-- A node moves. -/
theorem Inv.put (h : Inv o net) (hu : u ∈ o.nodes) {x : List Event × Plumtree}
    (hmoves : Moves o net sent u x.1 x.2) (hold : ∀ m ∈ net.sent, m ∈ sent)
    (hdistinct : (sent.map Prod.fst).Nodup)
    (hnew : ∀ m ∈ sent, m ∈ net.sent ∨ (x.2.get m.1).isSome) :
    Inv o (Network.put { net with sent := sent } u x) := by
  obtain ⟨events, t⟩ := x
  refine ⟨fun v hv => ?_, fun x hx => ?_, hdistinct, fun m hm => ?_, fun m hm => ?_⟩
  · simp only [Network.put]
    by_cases hvu : v = u
    · subst hvu
      rw [update_self]
      exact hmoves.settled
    · rw [update_of_ne hvu]
      have hsettled := h.settled v hv
      exact ⟨hsettled.me, hsettled.views, hsettled.pending,
        fun id payload hid => hold _ (hsettled.seen id payload hid)⟩
  · simp only [Network.put]
    rcases mem_put.mp hx with hx | ⟨rfl, hev⟩
    · obtain ⟨hedge, hbody⟩ := h.flight x hx
      refine ⟨hedge, fun dest msg heq => ?_⟩
      obtain ⟨hsender, hget⟩ := hbody dest msg heq
      refine ⟨hsender, ?_⟩
      by_cases hxu : x.1 = u
      · rw [hxu, update_self]
        exact hmoves.keeps _ _ (hxu ▸ hget)
      · rwa [update_of_ne hxu]
    · rw [update_self]
      exact hmoves.genuine _ hev
  · -- before the step the message floods too: it was under way, or nobody had it
    have hflood : Flooding (edge o) (net.Has m.1) (net.Owes m.1) := by
      by_cases hsent : m ∈ net.sent
      · exact h.flooding m hsent
      · intro a b hab ha
        obtain ⟨payload, hpayload⟩ := Option.isSome_iff_exists.mp ha
        have hseen := (h.settled a hab.1).seen _ _ hpayload
        have heq := List.inj_on_of_nodup_map hdistinct (hold _ hseen) hm rfl
        exact absurd (heq ▸ hseen) hsent
    refine hflood.step (fun a ha => hmoves.has ha) (fun a b _ _ howed => hmoves.owes howed)
      fun a b hab hnot ha => ?_
    -- only `u` has learned something, and it has told all its peers
    have hau : a = u := by
      by_contra hau
      unfold Has Network.put at ha
      dsimp only at ha
      rw [update_of_ne hau] at ha
      exact hnot ha
    subst hau
    have hget : (t.get m.1).isSome := by
      unfold Has Network.put at ha
      dsimp only at ha
      rwa [update_self] at ha
    rcases hmoves.learned m.1 hnot hget b hab.2 with hb | ⟨msg, hid, hx⟩ | ⟨sender, hx⟩
    · exact .inl (hmoves.has hb)
    · exact .inr (.inl ⟨msg, hid, mem_put.mpr (.inr ⟨rfl, hx⟩)⟩)
    · exact .inr (.inr (.inl ⟨sender, mem_put.mpr (.inr ⟨rfl, hx⟩)⟩))
  · rcases hnew m hm with hsent | hget
    · obtain ⟨a, ha, hhas⟩ := h.started m hsent
      exact ⟨a, ha, hmoves.has hhas⟩
    · refine ⟨u, hu, ?_⟩
      simp only [Has, Network.put, update_self]
      exact hget

/-! ## Delivered events -/

/-- An event has been delivered: what it is good for is there. -/
def Handled (net : Network) (src : NodeId) : Event → Prop
  | .eager dest msg => net.Has msg.id dest
  | .iHave dest id _ => net.Has id dest ∨ ∃ origin, (src, id, origin) ∈ (net.node dest).pendingIhave
  | .graft dest id => net.Has id dest → ∃ msg :
    Msg, msg.id = id ∧ (dest, .eager src msg) ∈ net.flight
  | .prune _ => True

variable {src dest : NodeId}

/-- An event that has been delivered is no longer under way. -/
theorem Inv.drop (h : Inv o net) {ev : Event} (hhandled : net.Handled src ev)
    {flight : List (NodeId × Event)} (hsub : ∀ x ∈ flight, x ∈ net.flight)
    (hrest : ∀ x ∈ net.flight, x ∈ flight ∨ x = (src, ev)) :
      Inv o { net with flight := flight } := by
  refine ⟨h.settled, fun x hx => h.flight x (hsub x hx), h.distinct, fun m hm => ?_, h.started⟩
  refine (h.flooding m hm).step (fun _ ha => ha) (fun a b _ ha howed => ?_)
    fun a b _ hnot ha => absurd ha hnot
  rcases howed with ⟨msg, hid, hx⟩ | ⟨sender, hx⟩ | hp | hx
  · rcases hrest _ hx with hx | heq
    · exact .inr (.inl ⟨msg, hid, hx⟩)
    · cases heq
      exact .inl (hid ▸ hhandled)
  · rcases hrest _ hx with hx | heq
    · exact .inr (.inr (.inl ⟨sender, hx⟩))
    · cases heq
      exact hhandled.imp id fun hp => .inr (.inr (.inl hp))
  · exact .inr (.inr (.inr (.inl hp)))
  · rcases hrest _ hx with hx | heq
    · exact .inr (.inr (.inr (.inr hx)))
    · cases heq
      obtain ⟨msg, hid, hx⟩ := hhandled ha
      rcases hrest _ hx with hx | heq
      · exact .inr (.inl ⟨msg, hid, hx⟩)
      · cases heq

/-! ## The handlers -/

section

variable (h : Inv o net)
include h

/-- A node that learns no message: its views change, it queues an announcement or answers. -/
theorem Moves.of_get (hu : u ∈ o.nodes) (hme : t.me = (net.node u).me)
    (hviews : t.Views (o.peers u)) (hget : ∀ id, t.get id = (net.node u).get id)
    (hpending : ∀ p ∈ t.pendingIhave, edge o p.1 u) (hevents : ∀ ev ∈ events, Genuine o t u ev)
    (hkept : ∀ p ∈ (net.node u).pendingIhave,
      p ∈ t.pendingIhave ∨ (t.get p.2.1).isSome ∨ .graft p.1 p.2.1 ∈ events) :
    Moves o net net.sent u events t := by
  have hsettled := h.settled u hu
  refine ⟨⟨hme.trans hsettled.me, hviews, hpending, fun id payload hid => ?_⟩, hevents,
    fun id payload hid => (hget id).trans hid, hkept, fun id hnot hseen => ?_⟩
  · exact hsettled.seen id payload ((hget id).symm.trans hid)
  · rw [hget] at hseen
    exact absurd hseen hnot

/-- A node that stores a new message and passes it on to the peers that `keep` admits. The others
have it already. -/
theorem Moves.of_store (hu : u ∈ o.nodes) {payload : Bytes}
    (hold : ∀ m ∈ net.sent, m ∈ sent) (hin : (id, payload) ∈ sent)
    (hunseen : (net.node u).get id = none) (order : Order) {keep : NodeId → Bool}
    (hkeep : ∀ v ∈ o.peers u, keep v = true ∨ net.Has id v)
    (ht : t = { net.node u with seen := (id, payload) :: (net.node u).seen }) :
    Moves o net sent u (t.fanout order id payload keep) t := by
  have hsettled := h.settled u hu
  have hget : ∀ id', t.get id' = if id' = id then some payload else (net.node u).get id' := by
    rw [ht]
    exact fun id' => Plumtree.get_cons _ id id' payload
  have hme : t.me = u := by rw [ht]; exact hsettled.me
  have hviews : t.Views (o.peers u) :=
    by rw [ht]; exact ⟨hsettled.views.disjoint, hsettled.views.peers⟩
  have hpending : t.pendingIhave = (net.node u).pendingIhave := by rw [ht]
  refine ⟨⟨hme, hviews, hpending ▸ hsettled.pending, fun id' payload' hid => ?_⟩, fun ev hev => ?_,
    fun id' payload' hid => ?_, fun p hp => .inl (hpending ▸ hp), fun id' hnot hseen v hv => ?_⟩
  · rw [hget] at hid
    split_ifs at hid with heq
    · cases hid
      exact heq ▸ hin
    · exact hold _ (hsettled.seen _ _ hid)
  · obtain ⟨n, -, ⟨hn, rfl⟩ | ⟨hn, rfl⟩⟩ := Plumtree.mem_fanout.mp hev
    · refine ⟨⟨hu, (hviews.peers n).mp (.inl hn)⟩, fun dest msg heq => ?_⟩
      cases heq
      exact ⟨hme, by rw [hget, if_pos rfl]⟩
    · exact ⟨⟨hu, (hviews.peers n).mp (.inr hn)⟩, fun _ _ heq => by cases heq⟩
  · rw [hget]
    split_ifs with heq
    · rw [heq, hunseen] at hid
      cases hid
    · exact hid
  · rw [hget] at hseen
    split_ifs at hseen with heq
    · subst heq
      rcases hkeep v hv with hk | hhas
      · rcases (hviews.peers v).mpr hv with heager | hlazy
        · exact .inr (.inl ⟨_, rfl, Plumtree.mem_fanout.mpr ⟨v, hk, .inl ⟨heager, rfl⟩⟩⟩)
        · exact .inr (.inr ⟨_, Plumtree.mem_fanout.mpr ⟨v, hk, .inr ⟨hlazy, rfl⟩⟩⟩)
      · exact .inl hhas
    · exact absurd hseen hnot

theorem moves_broadcast (hu : u ∈ o.nodes) (payload : Bytes)
    (hnew : id ∉ net.sent.map Prod.fst) (order : Order) :
    Moves o net ((id, payload) :: net.sent) u ((net.node u).broadcast order payload id).1
      ((net.node u).broadcast order payload id).2 ∧
      (((net.node u).broadcast order payload id).2.get id).isSome := by
  have hunseen : (net.node u).get id = none := by
    by_contra hseen
    obtain ⟨payload', hpayload⟩ := Option.ne_none_iff_exists'.mp hseen
    exact hnew (List.mem_map_of_mem ((h.settled u hu).seen _ _ hpayload))
  have hnone : ¬ ((net.node u).get id).isSome := by rw [hunseen]; exact Bool.false_ne_true
  unfold Plumtree.broadcast
  rw [if_neg hnone]
  refine ⟨.of_store h hu (fun m hm => List.mem_cons_of_mem _ hm) List.mem_cons_self hunseen order
    (fun _ _ => .inl rfl) rfl, ?_⟩
  rw [Plumtree.get_cons, if_pos rfl]
  rfl

theorem moves_onReceive {msg : Msg} (hx : (src, .eager dest msg) ∈ net.flight) (order : Order) :
    Moves o net net.sent dest ((net.node dest).onReceive order msg).1
        ((net.node dest).onReceive order msg).2 ∧
      (((net.node dest).onReceive order msg).2.get msg.id).isSome := by
  obtain ⟨hedge, hbody⟩ := h.flight _ hx
  obtain ⟨hsender, hget⟩ := hbody dest msg rfl
  have hu : dest ∈ o.nodes := (edge_symm hedge).1
  have hsettled := h.settled dest hu
  have hviews := hsettled.views.onReceive order msg
  by_cases hseen : ((net.node dest).get msg.id).isSome
  · obtain ⟨hprune, hkeeps⟩ := Plumtree.onReceive_seen order hseen
    have hsame : ∀ id, ((net.node dest).onReceive order msg).2.get id = (net.node dest).get id :=
      fun id => by rw [Plumtree.get, hkeeps.seen, Plumtree.get]
    refine ⟨.of_get h hu ?_ hviews hsame ?_ (fun ev hev => ?_) fun p hp => .inl ?_, ?_⟩
    · unfold Plumtree.onReceive
      rw [if_pos hseen]
      split <;> rfl
    · rw [hkeeps.pending]
      exact hsettled.pending
    · rw [hprune ev hev]
      refine ⟨?_, fun _ _ heq => by cases heq⟩
      rw [Event.dest, hsender]
      exact edge_symm hedge
    · rwa [hkeeps.pending]
    · rwa [hsame]
  · have hunseen := Option.not_isSome_iff_eq_none.mp hseen
    unfold Plumtree.onReceive
    rw [if_neg hseen]
    refine ⟨.of_store h hu (fun m hm => hm) ((h.settled src hedge.1).seen _ _ hget) hunseen order
      (fun v _ => ?_) rfl, ?_⟩
    · by_cases hv : v = msg.sender
      · exact .inr (by rw [Has, hv, hsender, hget]; rfl)
      · exact .inl (decide_eq_true hv)
    · rw [Plumtree.get_cons, if_pos rfl]
      rfl

theorem moves_onIhave {sender : NodeId} (hx : (src, .iHave dest id sender) ∈ net.flight) :
    Moves o net net.sent dest [] ((net.node dest).onIhave src id sender) ∧
      ((((net.node dest).onIhave src id sender).get id).isSome ∨
        (src, id, sender) ∈ ((net.node dest).onIhave src id sender).pendingIhave) := by
  obtain ⟨hedge, -⟩ := h.flight _ hx
  have hu : dest ∈ o.nodes := (edge_symm hedge).1
  have hsettled := h.settled dest hu
  unfold Plumtree.onIhave
  split_ifs with hseen
  · exact ⟨.of_get h hu rfl hsettled.views (fun _ => rfl) hsettled.pending nofun
      fun p hp => .inl hp,
      .inl hseen⟩
  · refine ⟨.of_get h hu rfl ⟨hsettled.views.disjoint, hsettled.views.peers⟩ (fun _ => rfl)
      (fun p hp => ?_) nofun fun p hp => .inl (List.mem_append_left _ hp),
      .inr (List.mem_append_right _ (List.mem_singleton_self _))⟩
    rcases List.mem_append.mp hp with hp | hp
    · exact hsettled.pending p hp
    · rw [List.mem_singleton.mp hp]
      exact hedge

theorem moves_onGraft (hx : (src, .graft dest id) ∈ net.flight) :
    Moves o net net.sent dest ((net.node dest).onGraft src id).1
      ((net.node dest).onGraft src id).2 ∧
      (∀ id', ((net.node dest).onGraft src id).2.get id' = (net.node dest).get id') ∧
      (net.Has id dest → ∃ msg : Msg, msg.id = id ∧
        .eager src msg ∈ ((net.node dest).onGraft src id).1) := by
  obtain ⟨hedge, -⟩ := h.flight _ hx
  have hback := edge_symm hedge
  have hsettled := h.settled dest hback.1
  obtain ⟨hnext, hanswer, hbody⟩ := Plumtree.onGraft_spec (net.node dest) src id
  rw [hnext]
  refine ⟨.of_get h hback.1 rfl (hsettled.views.promote hback.2) (fun _ => rfl) hsettled.pending
    (fun ev hev => ?_) fun p hp => .inl hp, fun _ => rfl, fun hhas => ?_⟩
  · obtain ⟨payload, hpayload, rfl⟩ := hanswer ev hev
    refine ⟨hback, fun _ _ heq => ?_⟩
    cases heq
    exact ⟨hsettled.me, hpayload⟩
  · obtain ⟨payload, hpayload⟩ := Option.isSome_iff_exists.mp hhas
    exact ⟨_, rfl, hbody payload hpayload⟩

theorem moves_onPrune (hx : (src, .prune dest) ∈ net.flight) :
    Moves o net net.sent dest [] ((net.node dest).onPrune src) := by
  obtain ⟨hedge, -⟩ := h.flight _ hx
  have hu : dest ∈ o.nodes := (edge_symm hedge).1
  have hsettled := h.settled dest hu
  have hkeeps := Plumtree.onPrune_keeps (net.node dest) src
  refine .of_get h hu ?_ (hsettled.views.onPrune src) (fun id => ?_) ?_ nofun fun p hp => .inl ?_
  · unfold Plumtree.onPrune
    split <;> rfl
  · rw [Plumtree.get, hkeeps.seen, Plumtree.get]
  · rw [hkeeps.pending]
    exact hsettled.pending
  · rwa [hkeeps.pending]

theorem moves_tick (hu : u ∈ o.nodes) :
    Moves o net net.sent u (net.node u).tick.1 (net.node u).tick.2 := by
  have hsettled := h.settled u hu
  refine .of_get h hu rfl ⟨hsettled.views.disjoint, hsettled.views.peers⟩ (fun _ => rfl) nofun
    (fun ev hev => ?_) fun p hp => .inr ?_
  · obtain ⟨p, hp, rfl⟩ := List.mem_map.mp hev
    exact ⟨edge_symm (hsettled.pending p (List.mem_of_mem_filter hp)), fun _ _ heq => by cases heq⟩
  · by_cases hseen : ((net.node u).get p.2.1).isSome
    · exact .inl hseen
    · refine .inr (List.mem_map.mpr ⟨p, List.mem_filter.mpr ⟨hp, ?_⟩, rfl⟩)
      rw [Option.not_isSome_iff_eq_none.mp hseen]
      rfl

end

/-! ## Runs -/

theorem inv_start (o : Overlay) : Inv o (start o) := by
  have hfold : ∀ (u : NodeId) (peers : List NodeId),
      (peers.foldl Plumtree.addPeer (.new u)).me = u ∧
        (peers.foldl Plumtree.addPeer (.new u)).pendingIhave = [] ∧
        (peers.foldl Plumtree.addPeer (.new u)).seen = [] := by
    intro u peers
    induction peers using List.reverseRecOn with
    | nil => exact ⟨rfl, rfl, rfl⟩
    | append_singleton peers peer ih =>
      rw [List.foldl_append]
      exact ih
  refine ⟨fun u _ => ?_, nofun, List.nodup_nil, nofun, nofun⟩
  obtain ⟨hme, hpending, hseen⟩ := hfold u (o.peers u)
  refine ⟨hme, Plumtree.views_addPeers u (o.peers u), ?_, fun id payload hid => ?_⟩
  · rw [start, hpending]
    exact nofun
  · rw [start, Plumtree.get, hseen] at hid
    cases hid

/-- The event is delivered to its destination, which handles it. -/
theorem Inv.deliver (h : Inv o net) {ev : Event} (hx : (src, ev) ∈ net.flight)
    {x : List Event × Plumtree} (hmoves : Moves o net net.sent ev.dest x.1 x.2)
    (hhandled : (net.put ev.dest x).Handled src ev) :
    Inv o (Network.put { net with flight := net.flight.erase (src, ev) } ev.dest x) := by
  have hu : ev.dest ∈ o.nodes := (edge_symm (h.flight _ hx).1).1
  refine (h.put hu hmoves (fun m hm => hm) h.distinct fun m hm => .inl hm).drop hhandled
    (fun x hx => ?_) fun x hx => ?_
  · exact (List.mem_append.mp hx).elim (fun hx => List.mem_append_left _ (List.mem_of_mem_erase hx))
      (List.mem_append_right _)
  · by_cases heq : x = (src, ev)
    · exact .inr heq
    · left
      exact (List.mem_append.mp hx).elim
        (fun hx => List.mem_append_left _ ((List.mem_erase_of_ne heq).mpr hx))
        (List.mem_append_right _)

theorem inv_step {a : Action} {net' : Network} (h : Inv o net) (hok : net.Distinct a)
    (hstep : net.step o a = some net') : Inv o net' := by
  cases a with
  | broadcast u payload id order =>
    obtain ⟨hu, heq⟩ := Option.ite_none_right_eq_some.mp hstep
    cases heq
    obtain ⟨hmoves, hhas⟩ := moves_broadcast h hu payload hok order
    refine h.put hu hmoves (fun m hm => List.mem_cons_of_mem _ hm)
      (List.nodup_cons.mpr ⟨hok, h.distinct⟩) fun m hm => ?_
    rcases List.mem_cons.mp hm with rfl | hm
    · exact .inr hhas
    · exact .inl hm
  | deliver src ev order =>
    obtain ⟨hx, heq⟩ := Option.ite_none_right_eq_some.mp hstep
    cases heq
    have hself : ∀ w x, (net.put w x).node w = x.2 := fun _ _ => update_self ..
    cases ev with
    | eager dest msg =>
      obtain ⟨hmoves, hhas⟩ := moves_onReceive h hx order
      refine h.deliver hx hmoves ?_
      show (((net.put dest _).node dest).get msg.id).isSome
      rw [hself]
      exact hhas
    | iHave dest id sender =>
      obtain ⟨hmoves, hhas⟩ := moves_onIhave h hx
      refine h.deliver (x := ([], _)) hx hmoves ?_
      show (((net.put dest _).node dest).get id).isSome ∨
        ∃ origin, (src, id, origin) ∈ ((net.put dest _).node dest).pendingIhave
      rw [hself]
      exact hhas.imp_right fun hp => ⟨sender, hp⟩
    | graft dest id =>
      obtain ⟨hmoves, hsame, hbody⟩ := moves_onGraft h hx
      refine h.deliver hx hmoves fun hhas => ?_
      have hhas : (((net.put dest _).node dest).get id).isSome := hhas
      rw [hself] at hhas
      obtain ⟨msg, hid, hev⟩ := hbody (by rwa [Has, ← hsame])
      exact ⟨msg, hid, mem_put.mpr (.inr ⟨rfl, hev⟩)⟩
    | prune dest => exact h.deliver (x := ([], _)) hx (moves_onPrune h hx) trivial
  | tick u =>
    obtain ⟨hu, heq⟩ := Option.ite_none_right_eq_some.mp hstep
    cases heq
    exact h.put hu (moves_tick h hu) (fun m hm => hm) h.distinct fun m hm => .inl hm

theorem inv_reachable (h : Reachable (step o) Distinct (start o) net) : Inv o net :=
  h.invariant (inv_start o) fun _ _ _ _ hinv hok hstep => inv_step hinv hok hstep

/-- Without debts a message has reached every node. -/
theorem Inv.has (h : Inv o net) (hquiet : net.Quiet o) {m : MsgId × Bytes} (hm : m ∈ net.sent)
    (hu : u ∈ o.nodes) : net.Has m.1 u := by
  obtain ⟨w, hw, hhas⟩ := h.started m hm
  have hpath : Relation.ReflTransGen (edge o) w u := by
    have hall : ∀ v, Relation.ReflTransGen (fun a b => b ∈ o.peers a) w v →
        v ∈ o.nodes ∧ Relation.ReflTransGen (edge o) w v := by
      intro v hv
      induction hv with
      | refl => exact ⟨hw, .refl⟩
      | tail _ hlast ih => exact ⟨(o.both _ ih.1 _ hlast).1, ih.2.tail ⟨ih.1, hlast⟩⟩
    exact (hall u (o.connected w hw u hu)).2
  refine (h.flooding m hm).informed_of_path (fun a b hab howed => ?_) hpath hhas
  rcases howed with ⟨msg, -, hx⟩ | ⟨sender, hx⟩ | ⟨origin, hp⟩ | hx
  · exact List.not_mem_nil (hquiet.flight ▸ hx)
  · exact List.not_mem_nil (hquiet.flight ▸ hx)
  · exact List.not_mem_nil (hquiet.pending b (edge_symm hab).1 ▸ hp)
  · exact List.not_mem_nil (hquiet.flight ▸ hx)

/-- With nothing under way and nothing pending every node has every message, as it was originated.
At all times the two views of a node are disjoint and hold its peers. -/
theorem delivered (h : Reachable (step o) Distinct (start o) net) :
    (net.Quiet o → ∀ u ∈ o.nodes, ∀ m ∈ net.sent, (net.node u).get m.1 = some m.2) ∧
      ∀ u ∈ o.nodes, (net.node u).Views (o.peers u) := by
  have hinv := inv_reachable h
  refine ⟨fun hquiet u hu m hm => ?_, fun u hu => (hinv.settled u hu).views⟩
  obtain ⟨payload, hpayload⟩ := Option.isSome_iff_exists.mp (hinv.has hquiet hm hu)
  have hsent := (hinv.settled u hu).seen _ _ hpayload
  have heq := List.inj_on_of_nodup_map hinv.distinct hsent hm rfl
  rw [hpayload, ← heq]

end Network

namespace Demo

open Network

def left : NodeId := .replicate 32 1
def right : NodeId := .replicate 32 2

/-- Two nodes that know each other. -/
def pair : Overlay where
  nodes := [left, right]
  peers u := if u = left then [right] else if u = right then [left] else []
  both := by
    have hne : right ≠ left := by decide
    intro u hu v hv
    rcases List.mem_pair.mp hu with rfl | rfl
    · rw [if_pos rfl] at hv
      obtain rfl := List.mem_singleton.mp hv
      exact ⟨by simp, by simp [hne]⟩
    · rw [if_neg hne, if_pos rfl] at hv
      obtain rfl := List.mem_singleton.mp hv
      exact ⟨by simp, by simp⟩
  connected := by
    have hne : right ≠ left := by decide
    intro u hu v hv
    rcases List.mem_pair.mp hu with rfl | rfl <;> rcases List.mem_pair.mp hv with rfl | rfl
    · exact .refl
    · exact .single (by simp)
    · exact .single (by simp [hne])
    · exact .refl

def listOrder : Order := ⟨fun _ l => l, fun _ l => l, fun _ _ => .refl _, fun _ _ => .refl _⟩

instance (net : Network) : Decidable (net.Quiet pair) :=
  decidable_of_iff (net.flight = [] ∧
      (net.node left).pendingIhave = [] ∧ (net.node right).pendingIhave = [])
    ⟨fun h => ⟨h.1, fun _ hu => (List.mem_pair.mp hu).elim (· ▸ h.2.1) (· ▸ h.2.2)⟩,
      fun h => ⟨h.flight, h.pending _ (by simp [pair]), h.pending _ (by simp [pair])⟩⟩

instance (net : Network) : (a : Action) → Decidable (net.Distinct a)
  | .broadcast _ _ id _ => inferInstanceAs (Decidable (id ∉ net.sent.map Prod.fst))
  | .deliver _ _ _ | .tick _ => .isTrue trivial

/-- The two nodes originate a message each, before that of the other one is there. -/
theorem delivered_pair : ∃ net, Reachable (step pair) Distinct (start pair) net ∧
    net.Quiet pair ∧ net.sent.length = 2 ∧
    ∀ u ∈ pair.nodes, ∀ m ∈ net.sent, (net.node u).get m.1 = some m.2 := by
  have hrun : ∃ net, Reachable (step pair) Distinct (start pair) net ∧
      net.Quiet pair ∧ net.sent.length = 2 :=
    Reachable.of_exec
      [.broadcast left [1] (.replicate 32 7) listOrder,
        .broadcast right [2] (.replicate 32 8) listOrder,
        .deliver left (.eager right ⟨.replicate 32 7, [1], left⟩) listOrder,
        .deliver right (.eager left ⟨.replicate 32 8, [2], right⟩) listOrder]
      (by decide +kernel)
  obtain ⟨net, hreach, hquiet, hsent⟩ := hrun
  exact ⟨net, hreach, hquiet, hsent, (delivered hreach).1 hquiet⟩

end Demo

end P2P333.Gossip333
