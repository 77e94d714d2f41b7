import P2P333.Lib.Bytes

/-!
# The Plumtree broadcaster

`InMemoryPlumtree` of `333-gossip/src/lib.rs`: the eager and the lazy view of one node, the messages
it has seen and the announcements it has not acted on. Every operation returns the events that the
transport is to send.

The views are hash sets in the source. Here a view is a list that is used as a set, and the order in
which a loop visits it is an input of the operation (`Order`). A node loops over its views once for
each message, when it is new, so an order is given for each message id.

Results:
1. `Plumtree.Keeps`: a duplicate and a prune move peers between the views and do nothing else.
2. `Plumtree.mem_fanout`: a new message is pushed or announced to every peer but the one it came
   from.
3. `Plumtree.Views`: the two views are disjoint and hold the peers, whatever is received.
-/

namespace P2P333.Gossip333

open Lib

/-! ## Data -/

/-- `identity333::NodeId`, a key of 32 bytes. -/
abbrev NodeId := List.Vector UInt8 32

abbrev MsgId := List.Vector UInt8 32

structure Msg where
  id : MsgId
  payload : Bytes
  sender : NodeId
deriving DecidableEq

/-- Outbound events, each with its destination. -/
inductive Event where
  | eager (dest : NodeId) (msg : Msg)
  | iHave (dest : NodeId) (id : MsgId) (sender : NodeId)
  | graft (dest : NodeId) (id : MsgId)
  | prune (dest : NodeId)
deriving DecidableEq

def Event.dest : Event → NodeId
  | .eager dest _ | .iHave dest _ _ | .graft dest _ | .prune dest => dest

/-- The orders in which the two views are visited when a message is new. -/
structure Order where
  eager : MsgId → List NodeId → List NodeId
  lazy : MsgId → List NodeId → List NodeId
  eager_perm : ∀ id l, (eager id l).Perm l
  lazy_perm : ∀ id l, (lazy id l).Perm l

/-- `HashMap::insert` is `cons` here: a lookup finds the newest entry. -/
structure Plumtree where
  me : NodeId
  eager : List NodeId
  lazy : List NodeId
  seen : List (MsgId × Bytes)
  pendingIhave : List (NodeId × MsgId × NodeId)
deriving DecidableEq

/-! ## Operations -/

def remove (peer : NodeId) (view : List NodeId) : List NodeId := view.filter (· ≠ peer)

namespace Plumtree

def new (me : NodeId) : Plumtree := ⟨me, [], [], [], []⟩

/-- The views stay disjoint: adding a pruned peer promotes it. -/
def addPeer (t : Plumtree) (peer : NodeId) : Plumtree :=
  { t with lazy := remove peer t.lazy, eager := t.eager.insert peer }

def get (t : Plumtree) (id : MsgId) : Option Bytes := t.seen.lookup id

/-- Push to the eager peers, announce to the lazy ones, in both cases to those that `keep` admits.
-/
def fanout (t : Plumtree) (order : Order) (id : MsgId) (payload : Bytes) (keep : NodeId → Bool) :
    List Event :=
  ((order.eager id t.eager).filter keep).map (fun p => .eager p ⟨id, payload, t.me⟩) ++
    ((order.lazy id t.lazy).filter keep).map fun p => .iHave p id t.me

/-- Originate a message at this node. -/
def broadcast (t : Plumtree) (order : Order) (payload : Bytes) (id : MsgId) :
    List Event × Plumtree :=
  let t' := { t with seen := (id, payload) :: t.seen }
  if (t.get id).isSome then ([], t') else (t'.fanout order id payload fun _ => true, t')

/-- Receive a full payload: forward it, or prune the sender of a duplicate. -/
def onReceive (t : Plumtree) (order : Order) (msg : Msg) : List Event × Plumtree :=
  if (t.get msg.id).isSome then
    if msg.sender ∈ t.eager then
      ([.prune msg.sender],
        { t with eager := remove msg.sender t.eager, lazy := t.lazy.insert msg.sender })
    else ([], t)
  else
    let t' := { t with seen := (msg.id, msg.payload) :: t.seen }
    (t'.fanout order msg.id msg.payload fun p => decide (p ≠ msg.sender), t')

/-- Receive an announcement: it is queued for the next tick. -/
def onIhave (t : Plumtree) (hop : NodeId) (id : MsgId) (origin : NodeId) : Plumtree :=
  if (t.get id).isSome then t
  else { t with pendingIhave := t.pendingIhave ++ [(hop, id, origin)] }

/-- Receive a request: promote the peer and send it the body, if it is here. -/
def onGraft (t : Plumtree) (hop : NodeId) (id : MsgId) : List Event × Plumtree :=
  let t' := { t with lazy := remove hop t.lazy, eager := t.eager.insert hop }
  match t.get id with
  | some payload => ([.eager hop ⟨id, payload, t.me⟩], t')
  | none => ([], t')

def onPrune (t : Plumtree) (hop : NodeId) : Plumtree :=
  if hop ∈ t.eager then { t with eager := remove hop t.eager, lazy := t.lazy.insert hop } else t

/-- Drain the announcements into requests for what is still missing. -/
def tick (t : Plumtree) : List Event × Plumtree :=
  ((t.pendingIhave.filter fun e => (t.get e.2.1).isNone).map fun e => .graft e.1 e.2.1,
    { t with pendingIhave := [] })

/-! ## What the operations keep -/

/-- A peer of one of the two views. -/
def Peer (t : Plumtree) (n : NodeId) : Prop := n ∈ t.eager ∨ n ∈ t.lazy

variable {n hop : NodeId}

theorem mem_remove {peer : NodeId} {view : List NodeId} :
    n ∈ remove peer view ↔ n ∈ view ∧ n ≠ peer := by
  unfold remove
  rw [List.mem_filter, decide_eq_true_eq]

variable {t : Plumtree}

/-- Moving a peer to the eager view. -/
theorem peer_promote :
    Peer { t with lazy := remove hop t.lazy, eager := t.eager.insert hop } n ↔ n = hop ∨
    t.Peer n := by
  unfold Peer
  simp only [List.mem_insert_iff, mem_remove]
  by_cases hn : n = hop <;> simp [hn]

/-- Moving a peer to the lazy view. -/
theorem peer_demote (h : hop ∈ t.eager) :
    Peer { t with eager := remove hop t.eager, lazy := t.lazy.insert hop } n ↔ t.Peer n := by
  unfold Peer
  simp only [List.mem_insert_iff, mem_remove]
  by_cases hn : n = hop
  · simp [hn, h]
  · simp [hn]

/-- A new message goes to every peer that `keep` admits: pushed if it is eager, announced if it is
lazy. -/
theorem mem_fanout {order : Order} {id : MsgId} {payload : Bytes}
    {keep : NodeId → Bool} {ev : Event} :
    ev ∈ t.fanout order id payload keep ↔
      ∃ n, keep n = true ∧ (n ∈ t.eager ∧ ev = .eager n ⟨id, payload, t.me⟩ ∨
        n ∈ t.lazy ∧ ev = .iHave n id t.me) := by
  unfold fanout
  simp only [List.mem_append, List.mem_map, List.mem_filter, (order.eager_perm id _).mem_iff,
    (order.lazy_perm id _).mem_iff]
  constructor
  · rintro (⟨n, ⟨hn, hkeep⟩, rfl⟩ | ⟨n, ⟨hn, hkeep⟩, rfl⟩)
    · exact ⟨n, hkeep, .inl ⟨hn, rfl⟩⟩
    · exact ⟨n, hkeep, .inr ⟨hn, rfl⟩⟩
  · rintro ⟨n, hkeep, ⟨hn, rfl⟩ | ⟨hn, rfl⟩⟩
    · exact .inl ⟨n, ⟨hn, hkeep⟩, rfl⟩
    · exact .inr ⟨n, ⟨hn, hkeep⟩, rfl⟩

/-- The lookup after a message is stored. -/
theorem get_cons (t : Plumtree) (id id' : MsgId) (payload : Bytes) :
    get { t with seen := (id, payload) :: t.seen } id' =
      if id' = id then some payload else t.get id' := by
  unfold get
  rw [List.lookup_cons]
  by_cases h : id' = id
  · simp [h]
  · simp [h, beq_eq_false_iff_ne.mpr h]

/-- What an operation leaves that learns no message: the same messages and announcements, and the
same peers in the two views together. -/
structure Keeps (t t' : Plumtree) : Prop where
  seen : t'.seen = t.seen
  pending : t'.pendingIhave = t.pendingIhave
  peers : ∀ n, t'.Peer n ↔ t.Peer n

/-- A duplicate is answered with a prune at most. -/
theorem onReceive_seen (order : Order) {msg : Msg} (h : (t.get msg.id).isSome) :
    (∀ ev ∈ (t.onReceive order msg).1, ev = .prune msg.sender) ∧
      Keeps t (t.onReceive order msg).2 := by
  unfold onReceive
  rw [if_pos h]
  split
  · next heager =>
    exact ⟨fun ev hev => List.mem_singleton.mp hev, rfl, rfl, fun n => peer_demote heager⟩
  · exact ⟨fun ev hev => (by cases hev), rfl, rfl, fun n => Iff.rfl⟩

theorem onPrune_keeps (t : Plumtree) (hop : NodeId) : Keeps t (t.onPrune hop) := by
  unfold onPrune
  split
  · next heager => exact ⟨rfl, rfl, fun n => peer_demote heager⟩
  · exact ⟨rfl, rfl, fun n => Iff.rfl⟩

/-- A request promotes the peer, and is answered with the body if it is here. -/
theorem onGraft_spec (t : Plumtree) (hop : NodeId) (id : MsgId) :
    (t.onGraft hop id).2 =
        { t with lazy := remove hop t.lazy, eager := t.eager.insert hop } ∧
      (∀ ev ∈ (t.onGraft hop id).1, ∃ payload, t.get id = some payload ∧
        ev = .eager hop ⟨id, payload, t.me⟩) ∧
      ∀ payload, t.get id = some payload →
        .eager hop ⟨id, payload, t.me⟩ ∈ (t.onGraft hop id).1 := by
  unfold onGraft
  cases h : t.get id with
  | none => exact ⟨rfl, fun ev hev => (by cases hev), fun payload hp => (by cases hp)⟩
  | some payload =>
    refine ⟨rfl, fun ev hev => ⟨payload, rfl, List.mem_singleton.mp hev⟩, fun payload' hp => ?_⟩
    obtain rfl := Option.some.inj hp
    exact List.mem_singleton_self _

/-! ## The views -/

/-- The two views are disjoint and hold the peers. -/
structure Views (t : Plumtree) (peers : List NodeId) : Prop where
  disjoint : ∀ n ∈ t.eager, n ∉ t.lazy
  peers : ∀ n, t.Peer n ↔ n ∈ peers

variable {peers : List NodeId}

theorem Views.promote (h : t.Views peers) (hhop : hop ∈ peers) :
    Views { t with lazy := remove hop t.lazy, eager := t.eager.insert hop } peers where
  disjoint n hn hlazy := by
    obtain ⟨hlazy, hne⟩ := mem_remove.mp hlazy
    rcases List.mem_insert_iff.mp hn with heq | hn
    · exact hne heq
    · exact h.disjoint n hn hlazy
  peers n := by
    rw [peer_promote, h.peers]
    exact or_iff_right_of_imp fun heq => heq ▸ hhop

theorem Views.demote (h : t.Views peers) (hhop : hop ∈ t.eager) :
    Views { t with eager := remove hop t.eager, lazy := t.lazy.insert hop } peers where
  disjoint n hn hlazy := by
    obtain ⟨hn, hne⟩ := mem_remove.mp hn
    rcases List.mem_insert_iff.mp hlazy with heq | hlazy
    · exact hne heq
    · exact h.disjoint n hn hlazy
  peers n := (peer_demote hhop).trans (h.peers n)

theorem Views.onPrune (h : t.Views peers) (hop : NodeId) : (t.onPrune hop).Views peers := by
  unfold Plumtree.onPrune
  split
  · next heager => exact h.demote heager
  · exact h

theorem Views.onReceive (h : t.Views peers) (order : Order)
    (msg : Msg) : (t.onReceive order msg).2.Views peers := by
  unfold Plumtree.onReceive
  split
  · split
    · next heager => exact h.demote heager
    · exact h
  · exact ⟨h.disjoint, h.peers⟩

/-- The views of a node hold the peers that were added to it. -/
theorem views_addPeers (me : NodeId) (peers : List NodeId) :
    (peers.foldl addPeer (new me)).Views peers := by
  induction peers using List.reverseRecOn with
  | nil => exact ⟨nofun, fun n => by simp [Peer, new]⟩
  | append_singleton peers peer ih =>
    rw [List.foldl_append, List.foldl_cons, List.foldl_nil, addPeer]
    have hmore : Views { (peers.foldl addPeer (new me)) with
        lazy := remove peer (peers.foldl addPeer (new me)).lazy,
        eager := (peers.foldl addPeer (new me)).eager.insert peer } (peers ++ [peer]) := by
      refine ⟨fun n hn hlazy => ?_, fun n => ?_⟩
      · obtain ⟨hlazy, hne⟩ := mem_remove.mp hlazy
        rcases List.mem_insert_iff.mp hn with heq | hn
        · exact hne heq
        · exact ih.disjoint n hn hlazy
      · rw [peer_promote, ih.peers, List.mem_append, List.mem_singleton, or_comm]
    exact hmore

end Plumtree

end P2P333.Gossip333
