import P2P333.Gossip333.Plumtree
import P2P333.Lib.Transition
import P2P333.Transfer333.Codec.Wire

/-!
# Epidemic dissemination

`333-transfer/src/epidemic.rs`: authority messages over Plumtree. Endpoints share one fabric with a
mailbox for payloads and one for control messages under each name that has joined. An endpoint
drains both of its own, hands what it finds to its Plumtree and dispatches the events that come
back. Dispatch stops at the first event that cannot be sent.

Calls of the endpoints interleave in any order. The answers of the calls are not looked at, as in
`pump` and `poll`.

Results:
1. `Network.dispatchEvents_spec`: when every event can be sent, dispatch appends one message for
   each of them, to the mailbox of its destination.
-/

namespace P2P333.Transfer333.Epidemic

open Lib Gossip333 Function

/-! ## Ids -/

/-- FNV-1a over the input, closed with its length. -/
def fnv (input : Bytes) : UInt64 :=
  let h := input.foldl (fun h b => (h ^^^ b.toUInt64) * 0x100000001b3) 0xcbf29ce484222325
  (h ^^^ UInt64.ofNat input.length) * 0x100000001b3

/-- The seed `h` expanded into the lane `i`. -/
def lane (h i : UInt64) : Bytes :=
  let x := h + i * 0x9e3779b97f4a7c15
  let x := (x ^^^ (x >>> 30)) * 0xbf58476d1ce4e5b9
  let x := (x ^^^ (x >>> 27)) * 0x94d049bb133111eb
  leBytes 8 (x ^^^ (x >>> 31)).toNat

/-- The input bytes from position `i` on, mixed into the four lanes. -/
def scatter : Nat → Bytes → Bytes → Bytes
  | _, [], out => out
  | i, b :: rest, out =>
    scatter (i + 1) rest
      ((out.modify (i % 32) (· ^^^ (b * 31 + UInt8.ofNat i))).modify
      ((i * 7 + 13) % 32) (· + b * 3))

@[simp] theorem length_scatter (i : Nat) (input out : Bytes) :
    (scatter i input out).length = out.length := by
  induction input generalizing i out with
  | nil => rfl
  | cons b rest ih => rw [scatter, ih, List.length_modify, List.length_modify]

def stableHash32 (input : Bytes) : List.Vector UInt8 32 :=
  ⟨scatter 0 input (lane (fnv input) 0 ++ lane (fnv input) 1 ++ lane (fnv input) 2 ++
    lane (fnv input) 3), by simp [lane]⟩

/-- The bridge from names to gossip nodes. -/
def peerNodeId (peer : Str) : NodeId := stableHash32 peer.bytes

/-- Content-addressed id of an encoded message. -/
def msgIdOf (payload : Bytes) : MsgId := stableHash32 payload

/-! ## State -/

/-- What nodes say about messages that they have or lack. -/
inductive ControlMsg where
  | iHave (hop : Str) (id : MsgId) (origin : Str)
  | graft (hop : Str) (id : MsgId)
  | prune (hop : Str)
deriving DecidableEq

def ControlMsg.hop : ControlMsg → Str
  | .iHave hop _ _ | .graft hop _ | .prune hop => hop

/-- A peer that cannot be resolved is reported as `node:{n}`, one that cannot be reached by its
name. -/
inductive NetError where
  | unknownNode (n : NodeId)
  | unknownPeer (peer : Str)
  | io (e : WireError)
deriving DecidableEq

structure Endpoint where
  me : Str
  plumtree : Plumtree
  peers : List (NodeId × Str)
  appInbox : List AuthorityMsg
  deliverCounts : MsgId → Nat

/-- The fabric. `names` are the keys of both mailbox maps. -/
structure Network where
  names : List Str
  endpoint : Str → Endpoint
  mail : Str → List (Option Str × AuthorityMsg)
  control : Str → List ControlMsg

namespace Endpoint

/-- The endpoint that `join` returns. -/
def join (me : Str) : Endpoint := ⟨me, .new (peerNodeId me), [], [], fun _ => 0⟩

def addPeer (e : Endpoint) (peer : Str) : Endpoint :=
  if peer = e.me then e
  else { e with
    peers := (peerNodeId peer, peer) :: e.peers
    plumtree := e.plumtree.addPeer (peerNodeId peer) }

/-- `entry(n).or_insert_with(..)`: remember the hop, for the way back. -/
def remember (e : Endpoint) (hop : Str) : Endpoint :=
  if (e.peers.lookup (peerNodeId hop)).isSome then e
  else { e with peers := (peerNodeId hop, hop) :: e.peers }

def resolvePeer (e : Endpoint) (n : NodeId) : Except NetError Str :=
  match e.peers.lookup n with
  | some peer => .ok peer
  | none => .error (.unknownNode n)

/-- The name an announcement gives for the sender of the message. -/
def originOf (e : Endpoint) (sender : NodeId) : Str :=
  match e.resolvePeer sender with
  | .ok origin => origin
  | .error _ => e.me

def pushApp (e : Endpoint) (msg : AuthorityMsg) (id : MsgId) : Endpoint :=
  { e with
    deliverCounts := update e.deliverCounts id (e.deliverCounts id + 1)
    appInbox := e.appInbox ++ [msg] }

end Endpoint

/-! ## Sending -/

namespace Network

def setEndpoint (net : Network) (me : Str) (e : Endpoint) : Network :=
  { net with endpoint := update net.endpoint me e }

def deliverToFrom (net : Network) (peer : Str) (hop : Option Str) (msg : AuthorityMsg) :
    Except NetError Unit × Network :=
  if peer ∈ net.names then
    (.ok (), { net with mail := update net.mail peer (net.mail peer ++ [(hop, msg)]) })
  else (.error (.unknownPeer peer), net)

def controlDeliver (net : Network) (dest : Str) (msg : ControlMsg) :
    Except NetError Unit × Network :=
  if dest ∈ net.names then
    (.ok (), { net with control := update net.control dest (net.control dest ++ [msg]) })
  else (.error (.unknownPeer dest), net)

variable [KeyFormat]

/-- One event of the loop in `dispatch_events`. -/
def dispatchEvent (net : Network) (me : Str) (ev : Gossip333.Event) :
    Except NetError Unit × Network :=
  match (net.endpoint me).resolvePeer ev.dest with
  | .error e => (.error e, net)
  | .ok peer =>
    match ev with
    | .eager _ msg =>
      match decodeAuthorityMsg msg.payload with
      | .error e => (.error (.io e), net)
      | .ok auth => net.deliverToFrom peer (some me) auth
    | .iHave _ id sender =>
      net.controlDeliver peer (.iHave me id ((net.endpoint me).originOf sender))
    | .graft _ id => net.controlDeliver peer (.graft me id)
    | .prune _ => net.controlDeliver peer (.prune me)

/-- The first event that fails ends the loop. -/
def dispatchEvents (net : Network) (me : Str) : List Gossip333.Event →
    Except NetError Unit × Network
  | [] => (.ok (), net)
  | ev :: rest =>
    match net.dispatchEvent me ev with
    | (.error e, net) => (.error e, net)
    | (.ok (), net) => net.dispatchEvents me rest

/-! ## Receiving -/

def onEagerPayload (net : Network) (me hop : Str) (msg : AuthorityMsg) (order : Order) :
    Except NetError Unit × Network :=
  let e := (net.endpoint me).remember hop
  let payload := encodeAuthorityMsg msg
  let id := msgIdOf payload
  let already := (e.plumtree.get id).isSome
  let (events, plumtree) := e.plumtree.onReceive order ⟨id, payload, peerNodeId hop⟩
  let e := { e with plumtree }
  let e := if already then e else e.pushApp msg id
  (net.setEndpoint me e).dispatchEvents me events

def onControl (net : Network) (me : Str) : ControlMsg → Except NetError Unit × Network
  | .iHave hop id origin =>
    let e := (net.endpoint me).remember hop
    (net.setEndpoint me { e with
      plumtree := e.plumtree.onIhave (peerNodeId hop) id (peerNodeId origin) }).dispatchEvents me []
  | .graft hop id =>
    let e := (net.endpoint me).remember hop
    let (events, plumtree) := e.plumtree.onGraft (peerNodeId hop) id
    (net.setEndpoint me { e with plumtree }).dispatchEvents me events
  | .prune hop =>
    let e := net.endpoint me
    (.ok (), net.setEndpoint me { e with plumtree := e.plumtree.onPrune (peerNodeId hop) })

/-- The payloads that were drained, in order; `?` drops the rest of them. -/
def onHops (net : Network) (me : Str) (order : Order) :
    List (Option Str × AuthorityMsg) → Except NetError Unit × Network
  | [] => (.ok (), net)
  | (hop, msg) :: rest =>
    match net.onEagerPayload me (hop.getD me) msg order with
    | (.error e, net) => (.error e, net)
    | (.ok (), net) => net.onHops me order rest

def onControls (net : Network) (me : Str) : List ControlMsg → Except NetError Unit × Network
  | [] => (.ok (), net)
  | ctrl :: rest =>
    match net.onControl me ctrl with
    | (.error e, net) => (.error e, net)
    | (.ok (), net) => net.onControls me rest

def process (net : Network) (me : Str) (order : Order) : Except NetError Unit × Network :=
  match { net with mail := update net.mail me [] }.onHops me order (net.mail me) with
  | (.error e, net) => (.error e, net)
  | (.ok (), net) =>
    { net with control := update net.control me [] }.onControls me (net.control me)

def tick (net : Network) (me : Str) : Except NetError Unit × Network :=
  let e := net.endpoint me
  let (events, plumtree) := e.plumtree.tick
  (net.setEndpoint me { e with plumtree }).dispatchEvents me events

def broadcastMsg (net : Network) (me : Str) (msg : AuthorityMsg) (order : Order) :
    Except NetError Unit × Network :=
  let e := net.endpoint me
  let payload := encodeAuthorityMsg msg
  let id := msgIdOf payload
  let already := (e.plumtree.get id).isSome
  let (events, plumtree) := e.plumtree.broadcast order payload id
  let e := { e with plumtree }
  let e := if already then e else e.pushApp msg id
  (net.setEndpoint me e).dispatchEvents me events

/-- Process, whatever comes of it, and take the inbox. -/
def poll (net : Network) (me : Str) (order : Order) : List AuthorityMsg × Network :=
  let net := (net.process me order).2
  let e := net.endpoint me
  (e.appInbox, net.setEndpoint me { e with appInbox := [] })

end Network

/-! ## Runs -/

/-- The connections, made before the first call: the names that joined and, for each of them, the
names it was given to `add_peer`. Every connection between two names that joined has both sides, and
these connections form a connected graph. A name that never joined may be among the added ones. -/
structure Setup where
  joined : List Str
  added : Str → List Str
  both : ∀ u ∈ joined, ∀ v ∈ joined, v ∈ added u → u ∈ added v
  connected : ∀ u ∈ joined, ∀ v ∈ joined,
    Relation.ReflTransGen (fun a b => a ∈ joined ∧ b ∈ joined ∧ b ∈ added a) u v

/-- The fabric with what a run leaves outside of it: what was broadcast, and what `poll` returned to
each application. -/
structure World where
  net : Network
  sent : List AuthorityMsg
  polled : Str → List AuthorityMsg

def Setup.start (s : Setup) : World where
  net :=
    { names := s.joined
      endpoint := fun u => (s.added u).foldl Endpoint.addPeer (.join u)
      mail := fun _ => []
      control := fun _ => [] }
  sent := []
  polled := fun _ => []

/-- The calls of an endpoint. -/
inductive Call where
  | broadcast (who : Str) (msg : AuthorityMsg) (order : Order)
  | process (who : Str) (order : Order)
  | tick (who : Str)
  | poll (who : Str) (order : Order)

def Call.who : Call → Str
  | .broadcast who _ _ | .process who _ | .tick who | .poll who _ => who

/-- A call at an endpoint that has joined. -/
def World.step [KeyFormat] (w : World) (call : Call) : Option World :=
  if call.who ∈ w.net.names then
    some <| match call with
      | .broadcast who msg order =>
        { w with net := (w.net.broadcastMsg who msg order).2, sent := msg :: w.sent }
      | .process who order => { w with net := (w.net.process who order).2 }
      | .tick who => { w with net := (w.net.tick who).2 }
      | .poll who order =>
        { w with
          net := (w.net.poll who order).2
          polled := update w.polled who (w.polled who ++ (w.net.poll who order).1) }
  else none

/-- Everything that the application of an endpoint got or will get with the next `poll`. -/
def World.received (w : World) (u : Str) : List AuthorityMsg :=
  w.polled u ++ (w.net.endpoint u).appInbox

/-- All mailboxes and control queues are empty, and no announcement is pending. -/
def Network.Quiet (net : Network) : Prop :=
  ∀ u ∈ net.names, net.mail u = [] ∧ net.control u = [] ∧
    (net.endpoint u).plumtree.pendingIhave = []

/-! ## Dispatch that nothing stops -/

theorem mem_update_append {α : Type} (f : Str → List α) (peer v : Str) (a x : α) :
    x ∈ update f peer (f peer ++ [a]) v ↔ x ∈ f v ∨ peer = v ∧ a = x := by
  by_cases hv : v = peer
  · subst hv
    simp [eq_comm]
  · simp [update_of_ne hv, Ne.symm hv]

section Dispatch

variable [KeyFormat]

/-- The payload that the event puts into a mailbox. -/
def mailOf (me : Str) : Gossip333.Event → Option (Option Str × AuthorityMsg)
  | .eager _ msg => (decodeAuthorityMsg msg.payload).toOption.map fun m => (some me, m)
  | _ => none

/-- The control message that the event puts into a queue. -/
def Endpoint.controlOf (e : Endpoint) (me : Str) : Gossip333.Event → Option ControlMsg
  | .eager _ _ => none
  | .iHave _ id sender => some (.iHave me id (e.originOf sender))
  | .graft _ id => some (.graft me id)
  | .prune _ => some (.prune me)

/-- The peer of the event has joined, and its payload is read back. -/
structure Sendable (names : List Str) (e : Endpoint) (ev : Gossip333.Event) : Prop where
  reached : ∃ peer ∈ names, e.peers.lookup ev.dest = some peer
  decodes : ∀ dest msg, ev = .eager dest msg → ∃ m, decodeAuthorityMsg msg.payload = .ok m

/-- `net'` is `net` with the messages of the events in their mailboxes. -/
structure Network.Dispatched (net net' : Network) (me : Str) (events : List Gossip333.Event) :
    Prop where
  names : net'.names = net.names
  endpoint : net'.endpoint = net.endpoint
  mail : ∀ v x, x ∈ net'.mail v ↔ x ∈ net.mail v ∨
    ∃ ev ∈ events, (net.endpoint me).peers.lookup ev.dest = some v ∧ mailOf me ev = some x
  control : ∀ v c, c ∈ net'.control v ↔ c ∈ net.control v ∨
    ∃ ev ∈ events, (net.endpoint me).peers.lookup ev.dest = some v ∧
      (net.endpoint me).controlOf me ev = some c

/-- One control message to a peer that has joined. -/
theorem Network.dispatched_control {net : Network} {me peer : Str} {ev : Gossip333.Event}
    {c : ControlMsg} (hpeer : (net.endpoint me).peers.lookup ev.dest = some peer)
    (hmail : mailOf me ev = none) (hc : (net.endpoint me).controlOf me ev = some c) :
    net.Dispatched
      { net with control := update net.control peer (net.control peer ++ [c]) } me
      [ev] := by
  refine ⟨rfl, rfl, fun v x => ?_, fun v x => ?_⟩
  · simp [hmail]
  · simp only [mem_update_append, List.mem_singleton, exists_eq_left, hpeer, hc, Option.some.injEq]

theorem Network.dispatchEvent_spec {net : Network} {me : Str} {ev : Gossip333.Event}
    (h : Sendable net.names (net.endpoint me) ev) :
    ∃ net', net.dispatchEvent me ev = (.ok (), net') ∧ net.Dispatched net' me [ev] := by
  obtain ⟨peer, hjoined, hpeer⟩ := h.reached
  have hresolve : (net.endpoint me).resolvePeer ev.dest = .ok peer := by
    simp only [Endpoint.resolvePeer, hpeer]
  unfold dispatchEvent
  simp only [hresolve]
  cases ev with
  | eager dest msg =>
    obtain ⟨m, hm⟩ := h.decodes dest msg rfl
    have hmail : mailOf me (.eager dest msg) = some (some me, m) := by
      simp [mailOf, hm, Except.toOption]
    simp only [hm, deliverToFrom, if_pos hjoined]
    refine ⟨_, rfl, rfl, rfl, fun v x => ?_, fun v x => ?_⟩
    · simp only [mem_update_append, List.mem_singleton, exists_eq_left, hpeer, hmail,
        Option.some.injEq]
    · simp [Endpoint.controlOf]
  | iHave dest id sender | graft dest id | prune dest =>
    simp only [controlDeliver, if_pos hjoined]
    exact ⟨_, rfl, dispatched_control hpeer rfl rfl⟩

/-- The loop sends every event, if each of them can be sent. -/
theorem Network.dispatchEvents_spec {net : Network} {me : Str} {events : List Gossip333.Event}
    (h : ∀ ev ∈ events, Sendable net.names (net.endpoint me) ev) :
    ∃ net', net.dispatchEvents me events = (.ok (), net') ∧ net.Dispatched net' me events := by
  induction events generalizing net with
  | nil => exact ⟨net, rfl, rfl, rfl, fun v x => by simp, fun v c => by simp⟩
  | cons ev rest ih =>
    obtain ⟨net₁, hstep, hfirst⟩ := dispatchEvent_spec (h ev List.mem_cons_self)
    have hsend : ∀ ev' ∈ rest, Sendable net₁.names (net₁.endpoint me) ev' := by
      rw [hfirst.names, hfirst.endpoint]
      exact fun ev' hev' => h ev' (List.mem_cons_of_mem _ hev')
    obtain ⟨net₂, hrest, hlast⟩ := ih hsend
    refine ⟨net₂, ?_, hlast.names.trans hfirst.names, hlast.endpoint.trans hfirst.endpoint,
      fun v x => ?_, fun v c => ?_⟩
    · simp only [dispatchEvents, hstep, hrest]
    · rw [hlast.mail, hfirst.mail, hfirst.endpoint]
      simp only [List.mem_cons, exists_eq_or_imp, exists_eq_left, List.not_mem_nil, or_false,
        or_assoc]
    · rw [hlast.control, hfirst.control, hfirst.endpoint]
      simp only [List.mem_cons, exists_eq_or_imp, exists_eq_left, List.not_mem_nil, or_false,
        or_assoc]

end Dispatch

end P2P333.Transfer333.Epidemic
