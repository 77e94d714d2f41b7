import P2P333.Lib.Flooding
import P2P333.Transfer333.Epidemic

/-!
# Every application gets every message once

The invariant of a run of the epidemic endpoints: over every connection, an endpoint that has seen a
message has a peer that has seen it too, or something is under way between the two that will make it
see it. That is the payload itself, the announcement in the peer's control queue, the announcement
among its pending ones, or the request on the way back.

Results:
1. `exactly_once`: where every added name has joined, every application has received every message
   once when nothing is under way.
2. `ghost_starves`: an endpoint that added a name that never joined can lose every message for its
   neighbours.
-/

namespace P2P333.Transfer333.Epidemic

open Lib Gossip333 Function

/-! ## Definitions -/

/-- The id under which a message is known. -/
def msgId (m : AuthorityMsg) : MsgId := msgIdOf (encodeAuthorityMsg m)

namespace Setup

/-- A connection. -/
def edge (s : Setup) (u v : Str) : Prop := u ∈ s.joined ∧ v ∈ s.joined ∧ v ∈ s.added u

/-- Every name that was added has joined. -/
def AllJoined (s : Setup) : Prop := ∀ u ∈ s.joined, ∀ v ∈ s.added u, v ∈ s.joined

/-- The names of a run: those that joined, and those that were added. -/
def names (s : Setup) : Set Str := {n | n ∈ s.joined ∨ ∃ u ∈ s.joined, n ∈ s.added u}

end Setup

def Endpoint.Sees (e : Endpoint) (m : AuthorityMsg) : Prop := (e.plumtree.get (msgId m)).isSome

instance (e : Endpoint) (m : AuthorityMsg) : Decidable (e.Sees m) :=
  inferInstanceAs (Decidable (_ = true))

/-- What is under way, by mailbox and by queue. While an endpoint works on messages that it has
drained, they are under way as well. -/
@[ext] structure Traffic where
  mail : Str → Option Str × AuthorityMsg → Prop
  control : Str → ControlMsg → Prop

/-- Something is under way from `u` that will make `v` see the message. -/
def Owes (ep : Str → Endpoint) (t : Traffic) (m : AuthorityMsg) (u v : Str) : Prop :=
  t.mail v (some u, m) ∨ (∃ origin, t.control v (.iHave u (msgId m) origin)) ∨
    (∃ origin, (peerNodeId u, msgId m, origin) ∈ (ep v).plumtree.pendingIhave) ∨
    t.control u (.graft v (msgId m))

/-- What an endpoint keeps about its peers and its messages. -/
structure Settled (s : Setup) (sent : List AuthorityMsg) (u : Str) (e : Endpoint) : Prop where
  peers : ∀ n v, e.peers.lookup n = some v → v ∈ s.joined ∧ peerNodeId v = n
  views : ∀ n, e.plumtree.Peer n → (e.peers.lookup n).isSome
  edges : ∀ v, s.edge u v → v ≠ u → e.plumtree.Peer (peerNodeId v)
  pending : ∀ p ∈ e.plumtree.pendingIhave, (e.peers.lookup p.1).isSome
  seen : ∀ id payload, e.plumtree.get id = some payload →
    ∃ m ∈ sent, payload = encodeAuthorityMsg m ∧ id = msgId m

/-- The invariant of a run that broadcasts messages of `M`. `got` is what each application has
received. -/
structure Inv (s : Setup) (M : Set AuthorityMsg) (ep : Str → Endpoint) (t : Traffic)
    (sent : List AuthorityMsg) (got : Str → List AuthorityMsg) : Prop where
  settled : ∀ u ∈ s.joined, Settled s sent u (ep u)
  within : ∀ m ∈ sent, m ∈ M
  mail : ∀ v ∈ s.joined, ∀ x, t.mail v x →
    ∃ u ∈ s.joined, ∃ m ∈ sent, x = (some u, m) ∧ (ep u).Sees m
  control : ∀ v ∈ s.joined, ∀ c, t.control v c → c.hop ∈ s.joined
  flooding : ∀ m ∈ sent, Flooding s.edge (fun u => (ep u).Sees m) (Owes ep t m)
  started : ∀ m ∈ sent, ∃ u ∈ s.joined, (ep u).Sees m
  received : ∀ u ∈ s.joined, ∀ m ∈ M, (got u).count m = if (ep u).Sees m then 1 else 0
  counted : ∀ u ∈ s.joined, ∀ m ∈ M,
    (ep u).deliverCounts (msgId m) = if (ep u).Sees m then 1 else 0

/-- What the runs of a setup rest on: every added name has joined, every message is read back from
its encoding, and the two ids are injective on the names and the payloads. -/
structure Sound [KeyFormat] (s : Setup) (M : Set AuthorityMsg) : Prop where
  joined : s.AllJoined
  decodes : ∀ m ∈ M, decodeAuthorityMsg (encodeAuthorityMsg m) = .ok m
  names : ∀ u ∈ s.joined, ∀ v ∈ s.joined, peerNodeId u = peerNodeId v → u = v
  ids : ∀ m ∈ M, ∀ m' ∈ M, msgId m = msgId m' → m = m'

/-! ## Traffic -/

namespace Traffic

variable [KeyFormat]

/-- The traffic with the messages of the events that `me` dispatches. -/
def plus (t : Traffic) (e : Endpoint) (me : Str) (events : List Gossip333.Event) : Traffic where
  mail v x := t.mail v x ∨
    ∃ ev ∈ events, e.peers.lookup ev.dest = some v ∧ mailOf me ev = some x
  control v c := t.control v c ∨
    ∃ ev ∈ events, e.peers.lookup ev.dest = some v ∧ e.controlOf me ev = some c

end Traffic

def Traffic.addMail (t : Traffic) (u : Str) (x : Option Str × AuthorityMsg) : Traffic where
  mail v y := t.mail v y ∨ v = u ∧ y = x
  control := t.control

def Traffic.addControl (t : Traffic) (u : Str) (c : ControlMsg) : Traffic where
  mail := t.mail
  control v c' := t.control v c' ∨ v = u ∧ c' = c

/-! ## Adding to the traffic -/

section Steps

variable [KeyFormat] {s : Setup} {M : Set AuthorityMsg} {ep : Str → Endpoint} {t t' : Traffic}
  {sent : List AuthorityMsg} {got : Str → List AuthorityMsg} {u : Str} {e' : Endpoint}

variable {e : Endpoint} {v hop : Str}

/-- The names behind a node id. -/
theorem Settled.lookup_eq (hs : Sound s M) (h : Settled s sent u e)
    (hv : v ∈ s.joined) (hpeer : (e.peers.lookup (peerNodeId v)).isSome) :
    e.peers.lookup (peerNodeId v) = some v := by
  obtain ⟨v', hv'⟩ := Option.isSome_iff_exists.mp hpeer
  obtain ⟨hjoined, hid⟩ := h.peers _ _ hv'
  rw [hv', hs.names v' hjoined v hv hid]

/-- The hop of a message that arrives is remembered. -/
theorem Settled.remember (hs : Sound s M) (h : Settled s sent u e) (hhop : hop ∈ s.joined) :
    Settled s sent u (e.remember hop) ∧
      (e.remember hop).peers.lookup (peerNodeId hop) = some hop := by
  unfold Endpoint.remember
  split
  · next hknown => exact ⟨h, h.lookup_eq hs hhop hknown⟩
  · have hmore : ∀ n, (e.peers.lookup n).isSome →
        (((peerNodeId hop, hop) :: e.peers).lookup n).isSome := by
      intro n hn
      rw [List.lookup_cons]
      split <;> simp [hn]
    refine ⟨⟨fun n v hn => ?_, fun n hn => hmore n (h.views n hn), h.edges,
      fun p hp => hmore _ (h.pending p hp), h.seen⟩, by simp⟩
    rw [List.lookup_cons] at hn
    split at hn
    · next heq =>
      cases hn
      exact ⟨hhop, (beq_iff_eq.mp heq).symm⟩
    · exact h.peers n v hn

variable {sent' : List AuthorityMsg}

omit [KeyFormat] in
theorem Settled.mono (h : Settled s sent u e)
    (hsent : ∀ m ∈ sent, m ∈ sent') : Settled s sent' u e :=
  ⟨h.peers, h.views, h.edges, h.pending, fun id payload hid =>
    have ⟨m, hm, hseen⟩ := h.seen id payload hid
    ⟨m, hsent m hm, hseen⟩⟩

/-- What is owed stays owed when the endpoint `u` adds to its traffic and forgets no announcement.
-/
theorem Owes.plus (hpend : ∀ p ∈ (ep u).plumtree.pendingIhave, p ∈ e'.plumtree.pendingIhave)
    {events : List Gossip333.Event} {m : AuthorityMsg} {a b : Str} (h : Owes ep t m a b) :
    Owes (update ep u e') (t.plus e' u events) m a b := by
  rcases h with h | ⟨o, h⟩ | ⟨o, h⟩ | h
  · exact .inl (.inl h)
  · exact .inr (.inl ⟨o, .inl h⟩)
  · refine .inr (.inr (.inl ⟨o, ?_⟩))
    by_cases hb : b = u
    · subst hb
      rw [update_self]
      exact hpend _ h
    · rwa [update_of_ne hb]
  · exact .inr (.inr (.inr (.inl h)))

omit [KeyFormat] in
/-- Seeing, for an endpoint that saw nothing new. -/
theorem sees_update (hget : ∀ id, e'.plumtree.get id = (ep u).plumtree.get id) (m : AuthorityMsg)
    (v : Str) : (update ep u e' v).Sees m ↔ (ep v).Sees m := by
  by_cases hv : v = u
  · subst hv
    rw [update_self, Endpoint.Sees, Endpoint.Sees, hget]
  · rw [update_of_ne hv]

variable {events : List Gossip333.Event}

/-- The payloads that come out of the events. -/
theorem plus_mail (hs : Sound s M) (hwithin : ∀ m ∈ sent, m ∈ M)
    (hevents : ∀ ev ∈ events, ∀ dest msg, ev = .eager dest msg →
      ∃ m ∈ sent, e'.Sees m ∧ msg.payload = encodeAuthorityMsg m)
    {x : Option Str × AuthorityMsg} (h : (t.plus e' u events).mail v x) :
    t.mail v x ∨ ∃ m ∈ sent, x = (some u, m) ∧ e'.Sees m := by
  rcases h with h | ⟨ev, hev, -, hx⟩
  · exact .inl h
  · cases ev with
    | eager dest msg =>
      obtain ⟨m, hm, hsees, hpayload⟩ := hevents _ hev dest msg rfl
      simp only [mailOf, hpayload, hs.decodes m (hwithin m hm), Except.toOption, Option.map_some,
        Option.some.injEq] at hx
      exact .inr ⟨m, hm, hx.symm, hsees⟩
    | _ => cases hx

variable {c : ControlMsg}

theorem plus_control (h : (t.plus e' u events).control v c) : t.control v c ∨ c.hop = u := by
  rcases h with h | ⟨ev, -, -, hc⟩
  · exact .inl h
  · cases ev with
    | eager dest msg => cases hc
    | _ => cases hc; exact .inr rfl

omit [KeyFormat] in
/-- An endpoint changes without seeing anything new, and the traffic with it. -/
theorem Inv.change (h : Inv s M ep t sent got) (hu : u ∈ s.joined) (hsettled : Settled s sent u e')
    (hget : ∀ id, e'.plumtree.get id = (ep u).plumtree.get id)
    (hcount : e'.deliverCounts = (ep u).deliverCounts)
    (hmail : ∀ v x, t'.mail v x → t.mail v x ∨ ∃ m ∈ sent, x = (some u, m) ∧ e'.Sees m)
    (hcontrol : ∀ v c, t'.control v c → t.control v c ∨ c.hop = u)
    (hdebt : ∀ m ∈ sent, ∀ a b, s.edge a b → Owes ep t m a b →
      (ep b).Sees m ∨ Owes (update ep u e') t' m a b) :
    Inv s M (update ep u e') t' sent got where
  settled v hv := by
    by_cases hvu : v = u
    · subst hvu
      rwa [update_self]
    · rw [update_of_ne hvu]
      exact h.settled v hv
  within := h.within
  mail v hv x hx := by
    rcases hmail v x hx with hx | ⟨m, hm, rfl, hsees⟩
    · obtain ⟨a, ha, m, hm, rfl, hsees⟩ := h.mail v hv x hx
      exact ⟨a, ha, m, hm, rfl, (sees_update hget m a).mpr hsees⟩
    · exact ⟨u, hu, m, hm, rfl, by rwa [update_self]⟩
  control v hv c hc := by
    rcases hcontrol v c hc with hc | rfl
    · exact h.control v hv c hc
    · exact hu
  flooding m hm := (h.flooding m hm).step (fun a => (sees_update hget m a).mpr)
    (fun a b hab _ howed => (hdebt m hm a b hab howed).imp_left (sees_update hget m b).mpr)
    fun a b _ hnot ha => absurd ((sees_update hget m a).mp ha) hnot
  started m hm := by
    obtain ⟨a, ha, hsees⟩ := h.started m hm
    exact ⟨a, ha, (sees_update hget m a).mpr hsees⟩
  received v hv m hm := by
    rw [h.received v hv m hm]
    simp only [sees_update hget]
  counted v hv m hm := by
    simp only [sees_update hget]
    rw [← h.counted v hv m hm]
    by_cases hvu : v = u
    · subst hvu
      rw [update_self, hcount]
    · rw [update_of_ne hvu]

/-- An endpoint changes its views, queues an announcement or sends something, and sees nothing
new. -/
theorem Inv.extend (hs : Sound s M) (h : Inv s M ep t sent got) (hu : u ∈ s.joined)
    (hsettled : Settled s sent u e') (hget : ∀ id, e'.plumtree.get id = (ep u).plumtree.get id)
    (hpend : ∀ p ∈ (ep u).plumtree.pendingIhave, p ∈ e'.plumtree.pendingIhave)
    (hcount : e'.deliverCounts = (ep u).deliverCounts)
    (hevents : ∀ ev ∈ events, ∀ dest msg, ev = .eager dest msg →
      ∃ m ∈ sent, e'.Sees m ∧ msg.payload = encodeAuthorityMsg m) :
    Inv s M (update ep u e') (t.plus e' u events) sent got :=
  h.change hu hsettled hget hcount (fun _ _ => plus_mail hs h.within hevents)
    (fun _ _ => plus_control) fun _ _ _ _ _ howed => .inr (howed.plus hpend)

/-! ## Taking from the traffic -/

omit [KeyFormat] in
/-- Messages leave the traffic once what they are good for is there. -/
theorem Inv.settle (h : Inv s M ep t sent got) (hmail : ∀ v x, t'.mail v x → t.mail v x)
    (hcontrol : ∀ v c, t'.control v c → t.control v c)
    (hdebt : ∀ m ∈ sent, ∀ a b, (ep a).Sees m → Owes ep t m a b →
      (ep b).Sees m ∨ Owes ep t' m a b) :
    Inv s M ep t' sent got where
  settled := h.settled
  within := h.within
  mail v hv x hx := h.mail v hv x (hmail v x hx)
  control v hv c hc := h.control v hv c (hcontrol v c hc)
  flooding m hm := (h.flooding m hm).step (fun _ hsees => hsees)
    (fun a b _ hsees howed => hdebt m hm a b hsees howed) fun _ _ _ hnot hsees => absurd hsees hnot
  started := h.started
  received := h.received
  counted := h.counted

variable {m : AuthorityMsg}

omit [KeyFormat] in
/-- A payload that its endpoint has seen. -/
theorem Inv.popMail {hop : Option Str}
    (h : Inv s M ep (t.addMail u (hop, m)) sent got) (hsees : (ep u).Sees m) :
    Inv s M ep t sent got := by
  refine h.settle (fun _ _ hx => .inl hx) (fun _ _ hc => hc) fun m' hm' a b _ howed => ?_
  rcases howed with (howed | ⟨rfl, heq⟩) | howed
  · exact .inr (.inl howed)
  · cases heq
    exact .inl hsees
  · exact .inr (.inr howed)

omit [KeyFormat] in
/-- A control message that leaves nothing owed. -/
theorem Inv.popControl (h : Inv s M ep (t.addControl u c) sent got)
    (hIhave : ∀ m ∈ sent, ∀ a origin, c = .iHave a (msgId m) origin →
      (ep u).Sees m ∨ ∃ origin, (peerNodeId a, msgId m, origin) ∈ (ep u).plumtree.pendingIhave)
    (hGraft : ∀ m ∈ sent, ∀ b, c = .graft b (msgId m) → (ep u).Sees m → t.mail b (some u, m)) :
    Inv s M ep t sent got := by
  refine h.settle (fun _ _ hx => hx) (fun _ _ hc => .inl hc) fun m hm a b hsees howed => ?_
  rcases howed with howed | ⟨o, howed | ⟨rfl, heq⟩⟩ | howed | howed | ⟨rfl, heq⟩
  · exact .inr (.inl howed)
  · exact .inr (.inr (.inl ⟨o, howed⟩))
  · rcases hIhave m hm a o heq.symm with hseen | ⟨o', hpend⟩
    · exact .inl hseen
    · exact .inr (.inr (.inr (.inl ⟨o', hpend⟩)))
  · exact .inr (.inr (.inr (.inl howed)))
  · exact .inr (.inr (.inr (.inr howed)))
  · exact .inr (.inl (hGraft m hm b heq.symm hsees))

/-! ## Learning a message -/

/-- Seeing, for an endpoint that learns `m`. -/
theorem sees_learn (hs : Sound s M) (hm : m ∈ M) (hget : ∀ id, e'.plumtree.get id =
      if id = msgId m then some (encodeAuthorityMsg m) else (ep u).plumtree.get id)
    {m' : AuthorityMsg} (hm' : m' ∈ M) (v : Str) :
    (update ep u e' v).Sees m' ↔ (ep v).Sees m' ∨ v = u ∧ m' = m := by
  by_cases hv : v = u
  · subst hv
    rw [update_self, Endpoint.Sees, hget]
    split
    · next heq =>
      obtain rfl := hs.ids m' hm' m hm heq
      simp
    · next hne =>
      have hne' : m' ≠ m := fun heq => hne (heq ▸ rfl)
      simp [hne', Endpoint.Sees]
  · rw [update_of_ne hv]
    simp [hv]

/-- The event that a new message makes for a neighbour puts something under way to it. -/
theorem owes_of_fanout (hs : Sound s M) (hsettled : Settled s sent u e')
    (hm : m ∈ M) (hedge : s.edge u v) (hne : v ≠ u) {order : Order}
    {keep : NodeId → Bool} (hkeep : keep (peerNodeId v) = true) :
    Owes (update ep u e')
      (t.plus e' u (e'.plumtree.fanout order (msgId m) (encodeAuthorityMsg m) keep)) m u v := by
  have hpeer := hsettled.edges v hedge hne
  have hlookup := hsettled.lookup_eq hs hedge.2.1 (hsettled.views _ hpeer)
  rcases hpeer with heager | hlazy
  · refine .inl (.inr ⟨.eager (peerNodeId v) ⟨msgId m, encodeAuthorityMsg m, e'.plumtree.me⟩,
      Plumtree.mem_fanout.mpr ⟨_, hkeep, .inl ⟨heager, rfl⟩⟩, hlookup, ?_⟩)
    simp only [mailOf, hs.decodes m hm, Except.toOption, Option.map_some]
  · exact .inr (.inl ⟨_, .inr ⟨.iHave (peerNodeId v) (msgId m) e'.plumtree.me,
      Plumtree.mem_fanout.mpr ⟨_, hkeep, .inr ⟨hlazy, rfl⟩⟩, hlookup, rfl⟩⟩)

/-- A message floods before it is sent too: nobody has heard of it. -/
theorem Inv.floods (hs : Sound s M) (h : Inv s M ep t sent got) (hm : m ∈ M) :
    Flooding s.edge (fun v => (ep v).Sees m) (Owes ep t m) := by
  by_cases hsent : m ∈ sent
  · exact h.flooding m hsent
  · intro a b hab ha
    obtain ⟨payload, hpayload⟩ := Option.isSome_iff_exists.mp ha
    obtain ⟨m', hm', -, hid⟩ := (h.settled a hab.1).seen _ _ hpayload
    exact absurd (hs.ids m hm m' (h.within m' hm') hid ▸ hm') hsent

/-- An endpoint sees a message for the first time, hands it to its application, and pushes or
announces it to every neighbour that is not known to have seen it. -/
theorem Inv.learn (hs : Sound s M) (h : Inv s M ep t sent got) (hu : u ∈ s.joined)
    (hm : m ∈ M) (hin : m ∈ sent')
    (hold : ∀ m' ∈ sent, m' ∈ sent') (hnew : ∀ m' ∈ sent', m' ∈ sent ∨ m' = m)
    (hunseen : ¬ (ep u).Sees m) (hsettled : Settled s sent' u e')
    (hget : ∀ id, e'.plumtree.get id =
      if id = msgId m then some (encodeAuthorityMsg m) else (ep u).plumtree.get id)
    (hpend : e'.plumtree.pendingIhave = (ep u).plumtree.pendingIhave)
    (hcount : e'.deliverCounts =
      update (ep u).deliverCounts (msgId m) ((ep u).deliverCounts (msgId m) + 1))
    (order : Order) (keep : NodeId → Bool)
    (hkeep : ∀ v, s.edge u v → v ≠ u → keep (peerNodeId v) = true ∨ (ep v).Sees m) :
    Inv s M (update ep u e')
      (t.plus e' u (e'.plumtree.fanout order (msgId m) (encodeAuthorityMsg m) keep)) sent'
      (update got u (got u ++ [m])) := by
  have hwithin : ∀ m' ∈ sent', m' ∈ M := fun m' hm' => (hnew m' hm').elim (h.within m') fun heq =>
    heq ▸ hm
  have hsees := fun {m'} (hm' : m' ∈ M) v => sees_learn hs hm hget hm' v
  have hself : e'.Sees m := by
    have := (hsees hm u).mpr (.inr ⟨rfl, rfl⟩)
    rwa [update_self] at this
  have hevents : ∀ ev ∈ e'.plumtree.fanout order (msgId m) (encodeAuthorityMsg m) keep,
      ∀ dest msg, ev = .eager dest msg →
        ∃ m ∈ sent', e'.Sees m ∧ msg.payload = encodeAuthorityMsg m := by
    intro ev hev dest msg heq
    obtain ⟨n, -, ⟨-, rfl⟩ | ⟨-, rfl⟩⟩ := Plumtree.mem_fanout.mp hev
    · cases heq
      exact ⟨m, hin, hself, rfl⟩
    · cases heq
  have hflood := h.floods hs hm
  refine ⟨fun v hv => ?_, hwithin, fun v hv x hx => ?_, fun v hv c hc => ?_, fun m' hm' => ?_,
    fun m' hm' => ?_, fun v hv m' hm' => ?_, fun v hv m' hm' => ?_⟩
  · by_cases hvu : v = u
    · subst hvu
      rwa [update_self]
    · rw [update_of_ne hvu]
      exact (h.settled v hv).mono hold
  · rcases plus_mail hs hwithin hevents hx with hx | ⟨m', hm', rfl, hsees'⟩
    · obtain ⟨a, ha, m', hm', rfl, hsees'⟩ := h.mail v hv x hx
      exact ⟨a, ha, m', hold m' hm', rfl, (hsees (h.within m' hm') a).mpr (.inl hsees')⟩
    · exact ⟨u, hu, m', hm', rfl, by rwa [update_self]⟩
  · rcases plus_control hc with hc | rfl
    · exact h.control v hv c hc
    · exact hu
  · have hplus : ∀ a b, Owes ep t m' a b → Owes (update ep u e')
        (t.plus e' u (e'.plumtree.fanout order (msgId m) (encodeAuthorityMsg m) keep)) m' a b :=
      fun a b howed => howed.plus (hpend ▸ fun p hp => hp)
    by_cases heq : m' = m
    · subst heq
      refine hflood.step (fun a ha => (hsees hm a).mpr (.inl ha))
        (fun a b _ _ howed => .inr (hplus a b howed)) fun a b hab hnot ha => ?_
      -- only `u` is new, and it has told all its neighbours
      obtain ⟨rfl, -⟩ := ((hsees hm a).mp ha).resolve_left hnot
      by_cases hba : b = a
      · exact .inl (hba ▸ ha)
      · rcases hkeep b hab hba with hk | hseen
        · exact .inr (owes_of_fanout hs hsettled hm hab hba hk)
        · exact .inl ((hsees hm b).mpr (.inl hseen))
    · have hm'' := (hnew m' hm').resolve_right heq
      refine (h.flooding m' hm'').mono (fun a => ?_) fun a b howed => .inr (hplus a b howed)
      rw [hsees (h.within m' hm'') a]
      simp [heq]
  · rcases hnew m' hm' with hm'' | rfl
    · obtain ⟨a, ha, hseen⟩ := h.started m' hm''
      exact ⟨a, ha, (hsees (h.within m' hm'') a).mpr (.inl hseen)⟩
    · exact ⟨u, hu, (hsees hm u).mpr (.inr ⟨rfl, rfl⟩)⟩
  · by_cases hvu : v = u
    · subst hvu
      rw [update_self, List.count_append, h.received v hv m' hm']
      simp only [hsees hm' v, true_and]
      by_cases heq : m' = m
      · subst heq
        simp [hunseen]
      · simp [heq, Ne.symm heq]
    · rw [update_of_ne hvu, h.received v hv m' hm']
      simp only [hsees hm' v, hvu, false_and, or_false]
  · have hcounted := h.counted v hv m' hm'
    simp only [hsees hm' v]
    by_cases hvu : v = u
    · subst hvu
      rw [update_self, hcount]
      by_cases heq : m' = m
      · subst heq
        simp [hcounted, hunseen]
      · have hid : msgId m' ≠ msgId m := fun hid => heq (hs.ids m' hm' m hm hid)
        simp [hid, hcounted, heq]
    · rw [update_of_ne hvu, hcounted]
      simp [hvu]

/-! ## The handlers -/

/-- What is under way while `u` works on the payloads and control messages that it has drained. -/
def Network.held (net : Network) (u : Str) (hops : List (Option Str × AuthorityMsg))
    (ctrls : List ControlMsg) : Traffic where
  mail v x := x ∈ net.mail v ∨ v = u ∧ x ∈ hops
  control v c := c ∈ net.control v ∨ v = u ∧ c ∈ ctrls

/-- What the applications have received, with what `poll` has returned so far. -/
def gotOf (polled : Str → List AuthorityMsg) (ep : Str → Endpoint) (v : Str) : List AuthorityMsg :=
  polled v ++ (ep v).appInbox

/-- The invariant of the fabric while `u` works. -/
structure Works (s : Setup) (M : Set AuthorityMsg) (sent : List AuthorityMsg)
    (polled : Str → List AuthorityMsg) (u : Str) (hops : List (Option Str × AuthorityMsg))
    (ctrls : List ControlMsg) (net : Network) : Prop where
  names : net.names = s.joined
  inv : Inv s M net.endpoint (net.held u hops ctrls) sent (gotOf polled net.endpoint)

variable {polled : Str → List AuthorityMsg} {hops : List (Option Str × AuthorityMsg)}
  {ctrls : List ControlMsg} {net net' : Network}

omit [KeyFormat] in
theorem held_cons_mail (x : Option Str × AuthorityMsg) :
    net.held u (x :: hops) ctrls = (net.held u hops ctrls).addMail u x := by
  ext v y
  · simp only [Network.held, Traffic.addMail, List.mem_cons]
    tauto
  · rfl

omit [KeyFormat] in
theorem held_cons_control (c : ControlMsg) :
    net.held u hops (c :: ctrls) = (net.held u hops ctrls).addControl u c := by
  ext v y
  · rfl
  · simp only [Network.held, Traffic.addControl, List.mem_cons]
    tauto

theorem held_dispatched (h : net.Dispatched net' u events) :
    net'.held u hops ctrls = (net.held u hops ctrls).plus (net.endpoint u) u events := by
  ext v y
  · simp only [Network.held, Traffic.plus, h.mail]
    exact or_right_comm
  · simp only [Network.held, Traffic.plus, h.control]
    exact or_right_comm

/-- An endpoint that is set, and whose events all go out. -/
theorem dispatch_works (hnames : net.names = s.joined)
    (hevents : ∀ ev ∈ events, Sendable s.joined e' ev)
    (h : Inv s M (update net.endpoint u e') ((net.held u hops ctrls).plus e' u events) sent
      (gotOf polled (update net.endpoint u e'))) :
    ∃ net', (net.setEndpoint u e').dispatchEvents u events = (.ok (), net') ∧
      Works s M sent polled u hops ctrls net' := by
  have hself : (net.setEndpoint u e').endpoint u = e' := update_self ..
  have hsend : ∀ ev ∈ events, Sendable (net.setEndpoint u e').names
      ((net.setEndpoint u e').endpoint u) ev := by
    rw [hself]
    exact fun ev hev => (show net.names = _ from hnames) ▸ hevents ev hev
  obtain ⟨net', hrun, hd⟩ := Network.dispatchEvents_spec hsend
  refine ⟨net', hrun, hd.names.trans hnames, ?_⟩
  rw [held_dispatched hd, hself, hd.endpoint]
  exact h

/-- An event to a peer that is known, with a payload that is read back. -/
theorem Settled.sendable (hs : Sound s M) (h : Settled s sent u e)
    (hwithin : ∀ m ∈ sent, m ∈ M) {ev : Gossip333.Event} (hknown : (e.peers.lookup ev.dest).isSome)
    (hevent : ∀ dest msg, ev = .eager dest msg →
      ∃ m ∈ sent, e.Sees m ∧ msg.payload = encodeAuthorityMsg m) : Sendable s.joined e ev := by
  obtain ⟨v, hv⟩ := Option.isSome_iff_exists.mp hknown
  refine ⟨⟨v, (h.peers _ _ hv).1, hv⟩, fun dest msg heq => ?_⟩
  obtain ⟨m, hm, -, hpayload⟩ := hevent dest msg heq
  exact ⟨m, hpayload ▸ hs.decodes m (hwithin m hm)⟩

section

omit [KeyFormat]

/-- The views of an endpoint change, but not the peers that they hold together. -/
theorem Settled.views_change (h : Settled s sent u e) {plumtree : Plumtree}
    (hkeeps : e.plumtree.Keeps plumtree) : Settled s sent u { e with plumtree } where
  peers := h.peers
  views n hn := h.views n ((hkeeps.peers n).mp hn)
  edges v hedge hne := (hkeeps.peers _).mpr (h.edges v hedge hne)
  pending p hp := h.pending p (hkeeps.pending ▸ hp)
  seen id payload hid := h.seen id payload (by rwa [Plumtree.get, ← hkeeps.seen])

theorem remember_frame (e : Endpoint) (hop : Str) :
    (e.remember hop).plumtree = e.plumtree ∧ (e.remember hop).appInbox = e.appInbox ∧
      (e.remember hop).deliverCounts = e.deliverCounts := by
  unfold Endpoint.remember
  split <;> exact ⟨rfl, rfl, rfl⟩

theorem gotOf_update (e' : Endpoint) (hinbox : e'.appInbox = (net.endpoint u).appInbox) :
    gotOf polled (update net.endpoint u e') = gotOf polled net.endpoint := by
  funext v
  unfold gotOf
  by_cases hv : v = u
  · subst hv
    rw [update_self, hinbox]
  · rw [update_of_ne hv]

theorem gotOf_pushApp (e' : Endpoint) (hinbox : e'.appInbox = (net.endpoint u).appInbox ++ [m]) :
    gotOf polled (update net.endpoint u e') =
      update (gotOf polled net.endpoint) u (gotOf polled net.endpoint u ++ [m]) := by
  funext v
  unfold gotOf
  by_cases hv : v = u
  · subst hv
    rw [update_self, update_self, hinbox, List.append_assoc]
  · rw [update_of_ne hv, update_of_ne hv]

end

theorem plus_addMail (x : Option Str × AuthorityMsg) (events : List Gossip333.Event) :
    (t.addMail u x).plus e' u events = (t.plus e' u events).addMail u x := by
  ext v y
  · exact or_right_comm
  · rfl

theorem plus_addControl (c : ControlMsg) (events : List Gossip333.Event) :
    (t.addControl u c).plus e' u events = (t.plus e' u events).addControl u c := by
  ext v y
  · rfl
  · exact or_right_comm

/-- A payload is dealt with once its endpoint has seen it. -/
theorem finish_mail (hop : Option Str) (hnames : net.names = s.joined)
    (hevents : ∀ ev ∈ events, Sendable s.joined e' ev)
    (h : Inv s M (update net.endpoint u e')
      ((net.held u ((hop, m) :: hops) ctrls).plus e' u events) sent
      (gotOf polled (update net.endpoint u e'))) (hsees : e'.Sees m) :
    ∃ net', (net.setEndpoint u e').dispatchEvents u events = (.ok (), net') ∧
      Works s M sent polled u hops ctrls net' := by
  rw [held_cons_mail, plus_addMail] at h
  exact dispatch_works hnames hevents (h.popMail (by rwa [update_self]))

/-- A payload that was seen before. -/
theorem onReceive_dup (hs : Sound s M) (hu : u ∈ s.joined) {w : Str}
    (h : Works s M sent polled u ((some w, m) :: hops) ctrls net)
    (hsettled : Settled s sent u e) (hknown : (e.peers.lookup (peerNodeId w)).isSome)
    (htree : e.plumtree = (net.endpoint u).plumtree)
    (hinbox : e.appInbox = (net.endpoint u).appInbox)
    (hcounts : e.deliverCounts = (net.endpoint u).deliverCounts) {order : Order} {msg : Msg}
    (hmsg : msg.id = msgId m) (hsender : msg.sender = peerNodeId w) (hsees : e.Sees m) :
    ∃ net', (net.setEndpoint u
        { e with plumtree := (e.plumtree.onReceive order msg).2 }).dispatchEvents
        u (e.plumtree.onReceive order msg).1 = (.ok (), net') ∧
      Works s M sent polled u hops ctrls net' := by
  have hseen : (e.plumtree.get msg.id).isSome := by rwa [hmsg]
  obtain ⟨hprune, hkeeps⟩ := Plumtree.onReceive_seen order hseen
  have hget : ∀ id, (e.plumtree.onReceive order msg).2.get id = e.plumtree.get id := by
    intro id
    rw [Plumtree.get, hkeeps.seen, Plumtree.get]
  have hsettled' := hsettled.views_change hkeeps
  have hevents : ∀ ev ∈ (e.plumtree.onReceive order msg).1, ∀ dest msg', ev = .eager dest msg' →
      ∃ m ∈ sent, Endpoint.Sees { e with plumtree := (e.plumtree.onReceive order msg).2 } m ∧
        msg'.payload = encodeAuthorityMsg m := by
    intro ev hev dest msg' heq
    rw [hprune ev hev] at heq
    cases heq
  refine finish_mail (some w) h.names (fun ev hev => ?_) ?_ (by rwa [Endpoint.Sees, hget])
  · refine hsettled'.sendable hs h.inv.within ?_ (hevents ev hev)
    rw [hprune ev hev, Gossip333.Event.dest, hsender]
    exact hknown
  · rw [gotOf_update { e with plumtree := (e.plumtree.onReceive order msg).2 } hinbox]
    exact h.inv.extend hs hu hsettled' (fun id => by rw [hget, htree])
      (fun p hp => by rwa [hkeeps.pending, htree]) hcounts hevents

/-- The endpoint that has stored a new message and handed it to its application. -/
def Endpoint.store (e : Endpoint) (m : AuthorityMsg) : Endpoint :=
  Endpoint.pushApp { e with
    plumtree := { e.plumtree with seen := (msgId m, encodeAuthorityMsg m) :: e.plumtree.seen } }
    m (msgId m)

/-- A message that is new, from the mailbox or from the endpoint's own application: it is stored,
handed to the application and passed on. -/
theorem store_inv (hs : Sound s M) (hu : u ∈ s.joined)
    (h : Inv s M net.endpoint t sent (gotOf polled net.endpoint))
    (hm : m ∈ M) (hin : m ∈ sent') (hold : ∀ m' ∈ sent, m' ∈ sent')
    (hnew : ∀ m' ∈ sent', m' ∈ sent ∨ m' = m) (hsettled : Settled s sent u e)
    (htree : e.plumtree = (net.endpoint u).plumtree)
    (hinbox : e.appInbox = (net.endpoint u).appInbox)
    (hcounts : e.deliverCounts = (net.endpoint u).deliverCounts) (hunseen : ¬ e.Sees m)
    (order : Order) (keep : NodeId → Bool)
    (hkeep : ∀ v, s.edge u v → v ≠ u → keep (peerNodeId v) = true ∨ (net.endpoint v).Sees m) :
    (e.store m).Sees m ∧
    (∀ ev ∈ (e.store m).plumtree.fanout order (msgId m) (encodeAuthorityMsg m) keep,
      Sendable s.joined (e.store m) ev) ∧
    Inv s M (update net.endpoint u (e.store m))
      (t.plus (e.store m) u
        ((e.store m).plumtree.fanout order (msgId m) (encodeAuthorityMsg m) keep)) sent'
      (gotOf polled (update net.endpoint u (e.store m))) := by
  have hget : ∀ id, (e.store m).plumtree.get id =
      if id = msgId m then some (encodeAuthorityMsg m) else (net.endpoint u).plumtree.get id := by
    intro id
    rw [← htree]
    exact Plumtree.get_cons _ _ _ _
  have hself : (e.store m).Sees m := by simp [Endpoint.Sees, hget]
  have hsettled' : Settled s sent' u (e.store m) := by
    refine ⟨hsettled.peers, hsettled.views, hsettled.edges, hsettled.pending, fun id p hid => ?_⟩
    rw [hget, ← htree] at hid
    split at hid
    · next heq =>
      cases hid
      exact ⟨m, hin, rfl, heq⟩
    · obtain ⟨m', hm', hrest⟩ := hsettled.seen id p hid
      exact ⟨m', hold m' hm', hrest⟩
  have hinv := h.learn hs hu hm hin hold hnew (by rwa [Endpoint.Sees, ← htree]) hsettled' hget
    (by rw [← htree]; rfl) (by rw [← hcounts]; rfl) order keep hkeep
  rw [← gotOf_pushApp (e.store m) (by rw [← hinbox]; rfl)] at hinv
  refine ⟨hself, fun ev hev => ?_, hinv⟩
  obtain ⟨n, -, ⟨hn, rfl⟩ | ⟨hn, rfl⟩⟩ := Plumtree.mem_fanout.mp hev
  · refine hsettled'.sendable hs hinv.within (hsettled'.views n (.inl hn)) fun dest msg heq => ?_
    cases heq
    exact ⟨m, hin, hself, rfl⟩
  · exact hsettled'.sendable hs hinv.within (hsettled'.views n (.inr hn))
      fun _ _ heq => by cases heq

/-- One payload of a drained mailbox. -/
theorem onEagerPayload_works (hs : Sound s M) (hu : u ∈ s.joined) {w : Option Str}
    (h : Works s M sent polled u ((w, m) :: hops) ctrls net) (order : Order) :
    ∃ net', net.onEagerPayload u (w.getD u) m order = (.ok (), net') ∧
      Works s M sent polled u hops ctrls net' := by
  obtain ⟨w', hw, m', hm, heq, hsender⟩ :=
    h.inv.mail u hu (w, m) (.inr ⟨rfl, List.mem_cons_self⟩)
  obtain ⟨rfl, rfl⟩ := Prod.mk.inj heq
  obtain ⟨hsettled, hknown⟩ := (h.inv.settled u hu).remember hs hw
  obtain ⟨htree, hinbox, hcounts⟩ := remember_frame (net.endpoint u) w'
  simp only [Network.onEagerPayload, Option.getD_some]
  generalize (net.endpoint u).remember w' = e at hsettled hknown htree hinbox hcounts
  by_cases hsees : e.Sees m
  · have hseen : (e.plumtree.get (msgIdOf (encodeAuthorityMsg m))).isSome = true := hsees
    simp only [hseen, if_true]
    exact onReceive_dup hs hu h hsettled (by rw [hknown]; rfl) htree hinbox hcounts rfl rfl hsees
  · have hunseen : ¬ (e.plumtree.get (msgIdOf (encodeAuthorityMsg m))).isSome = true := hsees
    -- the sender of the payload is the one neighbour that is left out
    have hskip : ∀ v, s.edge u v → v ≠ u →
        decide (peerNodeId v ≠ peerNodeId w') = true ∨ (net.endpoint v).Sees m := by
      intro v hedge _
      by_cases hvw : peerNodeId v = peerNodeId w'
      · rw [hs.names v hedge.2.1 w' hw hvw]
        exact .inr hsender
      · exact .inl (decide_eq_true hvw)
    obtain ⟨hself, hsend, hinv⟩ := store_inv hs hu h.inv (h.inv.within m hm) hm (fun _ => id)
      (fun _ => .inl) hsettled htree hinbox hcounts hsees order
      (fun p => decide (p ≠ peerNodeId w')) hskip
    simp only [Plumtree.onReceive, if_neg hunseen]
    exact finish_mail (some w') h.names hsend hinv hself

/-- A control message is dealt with once what it asks for is there. -/
theorem finish_control (hnames : net.names = s.joined)
    (hevents : ∀ ev ∈ events, Sendable s.joined e' ev)
    (h : Inv s M (update net.endpoint u e')
      ((net.held u hops (c :: ctrls)).plus e' u events) sent
      (gotOf polled (update net.endpoint u e')))
    (hIhave : ∀ m ∈ sent, ∀ a origin, c = .iHave a (msgId m) origin →
      e'.Sees m ∨ ∃ origin, (peerNodeId a, msgId m, origin) ∈ e'.plumtree.pendingIhave)
    (hGraft : ∀ m ∈ sent, ∀ b, c = .graft b (msgId m) → e'.Sees m →
      ∃ ev ∈ events, e'.peers.lookup ev.dest = some b ∧ mailOf u ev = some (some u, m)) :
    ∃ net', (net.setEndpoint u e').dispatchEvents u events = (.ok (), net') ∧
      Works s M sent polled u hops ctrls net' := by
  rw [held_cons_control, plus_addControl] at h
  refine dispatch_works hnames hevents (h.popControl ?_ ?_)
  · rwa [update_self]
  · rw [update_self]
    exact fun m hm b hc hsees => .inr (hGraft m hm b hc hsees)

omit [KeyFormat] in
/-- A call that dispatches nothing. -/
theorem nothing_sent (sent : List AuthorityMsg) (e : Endpoint) :
    ∀ ev ∈ ([] : List Gossip333.Event), ∀ dest msg, ev = .eager dest msg →
      ∃ m ∈ sent, e.Sees m ∧ msg.payload = encodeAuthorityMsg m := fun _ hev => by cases hev

theorem onIhave_works (hs : Sound s M) (hu : u ∈ s.joined) {origin : Str} {id : MsgId}
    (h : Works s M sent polled u hops (.iHave hop id origin :: ctrls) net) :
    ∃ net', net.onControl u (.iHave hop id origin) = (.ok (), net') ∧
      Works s M sent polled u hops ctrls net' := by
  have hhop : hop ∈ s.joined := h.inv.control u hu (.iHave hop id origin)
    (.inr ⟨rfl, List.mem_cons_self⟩)
  obtain ⟨hsettled, hknown⟩ := (h.inv.settled u hu).remember hs hhop
  obtain ⟨htree, hinbox, hcounts⟩ := remember_frame (net.endpoint u) hop
  simp only [Network.onControl]
  generalize (net.endpoint u).remember hop = e at hsettled hknown htree hinbox hcounts
  set e' : Endpoint :=
    { e with plumtree := e.plumtree.onIhave (peerNodeId hop) id (peerNodeId origin) } with he'
  -- the announcement is queued, unless the message is here
  have hqueue : e'.plumtree = e.plumtree ∧ (e.plumtree.get id).isSome ∨
      e'.plumtree = { e.plumtree with
        pendingIhave := e.plumtree.pendingIhave ++ [(peerNodeId hop, id, peerNodeId origin)] } := by
    simp only [he', Plumtree.onIhave]
    split
    · next hseen => exact .inl ⟨rfl, hseen⟩
    · exact .inr rfl
  have hseen : e'.plumtree.seen = e.plumtree.seen := by
    rcases hqueue with ⟨heq, -⟩ | heq <;> rw [heq]
  have hget : ∀ i, e'.plumtree.get i = (net.endpoint u).plumtree.get i := by
    intro i
    rw [Plumtree.get, hseen, ← htree, Plumtree.get]
  have hpeer : ∀ n, e'.plumtree.Peer n ↔ e.plumtree.Peer n := by
    intro n
    rcases hqueue with ⟨heq, -⟩ | heq <;> rw [heq]
    rfl
  have hpend : ∀ p ∈ e'.plumtree.pendingIhave, p ∈ e.plumtree.pendingIhave ∨
      p.1 = peerNodeId hop := by
    intro p hp
    rcases hqueue with ⟨heq, -⟩ | heq
    · rw [heq] at hp
      exact .inl hp
    · rw [heq, List.mem_append, List.mem_singleton] at hp
      exact hp.imp_right fun heq => by rw [heq]
  have hsettled' : Settled s sent u e' := by
    refine ⟨hsettled.peers, fun n hn => hsettled.views n ((hpeer n).mp hn),
      fun v hedge hne => (hpeer _).mpr (hsettled.edges v hedge hne), fun p hp => ?_,
      fun i payload hi => hsettled.seen i payload ?_⟩
    · rcases hpend p hp with hp | hp
      · exact hsettled.pending p hp
      · show (e.peers.lookup p.1).isSome
        rw [hp, hknown]
        rfl
    · rwa [Plumtree.get, hseen] at hi
  have hkept : ∀ p ∈ (net.endpoint u).plumtree.pendingIhave, p ∈ e'.plumtree.pendingIhave := by
    intro p hp
    rw [← htree] at hp
    rcases hqueue with ⟨heq, -⟩ | heq <;> rw [heq]
    · exact hp
    · exact List.mem_append_left _ hp
  have hinv := h.inv.extend hs hu hsettled' hget hkept hcounts (nothing_sent sent e')
  rw [← gotOf_update e' hinbox] at hinv
  refine finish_control h.names (fun _ hev => by cases hev) hinv (fun m hm a o hc => ?_)
    fun m hm b hc => by cases hc
  cases hc
  rcases hqueue with ⟨heq, hsees⟩ | heq
  · exact .inl (by rwa [Endpoint.Sees, heq])
  · exact .inr ⟨peerNodeId origin, by rw [heq]; simp⟩

theorem onPrune_works (hs : Sound s M) (hu : u ∈ s.joined)
    (h : Works s M sent polled u hops (.prune hop :: ctrls) net) :
    ∃ net', net.onControl u (.prune hop) = (.ok (), net') ∧
      Works s M sent polled u hops ctrls net' := by
  have hkeeps := (net.endpoint u).plumtree.onPrune_keeps (peerNodeId hop)
  have hsettled := (h.inv.settled u hu).views_change hkeeps
  have hinv := h.inv.extend hs hu hsettled
    (fun id => by rw [Plumtree.get, hkeeps.seen, Plumtree.get])
    (fun p hp => by rwa [hkeeps.pending]) rfl (nothing_sent sent _)
  rw [← gotOf_update { net.endpoint u with
    plumtree := (net.endpoint u).plumtree.onPrune (peerNodeId hop) } rfl] at hinv
  exact finish_control h.names (fun _ hev => by cases hev) hinv (fun m hm a o hc => by cases hc)
    fun m hm b hc => by cases hc

theorem onGraft_works (hs : Sound s M) (hu : u ∈ s.joined) {id : MsgId}
    (h : Works s M sent polled u hops (.graft hop id :: ctrls) net) :
    ∃ net', net.onControl u (.graft hop id) = (.ok (), net') ∧
      Works s M sent polled u hops ctrls net' := by
  have hhop : hop ∈ s.joined := h.inv.control u hu (.graft hop id) (.inr ⟨rfl, List.mem_cons_self⟩)
  obtain ⟨hsettled, hknown⟩ := (h.inv.settled u hu).remember hs hhop
  obtain ⟨htree, hinbox, hcounts⟩ := remember_frame (net.endpoint u) hop
  simp only [Network.onControl]
  generalize (net.endpoint u).remember hop = e at hsettled hknown htree hinbox hcounts
  obtain ⟨heq, hbody⟩ := e.plumtree.onGraft_spec (peerNodeId hop) id
  generalize e.plumtree.onGraft (peerNodeId hop) id = r at heq hbody
  obtain ⟨events, plumtree⟩ := r
  obtain rfl : plumtree = _ := heq
  set e' : Endpoint := { e with plumtree := { e.plumtree with
    lazy := remove (peerNodeId hop) e.plumtree.lazy
    eager := e.plumtree.eager.insert (peerNodeId hop) } }
  have hget : ∀ i, e'.plumtree.get i = (net.endpoint u).plumtree.get i :=
    fun i => by rw [← htree]; rfl
  have hsettled' : Settled s sent u e' := by
    refine ⟨hsettled.peers, fun n hn => ?_,
      fun v hedge hne => Plumtree.peer_promote.mpr (.inr (hsettled.edges v hedge hne)),
      hsettled.pending, hsettled.seen⟩
    rcases Plumtree.peer_promote.mp hn with rfl | hn
    · show (e.peers.lookup _).isSome
      rw [hknown]
      rfl
    · exact hsettled.views n hn
  have hevents : ∀ ev ∈ events, ∀ dest msg, ev = .eager dest msg →
      ∃ m ∈ sent, e'.Sees m ∧ msg.payload = encodeAuthorityMsg m := by
    rintro ev hev dest msg rfl
    obtain ⟨payload, hpayload, hev⟩ := hbody.1 _ hev
    obtain ⟨m, hm, rfl, rfl⟩ := hsettled.seen id payload hpayload
    cases hev
    exact ⟨m, hm, by rw [Endpoint.Sees, hget, ← htree, hpayload]; rfl, rfl⟩
  have hinv :=
    h.inv.extend hs hu hsettled' hget (fun p hp => by rwa [← htree] at hp) hcounts hevents
  rw [← gotOf_update e' hinbox] at hinv
  refine finish_control h.names (fun ev hev => ?_) hinv (fun m hm a o hc => by cases hc)
    fun m hm b hc hsees => ?_
  · obtain ⟨payload, -, rfl⟩ := hbody.1 ev hev
    refine hsettled'.sendable hs h.inv.within ?_ (hevents _ hev)
    show (e.peers.lookup _).isSome
    rw [Gossip333.Event.dest, hknown]
    rfl
  · -- the body is here, so it goes out
    cases hc
    obtain ⟨payload, hpayload⟩ := Option.isSome_iff_exists.mp hsees
    rw [hget, ← htree] at hpayload
    obtain ⟨m', hm', rfl, hid⟩ := hsettled.seen _ payload hpayload
    obtain rfl := hs.ids m (h.inv.within m hm) m' (h.inv.within m' hm') hid
    refine ⟨_, hbody.2 _ hpayload, hknown, ?_⟩
    simp only [mailOf, hs.decodes m (h.inv.within m hm), Except.toOption, Option.map_some]

theorem onControl_works (hs : Sound s M) (hu : u ∈ s.joined)
    (h : Works s M sent polled u hops (c :: ctrls) net) :
    ∃ net', net.onControl u c = (.ok (), net') ∧ Works s M sent polled u hops ctrls net' := by
  cases c with
  | iHave hop id origin => exact onIhave_works hs hu h
  | graft hop id => exact onGraft_works hs hu h
  | prune hop => exact onPrune_works hs hu h

/-! ## The calls -/

/-- Nobody works on drained messages. -/
abbrev Rests (s : Setup) (M : Set AuthorityMsg) (sent : List AuthorityMsg)
    (polled : Str → List AuthorityMsg) (net : Network) : Prop :=
  ∀ u, Works s M sent polled u [] [] net

omit [KeyFormat] in
theorem held_nil (u v : Str) (net : Network) : net.held u [] [] = net.held v [] [] := by
  ext a x <;> simp [Network.held]

omit [KeyFormat] in
theorem Works.rests (h : Works s M sent polled u [] [] net) : Rests s M sent polled net :=
  fun v => ⟨h.names, held_nil u v net ▸ h.inv⟩

theorem onHops_works (hs : Sound s M) (hu : u ∈ s.joined) (order : Order)
    (h : Works s M sent polled u hops [] net) :
    ∃ net', net.onHops u order hops = (.ok (), net') ∧ Works s M sent polled u [] [] net' := by
  induction hops generalizing net with
  | nil => exact ⟨net, rfl, h⟩
  | cons x hops ih =>
    obtain ⟨w, m⟩ := x
    obtain ⟨net₁, hrun, h₁⟩ := onEagerPayload_works hs hu h order
    obtain ⟨net₂, hrest, h₂⟩ := ih h₁
    exact ⟨net₂, by simp only [Network.onHops, hrun, hrest], h₂⟩

theorem onControls_works (hs : Sound s M) (hu : u ∈ s.joined)
    (h : Works s M sent polled u [] ctrls net) :
    ∃ net', net.onControls u ctrls = (.ok (), net') ∧ Works s M sent polled u [] [] net' := by
  induction ctrls generalizing net with
  | nil => exact ⟨net, rfl, h⟩
  | cons c ctrls ih =>
    obtain ⟨net₁, hrun, h₁⟩ := onControl_works hs hu h
    obtain ⟨net₂, hrest, h₂⟩ := ih h₁
    exact ⟨net₂, by simp only [Network.onControls, hrun, hrest], h₂⟩

omit [KeyFormat] in
/-- Draining a mailbox changes who holds its messages, and nothing else. -/
theorem mem_drained {α : Type} (f : Str → List α) (u v : Str) (x : α) :
    x ∈ update f u [] v ∨ v = u ∧ x ∈ f u ↔ x ∈ f v := by
  by_cases hv : v = u
  · subst hv
    simp
  · simp [hv, update_of_ne]

theorem process_rests (hs : Sound s M) (hu : u ∈ s.joined) (h : Rests s M sent polled net)
    (order : Order) : Rests s M sent polled (net.process u order).2 := by
  have hmail : Works s M sent polled u (net.mail u) []
      { net with mail := update net.mail u [] } := by
    refine ⟨(h u).names, ?_⟩
    have hheld : Network.held { net with mail := update net.mail u [] } u (net.mail u) [] =
        net.held u [] [] := by
      ext v x
      · simp only [Network.held, mem_drained, List.not_mem_nil, and_false, or_false]
      · rfl
    rw [hheld]
    exact (h u).inv
  obtain ⟨net₁, hrun, h₁⟩ := onHops_works hs hu order hmail
  have hcontrol : Works s M sent polled u [] (net₁.control u)
      { net₁ with control := update net₁.control u [] } := by
    refine ⟨h₁.names, ?_⟩
    have hheld : Network.held { net₁ with control := update net₁.control u [] } u []
        (net₁.control u) = net₁.held u [] [] := by
      ext v x
      · rfl
      · simp only [Network.held, mem_drained, List.not_mem_nil, and_false, or_false]
    rw [hheld]
    exact h₁.inv
  obtain ⟨net₂, hrest, h₂⟩ := onControls_works hs hu hcontrol
  simp only [Network.process, hrun, hrest]
  exact h₂.rests

omit [KeyFormat] in
/-- The announcements of a tick are settled, or requested. -/
theorem Inv.drain (h : Inv s M ep t sent got) (hu : u ∈ s.joined)
    (hdebt : ∀ m ∈ sent, ∀ a ∈ s.joined, ∀ origin,
      (peerNodeId a, msgId m, origin) ∈ (ep u).plumtree.pendingIhave →
        (ep u).Sees m ∨ t.control a (.graft u (msgId m))) :
    Inv s M (update ep u
      { ep u with plumtree := { (ep u).plumtree with pendingIhave := [] } }) t sent got := by
  have hold := h.settled u hu
  refine h.change hu ⟨hold.peers, hold.views, hold.edges, nofun, hold.seen⟩ (fun _ => rfl) rfl
    (fun _ _ => .inl) (fun _ _ => .inl) fun m hm a b hab howed => ?_
  rcases howed with howed | howed | ⟨o, howed⟩ | howed
  · exact .inr (.inl howed)
  · exact .inr (.inr (.inl howed))
  · by_cases hbu : b = u
    · subst hbu
      exact (hdebt m hm a hab.1 o howed).imp_right fun hgraft => .inr (.inr (.inr hgraft))
    · exact .inr (.inr (.inr (.inl ⟨o, by rwa [update_of_ne hbu]⟩)))
  · exact .inr (.inr (.inr (.inr howed)))

theorem tick_rests (hs : Sound s M) (hu : u ∈ s.joined) (h : Rests s M sent polled net) :
    Rests s M sent polled (net.tick u).2 := by
  obtain ⟨hnames, hinv⟩ := h u
  have hsettled := hinv.settled u hu
  set events := (net.endpoint u).plumtree.tick.1 with hevents
  have hmem : ∀ ev, ev ∈ events ↔ ∃ p ∈ (net.endpoint u).plumtree.pendingIhave,
      (net.endpoint u).plumtree.get p.2.1 = none ∧ ev = .graft p.1 p.2.1 := by
    intro ev
    simp only [hevents, Plumtree.tick, List.mem_map, List.mem_filter, Option.isNone_iff_eq_none,
      and_assoc]
    exact exists_congr fun p => and_congr_right fun _ => and_congr_right fun _ => eq_comm
  have hgraft : ∀ ev ∈ events, ∀ dest msg, ev = .eager dest msg →
      ∃ m ∈ sent, (net.endpoint u).Sees m ∧ msg.payload = encodeAuthorityMsg m := by
    rintro ev hev dest msg rfl
    obtain ⟨p, -, -, heq⟩ := (hmem _).mp hev
    cases heq
  have hext := hinv.extend hs hu hsettled (fun _ => rfl) (fun _ hp => hp) rfl hgraft
  rw [update_eq_self] at hext
  have hdrain := hext.drain hu fun m hm a ha o hp => by
    by_cases hseen : (net.endpoint u).Sees m
    · exact .inl hseen
    · have hnone : (net.endpoint u).plumtree.get (msgId m) = none :=
        Option.not_isSome_iff_eq_none.mp hseen
      exact .inr (.inr ⟨_, (hmem _).mpr ⟨_, hp, hnone, rfl⟩,
        hsettled.lookup_eq hs ha (hsettled.pending _ hp), rfl⟩)
  set e' : Endpoint := { net.endpoint u with plumtree := (net.endpoint u).plumtree.tick.2 }
  have hafter :
    Inv s M (update net.endpoint u e') ((net.held u [] []).plus e' u events) sent
      (gotOf polled (update net.endpoint u e')) := by
    rw [gotOf_update e' rfl]
    exact hdrain
  have hsend : ∀ ev ∈ events, Sendable s.joined e' ev := by
    intro ev hev
    obtain ⟨p, hp, -, rfl⟩ := (hmem ev).mp hev
    obtain ⟨v, hv⟩ := Option.isSome_iff_exists.mp (hsettled.pending p hp)
    exact ⟨⟨v, (hsettled.peers _ _ hv).1, hv⟩, fun _ _ heq => by cases heq⟩
  obtain ⟨net', hrun, hworks⟩ := dispatch_works hnames hsend hafter
  have htick : (net.tick u).2 = net' := congrArg Prod.snd hrun
  rw [htick]
  exact hworks.rests

omit [KeyFormat] in
/-- A message that was broadcast before. -/
theorem Inv.again (h : Inv s M ep t sent got) (hm : m ∈ sent) : Inv s M ep t (m :: sent) got := by
  have hsub : ∀ m' ∈ m :: sent, m' ∈ sent := fun m' hm' =>
    (List.mem_cons.mp hm').elim (fun heq => heq ▸ hm) id
  exact ⟨fun v hv => (h.settled v hv).mono fun _ => List.mem_cons_of_mem _,
    fun m' hm' => h.within m' (hsub m' hm'),
    fun v hv x hx =>
      have ⟨a, ha, m', hm', hrest⟩ := h.mail v hv x hx
      ⟨a, ha, m', List.mem_cons_of_mem _ hm', hrest⟩,
    h.control, fun m' hm' => h.flooding m' (hsub m' hm'), fun m' hm' => h.started m' (hsub m' hm'),
    h.received, h.counted⟩

theorem broadcast_rests (hs : Sound s M) (hu : u ∈ s.joined) (h : Rests s M sent polled net)
    (hm : m ∈ M) (order : Order) :
    Rests s M (m :: sent) polled (net.broadcastMsg u m order).2 := by
  obtain ⟨hnames, hinv⟩ := h u
  have hsettled := hinv.settled u hu
  set e := net.endpoint u with he
  have hget : ∀ id, Plumtree.get
      { e.plumtree with seen := (msgId m, encodeAuthorityMsg m) :: e.plumtree.seen } id =
      if id = msgId m then some (encodeAuthorityMsg m) else e.plumtree.get id :=
    fun id => Plumtree.get_cons _ _ _ _
  by_cases hsees : e.Sees m
  · -- the same body is stored once more
    obtain ⟨payload, hpayload⟩ := Option.isSome_iff_exists.mp hsees
    obtain ⟨m', hm', rfl, hid⟩ := hsettled.seen _ payload hpayload
    obtain rfl := hs.ids m hm m' (hinv.within m' hm') hid
    set e' : Endpoint :=
      { e with
        plumtree :=
          { e.plumtree with seen := (msgId m, encodeAuthorityMsg m) :: e.plumtree.seen } }
    have hsame : ∀ id, e'.plumtree.get id = e.plumtree.get id := by
      intro id
      rw [hget]
      split
      · next heq => rw [heq, hpayload]
      · rfl
    have hsettled' : Settled s sent u e' :=
      ⟨hsettled.peers, hsettled.views, hsettled.edges, hsettled.pending,
        fun id payload hid => hsettled.seen id payload (hsame id ▸ hid)⟩
    have hext := hinv.extend hs hu hsettled' hsame (fun _ hp => hp) rfl (nothing_sent sent e')
    rw [← gotOf_update e' rfl] at hext
    obtain ⟨net', hrun, hworks⟩ :=
      dispatch_works hnames (fun _ hev => by cases hev) (hext.again hm')
    have hcall : (net.broadcastMsg u m order).2 = net' := by
      have hseen : (e.plumtree.get (msgIdOf (encodeAuthorityMsg m))).isSome = true := hsees
      simp only [Network.broadcastMsg, ← he, Plumtree.broadcast, hseen, if_true]
      exact congrArg Prod.snd hrun
    rw [hcall]
    exact hworks.rests
  · obtain ⟨-, hsend, hafter⟩ := store_inv hs hu hinv hm List.mem_cons_self
      (fun _ => List.mem_cons_of_mem _) (fun _ hm' => (List.mem_cons.mp hm').symm) hsettled rfl rfl
      rfl hsees order (fun _ => true) fun _ _ _ => .inl rfl
    obtain ⟨net', hrun, hworks⟩ := dispatch_works hnames hsend hafter
    have hcall : (net.broadcastMsg u m order).2 = net' := by
      have hunseen : ¬ (e.plumtree.get (msgIdOf (encodeAuthorityMsg m))).isSome = true := hsees
      simp only [Network.broadcastMsg, ← he, Plumtree.broadcast, if_neg hunseen]
      exact congrArg Prod.snd hrun
    rw [hcall]
    exact hworks.rests

/-- The inbox moves to what `poll` has returned. -/
theorem poll_rests (hs : Sound s M) (hu : u ∈ s.joined) (h : Rests s M sent polled net)
    (order : Order) :
    Rests s M sent (update polled u (polled u ++ (net.poll u order).1))
      (net.poll u order).2 := by
  obtain ⟨hnames, hinv⟩ := process_rests hs hu h order u
  simp only [Network.poll]
  generalize (net.process u order).2 = net at hnames hinv
  have hsettled := hinv.settled u hu
  set e' : Endpoint := { net.endpoint u with appInbox := [] }
  have hsettled' : Settled s sent u e' :=
    ⟨hsettled.peers, hsettled.views, hsettled.edges, hsettled.pending, hsettled.seen⟩
  have hext :=
    hinv.extend hs hu hsettled' (fun _ => rfl) (fun _ hp => hp) rfl (nothing_sent sent e')
  have hgot : gotOf (update polled u (polled u ++ (net.endpoint u).appInbox))
      (update net.endpoint u e') = gotOf polled net.endpoint := by
    funext v
    unfold gotOf
    by_cases hv : v = u
    · subst hv
      rw [update_self, update_self, List.append_nil]
    · rw [update_of_ne hv, update_of_ne hv]
  rw [← hgot] at hext
  obtain ⟨net', hrun, hworks⟩ := dispatch_works hnames (fun _ hev => by cases hev) hext
  obtain rfl : net.setEndpoint u e' = net' := congrArg Prod.snd hrun
  exact hworks.rests

/-! ## Runs -/

/-- A fresh endpoint after calls of `add_peer` for the names of `known`. -/
structure Prepared (known : Set Str) (u : Str) (added : List Str) (e : Endpoint) : Prop where
  me : e.me = u
  seen : e.plumtree.seen = []
  pending : e.plumtree.pendingIhave = []
  lazy : e.plumtree.lazy = []
  inbox : e.appInbox = []
  counts : e.deliverCounts = fun _ => 0
  peers : ∀ n v, e.peers.lookup n = some v → v ∈ known ∧ peerNodeId v = n
  views : ∀ n, e.plumtree.Peer n → (e.peers.lookup n).isSome
  edges : ∀ v ∈ added, v ≠ u → e.plumtree.Peer (peerNodeId v)

section

omit [KeyFormat]

theorem prepared_join (known : Set Str) (u : Str) : Prepared known u [] (.join u) :=
  ⟨rfl, rfl, rfl, rfl, rfl, rfl, fun _ _ h => (by cases h),
    fun _ h => (by rcases h with h | h <;> cases h), fun _ h => (by cases h)⟩

theorem Prepared.addPeer {known : Set Str} {added : List Str}
    (h : Prepared known u added e) (hv : v ∈ known) :
    Prepared known u (added ++ [v]) (e.addPeer v) := by
  have hedge : ∀ t : Plumtree, (∀ n, e.plumtree.Peer n → t.Peer n) →
      (v ≠ u → t.Peer (peerNodeId v)) → ∀ w ∈ added ++ [v], w ≠ u → t.Peer (peerNodeId w) := by
    intro t hold hnew w hw hne
    rcases List.mem_append.mp hw with hw | hw
    · exact hold _ (h.edges w hw hne)
    · obtain rfl := List.mem_singleton.mp hw
      exact hnew hne
  unfold Endpoint.addPeer
  split
  · next heq =>
    exact ⟨h.me, h.seen, h.pending, h.lazy, h.inbox, h.counts, h.peers, h.views,
      hedge e.plumtree (fun _ hn => hn) fun hne => absurd (heq.trans h.me) hne⟩
  · refine ⟨h.me, h.seen, h.pending, ?_, h.inbox, h.counts, fun n w hn => ?_, fun n hn => ?_,
      hedge _ (fun n hn => Plumtree.peer_promote.mpr (.inr hn))
        fun _ => Plumtree.peer_promote.mpr (.inl rfl)⟩
    · simp only [Plumtree.addPeer, h.lazy, remove, List.filter_nil]
    · rw [List.lookup_cons] at hn
      split at hn
      · next heq =>
        cases hn
        exact ⟨hv, (beq_iff_eq.mp heq).symm⟩
      · exact h.peers n w hn
    · rw [List.lookup_cons]
      rcases Plumtree.peer_promote.mp hn with rfl | hn
      · simp
      · split <;> simp [h.views n hn]

theorem prepared_start {known : Set Str} (s : Setup) (hknown : ∀ v ∈ s.added u, v ∈ known) :
    Prepared known u (s.added u) (s.start.net.endpoint u) := by
  have hfold : ∀ (l added : List Str) (e : Endpoint), (∀ v ∈ l, v ∈ known) →
      Prepared known u added e → Prepared known u (added ++ l) (l.foldl Endpoint.addPeer e) := by
    intro l
    induction l with
    | nil => intro added e _ h; simpa using h
    | cons v l ih =>
      intro added e hl h
      have := ih (added ++ [v]) (e.addPeer v) (fun w hw => hl w (List.mem_cons_of_mem _ hw))
        (h.addPeer (hl v List.mem_cons_self))
      simpa using this
  exact hfold _ [] _ hknown (prepared_join known u)

end

theorem start_rests (hs : Sound s M) : Rests s M [] (fun _ => []) s.start.net := by
  intro u
  have hprep : ∀ {v}, v ∈ s.joined →
      Prepared {n | n ∈ s.joined} v (s.added v) (s.start.net.endpoint v) :=
    fun hv => prepared_start s (hs.joined _ hv)
  have hunseen : ∀ v ∈ s.joined, ∀ m, ¬ (s.start.net.endpoint v).Sees m := by
    intro v hv m hsees
    rw [Endpoint.Sees, Plumtree.get, (hprep hv).seen] at hsees
    cases hsees
  refine ⟨rfl, fun v hv => ?_, fun m hm => (by cases hm), fun v hv x hx => ?_, fun v hv c hc => ?_,
    fun m hm => (by cases hm), fun m hm => (by cases hm), fun v hv m hm => ?_, fun v hv m hm => ?_⟩
  · obtain ⟨-, hseen, hpend, -, -, -, hpeers, hviews, hedges⟩ := hprep hv
    refine ⟨hpeers, hviews, fun w hedge hne => hedges w hedge.2.2 hne, fun p hp => ?_,
      fun id payload hid => ?_⟩
    · rw [hpend] at hp
      cases hp
    · rw [Plumtree.get, hseen] at hid
      cases hid
  · rcases hx with hx | ⟨-, hx⟩ <;> cases hx
  · rcases hc with hc | ⟨-, hc⟩ <;> cases hc
  · rw [if_neg (hunseen v hv m), gotOf, (hprep hv).inbox]
    rfl
  · rw [if_neg (hunseen v hv m), (hprep hv).counts]

/-- The messages that a call may broadcast. -/
def Call.Within (M : Set AuthorityMsg) : Call → Prop
  | .broadcast _ msg _ => msg ∈ M
  | _ => True

theorem rests_of_reachable (hs : Sound s M) {w : World}
    (h : Reachable World.step (fun _ c => c.Within M) s.start w) :
    Rests s M w.sent w.polled w.net := by
  refine h.invariant (I := fun w => Rests s M w.sent w.polled w.net) (start_rests hs) ?_
  intro w call w' _ hw hok hstep
  unfold World.step at hstep
  split at hstep
  · next hwho =>
    rw [(hw call.who).names] at hwho
    cases hstep
    cases call with
    | broadcast who msg order => exact broadcast_rests hs hwho hw hok order
    | process who order => exact process_rests hs hwho hw order
    | tick who => exact tick_rests hs hwho hw
    | poll who order => exact poll_rests hs hwho hw order
  · cases hstep

end Steps

/-- Epidemic dissemination reaches every application exactly once: in every run over connections
between endpoints that have all joined, whatever is broadcast within the bounds of the wire format
and however the calls interleave, every application has received every message once in each state in
which nothing is under way. The counter of the endpoint says so too. -/
theorem exactly_once [KeyFormat] {s : Setup} {M : Set AuthorityMsg} {w : World}
    (hjoined : s.AllJoined) (hfits : ∀ m ∈ M, m.Fits)
    (hnames : ∀ u ∈ s.names, ∀ v ∈ s.names, peerNodeId u = peerNodeId v → u = v)
    (hids : ∀ m ∈ M, ∀ m' ∈ M, msgId m = msgId m' → encodeAuthorityMsg m = encodeAuthorityMsg m')
    (h : Reachable World.step (fun _ c => c.Within M) s.start w) (hquiet : w.net.Quiet)
    {u : Str} (hu : u ∈ s.joined) {m : AuthorityMsg} (hm : m ∈ w.sent) :
    (w.received u).count m = 1 ∧ (w.net.endpoint u).deliverCounts (msgId m) = 1 := by
  have hdecodes : ∀ m ∈ M, decodeAuthorityMsg (encodeAuthorityMsg m) = .ok m :=
    fun m hm => decodeAuthorityMsg_encode (hfits m hm)
  have hs : Sound s M := by
    refine ⟨hjoined, hdecodes, fun u hu v hv => hnames u (.inl hu) v (.inl hv), ?_⟩
    intro m hm m' hm' hid
    have heq := hdecodes m hm
    rw [hids m hm m' hm' hid, hdecodes m' hm'] at heq
    exact (Except.ok.inj heq).symm
  obtain ⟨hnet, hinv⟩ := rests_of_reachable hs h u
  obtain ⟨a, ha, hsees⟩ := hinv.started m hm
  have hnone : ∀ b c, s.edge b c → ¬ Owes w.net.endpoint (w.net.held u [] []) m b c := by
    rintro b c ⟨hb, hc, -⟩ howed
    obtain ⟨-, hcontrolb, -⟩ := hquiet b (hnet ▸ hb)
    obtain ⟨hmailc, hcontrolc, hpendc⟩ := hquiet c (hnet ▸ hc)
    simp [Owes, Network.held, hmailc, hcontrolb, hcontrolc, hpendc] at howed
  have hreached : (w.net.endpoint u).Sees m :=
    (hinv.flooding m hm).informed_of_path hnone (s.connected a ha u hu) hsees
  exact ⟨(hinv.received u hu m (hinv.within m hm)).trans (if_pos hreached),
    (hinv.counted u hu m (hinv.within m hm)).trans (if_pos hreached)⟩

/-! ## A name that never joined -/

/-- The order that visits the peer `n` first. -/
def firstOrder (n : NodeId) : Order where
  eager _ l := if n ∈ l then n :: l.erase n else l
  lazy _ l := l
  eager_perm _ l := by
    split
    · next h => exact (List.perm_cons_erase h).symm
    · exact .refl l
  lazy_perm _ l := .refl l

theorem dispatchEvents_ghost [KeyFormat] {net : Network} {u ghost : Str} {n : NodeId}
    (hlookup : (net.endpoint u).peers.lookup n = some ghost) (hnever : ghost ∉ net.names)
    (msg : Msg) (rest : List Gossip333.Event) :
    (net.dispatchEvents u (.eager n msg :: rest)).2 = net := by
  have hresolve : (net.endpoint u).resolvePeer n = .ok ghost := by
    simp only [Endpoint.resolvePeer, hlookup]
  have hfails : ∃ e, net.dispatchEvent u (.eager n msg) = (.error e, net) := by
    simp only [Network.dispatchEvent, Gossip333.Event.dest, hresolve]
    split
    · exact ⟨_, rfl⟩
    · exact ⟨_, by rw [Network.deliverToFrom, if_neg hnever]⟩
  obtain ⟨e, he⟩ := hfails
  simp only [Network.dispatchEvents, he]

/-- An endpoint that has added a name that never joined: one broadcast, with that name first in the
hash set, leaves nothing under way, and no other application has the message. -/
theorem ghost_starves [KeyFormat] {s : Setup} {u ghost : Str} (hu : u ∈ s.joined)
    (hghost : ghost ∈ s.added u) (hnever : ghost ∉ s.joined)
    (hnames : ∀ a ∈ s.names, ∀ b ∈ s.names, peerNodeId a = peerNodeId b → a = b)
    (m : AuthorityMsg) :
    ∃ w, Reachable World.step (fun _ c => c.Within {m}) s.start w ∧ w.net.Quiet ∧ w.sent = [m] ∧
      ∀ v ∈ s.joined, v ≠ u → w.received v = [] := by
  have hprep : ∀ {v}, v ∈ s.joined →
      Prepared s.names v (s.added v) (s.start.net.endpoint v) :=
    fun {v} hv => prepared_start s fun w hw => .inr ⟨v, hv, hw⟩
  have hself := hprep hu
  have hne : ghost ≠ u := fun heq => hnever (heq ▸ hu)
  have hpeer : (s.start.net.endpoint u).plumtree.Peer (peerNodeId ghost) :=
    hself.edges ghost hghost hne
  have hlookup : (s.start.net.endpoint u).peers.lookup (peerNodeId ghost) = some ghost := by
    obtain ⟨v, hv⟩ := Option.isSome_iff_exists.mp (hself.views _ hpeer)
    obtain ⟨hvn, hid⟩ := hself.peers _ _ hv
    rw [hv, hnames v hvn ghost (.inr ⟨u, hu, hghost⟩) hid]
  have heager : peerNodeId ghost ∈ (s.start.net.endpoint u).plumtree.eager := by
    rcases hpeer with h | h
    · exact h
    · rw [hself.lazy] at h
      cases h
  have hunseen : (s.start.net.endpoint u).plumtree.get (msgId m) = none := by
    rw [Plumtree.get, hself.seen]
    rfl
  have hcall : (s.start.net.broadcastMsg u m (firstOrder (peerNodeId ghost))).2 =
      s.start.net.setEndpoint u ((s.start.net.endpoint u).store m) := by
    have hnone : (s.start.net.endpoint u).plumtree.get (msgIdOf (encodeAuthorityMsg m)) = none :=
      hunseen
    simp only [Network.broadcastMsg, Plumtree.broadcast, hnone, Option.isSome_none,
      Bool.false_eq_true, if_false, Plumtree.fanout, firstOrder, if_pos heager, List.filter_cons,
      if_true, List.map_cons, List.cons_append]
    refine dispatchEvents_ghost ?_ hnever _ _
    simp only [Network.setEndpoint, update_self]
    exact hlookup
  have hstep : s.start.step (.broadcast u m (firstOrder (peerNodeId ghost))) =
      some { s.start with
        net := s.start.net.setEndpoint u ((s.start.net.endpoint u).store m), sent := [m] } := by
    simp only [World.step, Call.who, hcall]
    exact if_pos hu
  refine ⟨_, .tail .refl (by exact rfl) hstep, fun v hv => ⟨rfl, rfl, ?_⟩, rfl, fun v hv hvu => ?_⟩
  · by_cases hvu : v = u
    · subst hvu
      simp only [Network.setEndpoint, update_self]
      exact hself.pending
    · simp only [Network.setEndpoint, update_of_ne hvu]
      exact (hprep hv).pending
  · simp only [World.received, Network.setEndpoint, update_of_ne hvu]
    exact (hprep hv).inbox

/-! ## Two endpoints -/

namespace Demo

open Transfer333.Demo

def left : Str := ⟨"a0", Str.fits_a0⟩
def right : Str := ⟨"a1", Str.fits_a1⟩
def ghost : Str := ⟨"ghost", by decide⟩

/-- Two endpoints that know each other. The first one was given further names. -/
def pair (ghosts : List Str) : Setup where
  joined := [left, right]
  added u := if u = left then right :: ghosts else if u = right then [left] else []
  both := by
    have hne : right ≠ left := by decide
    intro u hu v hv
    rcases List.mem_pair.mp hu with rfl | rfl <;> rcases List.mem_pair.mp hv with rfl | rfl <;>
      simp [hne]
  connected := by
    have hne : right ≠ left := by decide
    intro u hu v hv
    rcases List.mem_pair.mp hu with rfl | rfl <;> rcases List.mem_pair.mp hv with rfl | rfl
    · exact .refl
    · exact .single ⟨by simp, by simp, by simp⟩
    · exact .single ⟨by simp, by simp, by simp [hne]⟩
    · exact .refl

def note : AuthorityMsg :=
  .epochProposal
    { networkId := ⟨left, by decide, by decide⟩, policyId := bytes32 2, epoch := 1,
      nextRoster := [] }

def listOrder : Order := ⟨fun _ l => l, fun _ l => l, fun _ _ => .refl _, fun _ _ => .refl _⟩

/-- With a name that never joined among the added ones, a neighbour misses a broadcast. -/
theorem ghost_starves_pair :
    (∀ u ∈ (pair [ghost]).names, ∀ v ∈ (pair [ghost]).names,
      peerNodeId u = peerNodeId v → u = v) ∧
    ∃ w, Reachable World.step (fun _ c => c.Within {note}) (pair [ghost]).start w ∧ w.net.Quiet ∧
      note ∈ w.sent ∧ right ∈ (pair [ghost]).joined ∧ (w.received right).count note ≠ 1 := by
  have hnames : ∀ u ∈ (pair [ghost]).names, u ∈ [left, right, ghost] := by
    rintro u (hu | ⟨v, hv, hu⟩)
    · rcases List.mem_pair.mp hu with rfl | rfl <;> simp
    · rcases List.mem_pair.mp hv with rfl | rfl
      · simp only [pair, if_true] at hu
        exact List.mem_cons_of_mem _ hu
      · have hne : right ≠ left := by decide
        simp only [pair, if_neg hne, if_true] at hu
        rw [List.mem_singleton.mp hu]
        exact List.mem_cons_self
  have hdistinct : ∀ u ∈ [left, right, ghost], ∀ v ∈ [left, right, ghost],
      peerNodeId u = peerNodeId v → u = v := by
    decide +kernel
  have hinj : ∀ u ∈ (pair [ghost]).names, ∀ v ∈ (pair [ghost]).names,
      peerNodeId u = peerNodeId v → u = v :=
    fun u hu v hv => hdistinct u (hnames u hu) v (hnames v hv)
  have hleft : left ∈ (pair [ghost]).joined := by decide
  have hadded : ghost ∈ (pair [ghost]).added left := by decide
  obtain ⟨w, hw, hquiet, hsent, hstarved⟩ :=
    ghost_starves hleft hadded (by decide) hinj note
  have hmissed : w.received right = [] := hstarved right (by decide) (by decide)
  refine ⟨hinj, w, hw, hquiet, ?_, by decide, ?_⟩
  · rw [hsent]
    exact List.mem_cons_self
  · rw [hmissed]
    decide

instance (net : Network) : Decidable net.Quiet :=
  inferInstanceAs (Decidable (∀ u ∈ net.names, _ ∧ _ ∧ _))

instance (m : AuthorityMsg) : (c : Call) → Decidable (c.Within {m})
  | .broadcast _ msg _ => inferInstanceAs (Decidable (msg = m))
  | .process _ _ | .tick _ | .poll _ _ => .isTrue trivial

/-- Without it, the broadcast arrives. -/
theorem exactly_once_demo :
    ∃ w, Reachable World.step (fun _ c => c.Within {note}) (pair []).start w ∧
      note ∈ w.sent ∧ (w.received right).count note = 1 := by
  have hrun : ∃ w, Reachable World.step (fun _ c => c.Within {note}) (pair []).start w ∧
      w.net.Quiet ∧ note ∈ w.sent :=
    Reachable.of_exec
      [.broadcast left note listOrder, .process right listOrder, .process left listOrder]
      (by decide +kernel)
  obtain ⟨w, hw, hquiet, hsent⟩ := hrun
  have hjoined : (pair []).AllJoined := by
    unfold Setup.AllJoined
    decide
  have hnames : ∀ u ∈ (pair []).names, u ∈ [left, right] := by
    rintro u (hu | ⟨v, hv, hu⟩)
    · exact hu
    · exact hjoined v hv u hu
  have hdistinct : ∀ u ∈ [left, right], ∀ v ∈ [left, right],
      peerNodeId u = peerNodeId v → u = v := by
    decide +kernel
  refine ⟨w, hw, hsent, (exactly_once hjoined ?_ ?_ ?_ hw hquiet (by decide) hsent).1⟩
  · rintro m rfl
    decide
  · exact fun u hu v hv => hdistinct u (hnames u hu) v (hnames v hv)
  · rintro m rfl m' rfl -
    rfl

end Demo

end P2P333.Transfer333.Epidemic
