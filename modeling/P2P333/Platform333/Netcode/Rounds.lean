import P2P333.Platform333.Netcode.BftMultiNode

/-!
# Rounds of an honest cluster

The mail between the nodes of a harness, and what a round of the loop makes of a cluster in which
all nodes are honest. Nodes are told apart by their ids.

Results:
1. `route_votes`: votes fit into the inbox of the leader, or the harness blocks.
2. `Stage.round`: what each node makes of its inbox, a round makes of all.
3. `Stage.committing`: the same for the round that commits.
-/

namespace P2P333.Platform333.Netcode

open Platform333.Bft

/-! ## Mail -/

theorem mapM_eq_some {α β : Type} {l : List α} {f : α → Option β} {g : α → β}
    (h : ∀ a ∈ l, f a = some (g a)) : l.mapM f = some (l.map g) := by
  induction l with
  | nil => rfl
  | cons a l ih =>
    rw [List.mapM_cons, h a List.mem_cons_self, ih fun b hb => h b (List.mem_cons_of_mem _ hb)]
    rfl

/-- Messages for each node come into its inbox. -/
def mailed (mail : NodeId → List HotStuffMsg) (slots : List NodeSlot) : List NodeSlot :=
  slots.map fun slot => { slot with inbox := slot.inbox ++ mail slot.nodeId }

variable {slots : List NodeSlot} {slot : NodeSlot} {idx : Nat} {msg : HotStuffMsg}
  {msgs : List HotStuffMsg}

theorem ids_mailed (mail : NodeId → List HotStuffMsg) (slots : List NodeSlot) :
    (mailed mail slots).map NodeSlot.nodeId = slots.map NodeSlot.nodeId := by
  rw [mailed, List.map_map]
  rfl

theorem mailed_mailed (mail mail' : NodeId → List HotStuffMsg) (slots : List NodeSlot) :
    mailed mail' (mailed mail slots) = mailed (fun id => mail id ++ mail' id) slots := by
  simp only [mailed, List.map_map, Function.comp_def, List.append_assoc]

theorem mailed_nil (slots : List NodeSlot) : mailed (fun _ => []) slots = slots := by
  simp only [mailed, List.append_nil]
  exact List.map_id _

theorem send_eq (slot : NodeSlot) (msg : HotStuffMsg) : slot.send msg =
    if slot.inbox.length < inboxCapacity then some { slot with inbox := slot.inbox ++ [msg] }
    else none := rfl

theorem broadcastToAll_eq (h : ∀ slot ∈ slots, slot.inbox.length < inboxCapacity) :
    broadcastToAll slots msg = some (mailed (fun _ => [msg]) slots) :=
  mapM_eq_some fun slot hslot => if_pos (h slot hslot)

/-- Nodes are told apart by their ids. -/
theorem set_eq_map (hids : (slots.map NodeSlot.nodeId).Nodup) (hslot : slots[idx]? = some slot)
    (new : NodeSlot) :
    slots.set idx new = slots.map fun x => if x.nodeId = slot.nodeId then new else x := by
  obtain ⟨hidx, rfl⟩ := List.getElem?_eq_some_iff.mp hslot
  refine List.ext_getElem (by simp) fun i hi hi' => ?_
  rw [List.length_set] at hi
  rw [List.getElem_set, List.getElem_map]
  by_cases hsame : idx = i
  · subst hsame
    rw [if_pos rfl, if_pos rfl]
  · rw [if_neg hsame, if_neg]
    intro heq
    have heq := List.inj_on_of_nodup_map hids (List.getElem_mem hi) (List.getElem_mem hidx) heq
    exact hsame (hids.of_map.getElem_inj_iff.mp heq).symm

/-- A message for one node. -/
def mailTo (receiver : NodeId) (msgs : List HotStuffMsg) : NodeId → List HotStuffMsg :=
  fun id => if id = receiver then msgs else []

section

variable (hids : (slots.map NodeSlot.nodeId).Nodup) (hslot : slots[idx]? = some slot)
include hids hslot

theorem deliverTo_eq (msg : HotStuffMsg) : deliverTo slots idx msg =
      if slot.inbox.length < inboxCapacity then some (mailed (mailTo slot.nodeId [msg]) slots)
      else none := by
  rw [deliverTo, hslot]
  dsimp only [Option.bind_eq_bind, Option.bind_some]
  rw [send_eq]
  split_ifs
  · rw [Option.bind_some, set_eq_map hids hslot, mailed]
    refine congrArg some (List.map_congr_left fun x hx => ?_)
    by_cases hid : x.nodeId = slot.nodeId
    · have hx : x = slot :=
        List.inj_on_of_nodup_map hids hx (List.mem_of_getElem? hslot) hid
      rw [if_pos hid, mailTo, if_pos hid, hx]
    · rw [if_neg hid, mailTo, if_neg hid, List.append_nil]
  · rfl

theorem broadcastExcept_eq (hroom : ∀ x ∈ slots, x.inbox.length < inboxCapacity) :
    broadcastExcept slots idx msg =
      some (mailed (fun id => if id = slot.nodeId then [] else [msg]) slots) := by
  have heach : ∀ p ∈ slots.zipIdx, (if p.2 ≠ idx then p.1.send msg else some p.1) =
      some { p.1 with
        inbox := p.1.inbox ++ if p.1.nodeId = slot.nodeId then [] else [msg] } := by
    rintro ⟨x, i⟩ hp
    have hx : slots[i]? = some x := List.mem_zipIdx_iff_getElem?.mp hp
    have hmem := List.mem_of_getElem? hx
    by_cases hi : i = idx
    · subst hi
      cases hx.symm.trans hslot
      rw [if_neg (not_not.mpr rfl), if_pos rfl, List.append_nil]
    · have hne : x.nodeId ≠ slot.nodeId := fun heq => hi (by
        have hsame := List.inj_on_of_nodup_map hids hmem (List.mem_of_getElem? hslot) heq
        subst hsame
        exact (List.getElem?_inj (List.getElem?_eq_some_iff.mp hx).1 hids.of_map).mp
          (hx.trans hslot.symm))
      rw [if_pos hi, if_neg hne, send_eq, if_pos (hroom x hmem)]
  rw [broadcastExcept, mapM_eq_some heach, mailed]
  conv_rhs => rw [← List.zipIdx_map_fst 0 slots, List.map_map]
  rfl

/-- A proposal goes to all other nodes first, and then to the leader. -/
theorem send_all (hempty : ∀ x ∈ slots, x.inbox = []) (msg : HotStuffMsg) :
    ∃ sent, broadcastExcept slots idx msg = some sent ∧
      deliverTo sent idx msg = some (mailed (fun _ => [msg]) slots) := by
  have hroom : ∀ x ∈ slots, x.inbox.length < inboxCapacity := fun x hx => by
    rw [hempty x hx]
    decide
  refine ⟨_, broadcastExcept_eq hids hslot hroom, ?_⟩
  have hat : (mailed (fun id => if id = slot.nodeId then [] else [msg]) slots)[idx]? =
      some slot := by
    rw [mailed, List.getElem?_map, hslot, Option.map_some, if_pos rfl, List.append_nil]
  rw [deliverTo_eq ((ids_mailed _ slots).symm ▸ hids) hat,
    if_pos (hroom slot (List.mem_of_getElem? hslot)), mailed_mailed]
  refine congrArg (fun mail => some (mailed mail slots)) (funext fun id => ?_)
  unfold mailTo
  split_ifs <;> rfl

/-- Votes all go to one node, and fit into its inbox or block. -/
theorem route_votes (hroom : slot.inbox.length ≤ inboxCapacity)
    (hmsgs : ∀ msg ∈ msgs, ∃ blockHash view phase sig, msg = .vote blockHash view phase sig) :
    msgs.foldlM (route idx) slots =
      if slot.inbox.length + msgs.length ≤ inboxCapacity then
        some (mailed (mailTo slot.nodeId msgs) slots)
      else none := by
  induction msgs generalizing slots slot with
  | nil =>
    have hmail : mailTo slot.nodeId [] = fun _ => [] := funext fun id => by simp [mailTo]
    rw [List.length_nil, Nat.add_zero, if_pos hroom, hmail, mailed_nil]
    rfl
  | cons msg rest ih =>
    obtain ⟨blockHash, view, phase, sig, rfl⟩ := hmsgs msg List.mem_cons_self
    rw [List.foldlM_cons, route, deliverTo_eq hids hslot]
    by_cases hfree : slot.inbox.length < inboxCapacity
    · have hslot' : (mailed (mailTo slot.nodeId [.vote blockHash view phase sig]) slots)[idx]? =
          some { slot with inbox := slot.inbox ++ [.vote blockHash view phase sig] } := by
        rw [mailed, List.getElem?_map, hslot, Option.map_some, mailTo, if_pos rfl]
      have hrest := ih (by rwa [ids_mailed]) hslot'
        (by rw [List.length_append, List.length_singleton]; exact hfree)
        fun msg hmem => hmsgs msg (List.mem_cons_of_mem _ hmem)
      rw [List.length_append, List.length_singleton, Nat.add_assoc, Nat.add_comm 1] at hrest
      rw [if_pos hfree, List.length_cons]
      dsimp only [Option.bind_eq_bind, Option.bind_some]
      rw [hrest, mailed_mailed]
      refine if_congr Iff.rfl ?_ rfl
      refine congrArg (fun mail => some (mailed mail slots)) (funext fun id => ?_)
      by_cases hid : id = slot.nodeId <;> simp [mailTo, hid]
    · rw [if_neg hfree, if_neg (by rw [List.length_cons]; omega)]
      rfl

end

/-- Proposals go to all. -/
theorem route_proposals (hroom : ∀ slot ∈ slots, slot.inbox.length + msgs.length ≤ inboxCapacity)
    (hmsgs : ∀ msg ∈ msgs, ∃ block phase sig, msg = .proposal block phase sig) :
    msgs.foldlM (route idx) slots = some (mailed (fun _ => msgs) slots) := by
  induction msgs generalizing slots with
  | nil => rw [mailed_nil]; rfl
  | cons msg rest ih =>
    obtain ⟨block, phase, sig, rfl⟩ := hmsgs msg List.mem_cons_self
    have hfree : ∀ slot ∈ slots, slot.inbox.length < inboxCapacity := fun slot hslot => by
      have hroom := hroom slot hslot
      rw [List.length_cons] at hroom
      omega
    have hroom' : ∀ slot ∈ mailed (fun _ => [.proposal block phase sig]) slots,
        slot.inbox.length + rest.length ≤ inboxCapacity := by
      intro x hx
      obtain ⟨slot, hslot, rfl⟩ := List.mem_map.mp hx
      have hroom := hroom slot hslot
      rw [List.length_cons] at hroom
      rw [List.length_append, List.length_singleton]
      omega
    rw [List.foldlM_cons, route, broadcastToAll_eq hfree]
    dsimp only [Option.bind_eq_bind, Option.bind_some]
    rw [ih hroom' fun msg hmem => hmsgs msg (List.mem_cons_of_mem _ hmem), mailed_mailed]
    rfl

/-! ## Stages -/

section Stages

variable [Ed25519]

/-- What is true of each node, its state and its inbox. -/
structure Stage (vs : ValidatorSet) (Q : NodeId → HotStuffState → List HotStuffMsg → Prop)
    (slots : List NodeSlot) : Prop where
  ids : slots.map NodeSlot.nodeId = vs.validators
  honest : ∀ slot ∈ slots, slot.byzantine = false
  all : ∀ slot ∈ slots, Q slot.nodeId slot.state slot.inbox

variable {vs : ValidatorSet} {Q T : NodeId → HotStuffState → List HotStuffMsg → Prop}
  {moment : NodeId → Nat → Moment}

section

omit [Ed25519]

theorem Stage.id_mem (h : Stage vs Q slots) (hslot : slot ∈ slots) : slot.nodeId ∈ vs.validators :=
  h.ids ▸ List.mem_map_of_mem hslot

theorem Stage.nodup (h : Stage vs Q slots) (hdistinct : vs.validators.Nodup) :
    (slots.map NodeSlot.nodeId).Nodup :=
  h.ids.symm ▸ hdistinct

theorem Stage.mailed (h : Stage vs Q slots) {mail : NodeId → List HotStuffMsg}
    (hmail : ∀ id s inbox, Q id s inbox → T id s (inbox ++ mail id)) :
    Stage vs T (mailed mail slots) where
  ids := (ids_mailed mail slots).trans h.ids
  honest x hx := by
    obtain ⟨slot, hslot, rfl⟩ := List.mem_map.mp hx
    exact h.honest slot hslot
  all x hx := by
    obtain ⟨slot, hslot, rfl⟩ := List.mem_map.mp hx
    exact hmail _ _ _ (h.all slot hslot)

theorem Stage.imp (h : Stage vs Q slots) (himp : ∀ id s inbox, Q id s inbox → T id s inbox) :
    Stage vs T slots :=
  ⟨h.ids, h.honest, fun slot hslot => himp _ _ _ (h.all slot hslot)⟩

end

/-- All nodes read the rest of their mail. -/
theorem Stage.settle (h : Stage vs Q slots) (moment : NodeId → Nat → Moment)
    (hnode : ∀ id s inbox, Q id s inbox → T id (settled (moment id) s inbox) []) :
    Stage vs T (slots.map fun slot => slot.settle (moment slot.nodeId)) where
  ids := by
    rw [List.map_map]
    exact h.ids
  honest x hx := by
    obtain ⟨slot, hslot, rfl⟩ := List.mem_map.mp hx
    exact h.honest slot hslot
  all x hx := by
    obtain ⟨slot, hslot, rfl⟩ := List.mem_map.mp hx
    exact hnode _ _ _ (h.all slot hslot)

omit [Ed25519] in
/-- The slot of a node. -/
theorem Stage.slot_of (h : Stage vs Q slots) {id : NodeId} (hidx : vs.validators[idx]? = some id) :
    ∃ slot ∈ slots, slots[idx]? = some slot ∧ slot.nodeId = id := by
  rw [← h.ids, List.getElem?_map, Option.map_eq_some_iff] at hidx
  obtain ⟨slot, hslot, hid⟩ := hidx
  exact ⟨slot, List.mem_of_getElem? hslot, hslot, hid⟩

omit [Ed25519] in
/-- The state of one node is replaced. -/
theorem Stage.set (h : Stage vs Q slots) (hdistinct : vs.validators.Nodup)
    (hslot : slots[idx]? = some slot) {s : HotStuffState} (hnew : T slot.nodeId s slot.inbox)
    (hothers : ∀ id s inbox, id ≠ slot.nodeId → Q id s inbox → T id s inbox) :
    Stage vs T (slots.set idx { slot with state := s }) := by
  have hmem := List.mem_of_getElem? hslot
  rw [set_eq_map (h.nodup hdistinct) hslot]
  constructor
  · rw [List.map_map, ← h.ids]
    refine List.map_congr_left fun x hx => ?_
    by_cases hid : x.nodeId = slot.nodeId <;> simp [hid]
  · intro y hy
    obtain ⟨x, hx, rfl⟩ := List.mem_map.mp hy
    split_ifs
    · exact h.honest slot hmem
    · exact h.honest x hx
  · intro y hy
    obtain ⟨x, hx, rfl⟩ := List.mem_map.mp hy
    split_ifs with hid
    · exact hnew
    · exact hothers _ _ _ hid (h.all x hx)

theorem Stage.drained_eq (h : Stage vs Q slots) (hslot : slot ∈ slots) (moment : Nat → Moment) :
    slot.drained moment = drain moment slot.state slot.inbox := by
  rw [NodeSlot.drained, h.honest slot hslot]
  rfl

theorem runRound_quiet
    (h : ∀ slot ∈ slots, (slot.drained (moment slot.nodeId)).committed = none) :
    runRound moment slots =
      .outgoing (slots.flatMap fun slot => (slot.drained (moment slot.nodeId)).outgoing)
        (slots.map fun slot => slot.put (slot.drained (moment slot.nodeId))) := by
  induction slots with
  | nil => rfl
  | cons slot rest ih =>
    rw [runRound, h slot List.mem_cons_self, ih fun x hx => h x (List.mem_cons_of_mem _ hx)]
    rfl

/-- A round in which no node commits: what one node makes of its inbox, all do. -/
theorem Stage.round {P : NodeId → List HotStuffMsg → Prop} (h : Stage vs Q slots)
    (moment : NodeId → Nat → Moment)
    (hnode : ∀ id s inbox, id ∈ vs.validators → Q id s inbox →
      ∃ out s', drain (moment id) s inbox = ⟨out, none, s', []⟩ ∧ T id s' [] ∧ P id out) :
    ∃ outs : List (NodeId × List HotStuffMsg), outs.map Prod.fst = vs.validators ∧
      (∀ o ∈ outs, P o.1 o.2) ∧
      ∃ slots', runRound moment slots = .outgoing (outs.flatMap Prod.snd) slots' ∧
        Stage vs T slots' := by
  have hdrained : ∀ slot ∈ slots, ∃ out s',
      slot.drained (moment slot.nodeId) = ⟨out, none, s', []⟩ ∧ T slot.nodeId s' [] ∧
        P slot.nodeId out := by
    intro slot hslot
    rw [h.drained_eq hslot]
    exact hnode _ _ _ (h.id_mem hslot) (h.all slot hslot)
  refine ⟨slots.map fun slot => (slot.nodeId, (slot.drained (moment slot.nodeId)).outgoing), ?_,
    fun o ho => ?_, slots.map fun slot => slot.put (slot.drained (moment slot.nodeId)), ?_, ?_⟩
  · rw [List.map_map]
    exact h.ids
  · obtain ⟨slot, hslot, rfl⟩ := List.mem_map.mp ho
    obtain ⟨out, s', hout, -, hP⟩ := hdrained slot hslot
    rw [hout]
    exact hP
  · rw [List.flatMap_map]
    refine runRound_quiet fun slot hslot => ?_
    obtain ⟨out, s', hout, -⟩ := hdrained slot hslot
    rw [hout]
  · constructor
    · rw [List.map_map]
      exact h.ids
    · intro x hx
      obtain ⟨slot, hslot, rfl⟩ := List.mem_map.mp hx
      exact h.honest slot hslot
    · intro x hx
      obtain ⟨slot, hslot, rfl⟩ := List.mem_map.mp hx
      obtain ⟨out, s', hout, hT, -⟩ := hdrained slot hslot
      rw [hout]
      exact hT

/-- A round in which one node commits and the others have no messages. -/
theorem runRound_committing {leader : NodeId} {newView : HotStuffMsg}
    (hids : (slots.map NodeSlot.nodeId).Nodup) (hleader : leader ∈ slots.map NodeSlot.nodeId)
    (hcommits : ∀ slot ∈ slots, slot.nodeId = leader →
      (slot.drained (moment slot.nodeId)).committed = some newView)
    (hidle : ∀ slot ∈ slots, slot.nodeId ≠ leader →
      slot.drained (moment slot.nodeId) = ⟨[], none, slot.state, []⟩ ∧ slot.inbox = []) :
    runRound moment slots = .committed newView (slots.map fun slot =>
      if slot.nodeId = leader then slot.put (slot.drained (moment slot.nodeId)) else slot) := by
  induction slots with
  | nil => cases hleader
  | cons slot rest ih =>
    rw [List.map_cons, List.nodup_cons] at hids
    rw [List.map_cons, List.mem_cons] at hleader
    rw [runRound]
    by_cases hid : slot.nodeId = leader
    · -- The nodes after the leader are not asked any more.
      rw [hcommits slot List.mem_cons_self hid, List.map_cons, if_pos hid]
      refine congrArg (fun l => Round.committed newView (_ :: l)) ?_
      have hothers : ∀ x ∈ rest, (if x.nodeId = leader then x.put (x.drained (moment x.nodeId))
          else x) = x := by
        intro x hx
        refine if_neg fun heq => hids.1 ?_
        rw [hid, ← heq]
        exact List.mem_map_of_mem hx
      exact ((List.map_congr_left hothers).trans (List.map_id' rest)).symm
    · obtain ⟨hdrained, hempty⟩ := hidle slot List.mem_cons_self hid
      rw [hdrained, ih hids.2 (hleader.resolve_left (Ne.symm hid))
        (fun x hx => hcommits x (List.mem_cons_of_mem _ hx))
        fun x hx => hidle x (List.mem_cons_of_mem _ hx)]
      rw [List.map_cons, if_neg hid]
      have hsame : slot.put ⟨[], none, slot.state, []⟩ = slot := by
        rw [NodeSlot.put, ← hempty]
      rw [hsame]

/-- The round in which the leader commits. The other nodes have no messages. -/
theorem Stage.committing {R : HotStuffMsg → Prop}
    {T : HotStuffMsg → NodeId → HotStuffState → List HotStuffMsg → Prop} (h : Stage vs Q slots)
    (leader : NodeId) (moment : NodeId → Nat → Moment) (hdistinct : vs.validators.Nodup)
    (hleader : leader ∈ vs.validators)
    (hcommits : ∀ s inbox, Q leader s inbox → ∃ newView s' rest,
      drain (moment leader) s inbox = ⟨[], some newView, s', rest⟩ ∧ R newView ∧
        T newView leader s' rest)
    (hidle : ∀ id s inbox, id ≠ leader → Q id s inbox →
      inbox = [] ∧ ∀ newView, T newView id s []) :
    ∃ newView slots', runRound moment slots = .committed newView slots' ∧ R newView ∧
      Stage vs (T newView) slots' := by
  obtain ⟨slot, hslot, rfl⟩ := List.mem_map.mp (h.ids.symm ▸ hleader)
  obtain ⟨newView, s', rest, hdrain, hR, hT⟩ := hcommits _ _ (h.all slot hslot)
  have honly : ∀ x ∈ slots, x.nodeId = slot.nodeId → x = slot := fun x hx hid =>
    List.inj_on_of_nodup_map (h.nodup hdistinct) hx hslot hid
  have hcommitted : slot.drained (moment slot.nodeId) = ⟨[], some newView, s', rest⟩ :=
    (h.drained_eq hslot _).trans hdrain
  refine ⟨newView, _, runRound_committing (h.nodup hdistinct) (List.mem_map_of_mem hslot)
    (fun x hx hid => ?_) (fun x hx hid => ?_), hR, ?_⟩
  · rw [honly x hx hid, hcommitted]
  · have hempty := (hidle _ _ _ hid (h.all x hx)).1
    rw [h.drained_eq hx, hempty]
    exact ⟨rfl, rfl⟩
  · constructor
    · rw [List.map_map, ← h.ids]
      refine List.map_congr_left fun x hx => ?_
      by_cases hid : x.nodeId = slot.nodeId <;> simp [hid, NodeSlot.put]
    · intro y hy
      obtain ⟨x, hx, rfl⟩ := List.mem_map.mp hy
      have hhonest := h.honest x hx
      split_ifs <;> exact hhonest
    · intro y hy
      obtain ⟨x, hx, rfl⟩ := List.mem_map.mp hy
      by_cases hid : x.nodeId = slot.nodeId
      · rw [if_pos hid, honly x hx hid, hcommitted]
        exact hT
      · rw [if_neg hid]
        obtain ⟨hempty, hall⟩ := hidle _ _ _ hid (h.all x hx)
        rw [hempty]
        exact hall newView

omit [Ed25519] in
/-- The answers of a round in which only one node has any. -/
theorem flatMap_eq_of_only {outs : List (NodeId × List HotStuffMsg)} {o : NodeId × List HotStuffMsg}
    (hids : (outs.map Prod.fst).Nodup) (ho : o ∈ outs)
    (hothers : ∀ x ∈ outs, x.1 ≠ o.1 → x.2 = []) : outs.flatMap Prod.snd = o.2 := by
  induction outs with
  | nil => cases ho
  | cons x rest ih =>
    rw [List.map_cons, List.nodup_cons] at hids
    rw [List.flatMap_cons]
    rcases List.mem_cons.mp ho with rfl | ho
    · have hempty : rest.flatMap Prod.snd = [] := List.flatMap_eq_nil_iff.mpr fun y hy =>
        hothers y (List.mem_cons_of_mem _ hy) fun heq => hids.1 (heq ▸ List.mem_map_of_mem hy)
      rw [hempty, List.append_nil]
    · have hne : x.1 ≠ o.1 := fun heq => hids.1 (heq ▸ List.mem_map_of_mem ho)
      rw [hothers x List.mem_cons_self hne, List.nil_append]
      exact ih hids.2 ho fun y hy => hothers y (List.mem_cons_of_mem _ hy)

end Stages

end P2P333.Platform333.Netcode
