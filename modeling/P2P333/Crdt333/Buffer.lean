import P2P333.Crdt333.CausalOrder

/-!
# The causal buffer

What stays in the queue of a broadcaster. A message is delivered once, and a copy of it that arrives
is never ready again: it stays in the queue for ever. So does a message that comes back to its
sender.

Results:
1. `balanced_of_reachable`: what arrived was returned or is in the queue.
2. `Inv.complete_of_mem_history`, `Inv.mem_history_of_complete`: a broadcaster has delivered the
   messages whose causes have all arrived.
3. `buffer_iff`: when the queue holds undelivered messages only.
-/

namespace P2P333.Crdt333

open Lib Transfer333

variable {T : Type}

namespace CausalNet

variable {s s' : CausalNet T} {p : ReplicaId} {m : CausalMsg T}

/-- What arrived was returned or is in the queue, as often as it arrived. -/
def Balanced (s : CausalNet T) : Prop :=
  ∀ p, (s.arrived p).Perm (s.returned p ++ (s.peer p).pending)

/-- All other causes of the message have arrived. -/
def Complete (s : CausalNet T) (p : ReplicaId) (m : CausalMsg T) : Prop :=
  ∀ a, s.causal.Precedes a m → a.sender ≠ p → a ∈ s.arrived p

/-- The queue holds undelivered messages only. Once all messages of the others have arrived it is
empty. -/
structure Buffers (s : CausalNet T) (p : ReplicaId) : Prop where
  undelivered : ∀ m ∈ (s.peer p).pending, m ∉ s.history p
  empty : (∀ m, s.causal.Sent m → m.sender ≠ p → m ∈ s.arrived p) → (s.peer p).pending = []

theorem Balanced.step {op : CausalOp T} (h : s.Balanced) (hinv : s.Inv) (hop : s.Genuine op)
    (hstep : s.step op = some s') : s'.Balanced := by
  cases op with
  | submit q payload =>
    obtain ⟨⟨m, b⟩, hsubmit, rfl⟩ := Option.map_eq_some_iff.mp hstep
    obtain ⟨-, rfl, -⟩ := submit_stamps (hinv.me q) hsubmit
    exact forall_update (P := fun q (b : VectorClockBroadcaster T) =>
      (s.arrived q).Perm (s.returned q ++ b.pending)) (h q) fun q _ => h q
  | receive q m =>
    obtain ⟨⟨out, b⟩, hreceive, rfl⟩ := Option.map_eq_some_iff.mp hstep
    obtain ⟨-, -, -, hperm, -⟩ := hinv.receive_spec hop hreceive
    intro r
    by_cases hr : r = q
    · subst hr
      simp only [Function.update_self]
      have hqueue := (h r).append_right [m]
      rw [List.append_assoc] at hqueue ⊢
      exact hqueue.trans (hperm.append_left _)
    · simp only [Function.update_of_ne hr]
      exact h r

theorem balanced_of_reachable (hs : Reachable step Genuine (start : CausalNet T) s) :
    s.Balanced := by
  have hboth : s.Inv ∧ s.Balanced :=
    hs.invariant (I := fun s => s.Inv ∧ s.Balanced) ⟨inv_start, fun _ => .refl _⟩
    fun _ _ _ _ h hok hstep => ⟨step_inv h.1 hok hstep, h.2.step h.1 hok hstep⟩
  exact hboth.2

theorem Inv.sent_of_precedes (h : s.Inv) {a : CausalMsg T} (hprec : s.causal.Precedes a m) :
    s.causal.Sent a := by
  obtain ⟨b, ⟨past, hpast, ha⟩, -⟩ := Relation.TransGen.head'_iff.mp hprec
  exact ((h.causal.past b past hpast a).mp ha).1

/-- A delivered message and its causes have arrived, those of the broadcaster itself apart. -/
theorem Inv.arrived_of_mem_history (h : s.Inv) (hbalanced : s.Balanced) (hm : m ∈ s.history p)
    (hne : m.sender ≠ p) : m ∈ s.arrived p := by
  refine (hbalanced p).mem_iff.mpr (List.mem_append_left _ ?_)
  rw [h.returned]
  exact List.mem_filter.mpr ⟨hm, decide_eq_true hne⟩

theorem Inv.complete_of_mem_history (h : s.Inv) (hbalanced : s.Balanced) (hm : m ∈ s.history p) :
    s.Complete p m := by
  intro a hprec hne
  obtain ⟨pre, post, hsplit⟩ := List.append_of_mem hm
  refine h.arrived_of_mem_history hbalanced ?_ hne
  rw [hsplit]
  exact List.mem_append_left _ (h.causal.precedes_mem hprec hsplit)

theorem Inv.mem_history_of_complete (h : s.Inv) (hm : s.causal.Sent m)
    (harrived : m.sender ≠ p → m ∈ s.arrived p)
    (hcomplete : s.Complete p m) : m ∈ s.history p := by
  refine h.closed_mem (S := {a | a = m ∨ s.causal.Precedes a m}) ?_ ?_ (.inl rfl) hm
  · rintro a b (rfl | hprec) hparent
    · exact .inr (.single hparent)
    · exact .inr (.head hparent hprec)
  · rintro a (rfl | hprec) hne
    · exact harrived hne
    · exact hcomplete a hprec hne

/-- The queue holds undelivered messages only, exactly if none of the messages whose causes have
arrived has come back to its sender or has arrived twice. -/
theorem buffer_iff (hs : Reachable step Genuine (start : CausalNet T) s) (p : ReplicaId) :
    s.Buffers p ↔ ∀ m ∈ s.arrived p, s.Complete p m → m.sender ≠ p ∧ ¬
      (s.arrived p).Duplicate m := by
  classical
  have h := inv_of_reachable hs
  have hbalanced := balanced_of_reachable hs
  have hcount : ∀ m, (s.arrived p).count m = (s.returned p).count m +
    (s.peer p).pending.count m := by
    intro m
    rw [(hbalanced p).count_eq, List.count_append]
  constructor
  · intro hbuffers m hm hcomplete
    have hhistory := h.mem_history_of_complete (h.genuine p m hm) (fun _ => hm) hcomplete
    have hgone : m ∉ (s.peer p).pending := fun hpending => hbuffers.undelivered m hpending hhistory
    have hreturned : m ∈ s.returned p :=
      (List.mem_append.mp ((hbalanced p).mem_iff.mp hm)).resolve_right hgone
    constructor
    · rw [h.returned] at hreturned
      exact of_decide_eq_true (List.mem_filter.mp hreturned).2
    · have hnodup : (s.returned p).Nodup := by
        rw [h.returned]
        exact (List.Nodup.of_map _ (h.causal.nodup p)).filter _
      rw [List.duplicate_iff_two_le_count, hcount, List.count_eq_zero_of_not_mem hgone]
      have hone := List.nodup_iff_count_le_one.mp hnodup m
      omega
  · intro hmeets
    have hundelivered : ∀ m ∈ (s.peer p).pending, m ∉ s.history p := by
      intro m hpending hhistory
      have harrived := h.pending p m hpending
      obtain ⟨hne, honce⟩ := hmeets m harrived (h.complete_of_mem_history hbalanced hhistory)
      have hreturned : m ∈ s.returned p := by
        rw [h.returned]
        exact List.mem_filter.mpr ⟨hhistory, decide_eq_true hne⟩
      rw [List.duplicate_iff_two_le_count, hcount] at honce
      have hleft := List.count_pos_iff.mpr hreturned
      have hright := List.count_pos_iff.mpr hpending
      omega
    refine ⟨hundelivered, fun hall => List.eq_nil_iff_forall_not_mem.mpr fun m hpending => ?_⟩
    have harrived := h.pending p m hpending
    have hsent := h.genuine p m harrived
    refine hundelivered m hpending (h.mem_history_of_complete hsent (fun _ => harrived)
      fun a hprec hne => ?_)
    exact hall a (h.sent_of_precedes hprec) hne

namespace Demo

open Crdt333.Demo

/-- One message that arrives once. -/
theorem buffer_iff_once : ∃ s : CausalNet Nat, Reachable step Genuine start s ∧
    s.arrived peerB = [first] ∧
    s.Buffers peerB := by
  obtain ⟨s, hs, harrived⟩ : ∃ s : CausalNet Nat, Reachable step Genuine start s ∧
    s.arrived peerB = [first] :=
    Reachable.of_exec [.submit peerA 42, .receive peerB first] (by decide +kernel)
  refine ⟨s, hs, harrived, (buffer_iff hs peerB).mpr fun m hm _ => ?_⟩
  rw [harrived] at hm ⊢
  cases List.mem_singleton.mp hm
  exact ⟨by decide, List.not_duplicate_singleton _ _⟩

/-- The message has arrived twice, and its second copy waits for ever. -/
theorem copy_stays : ¬ ∀ s : CausalNet Nat, Reachable step Genuine start s → ∀ p, s.Buffers p := by
  intro h
  obtain ⟨s, hs, hpending, hhistory⟩ : ∃ s : CausalNet Nat, Reachable step Genuine start s ∧
      (s.peer peerB).pending = [first] ∧ s.history peerB = [first] :=
    Reachable.of_exec [.submit peerA 42, .receive peerB first, .receive peerB first]
      (by decide +kernel)
  refine (h s hs peerB).undelivered first ?_ ?_
  · rw [hpending]
    exact .head _
  · rw [hhistory]
    exact .head _

end Demo

end CausalNet

end P2P333.Crdt333
