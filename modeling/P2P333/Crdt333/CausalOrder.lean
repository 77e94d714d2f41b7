import P2P333.Lib.Transition
import P2P333.Crdt333.Rcb

/-!
# Causal broadcast among any number of peers

Peers submit messages and receive any message that was submitted, in any order and any number of
times. Beside the broadcasters the state records what happened: every message with the history of
its sender at that moment, and for each peer the messages it has submitted or been handed, in order.
Causal precedence is defined from these histories, not from the clocks.

Results:
1. `Causal.Inv`: a clock covers exactly the messages of the history, and every history contains the
   past of each of its messages in front of it. Submitting and delivering keep it
   (`Inv.submit`, `Inv.deliver`).
2. `CausalNet.step_inv`: between calls no message that waits is ready, and everything that arrived
   is waiting or in the history.
3. `causal_broadcast`: `receive` returns each message at most once, after all its causes, and once
   a causally closed set has arrived, all of it that the peer did not submit itself.
4. `own_message_not_returned`: what a peer submitted itself is never returned to it.
-/

namespace P2P333.Crdt333

open Std Lib Transfer333 Function

variable {T : Type}

/-! ## Histories -/

namespace CausalMsg

def counter (m : CausalMsg T) : Nat := m.senderCounter.toNat

theorem dot_eq {m m' : CausalMsg T} :
    m.dot = m'.dot ↔ m.sender = m'.sender ∧ m.counter = m'.counter := by
  simp [dot, counter, BitVec.toNat_inj]

end CausalMsg

/-- The clocks of the peers, every submitted message with the history of its sender, and the
messages that each peer has submitted or been handed. -/
structure Causal (T : Type) where
  clock : ReplicaId → VersionVector
  sent : List (CausalMsg T × List (CausalMsg T))
  history : ReplicaId → List (CausalMsg T)

namespace Causal

variable {s : Causal T}

def Sent (s : Causal T) (m : CausalMsg T) : Prop := ∃ past, (m, past) ∈ s.sent

/-- `a` was submitted by the sender of `m`, or handed to it, before it submitted `m`. -/
def Parent (s : Causal T) (a m : CausalMsg T) : Prop := ∃ past, (m, past) ∈ s.sent ∧ a ∈ past

def Precedes (s : Causal T) : CausalMsg T → CausalMsg T → Prop := Relation.TransGen s.Parent

def count (s : Causal T) (p r : ReplicaId) : Nat := ((s.clock p).get r).toNat

def submit (s : Causal T) (p : ReplicaId) (m : CausalMsg T) : Causal T where
  clock := update s.clock p m.context
  sent := s.sent ++ [(m, s.history p)]
  history := update s.history p (s.history p ++ [m])

def deliver (s : Causal T) (p : ReplicaId) (m : CausalMsg T) : Causal T where
  clock := update s.clock p ((s.clock p).set m.sender m.senderCounter)
  sent := s.sent
  history := update s.history p (s.history p ++ [m])

/-- What the broadcaster of `p` stamps on its next message. -/
structure Stamps (s : Causal T) (p : ReplicaId) (m : CausalMsg T) : Prop where
  sender : m.sender = p
  counter : m.counter = s.count p p + 1
  context : m.context = (s.clock p).set p m.senderCounter

/-- In every history the causes of a message come before it. -/
def Ordered (s : Causal T) (p : ReplicaId) : Prop :=
  ∀ pre m post, s.history p = pre ++ m :: post → ∀ a, s.Parent a m → a ∈ pre

structure Inv (s : Causal T) : Prop where
  mem_history : ∀ p m, m ∈ s.history p ↔ s.Sent m ∧ m.counter ≤ s.count p m.sender
  nodup : ∀ p, ((s.history p).map CausalMsg.dot).Nodup
  unique : ∀ m m', s.Sent m → s.Sent m' → m.dot = m'.dot → m = m'
  stamped : ∀ m, s.Sent m → m.Stamped
  positive : ∀ m, s.Sent m → 0 < m.counter
  own : ∀ m, s.Sent m → m.counter ≤ s.count m.sender m.sender
  issued : ∀ r c, 0 < c → c ≤ s.count r r → ∃ m, s.Sent m ∧ m.sender = r ∧ m.counter = c
  bounded : ∀ p r, s.count p r ≤ s.count r r
  contexts : ∀ m, s.Sent m → ∀ r, (m.context.get r).toNat ≤ s.count r r
  past : ∀ m past, (m, past) ∈ s.sent → ∀ a,
    a ∈ past ↔ s.Sent a ∧ a.counter ≤ (m.context.get a.sender).toNat ∧ a.dot ≠ m.dot
  earlier : ∀ pre m past post, s.sent = pre ++ (m, past) :: post → ∀ a ∈ past,
    a ∈ pre.map Prod.fst
  ordered : ∀ p, s.Ordered p

def start : Causal T := ⟨fun _ => .new, [], fun _ => []⟩

theorem inv_start : (start : Causal T).Inv where
  mem_history p m := by simp [start, Sent]
  nodup p := List.nodup_nil
  unique m m' h := by simp [start, Sent] at h
  stamped m h := by simp [start, Sent] at h
  positive m h := by simp [start, Sent] at h
  own m h := by simp [start, Sent] at h
  issued r c hpos hle := by simp [start, count] at hle; omega
  bounded p r := Nat.le_refl _
  contexts m h := by simp [start, Sent] at h
  past m past h := by cases h
  earlier pre m past post h := by simp [start] at h
  ordered p pre m post h := by simp [start] at h

/-! ## Delivering a message -/

variable {p q : ReplicaId} {m a : CausalMsg T}

theorem Inv.sender_ne (h : s.Inv) (hs : s.Sent m)
    (hready : m.Ready (s.clock p)) : m.sender ≠ p := by
  rintro rfl
  have hle := h.own m hs
  have hnext : s.count m.sender m.sender + 1 = m.counter := hready.next
  omega

theorem count_deliver (p : ReplicaId) (m : CausalMsg T) (q r : ReplicaId) :
    (s.deliver p m).count q r = if q = p ∧ r = m.sender then m.counter else s.count q r := by
  simp only [count, deliver]
  by_cases hq : q = p
  · subst hq
    rw [update_self]
    by_cases hr : r = m.sender
    · rw [if_pos ⟨rfl, hr⟩, hr, VersionVector.get_set_self]
      rfl
    · rw [if_neg fun hc => hr hc.2, VersionVector.get_set_of_ne _ (Ne.symm hr)]
  · rw [update_of_ne hq, if_neg fun hc => hq hc.1]

/-- A list with one more element, split around one of its elements. -/
theorem append_singleton_split {α : Type} {l pre post : List α} {x y : α}
    (h : l ++ [x] = pre ++ y :: post) :
    (post = [] ∧ y = x ∧ pre = l) ∨ ∃ post', post = post' ++ [x] ∧ l = pre ++ y :: post' := by
  rcases List.eq_nil_or_concat' post with rfl | ⟨post', z, rfl⟩
  · obtain ⟨rfl, hx⟩ := List.append_inj' h rfl
    cases hx
    exact .inl ⟨rfl, rfl, rfl⟩
  · rw [← List.cons_append, ← List.append_assoc] at h
    obtain ⟨rfl, hx⟩ := List.append_inj' h rfl
    cases hx
    exact .inr ⟨post', rfl, rfl⟩

theorem nodup_push {l : List (CausalMsg T)} (hl : (l.map CausalMsg.dot).Nodup)
    (hm : ∀ a ∈ l, a.dot ≠ m.dot) : ((l ++ [m]).map CausalMsg.dot).Nodup := by
  rw [List.map_append, List.map_singleton]
  refine hl.append (List.nodup_singleton _) ?_
  intro d hd hd'
  obtain ⟨a, ha, rfl⟩ := List.mem_map.mp hd
  exact hm a ha (List.mem_singleton.mp hd')

theorem history_deliver_self (p : ReplicaId) (m : CausalMsg T) :
    (s.deliver p m).history p = s.history p ++ [m] := update_self ..

theorem history_deliver_of_ne (hq : q ≠ p) (m : CausalMsg T) :
    (s.deliver p m).history q = s.history q := update_of_ne hq ..

/-- The causes of a ready message are in the history already. -/
theorem Inv.parent_mem (h : s.Inv)
    (hready : m.Ready (s.clock p)) (hparent : s.Parent a m) : a ∈ s.history p := by
  obtain ⟨past, hm, ha⟩ := hparent
  obtain ⟨hsent, hle, hne⟩ := (h.past m past hm a).mp ha
  refine (h.mem_history p a).mpr ⟨hsent, ?_⟩
  by_cases hr : a.sender = m.sender
  · have hstamp : (m.context.get m.sender).toNat = m.counter :=
      congrArg BitVec.toNat (h.stamped m ⟨past, hm⟩)
    have hnext : s.count p m.sender + 1 = m.counter := hready.next
    have hcounter : a.counter ≠ m.counter := fun hc => hne (CausalMsg.dot_eq.mpr ⟨hr, hc⟩)
    rw [hr] at hle ⊢
    omega
  · exact Nat.le_trans hle (hready.causes a.sender hr)

/-- A ready message is not in the history yet. -/
theorem Inv.ready_fresh (h : s.Inv) (hs : s.Sent m)
    (hready : m.Ready (s.clock p)) (ha : a ∈ s.history p) : a.dot ≠ m.dot := by
  intro hdot
  obtain ⟨hsent, hle⟩ := (h.mem_history p a).mp ha
  obtain rfl := h.unique a m hsent hs hdot
  have hnext : s.count p a.sender + 1 = a.counter := hready.next
  omega

theorem Inv.mem_history_deliver (h : s.Inv) (hs : s.Sent m)
    (hready : m.Ready (s.clock p)) (a : CausalMsg T) :
    a ∈ s.history p ++ [m] ↔ s.Sent a ∧ a.counter ≤ (s.deliver p m).count p a.sender := by
  have hnext : s.count p m.sender + 1 = m.counter := hready.next
  rw [List.mem_append, List.mem_singleton, h.mem_history, count_deliver]
  constructor
  · rintro (⟨ha, hle⟩ | rfl)
    · refine ⟨ha, ?_⟩
      split
      · next hc => rw [hc.2] at hle; omega
      · exact hle
    · rw [if_pos ⟨rfl, rfl⟩]
      exact ⟨hs, Nat.le_refl _⟩
  · rintro ⟨ha, hle⟩
    split at hle
    · next hc =>
      by_cases heq : a.counter = m.counter
      · exact .inr (h.unique a m ha hs (CausalMsg.dot_eq.mpr ⟨hc.2, heq⟩))
      · exact .inl ⟨ha, by rw [hc.2]; omega⟩
    · exact .inl ⟨ha, hle⟩

theorem Inv.deliver (h : s.Inv) (hs : s.Sent m)
    (hready : m.Ready (s.clock p)) : (s.deliver p m).Inv := by
  have hown : ∀ r, (s.deliver p m).count r r = s.count r r := by
    intro r
    rw [count_deliver, if_neg]
    rintro ⟨rfl, hr⟩
    exact h.sender_ne hs hready hr.symm
  refine
    { unique := h.unique
      stamped := h.stamped
      positive := h.positive
      past := h.past
      earlier := h.earlier
      own := fun m' hs' => by rw [hown]; exact h.own m' hs'
      issued := fun r c hpos hle => h.issued r c hpos (hown r ▸ hle)
      contexts := fun m' hs' r => by rw [hown]; exact h.contexts m' hs' r
      bounded := ?bounded
      mem_history := ?mem_history
      nodup := ?nodup
      ordered := ?ordered }
  case bounded =>
    intro q r
    rw [hown, count_deliver]
    split
    · next hc => rw [hc.2]; exact h.own m hs
    · exact h.bounded q r
  case mem_history =>
    intro q a
    by_cases hq : q = p
    · subst hq
      rw [history_deliver_self]
      exact h.mem_history_deliver hs hready a
    · rw [history_deliver_of_ne hq, h.mem_history, count_deliver, if_neg fun hc => hq hc.1]
      rfl
  case nodup =>
    intro q
    by_cases hq : q = p
    · subst hq
      rw [history_deliver_self]
      exact nodup_push (h.nodup q) fun a => h.ready_fresh hs hready
    · rw [history_deliver_of_ne hq]
      exact h.nodup q
  case ordered =>
    intro q pre x post hsplit a hparent
    by_cases hq : q = p
    · subst hq
      rw [history_deliver_self] at hsplit
      rcases append_singleton_split hsplit with ⟨-, rfl, rfl⟩ | ⟨post', -, hold⟩
      · exact h.parent_mem hready hparent
      · exact h.ordered q pre x post' hold a hparent
    · rw [history_deliver_of_ne hq] at hsplit
      exact h.ordered q pre x post hsplit a hparent

/-! ## Submitting a message -/

theorem submit_eq (hm : s.Stamps p m) :
    s.submit p m = { s.deliver p m with sent := s.sent ++ [(m, s.history p)] } := by
  simp only [submit, deliver, hm.sender, ← hm.context]

theorem count_submit (hm : s.Stamps p m) (q r : ReplicaId) :
    (s.submit p m).count q r = if q = p ∧ r = p then m.counter else s.count q r := by
  have h := count_deliver (s := s) p m q r
  rw [hm.sender] at h
  rw [submit_eq hm]
  exact h

theorem count_le_submit (hm : s.Stamps p m) (r : ReplicaId) :
    s.count r r ≤ (s.submit p m).count r r := by
  rw [count_submit hm]
  split
  · next hr => rw [hr.1, hm.counter]; exact Nat.le_succ _
  · exact Nat.le_refl _

theorem Stamps.context_get (hm : s.Stamps p m) (r : ReplicaId) :
    (m.context.get r).toNat = if r = p then m.counter else s.count p r := by
  rw [hm.context]
  split
  · next hr => rw [hr, VersionVector.get_set_self]; rfl
  · next hr => rw [VersionVector.get_set_of_ne _ (Ne.symm hr)]; rfl

theorem sent_submit : (s.submit p m).Sent a ↔ s.Sent a ∨ a = m := by
  constructor
  · rintro ⟨past, ha⟩
    rcases List.mem_append.mp ha with ha | ha
    · exact .inl ⟨past, ha⟩
    · cases List.mem_singleton.mp ha
      exact .inr rfl
  · rintro (⟨past, ha⟩ | rfl)
    · exact ⟨past, List.mem_append_left _ ha⟩
    · exact ⟨s.history p, List.mem_append_right _ List.mem_cons_self⟩

/-- A parent in the longer run was one before, or belongs to the new message. -/
theorem parent_submit {b : CausalMsg T} (hparent : (s.submit p m).Parent a b) :
    s.Parent a b ∨ b = m ∧ a ∈ s.history p := by
  obtain ⟨past, hb, ha⟩ := hparent
  rcases List.mem_append.mp hb with hb | hb
  · exact .inl ⟨past, hb, ha⟩
  · cases List.mem_singleton.mp hb
    exact .inr ⟨rfl, ha⟩

theorem history_submit_self (p : ReplicaId) (m : CausalMsg T) :
    (s.submit p m).history p = s.history p ++ [m] := update_self ..

theorem history_submit_of_ne (hq : q ≠ p) (m : CausalMsg T) :
    (s.submit p m).history q = s.history q := update_of_ne hq ..

/-- The next message of a peer is a new one. -/
theorem Inv.fresh (h : s.Inv) (hm : s.Stamps p m) (ha : s.Sent a) : a.dot ≠ m.dot := by
  intro hdot
  obtain ⟨hsender, hcounter⟩ := CausalMsg.dot_eq.mp hdot
  have hle := h.own a ha
  rw [hsender, hm.sender, hcounter, hm.counter] at hle
  omega

theorem Inv.history_fresh (h : s.Inv) (hm : s.Stamps p m)
    (ha : a ∈ s.history q) : a.dot ≠ m.dot := h.fresh hm ((h.mem_history q a).mp ha).1

theorem Inv.issued_submit (h : s.Inv) {r : ReplicaId} (hm : s.Stamps p m)
    {c : Nat} (hpos : 0 < c) (hle : c ≤ (s.submit p m).count r r) :
    ∃ a, (s.submit p m).Sent a ∧ a.sender = r ∧ a.counter = c := by
  rw [count_submit hm] at hle
  by_cases hnew : r = p ∧ c = m.counter
  · exact ⟨m, sent_submit.mpr (.inr rfl), hm.sender.trans hnew.1.symm, hnew.2.symm⟩
  · have hold : c ≤ s.count r r := by
      have hcounter := hm.counter
      split at hle
      · next hr =>
        rw [hr.1]
        have : c ≠ m.counter := fun hc => hnew ⟨hr.1, hc⟩
        omega
      · exact hle
    obtain ⟨a, ha, hrest⟩ := h.issued r c hpos hold
    exact ⟨a, sent_submit.mpr (.inl ha), hrest⟩

/-- The past of the new message is the history of its sender. -/
theorem Inv.past_new (h : s.Inv) (hm : s.Stamps p m) (a : CausalMsg T) :
    a ∈ s.history p ↔ (s.submit p m).Sent a ∧ a.counter ≤ (m.context.get a.sender).toNat ∧
      a.dot ≠ m.dot := by
  have hcounter := hm.counter
  rw [h.mem_history p a, sent_submit, hm.context_get]
  constructor
  · rintro ⟨ha, hle⟩
    refine ⟨.inl ha, ?_, h.fresh hm ha⟩
    split
    · next hr => rw [hr] at hle; omega
    · exact hle
  · rintro ⟨ha | rfl, hle, hne⟩
    · refine ⟨ha, ?_⟩
      split at hle
      · next hr =>
        have hown := h.own a ha
        rwa [hr] at hown ⊢
      · exact hle
    · exact absurd rfl hne

theorem Inv.mem_history_submit (h : s.Inv) (hm : s.Stamps p m) (q : ReplicaId) (a : CausalMsg T) :
    a ∈ (s.submit p m).history q ↔
      (s.submit p m).Sent a ∧ a.counter ≤ (s.submit p m).count q a.sender := by
  have hcounter := hm.counter
  rw [sent_submit, count_submit hm]
  by_cases hq : q = p
  · subst hq
    rw [history_submit_self, List.mem_append, List.mem_singleton, h.mem_history]
    constructor
    · rintro (⟨ha, hle⟩ | rfl)
      · refine ⟨.inl ha, ?_⟩
        split
        · next hc => rw [hc.2] at hle; omega
        · exact hle
      · rw [if_pos ⟨rfl, hm.sender⟩]
        exact ⟨.inr rfl, Nat.le_refl _⟩
    · rintro ⟨ha | rfl, hle⟩
      · refine .inl ⟨ha, ?_⟩
        split at hle
        · next hc =>
          have hown := h.own a ha
          rwa [hc.2] at hown ⊢
        · exact hle
      · exact .inr rfl
  · rw [history_submit_of_ne hq, h.mem_history, if_neg fun hc => hq hc.1]
    refine ⟨fun ha => ⟨.inl ha.1, ha.2⟩, ?_⟩
    rintro ⟨ha | rfl, hle⟩
    · exact ⟨ha, hle⟩
    · -- no other peer has heard of the new message
      have hbounded := h.bounded q p
      rw [hm.sender] at hle
      omega

theorem Inv.ordered_submit (h : s.Inv) (hm : s.Stamps p m)
    (q : ReplicaId) : (s.submit p m).Ordered q := by
  intro pre b post hsplit a hparent
  have hsplit' : (∃ post', s.history q = pre ++ b :: post') ∨
      q = p ∧ b = m ∧ pre = s.history p := by
    by_cases hq : q = p
    · subst hq
      rw [history_submit_self] at hsplit
      rcases append_singleton_split hsplit with ⟨-, hb, hpre⟩ | ⟨post', -, hold⟩
      · exact .inr ⟨rfl, hb, hpre⟩
      · exact .inl ⟨post', hold⟩
    · rw [history_submit_of_ne hq] at hsplit
      exact .inl ⟨post, hsplit⟩
  rcases parent_submit hparent with hold | ⟨hb, ha⟩
  · rcases hsplit' with ⟨post', hpost⟩ | ⟨-, rfl, -⟩
    · exact h.ordered q pre b post' hpost a hold
    · obtain ⟨past, hb, -⟩ := hold
      exact absurd rfl (h.fresh hm ⟨past, hb⟩)
  · rcases hsplit' with ⟨post', hpost⟩ | ⟨-, -, rfl⟩
    · have hmem : b ∈ s.history q := hpost ▸ List.mem_append_right _ List.mem_cons_self
      exact absurd (congrArg CausalMsg.dot hb) (h.history_fresh hm hmem)
    · exact ha

theorem Inv.submit (h : s.Inv) {p : ReplicaId} {m : CausalMsg T} (hm : s.Stamps p m) :
    (s.submit p m).Inv where
  mem_history := h.mem_history_submit hm
  ordered := h.ordered_submit hm
  issued _ _ := h.issued_submit hm
  unique a b ha hb hdot := by
    rcases sent_submit.mp ha with ha' | rfl <;> rcases sent_submit.mp hb with hb' | rfl
    · exact h.unique a b ha' hb' hdot
    · exact absurd hdot (h.fresh hm ha')
    · exact absurd hdot.symm (h.fresh hm hb')
    · rfl
  stamped a ha := by
    rcases sent_submit.mp ha with ha | rfl
    · exact h.stamped a ha
    · rw [CausalMsg.Stamped, hm.context, hm.sender, VersionVector.get_set_self]
  positive a ha := by
    rcases sent_submit.mp ha with ha | rfl
    · exact h.positive a ha
    · rw [hm.counter]
      exact Nat.succ_pos _
  own a ha := by
    rcases sent_submit.mp ha with ha | rfl
    · exact Nat.le_trans (h.own a ha) (count_le_submit hm _)
    · rw [count_submit hm, hm.sender, if_pos ⟨rfl, rfl⟩]
  bounded q r := by
    rw [count_submit hm q r]
    split
    · next hc => rw [hc.2, count_submit hm, if_pos ⟨rfl, rfl⟩]
    · exact Nat.le_trans (h.bounded q r) (count_le_submit hm r)
  contexts a ha r := by
    rcases sent_submit.mp ha with ha | rfl
    · exact Nat.le_trans (h.contexts a ha r) (count_le_submit hm r)
    · rw [hm.context_get]
      split
      · next hr => rw [hr, count_submit hm, if_pos ⟨rfl, rfl⟩]
      · exact Nat.le_trans (h.bounded p r) (count_le_submit hm r)
  past b past hb a := by
    rcases List.mem_append.mp hb with hold | hnew
    · -- the new message is in no earlier past, and no earlier context covers it
      rw [h.past b past hold a, sent_submit]
      refine ⟨fun ha => ⟨.inl ha.1, ha.2⟩, ?_⟩
      rintro ⟨ha | rfl, hle, hne⟩
      · exact ⟨ha, hle, hne⟩
      · have hcovered := h.contexts b ⟨past, hold⟩ p
        have hcounter := hm.counter
        rw [hm.sender] at hle
        omega
    · cases List.mem_singleton.mp hnew
      exact h.past_new hm a
  earlier pre b past post hsplit a ha := by
    rcases append_singleton_split hsplit with ⟨-, heq, rfl⟩ | ⟨post', -, hold⟩
    · cases heq
      obtain ⟨past', ha'⟩ := ((h.mem_history p a).mp ha).1
      exact List.mem_map_of_mem (f := Prod.fst) ha'
    · exact h.earlier pre b past post' hold a ha
  nodup q := by
    by_cases hq : q = p
    · subst hq
      rw [history_submit_self]
      exact nodup_push (h.nodup q) fun a => h.history_fresh hm
    · rw [history_submit_of_ne hq]
      exact h.nodup q

/-! ## Delivering what `receive` returns -/

def deliverAll (s : Causal T) (p : ReplicaId) (out : List (CausalMsg T)) : Causal T :=
  out.foldl (fun s m => s.deliver p m) s

theorem Inv.deliverAll {out : List (CausalMsg T)} {v : VersionVector}
    (h : s.Inv) (hsent : ∀ m ∈ out, s.Sent m)
    (hdel : VectorClockBroadcaster.Delivery (s.clock p) out v) :
    (s.deliverAll p out).Inv ∧ (∀ m ∈ out, m.sender ≠ p) ∧
      s.deliverAll p out =
        ⟨update s.clock p v, s.sent,
          update s.history p (s.history p ++ out)⟩ := by
  induction out generalizing s with
  | nil =>
    cases hdel
    refine ⟨h, fun m hm => (by cases hm), ?_⟩
    rw [List.append_nil, update_eq_self, update_eq_self]
    rfl
  | cons m out ih =>
    cases hdel with
    | cons hready hdel =>
      have hm := hsent m List.mem_cons_self
      have hclock : (s.deliver p m).clock p = (s.clock p).set m.sender m.senderCounter :=
        update_self ..
      rw [← hclock] at hdel
      obtain ⟨hinv, hne, heq⟩ := ih (h.deliver hm hready)
        (fun a ha => hsent a (List.mem_cons_of_mem _ ha)) hdel
      refine ⟨hinv, ?_, ?_⟩
      · intro a ha
        rcases List.mem_cons.mp ha with rfl | ha
        · exact h.sender_ne hm hready
        · exact hne a ha
      · refine heq.trans ?_
        rw [history_deliver_self, List.append_assoc]
        simp only [Causal.deliver, update_idem, List.singleton_append]

/-! ## What the invariant says -/

/-- Everything that precedes a message of a history is in front of it. -/
theorem Inv.precedes_mem (h : s.Inv) (hprec : s.Precedes a m) {pre post : List (CausalMsg T)}
    (hsplit : s.history p = pre ++ m :: post) : a ∈ pre := by
  induction hprec generalizing pre post with
  | single hparent => exact h.ordered p pre _ post hsplit a hparent
  | tail _ hparent ih =>
    obtain ⟨pre₁, pre₂, rfl⟩ := List.append_of_mem (h.ordered p pre _ post hsplit _ hparent)
    rw [List.append_assoc, List.cons_append] at hsplit
    exact List.mem_append_left _ (ih hsplit)

/-- A message whose causes are all in the history is in the history or ready. -/
theorem Inv.mem_or_ready (h : s.Inv) (hm : s.Sent m)
    (hparents : ∀ a, s.Parent a m → a ∈ s.history p) :
    m ∈ s.history p ∨ m.Ready (s.clock p) := by
  obtain ⟨past, hpast⟩ := hm
  have hcovered : ∀ r c, 0 < c → c ≤ (m.context.get r).toNat → (r, c) ≠ (m.sender, m.counter) →
      c ≤ s.count p r := by
    intro r c hpos hle hne
    obtain ⟨a, ha, rfl, rfl⟩ :=
      h.issued r c hpos (Nat.le_trans hle (h.contexts m ⟨past, hpast⟩ r))
    have hdot : a.dot ≠ m.dot := fun hd => hne (Prod.ext_iff.mpr (CausalMsg.dot_eq.mp hd))
    exact ((h.mem_history p a).mp (hparents a ⟨past, hpast, (h.past m past hpast a).mpr
      ⟨ha, hle, hdot⟩⟩)).2
  have hstamp : (m.context.get m.sender).toNat = m.counter :=
    congrArg BitVec.toNat (h.stamped m ⟨past, hpast⟩)
  have hpos := h.positive m ⟨past, hpast⟩
  by_cases hin : m.counter ≤ s.count p m.sender
  · exact .inl ((h.mem_history p m).mpr ⟨⟨past, hpast⟩, hin⟩)
  · refine .inr ⟨?_, fun r hr => ?_⟩
    · -- the message before it, if there is one, is covered
      show s.count p m.sender + 1 = m.counter
      have hprev : m.counter - 1 ≤ s.count p m.sender := by
        by_cases hone : m.counter = 1
        · omega
        · refine hcovered m.sender (m.counter - 1) (by omega) (by omega) ?_
          simp only [ne_eq, Prod.mk.injEq, true_and]
          omega
      omega
    · by_cases hzero : (m.context.get r).toNat = 0
      · omega
      · refine hcovered r _ (by omega) (Nat.le_refl _) ?_
        simp only [ne_eq, Prod.mk.injEq, hr, false_and, not_false_eq_true]

/-- Messages of a causally closed set are handed over in the order in which they were submitted. -/
theorem Inv.closed_mem (h : s.Inv) {S : Set (CausalMsg T)}
    (hclosed : ∀ a m, m ∈ S → s.Parent a m → a ∈ S)
    (hready : ∀ m ∈ S, s.Sent m → m.Ready (s.clock p) → m ∈ s.history p) :
    ∀ pre, pre <+: s.sent → ∀ m ∈ pre.map Prod.fst, m ∈ S → m ∈ s.history p := by
  intro pre
  induction pre using List.reverseRecOn with
  | nil =>
    intro _ m hm
    cases hm
  | append_singleton pre e ih =>
    rintro ⟨post, hpost⟩ m hm hmS
    have hprefix : pre <+: s.sent := ⟨e :: post, by rw [← hpost, List.append_assoc]; rfl⟩
    rw [List.map_append, List.mem_append] at hm
    rcases hm with hm | hm
    · exact ih hprefix m hm hmS
    · rw [List.map_singleton, List.mem_singleton] at hm
      subst hm
      have hmem : e ∈ s.sent := by
        rw [← hpost]
        exact List.mem_append_left _ (List.mem_append_right _ List.mem_cons_self)
      have hsent : s.Sent e.1 := ⟨e.2, hmem⟩
      have hparents : ∀ a, s.Parent a e.1 → a ∈ s.history p := by
        rintro a ⟨past, hpast, ha⟩
        -- every entry of the message lists the same past
        have ha' : a ∈ e.2 := (h.past e.1 e.2 hmem a).mpr ((h.past e.1 past hpast a).mp ha)
        have hearlier := h.earlier pre e.1 e.2 post
          (by rw [← hpost, List.append_assoc]; rfl) a ha'
        exact ih hprefix a hearlier (hclosed a e.1 hmS ⟨e.2, hmem, ha'⟩)
      rcases h.mem_or_ready hsent hparents with hin | hr
      · exact hin
      · exact hready e.1 hmS hsent hr

end Causal

/-! ## The peers -/

/-- The broadcasters, and what happened so far. `returned` is what `receive` has returned, `arrived`
what it was called with. -/
structure CausalNet (T : Type) where
  peer : ReplicaId → VectorClockBroadcaster T
  sent : List (CausalMsg T × List (CausalMsg T))
  history : ReplicaId → List (CausalMsg T)
  returned : ReplicaId → List (CausalMsg T)
  arrived : ReplicaId → List (CausalMsg T)

/-- A replica broadcasts, or a message reaches it. -/
inductive CausalOp (T : Type) where
  | submit (p : ReplicaId) (payload : T)
  | receive (p : ReplicaId) (m : CausalMsg T)
deriving DecidableEq

namespace CausalNet

def start : CausalNet T := ⟨.new, [], fun _ => [], fun _ => [], fun _ => []⟩

def step (s : CausalNet T) : CausalOp T → Option (CausalNet T)
  | .submit p payload =>
    ((s.peer p).submit payload).map fun r =>
      { s with
        peer := update s.peer p r.2
        sent := s.sent ++ [(r.1, s.history p)]
        history := update s.history p (s.history p ++ [r.1]) }
  | .receive p m =>
    ((s.peer p).receive m).map fun r =>
      { s with
        peer := update s.peer p r.2
        history := update s.history p (s.history p ++ r.1)
        returned := update s.returned p (s.returned p ++ r.1)
        arrived := update s.arrived p (s.arrived p ++ [m]) }

/-- What arrives was submitted. It may arrive late, out of order, again and again, or never. -/
def Genuine (s : CausalNet T) : CausalOp T → Prop
  | .submit _ _ => True
  | .receive _ m => m ∈ s.sent.map Prod.fst

def causal (s : CausalNet T) : Causal T := ⟨fun p => (s.peer p).delivered, s.sent, s.history⟩

structure Inv (s : CausalNet T) : Prop where
  me : ∀ p, (s.peer p).me = p
  causal : s.causal.Inv
  returned : ∀ p, s.returned p = (s.history p).filter fun m => decide (m.sender ≠ p)
  genuine : ∀ p, ∀ m ∈ s.arrived p, s.causal.Sent m
  pending : ∀ p, ∀ m ∈ (s.peer p).pending, m ∈ s.arrived p
  kept : ∀ p, ∀ m ∈ s.arrived p, m ∈ (s.peer p).pending ∨ m ∈ s.history p
  waiting : ∀ p, ∀ m ∈ (s.peer p).pending, ¬ m.Ready (s.peer p).delivered

variable {s s' : CausalNet T}

theorem inv_start : (start : CausalNet T).Inv where
  me _ := rfl
  causal := Causal.inv_start
  returned _ := rfl
  genuine p m hm := by cases hm
  pending p m hm := by cases hm
  kept p m hm := by cases hm
  waiting p m hm := by cases hm

/-- A clock function after the update of one peer. -/
theorem delivered_update (peer : ReplicaId → VectorClockBroadcaster T) (p : ReplicaId)
    (b : VectorClockBroadcaster T) :
    (fun q => (update peer p b q).delivered) =
      update (fun q => (peer q).delivered) p b.delivered := by
  funext q
  by_cases hq : q = p
  · rw [hq, update_self, update_self]
  · rw [update_of_ne hq, update_of_ne hq]

variable {p : ReplicaId}

/-- A fact about every peer holds after a step if it holds of the peer that moved. -/
theorem forall_update {α : Type} {f : ReplicaId → α} {x : α}
    {P : ReplicaId → α → Prop} (hp : P p x) (hold : ∀ q, q ≠ p → P q (f q)) :
    ∀ q, P q (update f p x q) := by
  intro q
  by_cases hq : q = p
  · rw [hq, update_self]
    exact hp
  · rw [update_of_ne hq]
    exact hold q hq

variable {m : CausalMsg T}

theorem submit_stamps {payload : T} {b : VectorClockBroadcaster T} (hme : (s.peer p).me = p)
    (h : (s.peer p).submit payload = some (m, b)) :
    s.causal.Stamps p m ∧ b = { s.peer p with delivered := m.context } ∧ m.payload = payload := by
  obtain ⟨hcounter, hm, hb⟩ := VectorClockBroadcaster.submit_eq_some h
  rw [hme] at hcounter hm hb
  have hcontext : m.context = (s.peer p).delivered.set p m.senderCounter := by rw [hm]
  refine ⟨⟨by rw [hm], hcounter, hcontext⟩, ?_, by rw [hm]⟩
  simp only [hb, hcontext, hme]

section

variable (h : s.Inv)
include h

/-- A submit releases nothing that waits: no message depends on what was not submitted yet. -/
theorem Inv.waiting_submit (hm : s.causal.Stamps p m)
    {a : CausalMsg T} (ha : a ∈ (s.peer p).pending) : ¬ a.Ready m.context := by
  intro hready
  have hsent := h.genuine p a (h.pending p a ha)
  have hctx := hm.context_get
  have hcounter := hm.counter
  by_cases hp : a.sender = p
  · have hnext := hready.next
    have hown : a.counter ≤ s.causal.count a.sender a.sender := h.causal.own a hsent
    rw [hctx, if_pos hp] at hnext
    rw [hp] at hown
    unfold CausalMsg.counter at *
    omega
  · refine h.waiting p a ha ⟨?_, fun r hr => ?_⟩
    · have hnext := hready.next
      rw [hctx, if_neg hp] at hnext
      exact hnext
    · have hcause := hready.causes r hr
      rw [hctx] at hcause
      split at hcause
      · next hrp =>
        have hle := h.causal.contexts a hsent r
        rw [hrp] at hle ⊢
        exact hle
      · exact hcause

theorem Inv.submit {p : ReplicaId} {payload : T}
    (hstep : step s (.submit p payload) = some s') : s'.Inv := by
  obtain ⟨⟨m, b⟩, hsubmit, rfl⟩ := Option.map_eq_some_iff.mp hstep
  obtain ⟨hm, rfl, -⟩ := submit_stamps (h.me p) hsubmit
  have hcausal : (CausalNet.causal { s with
      peer := update s.peer p { s.peer p with delivered := m.context }
      sent := s.sent ++ [(m, s.history p)]
      history := update s.history p (s.history p ++ [m]) }) = s.causal.submit p m := by
    simp only [CausalNet.causal, delivered_update, Causal.submit]
  refine
    { me := forall_update (P := fun q (b : VectorClockBroadcaster T) => b.me = q) (h.me p)
        fun q _ => h.me q
      causal := hcausal ▸ h.causal.submit hm
      returned := ?returned
      genuine := fun q a ha => ?genuine
      pending := forall_update
        (P := fun q (b : VectorClockBroadcaster T) => ∀ a ∈ b.pending, a ∈ s.arrived q)
        (h.pending p) fun q _ => h.pending q
      kept := ?kept
      waiting := forall_update (P := fun _ (b : VectorClockBroadcaster T) =>
        ∀ a ∈ b.pending, ¬ a.Ready b.delivered) (fun a => h.waiting_submit hm)
        fun q _ => h.waiting q }
  case returned =>
    refine forall_update (P := fun q (l : List (CausalMsg T)) =>
      s.returned q = l.filter fun m => decide (m.sender ≠ q)) ?_ fun q _ => h.returned q
    rw [List.filter_append, ← h.returned p]
    simp [hm.sender]
  case genuine =>
    rw [hcausal]
    exact Causal.sent_submit.mpr (.inl (h.genuine q a ha))
  case kept =>
    intro q a ha
    have hold := h.kept q a ha
    by_cases hq : q = p
    · subst hq
      simp only [update_self]
      rcases hold with hpend | hhist
      · exact .inl hpend
      · exact .inr (List.mem_append_left _ hhist)
    · simp only [update_of_ne hq]
      exact hold

theorem Inv.sent_of_arrived
    (hm : s.Genuine (.receive p m)) : ∀ a ∈ s.arrived p ++ [m], s.causal.Sent a := by
  intro a ha
  rcases List.mem_append.mp ha with ha | ha
  · exact h.genuine p a ha
  · obtain ⟨⟨m', past⟩, hmem, rfl⟩ := List.mem_map.mp hm
    rw [List.mem_singleton.mp ha]
    exact ⟨past, hmem⟩

theorem Inv.arrived_of_queue : ∀ a ∈ (s.peer p).pending ++ [m], a ∈ s.arrived p ++ [m] := by
  intro a ha
  rcases List.mem_append.mp ha with ha | ha
  · exact List.mem_append_left _ (h.pending p a ha)
  · exact List.mem_append_right _ ha

/-- What one `receive` does at a peer of the network. -/
theorem Inv.receive_spec
    (hm : s.Genuine (.receive p m)) {out : List (CausalMsg T)} {b : VectorClockBroadcaster T}
    (hreceive : (s.peer p).receive m = some (out, b)) :
    b.me = p ∧ (∀ a ∈ out, s.causal.Sent a) ∧
      VectorClockBroadcaster.Delivery (s.causal.clock p) out b.delivered ∧
      ((s.peer p).pending ++ [m]).Perm (out ++ b.pending) ∧
      ∀ a ∈ b.pending, ¬ a.Ready b.delivered := by
  have hsent := h.sent_of_arrived hm
  have hstamped : ∀ a ∈ (s.peer p).pending ++ [m], a.Stamped := fun a ha =>
    h.causal.stamped a (hsent a (h.arrived_of_queue a ha))
  obtain ⟨hme, hdel, hperm, hfix⟩ := VectorClockBroadcaster.receive_spec
    (hstamped m (List.mem_append_right _ List.mem_cons_self))
    (fun a ha => hstamped a (List.mem_append_left _ ha)) hreceive
  refine ⟨hme.trans (h.me p), fun a ha => ?_, hdel, hperm, hfix⟩
  exact hsent a (h.arrived_of_queue a (hperm.mem_iff.mpr (List.mem_append_left _ ha)))

theorem Inv.receive
    (hm : s.Genuine (.receive p m)) (hstep : step s (.receive p m) = some s') : s'.Inv := by
  obtain ⟨⟨out, b⟩, hreceive, rfl⟩ := Option.map_eq_some_iff.mp hstep
  obtain ⟨hme, hout, hdel, hperm, hfix⟩ := h.receive_spec hm hreceive
  -- What comes out is delivered one by one, each message after its past.
  obtain ⟨hinv, hne, heq⟩ := h.causal.deliverAll (p := p) hout hdel
  have hcausal : (CausalNet.causal { s with
      peer := update s.peer p b
      history := update s.history p (s.history p ++ out)
      returned := update s.returned p (s.returned p ++ out)
      arrived := update s.arrived p (s.arrived p ++ [m]) }) =
      s.causal.deliverAll p out := by
    rw [heq]
    simp only [CausalNet.causal, delivered_update]
  refine
    { me := forall_update (P := fun q (b : VectorClockBroadcaster T) => b.me = q) hme
        fun q _ => h.me q
      causal := hcausal ▸ hinv
      returned := ?returned
      genuine := ?genuine
      pending := ?pending
      kept := ?kept
      waiting := forall_update (P := fun _ (b : VectorClockBroadcaster T) =>
        ∀ a ∈ b.pending, ¬ a.Ready b.delivered) hfix fun q _ => h.waiting q }
  case returned =>
    intro q
    by_cases hq : q = p
    · subst hq
      simp only [update_self]
      rw [List.filter_append, h.returned q]
      congr 1
      exact (List.filter_eq_self.mpr fun a ha => by simpa using hne a ha).symm
    · simp only [update_of_ne hq]
      exact h.returned q
  case genuine =>
    rw [hcausal, heq]
    exact forall_update (P := fun _ l => ∀ a ∈ l, s.causal.Sent a) (h.sent_of_arrived hm)
      fun q _ => h.genuine q
  case pending =>
    intro q a ha
    by_cases hq : q = p
    · subst hq
      simp only [update_self] at ha ⊢
      exact h.arrived_of_queue a (hperm.mem_iff.mpr (List.mem_append_right _ ha))
    · simp only [update_of_ne hq] at ha ⊢
      exact h.pending q a ha
  case kept =>
    intro q a ha
    by_cases hq : q = p
    · subst hq
      simp only [update_self] at ha ⊢
      have hwaits : a ∈ s.history q ∨ a ∈ (s.peer q).pending ++ [m] := by
        rcases List.mem_append.mp ha with ha | ha
        · exact (h.kept q a ha).symm.imp id (List.mem_append_left _)
        · exact .inr (List.mem_append_right _ ha)
      rcases hwaits with hhist | hpend
      · exact .inr (List.mem_append_left _ hhist)
      · rcases List.mem_append.mp (hperm.mem_iff.mp hpend) with hin | hin
        · exact .inr (List.mem_append_right _ hin)
        · exact .inl hin
    · simp only [update_of_ne hq] at ha ⊢
      exact h.kept q a ha

theorem step_inv {op : CausalOp T} (hop : s.Genuine op) (hstep : step s op = some s') : s'.Inv := by
  cases op with
  | submit p payload => exact h.submit hstep
  | receive p m => exact h.receive hop hstep

/-- Once a causally closed set has arrived, all of it is in the history. -/
theorem Inv.closed_mem {S : Set (CausalMsg T)}
    (hclosed : ∀ a m, m ∈ S → s.causal.Parent a m → a ∈ S)
    (harrived : ∀ m ∈ S, m.sender ≠ p → m ∈ s.arrived p) (hm : m ∈ S)
    (hs : s.causal.Sent m) : m ∈ s.history p := by
  obtain ⟨past, hmem⟩ := hs
  refine h.causal.closed_mem hclosed ?_ s.sent (List.prefix_refl _) m
    (List.mem_map_of_mem (f := Prod.fst) hmem) hm
  intro a ha hs hready
  rcases h.kept p a (harrived a ha (h.causal.sender_ne hs hready)) with hpend | hhist
  · exact absurd hready (h.waiting p a hpend)
  · exact hhist

end

theorem inv_of_reachable (hs : Reachable step Genuine (start : CausalNet T) s) : s.Inv :=
  hs.invariant inv_start fun _ _ _ _ hI hok hstep => step_inv hI hok hstep

end CausalNet

/-- What `receive` returns at `p` over a whole run: every message at most once; after everything
that causally precedes it, except what `p` submitted itself; and once a causally closed set has
arrived, every message of it that `p` did not submit itself. -/
theorem causal_broadcast {s : CausalNet T}
    (hs : Reachable CausalNet.step CausalNet.Genuine .start s) (p : ReplicaId) :
    ((s.returned p).map CausalMsg.dot).Nodup ∧
    (∀ pre m post, s.returned p = pre ++ m :: post →
      ∀ a, s.causal.Precedes a m → a.sender ≠ p → a ∈ pre) ∧
    ∀ S : Set (CausalMsg T), (∀ m ∈ S, s.causal.Sent m) →
      (∀ a m, m ∈ S → s.causal.Precedes a m → a ∈ S) →
      (∀ m ∈ S, m.sender ≠ p → m ∈ s.arrived p) →
      ∀ m ∈ S, m.sender ≠ p → m ∈ s.returned p := by
  have h := CausalNet.inv_of_reachable hs
  refine ⟨?_, ?_, ?_⟩
  · rw [h.returned]
    exact (h.causal.nodup p).sublist (List.filter_sublist.map _)
  · intro pre m post hsplit a hprec hne
    rw [h.returned] at hsplit
    obtain ⟨l₁, l₂, hhist, hpre, hpost⟩ := List.filter_eq_append_iff.mp hsplit
    obtain ⟨l₃, l₄, rfl, hskip, hm, hrest⟩ := List.filter_eq_cons_iff.mp hpost
    have hsplit' : s.history p = (l₁ ++ l₃) ++ m :: l₄ := by rw [List.append_assoc, hhist]
    have hmem := h.causal.precedes_mem hprec hsplit'
    rw [← hpre]
    refine List.mem_filter.mpr ⟨?_, by simpa using hne⟩
    rcases List.mem_append.mp hmem with ha | ha
    · exact ha
    · exact absurd (by simpa using hne) (hskip a ha)
  · intro S hsent hclosed harrived m hm hne
    rw [h.returned]
    refine List.mem_filter.mpr ⟨?_, by simpa using hne⟩
    exact h.closed_mem (fun a b hb hparent => hclosed a b hb (.single hparent)) harrived hm
      (hsent m hm)

instance [DecidableEq T] (s : CausalNet T) : (op : CausalOp T) → Decidable (s.Genuine op)
  | .submit _ _ => inferInstanceAs (Decidable True)
  | .receive _ m => inferInstanceAs (Decidable (m ∈ s.sent.map Prod.fst))

namespace Demo

def peerA : ReplicaId := ⟨"A", Str.fits_A⟩
def peerB : ReplicaId := ⟨"B", Str.fits_B⟩
def peerC : ReplicaId := ⟨"C", by decide⟩

def first : CausalMsg Nat := ⟨peerA, 1, VersionVector.new.set peerA 1, 42⟩

/-- The answer of `B` to the message of `A`. -/
def second : CausalMsg Nat := ⟨peerB, 1, (VersionVector.new.set peerA 1).set peerB 1, 7⟩

/-- The answer reaches `C` twice before the message it answers. -/
def chainRun : List (CausalOp Nat) :=
  [.submit peerA 42, .receive peerB first, .submit peerB 7, .receive peerC second,
    .receive peerC second, .receive peerC first]

end Demo

open Demo in
theorem causal_broadcast_demo :
    ∃ s : CausalNet Nat, Reachable CausalNet.step CausalNet.Genuine .start s ∧
      s.returned peerC = [first, second] ∧ ((s.returned peerC).map CausalMsg.dot).Nodup := by
  obtain ⟨s, hs, hreturned⟩ : ∃ s : CausalNet Nat,
      Reachable CausalNet.step CausalNet.Genuine .start s ∧ s.returned peerC = [first, second] :=
    Reachable.of_exec chainRun (by decide +kernel)
  exact ⟨s, hs, hreturned, (causal_broadcast hs peerC).1⟩

open Demo in
/-- The only message of the run has no causes and has arrived at its own sender. It waits there for
ever. -/
theorem own_message_not_returned :
    ∃ s : CausalNet Nat, Reachable CausalNet.step CausalNet.Genuine .start s ∧ s.causal.Sent first ∧
      (∀ a, ¬ s.causal.Precedes a first) ∧ first ∈ s.arrived peerA ∧ s.returned peerA = [] := by
  obtain ⟨s, hs, hsent, harrived, hreturned⟩ : ∃ s : CausalNet Nat,
      Reachable CausalNet.step CausalNet.Genuine .start s ∧ s.sent = [(first, [])] ∧
      first ∈ s.arrived peerA ∧ s.returned peerA = [] :=
    Reachable.of_exec [.submit peerA 42, .receive peerA first] (by decide +kernel)
  have hparent : ∀ a, ¬ s.causal.Parent a first := by
    rintro a ⟨past, hmem, ha⟩
    rw [show s.causal.sent = [(first, [])] from hsent] at hmem
    cases List.mem_singleton.mp hmem
    cases ha
  refine ⟨s, hs, ⟨[], by rw [show s.causal.sent = _ from hsent]; exact List.mem_cons_self⟩, ?_,
    harrived, hreturned⟩
  intro a hprec
  obtain ⟨b, -, hb⟩ := Relation.TransGen.tail'_iff.mp hprec
  exact hparent b hb

end P2P333.Crdt333
