import P2P333.Transfer333.Basic

/-!
# The causal broadcaster

`VersionVector` of `333-crdt/src/dvv.rs` and `VectorClockBroadcaster` of `333-crdt/src/rcb.rs`.
Counters are `u64`, and an addition that overflows panics: `none`.

The readiness test of the source compares whole vectors through a hypothetical clock. For messages
that came out of `submit` it is the usual test (`canDeliver_eq_some`): the message is the next one
of its sender, and everything else it depends on is delivered.

Results:
1. `pass_spec`, `rescan_spec`: the messages that `receive` returns were each ready when they were
   delivered, and no message that stays in the queue is ready at the end.
-/

namespace P2P333.Crdt333

open Std Lib Transfer333

abbrev ReplicaId := Str

/-! ## Version vectors -/

/-- The highest counter of each replica. -/
structure VersionVector where
  clocks : OrdMap ReplicaId U64
deriving DecidableEq

namespace VersionVector

def new : VersionVector := ⟨∅⟩

def get (v : VersionVector) (r : ReplicaId) : U64 := v.clocks[r]?.getD 0

def tick (v : VersionVector) (r : ReplicaId) : Option (U64 × VersionVector) :=
  (checkedAdd (v.get r) 1).map fun c => (c, ⟨v.clocks.insert r c⟩)

def dominates (v w : VersionVector) : Bool := w.clocks.toList.all fun e => !decide (v.get e.1 < e.2)

def tickLoop : Nat → VersionVector → ReplicaId → U64 → Option VersionVector
  | 0, v, _, _ => some v
  | fuel + 1, v, r, c =>
    if v.get r < c then (v.tick r).bind fun p => tickLoop fuel p.2 r c else some v

/-- `while v.get(r) < c { v.tick(r) }`. -/
def tickTo (v : VersionVector) (r : ReplicaId) (c : U64) : Option VersionVector :=
  tickLoop (c.toNat - (v.get r).toNat) v r c

/-- The clock of `r` set to `c`. -/
def set (v : VersionVector) (r : ReplicaId) (c : U64) : VersionVector := ⟨v.clocks.insert r c⟩

@[simp] theorem get_new (r : ReplicaId) : new.get r = 0 := rfl

@[simp] theorem get_set_self (v : VersionVector) (r : ReplicaId) (c : U64) :
    (v.set r c).get r = c := by
  rw [get, set, ExtTreeMap.getElem?_insert_self]
  rfl

theorem get_set_of_ne (v : VersionVector) {r r' : ReplicaId} (h : r ≠ r') (c : U64) :
    (v.set r c).get r' = v.get r' := by
  rw [get, set, OrdMap.getElem?_insert_of_ne _ h]
  rfl

theorem tick_eq_some {v w : VersionVector} {r : ReplicaId} {c : U64} :
    v.tick r = some (c, w) ↔ c.toNat = (v.get r).toNat + 1 ∧ w = v.set r c := by
  unfold tick
  rw [Option.map_eq_some_iff]
  constructor
  · rintro ⟨c', hc, he⟩
    cases he
    exact ⟨checkedAdd_eq_some.mp hc, rfl⟩
  · rintro ⟨hc, rfl⟩
    exact ⟨c, checkedAdd_eq_some.mpr hc, rfl⟩

theorem dominates_iff {v w : VersionVector} :
    v.dominates w = true ↔ ∀ r, (w.get r).toNat ≤ (v.get r).toNat := by
  unfold dominates
  rw [List.all_eq_true]
  constructor
  · intro h r
    cases hr : w.clocks[r]? with
    | none => simp [get, hr]
    | some c =>
      have hmem := h (r, c) (ExtTreeMap.mem_toList_iff_getElem?_eq_some.mpr hr)
      simp only [Bool.not_eq_true', decide_eq_false_iff_not, BitVec.not_lt, BitVec.le_def] at hmem
      simpa [get, hr] using hmem
  · rintro h ⟨r, c⟩ hmem
    have hr := ExtTreeMap.mem_toList_iff_getElem?_eq_some.mp hmem
    have hle := h r
    simp only [Bool.not_eq_true', decide_eq_false_iff_not, BitVec.not_lt, BitVec.le_def]
    simpa [get, hr] using hle

/-- One tick is enough when the counter is the next one. -/
theorem tickTo_next {v : VersionVector} {r : ReplicaId} {c : U64}
    (h : (v.get r).toNat + 1 = c.toNat) : v.tickTo r c = some (v.set r c) := by
  have hfuel : c.toNat - (v.get r).toNat = 1 := by omega
  have hlt : v.get r < c := BitVec.lt_def.mpr (by omega)
  have htick : v.tick r = some (c, v.set r c) := tick_eq_some.mpr ⟨h.symm, rfl⟩
  simp only [tickTo, hfuel, tickLoop, hlt, if_true, htick, Option.bind_some]

end VersionVector

/-! ## Messages and readiness -/

variable {T : Type}

structure CausalMsg (T : Type) where
  sender : ReplicaId
  senderCounter : U64
  context : VersionVector
  payload : T
deriving DecidableEq

namespace CausalMsg

/-- What identifies a message. -/
def dot (m : CausalMsg T) : ReplicaId × U64 := (m.sender, m.senderCounter)

/-- `submit` takes the context after its own tick. -/
def Stamped (m : CausalMsg T) : Prop := m.context.get m.sender = m.senderCounter

/-- The next message of its sender, with all its other causes delivered. -/
structure Ready (v : VersionVector) (m : CausalMsg T) : Prop where
  next : (v.get m.sender).toNat + 1 = m.senderCounter.toNat
  causes : ∀ r, r ≠ m.sender → (m.context.get r).toNat ≤ (v.get r).toNat

end CausalMsg

structure VectorClockBroadcaster (T : Type) where
  me : ReplicaId
  delivered : VersionVector
  pending : List (CausalMsg T)
deriving DecidableEq

namespace VectorClockBroadcaster

def new (me : ReplicaId) : VectorClockBroadcaster T := ⟨me, .new, []⟩

/-- `ctx` and `stripped` of the source are the same clone of the context, ticked once. -/
def canDeliver (delivered : VersionVector) (m : CausalMsg T) : Option Bool :=
  (checkedAdd (delivered.get m.sender) 1).bind fun next =>
    if next ≠ m.senderCounter then some false
    else (m.context.tick m.sender).bind fun stripped =>
      (delivered.tickTo m.sender m.senderCounter).map fun hypothetical =>
        hypothetical.dominates m.context || hypothetical.dominates stripped.2

def deliverNow (delivered : VersionVector) (m : CausalMsg T) : Option VersionVector :=
  delivered.tickTo m.sender m.senderCounter

def submit (b : VectorClockBroadcaster T) (payload : T) :
    Option (CausalMsg T × VectorClockBroadcaster T) :=
  (b.delivered.tick b.me).map fun p => (⟨b.me, p.1, p.2, payload⟩, { b with delivered := p.2 })

/-- One pass over the queue: the vector, the delivered messages and the remaining queue. -/
def pass : VersionVector → List (CausalMsg T) →
    Option (VersionVector × List (CausalMsg T) × List (CausalMsg T))
  | v, [] => some (v, [], [])
  | v, m :: queue =>
    (canDeliver v m).bind fun ready =>
      if ready then
        (deliverNow v m).bind fun v' =>
          (pass v' queue).map fun p => (p.1, m :: p.2.1, p.2.2)
      else (pass v queue).map fun p => (p.1, p.2.1, m :: p.2.2)

/-- Passes until the queue stays as long as it was. Every other pass shortens it, so one pass more
than its length is enough fuel. -/
def rescan : Nat → VersionVector → List (CausalMsg T) →
    Option (VersionVector × List (CausalMsg T) × List (CausalMsg T))
  | 0, v, queue => some (v, [], queue)
  | fuel + 1, v, queue =>
    (pass v queue).bind fun p =>
      if p.2.2.length = queue.length then some p
      else (rescan fuel p.1 p.2.2).map fun p' => (p'.1, p.2.1 ++ p'.2.1, p'.2.2)

def receive (b : VectorClockBroadcaster T) (m : CausalMsg T) :
    Option (List (CausalMsg T) × VectorClockBroadcaster T) :=
  (rescan (b.pending.length + 2) b.delivered (b.pending ++ [m])).map fun p =>
    (p.2.1, { b with delivered := p.1, pending := p.2.2 })

/-! ## What the operations do -/

theorem submit_eq_some {b b' : VectorClockBroadcaster T} {payload : T} {m : CausalMsg T}
    (h : b.submit payload = some (m, b')) :
    m.senderCounter.toNat = (b.delivered.get b.me).toNat + 1 ∧
      m = ⟨b.me, m.senderCounter, b.delivered.set b.me m.senderCounter, payload⟩ ∧
      b' = { b with delivered := b.delivered.set b.me m.senderCounter } := by
  unfold submit at h
  obtain ⟨⟨c, w⟩, htick, he⟩ := Option.map_eq_some_iff.mp h
  obtain ⟨hc, rfl⟩ := VersionVector.tick_eq_some.mp htick
  cases he
  exact ⟨hc, rfl, rfl⟩

/-- The test of the source is the usual one, on messages that `submit` stamped. -/
theorem canDeliver_eq_some {v : VersionVector} {m : CausalMsg T} (hm : m.Stamped) {b : Bool}
    (h : canDeliver v m = some b) : b = true ↔ m.Ready v := by
  unfold canDeliver at h
  obtain ⟨next, hnext, h⟩ := Option.bind_eq_some_iff.mp h
  rw [checkedAdd_eq_some] at hnext
  split at h
  · next hne =>
    cases h
    refine ⟨fun hc => (by cases hc), fun hready => ?_⟩
    exact absurd (BitVec.eq_of_toNat_eq (hnext.trans hready.next)) hne
  · next heq =>
    have hcounter : (v.get m.sender).toNat + 1 = m.senderCounter.toNat := by
      rw [← not_not.mp heq, hnext]
      rfl
    obtain ⟨⟨c, stripped⟩, htick, h⟩ := Option.bind_eq_some_iff.mp h
    obtain ⟨hc, rfl⟩ := VersionVector.tick_eq_some.mp htick
    rw [VersionVector.tickTo_next hcounter, Option.map_some, Option.some.injEq] at h
    -- the stripped context exceeds the hypothetical clock at the sender
    have hstripped :
        (v.set m.sender m.senderCounter).dominates (m.context.set m.sender c) = false := by
      rw [Bool.eq_false_iff, ne_eq, VersionVector.dominates_iff]
      intro hle
      have hsender := hle m.sender
      rw [VersionVector.get_set_self, VersionVector.get_set_self, hc, hm] at hsender
      omega
    rw [← h, hstripped, Bool.or_false, VersionVector.dominates_iff]
    constructor
    · intro hle
      refine ⟨hcounter, fun r hr => ?_⟩
      have := hle r
      rwa [VersionVector.get_set_of_ne _ (Ne.symm hr)] at this
    · intro hready r
      by_cases hr : r = m.sender
      · rw [hr, VersionVector.get_set_self, hm]
      · rw [VersionVector.get_set_of_ne _ (Ne.symm hr)]
        exact hready.causes r hr

/-- Messages delivered one after the other, each of them ready at its turn. -/
inductive Delivery : VersionVector → List (CausalMsg T) → VersionVector → Prop
  | nil {v : VersionVector} : Delivery v [] v
  | cons {v v' : VersionVector} {m : CausalMsg T} {out : List (CausalMsg T)} (hm : m.Ready v)
      (h : Delivery (v.set m.sender m.senderCounter) out v') : Delivery v (m :: out) v'

theorem Delivery.append {v v' v'' : VersionVector} {out out' : List (CausalMsg T)}
    (h : Delivery v out v') (h' : Delivery v' out' v'') : Delivery v (out ++ out') v'' := by
  induction h with
  | nil => exact h'
  | cons hm _ ih => exact .cons hm (ih h')

theorem pass_spec {v v' : VersionVector} {queue out remaining : List (CausalMsg T)}
    (hqueue : ∀ m ∈ queue, m.Stamped) (h : pass v queue = some (v', out, remaining)) :
    Delivery v out v' ∧ queue.Perm (out ++ remaining) ∧
      (out = [] → ∀ m ∈ remaining, ¬ m.Ready v') := by
  induction queue generalizing v out remaining with
  | nil =>
    cases h
    exact ⟨.nil, .refl _, fun _ m hm => by cases hm⟩
  | cons m queue ih =>
    have hm := hqueue m List.mem_cons_self
    have hrest : ∀ m ∈ queue, m.Stamped := fun m' hm' => hqueue m' (List.mem_cons_of_mem _ hm')
    unfold pass at h
    obtain ⟨ready, hready, h⟩ := Option.bind_eq_some_iff.mp h
    have hspec := canDeliver_eq_some hm hready
    split at h
    · next hr =>
      have hr := hspec.mp hr
      rw [deliverNow, VersionVector.tickTo_next hr.next] at h
      obtain ⟨⟨w, out', rem⟩, hp, he⟩ := Option.map_eq_some_iff.mp h
      cases he
      obtain ⟨hdel, hperm, -⟩ := ih hrest hp
      exact ⟨.cons hr hdel, hperm.cons m, fun hc => by cases hc⟩
    · next hr =>
      obtain ⟨⟨w, out', rem⟩, hp, he⟩ := Option.map_eq_some_iff.mp h
      cases he
      obtain ⟨hdel, hperm, hfix⟩ := ih hrest hp
      refine ⟨hdel, (hperm.cons m).trans List.perm_middle.symm, ?_⟩
      rintro rfl m' hm'
      rcases List.mem_cons.mp hm' with rfl | hm'
      · cases hdel
        exact fun hc => hr (hspec.mpr hc)
      · exact hfix rfl m' hm'

theorem rescan_spec {fuel : Nat} {v v' : VersionVector} {queue out remaining : List (CausalMsg T)}
    (hqueue : ∀ m ∈ queue, m.Stamped) (hfuel : queue.length < fuel)
    (h : rescan fuel v queue = some (v', out, remaining)) :
    Delivery v out v' ∧ queue.Perm (out ++ remaining) ∧ ∀ m ∈ remaining, ¬ m.Ready v' := by
  induction fuel generalizing v queue out remaining with
  | zero => exact absurd hfuel (Nat.not_lt_zero _)
  | succ fuel ih =>
    unfold rescan at h
    obtain ⟨⟨w, out', rem⟩, hp, h⟩ := Option.bind_eq_some_iff.mp h
    obtain ⟨hdel, hperm, hfix⟩ := pass_spec hqueue hp
    have hlen := hperm.length_eq
    rw [List.length_append] at hlen
    split at h
    · next heq =>
      cases h
      refine ⟨hdel, hperm, hfix (List.length_eq_zero_iff.mp ?_)⟩
      simp only at heq
      omega
    · next hne =>
      obtain ⟨⟨w', out'', rem'⟩, hr, he⟩ := Option.map_eq_some_iff.mp h
      cases he
      have hsub : ∀ m ∈ rem, m.Stamped := fun m hm =>
        hqueue m (hperm.mem_iff.mpr (List.mem_append_right _ hm))
      simp only at hne
      obtain ⟨hdel', hperm', hfix'⟩ := ih hsub (by omega) hr
      refine ⟨hdel.append hdel', ?_, hfix'⟩
      rw [List.append_assoc]
      exact hperm.trans (hperm'.append_left _)

theorem receive_spec {b b' : VectorClockBroadcaster T} {m : CausalMsg T} {out : List (CausalMsg T)}
    (hm : m.Stamped) (hpending : ∀ m ∈ b.pending, m.Stamped) (h : b.receive m = some (out, b')) :
    b'.me = b.me ∧ Delivery b.delivered out b'.delivered ∧
      (b.pending ++ [m]).Perm (out ++ b'.pending) ∧ ∀ m' ∈ b'.pending, ¬ m'.Ready b'.delivered := by
  unfold receive at h
  obtain ⟨⟨v, out', rem⟩, hr, he⟩ := Option.map_eq_some_iff.mp h
  cases he
  have hqueue : ∀ m' ∈ b.pending ++ [m], m'.Stamped := by
    intro m' hm'
    rcases List.mem_append.mp hm' with hm' | hm'
    · exact hpending m' hm'
    · rw [List.mem_singleton.mp hm']
      exact hm
  exact ⟨rfl, rescan_spec hqueue (by simp) hr⟩

end VectorClockBroadcaster

end P2P333.Crdt333
