import P2P333.Lib.Joins
import P2P333.Lib.MaxMap
import P2P333.Lib.Transition
import P2P333.Substrate.Ltdd.Receipt

/-!
# The convergence receipt

`substrate/crates/crdt/src/lib.rs`: a grow-only counter, one full exchange of states, and the
receipt that says whether replicas agree. An increment that does not fit 64 bits wraps, as in a
release build. In an `Exchange` the replicas increment, and receive states that were sent earlier,
late, in any order, again or never.

Results:
1. `recordConvergence_exact`: what the receipt returns, and what a store says that it was shipped
   to.
2. `step_exact`, `exact_of_reachable`: what a replica counts, in every run.
3. `gossip_exact`: after a full exchange all replicas are the same and count everything.
4. `recordStates_complete`: where one replica counts everything, the receipt finds the others that
   do not.
-/

namespace P2P333.Substrate

open Std Lib

/-! ## The counter -/

/-- A grow-only counter, with a slot for every replica. -/
structure GCounter where
  slots : OrdMap String (BitVec 64)
deriving DecidableEq

namespace GCounter

def new : GCounter := ⟨∅⟩

def increment (c : GCounter) (replica : String) (amount : BitVec 64) : GCounter :=
  ⟨c.slots.insert replica (c.slots[replica]?.getD 0 + amount)⟩

/-- The sum of all slots, modulo `2 ^ 64`. -/
def value (c : GCounter) : BitVec 64 := (c.slots.toList.map Prod.snd).sum

def merge (c d : GCounter) : GCounter := ⟨c.slots.mergeMax d.slots⟩

/-- The number in the slot of one replica. -/
def count (c : GCounter) (replica : String) : Nat := c.slots.count replica

end GCounter

/-- Every replica merges the current state of every replica. -/
def gossip (replicas : List (String × GCounter)) : List (String × GCounter) :=
  let snapshot := replicas.map Prod.snd
  replicas.map fun r => (r.1, snapshot.foldl GCounter.merge r.2)

/-! ## The receipt -/

theorem distinct_convergence : ["replica_final", "replica_diverged", "converged"].Nodup := by
  decide

def convergence : Receipt String String where
  final := "replica_final"
  diverged := "replica_diverged"
  agreed := "converged"
  finalAttrs replica state := [("replica", .string replica), ("state", .string state)]
  divergedAttrs replica state expected :=
    [("replica", .string replica), ("state", .string state), ("expected", .string expected)]
  distinct := distinct_convergence

/-- The first state is what all others are compared to. -/
def recordConvergence (cid : String) (states : List (String × String)) :
    Bool × List (List Event) :=
  convergence.record cid "" [("replicas", num (UInt64.ofNat states.length))] states

/-- The receipt compares values, and not the slots that they come from. -/
def recordStates (cid : String) (replicas : List (String × GCounter)) :
    Bool × List (List Event) :=
  recordConvergence cid (replicas.map fun r => (r.1, toString r.2.value.toNat))

/-- The receipt says that all agree if and only if they do, and a store that can be asked and keeps
what it is given says the same: it has `converged` then, and `replica_diverged` otherwise, once for
every replica that differs from the first one. -/
theorem recordConvergence_exact {cid : String} (store : MemoryStore)
    (hfresh : store.query cid = []) (states : List (String × String)) :
    let r := recordConvergence cid states
    let after := store.shipAll r.2
    (r.1 = true ↔ ∀ s ∈ states, ∀ t ∈ states, s.2 = t.2) ∧
      (verifyPresent after cid "converged" 1 = .present ↔
        store.unreachable = false ∧ store.drop = false ∧ r.1 = true) ∧
      (verifyPresent after cid "replica_diverged" 1 = .absent ↔
        store.unreachable = false ∧ (store.drop = true ∨ r.1 = true)) ∧
      ∀ n, verifyPresent after cid "replica_diverged" n = .present ↔ store.unreachable = false ∧
        n ≤ if store.drop then 0 else differing (canonicalState "" states) states :=
  convergence.record_exact store hfresh ..

/-! ## The counter's own laws -/

namespace GCounter

variable {c d : GCounter} {l : List GCounter} {replica : String} {n : Nat}

instance instCommutative : Commutative merge := ⟨fun _ _ => congrArg mk (OrdMap.mergeMax_comm ..)⟩

instance instAssociative : Associative merge :=
  ⟨fun _ _ _ => congrArg mk (OrdMap.mergeMax_assoc ..)⟩

instance instIdempotentOp : IdempotentOp merge := ⟨fun _ => congrArg mk (OrdMap.mergeMax_self _)⟩

theorem count_merge (c d : GCounter) (replica : String) :
    (c.merge d).count replica = max (c.count replica) (d.count replica) :=
  OrdMap.count_mergeMax ..

theorem count_new (replica : String) : new.count replica = 0 := rfl

theorem count_increment_self {amount : BitVec 64}
    (h : c.count replica + amount.toNat < 2 ^ 64) :
    (c.increment replica amount).count replica = c.count replica + amount.toNat := by
  rw [count, increment, OrdMap.count_insert_self, BitVec.toNat_add]
  exact Nat.mod_eq_of_lt h

theorem count_increment_of_ne {replica' : String} (h : replica ≠ replica') (amount : BitVec 64) :
    (c.increment replica amount).count replica' = c.count replica' :=
  OrdMap.count_insert_of_ne _ h _

theorem count_foldl_merge_le (hc : c.count replica ≤ n) (hl : ∀ d ∈ l, d.count replica ≤ n) :
    (l.foldl merge c).count replica ≤ n := by
  induction l generalizing c with
  | nil => exact hc
  | cons d l ih =>
    refine ih ?_ fun e he => hl e (List.mem_cons_of_mem _ he)
    rw [count_merge]
    exact Nat.max_le.mpr ⟨hc, hl d List.mem_cons_self⟩

theorem le_count_foldl_merge (c : GCounter) (hd : d ∈ l) :
    d.count replica ≤ (l.foldl merge c).count replica := by
  rw [← op_foldl_of_mem c hd, count_merge]
  exact Nat.le_max_left _ _

/-- The value, from the numbers of all who may have one. -/
theorem toNat_value {names : List String} (hnames : names.Nodup)
    (hc : ∀ r, 0 < c.count r → r ∈ names) :
    c.value.toNat = (names.map c.count).sum % 2 ^ 64 := by
  have hsum (l : List (BitVec 64)) : l.sum.toNat = (l.map BitVec.toNat).sum % 2 ^ 64 := by
    induction l with
    | nil => rfl
    | cons v l ih =>
      rw [List.sum_cons, List.map_cons, List.sum_cons, BitVec.toNat_add, ih, Nat.add_mod_mod]
  rw [value, hsum, List.map_map, show names.map c.count = names.map c.slots.count from rfl,
    ← OrdMap.sumBy_eq_sum_count hnames hc]
  rfl

end GCounter

/-! ## Runs -/

/-- The replicas, what each one has added so far, and the states that were sent. -/
structure Exchange where
  replicas : List (String × GCounter)
  added : String → Nat
  sent : List GCounter

/-- What the replicas of a counter do. -/
inductive ExchangeOp
  | increment (replica : String) (amount : BitVec 64)
  | send (replica : String)
  | receive (replica : String) (state : GCounter)
  | gossip

namespace Exchange

def start (names : List String) : Exchange := ⟨names.map fun r => (r, .new), fun _ => 0, []⟩

/-- The replica of this name changes its state. -/
def update (replicas : List (String × GCounter)) (replica : String) (f : GCounter → GCounter) :
    List (String × GCounter) :=
  replicas.map fun r => if r.1 = replica then (r.1, f r.2) else r

def step (s : Exchange) : ExchangeOp → Option Exchange
  | .increment replica amount =>
    some { s with
      replicas := update s.replicas replica fun c => c.increment replica amount
      added := Function.update s.added replica (s.added replica + amount.toNat) }
  | .send replica =>
    some { s with
      sent := s.sent ++ (s.replicas.filter fun r => r.1 == replica).map Prod.snd }
  | .receive replica state =>
    some { s with replicas := update s.replicas replica fun c => c.merge state }
  | .gossip => some { s with replicas := P2P333.Substrate.gossip s.replicas }

/-- A replica increments its own slot, which does not overflow, and receives what was sent. -/
def Allowed (s : Exchange) : ExchangeOp → Prop
  | .increment replica amount =>
    replica ∈ s.replicas.map Prod.fst ∧ s.added replica + amount.toNat < 2 ^ 64
  | .receive _ state => state ∈ s.sent
  | _ => True

/-- A replica counts itself exactly, and nobody counts more than was added. -/
structure Exact (names : List String) (s : Exchange) : Prop where
  ids : s.replicas.map Prod.fst = names
  own : ∀ r ∈ s.replicas, r.2.count r.1 = s.added r.1
  held : ∀ r ∈ s.replicas, ∀ k, r.2.count k ≤ s.added k
  sent : ∀ c ∈ s.sent, ∀ k, c.count k ≤ s.added k
  others : ∀ k, 0 < s.added k → k ∈ names

variable {names : List String} {s s' : Exchange}

theorem map_fst_update (replicas : List (String × GCounter)) (replica : String)
    (f : GCounter → GCounter) :
    (update replicas replica f).map Prod.fst = replicas.map Prod.fst := by
  unfold update
  rw [List.map_map]
  refine List.map_congr_left fun r _ => ?_
  show (if r.1 = replica then (r.1, f r.2) else r).1 = r.1
  split <;> rfl

theorem exact_start (names : List String) : (start names).Exact names where
  ids := by
    show (names.map _).map Prod.fst = names
    rw [List.map_map]
    exact List.map_id names
  own r hr := by
    obtain ⟨name, -, rfl⟩ := List.mem_map.mp hr
    exact GCounter.count_new name
  held r hr k := by
    obtain ⟨name, -, rfl⟩ := List.mem_map.mp hr
    exact Nat.le_of_eq (GCounter.count_new k)
  sent c hc := absurd hc List.not_mem_nil
  others k hk := absurd hk (Nat.lt_irrefl 0)

variable {replica : String} {r : String × GCounter}

theorem mem_update {replicas : List (String × GCounter)}
    {f : GCounter → GCounter} (hr : r ∈ update replicas replica f) :
    ∃ c, (r.1, c) ∈ replicas ∧ r.2 = if r.1 = replica then f c else c := by
  obtain ⟨r', hr', rfl⟩ := List.mem_map.mp hr
  by_cases h : r'.1 = replica
  · refine ⟨r'.2, ?_, by simp [h]⟩
    simpa [h] using h ▸ hr'
  · refine ⟨r'.2, ?_, by simp [h]⟩
    simpa [h] using hr'

theorem Exact.increment (h : s.Exact names) {amount : BitVec 64}
    (hok : s.Allowed (.increment replica amount))
    (hstep : s.step (.increment replica amount) = some s') : s'.Exact names := by
  obtain ⟨hmem, hfits⟩ := hok
  obtain ⟨hreplicas, hself, hother, hsent⟩ :
      (s'.replicas = update s.replicas replica fun c => c.increment replica amount) ∧
      s'.added replica = s.added replica + amount.toNat ∧
      (∀ k, k ≠ replica → s'.added k = s.added k) ∧ s'.sent = s.sent := by
    cases hstep
    exact ⟨rfl, Function.update_self .., fun k hk => Function.update_of_ne hk .., rfl⟩
  have hadded (k : String) : s.added k ≤ s'.added k := by
    rcases eq_or_ne k replica with rfl | hk
    · rw [hself]
      exact Nat.le_add_right _ _
    · rw [hother k hk]
  have hcount {r : String} {c : GCounter} (hc : (r, c) ∈ s.replicas) :
      (c.increment replica amount).count replica = c.count replica + amount.toNat :=
    GCounter.count_increment_self
      (Nat.lt_of_le_of_lt (Nat.add_le_add_right (h.held _ hc replica) _) hfits)
  refine ⟨by rw [hreplicas, map_fst_update, h.ids], fun r hr => ?_, fun r hr k => ?_,
    fun c hc k => (h.sent c (hsent ▸ hc) k).trans (hadded k), fun k hk => ?_⟩
  · obtain ⟨c, hc, hr⟩ := mem_update (hreplicas ▸ hr)
    have hown : c.count r.1 = s.added r.1 := h.own _ hc
    rw [hr]
    split
    · next heq => rw [heq, hcount hc, hself, ← heq, hown]
    · next hne => rw [hother _ hne, hown]
  · obtain ⟨c, hc, hr⟩ := mem_update (hreplicas ▸ hr)
    have hheld : c.count k ≤ s.added k := h.held _ hc k
    rw [hr]
    split
    · rcases eq_or_ne k replica with rfl | hk
      · rw [hcount hc, hself]
        exact Nat.add_le_add_right hheld _
      · rw [GCounter.count_increment_of_ne hk.symm, hother k hk]
        exact hheld
    · exact hheld.trans (hadded k)
  · rcases eq_or_ne k replica with rfl | hne
    · exact h.ids ▸ hmem
    · exact h.others k (hother k hne ▸ hk)

theorem Exact.receive (h : s.Exact names) {state : GCounter}
    (hok : s.Allowed (.receive replica state))
    (hstep : s.step (.receive replica state) = some s') : s'.Exact names := by
  have hstate : ∀ k, state.count k ≤ s.added k := h.sent state hok
  obtain ⟨hreplicas, hadded, hsent⟩ :
      (s'.replicas = update s.replicas replica fun c => c.merge state) ∧
      s'.added = s.added ∧ s'.sent = s.sent := by
    cases hstep
    exact ⟨rfl, rfl, rfl⟩
  refine ⟨by rw [hreplicas, map_fst_update, h.ids], fun r hr => ?_, fun r hr k => ?_,
    by rw [hadded, hsent]; exact h.sent, by rw [hadded]; exact h.others⟩
  · obtain ⟨c, hc, hr⟩ := mem_update (hreplicas ▸ hr)
    have hown : c.count r.1 = s.added r.1 := h.own _ hc
    rw [hr, hadded]
    split
    · rw [GCounter.count_merge, hown]
      exact Nat.max_eq_left (hstate r.1)
    · exact hown
  · obtain ⟨c, hc, hr⟩ := mem_update (hreplicas ▸ hr)
    have hheld : c.count k ≤ s.added k := h.held _ hc k
    rw [hr, hadded]
    split
    · rw [GCounter.count_merge]
      exact Nat.max_le.mpr ⟨hheld, hstate k⟩
    · exact hheld

theorem mem_gossip {replicas : List (String × GCounter)} (hr : r ∈ gossip replicas) :
    ∃ c, (r.1, c) ∈ replicas ∧ r.2 = (replicas.map Prod.snd).foldl GCounter.merge c := by
  obtain ⟨r', hr', rfl⟩ := List.mem_map.mp hr
  exact ⟨r'.2, hr', rfl⟩

theorem map_fst_gossip (replicas : List (String × GCounter)) :
    (gossip replicas).map Prod.fst = replicas.map Prod.fst := by
  unfold gossip
  rw [List.map_map]
  rfl

/-- After a full exchange every replica counts what every replica counted of itself. -/
theorem Exact.count_gossip (h : s.Exact names)
    (hr : r ∈ gossip s.replicas) (k : String) : r.2.count k = s.added k := by
  obtain ⟨c, hc, hr⟩ := mem_gossip hr
  have hle : r.2.count k ≤ s.added k := by
    rw [hr]
    refine GCounter.count_foldl_merge_le (h.held _ hc k) fun d hd => ?_
    obtain ⟨q, hq, rfl⟩ := List.mem_map.mp hd
    exact h.held q hq k
  refine Nat.le_antisymm hle ?_
  rcases Nat.eq_zero_or_pos (s.added k) with hzero | hpos
  · rw [hzero]
    exact Nat.zero_le _
  · -- The replica of that name is among those that are merged, and it counts itself exactly.
    obtain ⟨q, hq, rfl⟩ := List.mem_map.mp (h.ids ▸ h.others k hpos)
    rw [← h.own q hq, hr]
    exact GCounter.le_count_foldl_merge c (List.mem_map_of_mem hq)

theorem step_exact (h : s.Exact names) {a : ExchangeOp} (hok : s.Allowed a)
    (hstep : s.step a = some s') : s'.Exact names := by
  cases a with
  | increment replica amount => exact h.increment hok hstep
  | send replica =>
    cases hstep
    refine ⟨h.ids, h.own, h.held, fun c hc k => ?_, h.others⟩
    rcases List.mem_append.mp hc with hc | hc
    · exact h.sent c hc k
    · obtain ⟨r, hr, rfl⟩ := List.mem_map.mp hc
      exact h.held r (List.mem_of_mem_filter hr) k
  | receive replica state => exact h.receive hok hstep
  | gossip =>
    cases hstep
    refine ⟨by rw [map_fst_gossip, h.ids], fun r hr => h.count_gossip hr r.1,
      fun r hr k => Nat.le_of_eq (h.count_gossip hr k), h.sent, h.others⟩

theorem exact_of_reachable (hs : Reachable step Allowed (start names) s) : s.Exact names :=
  hs.invariant (exact_start names) fun _ _ _ _ h hok hstep => step_exact h hok hstep

/-- What has been added, by all of them. -/
def total (names : List String) (s : Exchange) : Nat := (names.map s.added).sum

theorem Exact.toNat_value (h : s.Exact names) (hnames : names.Nodup)
    (hr : r ∈ s.replicas) : r.2.value.toNat = (names.map r.2.count).sum % 2 ^ 64 :=
  GCounter.toNat_value hnames fun k hk => h.others k (Nat.lt_of_lt_of_le hk (h.held r hr k))

theorem recordStates_iff (cid : String) (replicas : List (String × GCounter)) :
    (recordStates cid replicas).1 = true ↔
      ∀ r ∈ replicas, ∀ q ∈ replicas, r.2.value.toNat = q.2.value.toNat := by
  refine (convergence.record_spec cid ..).1.trans ⟨fun h r hr q hq => ?_, fun h a ha b hb => ?_⟩
  · exact Nat.repr_injective (h _ (List.mem_map_of_mem hr) _ (List.mem_map_of_mem hq))
  · obtain ⟨r, hr, rfl⟩ := List.mem_map.mp ha
    obtain ⟨q, hq, rfl⟩ := List.mem_map.mp hb
    exact congrArg toString (h r hr q hq)

/-- In every run whose increments do not overflow their slots, after a full exchange all replicas
are the same, the value is the sum of all that was added, modulo `2 ^ 64`, and the receipt says that
they agree. -/
theorem gossip_exact (hnames : names.Nodup) (hs : Reachable step Allowed (start names) s)
    (cid : String) :
    (∀ r ∈ gossip s.replicas, ∀ q ∈ gossip s.replicas, r.2 = q.2) ∧
      (∀ r ∈ gossip s.replicas, r.2.value.toNat = s.total names % 2 ^ 64) ∧
      (recordStates cid (gossip s.replicas)).1 = true := by
  have h := exact_of_reachable hs
  have hgossip : Exact names { s with replicas := gossip s.replicas } :=
    exact_of_reachable (hs.tail (a := .gossip) trivial rfl)
  have hsame (r : String × GCounter) (hr : r ∈ gossip s.replicas) (q : String × GCounter)
      (hq : q ∈ gossip s.replicas) : r.2 = q.2 := by
    obtain ⟨c, hc, hr⟩ := mem_gossip hr
    obtain ⟨d, hd, hq⟩ := mem_gossip hq
    rw [hr, hq]
    exact foldl_op_of_mem (List.mem_map.mpr ⟨_, hc, rfl⟩) (List.mem_map.mpr ⟨_, hd, rfl⟩)
  refine ⟨hsame, fun r hr => ?_, ?_⟩
  · rw [hgossip.toNat_value hnames hr, total,
      List.map_congr_left fun k _ => h.count_gossip hr k]
  · exact (recordStates_iff cid _).mpr fun r hr q hq =>
      congrArg (fun c : GCounter => c.value.toNat) (hsame r hr q hq)

/-- Numbers that are nowhere larger and have the same sum are the same. -/
theorem eq_of_sum_eq {f g : String → Nat} (hnames : names.Nodup) (hle : ∀ k, f k ≤ g k)
    (hsum : (names.map f).sum = (names.map g).sum) : ∀ k ∈ names, f k = g k := by
  rw [← List.sum_toFinset f hnames, ← List.sum_toFinset g hnames] at hsum
  intro k hk
  exact (Finset.sum_eq_sum_iff_of_le fun k _ => hle k).mp hsum k (List.mem_toFinset.mpr hk)

/-- In every run in which the total fits 64 bits: where one replica counts everything, the receipt
says that all agree if and only if every replica counts everything. -/
theorem recordStates_complete (hnames : names.Nodup)
    (hs : Reachable step Allowed (start names) s) (htotal : s.total names < 2 ^ 64)
    {p : String × GCounter} (hp : p ∈ s.replicas) (hcomplete : ∀ k, p.2.count k = s.added k)
    (cid : String) :
    (recordStates cid s.replicas).1 = true ↔
      ∀ r ∈ s.replicas, ∀ k, r.2.count k = s.added k := by
  have h := exact_of_reachable hs
  have hvalue (r : String × GCounter) (hr : r ∈ s.replicas) :
      r.2.value.toNat = (names.map r.2.count).sum := by
    have hle : (names.map r.2.count).sum ≤ s.total names :=
      List.sum_le_sum fun k _ => h.held r hr k
    rw [h.toNat_value hnames hr, Nat.mod_eq_of_lt (Nat.lt_of_le_of_lt hle htotal)]
  rw [recordStates_iff]
  refine ⟨fun hagree r hr => ?_, fun hall r hr q hq => ?_⟩
  · have hsum : (names.map r.2.count).sum = (names.map s.added).sum := by
      rw [← hvalue r hr, hagree r hr p hp, hvalue p hp,
        List.map_congr_left fun k _ => hcomplete k]
    intro k
    by_cases hk : k ∈ names
    · exact eq_of_sum_eq hnames (h.held r hr) hsum k hk
    · -- Nobody adds under a name that no replica has.
      have hzero : s.added k = 0 := Nat.eq_zero_of_not_pos fun hpos => hk (h.others k hpos)
      have hheld := h.held r hr k
      rw [hzero] at hheld ⊢
      exact Nat.le_zero.mp hheld
  · rw [hvalue r hr, hvalue q hq, List.map_congr_left fun k _ => hall r hr k,
      List.map_congr_left fun k _ => hall q hq k]

end Exchange

namespace Demo

instance decidableAllowed (s : Exchange) : (a : ExchangeOp) → Decidable (s.Allowed a)
  | .increment replica amount => inferInstanceAs (Decidable
      (replica ∈ s.replicas.map Prod.fst ∧ s.added replica + amount.toNat < 2 ^ 64))
  | .send _ => .isTrue trivial
  | .receive _ state => inferInstanceAs (Decidable (state ∈ s.sent))
  | .gossip => .isTrue trivial

/-- Both replicas count, and `a` hears of `b`, but not the other way. -/
def oneWay : List ExchangeOp :=
  [.increment "a" 2, .increment "b" 3, .send "b", .receive "a" (GCounter.new.increment "b" 3)]

theorem oneWay_reachable : ∃ s : Exchange,
    Reachable Exchange.step Exchange.Allowed (.start ["a", "b"]) s ∧
      s.replicas = [("a", (GCounter.new.increment "a" 2).increment "b" 3),
        ("b", GCounter.new.increment "b" 3)] ∧ s.added "a" = 2 ∧ s.added "b" = 3 :=
  Reachable.of_exec oneWay (by decide +kernel)

theorem recordConvergence_exact_fresh :
    verifyPresent ((⟨[], false, false⟩ : MemoryStore).shipAll
      (recordConvergence "doc-2" [("a", "5"), ("b", "3")]).2) "doc-2" "replica_diverged" 1 =
        .present :=
  ((recordConvergence_exact ⟨[], false, false⟩ rfl _).2.2.2 1).mpr (by decide)

theorem gossip_exact_oneWay : ∃ s : Exchange,
    s.replicas = [("a", (GCounter.new.increment "a" 2).increment "b" 3),
      ("b", GCounter.new.increment "b" 3)] ∧
      ∀ r ∈ gossip s.replicas, r.2.value.toNat = 5 := by
  obtain ⟨s, hs, hreplicas, ha, hb⟩ := oneWay_reachable
  refine ⟨s, hreplicas, fun r hr => ?_⟩
  rw [(Exchange.gossip_exact (by decide) hs "doc-1").2.1 r hr]
  show (s.added "a" + (s.added "b" + 0)) % 2 ^ 64 = 5
  rw [ha, hb]
  rfl

theorem recordStates_complete_oneWay : ∃ s : Exchange,
    s.replicas = [("a", (GCounter.new.increment "a" 2).increment "b" 3),
      ("b", GCounter.new.increment "b" 3)] ∧ (recordStates "doc-2" s.replicas).1 = false := by
  obtain ⟨s, hs, hreplicas, ha, hb⟩ := oneWay_reachable
  have hp : ("a", (GCounter.new.increment "a" 2).increment "b" 3) ∈ s.replicas := by
    rw [hreplicas]
    exact List.mem_cons_self
  have hexact := Exchange.exact_of_reachable hs
  have htotal : s.total ["a", "b"] < 2 ^ 64 := by
    show s.added "a" + (s.added "b" + 0) < 2 ^ 64
    rw [ha, hb]
    decide
  have hcomplete (k : String) :
      ((GCounter.new.increment "a" 2).increment "b" 3).count k = s.added k := by
    refine Nat.le_antisymm (hexact.held _ hp k) ?_
    rcases Nat.eq_zero_or_pos (s.added k) with hzero | hpos
    · rw [hzero]
      exact Nat.zero_le _
    · rcases List.mem_cons.mp (hexact.others k hpos) with rfl | hk
      · rw [ha]
        decide
      · rw [List.mem_singleton.mp hk, hb]
        decide
  refine ⟨s, hreplicas, Bool.eq_false_iff.mpr fun htrue => ?_⟩
  have hall := (Exchange.recordStates_complete (by decide) hs htotal hp hcomplete "doc-2").mp htrue
  have hmiss : (GCounter.new.increment "b" 3).count "a" = s.added "a" :=
    hall ("b", GCounter.new.increment "b" 3) (by rw [hreplicas]; simp) "a"
  rw [ha] at hmiss
  exact absurd hmiss (by decide)

end Demo

end P2P333.Substrate
