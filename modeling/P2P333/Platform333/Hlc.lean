import P2P333.Lib.Checked
import P2P333.Lib.Transition

/-!
# Hybrid logical clocks

`333-platform/src/hlc.rs`. A clock follows the physical time as long as that is ahead of all
timestamps it has seen, and counts otherwise. The readings of the physical clock are arguments. The
counter is saturating, so it counts fewer than `2 ^ 32` steps.

Any number of nodes tick and receive timestamps that others have produced. An event happened before
another if a chain of steps leads from it to the other, each on one node or from a timestamp to
where it is received.

Results:
1. `tick_spec`, `recv_spec`: what one step does with a clock.
2. `respects_causality`: timestamps in every run.
-/

namespace P2P333.Platform333

open Lib Function

structure Hlc where
  wallMs : UInt64
  counter : UInt32
  nodeId : UInt32
deriving DecidableEq

namespace Hlc

def zero (nodeId : UInt32) : Hlc := ⟨0, 0, nodeId⟩

/-- A clock that starts at the local time `now`. -/
def new (now : UInt64) (nodeId : UInt32) : Hlc := ⟨now, 0, nodeId⟩

/-- `counter.saturating_add(1)`. -/
def nextCounter (c : UInt32) : UInt32 := ⟨saturatingAdd c.toBitVec 1⟩

/-- A local event at `now`. -/
def tick (now : UInt64) (h : Hlc) : Hlc :=
  if now > h.wallMs then { h with wallMs := now, counter := 0 }
  else { h with counter := nextCounter h.counter }

/-- A timestamp arrives at `now`. -/
def recv (now : UInt64) (h remote : Hlc) : Hlc :=
  let maxWall := max (max now h.wallMs) remote.wallMs
  if maxWall = now ∧ maxWall > h.wallMs ∧ maxWall > remote.wallMs then
    { h with wallMs := maxWall, counter := 0 }
  else if h.wallMs = remote.wallMs then
    { h with wallMs := maxWall, counter := nextCounter (max h.counter remote.counter) }
  else if h.wallMs > remote.wallMs then
    { h with wallMs := maxWall, counter := nextCounter h.counter }
  else { h with wallMs := maxWall, counter := nextCounter remote.counter }

def cmpKey (h : Hlc) : ℕ ×ₗ (ℕ ×ₗ ℕ) :=
  toLex (h.wallMs.toNat, toLex (h.counter.toNat, h.nodeId.toNat))

theorem cmpKey_injective : Injective cmpKey := by
  rintro ⟨w, c, n⟩ ⟨w', c', n'⟩ h
  have h : (w.toNat, c.toNat, n.toNat) = (w'.toNat, c'.toNat, n'.toNat) := h
  rw [Prod.mk.injEq, Prod.mk.injEq] at h
  rw [UInt64.toNat_inj.mp h.1, UInt32.toNat_inj.mp h.2.1, UInt32.toNat_inj.mp h.2.2]

/-- Timestamps are compared by time, then by counter, then by node. -/
instance : LinearOrder Hlc := .lift' cmpKey cmpKey_injective

/-! ## One step -/

/-- Later by time or counter, whatever the nodes are. -/
def Later (h h' : Hlc) : Prop :=
  h.wallMs.toNat < h'.wallMs.toNat ∨
    (h.wallMs.toNat = h'.wallMs.toNat ∧ h.counter.toNat < h'.counter.toNat)

theorem Later.lt {h h' : Hlc} (hlater : Later h h') : h < h' := by
  show cmpKey h < cmpKey h'
  refine Prod.Lex.toLex_lt_toLex.mpr (hlater.imp_right fun hcounter => ⟨hcounter.1, ?_⟩)
  exact Prod.Lex.toLex_lt_toLex.mpr (.inl hcounter.2)

theorem toNat_nextCounter {c : UInt32} (h : c.toNat + 1 < 2 ^ 32) :
    (nextCounter c).toNat = c.toNat + 1 :=
  (toNat_saturatingAdd c.toBitVec 1).trans (Nat.min_eq_right (Nat.le_sub_one_of_lt h))

theorem toNat_max32 (a b : UInt32) : (max a b).toNat = max a.toNat b.toNat := by
  show (if a ≤ b then b else a).toNat = _
  rw [Nat.max_def, apply_ite UInt32.toNat]
  simp only [UInt32.le_iff_toNat_le]

variable {h remote : Hlc} {n : Nat}

theorem tick_spec (now : UInt64) (hn : n + 1 < 2 ^ 32) (hh : h.counter.toNat ≤ n) :
    Later h (h.tick now) ∧ (h.tick now).nodeId = h.nodeId ∧ (h.tick now).counter.toNat ≤ n + 1 ∧
      ((h.tick now).wallMs = now ∨ (h.tick now).wallMs = h.wallMs) := by
  unfold tick
  by_cases hnow : now > h.wallMs
  · rw [if_pos hnow]
    exact ⟨.inl (UInt64.lt_iff_toNat_lt.mp hnow), rfl, Nat.zero_le _, .inl rfl⟩
  · rw [if_neg hnow]
    have hsucc : (nextCounter h.counter).toNat = h.counter.toNat + 1 :=
      toNat_nextCounter (by omega)
    exact ⟨.inr ⟨rfl, (Nat.lt_succ_self _).trans_eq hsucc.symm⟩, rfl,
      hsucc.trans_le (Nat.succ_le_succ hh), .inr rfl⟩

/-- The four cases differ in which of the three times is the latest. -/
theorem recv_spec (now : UInt64) (hn : n + 1 < 2 ^ 32) (hh : h.counter.toNat ≤ n)
    (hremote : remote.counter.toNat ≤ n) :
    Later h (h.recv now remote) ∧ Later remote (h.recv now remote) ∧
      (h.recv now remote).nodeId = h.nodeId ∧ (h.recv now remote).counter.toNat ≤ n + 1 ∧
      ((h.recv now remote).wallMs = now ∨ (h.recv now remote).wallMs = h.wallMs ∨
        (h.recv now remote).wallMs = remote.wallMs) := by
  have hwall : (max (max now h.wallMs) remote.wallMs).toNat =
      max (max now.toNat h.wallMs.toNat) remote.wallMs.toNat := by rw [toNat_max, toNat_max]
  have hcounter := toNat_max32 h.counter remote.counter
  have hsucc : ∀ c : UInt32, c.toNat ≤ n → (nextCounter c).toNat = c.toNat + 1 :=
    fun c hc => toNat_nextCounter (by omega)
  simp only [recv]
  generalize max (max now h.wallMs) remote.wallMs = wall at hwall ⊢
  have horigin : wall.toNat = now.toNat ∨ wall.toNat = h.wallMs.toNat ∨
      wall.toNat = remote.wallMs.toNat := by omega
  simp only [← UInt64.toNat_inj, gt_iff_lt, UInt64.lt_iff_toNat_lt, Later]
  split_ifs with hnow hsame hahead
  · exact ⟨.inl hnow.2.1, .inl hnow.2.2, rfl, Nat.zero_le _, horigin⟩
  · have hmax := hsucc (max h.counter remote.counter) (by omega)
    dsimp only
    exact ⟨.inr (by omega), .inr (by omega), rfl, by omega, horigin⟩
  · have hown := hsucc h.counter hh
    dsimp only
    exact ⟨.inr (by omega), .inl (by omega), rfl, by omega, horigin⟩
  · have hother := hsucc remote.counter hremote
    dsimp only
    exact ⟨.inl (by omega), .inr (by omega), rfl, by omega, horigin⟩

end Hlc

/-! ## Nodes -/

/-- A step of a node: its timestamp, the reading of the physical clock, and which event's timestamp
was received, if any. -/
structure ClockEvent where
  node : UInt32
  stamp : Hlc
  now : UInt64
  source : Option Nat

/-- The clocks of the nodes, and the events so far, the first one first. -/
structure Clocks where
  clock : UInt32 → Hlc
  events : List ClockEvent

/-- A node stamps an event, or hears a stamp. -/
inductive ClockAction where
  | tick (v : UInt32) (now : UInt64)
  | recv (v : UInt32) (i : Nat) (now : UInt64)

namespace Clocks

/-- A clock starts at zero or at the local time. -/
def startClock (readings : UInt32 → Option UInt64) (v : UInt32) : Hlc :=
  match readings v with
  | none => Hlc.zero v
  | some now => Hlc.new now v

def start (readings : UInt32 → Option UInt64) : Clocks := ⟨startClock readings, []⟩

def log (w : Clocks) (v : UInt32) (stamp : Hlc) (now : UInt64) (source : Option Nat) : Clocks :=
  ⟨update w.clock v stamp, w.events ++ [⟨v, stamp, now, source⟩]⟩

def step (w : Clocks) : ClockAction → Option Clocks
  | .tick v now => some (w.log v ((w.clock v).tick now) now none)
  | .recv v i now => w.events[i]?.map fun e => w.log v ((w.clock v).recv now e.stamp) now (some i)

/-- Fewer than `2 ^ 32` steps. -/
def Allowed (w : Clocks) (_ : ClockAction) : Prop := w.events.length + 1 < 2 ^ 32

abbrev Reachable (readings : UInt32 → Option UInt64) : Clocks → Prop :=
  Lib.Reachable step Allowed (start readings)

/-! ## What happened before -/

/-- Two events of one node, or a timestamp and its arrival. -/
def Direct (events : List ClockEvent) (i j : Nat) : Prop :=
  i < j ∧ ∃ a b, events[i]? = some a ∧ events[j]? = some b ∧ (a.node = b.node ∨ b.source = some i)

def HappensBefore (events : List ClockEvent) : Nat → Nat → Prop := Relation.TransGen (Direct events)

/-- The time is a reading or a starting value, of the event itself or of one that happened before.
-/
def Origin (readings : UInt32 → Option UInt64) (events : List ClockEvent) (i : Nat)
    (wall : UInt64) :
    Prop :=
  ∃ j b, (j = i ∨ HappensBefore events j i) ∧ events[j]? = some b ∧
    (wall = b.now ∨ wall = (startClock readings b.node).wallMs)

section Events

variable {events : List ClockEvent} {e : ClockEvent} {i j : Nat} {readings : UInt32 → Option UInt64}
  {wall : UInt64}

theorem Direct.append (h : Direct events i j) : Direct (events ++ [e]) i j := by
  obtain ⟨hlt, a, b, ha, hb, hedge⟩ := h
  have hkeep : ∀ {k x}, events[k]? = some x → (events ++ [e])[k]? = some x := fun hk => by
    rw [List.getElem?_append_left (List.getElem?_eq_some_iff.mp hk).1, hk]
  exact ⟨hlt, a, b, hkeep ha, hkeep hb, hedge⟩

theorem HappensBefore.append (h : HappensBefore events i j) : HappensBefore (events ++ [e]) i j :=
  Relation.TransGen.mono (fun _ _ hedge => Direct.append hedge) _ _ h

theorem Origin.append (h : Origin readings events i wall) : Origin readings
    (events ++ [e]) i wall := by
  obtain ⟨j, b, hpast, hb, hwall⟩ := h
  refine ⟨j, b, hpast.imp_right HappensBefore.append, ?_, hwall⟩
  rw [List.getElem?_append_left (List.getElem?_eq_some_iff.mp hb).1, hb]

/-- Along an edge the origin stays in the past. -/
theorem Origin.edge (h : Origin readings events i wall) (hedge : Direct events i j) :
    Origin readings events j wall := by
  obtain ⟨k, b, hpast, hb, hwall⟩ := h
  refine ⟨k, b, .inr ?_, hb, hwall⟩
  rcases hpast with rfl | hpast
  · exact .single hedge
  · exact .tail hpast hedge

theorem getElem?_concat_cases {x : ClockEvent} (h : (events ++ [e])[i]? = some x) :
    events[i]? = some x ∨ (i = events.length ∧ x = e) := by
  rcases Nat.lt_or_ge i events.length with hlt | hge
  · rw [List.getElem?_append_left hlt] at h
    exact .inl h
  · rw [List.getElem?_append_right hge] at h
    obtain ⟨hlt, hx⟩ := List.getElem?_eq_some_iff.mp h
    rw [List.length_singleton] at hlt
    have hi : i = events.length := by omega
    subst hi
    refine .inr ⟨rfl, ?_⟩
    simpa using hx.symm

end Events

/-! ## The invariant -/

structure Inv (readings : UInt32 → Option UInt64) (w : Clocks) : Prop where
  nodeId : ∀ v, (w.clock v).nodeId = v
  counter : ∀ v, (w.clock v).counter.toNat ≤ w.events.length
  stampNode : ∀ e ∈ w.events, e.stamp.nodeId = e.node
  stampCounter : ∀ e ∈ w.events, e.stamp.counter.toNat ≤ w.events.length
  upTo : ∀ e ∈ w.events, e.stamp ≤ w.clock e.node
  /-- A clock shows the timestamp of an event of its node, or has not moved. -/
  latest : ∀ v, w.clock v = startClock readings v ∨
    ∃ (i : Nat) (e : ClockEvent), w.events[i]? = some e ∧ e.node = v ∧ e.stamp = w.clock v
  ordered : ∀ (i j : Nat) (a b : ClockEvent), w.events[i]? = some a → w.events[j]? = some b →
    Direct w.events i j → a.stamp < b.stamp
  origin : ∀ (i : Nat) (e : ClockEvent), w.events[i]? = some e →
    Origin readings w.events i e.stamp.wallMs

variable {readings : UInt32 → Option UInt64} {w : Clocks}

theorem startClock_spec (v : UInt32) :
    (startClock readings v).nodeId = v ∧ (startClock readings v).counter = 0 := by
  unfold startClock
  cases readings v <;> exact ⟨rfl, rfl⟩

theorem inv_start : Inv readings (start readings) where
  nodeId v := (startClock_spec v).1
  counter v := by
    rw [start, (startClock_spec v).2]
    exact Nat.zero_le _
  stampNode := nofun
  stampCounter := nofun
  upTo := nofun
  latest _ := .inl rfl
  ordered _ _ _ _ ha := by cases ha
  origin _ _ he := by cases he

/-- The event that a node has its clock from. -/
theorem Inv.origin_clock (h : Inv readings w) {v : UInt32} {stamp : Hlc} {now : UInt64}
    {source : Option Nat} :
    Origin readings (w.log v stamp now source).events w.events.length (w.clock v).wallMs := by
  have hnew : (w.log v stamp now source).events[w.events.length]? = some ⟨v, stamp, now, source⟩ :=
    List.getElem?_concat_length
  rcases h.latest v with hclock | ⟨i, e, he, rfl, hclock⟩
  · exact ⟨_, _, .inl rfl, hnew, .inr (by rw [hclock])⟩
  · have hlt := (List.getElem?_eq_some_iff.mp he).1
    rw [← hclock]
    refine (h.origin i e he).append.edge ⟨hlt, e, _, ?_, hnew, .inl rfl⟩
    rw [List.getElem?_append_left hlt, he]

/-- One more event, later than the clock of its node and than what it received. -/
theorem Inv.log (h : Inv readings w) {v : UInt32} {stamp : Hlc} {now : UInt64} {source : Option Nat}
    (hnode : stamp.nodeId = v) (hcounter : stamp.counter.toNat ≤ w.events.length + 1)
    (hlater : w.clock v < stamp)
    (hsource : ∀ i e, source = some i → w.events[i]? = some e → e.stamp < stamp)
    (horigin : Origin readings (w.log v stamp now source).events w.events.length stamp.wallMs) :
    Inv readings (w.log v stamp now source) := by
  have hnew : (w.log v stamp now source).events[w.events.length]? = some ⟨v, stamp, now, source⟩ :=
    List.getElem?_concat_length
  have hkeep : ∀ {i e}, w.events[i]? = some e → (w.log v stamp now source).events[i]? = some e :=
    fun hi => by rw [Clocks.log, List.getElem?_append_left (List.getElem?_eq_some_iff.mp hi).1, hi]
  have hlen : (w.log v stamp now source).events.length = w.events.length + 1 := List.length_append
  have hmem : ∀ e ∈ (w.log v stamp now source).events, e ∈ w.events ∨ e = ⟨v, stamp, now, source⟩ :=
    fun e he => (List.mem_append.mp he).imp_right List.mem_singleton.mp
  refine ⟨?_, ?_, fun e he => ?_, fun e he => ?_, fun e he => ?_, ?_, fun i j a b ha hb hedge => ?_,
    fun i e he => ?_⟩
  · exact (forall_update_iff w.clock fun u h => h.nodeId = u).mpr
      ⟨hnode, fun u _ => h.nodeId u⟩
  · rw [hlen]
    exact (forall_update_iff w.clock fun _ h => h.counter.toNat ≤ w.events.length + 1).mpr
      ⟨hcounter, fun u _ => (h.counter u).trans (Nat.le_succ _)⟩
  · rcases hmem e he with he | rfl
    · exact h.stampNode e he
    · exact hnode
  · rw [hlen]
    rcases hmem e he with he | rfl
    · exact (h.stampCounter e he).trans (Nat.le_succ _)
    · exact hcounter
  · rcases hmem e he with he | rfl
    · have hle : ∀ u, w.clock u ≤ (w.log v stamp now source).clock u :=
        (forall_update_iff w.clock fun u h => w.clock u ≤ h).mpr
          ⟨hlater.le, fun u _ => le_rfl⟩
      exact (h.upTo e he).trans (hle _)
    · exact (update_self v stamp w.clock).ge
  · refine (forall_update_iff w.clock fun u h => h = startClock readings u ∨
      ∃ i e, (w.log v stamp now source).events[i]? = some e ∧ e.node = u ∧ e.stamp = h).mpr
        ⟨.inr ⟨_, _, hnew, rfl, rfl⟩, fun u _ => (h.latest u).imp_right ?_⟩
    rintro ⟨i, e, he, hu, hclock⟩
    exact ⟨i, e, hkeep he, hu, hclock⟩
  · obtain ⟨hlt, a', b', ha', hb', hedge⟩ := hedge
    cases ha.symm.trans ha'
    cases hb.symm.trans hb'
    rcases getElem?_concat_cases hb with hb | ⟨rfl, rfl⟩
    · have hi : i < w.events.length := hlt.trans (List.getElem?_eq_some_iff.mp hb).1
      have ha : w.events[i]? = some a := by
        rw [← ha, Clocks.log, List.getElem?_append_left hi]
      exact h.ordered i j a b ha hb ⟨hlt, a, b, ha, hb, hedge⟩
    · have ha : w.events[i]? = some a := by
        rw [← ha, Clocks.log, List.getElem?_append_left hlt]
      -- An edge to the new event comes from its node or from what it received.
      rcases hedge with hsame | hfrom
      · have hle := h.upTo a (List.mem_of_getElem? ha)
        rw [hsame] at hle
        exact hle.trans_lt hlater
      · exact hsource i a hfrom ha
  · rcases getElem?_concat_cases he with he | ⟨rfl, rfl⟩
    · exact (h.origin i e he).append
    · exact horigin

theorem Inv.step (h : Inv readings w) {a : ClockAction} {w' : Clocks} (hok : Allowed w a)
    (hstep : step w a = some w') : Inv readings w' := by
  cases a with
  | tick v now =>
    cases hstep
    obtain ⟨hlater, hnode, hcounter, hwall⟩ := Hlc.tick_spec now hok (h.counter v)
    refine h.log (hnode.trans (h.nodeId v)) hcounter hlater.lt nofun ?_
    rcases hwall with hwall | hwall
    · exact ⟨_, _, .inl rfl, List.getElem?_concat_length, .inl hwall⟩
    · rw [hwall]
      exact h.origin_clock
  | recv v i now =>
    obtain ⟨e, he, rfl⟩ := Option.map_eq_some_iff.mp hstep
    have hi := (List.getElem?_eq_some_iff.mp he).1
    obtain ⟨hlater, hremote, hnode, hcounter, hwall⟩ := Hlc.recv_spec now hok (h.counter v)
      (h.stampCounter e (List.mem_of_getElem? he))
    refine h.log (hnode.trans (h.nodeId v)) hcounter hlater.lt (fun k x hk hx => ?_) ?_
    · cases hk
      cases he.symm.trans hx
      exact hremote.lt
    · rcases hwall with hwall | hwall | hwall
      · exact ⟨_, _, .inl rfl, List.getElem?_concat_length, .inl hwall⟩
      · rw [hwall]
        exact h.origin_clock
      · rw [hwall]
        refine (h.origin i e he).append.edge
          ⟨hi, e, _, ?_, List.getElem?_concat_length, .inr rfl⟩
        rw [List.getElem?_append_left hi, he]

theorem inv_reachable (h : Reachable readings w) : Inv readings w :=
  Lib.Reachable.invariant inv_start (fun _ _ _ _ hinv hok hstep => hinv.step hok hstep) h

/-! ## Causality -/

structure Causality (readings : UInt32 → Option UInt64) (events : List ClockEvent) : Prop where
  lt : ∀ (i j : Nat) (a b : ClockEvent), events[i]? = some a → events[j]? = some b →
    HappensBefore events i j → a.stamp < b.stamp
  unique : ∀ (i j : Nat) (a b : ClockEvent), events[i]? = some a → events[j]? = some b →
    a.stamp = b.stamp → i = j
  origin : ∀ (i : Nat) (e : ClockEvent), events[i]? = some e →
    Origin readings events i e.stamp.wallMs

/-- Whatever the physical clocks show, timestamps grow along causality and are never given twice. -/
theorem respects_causality (readings : UInt32 → Option UInt64) (w : Clocks)
    (h : Reachable readings w) : Causality readings w.events := by
  have hinv := inv_reachable h
  refine ⟨fun i j a b ha hb hpast => ?_, fun i j a b ha hb heq => ?_, hinv.origin⟩
  · induction hpast generalizing b with
    | single hedge => exact hinv.ordered i _ a b ha hb hedge
    | tail _ hedge ih =>
      obtain ⟨-, c, -, hc, -⟩ := id hedge
      exact (ih c hc).trans (hinv.ordered _ _ c b hc hb hedge)
  · -- Two events with one timestamp are on one node, and one of them is earlier.
    have hnode : a.node = b.node := by
      rw [← hinv.stampNode a (List.mem_of_getElem? ha),
        ← hinv.stampNode b (List.mem_of_getElem? hb), heq]
    rcases Nat.lt_trichotomy i j with hlt | heq' | hlt
    · exact absurd heq (hinv.ordered i j a b ha hb ⟨hlt, a, b, ha, hb, .inl hnode⟩).ne
    · exact heq'
    · exact absurd heq.symm (hinv.ordered j i b a hb ha ⟨hlt, b, a, hb, ha, .inl hnode.symm⟩).ne

end Clocks

namespace ClockDemo

open Clocks

/-- The first node is fast, and the second one starts at zero. -/
def readings (v : UInt32) : Option UInt64 := if v = 1 then some 100 else none

/-- A timestamp goes there and back while both physical clocks are behind it. -/
def relayed : Clocks :=
  let first : Hlc := ⟨100, 1, 1⟩
  let second : Hlc := ⟨100, 2, 2⟩
  (((start readings).log 1 first 50 none).log 2 second 30 (some 0)).log 1 ⟨100, 3, 1⟩ 20 (some 1)

theorem relayed_lt : ∃ a b, relayed.events[0]? = some a ∧ relayed.events[2]? = some b ∧
    a.stamp < b.stamp := by
  have hreach : Reachable readings relayed := by
    have hfirst : Reachable readings ((start readings).log 1 ⟨100, 1, 1⟩ 50 none) :=
      .tail (a := .tick 1 50) .refl (show 0 + 1 < 2 ^ 32 by decide) rfl
    have hsecond : Reachable readings
        (((start readings).log 1 ⟨100, 1, 1⟩ 50 none).log 2 ⟨100, 2, 2⟩ 30 (some 0)) :=
      .tail (a := .recv 2 0 30) hfirst (show 1 + 1 < 2 ^ 32 by decide) rfl
    exact .tail (a := .recv 1 1 20) hsecond (show 2 + 1 < 2 ^ 32 by decide) rfl
  have hpast : HappensBefore relayed.events 0 2 :=
    .tail (.single ⟨by decide, _, _, rfl, rfl, .inr rfl⟩) ⟨by decide, _, _, rfl, rfl, .inr rfl⟩
  exact ⟨_, _, rfl, rfl, (respects_causality readings relayed hreach).lt 0 2 _ _ rfl rfl hpast⟩

end ClockDemo

end P2P333.Platform333
