import P2P333.Substrate.Billing

/-!
# The verdict

`MemoryStore`, `Verdict` and `verify_present` of `substrate/crates/ltdd/src/lib.rs`. A verdict is
read back from the store: a function under test returns the batches that it ships, and what it
returns beside them does not count.

Results:
1. `verifyPresent_shipAll`: what a store answers about a cycle that it had not seen before.
2. `verifyPresent_one`, `verifyPresent_zero`: when an event that is asked for once is there, and
   when it is missing.
-/

namespace P2P333.Substrate

open Lib

/-- A dropping store takes what is shipped and discards it; an unreachable one cannot be asked. -/
structure MemoryStore where
  events : List Event
  drop : Bool
  unreachable : Bool

namespace MemoryStore

def ship (s : MemoryStore) (events : List Event) : MemoryStore :=
  if s.drop then s else { s with events := s.events ++ events }

def query (s : MemoryStore) (cid : String) : List Event := s.events.filter fun e => e.cid == cid

def reachable (s : MemoryStore) : Bool := !s.unreachable

def shipAll (s : MemoryStore) (batches : List (List Event)) : MemoryStore := batches.foldl ship s

end MemoryStore

/-- Whether the store could be asked, and whether the record came. -/
inductive Verdict
  | present
  | absent
  | inconclusive
deriving DecidableEq

def verifyPresent (store : MemoryStore) (cid event : String) (minCount : Nat) : Verdict :=
  if store.reachable then
    if minCount ≤ ((store.query cid).filter fun e => e.event == event).length then .present
    else .absent
  else .inconclusive

/-- The events of one name. -/
def countEvent (event : String) (es : List Event) : Nat := es.countP fun e => e.event == event

@[simp] theorem countEvent_nil (event : String) : countEvent event [] = 0 := rfl

@[simp] theorem countEvent_append (event : String) (es fs : List Event) :
    countEvent event (es ++ fs) = countEvent event es + countEvent event fs :=
  List.countP_append

@[simp] theorem countEvent_cons (event : String) (e : Event) (es : List Event) :
    countEvent event (e :: es) = countEvent event es + if e.event = event then 1 else 0 := by
  simp only [countEvent, List.countP_cons, beq_iff_eq]

namespace MemoryStore

variable {s : MemoryStore} {cid : String} {batches : List (List Event)}

theorem shipAll_eq (s : MemoryStore) (batches : List (List Event)) :
    s.shipAll batches = if s.drop then s else { s with events := s.events ++ batches.flatten } := by
  induction batches generalizing s with
  | nil => simp [shipAll]
  | cons batch rest ih =>
    show (s.ship batch).shipAll rest = _
    rw [ih, ship]
    cases hdrop : s.drop <;> simp [hdrop]

/-- A store that had not seen the cycle has what was shipped, unless it drops it. -/
theorem query_shipAll (hfresh : s.query cid = [])
    (hcid : ∀ e ∈ batches.flatten, e.cid = cid) :
    (s.shipAll batches).query cid = if s.drop then [] else batches.flatten := by
  rw [shipAll_eq]
  split
  · exact hfresh
  · have hall : batches.flatten.filter (fun e => e.cid == cid) = batches.flatten :=
      List.filter_eq_self.mpr fun e he => beq_iff_eq.mpr (hcid e he)
    show (s.events ++ batches.flatten).filter _ = _
    rw [List.filter_append, hall]
    show s.query cid ++ _ = _
    rw [hfresh, List.nil_append]

theorem reachable_shipAll (s : MemoryStore) (batches : List (List Event)) :
    (s.shipAll batches).reachable = s.reachable := by
  rw [shipAll_eq]
  split <;> rfl

/-- What a store answers about a cycle that it had not seen before. -/
theorem verifyPresent_shipAll (hfresh : s.query cid = [])
    (hcid : ∀ e ∈ batches.flatten, e.cid = cid) (event : String) (n : Nat) :
    verifyPresent (s.shipAll batches) cid event n =
      if s.unreachable then .inconclusive
      else if n ≤ (if s.drop then 0 else countEvent event batches.flatten) then .present
      else .absent := by
  unfold verifyPresent
  rw [reachable_shipAll, query_shipAll hfresh hcid, reachable, ← List.countP_eq_length_filter]
  cases s.unreachable <;> cases s.drop <;> rfl

/-- The event came, to a store that can be asked and keeps what it is given. -/
theorem verifyPresent_one (hfresh : s.query cid = []) (hcid : ∀ e ∈ batches.flatten, e.cid = cid)
    (event : String) : verifyPresent (s.shipAll batches) cid event 1 = .present ↔
      s.unreachable = false ∧ s.drop = false ∧ 0 < countEvent event batches.flatten := by
  rw [verifyPresent_shipAll hfresh hcid]
  cases s.unreachable <;> cases s.drop <;> simp [Nat.one_le_iff_ne_zero, Nat.pos_iff_ne_zero]

/-- The event is missing, and the store could be asked. -/
theorem verifyPresent_zero (hfresh : s.query cid = []) (hcid : ∀ e ∈ batches.flatten, e.cid = cid)
    (event : String) : verifyPresent (s.shipAll batches) cid event 1 = .absent ↔
      s.unreachable = false ∧ (s.drop = true ∨ countEvent event batches.flatten = 0) := by
  rw [verifyPresent_shipAll hfresh hcid]
  cases s.unreachable <;> cases s.drop <;> simp [Nat.one_le_iff_ne_zero]

end MemoryStore

end P2P333.Substrate
