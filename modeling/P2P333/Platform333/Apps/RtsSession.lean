import P2P333.Platform333.Apps.TacticalState

/-!
# Sessions

`333-platform/src/apps/rts_session.rs`: the commands of a frame, the rules of the game, the stub
that keeps snapshots for rollback, and `RtsSession::advance_frame`. A panic is `none`. Where
arithmetic overflows, a build with overflow checks panics and one without wraps (`checks`).

The hash of a frame covers `TacticalHashView`: the state without the clock, the last hash and the
  winner.

Results:
1. `nextTactical_withHlc`: the clock of a node has no part in the game.
2. `advanceFrame_cases`: all that a frame does.
3. `TacticalState.Small.of_nextTactical`: sizes stay small.
-/

namespace P2P333.Platform333.Apps

open Std Lib Platform333.Determinism

/-! ## Commands -/

/-- `10000 * 65536`. -/
def mapMax : Int32 := 655360000

def unitRadius : Int32 := 100

namespace Cmd

def moveDxDy : UInt8 := 0x01

def attackTarget : UInt8 := 0x02

def selectUnit : UInt8 := 0x03

def deselectUnit : UInt8 := 0x04

end Cmd

/-- The input of one player for one frame. -/
structure RtsInput where
  payload : Bytes
deriving DecidableEq

/-- The part of a state that is hashed. -/
structure TacticalHashView where
  state : TacticalState

instance : DeterministicSerialize TacticalHashView := ⟨fun v =>
  detSerialize v.state.turnNumber ++ (detSerialize v.state.units ++
    (detSerialize v.state.playerMinerals ++ (detSerialize v.state.visibility ++
      serializeSet v.state.selectedUnits)))⟩

/-! ## Machine arithmetic -/

section Arithmetic

variable (checks : Bool)

/-- `a - b`. -/
def subI32 (a b : Int32) : Option Int32 :=
  let d := a.toInt - b.toInt
  if checks ∧ (d < Int32.minValue.toInt ∨ Int32.maxValue.toInt < d) then none else some (a - b)

/-- `a.abs()`. -/
def absI32 (a : Int32) : Option Int32 :=
  if checks ∧ a = Int32.minValue then none else some a.abs

/-- `a += 1`. -/
def succU32 (a : UInt32) : Option UInt32 :=
  if checks ∧ a.toNat + 1 = 2 ^ 32 then none else some (a + 1)

/-- `a += 1`. -/
def succU64 (a : UInt64) : Option UInt64 :=
  if checks ∧ a.toNat + 1 = 2 ^ 64 then none else some (a + 1)

def saturatingAddI32 (a b : Int32) : Int32 :=
  let s := a.toInt + b.toInt
  if s < Int32.minValue.toInt then Int32.minValue
  else if Int32.maxValue.toInt < s then Int32.maxValue
  else Int32.ofInt s

def clampI32 (a lo hi : Int32) : Int32 := if a < lo then lo else if hi < a then hi else a

def saturatingSubU32 (a b : UInt32) : UInt32 := if b ≤ a then a - b else 0

end Arithmetic

/-! ## The rules -/

/-- The first element that meets `p` is changed. -/
def updateFirst {α : Type} (p : α → Bool) (f : α → α) : List α → List α
  | [] => []
  | a :: l => if p a then f a :: l else a :: updateFirst p f l

section Rules

variable (checks : Bool)

/-- The Chebyshev distance of the unit to the place. -/
def distance (x y : Fixed32) (cx cy : Int32) : Option Int32 := do
  let dx ← absI32 checks (← subI32 checks cx x.raw)
  let dy ← absI32 checks (← subI32 checks cy y.raw)
  some (if dx ≥ dy then dx else dy)

/-- Some other unit is nearer to the place than the radius. -/
def blocked (unitId : UInt32) (cx cy : Int32) : List UnitTactical → Option Bool
  | [] => some false
  | other :: units =>
    if other.unitId = unitId then blocked unitId cx cy units
    else do
      if (← distance checks other.x other.y cx cy) < unitRadius then some true
      else blocked unitId cx cy units

def moveUnit (unitId : UInt32) (dx dy : Int32) (units : List UnitTactical) :
    Option (List UnitTactical) :=
  match units.find? (·.unitId = unitId) with
  | none => some units
  | some u => do
    let cx := clampI32 (saturatingAddI32 u.x.raw dx) 0 mapMax
    let cy := clampI32 (saturatingAddI32 u.y.raw dy) 0 mapMax
    if ← blocked checks unitId cx cy units then some units
    else some (updateFirst (·.unitId = unitId) (fun u => { u with x := ⟨cx⟩, y := ⟨cy⟩ }) units)

/-- What an attack does that is ready and in range. -/
def strike (attacker target : UnitTactical) (units : List UnitTactical) : List UnitTactical :=
  updateFirst (·.unitId = attacker.unitId)
    (fun u => { u with attackCooldownRemaining := attacker.attackCooldownMax })
    (updateFirst (·.unitId = target.unitId)
      (fun u => { u with hp := saturatingSubU32 u.hp attacker.attackDamage }) units)

/-- The attack itself, if both units are there. -/
def attack (attackerId targetId : UInt32) (units : List UnitTactical) :
    Option (List UnitTactical) :=
  match units.find? (·.unitId = attackerId), units.find? (·.unitId = targetId) with
  | some attacker, some target =>
    if attacker.attackCooldownRemaining = 0 then do
      let dist ← distance checks target.x target.y attacker.x.raw attacker.y.raw
      some (if dist ≤ attacker.attackRange.raw then strike attacker target units else units)
    else some units
  | _, _ => some units

/-- The dead are removed, whether or not there was an attack. -/
def attackTarget (attackerId targetId : UInt32) (units : List UnitTactical) :
    Option (List UnitTactical) := do
  let units ← attack checks attackerId targetId units
  some (units.filter (·.hp > 0))

/-- `u16::from_be_bytes(..) as u32`. -/
def unitIdOf (hi lo : UInt8) : UInt32 := UInt32.ofNat (ofBeBytes [hi, lo])

/-- A command that is unknown or too short is skipped. -/
def applyInput (t : TacticalState) (input : RtsInput) : Option TacticalState :=
  match input.payload with
  | [] => some t
  | cmd :: body =>
    if cmd = Cmd.moveDxDy then
      match body with
      | i1 :: i0 :: x0 :: x1 :: x2 :: x3 :: y0 :: y1 :: y2 :: y3 :: _ => do
        let units ← moveUnit checks (unitIdOf i1 i0) (i32OfLe [x0, x1, x2, x3])
          (i32OfLe [y0, y1, y2, y3]) t.units
        some { t with units := units }
      | _ => some t
    else if cmd = Cmd.attackTarget then
      match body with
      | a1 :: a0 :: t1 :: t0 :: _ => do
        let units ← attackTarget checks (unitIdOf a1 a0) (unitIdOf t1 t0) t.units
        some { t with units := units }
      | _ => some t
    else if cmd = Cmd.selectUnit then
      match body with
      | i1 :: i0 :: _ =>
        if t.units.any (·.unitId = unitIdOf i1 i0) then
          some { t with selectedUnits := t.selectedUnits.insert (unitIdOf i1 i0) () }
        else some t
      | _ => some t
    else if cmd = Cmd.deselectUnit then
      match body with
      | i1 :: i0 :: _ => some { t with selectedUnits := t.selectedUnits.erase (unitIdOf i1 i0) }
      | _ => some t
    else some t

def applyInputsToTactical (inputs : List RtsInput) (t : TacticalState) : Option TacticalState :=
  inputs.foldlM (applyInput checks) t

end Rules

/-- The owners of the units. -/
def ownersOf (units : List UnitTactical) : OrdSet UInt32 :=
  units.foldl (fun owners u => owners.insert u.owner ()) ∅

/-- Zero stands for a draw. -/
def checkVictory (t : TacticalState) (initialOwnerCount : Nat) : Option UInt32 :=
  if initialOwnerCount ≤ 1 then none
  else if t.units.isEmpty then some 0
  else if (ownersOf t.units).size = 1 then (ownersOf t.units).minKey?
  else none

def tickCooldown (u : UnitTactical) : UnitTactical :=
  if u.attackCooldownRemaining > 0 then
    { u with attackCooldownRemaining := u.attackCooldownRemaining - 1 }
  else u

/-! ## The stub -/

structure GgrsSaveCell where
  data : Bytes
  checksum : Hash
  frame : UInt32

structure GgrsStub where
  currentFrame : UInt32
  saveSlots : OrdMap UInt32 GgrsSaveCell

namespace GgrsStub

def new : GgrsStub := ⟨0, ∅⟩

def maxSaveSlots : Nat := 8

/-- The oldest slot leaves when all are taken. -/
def makeRoom (slots : OrdMap UInt32 GgrsSaveCell) : OrdMap UInt32 GgrsSaveCell :=
  if slots.size ≥ maxSaveSlots then
    match slots.minKey? with
    | some oldest => slots.erase oldest
    | none => slots
  else slots

section Slots

variable [Blake3]

def saveState (g : GgrsStub) (data : Bytes) : GgrsStub :=
  let cell : GgrsSaveCell := ⟨data, Blake3.hash data, g.currentFrame⟩
  { g with saveSlots := (makeRoom g.saveSlots).insert g.currentFrame cell }

def loadTacticalState (g : GgrsStub) (frame : UInt32) : Option TacticalState := do
  let cell ← g.saveSlots[frame]?
  if Blake3.hash cell.data ≠ cell.checksum then none
  else match (detDeserialize : Decoder String TacticalState).run cell.data with
    | .ok (state, []) => some state
    | _ => none

end Slots

def advance (checks : Bool) (g : GgrsStub) : Option GgrsStub := do
  let frame ← succU32 checks g.currentFrame
  some { g with currentFrame := frame }

/-- A session without a stub has none to advance. -/
def advanceIfAny (checks : Bool) : Option GgrsStub → Option (Option GgrsStub)
  | some stub => (stub.advance checks).map some
  | none => some none

end GgrsStub

/-! ## Sessions -/

structure RtsSession where
  nodeId : UInt32
  tactical : TacticalState
  bridge : FrameEpochBridge
  desync : DesyncDetector
  ggrs : Option GgrsStub
  initialOwnerCount : Nat

/-- What a session is created with, next to the units; `now` is the clock. -/
structure Setup where
  now : UInt64
  nodeId : UInt32
  bridgeCapacity : Nat
  desyncRetention : Nat
  withGgrs : Bool

/-- One call of `advance_frame`; `now` is the clock. -/
structure Call where
  now : UInt64
  inputs : List RtsInput

namespace RtsSession

def new (setup : Setup) (initialUnits : List UnitTactical) : RtsSession where
  nodeId := setup.nodeId
  tactical := ⟨0, Hlc.zero setup.nodeId, initialUnits, ∅, ∅, .replicate 32 0, ∅, none⟩
  bridge := FrameEpochBridge.new setup.now setup.nodeId setup.bridgeCapacity
  desync := DesyncDetector.new setup.desyncRetention
  ggrs := if setup.withGgrs then some GgrsStub.new else none
  initialOwnerCount := (ownersOf initialUnits).size

section Frames

variable [Blake3] (checks : Bool)

/-- Steps 2 and 3: the inputs, the cooldowns, the winner, the turn and the hash. -/
def nextTactical (initialOwnerCount : Nat) (inputs : List RtsInput) (t : TacticalState) :
    Option TacticalState := do
  let frameN := t.turnNumber
  let t ← applyInputsToTactical checks inputs t
  let t := { t with units := t.units.map tickCooldown }
  let t := { t with winner := checkVictory t initialOwnerCount }
  let turn ← succU64 checks t.turnNumber
  let t := { t with turnNumber := turn }
  some { t with stateHash := frameStateHash frameN (TacticalHashView.mk t) }

def tacticalDigest (t : TacticalState) : TacticalDigest :=
  ⟨t.stateHash, UInt32.ofNat t.units.length,
    (t.playerMinerals.toList.map fun e => e.2.toUInt64).sum⟩

/-- A session that has a winner is frozen. -/
def advanceFrame (s : RtsSession) (call : Call) : Option (Hash × RtsSession) :=
  if s.tactical.winner.isSome then some (s.tactical.stateHash, s)
  else do
    let frameN := s.tactical.turnNumber
    let ggrs := s.ggrs.map fun stub => stub.saveState (detSerialize s.tactical)
    let tactical ← nextTactical checks s.initialOwnerCount call.inputs s.tactical
    let bridge ← s.bridge.capture call.now frameN (tacticalDigest tactical) ⟨0, 0⟩ ⟨0, 0, 0⟩
    let desync := s.desync.recordLocal frameN tactical.stateHash
    let ggrs ← GgrsStub.advanceIfAny checks ggrs
    some (tactical.stateHash, { s with
      tactical := tactical, bridge := bridge, desync := desync, ggrs := ggrs })

/-- The hashes that the calls return, and the winner after each of them. -/
def run (s : RtsSession) : List Call → Option (List (Hash × Option UInt32) × RtsSession)
  | [] => some ([], s)
  | call :: calls => do
    let (hash, s') ← s.advanceFrame checks call
    let (rs, last) ← s'.run calls
    some ((hash, s'.tactical.winner) :: rs, last)

end Frames

end RtsSession

/-! ## The clock has no part in the game -/

def TacticalState.withHlc (t : TacticalState) (h : Hlc) : TacticalState := { t with hlc := h }

section Clock

variable {checks : Bool}

theorem applyInput_withHlc (t : TacticalState) (h : Hlc) (input : RtsInput) :
    applyInput checks (t.withHlc h) input = (applyInput checks t input).map (·.withHlc h) := by
  unfold applyInput
  cases input.payload with
  | nil => rfl
  | cons cmd body =>
    dsimp only
    split_ifs with hmove hattack hselect hdeselect
    · split
      · rw [TacticalState.withHlc]
        cases moveUnit checks _ _ _ t.units <;> rfl
      · rfl
    · split
      · rw [TacticalState.withHlc]
        cases attackTarget checks _ _ t.units <;> rfl
      · rfl
    · split
      · rw [apply_ite (Option.map _)]
        rfl
      · rfl
    · split <;> rfl
    · rfl

theorem applyInputs_withHlc (t : TacticalState) (h : Hlc) (inputs : List RtsInput) :
    applyInputsToTactical checks inputs (t.withHlc h) =
      (applyInputsToTactical checks inputs t).map (·.withHlc h) := by
  unfold applyInputsToTactical
  induction inputs generalizing t with
  | nil => rfl
  | cons input inputs ih =>
    rw [List.foldlM_cons, List.foldlM_cons, applyInput_withHlc]
    cases applyInput checks t input with
    | none => rfl
    | some t' => exact ih t'

theorem nextTactical_withHlc [Blake3] (t : TacticalState) (h : Hlc) (n : Nat)
    (inputs : List RtsInput) :
    RtsSession.nextTactical checks n inputs (t.withHlc h) =
      (RtsSession.nextTactical checks n inputs t).map (·.withHlc h) := by
  unfold RtsSession.nextTactical
  rw [applyInputs_withHlc]
  cases applyInputsToTactical checks inputs t with
  | none => rfl
  | some t' =>
    simp only [Option.map_some, Option.bind_eq_bind, Option.bind_some]
    change (succU64 checks t'.turnNumber).bind _ =
      Option.map _ ((succU64 checks t'.turnNumber).bind _)
    cases succU64 checks t'.turnNumber <;> rfl

end Clock

/-! ## Sizes -/

theorem length_updateFirst {α : Type} (p : α → Bool) (f : α → α) (l : List α) :
    (updateFirst p f l).length = l.length := by
  induction l with
  | nil => rfl
  | cons a l ih =>
    unfold updateFirst
    split
    · rfl
    · rw [List.length_cons, List.length_cons, ih]

/-- No more than `n` units, nothing to mine or see, and only units with short numbers selected. -/
structure TacticalState.Small (n : Nat) (t : TacticalState) : Prop where
  units : t.units.length ≤ n
  minerals : t.playerMinerals = ∅
  visibility : t.visibility = ∅
  selected : ∀ k ∈ t.selectedUnits, k.toNat < 2 ^ 16

theorem unitIdOf_lt (hi lo : UInt8) : (unitIdOf hi lo).toNat < 2 ^ 16 := by
  have hlt := ofBeBytes_lt [hi, lo]
  have hpow : 256 ^ [hi, lo].length = 2 ^ 16 := by
    rw [List.length_cons, List.length_singleton]
    norm_num
  rw [unitIdOf, UInt32.toNat_ofNat']
  exact (Nat.mod_le _ _).trans_lt (hlt.trans_eq hpow)

section Sizes

variable {checks : Bool} {n : Nat} {t t' : TacticalState}

theorem length_moveUnit {unitId : UInt32} {dx dy : Int32} {units units' : List UnitTactical}
    (h : moveUnit checks unitId dx dy units = some units') : units'.length = units.length := by
  unfold moveUnit at h
  split at h
  · cases h
    rfl
  · obtain ⟨b, -, h⟩ := Option.bind_eq_some_iff.mp h
    split at h
    · cases h
      rfl
    · cases h
      exact length_updateFirst ..

theorem length_attack {a b : UInt32} {units units' : List UnitTactical}
    (h : attack checks a b units = some units') : units'.length = units.length := by
  unfold attack at h
  split at h
  · split at h
    · obtain ⟨dist, -, h⟩ := Option.bind_eq_some_iff.mp h
      cases h
      split
      · rw [strike, length_updateFirst, length_updateFirst]
      · rfl
    · cases h
      rfl
  · cases h
    rfl

theorem length_attackTarget {a b : UInt32} {units units' : List UnitTactical}
    (h : attackTarget checks a b units = some units') : units'.length ≤ units.length := by
  unfold attackTarget at h
  obtain ⟨hit, hhit, h⟩ := Option.bind_eq_some_iff.mp h
  cases h
  exact (List.length_filter_le _ _).trans_eq (length_attack hhit)

/-- All that a command can do: nothing, moves and deaths, or a selection. -/
theorem applyInput_cases {input : RtsInput} (h : applyInput checks t input = some t') :
    t' = t ∨ (∃ units, units.length ≤ t.units.length ∧ t' = { t with units := units }) ∨
      ∃ hi lo, t' = { t with selectedUnits := t.selectedUnits.insert (unitIdOf hi lo) () } ∨
        t' = { t with selectedUnits := t.selectedUnits.erase (unitIdOf hi lo) } := by
  unfold applyInput at h
  split at h
  · exact .inl (Option.some.inj h).symm
  split_ifs at h with hmove hattack hselect hdeselect
  · split at h
    · obtain ⟨units, hunits, h⟩ := Option.bind_eq_some_iff.mp h
      exact .inr (.inl ⟨units, (length_moveUnit hunits).le, (Option.some.inj h).symm⟩)
    · exact .inl (Option.some.inj h).symm
  · split at h
    · obtain ⟨units, hunits, h⟩ := Option.bind_eq_some_iff.mp h
      exact .inr (.inl ⟨units, length_attackTarget hunits, (Option.some.inj h).symm⟩)
    · exact .inl (Option.some.inj h).symm
  · split at h
    · split at h
      · exact .inr (.inr ⟨_, _, .inl (Option.some.inj h).symm⟩)
      · exact .inl (Option.some.inj h).symm
    · exact .inl (Option.some.inj h).symm
  · split at h
    · exact .inr (.inr ⟨_, _, .inr (Option.some.inj h).symm⟩)
    · exact .inl (Option.some.inj h).symm
  · exact .inl (Option.some.inj h).symm

theorem TacticalState.Small.of_applyInput {input : RtsInput} (h : t.Small n)
    (ht : applyInput checks t input = some t') : t'.Small n := by
  rcases applyInput_cases ht with rfl | ⟨units, hlen, rfl⟩ | ⟨hi, lo, rfl | rfl⟩
  · exact h
  · exact { h with units := hlen.trans h.units }
  · refine { h with selected := fun k hk => ?_ }
    rcases ExtTreeMap.mem_insert.mp hk with heq | hk
    · rw [← LawfulEqCmp.eq_of_compare heq]
      exact unitIdOf_lt ..
    · exact h.selected k hk
  · exact { h with selected := fun k hk => h.selected k (ExtTreeMap.mem_erase.mp hk).2 }

theorem TacticalState.Small.of_applyInputs {inputs : List RtsInput} (h : t.Small n)
    (ht : applyInputsToTactical checks inputs t = some t') : t'.Small n := by
  unfold applyInputsToTactical at ht
  induction inputs generalizing t with
  | nil =>
    cases ht
    exact h
  | cons input inputs ih =>
    rw [List.foldlM_cons] at ht
    obtain ⟨mid, hmid, ht⟩ := Option.bind_eq_some_iff.mp ht
    exact ih (h.of_applyInput hmid) ht

/-- No more than so many short numbers. -/
theorem size_selected (h : t.Small n) : t.selectedUnits.size ≤ 2 ^ 16 := by
  have hnodup : (t.selectedUnits.keys.map UInt32.toNat).Nodup := by
    refine List.Nodup.map (fun _ _ => UInt32.toNat_inj.mp) ?_
    exact ExtTreeMap.distinct_keys.imp fun hne heq => hne (by rw [heq]; exact ReflCmp.compare_self)
  have hsub : t.selectedUnits.keys.map UInt32.toNat ⊆ List.range (2 ^ 16) := by
    intro k hk
    obtain ⟨id, hid, rfl⟩ := List.mem_map.mp hk
    exact List.mem_range.mpr (h.selected id (ExtTreeMap.mem_keys.mp hid))
  have hlen := (hnodup.subperm hsub).length_le
  rwa [List.length_map, ExtTreeMap.length_keys, List.length_range] at hlen

theorem TacticalState.Small.fits (h : t.Small n) (hn : n < 2 ^ 32) : t.Fits where
  units := h.units.trans_lt hn
  minerals := by rw [h.minerals]; decide
  visibility := by rw [h.visibility]; decide
  selected := (size_selected h).trans_lt (by decide)

end Sizes

/-! ## What a frame does -/

section Frames

variable {checks : Bool} {n : Nat} {inputs : List RtsInput} {t t' : TacticalState}

theorem turnNumber_applyInputs (h : applyInputsToTactical checks inputs t = some t') :
    t'.turnNumber = t.turnNumber := by
  unfold applyInputsToTactical at h
  induction inputs generalizing t with
  | nil =>
    cases h
    rfl
  | cons input inputs ih =>
    rw [List.foldlM_cons] at h
    obtain ⟨mid, hmid, h⟩ := Option.bind_eq_some_iff.mp h
    rw [ih h]
    rcases applyInput_cases hmid with rfl | ⟨units, -, rfl⟩ | ⟨hi, lo, rfl | rfl⟩ <;> rfl

theorem succU64_eq_some {x y : UInt64} (h : succU64 checks x = some y) : y = x + 1 := by
  unfold succU64 at h
  split at h
  · cases h
  · exact (Option.some.inj h).symm

theorem succU32_eq_some {x y : UInt32} (h : succU32 checks x = some y) : y = x + 1 := by
  unfold succU32 at h
  split at h
  · cases h
  · exact (Option.some.inj h).symm

variable [Blake3]

/-- What the next state of the game is like. -/
structure Next (n : Nat) (t t' : TacticalState) : Prop where
  turn : t'.turnNumber = t.turnNumber + 1
  winner : t'.winner = checkVictory t' n
  hash : t'.stateHash = Blake3.hash (frameBytes t.turnNumber (TacticalHashView.mk t'))

theorem next_of_eq_some (h : RtsSession.nextTactical checks n inputs t = some t') :
    Next n t t' := by
  unfold RtsSession.nextTactical at h
  obtain ⟨mid, hmid, h⟩ := Option.bind_eq_some_iff.mp h
  obtain ⟨turn, hturn, h⟩ := Option.bind_eq_some_iff.mp h
  cases h
  refine ⟨?_, rfl, rfl⟩
  rw [← turnNumber_applyInputs hmid]
  exact succU64_eq_some hturn

theorem TacticalState.Small.of_nextTactical {m : Nat} (hsmall : t.Small m)
    (h : RtsSession.nextTactical checks n inputs t = some t') : t'.Small m := by
  unfold RtsSession.nextTactical at h
  obtain ⟨mid, hmid, h⟩ := Option.bind_eq_some_iff.mp h
  obtain ⟨turn, hturn, h⟩ := Option.bind_eq_some_iff.mp h
  cases h
  have hmid := hsmall.of_applyInputs hmid
  exact ⟨by simpa using hmid.units, hmid.minerals, hmid.visibility, hmid.selected⟩

namespace RtsSession

variable {s s' : RtsSession} {call : Call} {hash : Hash}

/-- A frame of a session that has no winner. -/
structure Advanced (checks : Bool) (s : RtsSession) (call : Call) (hash : Hash) (s' : RtsSession) :
    Prop where
  tactical : nextTactical checks s.initialOwnerCount call.inputs s.tactical = some s'.tactical
  hash : hash = s'.tactical.stateHash
  bridge : s'.bridge.epochBuffer ≠ []
  ggrs : GgrsStub.advanceIfAny checks
    (s.ggrs.map fun stub => stub.saveState (detSerialize s.tactical)) = some s'.ggrs
  owners : s'.initialOwnerCount = s.initialOwnerCount

theorem advanced_of_eq_some (hactive : s.tactical.winner = none)
    (h : s.advanceFrame checks call = some (hash, s')) : Advanced checks s call hash s' := by
  rw [advanceFrame, hactive, if_neg (by decide)] at h
  obtain ⟨tactical, htactical, h⟩ := Option.bind_eq_some_iff.mp h
  obtain ⟨bridge, hbridge, h⟩ := Option.bind_eq_some_iff.mp h
  obtain ⟨ggrs, hggrs, h⟩ := Option.bind_eq_some_iff.mp h
  cases h
  exact ⟨htactical, rfl, FrameEpochBridge.epochBuffer_of_capture hbridge, hggrs, rfl⟩

theorem advanceFrame_frozen (hfrozen : s.tactical.winner.isSome) :
    s.advanceFrame checks call = some (s.tactical.stateHash, s) := by
  rw [advanceFrame, if_pos hfrozen]

/-- A frame leaves a finished game as it is, or advances it. -/
theorem advanceFrame_cases (h : s.advanceFrame checks call = some (hash, s')) :
    s.tactical.winner.isSome ∧ hash = s.tactical.stateHash ∧ s' = s ∨
      s.tactical.winner = none ∧ Advanced checks s call hash s' := by
  cases hwinner : s.tactical.winner with
  | some w =>
    rw [advanceFrame_frozen (by rw [hwinner]; rfl)] at h
    cases h
    exact .inl ⟨rfl, rfl, rfl⟩
  | none => exact .inr ⟨rfl, advanced_of_eq_some hwinner h⟩

/-- A frame panics if the game or the stub does, as long as the bridge can take an epoch. -/
theorem isSome_advanceFrame (hactive : s.tactical.winner = none)
    (hbridge : s.bridge.Open) : (s.advanceFrame checks call).isSome =
      ((nextTactical checks s.initialOwnerCount call.inputs s.tactical).isSome &&
        (GgrsStub.advanceIfAny checks
          (s.ggrs.map fun stub => stub.saveState (detSerialize s.tactical))).isSome) := by
  rw [advanceFrame, hactive, if_neg (by decide)]
  cases nextTactical checks s.initialOwnerCount call.inputs s.tactical with
  | none => rfl
  | some t =>
    have hcaptured : (s.bridge.capture call.now s.tactical.turnNumber (tacticalDigest t) ⟨0, 0⟩
      ⟨0, 0, 0⟩).isSome := FrameEpochBridge.capture_isSome hbridge
    obtain ⟨bridge, hcapture⟩ := Option.isSome_iff_exists.mp hcaptured
    simp only [Option.bind_eq_bind, Option.bind_some, hcapture, Option.isSome_some, Bool.true_and]
    cases GgrsStub.advanceIfAny checks _ <;> rfl

end RtsSession

end Frames

/-! ## Without overflow checks -/

section Unchecked

theorem distance_unchecked (x y : Fixed32) (cx cy : Int32) :
    ∃ d, distance false x y cx cy = some d := by
  simp [distance, subI32, absI32]

theorem blocked_unchecked (unitId : UInt32) (cx cy : Int32) (units : List UnitTactical) :
    ∃ b, blocked false unitId cx cy units = some b := by
  induction units with
  | nil => exact ⟨false, rfl⟩
  | cons other units ih =>
    unfold blocked
    split
    · exact ih
    · obtain ⟨d, hd⟩ := distance_unchecked other.x other.y cx cy
      rw [hd]
      simp only [Option.bind_eq_bind, Option.bind_some]
      split
      · exact ⟨true, rfl⟩
      · exact ih

theorem moveUnit_unchecked (unitId : UInt32) (dx dy : Int32) (units : List UnitTactical) :
    ∃ units', moveUnit false unitId dx dy units = some units' := by
  unfold moveUnit
  split
  · exact ⟨units, rfl⟩
  · next u _ =>
    obtain ⟨b, hb⟩ := blocked_unchecked unitId (clampI32 (saturatingAddI32 u.x.raw dx) 0 mapMax)
      (clampI32 (saturatingAddI32 u.y.raw dy) 0 mapMax) units
    simp only [hb, Option.bind_eq_bind, Option.bind_some]
    split
    · exact ⟨_, rfl⟩
    · exact ⟨_, rfl⟩

theorem attackTarget_unchecked (attackerId targetId : UInt32) (units : List UnitTactical) :
    ∃ units', attackTarget false attackerId targetId units = some units' := by
  have hattack : ∃ hit, attack false attackerId targetId units = some hit := by
    unfold attack
    split
    · next attacker target _ _ =>
      split
      · obtain ⟨d, hd⟩ := distance_unchecked target.x target.y attacker.x.raw attacker.y.raw
        rw [hd]
        exact ⟨_, rfl⟩
      · exact ⟨units, rfl⟩
    · exact ⟨units, rfl⟩
  obtain ⟨hit, hhit⟩ := hattack
  rw [attackTarget, hhit]
  exact ⟨_, rfl⟩

theorem applyInput_unchecked (t : TacticalState) (input : RtsInput) :
    ∃ t', applyInput false t input = some t' := by
  unfold applyInput
  split
  · exact ⟨t, rfl⟩
  split_ifs
  · split
    · next i1 i0 x0 x1 x2 x3 y0 y1 y2 y3 _ _ =>
      obtain ⟨units, hunits⟩ := moveUnit_unchecked (unitIdOf i1 i0) (i32OfLe [x0, x1, x2, x3])
        (i32OfLe [y0, y1, y2, y3]) t.units
      rw [hunits]
      exact ⟨_, rfl⟩
    · exact ⟨t, rfl⟩
  · split
    · next a1 a0 t1 t0 _ _ =>
      obtain ⟨units, hunits⟩ := attackTarget_unchecked (unitIdOf a1 a0) (unitIdOf t1 t0) t.units
      rw [hunits]
      exact ⟨_, rfl⟩
    · exact ⟨t, rfl⟩
  · split
    · split
      · exact ⟨_, rfl⟩
      · exact ⟨t, rfl⟩
    · exact ⟨t, rfl⟩
  · split
    · exact ⟨_, rfl⟩
    · exact ⟨t, rfl⟩
  · exact ⟨t, rfl⟩

theorem applyInputs_unchecked (inputs : List RtsInput) (t : TacticalState) :
    ∃ t', applyInputsToTactical false inputs t = some t' := by
  unfold applyInputsToTactical
  induction inputs generalizing t with
  | nil => exact ⟨t, rfl⟩
  | cons input inputs ih =>
    obtain ⟨mid, hmid⟩ := applyInput_unchecked t input
    rw [List.foldlM_cons, hmid]
    exact ih mid

theorem isSome_nextTactical_unchecked [Blake3] (n : Nat) (inputs : List RtsInput)
    (t : TacticalState) : (RtsSession.nextTactical false n inputs t).isSome := by
  obtain ⟨mid, hmid⟩ := applyInputs_unchecked inputs t
  rw [RtsSession.nextTactical, hmid]
  rfl

/-- Only the counter of a stub can panic. -/
theorem isSome_advanceIfAny (checks : Bool) (g : Option GgrsStub) :
    (GgrsStub.advanceIfAny checks g).isSome =
      (g.map GgrsStub.currentFrame).all fun frame => (succU32 checks frame).isSome := by
  cases g with
  | none => rfl
  | some g =>
    simp only [GgrsStub.advanceIfAny, GgrsStub.advance, Option.isSome_map, Option.map_some,
      Option.all_some]
    cases succU32 checks g.currentFrame <;> rfl

theorem isSome_advanceIfAny_unchecked (g : Option GgrsStub) :
    (GgrsStub.advanceIfAny false g).isSome := by
  cases g <;> rfl

end Unchecked

end P2P333.Platform333.Apps
