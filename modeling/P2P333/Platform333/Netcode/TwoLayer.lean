import P2P333.Lib.Transition
import P2P333.Platform333.Determinism.StateHash

/-!
# The fast layer

`FastLockstepLoop` of `333-platform/src/netcode/two_layer.rs`: a state that frames of inputs change,
and a ring of snapshots to go back to. A panic is `none`.

A snapshot is taken before each frame, so the current frame has none, unless a rollback has just led
to it. The snapshot that a rollback leads to stays, and the next frame takes it once more: after a
few rollbacks the ring holds the same frame several times, and older ones have left it early.

The timeline is what has happened on the way to the current frame: the state before each frame, and
the inputs of the frame. A rollback takes back its end.

Results:
1. `Inv.step`: the ring holds states of the timeline, in order.
2. `Inv.play`: the same inputs lead to the same states.
3. `rollback_lands_iff`: which rollbacks lead where they were asked to.
-/

namespace P2P333.Platform333.Netcode

open Lib Platform333.Determinism

def maxRollbackFrames : UInt64 := 5

structure FrameSnapshot where
  frameN : UInt64
  stateBytes : Bytes
  input : UInt8
deriving DecidableEq

structure FastLockstepLoop where
  currentFrame : UInt64
  snapshots : List FrameSnapshot
  stateAccumulator : UInt64
  inputQueue : Bytes
  checkpointFloor : UInt64
  checkpointHash : Hash
deriving DecidableEq

/-- The index of the last element that meets `p`. -/
def rposition {α : Type} (p : α → Bool) : List α → Option Nat
  | [] => none
  | a :: l => match rposition p l with
    | some i => some (i + 1)
    | none => if p a then some 0 else none

section Positions

variable {α : Type} {p : α → Bool} {l : List α} {i : Nat}

theorem rposition_eq_none : rposition p l = none ↔ ∀ a ∈ l, p a = false := by
  induction l with
  | nil => exact iff_of_true rfl nofun
  | cons a l ih =>
    rw [List.forall_mem_cons, ← ih, rposition]
    cases rposition p l with
    | none => cases p a <;> simp
    | some i => simp

theorem rposition_eq_some (h : rposition p l = some i) :
    ∃ left a right, l = left ++ a :: right ∧ left.length = i ∧ p a = true ∧
      ∀ b ∈ right, p b = false := by
  induction l generalizing i with
  | nil => cases h
  | cons a l ih =>
    rw [rposition] at h
    split at h
    · next j hj =>
      cases h
      obtain ⟨left, b, right, rfl, rfl, hb, hright⟩ := ih hj
      exact ⟨a :: left, b, right, rfl, rfl, hb, hright⟩
    · next hnone =>
      split at h
      · next ha =>
        cases h
        exact ⟨[], a, l, rfl, rfl, ha, rposition_eq_none.mp hnone⟩
      · cases h

end Positions

namespace FastLockstepLoop

def new : FastLockstepLoop := ⟨0, [], 0, [], 0, .replicate 32 0⟩

/-- Snapshots below the new floor leave the ring. -/
def setCheckpointFloor (l : FastLockstepLoop) (frameN : UInt64) (hash : Hash) : FastLockstepLoop :=
  { l with
    checkpointFloor := frameN
    checkpointHash := hash
    snapshots := l.snapshots.dropWhile fun s => s.frameN < frameN }

def submitInput (l : FastLockstepLoop) (input : UInt8) : FastLockstepLoop :=
  { l with inputQueue := l.inputQueue ++ [input] }

/-- What one byte of input does to the state. -/
def mix (acc : UInt64) (b : UInt8) : UInt64 := acc ^^^ (b.toUInt64 * 0x9e3779b97f4a7c15)

/-- The oldest snapshot leaves a ring that is too long. -/
def pushSnapshot (snapshots : List FrameSnapshot) (snap : FrameSnapshot) : List FrameSnapshot :=
  let snapshots := snapshots ++ [snap]
  if snapshots.length > maxRollbackFrames.toNat then snapshots.tail else snapshots

section Frames

variable [Blake3]

def computeHash (l : FastLockstepLoop) : Hash := frameStateHash l.currentFrame l.stateAccumulator

/-- A build with overflow checks (`checks`) panics when the frames run out, one without wraps. -/
def advanceFrame (checks : Bool) (l : FastLockstepLoop) (inputs : Bytes) :
    Option (Option Hash × FastLockstepLoop) :=
  let snap : FrameSnapshot := ⟨l.currentFrame, beBytes 8 l.stateAccumulator.toNat, inputs.headD 0⟩
  let acc := l.inputQueue.foldl mix (inputs.foldl mix l.stateAccumulator)
  if checks ∧ l.currentFrame.toNat + 1 = 2 ^ 64 then none
  else
    let l := { l with
      snapshots := pushSnapshot l.snapshots snap
      stateAccumulator := acc
      inputQueue := []
      currentFrame := l.currentFrame + 1 }
    some (if shouldBroadcastHash l.currentFrame then some l.computeHash else none, l)

end Frames

/-- `current_frame.saturating_sub(target_frame)`. -/
def distance (l : FastLockstepLoop) (targetFrame : UInt64) : UInt64 :=
  if targetFrame ≤ l.currentFrame then l.currentFrame - targetFrame else 0

/-- The snapshot at the frame or the last one before it is restored. A snapshot whose state has less
than eight bytes would be a panic. -/
def rollbackOnDesync (l : FastLockstepLoop) (targetFrame : UInt64) :
    Option (Except String Unit × FastLockstepLoop) :=
  if l.distance targetFrame > maxRollbackFrames then
    some (.error ("rollback distance " ++ toString (l.distance targetFrame) ++ " exceeds cap " ++
      toString maxRollbackFrames), l)
  else if targetFrame < l.checkpointFloor then
    some (.error ("target_frame " ++ toString targetFrame ++ " is below checkpoint floor " ++
      toString l.checkpointFloor), l)
  else
    match rposition (fun s => s.frameN ≤ targetFrame) l.snapshots with
    | some pos => do
      let snap ← l.snapshots[pos]?
      if snap.stateBytes.length < 8 then none
      else some (.ok (), { l with
        stateAccumulator := UInt64.ofNat (ofBeBytes (snap.stateBytes.take 8))
        currentFrame := snap.frameN
        snapshots := l.snapshots.take (pos + 1) })
    | none => some (.error ("no snapshot available for frame " ++ toString targetFrame), l)

/-! ## Calls -/

section Calls

variable {l l' : FastLockstepLoop} {checks : Bool} {inputs : Bytes}

/-- The frame is not too far back. -/
def Near (l : FastLockstepLoop) (frame : UInt64) : Prop :=
  l.currentFrame.toNat ≤ frame.toNat + maxRollbackFrames.toNat

theorem near_iff (frame : UInt64) : l.distance frame ≤ maxRollbackFrames ↔ l.Near frame := by
  rw [distance, Near, UInt64.le_iff_toNat_le]
  split
  · next hle =>
    rw [UInt64.toNat_sub_of_le _ _ hle]
    omega
  · next hlt =>
    have hlt := UInt64.lt_iff_toNat_lt.mp (UInt64.not_le.mp hlt)
    exact iff_of_true (Nat.zero_le _) (by omega)

/-- All that a rollback can do. -/
inductive RolledBack (l : FastLockstepLoop) (frame : UInt64) :
    Except String Unit × FastLockstepLoop → Prop
  | refused (e : String) (hout : ¬ (l.checkpointFloor ≤ frame ∧ l.Near frame)) :
    RolledBack l frame (.error e, l)
  | missing (e : String) (hin : l.checkpointFloor ≤ frame ∧ l.Near frame)
    (hnone : ∀ s ∈ l.snapshots, frame < s.frameN) : RolledBack l frame (.error e, l)
  | restored (left : List FrameSnapshot) (snap : FrameSnapshot) (right : List FrameSnapshot)
    (hin : l.checkpointFloor ≤ frame ∧ l.Near frame)
    (hsnapshots : l.snapshots = left ++ snap :: right) (hle : snap.frameN ≤ frame)
    (hlater : ∀ s ∈ right, frame < s.frameN) :
    RolledBack l frame (.ok (), { l with
      stateAccumulator := UInt64.ofNat (ofBeBytes (snap.stateBytes.take 8))
      currentFrame := snap.frameN
      snapshots := left ++ [snap] })

theorem rolledBack (hlength : ∀ s ∈ l.snapshots, s.stateBytes.length = 8) (frame : UInt64) :
    ∃ r, l.rollbackOnDesync frame = some r ∧ RolledBack l frame r := by
  unfold rollbackOnDesync
  split
  · next hfar =>
    refine ⟨_, rfl, .refused _ fun hin => ?_⟩
    exact UInt64.not_lt.mpr ((near_iff frame).mpr hin.2) hfar
  next hnear =>
  split
  · next hbelow => exact ⟨_, rfl, .refused _ fun hin => UInt64.not_lt.mpr hin.1 hbelow⟩
  next hfloor =>
  have hin : l.checkpointFloor ≤ frame ∧ l.Near frame :=
    ⟨UInt64.not_lt.mp hfloor, (near_iff frame).mp (UInt64.not_lt.mp hnear)⟩
  split
  · next pos hpos =>
    obtain ⟨left, snap, right, hsnapshots, rfl, hle, hlater⟩ := rposition_eq_some hpos
    have hsnap : l.snapshots[left.length]? = some snap := by
      rw [hsnapshots, List.getElem?_append_right (Nat.le_refl _), Nat.sub_self]
      rfl
    have htake : l.snapshots.take (left.length + 1) = left ++ [snap] := by
      rw [hsnapshots, List.take_length_add_append]
      rfl
    have hmem : snap ∈ l.snapshots := List.mem_of_getElem? hsnap
    rw [hsnap, htake]
    simp only [Option.bind_eq_bind, Option.bind_some, hlength snap hmem, lt_irrefl, if_false]
    exact ⟨_, rfl, .restored left snap right hin hsnapshots (of_decide_eq_true hle)
      fun s hs => UInt64.not_le.mp (of_decide_eq_false (hlater s hs))⟩
  · next hnone =>
    refine ⟨_, rfl, .missing _ hin fun s hs => UInt64.not_le.mp ?_⟩
    exact of_decide_eq_false (rposition_eq_none.mp hnone s hs)

variable [Blake3] {hash : Option Hash}

/-- What a frame does. -/
structure Advanced (l : FastLockstepLoop) (inputs : Bytes) (l' : FastLockstepLoop) : Prop where
  currentFrame : l'.currentFrame.toNat = l.currentFrame.toNat + 1
  snapshots : l'.snapshots = pushSnapshot l.snapshots
    ⟨l.currentFrame, beBytes 8 l.stateAccumulator.toNat, inputs.headD 0⟩
  state : l'.stateAccumulator = (inputs ++ l.inputQueue).foldl mix l.stateAccumulator
  inputQueue : l'.inputQueue = []

theorem advanceFrame_of_lt (checks : Bool) (inputs : Bytes)
    (hroom : l.currentFrame.toNat + 1 < 2 ^ 64) :
    ∃ hash l', l.advanceFrame checks inputs = some (hash, l') ∧ Advanced l inputs l' := by
  refine ⟨_, _, if_neg fun hout => hroom.ne hout.2, ?_, rfl, ?_, rfl⟩
  · dsimp only
    rw [UInt64.toNat_add]
    exact Nat.mod_eq_of_lt hroom
  · exact List.foldl_append.symm

theorem advanced_of_eq_some (hok : checks ∨ l.currentFrame.toNat + 1 < 2 ^ 64)
    (h : l.advanceFrame checks inputs = some (hash, l')) : Advanced l inputs l' := by
  have hroom : l.currentFrame.toNat + 1 < 2 ^ 64 := by
    rcases hok with hchecks | hroom
    · refine lt_of_le_of_ne l.currentFrame.toNat_lt fun hout => ?_
      rw [advanceFrame, if_pos ⟨hchecks, hout⟩] at h
      cases h
    · exact hroom
  obtain ⟨hash', l'', heq, hadvanced⟩ := advanceFrame_of_lt checks inputs hroom
  rw [h] at heq
  cases heq
  exact hadvanced

omit [Blake3] in
theorem submitInputs (submitted : Bytes) :
    submitted.foldl submitInput l = { l with inputQueue := l.inputQueue ++ submitted } := by
  induction submitted generalizing l with
  | nil => rw [List.foldl_nil, List.append_nil]
  | cons b submitted ih =>
    rw [List.foldl_cons, ih, submitInput, List.append_assoc]
    rfl

omit [Blake3] in
theorem pushSnapshot_sublist (snapshots : List FrameSnapshot) (snap : FrameSnapshot) :
    (pushSnapshot snapshots snap).Sublist (snapshots ++ [snap]) := by
  unfold pushSnapshot
  dsimp only
  split
  · exact List.tail_sublist _
  · exact List.Sublist.refl _

end Calls

end FastLockstepLoop

/-! ## The timeline -/

/-- A loop, and the state and the inputs of each frame of its timeline. -/
structure Timed where
  loop : FastLockstepLoop
  past : List (UInt64 × Bytes)
deriving DecidableEq

/-- The calls of the loop. -/
inductive LoopCall where
  | advanceFrame (inputs : Bytes)
  | submitInput (input : UInt8)
  | setCheckpointFloor (frameN : UInt64) (hash : Hash)
  | rollbackOnDesync (targetFrame : UInt64)

namespace Timed

open FastLockstepLoop

def start : Timed := ⟨.new, []⟩

/-- The states of the timeline, the current one last. -/
def states (s : Timed) : List UInt64 := s.past.map Prod.fst ++ [s.loop.stateAccumulator]

/-- The state that the timeline had when it reached the frame. -/
def stateAt (s : Timed) (frame : Nat) : Option UInt64 := s.states[frame]?

section Steps

variable [Blake3]

def step (checks : Bool) (s : Timed) : LoopCall → Option Timed
  | .advanceFrame inputs => (s.loop.advanceFrame checks inputs).map fun r =>
    ⟨r.2, s.past ++ [(s.loop.stateAccumulator, inputs ++ s.loop.inputQueue)]⟩
  | .submitInput input => some { s with loop := s.loop.submitInput input }
  | .setCheckpointFloor frameN hash => some { s with loop := s.loop.setCheckpointFloor frameN hash }
  | .rollbackOnDesync targetFrame => (s.loop.rollbackOnDesync targetFrame).map fun r =>
    ⟨r.2, match r.1 with
      | .ok () => s.past.take r.2.currentFrame.toNat
      | .error _ => s.past⟩

/-- No floor is above the current frame. Without overflow checks the frames do not wrap. -/
def Allowed (checks : Bool) (s : Timed) : LoopCall → Prop
  | .advanceFrame _ => checks ∨ s.loop.currentFrame.toNat + 1 < 2 ^ 64
  | .setCheckpointFloor frameN _ => frameN ≤ s.loop.currentFrame
  | .submitInput _ | .rollbackOnDesync _ => True

/-- Frames, each with the inputs that are submitted before it and those that it is called with. -/
def play (checks : Bool) (l : FastLockstepLoop) : List (Bytes × Bytes) → Option FastLockstepLoop
  | [] => some l
  | (submitted, inputs) :: frames => do
    let (_, l) ← (submitted.foldl submitInput l).advanceFrame checks inputs
    play checks l frames

end Steps

/-- The inputs of each of the frames, with those that were waiting before the first. -/
def consumed (waiting : Bytes) : List (Bytes × Bytes) → List Bytes
  | [] => []
  | (submitted, inputs) :: frames => (inputs ++ (waiting ++ submitted)) :: consumed [] frames

/-! ## Where a rollback leads -/

/-- The loop is at the frame, in the state of the timeline, and the inputs of the frames that follow
there lead to the states that they have led to. -/
structure At [Blake3] (checks : Bool) (s : Timed) (frame : UInt64) (l : FastLockstepLoop) :
    Prop where
  currentFrame : l.currentFrame = frame
  state : s.stateAt frame.toNat = some l.stateAccumulator
  replays : ∀ frames, consumed l.inputQueue frames <+: (s.past.drop frame.toNat).map Prod.snd →
    ∃ l', play checks l frames = some l' ∧
      l'.currentFrame.toNat = frame.toNat + frames.length ∧
      s.stateAt (frame.toNat + frames.length) = some l'.stateAccumulator

/-- The frame is in the window: not below the floor, not too far back, and not ahead. -/
def InWindow (l : FastLockstepLoop) (frame : UInt64) : Prop :=
  l.checkpointFloor ≤ frame ∧ l.Near frame ∧ frame ≤ l.currentFrame

instance (l : FastLockstepLoop) (frame : UInt64) : Decidable (InWindow l frame) :=
  inferInstanceAs (Decidable (l.checkpointFloor ≤ frame ∧
    l.currentFrame.toNat ≤ frame.toNat + maxRollbackFrames.toNat ∧ frame ≤ l.currentFrame))

/-- The rollback leads to the frame. Or it is an error that changes nothing, and the frame is not in
the window. -/
def Lands [Blake3] (checks : Bool) (s : Timed) (targetFrame : UInt64) : Prop :=
  (∃ l, s.loop.rollbackOnDesync targetFrame = some (.ok (), l) ∧ s.At checks targetFrame l) ∨
    ∃ e, s.loop.rollbackOnDesync targetFrame = some (.error e, s.loop) ∧
      ¬ InWindow s.loop targetFrame

/-- A snapshot of the frame is in the ring, if the frame is neither below the floor nor too far
back. Or the ring is empty, and the frame is ahead. -/
def Snapped (l : FastLockstepLoop) (frame : UInt64) : Prop :=
  l.checkpointFloor ≤ frame → l.Near frame →
    (∃ snap ∈ l.snapshots, snap.frameN = frame) ∨ (l.snapshots = [] ∧ l.currentFrame < frame)

/-! ## What holds in every run -/

theorem length_states (s : Timed) : s.states.length = s.past.length + 1 := by
  rw [states, List.length_append, List.length_map, List.length_singleton]

theorem stateAt_of_past {s : Timed} {i : Nat} {x : UInt64 × Bytes} (h : s.past[i]? = some x) :
    s.stateAt i = some x.1 := by
  have hi : i < s.past.length := (List.getElem?_eq_some_iff.mp h).1
  rw [stateAt, states, List.getElem?_append_left (by rwa [List.length_map]), List.getElem?_map, h]
  rfl

theorem le_of_stateAt {s : Timed} {i : Nat} {x : UInt64} (h : s.stateAt i = some x) :
    i ≤ s.past.length := by
  have hi := (List.getElem?_eq_some_iff.mp h).1
  rw [length_states] at hi
  omega

/-- The snapshot is one of the timeline. -/
def Faithful (s : Timed) (snap : FrameSnapshot) : Prop :=
  ∃ x, s.stateAt snap.frameN.toNat = some x ∧ snap.stateBytes = beBytes 8 x.toNat

/-- The ring holds states of the timeline, in order. -/
structure Inv (s : Timed) : Prop where
  frame : s.loop.currentFrame.toNat = s.past.length
  lawful : ∀ i x, s.past[i]? = some x → s.stateAt (i + 1) = some (x.2.foldl mix x.1)
  snapshots : ∀ snap ∈ s.loop.snapshots, s.Faithful snap
  sorted : s.loop.snapshots.Pairwise fun a b => a.frameN ≤ b.frameN

theorem Inv.start : Inv start := ⟨rfl, nofun, nofun, .nil⟩

section Ring

variable {s s' : Timed}

theorem Inv.le_current (hinv : Inv s) {snap : FrameSnapshot} (hsnap : snap ∈ s.loop.snapshots) :
    snap.frameN ≤ s.loop.currentFrame := by
  obtain ⟨x, hx, -⟩ := hinv.snapshots snap hsnap
  rw [UInt64.le_iff_toNat_le, hinv.frame]
  exact le_of_stateAt hx

theorem Inv.length_stateBytes (hinv : Inv s) :
    ∀ snap ∈ s.loop.snapshots, snap.stateBytes.length = 8 := by
  intro snap hsnap
  obtain ⟨x, -, hbytes⟩ := hinv.snapshots snap hsnap
  rw [hbytes, length_beBytes]

/-- What a snapshot restores. -/
theorem Faithful.restored {snap : FrameSnapshot} (h : s.Faithful snap) :
    s.stateAt snap.frameN.toNat = some (UInt64.ofNat (ofBeBytes (snap.stateBytes.take 8))) := by
  obtain ⟨x, hx, hbytes⟩ := h
  rw [hx, hbytes, List.take_of_length_le (length_beBytes 8 _).le, ofBeBytes_beBytes x.toNat_lt,
    UInt64.ofNat_toNat]

theorem Inv.keep (hinv : Inv s) (hpast : s'.past = s.past)
    (hframe : s'.loop.currentFrame = s.loop.currentFrame)
    (hstate : s'.loop.stateAccumulator = s.loop.stateAccumulator)
    (hsnapshots : s'.loop.snapshots.Sublist s.loop.snapshots) : Inv s' := by
  have hstates (i : Nat) : s'.stateAt i = s.stateAt i := by
    rw [stateAt, stateAt, states, states, hpast, hstate]
  refine ⟨by rw [hframe, hpast, hinv.frame], fun i x hx => ?_, fun snap hsnap => ?_,
    hinv.sorted.sublist hsnapshots⟩
  · rw [hstates]
    exact hinv.lawful i x (hpast ▸ hx)
  · obtain ⟨x, hx, hbytes⟩ := hinv.snapshots snap (hsnapshots.subset hsnap)
    exact ⟨x, by rw [hstates, hx], hbytes⟩

/-- Back on the timeline, with a ring that ends at the frame. -/
theorem Inv.back (hinv : Inv s) {left right : List FrameSnapshot} {snap : FrameSnapshot}
    (hsnapshots : s.loop.snapshots = left ++ snap :: right)
    (hframe : s'.loop.currentFrame = snap.frameN)
    (hstate : s.stateAt snap.frameN.toNat = some s'.loop.stateAccumulator)
    (hpast : s'.past = s.past.take snap.frameN.toNat)
    (hring : s'.loop.snapshots = left ++ [snap]) : Inv s' := by
  have hk := le_of_stateAt hstate
  have hlength : s'.past.length = snap.frameN.toNat := by
    rw [hpast, List.length_take, Nat.min_eq_left hk]
  -- The states up to the frame are those of the timeline.
  have hsame {i : Nat} (hi : i ≤ snap.frameN.toNat) : s'.stateAt i = s.stateAt i := by
    rcases hi.lt_or_eq with hlt | rfl
    · have hi' : i < s.past.length := lt_of_lt_of_le hlt hk
      have hget : s.past[i]? = some s.past[i] := List.getElem?_eq_getElem hi'
      have hget' : s'.past[i]? = some s.past[i] := by
        rw [hpast, List.getElem?_take_of_lt hlt, hget]
      rw [stateAt_of_past hget', stateAt_of_past hget]
    · rw [hstate, stateAt, states, List.getElem?_append_right (by rw [List.length_map, hlength]),
        List.length_map, hlength, Nat.sub_self]
      rfl
  have hsublist : s'.loop.snapshots.Sublist s.loop.snapshots := by
    rw [hring, hsnapshots]
    exact List.Sublist.append_left (List.singleton_sublist.mpr List.mem_cons_self) left
  have hsorted : s'.loop.snapshots.Pairwise fun a b => a.frameN ≤ b.frameN :=
    hinv.sorted.sublist hsublist
  refine ⟨by rw [hframe, hlength], fun i x hx => ?_, fun b hb => ?_, hsorted⟩
  · have hi : i < snap.frameN.toNat := hlength ▸ (List.getElem?_eq_some_iff.mp hx).1
    rw [hsame hi]
    rw [hpast, List.getElem?_take_of_lt hi] at hx
    exact hinv.lawful i x hx
  · have hle : b.frameN ≤ snap.frameN := by
      rw [hring] at hb hsorted
      rcases List.mem_append.mp hb with hleft | hlast
      · exact (List.pairwise_append.mp hsorted).2.2 b hleft snap List.mem_cons_self
      · rw [List.mem_singleton.mp hlast]
        exact UInt64.le_refl _
    obtain ⟨x, hx, hbytes⟩ := hinv.snapshots b (hsublist.subset hb)
    exact ⟨x, by rw [hsame (UInt64.le_iff_toNat_le.mp hle), hx], hbytes⟩

/-- A frame makes the timeline longer. -/
theorem Inv.advance (hinv : Inv s) {inputs : Bytes}
    (hadvanced : Advanced s.loop inputs s'.loop)
    (hpast : s'.past = s.past ++ [(s.loop.stateAccumulator, inputs ++ s.loop.inputQueue)]) :
    Inv s' := by
  have hstates : s'.states = s.states ++ [s'.loop.stateAccumulator] := by
    rw [states, hpast, List.map_append]
    rfl
  have hsame {i : Nat} {x : UInt64} (h : s.stateAt i = some x) : s'.stateAt i = some x := by
    have hi := (List.getElem?_eq_some_iff.mp h).1
    rw [stateAt, hstates, List.getElem?_append_left hi]
    exact h
  have hnow : s.stateAt s.past.length = some s.loop.stateAccumulator := by
    rw [stateAt, states, List.getElem?_append_right (by rw [List.length_map]), List.length_map,
      Nat.sub_self]
    rfl
  have hsublist := pushSnapshot_sublist s.loop.snapshots
    ⟨s.loop.currentFrame, beBytes 8 s.loop.stateAccumulator.toNat, inputs.headD 0⟩
  rw [← hadvanced.snapshots] at hsublist
  refine ⟨?_, fun i x hx => ?_, fun snap hsnap => ?_, .sublist hsublist ?_⟩
  · rw [hadvanced.currentFrame, hinv.frame, hpast, List.length_append, List.length_singleton]
  · rw [hpast, List.getElem?_append] at hx
    split at hx
    · exact hsame (hinv.lawful i x hx)
    · next hi =>
      have hlast := (List.getElem?_eq_some_iff.mp hx).1
      rw [List.length_singleton, Nat.lt_one_iff] at hlast
      have hi' : i = s.past.length := by omega
      subst hi'
      rw [Nat.sub_self] at hx
      cases hx
      rw [← hadvanced.state, stateAt, hstates,
        List.getElem?_append_right (length_states s).le, length_states, Nat.sub_self]
      rfl
  · rcases List.mem_append.mp (hsublist.subset hsnap) with hold | hnew
    · obtain ⟨x, hx, hbytes⟩ := hinv.snapshots snap hold
      exact ⟨x, hsame hx, hbytes⟩
    · rw [List.mem_singleton.mp hnew]
      exact ⟨_, hsame (hinv.frame ▸ hnow), rfl⟩
  · refine List.pairwise_append.mpr ⟨hinv.sorted, List.pairwise_singleton _ _, ?_⟩
    intro a ha b hb
    rw [List.mem_singleton.mp hb]
    exact hinv.le_current ha

variable [Blake3] {checks : Bool}

theorem Inv.step (hinv : Inv s) {call : LoopCall} (hok : Allowed checks s call)
    (h : step checks s call = some s') : Inv s' := by
  cases call with
  | advanceFrame inputs =>
    obtain ⟨⟨hash, l⟩, hadvance, rfl⟩ := Option.map_eq_some_iff.mp h
    exact hinv.advance (advanced_of_eq_some hok hadvance) rfl
  | submitInput input =>
    cases h
    exact hinv.keep rfl rfl rfl (List.Sublist.refl _)
  | setCheckpointFloor frameN hash =>
    cases h
    exact hinv.keep rfl rfl rfl (List.dropWhile_sublist _)
  | rollbackOnDesync targetFrame =>
    obtain ⟨r, hrollback, rfl⟩ := Option.map_eq_some_iff.mp h
    obtain ⟨r', heq, hback⟩ := rolledBack hinv.length_stateBytes targetFrame
    rw [hrollback] at heq
    cases heq
    cases hback with
    | refused | missing => exact hinv
    | restored left snap right hin hsnapshots =>
      have hsnap : snap ∈ s.loop.snapshots := hsnapshots ▸ List.mem_append_right _
        List.mem_cons_self
      exact hinv.back hsnapshots rfl (hinv.snapshots snap hsnap).restored rfl rfl

/-- The same inputs lead from a state of the timeline to the same states. -/
theorem Inv.play (hinv : Inv s) {frames : List (Bytes × Bytes)} {l : FastLockstepLoop}
    (hstate : s.stateAt l.currentFrame.toNat = some l.stateAccumulator)
    (hframes : consumed l.inputQueue frames <+:
      (s.past.drop l.currentFrame.toNat).map Prod.snd) :
    ∃ l', play checks l frames = some l' ∧
      l'.currentFrame.toNat = l.currentFrame.toNat + frames.length ∧
      s.stateAt (l.currentFrame.toNat + frames.length) = some l'.stateAccumulator := by
  induction frames generalizing l with
  | nil => exact ⟨l, rfl, rfl, hstate⟩
  | cons frame frames ih =>
    obtain ⟨submitted, inputs⟩ := frame
    have hk : l.currentFrame.toNat < s.past.length := by
      by_contra hout
      rw [List.drop_eq_nil_of_le (Nat.le_of_not_lt hout)] at hframes
      cases List.prefix_nil.mp hframes
    rw [List.drop_eq_getElem_cons hk, List.map_cons, consumed, List.cons_prefix_cons] at hframes
    obtain ⟨hhead, htail⟩ := hframes
    have hpast : s.past[l.currentFrame.toNat]? = some s.past[l.currentFrame.toNat] :=
      List.getElem?_eq_getElem hk
    have hroom : l.currentFrame.toNat + 1 < 2 ^ 64 := by
      have hlt := s.loop.currentFrame.toNat_lt
      rw [hinv.frame] at hlt
      exact lt_of_le_of_lt hk hlt
    have hroom' : (submitted.foldl submitInput l).currentFrame.toNat + 1 < 2 ^ 64 := by
      rwa [submitInputs]
    obtain ⟨hash, l₁, hadvance, hframe, -, hacc, hqueue⟩ := advanceFrame_of_lt checks inputs hroom'
    rw [submitInputs] at hframe hacc
    -- The frame of the timeline starts in the same state and consumes the same inputs.
    have hbefore : s.past[l.currentFrame.toNat].1 = l.stateAccumulator :=
      Option.some.inj ((stateAt_of_past hpast).symm.trans hstate)
    have hafter : s.stateAt (l.currentFrame.toNat + 1) = some l₁.stateAccumulator := by
      rw [hinv.lawful _ _ hpast, hbefore, ← hhead, hacc]
    obtain ⟨l', hplay, hframe', hstate'⟩ := ih (l := l₁) (by rw [hframe]; exact hafter)
      (by rw [hframe, hqueue]; exact htail)
    refine ⟨l', ?_, ?_, ?_⟩
    · rw [Timed.play, hadvance]
      exact hplay
    · rw [hframe', hframe, List.length_cons, Nat.add_right_comm, Nat.add_assoc]
    · rw [← hstate', hframe, List.length_cons, Nat.add_right_comm, Nat.add_assoc]

end Ring

section Landing

variable [Blake3] {checks : Bool} {s : Timed}

/-- A snapshot of the frame leads there. -/
theorem Inv.at_restored (hinv : Inv s) {snap : FrameSnapshot} (hsnap : snap ∈ s.loop.snapshots)
    {l : FastLockstepLoop} (hframe : l.currentFrame = snap.frameN)
    (hstate : l.stateAccumulator = UInt64.ofNat (ofBeBytes (snap.stateBytes.take 8))) :
    s.At checks snap.frameN l := by
  have hat : s.stateAt l.currentFrame.toNat = some l.stateAccumulator := by
    rw [hframe, hstate]
    exact (hinv.snapshots snap hsnap).restored
  refine ⟨hframe, hframe ▸ hat, fun frames hframes => ?_⟩
  rw [← hframe] at hframes ⊢
  exact hinv.play hat hframes

theorem Inv.lands_iff (hinv : Inv s) (t : UInt64) : Lands checks s t ↔ Snapped s.loop t := by
  obtain ⟨r, hr, hback⟩ := rolledBack hinv.length_stateBytes t
  rw [Lands, hr]
  cases hback with
  | refused e hout =>
    refine iff_of_true (.inr ⟨e, rfl, fun hin => hout ⟨hin.1, hin.2.1⟩⟩) fun hfloor hnear => ?_
    exact absurd ⟨hfloor, hnear⟩ hout
  | missing e hin hnone =>
    -- No snapshot leads there: the frame is ahead, or its snapshot has left the ring.
    constructor
    · intro h hfloor hnear
      rcases h with ⟨l, hl, -⟩ | ⟨e', -, hout⟩
      · cases hl
      have hahead : s.loop.currentFrame < t :=
        UInt64.not_le.mp fun hle => hout ⟨hfloor, hnear, hle⟩
      refine .inr ⟨List.eq_nil_iff_forall_not_mem.mpr fun snap hsnap => ?_, hahead⟩
      have hle := hinv.le_current hsnap
      exact UInt64.lt_irrefl _ (UInt64.lt_trans hahead (UInt64.lt_of_lt_of_le (hnone snap hsnap)
        hle))
    · intro h
      refine .inr ⟨e, rfl, fun hwindow => ?_⟩
      rcases h hin.1 hin.2 with ⟨snap, hsnap, rfl⟩ | ⟨-, hahead⟩
      · exact UInt64.lt_irrefl _ (hnone snap hsnap)
      · exact UInt64.not_lt.mpr hwindow.2.2 hahead
  | restored left snap right hin hsnapshots hle hlater =>
    have hsnap : snap ∈ s.loop.snapshots := hsnapshots ▸ List.mem_append_right _ List.mem_cons_self
    constructor
    · intro h hfloor hnear
      rcases h with ⟨l, hl, hat⟩ | ⟨e, he, -⟩
      · cases hl
        exact .inl ⟨snap, hsnap, hat.currentFrame⟩
      · cases he
    · intro h
      refine .inl ⟨_, rfl, ?_⟩
      have hframe : snap.frameN = t := by
        rcases h hin.1 hin.2 with ⟨b, hb, hbt⟩ | ⟨hempty, -⟩
        · -- It is the one that is found, or it is one of those before.
          rw [hsnapshots] at hb
          have hsorted := hinv.sorted
          rw [hsnapshots] at hsorted
          rcases List.mem_append.mp hb with hleft | hrest
          · have hbsnap := (List.pairwise_append.mp hsorted).2.2 b hleft snap List.mem_cons_self
            exact UInt64.le_antisymm hle (hbt ▸ hbsnap)
          rcases List.mem_cons.mp hrest with rfl | hright
          · exact hbt
          · exact absurd (hlater b hright) (hbt ▸ UInt64.lt_irrefl _)
        · rw [hempty] at hsnap
          cases hsnap
      rw [← hframe]
      exact hinv.at_restored hsnap rfl rfl

/-- In every run, a rollback leads where it was asked to exactly when the ring has a snapshot of the
frame itself. -/
theorem rollback_lands_iff (h : Reachable (step checks) (Allowed checks) start s) (t : UInt64) :
    Lands checks s t ↔ Snapped s.loop t := by
  have hinv : Inv s := h.invariant .start fun _ _ _ _ hinv hok hstep => hinv.step hok hstep
  exact hinv.lands_iff t

end Landing

instance (checks : Bool) (s : Timed) : (call : LoopCall) → Decidable (Allowed checks s call)
  | .advanceFrame _ =>
    inferInstanceAs (Decidable (checks ∨ s.loop.currentFrame.toNat + 1 < 2 ^ 64))
  | .setCheckpointFloor frameN _ => inferInstanceAs (Decidable (frameN ≤ s.loop.currentFrame))
  | .submitInput _ | .rollbackOnDesync _ => inferInstanceAs (Decidable True)

instance (l : FastLockstepLoop) (frame : UInt64) : Decidable (Snapped l frame) :=
  inferInstanceAs (Decidable (l.checkpointFloor ≤ frame →
    l.currentFrame.toNat ≤ frame.toNat + maxRollbackFrames.toNat →
      (∃ snap ∈ l.snapshots, snap.frameN = frame) ∨ (l.snapshots = [] ∧ l.currentFrame < frame)))

namespace Demo

@[reducible] def zeroBlake3 : Blake3 where
  hash _ := .replicate 32 0

attribute [local instance] zeroBlake3

def fiveFrames : List LoopCall := (List.range 5).map fun i => .advanceFrame [UInt8.ofNat i]

/-- Back to the third frame, on from there, and back to the second. -/
theorem rollback_lands_twice : ∃ s, Reachable (step true) (Allowed true) start s ∧
    s.loop.currentFrame = 4 ∧ Lands true s 2 := by
  obtain ⟨s, hs, hframe, hsnapped⟩ : ∃ s, Reachable (step true) (Allowed true) start s ∧
      s.loop.currentFrame = 4 ∧ Snapped s.loop 2 :=
    Reachable.of_exec
      (fiveFrames ++ [.rollbackOnDesync 3, .submitInput 9, .advanceFrame [8]]) (by decide)
  exact ⟨s, hs, hframe, (rollback_lands_iff hs 2).mpr hsnapped⟩

/-- After one frame, a rollback to the current frame leads to the frame before. After five frames,
one rollback and one more frame, the snapshot of frame zero has left the ring. -/
theorem not_lands :
    (∃ s, Reachable (step true) (Allowed true) start s ∧ InWindow s.loop 1 ∧
      ((s.loop.rollbackOnDesync 1).map fun r => r.2.currentFrame) = some 0 ∧ ¬ Lands true s 1) ∧
    ∃ s, Reachable (step true) (Allowed true) start s ∧ InWindow s.loop 0 ∧
      s.loop.rollbackOnDesync 0 = some (.error "no snapshot available for frame 0", s.loop) ∧
      ¬ Lands true s 0 := by
  have hinv {s : Timed} (h : Reachable (step true) (Allowed true) start s) : Inv s :=
    h.invariant .start fun _ _ _ _ hinv hok hstep => hinv.step hok hstep
  constructor
  · obtain ⟨s, hs, hwindow, hback, hsnapped⟩ : ∃ s, Reachable (step true) (Allowed true) start s ∧
        InWindow s.loop 1 ∧
        ((s.loop.rollbackOnDesync 1).map fun r => r.2.currentFrame) = some 0 ∧
        ¬ Snapped s.loop 1 :=
      Reachable.of_exec [.advanceFrame [1]] (by decide)
    exact ⟨s, hs, hwindow, hback, fun h => hsnapped (((hinv hs).lands_iff 1).mp h)⟩
  · obtain ⟨s, hs, hwindow, hback, hsnapped⟩ : ∃ s, Reachable (step true) (Allowed true) start s ∧
        InWindow s.loop 0 ∧
        s.loop.rollbackOnDesync 0 = some (.error "no snapshot available for frame 0", s.loop) ∧
        ¬ Snapped s.loop 0 :=
      Reachable.of_exec (fiveFrames ++ [.rollbackOnDesync 4, .advanceFrame [9]]) (by decide)
    exact ⟨s, hs, hwindow, hback, fun h => hsnapped (((hinv hs).lands_iff 0).mp h)⟩

end Demo

end Timed

end P2P333.Platform333.Netcode
