import P2P333.Platform333.Apps.RtsSession

/-!
# Lockstep

Two sessions that began with the same units, as `333-platform/src/apps/rts_session.rs` runs them.
Once the bytes that they hash are the same, they are in the same state of the game, and the same
inputs keep them in it. Clocks, node ids, capacities and stubs may differ.

Results:
1. `view_of_bytes`: what is hashed determines the part of the state that is hashed.
2. `equal_bytes_same_game`: the same bytes once, the same game from then on.
-/

namespace P2P333.Platform333.Apps

open Std Lib Platform333.Determinism

/-! ## What the bytes determine -/

abbrev View :=
  UInt64 × List UnitTactical × OrdMap UInt32 UInt32 × OrdMap UInt32 UInt64 × OrdSet UInt32

def TacticalHashView.view (v : TacticalHashView) : View :=
  (v.state.turnNumber, v.state.units, v.state.playerMinerals, v.state.visibility,
    v.state.selectedUnits)

/-- The sizes fit, where they are hashed. -/
def ViewFits (v : View) : Prop :=
  True ∧ v.2.1.length < 2 ^ 32 ∧ v.2.2.1.size < 2 ^ 32 ∧ v.2.2.2.1.size < 2 ^ 32 ∧
    v.2.2.2.2.size < 2 ^ 32

theorem delimits_view : Delimits (fun v : View => detSerialize v.1 ++ (detSerialize v.2.1 ++
    (detSerialize v.2.2.1 ++ (detSerialize v.2.2.2.1 ++ serializeSet v.2.2.2.2)))) ViewFits :=
  reads_u64.delimits.append ((reads_list reads_unit).delimits.append
    ((reads_map reads_u32 reads_u32).delimits.append
      ((reads_map reads_u32 reads_u64).delimits.append
      (reads_set reads_u32).delimits)))

theorem view_of_bytes {n n' : UInt64} {t t' : TacticalState} (ht : t.Fits) (ht' : t'.Fits)
    (h : frameBytes n (TacticalHashView.mk t) = frameBytes n' (TacticalHashView.mk t')) :
    (TacticalHashView.mk t).view = (TacticalHashView.mk t').view :=
  (delimits_hashed delimits_view (fun _ => rfl) ⟨trivial, ht.units, ht.minerals, ht.visibility,
    ht.selected⟩ ⟨trivial, ht'.units, ht'.minerals, ht'.visibility, ht'.selected⟩ h).2

/-- The winner is found in the units. -/
theorem checkVictory_congr {t t' : TacticalState} (h : t.units = t'.units) (n : Nat) :
    checkVictory t n = checkVictory t' n := by
  unfold checkVictory
  rw [h]

namespace RtsSession

/-! ## One session -/

section One

variable [Blake3] {checks : Bool} {units : List UnitTactical} {setup : Setup} {s s' : RtsSession}
  {call : Call} {hash : Hash}

/-- What is so in every session that was created with the units. -/
structure Reached (units : List UnitTactical) (setup : Setup) (s : RtsSession) : Prop where
  small : s.tactical.Small units.length
  owners : s.initialOwnerCount = (ownersOf units).size
  withGgrs : s.ggrs.isSome = setup.withGgrs
  frames : ∀ stub ∈ s.ggrs, stub.currentFrame = s.tactical.turnNumber.toUInt32

omit [Blake3] in
theorem reached_new : Reached units setup (new setup units) where
  small := ⟨Nat.le_refl _, rfl, rfl, fun k hk => absurd hk ExtTreeMap.not_mem_empty⟩
  owners := rfl
  withGgrs := by
    simp only [new]
    cases setup.withGgrs <;> rfl
  frames := by
    intro stub hstub
    simp only [new] at hstub
    split at hstub
    · cases hstub
      rfl
    · cases hstub

omit [Blake3] in
/-- The stub after a frame, if there is one. -/
theorem advanceIfAny_eq_some {g g' : Option GgrsStub}
    (h : GgrsStub.advanceIfAny checks g = some g') :
    g'.isSome = g.isSome ∧ ∀ stub ∈ g', ∃ old ∈ g, stub.currentFrame = old.currentFrame + 1 ∧
      stub.saveSlots = old.saveSlots := by
  cases g with
  | none =>
    cases h
    exact ⟨rfl, nofun⟩
  | some old =>
    obtain ⟨stub, hstub, rfl⟩ := Option.map_eq_some_iff.mp h
    obtain ⟨frame, hframe, hstub⟩ := Option.bind_eq_some_iff.mp hstub
    cases hstub
    refine ⟨rfl, fun stub hmem => ?_⟩
    cases hmem
    exact ⟨old, rfl, succU32_eq_some hframe, rfl⟩

theorem Reached.step (h : Reached units setup s)
    (hstep : s.advanceFrame checks call = some (hash, s')) : Reached units setup s' := by
  rcases advanceFrame_cases hstep with ⟨-, -, rfl⟩ | ⟨-, hadv⟩
  · exact h
  · obtain ⟨hsome, hstub⟩ := advanceIfAny_eq_some hadv.ggrs
    refine ⟨h.small.of_nextTactical hadv.tactical, hadv.owners.trans h.owners, ?_,
      fun stub hmem => ?_⟩
    · rw [hsome, Option.isSome_map, h.withGgrs]
    · obtain ⟨old, hold, hframe, -⟩ := hstub stub hmem
      obtain ⟨stub', hstub', rfl⟩ := Option.map_eq_some_iff.mp hold
      rw [hframe, (next_of_eq_some hadv.tactical).turn, UInt64.toUInt32_add]
      exact congrArg (· + 1) (h.frames stub' hstub')

theorem run_cons_eq_some {calls : List Call} {rs : List (Hash × Option UInt32)} :
    s.run checks (call :: calls) = some (rs, s') ↔
      ∃ hash mid rest, s.advanceFrame checks call = some (hash, mid) ∧
        mid.run checks calls = some (rest, s') ∧ rs = (hash, mid.tactical.winner) :: rest := by
  constructor
  · intro h
    obtain ⟨⟨hash, mid⟩, hmid, h⟩ := Option.bind_eq_some_iff.mp h
    obtain ⟨⟨rest, last⟩, hrest, h⟩ := Option.bind_eq_some_iff.mp h
    cases h
    exact ⟨hash, mid, rest, hmid, hrest, rfl⟩
  · rintro ⟨hash, mid, rest, hmid, hrest, rfl⟩
    rw [run, hmid]
    simp only [Option.bind_eq_bind, Option.bind_some, hrest]

theorem Reached.run {calls : List Call} {rs : List (Hash × Option UInt32)}
    (h : Reached units setup s) (hrun : s.run checks calls = some (rs, s')) :
    Reached units setup s' := by
  induction calls generalizing s rs with
  | nil =>
    cases hrun
    exact h
  | cons call calls ih =>
    obtain ⟨hash, mid, rest, hmid, hrest, -⟩ := run_cons_eq_some.mp hrun
    exact ih (h.step hmid) hrest

/-- The session began with these units, and the last of its frames has hashed the bytes. -/
def Hashed (checks : Bool) (units : List UnitTactical) (setup : Setup) (bytes : Bytes)
    (s' : RtsSession) : Prop :=
  ∃ calls rs s call hash, (new setup units).run checks calls = some (rs, s) ∧
    s.tactical.winner = none ∧ s.advanceFrame checks call = some (hash, s') ∧
      bytes = frameBytes s.tactical.turnNumber (TacticalHashView.mk s'.tactical)

theorem Hashed.reached {bytes : Bytes} (h : Hashed checks units setup bytes s') :
    Reached units setup s' := by
  obtain ⟨calls, rs, s, call, hash, hrun, -, hstep, -⟩ := h
  exact (reached_new.run hrun).step hstep

end One

/-! ## Two sessions -/

/-- The same state of the game. -/
structure SameGame (a b : RtsSession) : Prop where
  turn : a.tactical.turnNumber = b.tactical.turnNumber
  units : a.tactical.units = b.tactical.units
  minerals : a.tactical.playerMinerals = b.tactical.playerMinerals
  visibility : a.tactical.visibility = b.tactical.visibility
  selected : a.tactical.selectedUnits = b.tactical.selectedUnits
  winner : a.tactical.winner = b.tactical.winner

/-- What the same inputs keep: the states differ in the clock only, and the stubs count alike. -/
structure Lockstep (a b : RtsSession) : Prop where
  game : b.tactical = a.tactical.withHlc b.tactical.hlc
  owners : b.initialOwnerCount = a.initialOwnerCount
  bridge : a.bridge.epochBuffer ≠ [] ∧ b.bridge.epochBuffer ≠ []
  frames : ∀ stub ∈ a.ggrs, ∀ stub' ∈ b.ggrs, stub'.currentFrame = stub.currentFrame

section Two

variable [Blake3] {checks : Bool} {units : List UnitTactical} {a b a' b' : RtsSession}

omit [Blake3] in
theorem Lockstep.sameGame (h : Lockstep a b) : SameGame a b := by
  have hgame := h.game
  constructor <;> rw [hgame] <;> rfl

/-- The same bytes, the same game. -/
theorem lockstep_of_bytes (hunits : units.length < 2 ^ 32) {setupA setupB : Setup} {bytes : Bytes}
    (ha : Hashed checks units setupA bytes a) (hb : Hashed checks units setupB bytes b) :
    Lockstep a b := by
  obtain ⟨callsA, rsA, sa, callA, hashA, hrunA, hactiveA, hstepA, hbytesA⟩ := ha
  obtain ⟨callsB, rsB, sb, callB, hashB, hrunB, hactiveB, hstepB, hbytesB⟩ := hb
  have hreachedA := (reached_new.run hrunA).step hstepA
  have hreachedB := (reached_new.run hrunB).step hstepB
  have hadvA := advanced_of_eq_some hactiveA hstepA
  have hadvB := advanced_of_eq_some hactiveB hstepB
  have hnextA := next_of_eq_some hadvA.tactical
  have hnextB := next_of_eq_some hadvB.tactical
  have hview := view_of_bytes (hreachedA.small.fits hunits) (hreachedB.small.fits hunits)
    (hbytesA.symm.trans hbytesB)
  simp only [TacticalHashView.view, Prod.mk.injEq] at hview
  obtain ⟨hturn, hunitsEq, hminerals, hvisibility, hselected⟩ := hview
  have howners : b.initialOwnerCount = a.initialOwnerCount :=
    hreachedB.owners.trans hreachedA.owners.symm
  have hwinner : b.tactical.winner = a.tactical.winner := by
    rw [hnextA.winner, hnextB.winner, ← hadvA.owners, ← hadvB.owners, howners]
    exact checkVictory_congr hunitsEq.symm _
  have hhash : b.tactical.stateHash = a.tactical.stateHash := by
    rw [hnextA.hash, hnextB.hash, ← hbytesA, ← hbytesB]
  refine ⟨?_, howners, ⟨hadvA.bridge, hadvB.bridge⟩, fun stub hstub stub' hstub' => ?_⟩
  · obtain ⟨nodeB, tB, bridgeB, desyncB, ggrsB, ownersB⟩ := b
    obtain ⟨turn, hlc, us, minerals, visibility, stateHash, selected, winner⟩ := tB
    simp only at hturn hunitsEq hminerals hvisibility hselected hwinner hhash
    rw [TacticalState.withHlc, hturn, hunitsEq, hminerals, hvisibility, hselected, hwinner, hhash]
  · rw [hreachedA.frames stub hstub, hreachedB.frames stub' hstub', hturn]

variable {ca cb : Call}

/-- The game goes on alike: either both panic in it, or the next states differ in the clock only. -/
theorem Lockstep.nextTactical (h : Lockstep a b) (hinputs : ca.inputs = cb.inputs) :
    nextTactical checks b.initialOwnerCount cb.inputs b.tactical =
      (nextTactical checks a.initialOwnerCount ca.inputs a.tactical).map
        (·.withHlc b.tactical.hlc) := by
  have hgame : RtsSession.nextTactical checks a.initialOwnerCount ca.inputs _ = _ :=
    nextTactical_withHlc a.tactical b.tactical.hlc a.initialOwnerCount ca.inputs
  rw [← h.game, ← h.owners] at hgame
  rw [← hinputs, hgame, h.owners]

theorem Lockstep.step (h : Lockstep a b) (hinputs : ca.inputs = cb.inputs) {ha hb : Hash}
    (hstepA : a.advanceFrame checks ca = some (ha, a'))
    (hstepB : b.advanceFrame checks cb = some (hb, b')) : ha = hb ∧ Lockstep a' b' := by
  have hwinner := h.sameGame.winner
  cases hfrozen : a.tactical.winner with
  | some w =>
    rw [advanceFrame_frozen (by rw [hfrozen]; rfl)] at hstepA
    rw [advanceFrame_frozen (by rw [← hwinner, hfrozen]; rfl)] at hstepB
    cases hstepA
    cases hstepB
    refine ⟨?_, h⟩
    rw [h.game]
    rfl
  | none =>
    have hadvA := advanced_of_eq_some hfrozen hstepA
    have hadvB := advanced_of_eq_some (hwinner ▸ hfrozen) hstepB
    have hnext : RtsSession.nextTactical checks _ _ _ = _ := h.nextTactical hinputs
    rw [hadvA.tactical, hadvB.tactical, Option.map_some, Option.some.injEq] at hnext
    have hhash : ha = hb := by
      rw [hadvA.hash, hadvB.hash, hnext]
      rfl
    refine ⟨hhash, ?_, ?_, ⟨hadvA.bridge, hadvB.bridge⟩, fun stub hstub stub' hstub' => ?_⟩
    · rw [hnext]
      rfl
    · rw [hadvA.owners, hadvB.owners, h.owners]
    · obtain ⟨old, hold, hframe, -⟩ := (advanceIfAny_eq_some hadvA.ggrs).2 stub hstub
      obtain ⟨old', hold', hframe', -⟩ := (advanceIfAny_eq_some hadvB.ggrs).2 stub' hstub'
      obtain ⟨g, hg, rfl⟩ := Option.map_eq_some_iff.mp hold
      obtain ⟨g', hg', rfl⟩ := Option.map_eq_some_iff.mp hold'
      rw [hframe, hframe']
      exact congrArg (· + 1) (h.frames g hg g' hg')

theorem isSome_ggrs_step {s s' : RtsSession} {call : Call} {hash : Hash}
    (hstep : s.advanceFrame checks call = some (hash, s')) : s'.ggrs.isSome = s.ggrs.isSome := by
  rcases advanceFrame_cases hstep with ⟨-, -, rfl⟩ | ⟨-, hadv⟩
  · rfl
  · rw [(advanceIfAny_eq_some hadv.ggrs).1, Option.isSome_map]

/-- There is no overflow check that one of them makes and the other does not. -/
def Alike (checks : Bool) (a b : RtsSession) : Prop :=
  checks = false ∨ a.ggrs.isSome = b.ggrs.isSome

theorem Alike.step (h : Alike checks a b) {ha hb : Hash}
    (hstepA : a.advanceFrame checks ca = some (ha, a'))
    (hstepB : b.advanceFrame checks cb = some (hb, b')) : Alike checks a' b' := by
  rw [Alike, isSome_ggrs_step hstepA, isSome_ggrs_step hstepB]
  exact h

/-- Both return, or neither. -/
theorem Lockstep.isSome_step (h : Lockstep a b) (halike : Alike checks a b)
    (hinputs : ca.inputs = cb.inputs) :
    (a.advanceFrame checks ca).isSome = (b.advanceFrame checks cb).isSome := by
  have hwinner := h.sameGame.winner
  cases hfrozen : a.tactical.winner with
  | some w =>
    rw [advanceFrame_frozen (by rw [hfrozen]; rfl),
      advanceFrame_frozen (by rw [← hwinner, hfrozen]; rfl)]
    rfl
  | none =>
    rw [isSome_advanceFrame hfrozen (.inl h.bridge.1),
      isSome_advanceFrame (hwinner ▸ hfrozen) (.inl h.bridge.2), h.nextTactical hinputs,
        Option.isSome_map]
    congr 1
    rcases halike with rfl | hggrs
    · rw [isSome_advanceIfAny_unchecked, isSome_advanceIfAny_unchecked]
    · have hsame : a.ggrs.map GgrsStub.currentFrame = b.ggrs.map GgrsStub.currentFrame := by
        have hframes := h.frames
        revert hggrs hframes
        generalize a.ggrs = ga
        generalize b.ggrs = gb
        intro hggrs hframes
        cases ga <;> cases gb <;> simp_all
      rw [isSome_advanceIfAny, isSome_advanceIfAny, Option.map_map, Option.map_map]
      exact congrArg (Option.all _) hsame

variable {fa fb : List Call}

/-- As long as both run, they return the same hashes and have the same winner. -/
theorem Lockstep.run (h : Lockstep a b) (hinputs : fa.map Call.inputs = fb.map Call.inputs)
    {ra rb : List (Hash × Option UInt32)} (hrunA : a.run checks fa = some (ra, a'))
    (hrunB : b.run checks fb = some (rb, b')) : ra = rb ∧ Lockstep a' b' := by
  induction fa generalizing a b fb ra rb with
  | nil =>
    rw [List.map_nil, eq_comm, List.map_eq_nil_iff] at hinputs
    subst hinputs
    cases hrunA
    cases hrunB
    exact ⟨rfl, h⟩
  | cons ca fa ih =>
    cases fb with
    | nil => cases hinputs
    | cons cb fb =>
      rw [List.map_cons, List.map_cons, List.cons.injEq] at hinputs
      obtain ⟨ha, midA, restA, hstepA, hrestA, rfl⟩ := run_cons_eq_some.mp hrunA
      obtain ⟨hb, midB, restB, hstepB, hrestB, rfl⟩ := run_cons_eq_some.mp hrunB
      obtain ⟨rfl, hmid⟩ := h.step hinputs.1 hstepA hstepB
      obtain ⟨rfl, hlast⟩ := ih hmid hinputs.2 hrestA hrestB
      rw [hmid.sameGame.winner]
      exact ⟨rfl, hlast⟩

theorem Lockstep.isSome_run (h : Lockstep a b) (halike : Alike checks a b)
    (hinputs : fa.map Call.inputs = fb.map Call.inputs) :
    (a.run checks fa).isSome = (b.run checks fb).isSome := by
  induction fa generalizing a b fb with
  | nil =>
    rw [List.map_nil, eq_comm, List.map_eq_nil_iff] at hinputs
    subst hinputs
    rfl
  | cons ca fa ih =>
    cases fb with
    | nil => cases hinputs
    | cons cb fb =>
      rw [List.map_cons, List.map_cons, List.cons.injEq] at hinputs
      have hstep := h.isSome_step halike hinputs.1
      unfold RtsSession.run
      cases hstepA : a.advanceFrame checks ca with
      | none =>
        rw [hstepA] at hstep
        rw [Option.isNone_iff_eq_none.mp (Option.isSome_eq_false_iff.mp hstep.symm)]
        rfl
      | some pa =>
        rw [hstepA] at hstep
        obtain ⟨pb, hstepB⟩ := Option.isSome_iff_exists.mp hstep.symm
        have hmid := (h.step hinputs.1 hstepA hstepB).2
        have hrest := ih hmid (halike.step hstepA hstepB) hinputs.2
        rw [hstepB]
        simp only [Option.bind_eq_bind, Option.bind_some]
        cases hra : pa.2.run checks fa with
        | none =>
          rw [hra] at hrest
          rw [Option.isNone_iff_eq_none.mp (Option.isSome_eq_false_iff.mp hrest.symm)]
          rfl
        | some ra =>
          rw [hra] at hrest
          obtain ⟨rb, hrb⟩ := Option.isSome_iff_exists.mp hrest.symm
          rw [hrb]
          rfl

theorem isSome_step_unchecked {s : RtsSession} (hbridge : s.bridge.Open) (call : Call) :
    (s.advanceFrame false call).isSome := by
  cases hwinner : s.tactical.winner with
  | some w =>
    rw [advanceFrame_frozen (by rw [hwinner]; rfl)]
    rfl
  | none =>
    rw [isSome_advanceFrame hwinner hbridge, isSome_nextTactical_unchecked,
      isSome_advanceIfAny_unchecked]
    rfl

/-- The bridge stays open. -/
theorem open_step {s s' : RtsSession} {call : Call} {hash : Hash} (hbridge : s.bridge.Open)
    (hstep : s.advanceFrame checks call = some (hash, s')) : s'.bridge.Open := by
  rcases advanceFrame_cases hstep with ⟨-, -, rfl⟩ | ⟨-, hadv⟩
  · exact hbridge
  · exact .inl hadv.bridge

/-- Without overflow checks a session that has begun goes on for ever. -/
theorem isSome_run_unchecked {s : RtsSession} (hbridge : s.bridge.Open) (calls : List Call) :
    (s.run false calls).isSome := by
  induction calls generalizing s with
  | nil => rfl
  | cons call calls ih =>
    obtain ⟨⟨hash, s'⟩, hs'⟩ := Option.isSome_iff_exists.mp (isSome_step_unchecked hbridge call)
    obtain ⟨⟨rest, last⟩, hrest⟩ := Option.isSome_iff_exists.mp (ih (open_step hbridge hs'))
    have hrun := run_cons_eq_some.mpr ⟨hash, s', rest, hs', hrest, rfl⟩
    rw [hrun]
    rfl

/-- Once two sessions that began with the same units have hashed the same bytes, they are in the
same state of the game, and the same inputs give the same hashes and the same winner at every later
frame: in any build as far as both run, in a build without overflow checks for ever, and in one with
them as long as either runs, if both have a stub or neither. -/
theorem equal_bytes_same_game (units : List UnitTactical) (hunits : units.length < 2 ^ 32)
    (setupA setupB : Setup) (bytes : Bytes) (ha : Hashed checks units setupA bytes a)
    (hb : Hashed checks units setupB bytes b) :
    SameGame a b ∧ ∀ fa fb : List Call, fa.map Call.inputs = fb.map Call.inputs →
      (checks = false → (a.run checks fa).isSome ∧ (b.run checks fb).isSome) ∧
      (checks = false ∨ setupA.withGgrs = setupB.withGgrs →
        (a.run checks fa).map (·.1) = (b.run checks fb).map (·.1)) ∧
      ∀ ra rb a' b', a.run checks fa = some (ra, a') → b.run checks fb = some (rb, b') →
        ra = rb ∧ SameGame a' b' := by
  have hlock := lockstep_of_bytes hunits ha hb
  refine ⟨hlock.sameGame, fun fa fb hinputs => ⟨?_, ?_, ?_⟩⟩
  · rintro rfl
    exact ⟨isSome_run_unchecked (.inl hlock.bridge.1) fa,
      isSome_run_unchecked (.inl hlock.bridge.2) fb⟩
  · intro hcondition
    have halike : Alike checks a b := by
      refine hcondition.imp_right fun hggrs => ?_
      rw [ha.reached.withGgrs, hb.reached.withGgrs, hggrs]
    have hsome := hlock.isSome_run halike hinputs
    cases hra : a.run checks fa with
    | none =>
      rw [hra] at hsome
      rw [Option.isNone_iff_eq_none.mp (Option.isSome_eq_false_iff.mp hsome.symm)]
    | some pa =>
      rw [hra] at hsome
      obtain ⟨pb, hrb⟩ := Option.isSome_iff_exists.mp hsome.symm
      rw [hrb, Option.map_some, Option.map_some, (hlock.run hinputs hra hrb).1]
  · intro ra rb a' b' hra hrb
    obtain ⟨heq, hlast⟩ := hlock.run hinputs hra hrb
    exact ⟨heq, hlast.sameGame⟩

end Two

end RtsSession

namespace Demo

open RtsSession

/-- The first bytes stand for the hash. -/
@[reducible] def plainBlake3 : Blake3 where
  hash bytes := ⟨(bytes ++ List.replicate 32 0).take 32, by simp⟩

attribute [local instance] plainBlake3

def soldier (unitId owner : UInt32) (x : Int32) : UnitTactical :=
  ⟨unitId, owner, ⟨x⟩, ⟨0⟩, 10, 10, 0, 0, ⟨1000⟩, 10, 3, 0⟩

/-- Two players, one unit each. -/
def army : List UnitTactical := [soldier 1 1 0, soldier 2 2 500]

def setupOf (now : UInt64) (nodeId : UInt32) : Setup := ⟨now, nodeId, 4, 4, true⟩

/-- A step to the side, at this time of the clock. -/
def sidestep (now : UInt64) : Call := ⟨now, [⟨[0x01, 0, 1, 0, 0, 0, 0, 5, 0, 0, 0]⟩]⟩

/-- The first unit strikes the second, which dies. -/
def blow (now : UInt64) : Call := ⟨now, [⟨[0x02, 0, 1, 0, 2]⟩]⟩

def afterFirst (now : UInt64) (nodeId : UInt32) : RtsSession :=
  (((RtsSession.new (setupOf now nodeId) army).advanceFrame true (sidestep now)).map (·.2)).getD
    (RtsSession.new (setupOf now nodeId) army)

def firstBytes (now : UInt64) (nodeId : UInt32) : Bytes :=
  frameBytes 0 (TacticalHashView.mk (afterFirst now nodeId).tactical)

theorem hashed_first (now : UInt64) (nodeId : UInt32)
    (h : ((RtsSession.new (setupOf now nodeId) army).advanceFrame true (sidestep now)).isSome) :
    Hashed true army (setupOf now nodeId) (firstBytes now nodeId) (afterFirst now nodeId) := by
  obtain ⟨⟨hash, s'⟩, hs'⟩ := Option.isSome_iff_exists.mp h
  have hafter : afterFirst now nodeId = s' := by
    rw [afterFirst, hs']
    rfl
  rw [firstBytes, hafter]
  exact ⟨[], [], _, sidestep now, hash, rfl, rfl, hs', rfl⟩

/-- Two nodes with different clocks: the same bytes in the first frame, and then the same game. -/
theorem equal_bytes_army : SameGame (afterFirst 100 1) (afterFirst 170 2) ∧
    ((afterFirst 100 1).run true [blow 200, blow 300]).map (·.1) =
      ((afterFirst 170 2).run true [blow 205, blow 310]).map (·.1) := by
  have hbytes : firstBytes 170 2 = firstBytes 100 1 := by decide +kernel
  have ha := hashed_first 100 1 (by decide +kernel)
  have hb := hashed_first 170 2 (by decide +kernel)
  have hsame :=
    equal_bytes_same_game army (by decide) (setupOf 100 1) (setupOf 170 2) (firstBytes 100 1)
    ha (hbytes ▸ hb)
  exact ⟨hsame.1, (hsame.2 [blow 200, blow 300] [blow 205, blow 310] rfl).2.1 (.inr rfl)⟩

end Demo

end P2P333.Platform333.Apps
