import P2P333.Platform333.Apps.Lockstep

/-!
# Rollback

The snapshots that the stub of `333-platform/src/apps/rts_session.rs` keeps: one before each frame,
in eight slots. Frames are counted in `u32`, and the length of the units is written as `u32`.

Results:
1. `Kept.save`: the slots hold the last eight states.
2. `rollback_exact`: what a slot gives back, and what is computed again from it.
-/

namespace P2P333.Platform333.Apps

open Std Lib Platform333.Determinism

/-! ## The slots -/

/-- What the stub keeps after the frames that began in the states `T`: the last eight of them. -/
structure Kept [Blake3] (T : List TacticalState) (g : GgrsStub) : Prop where
  frame : g.currentFrame = UInt32.ofNat T.length
  size : g.saveSlots.size = min 8 T.length
  slots : ∀ (k : UInt32) cell, g.saveSlots[k]? = some cell ↔ T.length ≤ k.toNat + 8 ∧
    ∃ t, T[k.toNat]? = some t ∧ cell = ⟨detSerialize t, Blake3.hash (detSerialize t), k⟩

section Slots

variable [Blake3] {T : List TacticalState} {g : GgrsStub}

theorem kept_new : Kept [] GgrsStub.new where
  frame := rfl
  size := rfl
  slots := by simp [GgrsStub.new]

/-- The slot that leaves is that of the first frame in the window. -/
theorem Kept.getElem?_makeRoom (h : Kept T g) (hlen : T.length < 2 ^ 32) (k : UInt32)
    (cell : GgrsSaveCell) : (GgrsStub.makeRoom g.saveSlots)[k]? = some cell ↔
      T.length + 1 ≤ k.toNat + 8 ∧ g.saveSlots[k]? = some cell := by
  unfold GgrsStub.makeRoom
  rw [h.size]
  by_cases hfull : 8 ≤ T.length
  · have htoNat : (UInt32.ofNat (T.length - 8)).toNat = T.length - 8 := toNat_length (by omega)
    obtain ⟨t, ht⟩ : ∃ t, T[T.length - 8]? = some t :=
      ⟨_, List.getElem?_eq_getElem (by omega)⟩
    have hmin : g.saveSlots.minKey? = some (UInt32.ofNat (T.length - 8)) := by
      rw [ExtTreeMap.minKey?_eq_some_iff_mem_and_forall]
      constructor
      · have hslot := (h.slots (UInt32.ofNat (T.length - 8)) _).mpr
          ⟨by omega, t, by rw [htoNat, ht], rfl⟩
        exact ExtTreeMap.mem_iff_isSome_getElem?.mpr (by rw [hslot]; rfl)
      · intro k' hk'
        obtain ⟨cell', hcell'⟩ := Option.isSome_iff_exists.mp
          (ExtTreeMap.mem_iff_isSome_getElem?.mp hk')
        have hwindow := ((h.slots k' cell').mp hcell').1
        have hle : UInt32.ofNat (T.length - 8) ≤ k' := by
          rw [UInt32.le_iff_toNat_le, htoNat]
          omega
        exact Std.isLE_compare.mpr hle
    rw [if_pos (show min 8 T.length ≥ GgrsStub.maxSaveSlots by
      rw [Nat.min_eq_left hfull]; exact Nat.le_refl 8), hmin]
    simp only [ExtTreeMap.getElem?_erase]
    by_cases hk : UInt32.ofNat (T.length - 8) = k
    · subst hk
      simp only [ReflCmp.compare_self, if_true, reduceCtorEq, false_iff, htoNat]
      omega
    · rw [if_neg (by simpa using hk)]
      refine ⟨fun hcell => ⟨?_, hcell⟩, And.right⟩
      have hwindow := ((h.slots k cell).mp hcell).1
      have hne : k.toNat ≠ T.length - 8 :=
        fun heq => hk (UInt32.toNat_inj.mp (htoNat.trans heq.symm))
      omega
  · rw [if_neg (show ¬ min 8 T.length ≥ GgrsStub.maxSaveSlots by
      rw [Nat.min_eq_right (Nat.le_of_not_le hfull)]; exact hfull)]
    refine (and_iff_right ?_).symm
    omega

theorem Kept.size_makeRoom (h : Kept T g) (hlen : T.length < 2 ^ 32) :
    (GgrsStub.makeRoom g.saveSlots).size = min 7 T.length := by
  unfold GgrsStub.makeRoom
  rw [h.size]
  by_cases hfull : 8 ≤ T.length
  · rw [if_pos (show min 8 T.length ≥ GgrsStub.maxSaveSlots by
      rw [Nat.min_eq_left hfull]; exact Nat.le_refl 8)]
    have hne : g.saveSlots ≠ ∅ := by
      intro hempty
      have hsize := h.size
      rw [hempty, ExtTreeMap.size_empty] at hsize
      omega
    obtain ⟨oldest, holdest⟩ := Option.isSome_iff_exists.mp
      (ExtTreeMap.isSome_minKey?_iff_ne_empty.mpr hne)
    simp only [holdest]
    rw [ExtTreeMap.size_erase, if_pos (ExtTreeMap.mem_iff_contains.mp
      (ExtTreeMap.minKey?_mem holdest)), h.size]
    omega
  · rw [if_neg (show ¬ min 8 T.length ≥ GgrsStub.maxSaveSlots by
      rw [Nat.min_eq_right (Nat.le_of_not_le hfull)]; exact hfull), h.size]
    omega

/-- The state before one more frame is kept, and the stub has counted the frame. -/
theorem Kept.save (h : Kept T g) (hlen : T.length < 2 ^ 32) (t : TacticalState) {g' : GgrsStub}
    (hframe : g'.currentFrame = g.currentFrame + 1)
    (hslots : g'.saveSlots = (g.saveState (detSerialize t)).saveSlots) : Kept (T ++ [t]) g' := by
  have hkey : g.currentFrame.toNat = T.length := by
    rw [h.frame]
    exact toNat_length hlen
  have hroom := h.getElem?_makeRoom hlen
  constructor
  · rw [hframe, h.frame, List.length_append, List.length_singleton, UInt32.ofNat_add]
    rfl
  · have hfresh : g.currentFrame ∉ GgrsStub.makeRoom g.saveSlots := by
      rw [ExtTreeMap.mem_iff_isSome_getElem?, Option.not_isSome_iff_eq_none]
      cases hcell : (GgrsStub.makeRoom g.saveSlots)[g.currentFrame]? with
      | none => rfl
      | some cell =>
        obtain ⟨t', ht', -⟩ := ((h.slots _ _).mp ((hroom _ _).mp hcell).2).2
        rw [hkey, List.getElem?_eq_none (Nat.le_refl _)] at ht'
        cases ht'
    rw [hslots, GgrsStub.saveState, ExtTreeMap.size_insert,
      if_neg fun hc => hfresh (ExtTreeMap.mem_iff_contains.mpr hc), h.size_makeRoom hlen,
      List.length_append, List.length_singleton]
    omega
  · intro k cell
    rw [hslots, GgrsStub.saveState, ExtTreeMap.getElem?_insert, List.length_append,
      List.length_singleton]
    by_cases hk : g.currentFrame = k
    · subst hk
      rw [if_pos ReflCmp.compare_self, hkey, List.getElem?_concat_length, Option.some.injEq]
      constructor
      · rintro rfl
        exact ⟨by omega, t, rfl, rfl⟩
      · rintro ⟨-, t', ht', rfl⟩
        cases ht'
        rfl
    · have hne : k.toNat ≠ T.length := fun heq => hk (UInt32.toNat_inj.mp (hkey.trans heq.symm))
      rw [if_neg (by simpa using hk), hroom, h.slots]
      have hsame : (T ++ [t])[k.toNat]? = T[k.toNat]? := by
        by_cases hlt : k.toNat < T.length
        · exact List.getElem?_append_left hlt
        · have hlong : (T ++ [t]).length ≤ k.toNat := by
            rw [List.length_append, List.length_singleton]
            omega
          rw [List.getElem?_eq_none hlong, List.getElem?_eq_none (Nat.le_of_not_lt hlt)]
      rw [hsame]
      constructor
      · rintro ⟨hwindow, -, hcell⟩
        exact ⟨hwindow, hcell⟩
      · rintro ⟨hwindow, hcell⟩
        exact ⟨hwindow, by omega, hcell⟩

/-- What a slot gives back. -/
theorem Kept.loadTacticalState (h : Kept T g) (hfits : ∀ t ∈ T, t.Fits) (f : UInt32) :
    g.loadTacticalState f = if f.toNat + 8 < T.length then none else T[f.toNat]? := by
  unfold GgrsStub.loadTacticalState
  cases hcell : g.saveSlots[f]? with
  | none =>
    split_ifs with hold
    · rfl
    · cases ht : T[f.toNat]? with
      | none => rfl
      | some t =>
        have hslot := (h.slots f _).mpr ⟨Nat.le_of_not_lt hold, t, ht, rfl⟩
        rw [hcell] at hslot
        cases hslot
  | some cell =>
    obtain ⟨hwindow, t, ht, rfl⟩ := (h.slots f cell).mp hcell
    have hread := reads_tactical t [] (hfits t (List.mem_of_getElem? ht))
    rw [List.append_nil] at hread
    rw [if_neg (Nat.not_lt.mpr hwindow), ht]
    simp only [Option.bind_eq_bind, Option.bind_some, ne_eq, not_true_eq_false, if_false, hread]

end Slots

/-! ## Runs -/

namespace RtsSession

section Runs

variable [Blake3] {checks : Bool} {units : List UnitTactical} {setup : Setup} {s s' : RtsSession}
  {call : Call} {calls : List Call} {rs : List (Hash × Option UInt32)}

/-- The states just before the frames that the calls advance. A frozen session advances none. -/
def trace (checks : Bool) (s : RtsSession) : List Call → List TacticalState
  | [] => []
  | call :: calls =>
    if s.tactical.winner.isSome then []
    else s.tactical :: match s.advanceFrame checks call with
      | some (_, s') => s'.trace checks calls
      | none => []

theorem run_concat_eq_some : s.run checks (calls ++ [call]) = some (rs, s') ↔
    ∃ done mid hash, s.run checks calls = some (done, mid) ∧
      mid.advanceFrame checks call = some (hash, s') ∧ rs = done ++
        [(hash, s'.tactical.winner)] := by
  induction calls generalizing s rs with
  | nil =>
    rw [List.nil_append, run_cons_eq_some]
    constructor
    · rintro ⟨hash, mid, rest, hstep, hrest, rfl⟩
      cases hrest
      exact ⟨[], s, hash, rfl, hstep, rfl⟩
    · rintro ⟨done, mid, hash, hdone, hstep, rfl⟩
      cases hdone
      exact ⟨hash, s', [], hstep, rfl, rfl⟩
  | cons first calls ih =>
    rw [List.cons_append, run_cons_eq_some]
    constructor
    · rintro ⟨hash, mid, rest, hstep, hrest, rfl⟩
      obtain ⟨done, mid', hash', hdone, hlast, rfl⟩ := ih.mp hrest
      exact ⟨_, mid', hash', run_cons_eq_some.mpr ⟨hash, mid, done, hstep, hdone, rfl⟩, hlast, rfl⟩
    · rintro ⟨done, mid', hash', hdone, hlast, rfl⟩
      obtain ⟨hash, mid, rest, hstep, hrest, rfl⟩ := run_cons_eq_some.mp hdone
      exact ⟨hash, mid, _, hstep, ih.mpr ⟨rest, mid', hash', hrest, hlast, rfl⟩, rfl⟩

theorem run_frozen (hfrozen : s.tactical.winner.isSome)
    (hrun : s.run checks calls = some (rs, s')) :
    s' = s := by
  induction calls generalizing rs with
  | nil =>
    cases hrun
    rfl
  | cons call calls ih =>
    obtain ⟨hash, mid, rest, hstep, hrest, -⟩ := run_cons_eq_some.mp hrun
    rw [advanceFrame_frozen hfrozen] at hstep
    cases hstep
    exact ih hrest

theorem trace_concat (hrun : s.run checks calls = some (rs, s')) :
    s.trace checks (calls ++ [call]) =
      s.trace checks calls ++ if s'.tactical.winner.isSome then [] else [s'.tactical] := by
  induction calls generalizing s rs with
  | nil =>
    cases hrun
    rw [List.nil_append, trace, trace]
    cases s'.advanceFrame checks call <;> rfl
  | cons first calls ih =>
    obtain ⟨hash, mid, rest, hstep, hrest, -⟩ := run_cons_eq_some.mp hrun
    rw [List.cons_append, trace, trace]
    by_cases hfrozen : s.tactical.winner.isSome
    · rw [if_pos hfrozen, if_pos hfrozen, run_frozen hfrozen hrun, if_pos hfrozen]
      rfl
    · rw [if_neg hfrozen, if_neg hfrozen, hstep, List.cons_append, ← ih hrest]

/-- Any session from the units: the slots hold the last states of its trace. -/
theorem kept_run (hggrs : setup.withGgrs = true)
    (hrun : (new setup units).run checks calls = some (rs, s))
    (hframes : ((new setup units).trace checks calls).length ≤ 2 ^ 32) :
    (∃ g, s.ggrs = some g ∧ Kept ((new setup units).trace checks calls) g) ∧
      ∀ t ∈ (new setup units).trace checks calls, t.Small units.length := by
  induction calls using List.reverseRecOn generalizing rs s with
  | nil =>
    cases hrun
    refine ⟨⟨GgrsStub.new, ?_, kept_new⟩, nofun⟩
    simp only [new, hggrs, if_true]
  | append_singleton calls call ih =>
    obtain ⟨done, mid, hash, hdone, hstep, rfl⟩ := run_concat_eq_some.mp hrun
    rw [trace_concat hdone] at hframes ⊢
    have hmid := reached_new.run hdone
    rcases advanceFrame_cases hstep with ⟨hfrozen, -, rfl⟩ | ⟨hwinner, hadv⟩
    · simp only [hfrozen, if_true, List.append_nil] at hframes ⊢
      exact ih hdone hframes
    · simp only [hwinner, Option.isSome_none, Bool.false_eq_true, if_false] at hframes ⊢
      rw [List.length_append, List.length_singleton] at hframes
      obtain ⟨⟨g, hg, hkept⟩, hsmall⟩ := ih hdone (Nat.le_of_succ_le hframes)
      have hadv := hadv.ggrs
      rw [hg, Option.map_some] at hadv
      obtain ⟨hsome, hstub⟩ := advanceIfAny_eq_some hadv
      obtain ⟨g', hg'⟩ := Option.isSome_iff_exists.mp hsome
      obtain ⟨old, hold, hframe, hslots⟩ := hstub g' hg'
      cases hold
      refine ⟨⟨g', hg', hkept.save hframes mid.tactical hframe hslots⟩, fun t ht => ?_⟩
      rcases List.mem_append.mp ht with ht | ht
      · exact hsmall t ht
      · rw [List.mem_singleton.mp ht]
        exact hmid.small

/-! ## Again from a state -/

/-- The stub of the session can count `k` more frames. -/
def Room (checks : Bool) (r : RtsSession) (k : Nat) : Prop :=
  checks = true → ∀ g ∈ r.ggrs, g.currentFrame.toNat + k < 2 ^ 32

theorem Room.isSome_advanceIfAny {r : RtsSession} {k : Nat} (h : r.Room checks (k + 1))
    (data : Bytes) :
    (GgrsStub.advanceIfAny checks (r.ggrs.map fun stub => stub.saveState data)).isSome := by
  rw [Apps.isSome_advanceIfAny, Option.map_map]
  cases hg : r.ggrs with
  | none => rfl
  | some g =>
    have hno : ¬ (checks = true ∧ g.currentFrame.toNat + 1 = 2 ^ 32) := by
      rintro ⟨hchecks, hlast⟩
      have hroom := h hchecks g hg
      omega
    simp only [Option.map_some, Function.comp_apply, Option.all_some, succU32]
    exact congrArg Option.isSome (if_neg hno)

theorem Room.step {r r' : RtsSession} {k : Nat} {hash : Hash} (h : r.Room checks (k + 1))
    (hstep : r.advanceFrame checks call = some (hash, r')) : r'.Room checks k := by
  intro hchecks g hg
  rcases advanceFrame_cases hstep with ⟨-, -, rfl⟩ | ⟨-, hadv⟩
  · have hroom := h hchecks g hg
    omega
  · obtain ⟨old, hold, hframe, -⟩ := (advanceIfAny_eq_some hadv.ggrs).2 g hg
    obtain ⟨first, hfirst, rfl⟩ := Option.map_eq_some_iff.mp hold
    have hroom := h hchecks first hfirst
    rw [hframe, UInt32.toNat_add]
    change (first.currentFrame.toNat + 1) % 2 ^ 32 + k < 2 ^ 32
    omega

/-- The same inputs from the same state give the same hashes, in any session of the game. -/
theorem replay {r last : RtsSession} {again : List Call}
    (hrun : s.run checks calls = some (rs, last))
    (hinputs : again.map Call.inputs = calls.map Call.inputs)
    (htactical : r.tactical = s.tactical) (howners : r.initialOwnerCount = s.initialOwnerCount)
    (hopen : r.bridge.Open) (hroom : r.Room checks calls.length) :
    ∃ last', r.run checks again = some (rs, last') := by
  induction calls generalizing s r rs again with
  | nil =>
    cases hrun
    obtain rfl := List.map_eq_nil_iff.mp hinputs
    exact ⟨r, rfl⟩
  | cons call calls ih =>
    obtain ⟨hash, mid, rest, hstep, hrest, rfl⟩ := run_cons_eq_some.mp hrun
    obtain ⟨call', again, rfl, hcall, hinputs⟩ := List.map_eq_cons_iff.mp hinputs
    have hagain : ∃ r', r.advanceFrame checks call' = some (hash, r') ∧ r'.tactical = mid.tactical ∧
        r'.initialOwnerCount = mid.initialOwnerCount := by
      rcases advanceFrame_cases hstep with ⟨hfrozen, rfl, rfl⟩ | ⟨hwinner, hadv⟩
      · refine ⟨r, ?_, htactical, howners⟩
        rw [advanceFrame_frozen (htactical ▸ hfrozen), htactical]
      · have hactive : r.tactical.winner = none := by rw [htactical, hwinner]
        have hnext := hadv.tactical
        rw [← htactical, ← howners, ← hcall] at hnext
        have hsome : (r.advanceFrame checks call').isSome = _ := isSome_advanceFrame hactive hopen
        rw [hnext, hroom.isSome_advanceIfAny] at hsome
        obtain ⟨⟨hash', r'⟩, hr'⟩ := Option.isSome_iff_exists.mp hsome
        have hadv' := advanced_of_eq_some hactive hr'
        have hsame : r'.tactical = mid.tactical :=
          Option.some.inj (hadv'.tactical.symm.trans hnext)
        have hhash : hash' = hash := by rw [hadv.hash, hadv'.hash, hsame]
        exact ⟨r', hhash ▸ hr', hsame, by rw [hadv.owners, hadv'.owners, howners]⟩
    obtain ⟨r', hr', htactical', howners'⟩ := hagain
    obtain ⟨last', hlast'⟩ :=
      ih hrest hinputs htactical' howners' (open_step hopen hr') (hroom.step hr')
    exact ⟨last', run_cons_eq_some.mpr ⟨hash, r', rest, hr', hlast', by rw [htactical']⟩⟩

/-- The session before frame `f`, and what it did from there. -/
theorem trace_split {f : Nat} {t : TacticalState} (hrun : s.run checks calls = some (rs, s'))
    (ht : (s.trace checks calls)[f]? = some t) :
    ∃ mid : RtsSession, mid.tactical = t ∧ mid.initialOwnerCount = s.initialOwnerCount ∧
      mid.run checks (calls.drop f) = some (rs.drop f, s') := by
  induction calls generalizing s rs f with
  | nil => cases ht
  | cons call calls ih =>
    obtain ⟨hash, next, rest, hstep, hrest, rfl⟩ := run_cons_eq_some.mp hrun
    rw [trace] at ht
    by_cases hfrozen : s.tactical.winner.isSome
    · rw [if_pos hfrozen] at ht
      cases ht
    · rw [if_neg hfrozen, hstep] at ht
      cases f with
      | zero =>
        cases ht
        exact ⟨s, rfl, rfl, hrun⟩
      | succ f =>
        obtain ⟨mid, hmid, howners, hfrom⟩ := ih hrest ht
        refine ⟨mid, hmid, howners.trans ?_, hfrom⟩
        exact (advanced_of_eq_some (Option.not_isSome_iff_eq_none.mp hfrozen) hstep).owners

/-- With fewer than `2 ^ 32` units and no more than `2 ^ 32` frames, the slots give back exactly the
states just before the last eight frames, and nothing of older ones; and the same inputs from such a
state give the same hashes again. -/
theorem rollback_exact (checks : Bool) (units : List UnitTactical) (hunits : units.length < 2 ^ 32)
    (setup : Setup) (hggrs : setup.withGgrs = true) (calls : List Call)
    (rs : List (Hash × Option UInt32)) (s : RtsSession)
    (hrun : (new setup units).run checks calls = some (rs, s))
    (hframes : ((new setup units).trace checks calls).length ≤ 2 ^ 32) :
    let T := (new setup units).trace checks calls
    ∃ g, s.ggrs = some g ∧
      (∀ f : UInt32, g.loadTacticalState f =
        if f.toNat + 8 < T.length then none else T[f.toNat]?) ∧
      ∀ f t, T[f]? = some t → ∀ r : RtsSession, r.tactical = t →
        r.initialOwnerCount = s.initialOwnerCount → r.bridge.Open →
        r.Room checks (calls.length - f) → ∀ again : List Call,
          again.map Call.inputs = (calls.drop f).map Call.inputs →
            ∃ last, r.run checks again = some (rs.drop f, last) := by
  obtain ⟨⟨g, hg, hkept⟩, hsmall⟩ := kept_run hggrs hrun hframes
  refine ⟨g, hg, hkept.loadTacticalState fun t ht => (hsmall t ht).fits hunits, ?_⟩
  intro f t ht r htactical howners hopen hroom again hinputs
  obtain ⟨mid, rfl, hmid, hfrom⟩ := trace_split hrun ht
  rw [← List.length_drop] at hroom
  refine replay hfrom hinputs htactical ?_ hopen hroom
  rw [howners, hmid, (reached_new.run hrun).owners]
  rfl

end Runs

end RtsSession

namespace Demo

open RtsSession

attribute [local instance] plainBlake3

def skirmish : List Call := [sidestep 200, blow 300]

/-- The first of the two frames is kept, the third has not begun, and both can be played again from
the state before the first, in a session of another node. -/
theorem rollback_skirmish : ∃ rs s g,
    (RtsSession.new (setupOf 100 1) army).run true skirmish = some (rs, s) ∧ s.ggrs = some g ∧
    g.loadTacticalState 0 = some (RtsSession.new (setupOf 100 1) army).tactical ∧
    g.loadTacticalState 2 = none ∧
    ∃ last, { RtsSession.new (setupOf 150 2) army with
      tactical := (RtsSession.new (setupOf 100 1) army).tactical }.run true skirmish =
        some (rs, last) := by
  have hsome : ((RtsSession.new (setupOf 100 1) army).run true skirmish).isSome := by decide +kernel
  obtain ⟨⟨rs, s⟩, hrun⟩ := Option.isSome_iff_exists.mp hsome
  have hlen : ((RtsSession.new (setupOf 100 1) army).trace true skirmish).length = 2 := by
    decide +kernel
  have hfirst : ((RtsSession.new (setupOf 100 1) army).trace true skirmish)[0]? =
      some (RtsSession.new (setupOf 100 1) army).tactical := rfl
  obtain ⟨g, hg, hload, hagain⟩ := rollback_exact true army (by decide) (setupOf 100 1) rfl skirmish
    rs s hrun (by rw [hlen]; decide)
  have howners := (reached_new.run hrun).owners
  refine ⟨rs, s, g, hrun, hg, ?_, ?_, ?_⟩
  · rw [hload, if_neg (by rw [hlen]; decide)]
    exact hfirst
  · rw [hload, if_neg (by rw [hlen]; decide)]
    exact List.getElem?_eq_none (by rw [hlen]; decide)
  · refine hagain 0 _ hfirst _ ?_ ?_ (.inr (by decide)) (fun _ stub hstub => ?_) skirmish rfl
    · rfl
    · exact howners.symm
    · cases hstub
      decide

/-! ### More units than `u32` can count -/

/-- A unit whose bytes are all zero. -/
def nobody : UnitTactical := ⟨0, 0, ⟨0⟩, ⟨0⟩, 0, 0, 0, 0, ⟨0⟩, 0, 0, 0⟩

theorem bytes_nobodies (n : Nat) :
    (List.replicate n nobody).flatMap detSerialize = List.replicate (n * 43) (0 : UInt8) := by
  induction n with
  | zero => rfl
  | succ n ih =>
    rw [List.replicate_succ, List.flatMap_cons, ih, Nat.succ_mul, Nat.add_comm,
      ← List.replicate_append_replicate]
    rfl

/-- Before the first frame, as the session sees it and as its bytes are read. -/
def crowded (n : Nat) : TacticalState :=
  (RtsSession.new (setupOf 100 1) (List.replicate n nobody)).tactical

/-- A length that wraps to zero is that of no units, and the bytes of the units are left over. -/
theorem bytes_crowded {n : Nat} (hn : UInt32.ofNat n = 0) :
    detSerialize (crowded n) = detSerialize (crowded 0) ++ List.replicate (n * 43) (0 : UInt8) := by
  have htail : ∃ k, detSerialize (∅ : OrdMap UInt32 UInt32) ++
      (detSerialize (∅ : OrdMap UInt32 UInt64) ++ (detSerialize (.replicate 32 0 : Hash) ++
        (serializeSet (∅ : OrdSet UInt32) ++ serializeWinner none))) =
          List.replicate k (0 : UInt8) := ⟨45, by decide +kernel⟩
  obtain ⟨k, hk⟩ := htail
  have hunits : detSerialize (List.replicate n nobody) =
      detSerialize ([] : List UnitTactical) ++ List.replicate (n * 43) (0 : UInt8) := by
    change detSerialize (UInt32.ofNat (List.replicate n nobody).length) ++ _ = _
    rw [List.length_replicate, hn, bytes_nobodies]
    rfl
  rw [detSerialize, instDeterministicSerializeTacticalState]
  simp only [crowded, RtsSession.new, hunits, hk, List.append_assoc,
    List.replicate_append_replicate,
    List.replicate_zero, Nat.add_comm]

theorem loadTacticalState_crowded {n : Nat} (hn : UInt32.ofNat (n + 1) = 0) {g : GgrsStub}
    (hslots : g.saveSlots = (GgrsStub.new.saveState (detSerialize (crowded (n + 1)))).saveSlots) :
    g.loadTacticalState 0 = none := by
  have hread := reads_tactical (crowded 0) (List.replicate ((n + 1) * 43) 0) (by
    constructor <;> decide +kernel)
  rw [GgrsStub.loadTacticalState, hslots, GgrsStub.saveState, GgrsStub.new,
    ExtTreeMap.getElem?_insert, if_pos ReflCmp.compare_self]
  simp only [Option.bind_eq_bind, Option.bind_some, ne_eq, not_true_eq_false, if_false]
  rw [bytes_crowded hn, hread, Nat.succ_mul, Nat.add_comm, ← List.replicate_append_replicate]
  rfl

/-- One frame of a session with `2 ^ 32` units: the state before it is not given back. -/
theorem crowd_lost : ∃ rs s g,
    (RtsSession.new (setupOf 100 1) (List.replicate (2 ^ 32) nobody)).run false [⟨200, []⟩] =
      some (rs, s) ∧ s.ggrs = some g ∧
    (RtsSession.new (setupOf 100 1) (List.replicate (2 ^ 32) nobody)).trace false [⟨200, []⟩] =
      [crowded (2 ^ 32)] ∧
    g.loadTacticalState 0 = none := by
  have hpow : 2 ^ 32 = 4294967295 + 1 := by norm_num
  rw [hpow]
  generalize hm : 4294967295 = m
  have hwrap : UInt32.ofNat (m + 1) = 0 := by
    rw [← hm]
    decide
  have hopen : (RtsSession.new (setupOf 100 1) (List.replicate (m + 1) nobody)).bridge.Open :=
    .inr (show 0 < 4 by decide)
  obtain ⟨⟨hash, s⟩, hstep⟩ := Option.isSome_iff_exists.mp
    (isSome_step_unchecked hopen ⟨200, []⟩)
  have hstub := advanceIfAny_eq_some (advanced_of_eq_some rfl hstep).ggrs
  obtain ⟨g, hg⟩ := Option.isSome_iff_exists.mp hstub.1
  obtain ⟨old, hold, -, hslots⟩ := hstub.2 g hg
  cases hold
  refine ⟨_, s, g, run_cons_eq_some.mpr ⟨hash, s, [], hstep, rfl, rfl⟩, hg, ?_,
    loadTacticalState_crowded hwrap hslots⟩
  have hactive : ¬ (RtsSession.new (setupOf 100 1)
      (List.replicate (m + 1) nobody)).tactical.winner.isSome := Bool.false_ne_true
  rw [trace, if_neg hactive, hstep]
  rfl

end Demo

end P2P333.Platform333.Apps
