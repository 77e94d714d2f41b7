import P2P333.Substrate.Ltdd.Receipt

/-!
# The replay receipt

`substrate/crates/replay/src/lib.rs`: a game state is mixed with one input after the other, and the
receipt says whether several replays of the same inputs end in the same state. A replay that is not
deterministic also reads the number of its run.

Results:
1. `step_left_injective`, `step_right_injective`: a step loses nothing of the state, and nothing of
   the input.
2. `replay_one_input`: one wrong input always shows at the end.
3. `recordReplays_exact`: the receipt finds every run that was not deterministic.
-/

namespace P2P333.Substrate

open Function

/-- The golden ratio, in 64 bits. -/
def phi : BitVec 64 := 0x9E3779B97F4A7C15

def step (state : BitVec 64) (input : UInt8) : BitVec 64 :=
  let s := state ^^^ (BitVec.ofNat 64 input.toNat * phi)
  s.rotateLeft 7 + 0x12345678

def replay (seed : BitVec 64) (inputs : List UInt8) (run : BitVec 64) (nondeterministic : Bool) :
    BitVec 64 :=
  let s := if nondeterministic then seed ^^^ run else seed
  inputs.foldl step s

theorem distinct_determinism : ["replay_result", "replay_diverged", "deterministic"].Nodup := by
  decide

def determinism : Receipt (BitVec 64) (BitVec 64) where
  final := "replay_result"
  diverged := "replay_diverged"
  agreed := "deterministic"
  finalAttrs run hash := [("run", num ⟨run⟩), ("hash", num ⟨hash⟩)]
  divergedAttrs run hash expected :=
    [("run", num ⟨run⟩), ("hash", num ⟨hash⟩), ("expected", num ⟨expected⟩)]
  distinct := distinct_determinism

/-- The state at the end of every run. -/
def hashes (seed : BitVec 64) (inputs : List UInt8) (runs : BitVec 64) (nondeterministic : Bool) :
    List (BitVec 64 × BitVec 64) :=
  (List.range runs.toNat).map fun r =>
    (BitVec.ofNat 64 r, replay seed inputs (BitVec.ofNat 64 r) nondeterministic)

def recordReplays (cid : String) (seed : BitVec 64) (inputs : List UInt8) (runs : BitVec 64)
    (nondeterministic : Bool) : Bool × List (List Event) :=
  determinism.record cid 0 [("runs", num ⟨runs⟩)] (hashes seed inputs runs nondeterministic)

/-! ## Steps -/

theorem rotateLeft_injective {w r : Nat} (hr : r < w) :
    Injective fun x : BitVec w => x.rotateLeft r := by
  intro x y h
  refine BitVec.eq_of_getLsbD_eq fun i hi => ?_
  have hbit (j : Nat) : (x.rotateLeft r).getLsbD j = (y.rotateLeft r).getLsbD j :=
    congrArg (fun z => BitVec.getLsbD z j) h
  rcases Nat.lt_or_ge i (w - r) with hlow | hhigh
  · -- The bit has moved up by `r`.
    have hmoved := hbit (i + r)
    rw [BitVec.getLsbD_rotateLeft_of_le hr, BitVec.getLsbD_rotateLeft_of_le hr] at hmoved
    simpa [Nat.lt_sub_iff_add_lt.mp hlow] using hmoved
  · -- The bit is one of the top `r`, which come around to the bottom.
    have hmoved := hbit (i - (w - r))
    have hlt : i - (w - r) < r := by omega
    rw [BitVec.getLsbD_rotateLeft_of_le hr, BitVec.getLsbD_rotateLeft_of_le hr] at hmoved
    simpa [hlt, Nat.add_sub_cancel' hhigh] using hmoved

theorem step_left_injective (input : UInt8) : Injective fun s => step s input := by
  intro s t h
  have hrotated := rotateLeft_injective (by decide : 7 < 64) (add_right_cancel h)
  exact (BitVec.xor_left_inj _).mp hrotated

/-- The factor is odd, so it has an inverse. -/
def phiInv : BitVec 64 := 0xF1DE83E19937733D

theorem mul_phi_injective : Injective fun x : BitVec 64 => x * phi := by
  intro x y h
  have hinv : phi * phiInv = 1 := by decide
  calc x = x * phi * phiInv := by rw [mul_assoc, hinv, mul_one]
    _ = y * phi * phiInv := congrArg (· * _) h
    _ = y := by rw [mul_assoc, hinv, mul_one]

theorem step_right_injective (state : BitVec 64) : Injective fun i => step state i := by
  intro i j h
  have hrotated := rotateLeft_injective (by decide : 7 < 64) (add_right_cancel h)
  have hinput : BitVec.ofNat 64 i.toNat = BitVec.ofNat 64 j.toNat :=
    mul_phi_injective ((BitVec.xor_right_inj _).mp hrotated)
  have hsmall (k : UInt8) : k.toNat < 2 ^ 64 := Nat.lt_of_lt_of_le k.toNat_lt (by decide)
  refine UInt8.toNat_inj.mp ?_
  have := congrArg BitVec.toNat hinput
  rwa [BitVec.toNat_ofNat, BitVec.toNat_ofNat, Nat.mod_eq_of_lt (hsmall i),
    Nat.mod_eq_of_lt (hsmall j)] at this

theorem foldl_step_injective (inputs : List UInt8) :
    Injective fun s => inputs.foldl step s := by
  induction inputs with
  | nil => exact injective_id
  | cons i inputs ih => exact ih.comp (step_left_injective i)

/-- Two replays from one seed whose inputs differ in one place end in different states, whatever
came before and comes after. -/
theorem replay_one_input (seed run : BitVec 64) (nondeterministic : Bool)
    (before after : List UInt8) (i j : UInt8) :
    replay seed (before ++ i :: after) run nondeterministic =
      replay seed (before ++ j :: after) run nondeterministic ↔ i = j := by
  refine ⟨fun h => ?_, fun h => by rw [h]⟩
  unfold replay at h
  simp only [List.foldl_append, List.foldl_cons] at h
  exact step_right_injective _ (foldl_step_injective after h)

theorem replay_run (seed : BitVec 64) (inputs : List UInt8) (r r' : BitVec 64)
    (nondeterministic : Bool) :
    replay seed inputs r nondeterministic = replay seed inputs r' nondeterministic ↔
      nondeterministic = false ∨ r = r' := by
  cases nondeterministic with
  | false => simp [replay]
  | true =>
    refine ⟨fun h => .inr ?_, fun h => ?_⟩
    · exact (BitVec.xor_right_inj _).mp (foldl_step_injective inputs h)
    · rcases h with h | rfl
      · cases h
      · rfl

/-! ## The receipt -/

theorem ofNat_range_injective {n : BitVec 64} {r r' : Nat} (hr : r < n.toNat) (hr' : r' < n.toNat)
    (h : BitVec.ofNat 64 r = BitVec.ofNat 64 r') : r = r' := by
  have := congrArg BitVec.toNat h
  rwa [BitVec.toNat_ofNat, BitVec.toNat_ofNat, Nat.mod_eq_of_lt (hr.trans n.isLt),
    Nat.mod_eq_of_lt (hr'.trans n.isLt)] at this

theorem canonicalState_hashes {seed : BitVec 64} {inputs : List UInt8} {runs : BitVec 64}
    {nondeterministic : Bool} (hruns : 0 < runs.toNat) :
    canonicalState 0 (hashes seed inputs runs nondeterministic) =
      replay seed inputs 0 nondeterministic := by
  obtain ⟨n, hn⟩ := Nat.exists_eq_add_one.mpr hruns
  rw [hashes, hn, List.range_succ_eq_map]
  rfl

/-- All runs but the first one differ from it, if they read their number. -/
theorem differing_hashes (seed : BitVec 64) (inputs : List UInt8) (runs : BitVec 64)
    (nondeterministic : Bool) :
    differing (canonicalState 0 (hashes seed inputs runs nondeterministic))
        (hashes seed inputs runs nondeterministic) =
      if nondeterministic then runs.toNat - 1 else 0 := by
  rcases Nat.eq_zero_or_pos runs.toNat with hzero | hpos
  · simp [hashes, hzero, differing]
  rw [canonicalState_hashes hpos, differing, hashes, List.countP_map]
  have hrun (r : Nat) (hr : r ∈ List.range runs.toNat) :
      (decide (replay seed inputs (BitVec.ofNat 64 r) nondeterministic ≠
        replay seed inputs 0 nondeterministic) = true ↔
          (nondeterministic && decide (r ≠ 0)) = true) := by
    have hinj : BitVec.ofNat 64 r = 0 ↔ r = 0 :=
      ⟨ofNat_range_injective (List.mem_range.mp hr) hpos, fun h => by rw [h]; rfl⟩
    rw [decide_eq_true_iff, ne_eq, replay_run, hinj]
    cases nondeterministic <;> simp
  refine (List.countP_congr hrun).trans ?_
  cases nondeterministic with
  | false => simp
  | true =>
    obtain ⟨n, hn⟩ := Nat.exists_eq_add_one.mpr hpos
    rw [hn, List.range_succ_eq_map, List.countP_cons, List.countP_map]
    simp [Function.comp_def]

/-- The receipt says that the replays agree if and only if they are deterministic or there are fewer
than two of them. Otherwise a store that can be asked and keeps what it is given has an offender for
every run but the first one, and none in the other case. -/
theorem recordReplays_exact {cid : String} (store : MemoryStore) (hfresh : store.query cid = [])
    (seed : BitVec 64) (inputs : List UInt8) (runs : BitVec 64) (nondeterministic : Bool) :
    let r := recordReplays cid seed inputs runs nondeterministic
    let after := store.shipAll r.2
    (r.1 = true ↔ nondeterministic = false ∨ runs.toNat ≤ 1) ∧
      (verifyPresent after cid "deterministic" 1 = .present ↔
        store.unreachable = false ∧ store.drop = false ∧ r.1 = true) ∧
      ∀ n, verifyPresent after cid "replay_diverged" n = .present ↔ store.unreachable = false ∧
        n ≤ if store.drop || !nondeterministic then 0 else runs.toNat - 1 := by
  obtain ⟨hok, hpresent, -, hcount⟩ := determinism.record_exact store hfresh 0
    [("runs", num ⟨runs⟩)] (hashes seed inputs runs nondeterministic)
  refine ⟨?_, hpresent, fun n => ?_⟩
  · refine hok.trans ?_
    rw [← differing_canonicalState 0, differing_hashes]
    cases nondeterministic <;> simp [Nat.sub_eq_zero_iff_le]
  · refine (hcount n).trans ?_
    rw [differing_hashes]
    cases store.drop <;> cases nondeterministic <;> simp

theorem recordReplays_exact_four :
    verifyPresent ((⟨[], false, false⟩ : MemoryStore).shipAll
      (recordReplays "match-2" 0xABCD [1, 2, 3] 4 true).2) "match-2" "replay_diverged" 3 =
        .present :=
  ((recordReplays_exact ⟨[], false, false⟩ rfl _ _ _ _).2.2 3).mpr (by decide)

end P2P333.Substrate
