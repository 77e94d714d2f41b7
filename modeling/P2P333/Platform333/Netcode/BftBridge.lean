import P2P333.Platform333.Bft.State
import P2P333.Platform333.Netcode.Divergence

/-!
# The checkpoint provider

`333-platform/src/netcode/bft_bridge.rs`: how `HotStuffCheckpointProvider` writes a checkpoint as a
transaction, and how it checks the certificate of a peer. The handle that the certificate comes for
is not looked at, nor is who is a validator.

Results:
1. `certificates_vouch`: what stands behind a certificate that is taken, and behind the rollback
   floor.
2. `vouched_iff`: when the signatures of a certificate vouch for a checkpoint.
3. `checkpoints_vouched_iff`: which certificates, if they are taken, vouch for the frame and the
   hash that they come with, and runs in which only such ones come.
-/

namespace P2P333.Platform333.Netcode

open Std Lib Platform333.Bft Platform333.Determinism

structure CheckpointHandle where
  frameN : UInt64
  tacticalHash : Hash
deriving DecidableEq

namespace HotStuffCheckpointProvider

def encodeHandle (nodeId : NodeId) (handle : CheckpointHandle) : OrderedTx :=
  .rankedAction nodeId 0xC0DE1000 (leBytes 8 handle.frameN.toNat ++ handle.tacticalHash.toList)

section Checks

variable [Ed25519]

/-- The handle is not looked at. -/
def verifyCheckpointQc (state : HotStuffState) (_handle : CheckpointHandle)
    (qc : QuorumCert) : Bool :=
  if qc.signatures.isEmpty then false
  else if !qc.hasQuorum state.validators.n then false
  else if qc.phase ≠ .commit then false
  else qc.signatures.all fun sig => verifyVote sig qc.blockHash qc.phase state.keyring

theorem backed_of_verifyCheckpointQc {signed : NodeId → Bytes → Prop} {state : HotStuffState}
    {handle : CheckpointHandle} {qc : QuorumCert} (hunforged : Unforged signed state.keyring qc)
    (h : verifyCheckpointQc state handle qc = true) :
    Backed signed state.keyring state.validators qc.blockHash := by
  unfold verifyCheckpointQc at h
  split_ifs at h with hempty hquorum hphase
  exact backed_of_checks hunforged (by simpa using hquorum) (not_not.mp hphase)
    (List.all_eq_true.mp h)

end Checks

end HotStuffCheckpointProvider

open FrameDivergenceDetector HotStuffCheckpointProvider

/-- The block has the checkpoint among its transactions, and its own hash. -/
def Carries (block : Block) (handle : CheckpointHandle) : Prop :=
  block.hash = block.expectedHash ∧ ∃ nodeId, encodeHandle nodeId handle ∈ block.transactions

/-- A quorum of validators has signed a `Commit` vote for a block that carries the checkpoint, among
the blocks that there are. -/
def Vouched (signed : NodeId → Bytes → Prop) (blocks : Block → Prop) (vs : ValidatorSet)
    (handle : CheckpointHandle) : Prop :=
  ∃ S ⊆ vs.members, vs.quorumSize ≤ S.card ∧ ∀ id ∈ S, ∃ block, blocks block ∧
    Carries block handle ∧ signed id (voteBytes block.hash .commit)

/-- What is checked of a certificate: the number of its signers, the phase and the signatures. -/
structure Checked [Ed25519] (keyring : ValidatorKeyring) (vs : ValidatorSet) (qc : QuorumCert) :
    Prop where
  quorum : qc.hasQuorum vs.n = true
  phase : qc.phase = .commit
  signatures : ∀ sig ∈ qc.signatures, verifyVote sig qc.blockHash qc.phase keyring = true

/-- What is not checked: enough of the signers are validators, and the block hash is that of a block
that carries the checkpoint. -/
structure Fits (blocks : Block → Prop) (vs : ValidatorSet) (handle : CheckpointHandle)
    (qc : QuorumCert) : Prop where
  members : vs.quorumSize ≤ (vs.members ∩ qc.signers).card
  carried : ∃ block, blocks block ∧ Carries block handle ∧ block.hash = qc.blockHash

/-- A checkpoint comes to a detector with this floor: it is below the floor, or its certificate does
not stand for the beginning, and fits if it passes the checks. -/
def SoundCheckpoint [Ed25519] (blocks : Block → Prop) (keyring : ValidatorKeyring)
    (vs : ValidatorSet) (floor : UInt64) (handle : CheckpointHandle) (qc : QuorumCert) : Prop :=
  handle.frameN < floor ∨ (¬ IsGenesis qc ∧ (Checked keyring vs qc → Fits blocks vs handle qc))

/-- If signatures are not forged, then a certificate that is taken, and that does not stand for the
beginning, is that of a quorum of key holders who have signed a `Commit` vote for the block hash
that it names. In no run does the floor go down, and what it is at last has come with such a
certificate or with one for the beginning. -/
theorem certificates_vouch [Ed25519] (signed : NodeId → Bytes → Prop) (keyring : ValidatorKeyring)
    (vs : ValidatorSet) :
    (∀ (d : FrameDivergenceDetector) frameN hash qc, d.Uses keyring vs →
      Unforged signed keyring qc →
      ¬ IsGenesis qc → (d.acceptBftCheckpoint frameN hash qc).1 = .ok () →
        Backed signed keyring vs qc.blockHash) ∧
    (∀ (state : HotStuffState) handle qc, state.keyring = keyring → state.validators = vs →
      Unforged signed keyring qc → verifyCheckpointQc state handle qc = true →
        Backed signed keyring vs qc.blockHash) ∧
    ∀ (retention : Nat) (calls : List Call),
      (∀ frameN hash qc, .accept frameN hash qc ∈ calls → Unforged signed keyring qc) →
      let start := created retention (some (keyring, vs))
      (∀ done rest, calls = done ++ rest →
        (start.run done).1.bftFloor ≤ (start.run calls).1.bftFloor) ∧
        ((start.run calls).1.bftFloor ≠ 0 → FloorBacked signed keyring vs calls
          (start.run calls).1) := by
  refine ⟨?_, ?_, ?_⟩
  · intro d frameN hash qc huses hunforged hgenesis hok
    rcases d.accept_cases frameN hash qc with ⟨hrefused, -⟩ | ⟨hverify, -⟩
    · exact absurd hok hrefused
    · exact (backed_of_verify huses hunforged hverify).resolve_left hgenesis
  · rintro state handle qc rfl rfl hunforged hverify
    exact backed_of_verifyCheckpointQc hunforged hverify
  · intro retention calls hunforged
    have huses : (created retention (some (keyring, vs))).Uses keyring vs := ⟨rfl, rfl⟩
    constructor
    · rintro done rest rfl
      have hmid := (floor_run huses fun frameN hash qc hmem =>
        hunforged frameN hash qc (List.mem_append_left rest hmem)).1
      have hrest := (floor_run hmid fun frameN hash qc hmem =>
        hunforged frameN hash qc (List.mem_append_right done hmem)).2.1
      rwa [← run_append] at hrest
    · intro hfloor
      obtain ⟨-, -, ⟨hsame, -⟩ | hbacked⟩ := floor_run huses hunforged
      · exact absurd hsame hfloor
      · exact hbacked

section Vouching

variable [Ed25519] {blocks : Block → Prop} {keyring : ValidatorKeyring} {vs : ValidatorSet}
  {handle : CheckpointHandle} {qc : QuorumCert}

theorem Checked.ne_nil (h : Checked keyring vs qc) : qc.signatures ≠ [] := by
  intro hnil
  have hquorum := ValidatorSet.hasQuorum_iff.mp h.quorum
  rw [QuorumCert.signers, hnil] at hquorum
  exact absurd hquorum (Nat.not_succ_le_zero _)

theorem checks_iff {b : Bool} (hb : b = !qc.hasQuorum vs.n) :
    (if qc.signatures.isEmpty then false
      else if b then false
      else if qc.phase ≠ .commit then false
      else qc.signatures.all fun sig => verifyVote sig qc.blockHash qc.phase keyring) = true ↔
        Checked keyring vs qc := by
  subst hb
  constructor
  · intro h
    split_ifs at h with hempty hquorum hphase
    exact ⟨by simpa using hquorum, not_not.mp hphase, List.all_eq_true.mp h⟩
  · intro h
    rw [if_neg (by simpa using h.ne_nil), if_neg (by simpa using h.quorum),
      if_neg (not_not.mpr h.phase)]
    exact List.all_eq_true.mpr h.signatures

theorem verifyCheckpointQc_iff {state : HotStuffState} : verifyCheckpointQc state handle qc = true ↔
    Checked state.keyring state.validators qc := checks_iff rfl

theorem verifyBftSignature_iff {d : FrameDivergenceDetector} (huses : d.Uses keyring vs)
    {frameN : UInt64} {hash : Hash} :
    d.verifyBftSignature frameN hash qc = true ↔ IsGenesis qc ∨ Checked keyring vs qc := by
  unfold verifyBftSignature
  rw [huses.1, huses.2]
  by_cases hgenesis : IsGenesis qc
  · rw [if_pos hgenesis]
    exact iff_of_true rfl (.inl hgenesis)
  · rw [if_neg hgenesis, or_iff_right hgenesis]
    exact checks_iff rfl

theorem accept_ok_iff {d : FrameDivergenceDetector} {frameN : UInt64} {hash : Hash} :
    (d.acceptBftCheckpoint frameN hash qc).1 = .ok () ↔
      d.verifyBftSignature frameN hash qc = true ∧ ¬ frameN < d.bftFloor := by
  unfold acceptBftCheckpoint
  split_ifs with hverify hfloor
  · exact iff_of_false nofun fun h => by simp [h.1] at hverify
  · exact iff_of_false nofun fun h => h.2 hfloor
  · exact iff_of_true rfl ⟨by simpa using hverify, hfloor⟩

omit [Ed25519] in
/-- Nobody vouches for anything where no vote was signed. -/
theorem Vouched.exists_signed {signed : NodeId → Bytes → Prop}
    (h : Vouched signed blocks vs handle) : ∃ id bytes, signed id bytes := by
  obtain ⟨S, -, hcard, hsigned⟩ := h
  obtain ⟨id, hid⟩ := Finset.card_pos.mp ((Nat.succ_pos _).trans_le hcard)
  obtain ⟨block, -, -, hvote⟩ := hsigned id hid
  exact ⟨id, _, hvote⟩

/-- A certificate that passes the checks vouches for a checkpoint, whoever has signed what besides,
exactly if it fits. -/
theorem vouched_iff (hchecked : Checked keyring vs qc) :
    (∀ signed, Unforged signed keyring qc → Vouched signed blocks vs handle) ↔
      Fits blocks vs handle qc := by
  constructor
  · intro hall
    -- No votes are signed but those in the certificate.
    obtain ⟨S, hS, hcard, hsigned⟩ := hall
      (fun id bytes => id ∈ qc.signers ∧ bytes = voteBytes qc.blockHash .commit)
      fun sig hsig _ => ⟨QuorumCert.mem_signers.mpr ⟨sig, hsig, rfl⟩, by rw [hchecked.phase]⟩
    have hsub : S ⊆ vs.members ∩ qc.signers := fun id hid => by
      obtain ⟨-, -, -, hsigner, -⟩ := hsigned id hid
      exact Finset.mem_inter.mpr ⟨hS hid, hsigner⟩
    obtain ⟨id, hid⟩ := Finset.card_pos.mp ((Nat.succ_pos _).trans_le hcard)
    obtain ⟨block, hblock, hcarries, -, hbytes⟩ := hsigned id hid
    exact ⟨hcard.trans (Finset.card_le_card hsub), block, hblock, hcarries,
      (voteBytes_inj hbytes).1⟩
  · rintro ⟨hmembers, block, hblock, hcarries, hhash⟩ signed hunforged
    refine ⟨_, Finset.inter_subset_left, hmembers, fun id hid => ⟨block, hblock, hcarries, ?_⟩⟩
    obtain ⟨sig, hsig, rfl⟩ := QuorumCert.mem_signers.mp (Finset.mem_inter.mp hid).2
    rw [hhash, ← hchecked.phase]
    exact hunforged sig hsig (hchecked.signatures sig hsig)

/-- What a detector takes is vouched for, whoever has signed what, exactly if it is sound. -/
theorem accept_vouched_iff {d : FrameDivergenceDetector} (huses : d.Uses keyring vs)
    (frameN : UInt64) (hash : Hash) :
    (∀ signed, Unforged signed keyring qc → (d.acceptBftCheckpoint frameN hash qc).1 = .ok () →
      Vouched signed blocks vs ⟨frameN, hash⟩) ↔
        SoundCheckpoint blocks keyring vs d.bftFloor ⟨frameN, hash⟩ qc := by
  simp only [accept_ok_iff, verifyBftSignature_iff huses]
  by_cases hfloor : frameN < d.bftFloor
  · exact iff_of_true (fun _ _ h => absurd hfloor h.2) (.inl hfloor)
  · rw [SoundCheckpoint, or_iff_right hfloor]
    constructor
    · intro hall
      refine ⟨fun hgenesis => ?_, fun hchecked => (vouched_iff hchecked).mp fun signed hunforged =>
        hall signed hunforged ⟨.inr hchecked, hfloor⟩⟩
      -- Nobody has signed anything for the beginning.
      obtain ⟨_, _, hsigned⟩ := (hall (fun _ _ => False)
        (fun sig hsig => by rw [hgenesis.2.2] at hsig; cases hsig)
        ⟨.inl hgenesis, hfloor⟩).exists_signed
      exact hsigned
    · rintro ⟨hgenesis, hfits⟩ signed hunforged ⟨hverified, -⟩
      have hchecked := hverified.resolve_left hgenesis
      exact (vouched_iff hchecked).mpr (hfits hchecked) signed hunforged

/-- Certificates that are taken vouch for the frame and the hash that they come with exactly if they
fit, as far as they pass the checks: in a detector, where the beginning never fits, and in the
provider. In every run in which only sound checkpoints come the floor never goes down, and it only
rises to checkpoints that a quorum of validators has voted for. -/
theorem checkpoints_vouched_iff (blocks : Block → Prop) (keyring : ValidatorKeyring)
    (vs : ValidatorSet) :
    (∀ (d : FrameDivergenceDetector) frameN hash qc, d.Uses keyring vs →
      ((∀ signed, Unforged signed keyring qc → (d.acceptBftCheckpoint frameN hash qc).1 = .ok () →
        Vouched signed blocks vs ⟨frameN, hash⟩) ↔
          SoundCheckpoint blocks keyring vs d.bftFloor ⟨frameN, hash⟩ qc)) ∧
    (∀ (state : HotStuffState) handle qc, state.keyring = keyring → state.validators = vs →
      ((∀ signed, Unforged signed keyring qc → verifyCheckpointQc state handle qc = true →
        Vouched signed blocks vs handle) ↔
          (Checked keyring vs qc → Fits blocks vs handle qc))) ∧
    ∀ (signed : NodeId → Bytes → Prop) (retention : Nat) (calls : List Call),
      (∀ frameN hash qc, .accept frameN hash qc ∈ calls → Unforged signed keyring qc) →
      let start := created retention (some (keyring, vs))
      (∀ done frameN hash qc, done ++ [.accept frameN hash qc] <+: calls →
        SoundCheckpoint blocks keyring vs (start.run done).1.bftFloor ⟨frameN, hash⟩ qc) →
      ∀ done, done <+: calls → (start.run done).1.bftFloor ≤ (start.run calls).1.bftFloor ∧
        ((start.run done).1.bftFloor = 0 ∧ (start.run done).1.bftFloorHash = .replicate 32 0 ∨
          Vouched signed blocks vs
            ⟨(start.run done).1.bftFloor, (start.run done).1.bftFloorHash⟩) := by
  refine ⟨fun d frameN hash qc huses => accept_vouched_iff huses frameN hash, ?_, ?_⟩
  · rintro state handle qc rfl rfl
    simp only [verifyCheckpointQc_iff]
    exact ⟨fun hall hchecked => (vouched_iff hchecked).mp fun signed hunforged =>
      hall signed hunforged hchecked, fun hfits signed hunforged hchecked =>
      (vouched_iff hchecked).mpr (hfits hchecked) signed hunforged⟩
  · intro signed retention calls hunforged start hsound done hdone
    have huses : start.Uses keyring vs := ⟨rfl, rfl⟩
    refine ⟨?_, ?_⟩
    · obtain ⟨rest, rfl⟩ := hdone
      exact ((certificates_vouch signed keyring vs).2.2 retention _ hunforged).1 done rest rfl
    · induction done using List.reverseRecOn with
      | nil => exact .inl ⟨rfl, rfl⟩
      | append_singleton done c ih =>
        have hbefore := ih ((List.prefix_append done [c]).trans hdone)
        have hanything : ∀ frameN hash qc, .accept frameN hash qc ∈ done →
            Unforged (fun _ _ => True) keyring qc := fun _ _ _ _ _ _ _ => trivial
        have huses' : (start.run done).1.Uses keyring vs := (floor_run huses hanything).1
        rw [run_concat]
        rcases floor_step (start.run done).1 c with ⟨hsame, hhash⟩ | ⟨qc, hc, hrise, hverify⟩
        · rw [hsame, hhash]
          exact hbefore
        · have hmem : c ∈ calls :=
            hdone.subset (List.mem_append_right done (List.mem_singleton_self c))
          have hnext := hsound done _ _ qc (hc ▸ hdone)
          exact .inr ((accept_vouched_iff huses' _ _).mpr hnext signed
            (hunforged _ _ qc (hc ▸ hmem)) (accept_ok_iff.mpr ⟨hverify, UInt64.not_lt.mpr hrise⟩))

end Vouching

namespace Demo

open Bft.Demo

attribute [local instance] Bft.Demo.plainEd25519

/-- Nodes 5 to 7 have keys and are no validators. -/
def keyring : ValidatorKeyring :=
  [1, 2, 3, 4, 5, 6, 7].foldl (fun k id => k.registerIdentity id (identity id)) .new

/-- A block with the checkpoint of frame 10. -/
def checkpoint : Block :=
  let block : Block := ⟨0, 1, 0, [encodeHandle 1 ⟨10, own⟩], .genesis, 1⟩
  { block with hash := block.expectedHash }

/-- A `Commit` certificate for this block. -/
def commitQc (ids : List NodeId) : QuorumCert :=
  ⟨checkpoint.hash, 1, .commit,
    ids.map fun id => signVote id checkpoint.hash .commit (identity id) (.replicate 16 0)⟩

/-- These nodes, and no others, have signed the vote. -/
def SignedBy (ids : List NodeId) (id : NodeId) (bytes : Bytes) : Prop :=
  id ∈ ids ∧ bytes = voteBytes checkpoint.hash .commit

instance (ids : List NodeId) (id : NodeId) (bytes : Bytes) : Decidable (SignedBy ids id bytes) :=
  inferInstanceAs (Decidable (_ ∧ _))

instance (ids : List NodeId) (qc : QuorumCert) : Decidable (Unforged (SignedBy ids) keyring qc) :=
  inferInstanceAs (Decidable (∀ sig ∈ qc.signatures, _ → _))

def detector : FrameDivergenceDetector := created 32 (some (keyring, validators))

theorem checkpoint_carries : Carries checkpoint ⟨10, own⟩ :=
  ⟨by decide +kernel, 1, List.mem_singleton_self _⟩

theorem checkpoints_vouched_iff_commit :
    Vouched (SignedBy [1, 2, 3]) (fun b => b = checkpoint) validators ⟨10, own⟩ := by
  have hsound : SoundCheckpoint (fun b => b = checkpoint) keyring validators 0 ⟨10, own⟩
      (commitQc [1, 2, 3]) :=
    .inr ⟨by decide +kernel, fun _ =>
      ⟨by decide +kernel, checkpoint, rfl, checkpoint_carries, by decide +kernel⟩⟩
  exact ((checkpoints_vouched_iff (fun b => b = checkpoint) keyring validators).1 detector 10 own
    (commitQc [1, 2, 3]) ⟨rfl, rfl⟩).mpr hsound _ (by decide +kernel) (by decide +kernel)

def state : HotStuffState :=
  { HotStuffState.withIdentity 1 validators (identity 1) 0 with keyring := keyring }

/-- A certificate of validators and one of strangers, which is taken for any frame and hash. -/
theorem commitQc_taken {ids : List NodeId} (h : ids = [1, 2, 3] ∨ ids = [5, 6, 7])
    (frameN : UInt64) (hash : Hash) :
    (detector.acceptBftCheckpoint frameN hash (commitQc ids)).1 = .ok () ∧
      verifyCheckpointQc state ⟨frameN, hash⟩ (commitQc ids) = true := by
  have hchecked : verifyCheckpointQc state ⟨0, own⟩ (commitQc ids) = true := by
    rcases h with rfl | rfl <;> decide +kernel
  refine ⟨accept_ok_iff.mpr ⟨(verifyBftSignature_iff ⟨rfl, rfl⟩).mpr
    (.inr (verifyCheckpointQc_iff.mp hchecked)), UInt64.not_lt.mpr UInt64.zero_le⟩, hchecked⟩

/-- The certificate for the beginning is taken for frame 1000, one that only strangers have signed
for any frame, and one of validators for another frame than that of their block. -/
theorem unvouched_taken :
    (Unforged (SignedBy []) keyring .genesis ∧
      (detector.acceptBftCheckpoint 1000 own .genesis).1 = .ok () ∧
      ¬ Vouched (SignedBy []) (fun _ => True) validators ⟨1000, own⟩) ∧
    (Unforged (SignedBy [5, 6, 7]) keyring (commitQc [5, 6, 7]) ∧
      ∀ frameN hash, (detector.acceptBftCheckpoint frameN hash (commitQc [5, 6, 7])).1 = .ok () ∧
        verifyCheckpointQc state ⟨frameN, hash⟩ (commitQc [5, 6, 7]) = true ∧
        ¬ Vouched (SignedBy [5, 6, 7]) (fun _ => True) validators ⟨frameN, hash⟩) ∧
    Unforged (SignedBy [1, 2, 3]) keyring (commitQc [1, 2, 3]) ∧
      (detector.acceptBftCheckpoint 1000 other (commitQc [1, 2, 3])).1 = .ok () ∧
      verifyCheckpointQc state ⟨1000, other⟩ (commitQc [1, 2, 3]) = true ∧
      ¬ Vouched (SignedBy [1, 2, 3]) (fun b => b = checkpoint) validators ⟨1000, other⟩ := by
  refine ⟨⟨by decide +kernel, by decide +kernel, fun h => ?_⟩,
    ⟨by decide +kernel, fun frameN hash => ⟨(commitQc_taken (.inr rfl) frameN hash).1,
      (commitQc_taken (.inr rfl) frameN hash).2, ?_⟩⟩,
    by decide +kernel, (commitQc_taken (.inl rfl) _ _).1, (commitQc_taken (.inl rfl) _ _).2, ?_⟩
  · obtain ⟨_, _, hsigned, -⟩ := h.exists_signed
    cases hsigned
  · rintro ⟨S, hsub, hcard, hsigned⟩
    obtain ⟨id, hid⟩ := Finset.card_pos.mp ((Nat.succ_pos _).trans_le hcard)
    obtain ⟨_, -, -, hstranger, -⟩ := hsigned id hid
    have hmember := hsub hid
    simp only [ValidatorSet.members, validators, List.mem_toFinset, List.mem_cons,
      List.not_mem_nil, or_false] at hmember hstranger
    rcases hmember with rfl | rfl | rfl | rfl <;> simp at hstranger
  · rintro ⟨S, -, hcard, hsigned⟩
    obtain ⟨id, hid⟩ := Finset.card_pos.mp ((Nat.succ_pos _).trans_le hcard)
    obtain ⟨_, rfl, ⟨-, nodeId, hmem⟩, -⟩ := hsigned id hid
    have htx : encodeHandle nodeId ⟨1000, other⟩ = encodeHandle 1 ⟨10, own⟩ :=
      List.mem_singleton.mp hmem
    have hpayload := (OrderedTx.rankedAction.inj htx).2.2
    exact absurd hpayload (by decide +kernel)

end Demo

end P2P333.Platform333.Netcode
