import P2P333.Platform333.Bft.Crypto
import P2P333.Platform333.Determinism.StateHash

/-!
# The divergence detector

`333-platform/src/netcode/divergence.rs`: `FrameDivergenceDetector` compares the hashes of peers
with the own ones (the fast layer) and takes checkpoint certificates that raise the rollback floor
(the slow layer).

A hash of a peer that arrives before the own one is compared with nothing and not kept. Certificates
are not looked at for the frame and the hash that they come with, nor for who is a validator.

Results:
1. `alarms_delivered`: which events are delivered, whatever the order of the calls.
2. `floor_run`: the floor never goes down, and what it rises by.
-/

namespace P2P333.Platform333.Netcode

open Std Lib Platform333.Bft Platform333.Determinism

structure FrameDivergenceDetector where
  inner : DesyncDetector
  /-- The latest checkpoint that a certificate came for, and its hash. -/
  bftFloor : UInt64
  bftFloorHash : Hash
  pendingDesyncs : List DesyncEvent
  keyring : Option ValidatorKeyring
  validatorSet : Option ValidatorSet

/-- A certificate that stands for the beginning: for no block, without signatures. -/
def IsGenesis (qc : QuorumCert) : Prop := qc.blockHash = 0 ∧ qc.view = 0 ∧ qc.signatures = []

instance (qc : QuorumCert) : Decidable (IsGenesis qc) := inferInstanceAs (Decidable (_ ∧ _))

namespace FrameDivergenceDetector

def new (retention : Nat) : FrameDivergenceDetector :=
  ⟨DesyncDetector.new retention, 0, .replicate 32 0, [], none, none⟩

def withKeyring (d : FrameDivergenceDetector) (keyring : ValidatorKeyring) (vs : ValidatorSet) :
    FrameDivergenceDetector :=
  { d with keyring := some keyring, validatorSet := some vs }

/-- A detector before its first call, with keys or without. -/
def created (retention : Nat) : Option (ValidatorKeyring × ValidatorSet) → FrameDivergenceDetector
  | none => new retention
  | some (keyring, vs) => (new retention).withKeyring keyring vs

/-! ## The fast layer -/

def recordLocal (d : FrameDivergenceDetector) (frameN : UInt64) (hash : Hash) :
    FrameDivergenceDetector :=
  { d with inner := d.inner.recordLocal frameN hash }

def observePeer (d : FrameDivergenceDetector) (peerId : UInt32) (frameN : UInt64)
    (peerHash : Hash) : Option DesyncEvent × FrameDivergenceDetector :=
  match d.inner.observePeer peerId frameN peerHash with
  | some ev => (some ev, { d with pendingDesyncs := d.pendingDesyncs ++ [ev] })
  | none => (none, d)

/-- Only the pending events change. -/
theorem observePeer_frame (d : FrameDivergenceDetector) (peerId : UInt32) (frameN : UInt64)
    (peerHash : Hash) :
    ∃ pending, (d.observePeer peerId frameN peerHash).2 = { d with pendingDesyncs := pending } := by
  unfold observePeer
  split
  · exact ⟨_, rfl⟩
  · exact ⟨d.pendingDesyncs, rfl⟩

def drainDesyncs (d : FrameDivergenceDetector) : List DesyncEvent × FrameDivergenceDetector :=
  (d.pendingDesyncs, { d with pendingDesyncs := [] })

/-! ## The slow layer -/

section Checkpoints

variable [Ed25519]

/-- Frame and hash are not looked at. -/
def verifyBftSignature (d : FrameDivergenceDetector) (_frameN : UInt64) (_tacticalHash : Hash)
    (qc : QuorumCert) : Bool :=
  if IsGenesis qc then true
  else
    match d.keyring with
    | none => false
    | some keyring =>
      if qc.signatures.isEmpty then false
      else if d.validatorSet.any fun vs => !qc.hasQuorum vs.n then false
      else if qc.phase ≠ .commit then false
      else qc.signatures.all fun sig => verifyVote sig qc.blockHash qc.phase keyring

def acceptBftCheckpoint (d : FrameDivergenceDetector) (frameN : UInt64) (tacticalHash : Hash)
    (qc : QuorumCert) : Except String Unit × FrameDivergenceDetector :=
  if !d.verifyBftSignature frameN tacticalHash qc then
    (.error ("BFT QC verification failed for frame " ++ toString frameN ++
      " — Byzantine node suspected"), d)
  else if frameN < d.bftFloor then
    (.error ("checkpoint frame " ++ toString frameN ++ " is older than current BFT floor " ++
      toString d.bftFloor), d)
  else (.ok (), { d with bftFloor := frameN, bftFloorHash := tacticalHash })

end Checkpoints

end FrameDivergenceDetector

/-! ## Runs -/

/-- The calls of the detector. -/
inductive Call where
  | record (frameN : UInt64) (hash : Hash)
  | observe (peerId : UInt32) (frameN : UInt64) (peerHash : Hash)
  | drain
  | accept (frameN : UInt64) (tacticalHash : Hash) (qc : QuorumCert)
deriving DecidableEq

namespace Call

/-- The frame and the hash that are recorded. -/
def recorded : Call → Option (UInt64 × Hash)
  | record frameN hash => some (frameN, hash)
  | _ => none

/-- The peer and the frame that are observed. -/
def observed : Call → Option (UInt32 × UInt64)
  | observe peerId frameN _ => some (peerId, frameN)
  | _ => none

end Call

namespace FrameDivergenceDetector

section Runs

variable [Ed25519]

/-- One call, and the events that it delivers. -/
def step (d : FrameDivergenceDetector) : Call → FrameDivergenceDetector × List DesyncEvent
  | .record frameN hash => (d.recordLocal frameN hash, [])
  | .observe peerId frameN peerHash => ((d.observePeer peerId frameN peerHash).2, [])
  | .drain => (d.drainDesyncs.2, d.drainDesyncs.1)
  | .accept frameN tacticalHash qc => ((d.acceptBftCheckpoint frameN tacticalHash qc).2, [])

/-- The calls one after the other, and all the events that they deliver. -/
def run (d : FrameDivergenceDetector) (calls : List Call) :
    FrameDivergenceDetector × List DesyncEvent :=
  calls.foldl (fun r c => ((r.1.step c).1, r.2 ++ (r.1.step c).2)) (d, [])

/-- What has been delivered when the events are drained after the last call. -/
def delivered (d : FrameDivergenceDetector) (calls : List Call) : List DesyncEvent :=
  (d.run calls).2 ++ (d.run calls).1.drainDesyncs.1

theorem run_concat (d : FrameDivergenceDetector) (calls : List Call) (c : Call) :
    d.run (calls ++ [c]) =
      (((d.run calls).1.step c).1, (d.run calls).2 ++ ((d.run calls).1.step c).2) := by
  rw [run, List.foldl_append]
  rfl

theorem run_append (d : FrameDivergenceDetector) (done rest : List Call) :
    (d.run (done ++ rest)).1 = ((d.run done).1.run rest).1 := by
  induction rest using List.reverseRecOn with
  | nil => rw [List.append_nil]; rfl
  | append_singleton rest c ih =>
    rw [← List.append_assoc, run_concat, run_concat, ih]

end Runs

end FrameDivergenceDetector

/-! ## Events -/

/-- Frames are recorded in order, and none of them has left the window. -/
structure Orderly (retention : Nat) (calls : List Call) : Prop where
  increasing : (calls.filterMap Call.recorded).Pairwise fun x y => x.1 < y.1
  room : (calls.filterMap Call.recorded).length ≤ retention

instance (retention : Nat) (calls : List Call) : Decidable (Orderly retention calls) :=
  decidable_of_iff (_ ∧ _) ⟨fun h => ⟨h.1, h.2⟩, fun h => ⟨h.increasing, h.room⟩⟩

/-- The hash of a peer has come for a frame that was recorded, and with another hash. -/
def Alarms (calls : List Call) (e : DesyncEvent) : Prop :=
  e.localHash ≠ e.peerHash ∧ ∃ before after,
    calls = before ++ .observe e.peerId e.frameN e.peerHash :: after ∧
      .record e.frameN e.localHash ∈ before

theorem alarms_concat {calls : List Call} {c : Call} {e : DesyncEvent} :
    Alarms (calls ++ [c]) e ↔ Alarms calls e ∨ e.localHash ≠ e.peerHash ∧
      c = .observe e.peerId e.frameN e.peerHash ∧ .record e.frameN e.localHash ∈ calls := by
  constructor
  · rintro ⟨hne, before, after, heq, hmem⟩
    rcases List.eq_nil_or_concat after with rfl | ⟨after, last, rfl⟩
    · obtain ⟨rfl, hc⟩ := List.append_inj' heq rfl
      exact .inr ⟨hne, List.singleton_inj.mp hc, hmem⟩
    · rw [List.concat_eq_append, ← List.cons_append, ← List.append_assoc] at heq
      obtain ⟨rfl, -⟩ := List.append_inj' heq rfl
      exact .inl ⟨hne, before, after, rfl, hmem⟩
  · rintro (⟨hne, before, after, rfl, hmem⟩ | ⟨hne, rfl, hmem⟩)
    · exact ⟨hne, before, after ++ [c], by simp, hmem⟩
    · exact ⟨hne, calls, [], rfl, hmem⟩

theorem Orderly.of_concat {retention : Nat} {calls : List Call} {c : Call}
    (h : Orderly retention (calls ++ [c])) : Orderly retention calls := by
  obtain ⟨hinc, hroom⟩ := h
  rw [List.filterMap_append] at hinc hroom
  rw [List.length_append] at hroom
  exact ⟨(List.pairwise_append.mp hinc).1, by omega⟩

/-- What the detector knows after the calls, and what it has found. -/
structure Tracks (retention : Nat) (calls : List Call) (d : FrameDivergenceDetector)
    (out : List DesyncEvent) : Prop where
  retention : d.inner.retention = retention
  known : ∀ frameN hash, d.inner.localHashes[frameN]? = some hash ↔ .record frameN hash ∈ calls
  size : d.inner.localHashes.size ≤ (calls.filterMap Call.recorded).length
  found : ∀ e, e ∈ out ++ d.pendingDesyncs ↔ Alarms calls e
  once : ((out ++ d.pendingDesyncs).map fun e => (e.peerId, e.frameN)).Sublist
    (calls.filterMap Call.observed)

section Tracking

open FrameDivergenceDetector

variable {retention : Nat} {calls : List Call} {d : FrameDivergenceDetector}
  {out : List DesyncEvent}

/-- A frame that comes after all the others has not been recorded. -/
theorem Orderly.fresh {frameN : UInt64} {hash : Hash}
    (h : Orderly retention (calls ++ [.record frameN hash])) {hash' : Hash} :
    Call.record frameN hash' ∉ calls := by
  intro hmem
  have hinc := h.increasing
  rw [List.filterMap_append, List.pairwise_append] at hinc
  have hlt := hinc.2.2 (frameN, hash') (List.mem_filterMap.mpr ⟨_, hmem, rfl⟩) (frameN, hash)
    (List.mem_singleton_self _)
  exact UInt64.lt_irrefl _ hlt

section

variable (h : Tracks retention calls d out)
include h

theorem Tracks.record {frameN : UInt64} {hash : Hash}
    (ho : Orderly retention (calls ++ [.record frameN hash])) :
    Tracks retention (calls ++ [.record frameN hash]) (d.recordLocal frameN hash) out := by
  have hlen : (calls.filterMap Call.recorded).length + 1 ≤ retention := by
    have hroom := ho.room
    rwa [List.filterMap_append, List.length_append] at hroom
  have hlocal : (d.recordLocal frameN hash).inner.localHashes =
      d.inner.localHashes.insert frameN hash := by
    refine DesyncDetector.localHashes_record ?_
    have hsize := h.size
    rw [h.retention]
    omega
  constructor
  · exact h.retention
  · intro frameN' hash'
    rw [hlocal, ExtTreeMap.getElem?_insert]
    by_cases hframe : frameN = frameN'
    · subst hframe
      simp [ho.fresh, eq_comm]
    · simp [hframe, h.known, Ne.symm hframe]
  · rw [hlocal, List.filterMap_append, List.length_append]
    have hsize := ExtTreeMap.size_insert_le (t := d.inner.localHashes) (k := frameN) (v := hash)
    exact hsize.trans (Nat.add_le_add_right h.size 1)
  · intro e
    rw [alarms_concat]
    simp only [reduceCtorEq, false_and, and_false, or_false]
    exact h.found e
  · rw [List.filterMap_append, List.filterMap_cons_none rfl, List.filterMap_nil, List.append_nil]
    exact h.once

theorem Tracks.observe {peerId : UInt32} {frameN : UInt64} {peerHash : Hash} :
    Tracks retention (calls ++ [.observe peerId frameN peerHash])
      (d.observePeer peerId frameN peerHash).2 out := by
  have hinner : (d.observePeer peerId frameN peerHash).2.inner = d.inner := by
    obtain ⟨pending, heq⟩ := d.observePeer_frame peerId frameN peerHash
    rw [heq]
  constructor
  · rw [hinner]
    exact h.retention
  · intro frameN' hash'
    rw [hinner, h.known]
    simp
  · rw [hinner, List.filterMap_append, List.length_append]
    exact h.size.trans (Nat.le_add_right _ _)
  · intro e
    rw [alarms_concat, ← h.found]
    unfold observePeer
    split
    · next ev hev =>
      obtain ⟨localHash, hlocal, hne, rfl⟩ := DesyncDetector.observePeer_eq_some.mp hev
      rw [← List.append_assoc, List.mem_append (s := out ++ d.pendingDesyncs), List.mem_singleton]
      refine or_congr_right ⟨?_, ?_⟩
      · rintro rfl
        exact ⟨hne, rfl, (h.known _ _).mp hlocal⟩
      · rintro ⟨-, hcall, hrecorded⟩
        obtain ⟨peerId', frameN', localHash', peerHash'⟩ := e
        cases hcall
        have hsame := (h.known _ _).mpr hrecorded
        rw [hlocal, Option.some.injEq] at hsame
        rw [hsame]
    · next hnone =>
      refine (or_iff_left ?_).symm
      rintro ⟨hne, hcall, hrecorded⟩
      cases hcall
      have hsome : d.inner.observePeer e.peerId e.frameN e.peerHash = some e :=
        DesyncDetector.observePeer_eq_some.mpr ⟨_, (h.known _ _).mpr hrecorded, hne, rfl⟩
      rw [hnone] at hsome
      cases hsome
  · rw [List.filterMap_append]
    unfold observePeer
    split
    · next ev hev =>
      obtain ⟨localHash, -, -, rfl⟩ := DesyncDetector.observePeer_eq_some.mp hev
      rw [← List.append_assoc, List.map_append]
      exact h.once.append (List.Sublist.refl _)
    · exact h.once.trans (List.sublist_append_left _ _)

theorem Tracks.drain :
    Tracks retention (calls ++ [.drain]) d.drainDesyncs.2 (out ++ d.drainDesyncs.1) := by
  constructor
  · exact h.retention
  · intro frameN hash
    simpa [drainDesyncs] using h.known frameN hash
  · rw [List.filterMap_append, List.length_append]
    exact h.size
  · intro e
    rw [alarms_concat]
    simpa [drainDesyncs] using h.found e
  · rw [List.filterMap_append, List.filterMap_cons_none rfl, List.filterMap_nil, List.append_nil]
    simpa [drainDesyncs] using h.once

theorem Tracks.accept [Ed25519] {frameN : UInt64} {hash : Hash} {qc : QuorumCert} :
    Tracks retention (calls ++ [.accept frameN hash qc])
      (d.acceptBftCheckpoint frameN hash qc).2 out := by
  have hinner : (d.acceptBftCheckpoint frameN hash qc).2.inner = d.inner := by
    unfold acceptBftCheckpoint
    split_ifs <;> rfl
  have hpending : (d.acceptBftCheckpoint frameN hash qc).2.pendingDesyncs = d.pendingDesyncs := by
    unfold acceptBftCheckpoint
    split_ifs <;> rfl
  constructor
  · rw [hinner]
    exact h.retention
  · intro frameN hash
    rw [hinner, h.known]
    simp
  · rw [hinner, List.filterMap_append, List.length_append]
    exact h.size
  · intro e
    rw [alarms_concat, hpending]
    simpa using h.found e
  · rw [List.filterMap_append, List.filterMap_cons_none rfl, List.filterMap_nil, List.append_nil,
      hpending]
    exact h.once

end

theorem tracks_run [Ed25519] (keys : Option (ValidatorKeyring × ValidatorSet))
    (h : Orderly retention calls) :
    let r := (created retention keys).run calls
    Tracks retention calls r.1 r.2 := by
  induction calls using List.reverseRecOn with
  | nil =>
    have hinner : (created retention keys).inner =
        DesyncDetector.new retention := by
      rcases keys with _ | ⟨keyring, vs⟩ <;> rfl
    have hpending : (created retention keys).pendingDesyncs = [] := by
      rcases keys with _ | ⟨keyring, vs⟩ <;> rfl
    constructor
    · exact congrArg DesyncDetector.retention hinner
    · simp [run, hinner, DesyncDetector.new]
    · simp [run, hinner, DesyncDetector.new]
    · simp [run, hpending, Alarms]
    · simp [run, hpending]
  | append_singleton calls c ih =>
    have htracks := ih h.of_concat
    rw [run_concat]
    cases c with
    | record frameN hash =>
      simpa only [step, List.append_nil] using htracks.record h
    | observe peerId frameN peerHash =>
      simpa only [step, List.append_nil] using htracks.observe
    | drain => exact htracks.drain
    | accept frameN hash qc =>
      simpa only [step, List.append_nil] using htracks.accept

/-- Events are delivered for the hashes that come after the own one and differ from it: one for each
such call, and one for each peer and frame if no peer gives a frame twice. A hash that comes before
the own one gives none. -/
theorem alarms_delivered [Ed25519] (keys : Option (ValidatorKeyring × ValidatorSet))
    (h : Orderly retention calls) :
    let events := (created retention keys).delivered calls
    (∀ e, e ∈ events ↔ Alarms calls e) ∧
      (events.map fun e => (e.peerId, e.frameN)).Sublist (calls.filterMap Call.observed) ∧
      ((calls.filterMap Call.observed).Nodup →
        (events.map fun e => (e.peerId, e.frameN)).Nodup) := by
  have htracks := tracks_run keys h
  exact ⟨htracks.found, htracks.once, fun hnodup => hnodup.sublist htracks.once⟩

end Tracking

namespace Demo

attribute [local instance] Bft.Demo.plainEd25519

def own : Hash := .replicate 32 1

def other : Hash := .replicate 32 2

/-- One peer differs, one does not. -/
def timely : List Call := [.record 10 own, .observe 1 10 other, .drain, .observe 2 10 own]

theorem alarms_delivered_timely :
    (∀ e, e ∈ (FrameDivergenceDetector.created 32 none).delivered timely ↔ Alarms timely e) ∧
      ((FrameDivergenceDetector.created 32 none).delivered timely).map
        (fun e => (e.peerId, e.frameN)) = [(1, 10)] := by
  refine ⟨(alarms_delivered none ?_).1, by decide +kernel⟩
  exact ⟨by decide +kernel, by decide +kernel⟩

/-- The hash of the peer arrives first. -/
def early : List Call := [.observe 1 10 other, .record 10 own, .drain]

/-- It differs from the own one, and no event is delivered for it. -/
theorem early_unheard : Orderly 32 early ∧ .observe 1 10 other ∈ early ∧ .record 10 own ∈ early ∧
    own ≠ other ∧ (FrameDivergenceDetector.created 32 none).delivered early = [] := by
  refine ⟨⟨by decide +kernel, by decide +kernel⟩, by decide +kernel, by decide +kernel, ?_, ?_⟩
  · decide
  · decide +kernel

end Demo

/-! ## The floor -/

section Floor

variable [Ed25519]

/-- Who holds the key of a node has signed what verifies as its signature in the certificate. -/
def Unforged (signed : NodeId → Bytes → Prop) (keyring : ValidatorKeyring) (qc : QuorumCert) :
    Prop :=
  ∀ sig ∈ qc.signatures, verifyVote sig qc.blockHash qc.phase keyring = true →
    signed sig.signer (voteBytes qc.blockHash qc.phase)

/-- A quorum of the holders of keys has signed a `Commit` vote for the block hash. -/
def Backed (signed : NodeId → Bytes → Prop) (keyring : ValidatorKeyring) (vs : ValidatorSet)
    (blockHash : UInt64) : Prop :=
  ∃ S : Finset NodeId, vs.quorumSize ≤ S.card ∧
    ∀ id ∈ S, (keyring.peerId id).isSome ∧ signed id (voteBytes blockHash .commit)

/-- What the checks of a certificate come to. -/
theorem backed_of_checks {signed : NodeId → Bytes → Prop} {keyring : ValidatorKeyring}
    {vs : ValidatorSet} {qc : QuorumCert} (hunforged : Unforged signed keyring qc)
    (hquorum : qc.hasQuorum vs.n = true) (hphase : qc.phase = .commit)
    (hsigs : ∀ sig ∈ qc.signatures, verifyVote sig qc.blockHash qc.phase keyring = true) :
    Backed signed keyring vs qc.blockHash := by
  refine ⟨qc.signers, ValidatorSet.hasQuorum_iff.mp hquorum, fun id hid => ?_⟩
  obtain ⟨sig, hsig, rfl⟩ := QuorumCert.mem_signers.mp hid
  have hverified := hsigs sig hsig
  refine ⟨?_, hphase ▸ hunforged sig hsig hverified⟩
  unfold verifyVote verifyMsg at hverified
  split at hverified
  · next p hp => rw [hp]; rfl
  · cases hverified

namespace FrameDivergenceDetector

variable {signed : NodeId → Bytes → Prop} {keyring : ValidatorKeyring} {vs : ValidatorSet}
  {d : FrameDivergenceDetector}

/-- The detector has these keys and validators. -/
def Uses (d : FrameDivergenceDetector) (keyring : ValidatorKeyring) (vs : ValidatorSet) : Prop :=
  d.keyring = some keyring ∧ d.validatorSet = some vs

theorem backed_of_verify (huses : d.Uses keyring vs) {frameN : UInt64} {hash : Hash}
    {qc : QuorumCert} (hunforged : Unforged signed keyring qc)
    (h : d.verifyBftSignature frameN hash qc = true) :
    IsGenesis qc ∨ Backed signed keyring vs qc.blockHash := by
  unfold verifyBftSignature at h
  rw [huses.1, huses.2] at h
  split_ifs at h with hgenesis hempty hquorum hphase
  · exact .inl hgenesis
  · refine .inr (backed_of_checks hunforged ?_ (not_not.mp hphase) (List.all_eq_true.mp h))
    simpa using hquorum

/-- A checkpoint is refused, or becomes the floor and is not below the last one. -/
theorem accept_cases (d : FrameDivergenceDetector) (frameN : UInt64) (hash : Hash)
    (qc : QuorumCert) :
    (d.acceptBftCheckpoint frameN hash qc).1 ≠ .ok () ∧
        (d.acceptBftCheckpoint frameN hash qc).2 = d ∨
      d.verifyBftSignature frameN hash qc = true ∧ d.bftFloor ≤ frameN ∧
        d.acceptBftCheckpoint frameN hash qc =
          (.ok (), { d with bftFloor := frameN, bftFloorHash := hash }) := by
  unfold acceptBftCheckpoint
  split_ifs with hverify hfloor
  · exact .inl ⟨nofun, rfl⟩
  · exact .inl ⟨nofun, rfl⟩
  · exact .inr ⟨by simpa using hverify, UInt64.not_lt.mp hfloor, rfl⟩

theorem uses_step (huses : d.Uses keyring vs) (c : Call) : (d.step c).1.Uses keyring vs := by
  cases c with
  | observe peerId frameN peerHash =>
    obtain ⟨pending, heq⟩ := d.observePeer_frame peerId frameN peerHash
    rw [step, heq]
    exact huses
  | accept frameN hash qc =>
    rw [step]
    rcases d.accept_cases frameN hash qc with ⟨-, heq⟩ | ⟨-, -, heq⟩
    · rw [heq]
      exact huses
    · rw [heq]
      exact huses
  | _ => exact huses

/-- One call: the floor stays, or a certificate has raised it. -/
theorem floor_step (d : FrameDivergenceDetector) (c : Call) :
    (d.step c).1.bftFloor = d.bftFloor ∧ (d.step c).1.bftFloorHash = d.bftFloorHash ∨
      ∃ qc, c = .accept (d.step c).1.bftFloor (d.step c).1.bftFloorHash qc ∧
        d.bftFloor ≤ (d.step c).1.bftFloor ∧
        d.verifyBftSignature (d.step c).1.bftFloor (d.step c).1.bftFloorHash qc = true := by
  cases c with
  | observe peerId frameN peerHash =>
    obtain ⟨pending, heq⟩ := d.observePeer_frame peerId frameN peerHash
    rw [step, heq]
    exact .inl ⟨rfl, rfl⟩
  | accept frameN hash qc =>
    rcases d.accept_cases frameN hash qc with ⟨-, heq⟩ | ⟨hverify, hle, heq⟩
    · left
      simp only [step, heq, and_self]
    · right
      simp only [step, heq]
      exact ⟨qc, rfl, hle, hverify⟩
  | _ => exact .inl ⟨rfl, rfl⟩

/-- What stands behind the floor: a call that came with a certificate for the beginning, or with one
that a quorum has signed. -/
def FloorBacked (signed : NodeId → Bytes → Prop) (keyring : ValidatorKeyring) (vs : ValidatorSet)
    (calls : List Call) (d : FrameDivergenceDetector) : Prop :=
  ∃ qc, .accept d.bftFloor d.bftFloorHash qc ∈ calls ∧
    (IsGenesis qc ∨ Backed signed keyring vs qc.blockHash)

theorem floor_run (huses : d.Uses keyring vs) {calls : List Call}
    (hunforged : ∀ frameN hash qc, .accept frameN hash qc ∈ calls → Unforged signed keyring qc) :
    (d.run calls).1.Uses keyring vs ∧ d.bftFloor ≤ (d.run calls).1.bftFloor ∧
      ((d.run calls).1.bftFloor = d.bftFloor ∧ (d.run calls).1.bftFloorHash = d.bftFloorHash ∨
        FloorBacked signed keyring vs calls (d.run calls).1) := by
  induction calls using List.reverseRecOn with
  | nil => exact ⟨huses, UInt64.le_refl _, .inl ⟨rfl, rfl⟩⟩
  | append_singleton calls c ih =>
    obtain ⟨huses', hle, hfloor⟩ := ih fun frameN hash qc hmem =>
      hunforged frameN hash qc (List.mem_append_left _ hmem)
    rw [run_concat]
    refine ⟨uses_step huses' c, ?_⟩
    rcases floor_step (d.run calls).1 c with ⟨hsame, hhash⟩ | ⟨qc, hc, hrise, hverify⟩
    · rw [FloorBacked, hsame, hhash]
      refine ⟨hle, hfloor.imp_right ?_⟩
      rintro ⟨qc, hmem, hbacked⟩
      exact ⟨qc, List.mem_append_left _ hmem, hbacked⟩
    · have hmem := List.mem_append_right calls (List.mem_singleton.mpr hc.symm)
      exact ⟨UInt64.le_trans hle hrise, .inr ⟨qc, hmem,
        backed_of_verify huses' (hunforged _ _ qc hmem) hverify⟩⟩

end FrameDivergenceDetector

end Floor

end P2P333.Platform333.Netcode
