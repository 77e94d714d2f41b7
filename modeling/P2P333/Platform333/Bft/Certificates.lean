import P2P333.Platform333.Bft.State

/-!
# HotStuff: the certificates that a node holds

The votes that a leader has collected are valid, so the certificates that it makes of them are
genuine. A `NewView` message and the view changes of a quorum bring certificates along, and nobody
looks at these. A leader that has taken a bad one proposes blocks that no node accepts.

Results:
1. `held_certificates_genuine_iff`: in a run, the highest certificate is genuine as long as those
   are that come with a new view or with the last view change of a quorum.
2. `forged_high_qc`: a `NewView` message puts an empty certificate in place.
-/

namespace P2P333.Platform333.Bft

open Std Lib Machine HotStuffState

section Certificates

variable [Ed25519]

/-- A quorum of validators has signed the certificate, and all its signatures are valid. -/
def Certified (k : ValidatorKeyring) (vs : ValidatorSet) (qc : QuorumCert) : Prop :=
  vs.quorumSize ≤ qc.signers.card ∧
    ∀ sig ∈ qc.signatures, sig.signer ∈ vs.members ∧ verifyVote sig qc.blockHash qc.phase k = true

instance (k : ValidatorKeyring) (vs : ValidatorSet) (qc : QuorumCert) :
    Decidable (Certified k vs qc) := inferInstanceAs (Decidable (_ ∧ _))

def Genuine (k : ValidatorKeyring) (vs : ValidatorSet) (qc : QuorumCert) : Prop :=
  qc = .genesis ∨ Certified k vs qc

namespace HotStuffState

variable {s : HotStuffState} {m : Moment}

/-- Whether a justification is valid depends on the validators and their public keys. -/
theorem justifyIsValid_of_genuine {k : ValidatorKeyring} {vs : ValidatorSet} {qc : QuorumCert}
    (h : Genuine k vs qc) (hvalidators : s.validators = vs)
    (hkeys : ∀ id, s.keyring.peerId id = k.peerId id) : s.justifyIsValid qc = true := by
  rcases h with rfl | ⟨hquorum, hsigs⟩
  · rfl
  · unfold justifyIsValid
    split_ifs with hgenesis hfull
    · rfl
    · refine List.all_eq_true.mpr fun sig hsig => ?_
      obtain ⟨hmember, hverified⟩ := hsigs sig hsig
      have hvote : verifyVote sig qc.blockHash qc.phase s.keyring = true := by
        simpa only [verifyVote, verifyMsg, hkeys] using hverified
      rw [hvalidators, ValidatorSet.contains_iff.mpr hmember, hvote]
      rfl
    · rw [hvalidators, ValidatorSet.hasQuorum_iff] at hfull
      exact absurd hquorum hfull

/-- The votes that have been collected are valid. -/
def VotesValid (s : HotStuffState) : Prop :=
  ∀ blockHash phase, ∀ sig ∈ s.bucket blockHash phase, sig.signer ∈ s.validators.members ∧
    verifyVote sig blockHash phase s.keyring = true

/-- The certificates that come with a new view, or with the last view change of a quorum, are
genuine if they replace the highest one. -/
def BringsGenuine (s : HotStuffState) : Call → Prop
  | .process (.newView _ qc _) => s.highQc.view < qc.view → Genuine s.keyring s.validators qc
  | .process (.viewChange newView sender qc _) => s.Fills newView sender →
      s.highQc.view < (s.bestQc newView sender qc).view →
        Genuine s.keyring s.validators (s.bestQc newView sender qc)
  | _ => True

omit [Ed25519] in
theorem bucket_nil (hvotes : s.votes = ∅) (blockHash : UInt64) (phase : Phase) :
    s.bucket blockHash phase = [] := by
  rw [bucket, hvotes, ExtTreeMap.getElem?_empty]
  rfl

omit [Ed25519] in
theorem bucket_addVote (blockHash blockHash' : UInt64) (phase phase' : Phase) (sig : Signature) :
    (s.addVote blockHash phase sig).bucket blockHash' phase' =
      if (blockHash, phase) = (blockHash', phase') then s.bucket blockHash phase ++ [sig]
      else s.bucket blockHash' phase' := by
  simp only [bucket, addVote, ExtTreeMap.getElem?_insert, Std.compare_eq_iff_eq]
  split_ifs <;> rfl

/-- The certificate of a vote that counts. -/
theorem genuine_certificate (hvotes : s.VotesValid) {blockHash view : UInt64} {phase : Phase}
    {sig : Signature} (h : s.Completes blockHash view phase sig) :
    Genuine s.keyring s.validators (s.certificate blockHash phase sig) := by
  obtain ⟨hcounts, hquorum⟩ := h
  refine .inr ⟨ValidatorSet.hasQuorum_iff.mp hquorum, fun other hother => ?_⟩
  rcases List.mem_append.mp hother with hother | hother
  · exact hvotes blockHash phase other hother
  · rw [List.mem_singleton.mp hother]
    exact ⟨ValidatorSet.contains_iff.mp hcounts.member, hcounts.verified⟩

theorem votesValid_of_empty (h : s.votes = ∅) : s.VotesValid := by
  intro blockHash phase sig hsig
  rw [bucket_nil h] at hsig
  exact absurd hsig List.not_mem_nil

/-- What is true of the votes in the buckets and of a vote that counts stays true of the buckets. -/
theorem bucket_step {P : UInt64 → Phase → Signature → Prop} {c : Moment × Call}
    (h : ∀ blockHash phase, ∀ sig ∈ s.bucket blockHash phase, P blockHash phase sig)
    (hnew : ∀ blockHash view phase sig, c.2 = .process (.vote blockHash view phase sig) →
      s.Counts blockHash view phase sig → P blockHash phase sig) :
    ∀ blockHash phase, ∀ sig ∈ (s.step c).2.bucket blockHash phase, P blockHash phase sig := by
  have hempty : ∀ {s' : HotStuffState}, s'.votes = ∅ → ∀ blockHash phase,
      ∀ sig ∈ s'.bucket blockHash phase, P blockHash phase sig := by
    intro s' hvotes blockHash phase sig hsig
    rw [bucket_nil hvotes] at hsig
    exact absurd hsig List.not_mem_nil
  have hsame : ∀ {s' : HotStuffState}, s'.votes = s.votes → ∀ blockHash phase,
      ∀ sig ∈ s'.bucket blockHash phase, P blockHash phase sig := by
    intro s' hvotes blockHash phase sig hsig
    rw [bucket, hvotes] at hsig
    exact h blockHash phase sig hsig
  obtain ⟨m, c⟩ := c
  have hstep := s.stepped m c
  generalize (s.step (m, c)).1 = answer at hstep
  generalize (s.step (m, c)).2 = s' at hstep ⊢
  cases hstep with
  | @voted block phase sig =>
    by_cases hleave : phase = .commit ∧ ¬ s.isLeader
    · exact hempty (by rw [afterProposal_votes, if_pos hleave])
    · exact hsame (by rw [afterProposal_votes, if_neg hleave])
  | @counted blockHash view phase sig hcounts =>
    intro blockHash' phase' other hother
    rw [bucket_addVote] at hother
    split_ifs at hother with hkey
    · obtain ⟨rfl, rfl⟩ := Prod.mk.inj hkey
      rcases List.mem_append.mp hother with hother | hother
      · exact h _ _ other hother
      · rw [List.mem_singleton.mp hother]
        exact hnew _ _ _ _ rfl hcounts
    · exact h _ _ other hother
  | certified => exact hempty (by rw [onQuorum_votes]; rfl)
  | @newView view qc sig =>
    by_cases hview : s.view < view
    · exact hempty (by rw [onNewView_votes, if_pos hview])
    · exact hsame (by rw [onNewView_votes, if_neg hview])
  | changed => exact hempty rfl
  | _ => exact hsame rfl

theorem votesValid_step (h : s.VotesValid) (c : Moment × Call) : (s.step c).2.VotesValid := by
  have hsetup := setup_step s c
  simp only [setup, Prod.mk.injEq] at hsetup
  unfold VotesValid
  rw [hsetup.2.2.1, hsetup.2.2.2]
  refine bucket_step h ?_
  intro blockHash view phase sig _ hcounts
  exact ⟨ValidatorSet.contains_iff.mp hcounts.member, hcounts.verified⟩

/-- One call: the highest certificate stays genuine exactly if the call brings a genuine one. -/
theorem genuine_step_iff (hvotes : s.VotesValid)
    (h : Genuine s.keyring s.validators s.highQc) (c : Moment × Call) :
    Genuine s.keyring s.validators (s.step c).2.highQc ↔ s.BringsGenuine c.2 := by
  obtain ⟨m, c⟩ := c
  have hstep := s.stepped m c
  generalize (s.step (m, c)).1 = answer at hstep
  generalize (s.step (m, c)).2 = s' at hstep ⊢
  cases hstep with
  | voted => exact iff_of_true (by rwa [afterProposal_highQc]) trivial
  | @certified blockHash view phase sig hcompletes =>
    refine iff_of_true ?_ trivial
    rw [onQuorum_highQc]
    split_ifs
    · exact h
    · exact genuine_certificate hvotes hcompletes
  | @newView view qc sig =>
    rw [onNewView_highQc]
    by_cases hqc : s.highQc.view < qc.view
    · rw [if_pos hqc]
      exact ⟨fun hnew _ => hnew, fun hnew => hnew hqc⟩
    · rw [if_neg hqc]
      exact iff_of_true h fun hlt => absurd hlt hqc
  | @changed newView sender qc sig hfills =>
    by_cases hqc : s.highQc.view < (s.bestQc newView sender qc).view
    · simp only [enterView, if_pos hqc]
      exact ⟨fun hbest _ _ => hbest, fun hbest => hbest hfills hqc⟩
    · simp only [enterView, if_neg hqc]
      exact iff_of_true h fun _ hlt => absurd hlt hqc
  | collected hfills => exact iff_of_true h fun hfull => absurd hfull hfills
  | _ => exact iff_of_true h trivial

/-- The highest certificate is genuine, and so any proposal that is made from it is justified for
every node that knows the same validators and keys. -/
structure HoldsGenuine (s : HotStuffState) : Prop where
  genuine : Genuine s.keyring s.validators s.highQc
  justified : ∀ (peer : HotStuffState) m block phase sig, peer.validators = s.validators →
    (∀ id, peer.keyring.peerId id = s.keyring.peerId id) →
    (s.propose m).1 = some (.proposal block phase sig) → peer.justifyIsValid block.justify = true

theorem holdsGenuine_iff : s.HoldsGenuine ↔ Genuine s.keyring s.validators s.highQc := by
  refine ⟨HoldsGenuine.genuine, fun h => ⟨h, ?_⟩⟩
  intro peer m block phase sig hvalidators hkeys hmsg
  unfold propose at hmsg
  split_ifs at hmsg
  cases hmsg
  exact justifyIsValid_of_genuine h hvalidators hkeys

end HotStuffState

/-- The certificates that a node holds are genuine, as long as those are that it takes from new
views and view changes. -/
theorem held_certificates_genuine_iff (config : Config) (l : List (Moment × Call)) :
    (∀ done, done <+: l → (config.run done).HoldsGenuine) ↔
      ∀ done c, done ++ [c] <+: l → (config.run done).BringsGenuine c.2 := by
  obtain ⟨keyring, hstart⟩ := config.start_eq
  have hvotes : config.start.VotesValid := votesValid_of_empty (by rw [hstart]; rfl)
  have hholds : config.start.HoldsGenuine := holdsGenuine_iff.mpr (.inl (by rw [hstart]; rfl))
  refine invariant_iff (I := VotesValid) (Q := fun s c => s.BringsGenuine c.2)
    (fun s c h => votesValid_step h c) ?_ hvotes hholds l
  intro s c hvotes hholds
  have hsetup := setup_step s c
  simp only [setup, Prod.mk.injEq] at hsetup
  rw [holdsGenuine_iff, hsetup.2.2.1, hsetup.2.2.2]
  exact genuine_step_iff hvotes hholds.genuine c

end Certificates

namespace Demo

attribute [local instance] plainEd25519

/-- A certificate without signatures comes with a `NewView` message that nobody has signed. -/
theorem forged_high_qc : ¬ (∀ l, ((config 2).run l).HoldsGenuine) := by
  intro h
  have hgenuine := (h [(moment, .process (.newView 1 ⟨7, 1, .prepare, []⟩ ⟨1, []⟩))]).genuine
  rcases hgenuine with hgenesis | ⟨hquorum, -⟩
  · exact absurd hgenesis (by decide +kernel)
  · exact absurd hquorum (by decide +kernel)

end Demo

end P2P333.Platform333.Bft
