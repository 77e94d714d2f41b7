import P2P333.Platform333.Bft.Certificates

/-!
# HotStuff: how a node changes its view

A view is left after a commit, on a `NewView` message, and when enough `ViewChange` messages have
come in for another one. The last two are taken without a look at who has signed what, and the
senders of view changes are those that the messages name. So a few messages of strangers move a node
to any view, also back.

Results:
1. `views_move_with_quorum_iff`: in a run, views go forward with a quorum behind them exactly if
   each message that moves the node has one and leads forward.
2. `moved_by_strangers`: three strangers move a node forward, and back again.
-/

namespace P2P333.Platform333.Bft

open Std Lib Machine HotStuffState

section Views

variable [Ed25519]

/-! ## Evidence -/

/-- The certificate that comes with a message. -/
def HotStuffMsg.qc : HotStuffMsg → Option QuorumCert
  | .proposal block _ _ => some block.justify
  | .vote .. => none
  | .newView _ qc _ => some qc
  | .viewChange _ _ qc _ => some qc

/-- The message is a request to enter the view, signed by the node that it comes from. -/
def HotStuffMsg.requests (k : ValidatorKeyring) (view : UInt64) (id : NodeId) : HotStuffMsg → Bool
  | .viewChange next sender _ sig =>
    next == view && sender == id && sig.signer == id && verify sig next k
  | _ => false

/-- A quorum of validators has signed for leaving the view before: through a certificate of that
view, or through requests for the next one. -/
def LeftBehind (s : HotStuffState) (msgs : List HotStuffMsg) (view : UInt64) : Prop :=
  (∃ msg ∈ msgs, ∃ qc ∈ msg.qc, qc.view.toNat + 1 = view.toNat ∧
    Certified s.keyring s.validators qc) ∨
  s.validators.quorumSize ≤ (s.validators.members.filter fun id =>
    msgs.any fun msg => msg.requests s.keyring view id).card

/-- The message of a call. -/
def Call.msg : Call → Option HotStuffMsg
  | .process msg => some msg
  | _ => none

/-- A new view or a view change. -/
def Call.MovesView : Call → Prop
  | .process (.newView ..) | .process (.viewChange ..) => True
  | _ => False

/-- The messages that a node has been given and those that it has sent. -/
def traffic (s : HotStuffState) (l : List (Moment × Call)) : List HotStuffMsg :=
  l.filterMap (fun c => c.2.msg) ++ (outputs step s l).filterMap Answer.msg

/-! ## Steps -/

namespace HotStuffState

variable {s : HotStuffState}

/-- The next view is a later one. -/
def CanLeave (s : HotStuffState) : Prop := s.view.toNat + 1 < 2 ^ 64

/-- If the call moves the node, then forward. -/
def LeadsForward (s : HotStuffState) : Call → Prop
  | .process (.proposal block phase sig) =>
    s.Accepts block sig → phase = .commit → ¬ s.isLeader → s.CanLeave
  | .process (.vote blockHash view phase sig) =>
    s.Completes blockHash view phase sig → phase = .commit → s.CanLeave
  | .process (.viewChange newView sender _ _) => s.Fills newView sender → s.view ≤ newView
  | _ => True

instance (s : HotStuffState) : Decidable s.CanLeave := inferInstanceAs (Decidable (_ < _))

instance (s : HotStuffState) : (c : Call) → Decidable (s.LeadsForward c)
  | .process (.proposal ..) => inferInstanceAs (Decidable (_ → _ → _ → _))
  | .process (.vote ..) => inferInstanceAs (Decidable (_ → _ → _))
  | .process (.viewChange ..) => inferInstanceAs (Decidable (_ → _))
  | .process (.newView ..) | .propose | .tick | .submitTx _ => inferInstanceAs (Decidable True)

/-- A new view, or the last one of enough view changes, has a quorum behind it. -/
def Backed (s : HotStuffState) (msgs : List HotStuffMsg) : Call → Prop
  | .process (.newView view _ _) => s.view < view → LeftBehind s msgs view
  | .process (.viewChange newView sender _ _) =>
    s.Fills newView sender → s.view < newView → LeftBehind s msgs newView
  | _ => True

omit [Ed25519] in
theorem canLeave_iff : s.CanLeave ↔ s.view ≤ s.view + 1 := by
  rw [CanLeave, UInt64.le_iff_toNat_le, UInt64.toNat_add]
  have hlt := s.view.toNat_lt
  simp only [UInt64.toNat_one]
  omega

/-- A call leads forward exactly if the view does not go down. -/
theorem leadsForward_iff (c : Moment × Call) : s.view ≤ (s.step c).2.view ↔ s.LeadsForward c.2 := by
  obtain ⟨m, c⟩ := c
  have hstep := s.stepped m c
  generalize (s.step (m, c)).1 = answer at hstep
  generalize (s.step (m, c)).2 = s' at hstep ⊢
  have hstay : s.view ≤ s.view := UInt64.le_refl _
  cases hstep with
  | refused hrefused => exact iff_of_true hstay fun haccepts => absurd haccepts hrefused
  | @voted block phase sig haccepts =>
    rw [afterProposal_view]
    by_cases hleave : phase = .commit ∧ ¬ s.isLeader
    · rw [if_pos hleave]
      exact ⟨fun h _ _ _ => canLeave_iff.mpr h,
        fun h => canLeave_iff.mp (h haccepts hleave.1 hleave.2)⟩
    · rw [if_neg hleave]
      exact iff_of_true hstay fun _ hcommit hleader => absurd ⟨hcommit, hleader⟩ hleave
  | ignored hnot | repeated hnot =>
    exact iff_of_true hstay fun hcompletes => absurd hcompletes hnot
  | counted hcounts hquorum =>
    exact iff_of_true hstay fun hcompletes => absurd hcompletes.2 hquorum
  | @certified blockHash view phase sig hcompletes =>
    rw [onQuorum_view, certificate_phase, cleared_view]
    by_cases hcommit : phase = .commit
    · rw [if_pos hcommit]
      exact ⟨fun h _ _ => canLeave_iff.mpr h, fun h => canLeave_iff.mp (h hcompletes hcommit)⟩
    · rw [if_neg hcommit]
      exact iff_of_true hstay fun _ hphase => absurd hphase hcommit
  | @newView view qc sig =>
    refine iff_of_true ?_ trivial
    rw [onNewView_view]
    split_ifs with hview
    · exact UInt64.le_of_lt hview
    · exact hstay
  | collected hfills => exact iff_of_true hstay fun h => absurd h hfills
  | changed hfills => exact ⟨fun h _ => h, fun h => h hfills⟩
  | _ => exact iff_of_true hstay trivial

/-- A call is backed exactly if no new view and no view change moves the node forward without a
quorum. -/
theorem backed_iff (msgs : List HotStuffMsg) (c : Moment × Call) :
    (c.2.MovesView → s.view < (s.step c).2.view → LeftBehind s msgs (s.step c).2.view) ↔
      s.Backed msgs c.2 := by
  obtain ⟨m, c⟩ := c
  have hstep := s.stepped m c
  generalize (s.step (m, c)).1 = answer at hstep
  generalize (s.step (m, c)).2 = s' at hstep ⊢
  cases hstep with
  | @newView view qc sig =>
    rw [onNewView_view]
    by_cases hview : s.view < view
    · rw [if_pos hview]
      exact ⟨fun h => h trivial, fun h _ => h⟩
    · rw [if_neg hview]
      exact iff_of_true (fun _ hlt => absurd hlt (UInt64.lt_irrefl _)) fun hlt => absurd hlt hview
  | collected hfills =>
    exact iff_of_true (fun _ hlt => absurd hlt (UInt64.lt_irrefl _)) fun h => absurd h hfills
  | changed hfills => exact ⟨fun h _ => h trivial, fun h _ => h hfills⟩
  | _ => exact iff_of_true nofun trivial

end HotStuffState

/-! ## Runs -/

/-- Views go forward, and by new views and view changes only with a quorum behind them, exactly if
every message that moves the node leads forward and has a quorum behind it. -/
theorem views_move_with_quorum_iff (config : Config) (l : List (Moment × Call)) :
    ((∀ done more, done <+: more → more <+: l → (config.run done).view ≤ (config.run more).view) ∧
      ∀ done c, done ++ [c] <+: l → c.2.MovesView →
        (config.run done).view < (config.run (done ++ [c])).view →
        LeftBehind (config.run done) (traffic config.start (done ++ [c]))
          (config.run (done ++ [c])).view) ↔
    ∀ done c, done ++ [c] <+: l → (config.run done).LeadsForward c.2 ∧
      (config.run done).Backed (traffic config.start (done ++ [c])) c.2 := by
  constructor
  · rintro ⟨hforward, hquorum⟩ done c hdone
    have hview := hforward done (done ++ [c]) (List.prefix_append done [c]) hdone
    have hleft := hquorum done c hdone
    rw [config.run_concat] at hview hleft
    exact ⟨(leadsForward_iff c).mp hview, (backed_iff _ c).mp hleft⟩
  · intro hmoves
    refine ⟨?_, fun done c hdone => ?_⟩
    · rintro done more ⟨rest, rfl⟩ hmore
      induction rest using List.reverseRecOn with
      | nil =>
        rw [List.append_nil]
        exact UInt64.le_refl _
      | append_singleton rest c ih =>
        rw [← List.append_assoc] at hmore ⊢
        have hbefore := ih ((List.prefix_append (done ++ rest) [c]).trans hmore)
        have hview := (leadsForward_iff c).mpr (hmoves (done ++ rest) c hmore).1
        rw [← config.run_concat] at hview
        exact UInt64.le_trans hbefore hview
    · rw [config.run_concat]
      exact (backed_iff _ c).mpr (hmoves done c hdone).2

end Views

namespace Demo

attribute [local instance] plainEd25519

/-- All the names in the message of a call. -/
def names : Call → List NodeId
  | .process (.proposal block _ sig) =>
    sig.signer :: block.proposer :: block.justify.signatures.map Signature.signer
  | .process (.vote _ _ _ sig) => [sig.signer]
  | .process (.newView _ qc sig) => sig.signer :: qc.signatures.map Signature.signer
  | .process (.viewChange _ sender qc sig) =>
    sender :: sig.signer :: qc.signatures.map Signature.signer
  | _ => []

/-- Unsigned view changes in three names that are none of a validator. -/
def strangers (view : UInt64) : List (Moment × Call) :=
  ([100, 101, 102] : List NodeId).map fun id =>
    (moment, .process (.viewChange view id .genesis ⟨id, []⟩))

/-- The strangers bring a node to view 5, and then back to view 1. -/
theorem moved_by_strangers :
    ¬ (∀ l : List (Moment × Call), (∀ c ∈ l, (names c.2).all fun id => !validators.contains id) →
      (∀ done more, done <+: more → more <+: l →
        ((config 2).run done).view ≤ ((config 2).run more).view) ∧
      ∀ done c, done ++ [c] <+: l → c.2.MovesView →
        ((config 2).run done).view < ((config 2).run (done ++ [c])).view →
        LeftBehind ((config 2).run done) (traffic (config 2).start (done ++ [c]))
          ((config 2).run (done ++ [c])).view) := by
  intro h
  have hstrangers : ∀ c ∈ strangers 5 ++ strangers 1,
      (names c.2).all fun id => !validators.contains id := by
    decide +kernel
  have hback := (h _ hstrangers).1 (strangers 5) _ (List.prefix_append ..) List.prefix_rfl
  have hfive : ((config 2).run (strangers 5)).view = 5 := by decide +kernel
  have hone : ((config 2).run (strangers 5 ++ strangers 1)).view = 1 := by decide +kernel
  rw [hfive, hone] at hback
  exact absurd hback (by decide)

end Demo

end P2P333.Platform333.Bft
