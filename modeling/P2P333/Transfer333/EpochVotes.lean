import P2P333.Transfer333.Certificates

/-!
# Epoch votes

What an honest authority signs about epoch changes, and what a quorum of such votes can certify.

Results:
1. `successor_unique`: an old committee names one next committee for an epoch, in runs with crashes
   at every point but one: an authority must not crash between its fence and the next install, if
   its newest install was completed late. `successor_forked`: at that point recovery forgets the
   epoch that the fence belongs to.
2. `conflicting_cert_never`: no honest authority answers `ConflictingCert`, in runs where an
   authority signs one frontier for an epoch. `conflicting_cert_reached`: an authority that confirms
   a certificate between two calls of `sign_epoch_vote` signs two.
-/

namespace P2P333.Transfer333

open Std Lib

section EpochVotes

variable [Crypto]

/-! ## One epoch vote for each epoch -/

def EpochState.isFencing : EpochState → Bool
  | .fencing _ => true
  | _ => false

namespace Authority

variable {x x' : Authority} {v : EpochVote}

/-- The epoch vote lies behind the authority: its epoch is reached or being installed, or it was
signed under the fence that stands. -/
def Past (x : Authority) (v : EpochVote) : Prop :=
  match x.epochState with
  | .active => v.epoch.toNat ≤ x.epoch.toNat
  | .fencing p => v.epoch.toNat < p.epoch.toNat ∨ v.epoch = p.epoch ∧
    ∀ next, Committee.withEpoch p.nextRoster x.policy p.epoch = some next →
      v.nextCommitteeId = next.id
  | .installing cert _ _ => v.epoch.toNat ≤ cert.epoch.toNat

/-- The fence that stands is for the next epoch. -/
def FenceNext (x : Authority) : Prop :=
  ∀ p, x.epochState = .fencing p → p.epoch.toNat = x.epoch.toNat + 1

omit [Crypto] in
theorem FenceNext.congr (h : x.FenceNext) (hs : x'.epochState = x.epochState)
    (he : x'.epoch = x.epoch) : x'.FenceNext := by
  intro p hp
  rw [he]
  exact h p (hs ▸ hp)

omit [Crypto] in
theorem fenceNext_of_not_fencing (h : x.epochState.isFencing = false) : x.FenceNext := by
  intro p hp
  rw [hp] at h
  cases h

/-- A certificate for the next epoch is at least as new as every epoch vote behind the
authority. -/
theorem Past.le_of_accepts {cert : EpochCert} {old next : Committee} (h : x.Past v)
    (hnext : x.FenceNext) (hroom : x.epoch.toNat + 1 < 2 ^ 64)
    (hacc : x.AcceptsEpochCert cert old next) (hidle : x.epochState.isInstalling = false) :
    v.epoch.toNat ≤ cert.epoch.toNat := by
  have hepoch := hacc.epoch_toNat hroom
  unfold Past at h
  split at h
  · omega
  · next p hp =>
    have hfence := hnext p hp
    rcases h with hlt | ⟨heq, -⟩
    · omega
    · rw [heq]
      omega
  · next hs => rw [hs] at hidle; cases hidle

/-- An installed certificate puts every epoch vote up to its own epoch behind. -/
theorem past_of_epochInstalled {cert : EpochCert} (hle : v.epoch.toNat ≤ cert.epoch.toNat)
    (hx : x.replayRecord (.epochInstalled cert) = .ok x') :
    x'.Past v ∧ x'.epochState.isFencing = false := by
  obtain ⟨next, -, rfl⟩ := replayRecord_epochInstalled_inv hx
  split <;> exact ⟨hle, rfl⟩

end Authority

namespace Node

variable {cfg : Config} {n : Node} {y : Authority}

/-- The condition on a step: no crash while the authority is fenced and its newest install was
completed by a later call than `install_epoch_cert`, and no epoch change at the last epoch number.
-/
def KeepsFence (n : Node) : Op → Prop
  | .crash => ¬ (n.late = true ∧ n.live.epochState.isFencing = true)
  | .fence _ _ | .installEpochCert _ _ _ => n.live.epoch.toNat + 1 < 2 ^ 64
  | _ => True

instance (n : Node) : ∀ op, Decidable (n.KeepsFence op)
  | .crash => inferInstanceAs (Decidable (¬ _))
  | .fence _ _ | .installEpochCert _ _ _ => inferInstanceAs (Decidable (_ < _))
  | .handle _ _ | .confirm _ _ _ _ _ | .signEpochVote | .attest _ _ | .compactJournal _ =>
    .isTrue trivial

/-- The same condition, in terms of what the log recovers to. -/
def RecoversFence (cfg : Config) (n : Node) : Op → Prop
  | .crash => ∀ y, Recovers cfg n y → y.epochState.isFencing = false ∨
    y.epochState = n.live.epochState ∧ y.epoch = n.live.epoch
  | .signEpochVote => ∀ y, Recovers cfg n y → n.live.epochState ≠ .active →
    y.epochState = n.live.epochState
  | .fence _ _ | .installEpochCert _ _ _ => n.live.epoch.toNat + 1 < 2 ^ 64
  | _ => True

theorem recoversFence_of_follows (h : Holds cfg Follows n) {op : Op} (hok : n.KeepsFence op) :
    n.RecoversFence cfg op := by
  obtain ⟨-, y, hy, hfollows⟩ := h
  have hunique : ∀ z, Recovers cfg n z → z = y := fun z hz => Except.ok.inj (hz.symm.trans hy)
  cases op with
  | crash =>
    intro z hz
    obtain rfl := hunique z hz
    cases hlate : n.late with
    | false =>
      have htwin := hfollows.twin hlate
      exact .inr ⟨Twin.epochState htwin, by rw [← htwin]⟩
    | true =>
      left
      cases hs : n.live.epochState with
      | active =>
        have hinst := hfollows.late hlate hs
        cases hz : z.epochState <;> simp_all [EpochState.isInstalling, EpochState.isFencing]
      | fencing p => exact absurd ⟨hlate, by rw [hs]; rfl⟩ hok
      | installing cert next fd =>
        rw [hfollows.epochState (by rw [hs]; intro h; cases h), hs]
        rfl
  | signEpochVote =>
    intro z hz hne
    obtain rfl := hunique z hz
    exact hfollows.epochState hne
  | fence p io => exact hok
  | installEpochCert cert old io => exact hok
  | _ => trivial

/-- The invariant: every epoch vote is behind, live and in the log, and the votes for one epoch name
one next committee. -/
structure Successors (n : Node) (y : Authority) : Prop where
  past : ∀ v, .epochVoted v ∈ n.history → n.live.Past v ∧ y.Past v
  next : n.live.FenceNext
  unique : ∀ v v', .epochVoted v ∈ n.history → .epochVoted v' ∈ n.history → v.epoch = v'.epoch →
    v.nextCommitteeId = v'.nextCommitteeId

theorem Successors.append {ev : Event} (h : Successors n y) (hev : ∀ v, ev ≠ .epochVoted v) :
    Successors { n with history := n.history ++ [ev] } y := by
  have hold : ∀ {v}, .epochVoted v ∈ n.history ++ [ev] → .epochVoted v ∈ n.history :=
    fun {v} hv => mem_of_ne hv (hev v).symm
  exact ⟨fun v hv => h.past v (hold hv), h.next,
    fun v v' hv hv' => h.unique v v' (hold hv) (hold hv')⟩

/-- A record that a call writes keeps the epoch votes behind, on any authority `y` with the policy
of the live one. -/
theorem past_pending {op : Op} {r : JournalRecord} {y' : Authority} {v : EpochVote}
    (hok : n.RecoversFence cfg op) (hp : n.live.Pending op r) (hnext : n.live.FenceNext)
    (hlive : n.live.Past v) (hy : y.replayRecord r = .ok y') (h : y.Past v) : y'.Past v := by
  cases hp with
  | locked hcan => cases hy; exact h
  | confirmed hcan =>
    obtain ⟨-, rfl⟩ := Authority.replayRecord_confirmed_inv hy
    exact h
  | @epochFence _ p next io hcan =>
    cases hy
    have hepoch := hcan.epoch_toNat hok
    unfold Authority.Past at hlive
    rw [hcan.active] at hlive
    exact .inl (by show v.epoch.toNat < p.epoch.toNat; omega)
  | epochInstalled hacc hidle =>
    exact (Authority.past_of_epochInstalled (hlive.le_of_accepts hnext hok hacc hidle) hy).1

theorem fenceNext_pending {op : Op} {r : JournalRecord} {x' : Authority}
    (hok : n.RecoversFence cfg op) (hp : n.live.Pending op r)
    (hx : n.live.replayRecord r = .ok x') (h : n.live.FenceNext) : x'.FenceNext := by
  cases hp with
  | locked hcan => cases hx; exact h
  | confirmed hcan =>
    obtain ⟨-, rfl⟩ := Authority.replayRecord_confirmed_inv hx
    exact h
  | epochFence hcan =>
    cases hx
    rintro p hp
    cases hp
    exact hcan.epoch_toNat hok
  | epochInstalled hacc hidle =>
    obtain ⟨next, -, rfl⟩ := Authority.replayRecord_epochInstalled_inv hx
    refine Authority.fenceNext_of_not_fencing ?_
    split <;> rfl

/-- The epoch vote that an authority signs is the one its fence stands for. -/
theorem successors_epochVote {v : EpochVote} (hbase : Base cfg n) (hywf : y.Wf cfg)
    (hok : n.live.epochState ≠ .active → y.epochState = n.live.epochState)
    (hv : n.live.signEpochVote = .ok v) (h : Successors n y) :
    Successors { n with history := n.history ++ [.epochVoted v] } y := by
  obtain ⟨p, next, hs, hroster, rfl⟩ := Authority.signEpochVote_ok hv
  have hys : y.epochState = .fencing p := by
    rw [hok (by rw [hs]; intro h; cases h), hs]
  have hnew : ∀ x : Authority, x.epochState = .fencing p → x.policy = n.live.policy →
      x.Past (EpochVote.sign n.live.id n.live.committeeId p.epoch next.id n.live.frontier
        n.live.signing) := by
    intro x hx hpolicy
    unfold Authority.Past
    rw [hx]
    refine .inr ⟨rfl, ?_⟩
    intro next' hroster'
    rw [hpolicy, hroster] at hroster'
    rw [← Option.some.inj hroster']
    rfl
  -- an earlier vote for the epoch was signed under the fence that still stands
  have hagree : ∀ w, .epochVoted w ∈ n.history → w.epoch = p.epoch →
    w.nextCommitteeId = next.id := by
    intro w hw hepoch
    have hpast := (h.past w hw).1
    unfold Authority.Past at hpast
    rw [hs] at hpast
    rcases hpast with hlt | ⟨-, hsame⟩
    · rw [hepoch] at hlt
      exact absurd hlt (Nat.lt_irrefl _)
    · exact hsame next hroster
  refine ⟨?_, h.next, ?_⟩
  · intro w hw
    rcases List.mem_append.mp hw with hw | hw
    · exact h.past w hw
    · cases List.mem_singleton.mp hw
      exact ⟨hnew _ hs rfl, hnew _ hys (hywf.policy.trans hbase.wf.policy.symm)⟩
  · intro w w' hw hw' hepoch
    rcases List.mem_append.mp hw with hw | hw <;> rcases List.mem_append.mp hw' with hw' | hw'
    · exact h.unique w w' hw hw' hepoch
    · cases List.mem_singleton.mp hw'
      exact hagree w hw hepoch
    · cases List.mem_singleton.mp hw
      exact (hagree w' hw' hepoch.symm).symm
    · cases List.mem_singleton.mp hw
      cases List.mem_singleton.mp hw'
      rfl

theorem successors_complete (hc : n.live.installCovered = true) (h : Successors n y) :
    Successors { n with live := n.live.completeInstall, late := true } y := by
  obtain ⟨cert, next, fd, hs, -⟩ := Authority.isInstalling_of_covered hc
  refine ⟨fun v hv => ⟨?_, (h.past v hv).2⟩, ?_, h.unique⟩
  · have hpast := (h.past v hv).1
    unfold Authority.Past Authority.completeInstall at *
    rw [hs] at hpast ⊢
    exact hpast
  · refine Authority.fenceNext_of_not_fencing ?_
    rw [Authority.completeInstall_active]
    rfl

theorem successors_pair (cfg : Config) :
    Pair cfg (fun n op => op.Plain ∧ n.RecoversFence cfg op) Successors where
  start := ⟨fun v h => (by cases h), fun p hp => (by cases hp), fun v v' h => (by cases h)⟩
  stable _ h := h
  complete _ _ _ hc h := successors_complete hc h
  vote _ _ _ _ _ _ h := h.append fun _ hev => by cases hev
  commit _ _ hok hp _ hx hy h := by
    have hfence := fenceNext_pending hok.2 hp hx h.next
    refine ⟨fun v hv => ?_, hfence, ?_⟩
    · obtain ⟨hlive, hrec⟩ := h.past v (mem_of_signed hv nofun)
      have hlive' := past_pending hok.2 hp h.next hlive hx hlive
      exact ⟨hlive', past_pending hok.2 hp h.next hlive hy hrec⟩
    · intro v v' hv hv'
      exact h.unique v v' (mem_of_signed hv nofun) (mem_of_signed hv' nofun)
  lost _ _ hok hio _ _ _ := absurd hok.1.1 hio
  kept _ _ hok hio _ _ _ _ := absurd hok.1.1 hio
  poison h := ⟨h.past, h.next, h.unique⟩
  epochVote hbase hrec hok hv h :=
    successors_epochVote hbase (hbase.recovered hrec).1 (hok.2 _ hrec) hv h
  attest _ _ _ h := h.append fun _ hev => by cases hev
  compact _ hok _ _ := absurd hok.1.2 Bool.noConfusion
  crash {n y} hbase hrec hok h := by
    refine ⟨fun v hv => ⟨(h.past v hv).2, (h.past v hv).2⟩, ?_, h.unique⟩
    rcases hok.2 y hrec with hidle | ⟨hs, he⟩
    · exact Authority.fenceNext_of_not_fencing hidle
    · exact h.next.congr hs he

/-- The invariant, for runs that keep the fences. -/
theorem successors_of_keepsFence {ok : Node → Op → Prop}
    (hok : ∀ n op, ok n op → op.Plain ∧ n.KeepsFence op)
    (h : Reachable (step cfg) ok (start cfg) n) : Holds cfg Successors n := by
  refine pair_invariant (successors_pair cfg) (h.strengthen (I := Holds cfg Follows) ?_ ?_)
  · intro m hm
    exact pair_invariant (follows_pair cfg) (hm.mono fun _ _ h => (hok _ _ h).1)
  · intro m op hm hop
    exact ⟨(hok m op hop).1, recoversFence_of_follows hm (hok m op hop).2⟩

end Node

namespace Deployment

/-- The steps of the honest authorities over working storage, that keep the fences. -/
def KeepsFences (d : Deployment) (net : Net) (step : AuthorityId × Op) : Prop :=
  step.1 ∈ d.honest ∧ step.2.Plain ∧ (net step.1).KeepsFence step.2

instance (d : Deployment) (net : Net) (step : AuthorityId × Op) :
    Decidable (d.KeepsFences net step) := inferInstanceAs (Decidable (_ ∧ _ ∧ _))

/-- Two epoch votes of one authority for one epoch name one next committee. -/
theorem epochCast_unique {d : Deployment} {net : Net} {ok : Net → AuthorityId × Op → Prop}
    (hok : ∀ net step, ok net step → d.KeepsFences net step) (h : Reachable d.step ok d.start net)
    {a : AuthorityId} {cid cid' nextId nextId' : CommitteeId} {epoch : U64} {fd fd' : Digest}
    (hv : (net a).EpochCast cid epoch nextId fd) (hv' : (net a).EpochCast cid' epoch nextId' fd') :
    nextId = nextId' := by
  have hlocal := component (fun _ n op => op.Plain ∧ n.KeepsFence op)
    (fun _ _ _ h => (hok _ _ h).2) h a
  obtain ⟨-, y, -, hsucc⟩ := Node.successors_of_keepsFence (fun _ _ h => h) hlocal
  obtain ⟨v, hmem, -, he, hn, -⟩ := hv
  obtain ⟨v', hmem', -, he', hn', -⟩ := hv'
  rw [← hn, ← hn']
  exact hsucc.unique v v' hmem hmem' (he.trans he'.symm)

end Deployment

/-- One successor committee for each epoch: epoch certificates for one epoch, that authorities with
the trust root `c` accept, name the same next committee. -/
theorem successor_unique {d : Deployment} {net : Net}
    (h : Reachable d.step d.KeepsFences d.start net) {c : Committee} (hf : d.WithinBudget c)
    {x x' : Authority} {cert cert' : EpochCert} {next next' : Committee}
    (hacc : x.AcceptsEpochCert cert c next) (hacc' : x'.AcceptsEpochCert cert' c next')
    (hu : d.UnforgedEpoch net c cert) (hu' : d.UnforgedEpoch net c cert')
    (hepoch : cert.epoch = cert'.epoch) : next.id = next'.id := by
  have hq := Deployment.quorate_of_checked hacc.votes hu
  have hq' := Deployment.quorate_of_checked hacc'.votes hu'
  obtain ⟨a, -, hcast, hcast'⟩ := hq.common hf hq'
  rw [← hepoch] at hcast'
  exact Deployment.epochCast_unique (fun _ _ h => h) h hcast hcast'

/-! ## One frontier for each epoch -/

def Op.isCrash : Op → Bool
  | .crash => true
  | _ => false

namespace Node

variable {cfg : Config} {n : Node}

/-- The epoch votes that the authority signed for `epoch` are over `frontier`. -/
def SignedOnly (n : Node) (epoch : U64) (frontier : Frontier) : Prop :=
  ∀ ev ∈ n.history, match ev with
    | .epochVoted v => v.epoch = epoch → v.frontier = frontier
    | _ => True

instance (n : Node) (epoch : U64) (frontier : Frontier) : Decidable (n.SignedOnly epoch frontier) :=
  @List.decidableBAll _ _ (fun
    | .epochVoted _ => inferInstanceAs (Decidable (_ → _))
    | .voted _ _ | .attested _ | .applied _ _ _ | .installed _ _ _ => .isTrue trivial) n.history

/-- The condition on a step: an authority that signed for the fenced epoch before signs again only
over the same frontier. -/
def SameFrontier (n : Node) : Op → Prop
  | .signEpochVote => match n.live.epochState with
    | .fencing p => n.SignedOnly p.epoch n.live.frontier
    | _ => True
  | _ => True

/-- The condition on the frontier of a vote, by the state of the epoch. -/
instance (n : Node) : ∀ op, Decidable (n.SameFrontier op)
  | .signEpochVote => match h : n.live.epochState with
    | .fencing p => decidable_of_iff (n.SignedOnly p.epoch n.live.frontier) (by
      rw [SameFrontier, h])
    | .active | .installing _ _ _ => .isTrue (by
      rw [SameFrontier, h]
      trivial)
  | .handle _ _ | .confirm _ _ _ _ _ | .fence _ _ | .installEpochCert _ _ _ | .attest _ _
  | .compactJournal _ | .crash => .isTrue trivial

/-- The frontiers signed for one epoch are the same. -/
theorem frontier_signed_once {ok : Node → Op → Prop} (hok : ∀ n op, ok n op → n.SameFrontier op)
    (h : Reachable (step cfg) ok (start cfg) n) {v v' : EpochVote}
    (hv : .epochVoted v ∈ n.history) (hv' : .epochVoted v' ∈ n.history)
    (hepoch : v.epoch = v'.epoch) : v.frontier = v'.frontier := by
  revert v v'
  refine h.invariant (I := fun n => ∀ {v v' : EpochVote}, .epochVoted v ∈ n.history →
    .epochVoted v' ∈ n.history → v.epoch = v'.epoch → v.frontier = v'.frontier) ?_ ?_
  · intro v v' hv
    cases hv
  · intro m op m' _ ih hop hstep v v' hv hv' hepoch
    obtain ⟨events, heq, hemits⟩ := emits_of_step hstep
    rw [heq] at hv hv'
    -- a vote of this step is over the live frontier, and so is every earlier one for its epoch
    have hnew : ∀ {w w' : EpochVote}, .epochVoted w ∈ events → .epochVoted w' ∈ m.history →
        w.epoch = w'.epoch → w.frontier = w'.frontier := by
      intro w w' hw hw' hep
      cases hemits _ hw with
      | epochVoted hsign =>
        obtain ⟨p, next, hs, -, rfl⟩ := Authority.signEpochVote_ok hsign
        have honly := hok _ _ hop
        simp only [SameFrontier, hs] at honly
        exact (honly _ hw' hep.symm).symm
    rcases List.mem_append.mp hv with hv | hv <;> rcases List.mem_append.mp hv' with hv' | hv'
    · exact ih hv hv' hepoch
    · exact (hnew hv' hv hepoch.symm).symm
    · exact hnew hv hv' hepoch
    · cases hemits _ hv with
      | epochVoted hsign =>
        cases hemits _ hv' with
        | epochVoted hsign' =>
          cases hsign.symm.trans hsign'
          rfl

/-- An authority that is installing has recorded the certificate it installs. -/
def Recorded (n : Node) : Prop :=
  ∀ cert next fd, n.live.epochState = .installing cert next fd →
    ∃ old, .installed cert old next ∈ n.history ∧ old.id = n.live.committeeId ∧
      cert.epoch = n.live.epoch + 1 ∧ fd = frontierDigest cert.frontier

theorem Recorded.congr {n' : Node} (h : n.Recorded)
    (hs : n'.live.epochState = n.live.epochState) (hc : n'.live.committeeId = n.live.committeeId)
    (he : n'.live.epoch = n.live.epoch) (hsub : n.history ⊆ n'.history) : n'.Recorded := by
  intro cert next fd hinst
  obtain ⟨old, hmem, hrest⟩ := h cert next fd (hs ▸ hinst)
  refine ⟨old, hsub hmem, ?_⟩
  rw [hc, he]
  exact hrest

theorem recorded_act {op : Op} {n' : Node} (hop : op.isCrash = false) (h : Act cfg op n n')
    (hn : n.Recorded) : n'.Recorded := by
  cases h with
  | commit hp hy =>
    cases hp with
    | locked hcan => cases hy; exact hn.congr rfl rfl rfl (List.subset_append_left _ _)
    | confirmed hcan =>
      obtain ⟨-, rfl⟩ := Authority.replayRecord_confirmed_inv hy
      exact hn.congr rfl rfl rfl (List.subset_append_left _ _)
    | epochFence hcan =>
      cases hy
      intro cert next fd hs
      cases hs
    | @epochInstalled _ cert old next io hacc hidle =>
      intro cert' next' fd hs
      rw [Authority.replayRecord_epochInstalled hacc.roster] at hy
      obtain rfl := Except.ok.inj hy
      by_cases hc : Authority.covers n.live.ledger cert.frontier = true
      · rw [if_pos hc] at hs
        cases hs
      · rw [if_neg hc] at hs ⊢
        cases hs
        refine ⟨old, ?_, hacc.root, hacc.epoch, rfl⟩
        simp only [Op.events, hacc.roster]
        exact List.mem_append_right _ (List.mem_singleton_self _)
  | fail hp kept hio | poison => exact hn.congr rfl rfl rfl (List.Subset.refl _)
  | epochVote hv | attest ha => exact hn.congr rfl rfl rfl (List.subset_append_left _ _)
  | compact hactive hp =>
    intro cert next fd hs
    cases hactive.symm.trans hs
  | crash hx => cases hop

theorem recorded_of_reachable {ok : Node → Op → Prop} (hok : ∀ n op, ok n op → op.isCrash = false)
    (h : Reachable (step cfg) ok (start cfg) n) : n.Recorded := by
  refine (h.mono hok).invariant (fun cert next fd hs => by cases hs) ?_
  intro m op m' _ hm hop hstep
  refine @step_invariant _ cfg m m' Recorded (fun _ op => op.isCrash = false) ?_
    (fun _ _ _ _ _ h => h) (fun op m m' ha hop => recorded_act hop ha) op hm hop hstep
  intro op m m' hq hm
  cases hq with
  | complete hp hc =>
    intro cert next fd hs
    cases (Authority.completeInstall_active _).symm.trans hs
  | vote hp hactive hv hheld => exact hm.congr rfl rfl rfl (List.subset_append_left _ _)

end Node

namespace Deployment

/-- The condition on the steps of a run without crashes. -/
def SteadyFrontiers (d : Deployment) (s : Scope) (net : Net) (step : AuthorityId × Op) : Prop :=
  d.KeepsFences net step ∧ step.2.isCrash = false ∧ d.Delivers s net step ∧
    (net step.1).SameFrontier step.2

instance (d : Deployment) (s : Scope) (net : Net) (step : AuthorityId × Op) :
    Decidable (d.SteadyFrontiers s net step) := inferInstanceAs (Decidable (_ ∧ _ ∧ _ ∧ _))

variable {d : Deployment} {s : Scope} {net : Net} {c : Committee}

/-- Two quorums of epoch votes for one epoch agree on the next committee and on the frontier. -/
theorem epochCast_agree (h : Reachable d.step (d.SteadyFrontiers s) d.start net)
    (hf : d.WithinBudget c) {cid cid' nextId nextId' : CommitteeId} {epoch : U64} {fd fd' : Digest}
    (hq : d.Quorate c fun a => (net a).EpochCast cid epoch nextId fd)
    (hq' : d.Quorate c fun a => (net a).EpochCast cid' epoch nextId' fd') :
    nextId = nextId' ∧ fd = fd' := by
  obtain ⟨a, -, hv, hv'⟩ := hq.common hf hq'
  refine ⟨epochCast_unique (fun _ _ h => h.1) h hv hv', ?_⟩
  obtain ⟨v, hmem, -, he, -, rfl⟩ := hv
  obtain ⟨v', hmem', -, he', -, rfl⟩ := hv'
  have hlocal := component (fun _ n op => n.SameFrontier op) (fun _ _ _ h => h.2.2.2) h a
  have hfrontier := Node.frontier_signed_once (fun _ _ h => h) hlocal hmem hmem'
    (he.trans he'.symm)
  rw [(receipts (fun _ _ h => h.2.2.1) h hmem).2, (receipts (fun _ _ h => h.2.2.1) h hmem').2,
    hfrontier]

/-- A certificate that the authority would refuse as conflicting has a quorum against it. -/
theorem not_conflicting (hs : s.Injective) (hf : ∀ c ∈ s.committees, d.WithinBudget c)
    (h : Reachable d.step (d.SteadyFrontiers s) d.start net) {a : AuthorityId} {cert : EpochCert}
    {old : Committee} {io : Io} (hok : d.SteadyFrontiers s net (a, .installEpochCert cert old io)) :
    ((net a).live.installEpochCert cert old io).1 ≠ .error .conflictingCert := by
  have hspec := (net a).live.installEpochCert_spec cert old io
  generalize (net a).live.installEpochCert cert old io = r at hspec
  cases hspec with
  | refused e hne => intro h; cases h; exact hne rfl
  | already => intro h; cases h
  | stale expected got => intro h; cases h
  | failed h hidle e kept hio => intro h; cases h
  | stored h hidle hy hr => intro h; cases h
  | conflict hacc hstate hdiff =>
    have hlocal := component (fun _ _ op => op.isCrash = false) (fun _ _ _ h => h.2.1) h a
    obtain ⟨old', hmem, hid, hepoch, hfd⟩ :=
      Node.recorded_of_reachable (fun _ _ h => h) hlocal _ _ _ hstate
    obtain ⟨hold', -, hq'⟩ := receipts (fun _ _ h => h.2.2.1) h hmem
    obtain ⟨hunforged, hscope⟩ := hok.2.2.1
    obtain ⟨hold, -⟩ := hscope hacc.root
    have hq := quorate_of_checked hacc.votes hunforged
    have hmembers := s.members_eq hs hold' hold (hid.trans hacc.root.symm)
    have hsame := hepoch.trans hacc.epoch.symm
    rw [hsame] at hq'
    obtain ⟨hnext, hdigest⟩ := epochCast_agree h (hf old hold) (hq'.of_members hmembers) hq
    rcases hdiff with hne | hne | hne
    · exact absurd hnext hne
    · exact absurd (hfd.trans hdigest) hne
    · exact absurd hsame hne

end Deployment

/-- `ConflictingCert` means a broken committee: in a run where nobody honest signs two frontiers for
one epoch, no honest authority answers it, and epoch certificates that a committee within its budget
signed for one epoch agree on the next committee and on the frontier. -/
theorem conflicting_cert_never {d : Deployment} {s : Scope} (hs : s.Injective)
    (hf : ∀ c ∈ s.committees, d.WithinBudget c) {net : Net}
    (h : Reachable d.step (d.SteadyFrontiers s) d.start net) :
    (∀ a cert old io, d.SteadyFrontiers s net (a, .installEpochCert cert old io) →
      ((net a).live.installEpochCert cert old io).1 ≠ .error .conflictingCert) ∧
    ∀ c ∈ s.committees, ∀ (x x' : Authority) (cert cert' : EpochCert) (next next' : Committee),
      x.AcceptsEpochCert cert c next → x'.AcceptsEpochCert cert' c next' →
      d.UnforgedEpoch net c cert → d.UnforgedEpoch net c cert' → cert.epoch = cert'.epoch →
      next.id = next'.id ∧ frontierDigest cert.frontier = frontierDigest cert'.frontier := by
  refine ⟨fun a cert old io hok => Deployment.not_conflicting hs hf h hok, ?_⟩
  intro c hc x x' cert cert' next next' hacc hacc' hu hu' hepoch
  have hq := Deployment.quorate_of_checked hacc.votes hu
  have hq' := Deployment.quorate_of_checked hacc'.votes hu'
  rw [← hepoch] at hq'
  exact Deployment.epochCast_agree h (hf c hc) hq hq'

end EpochVotes

namespace Demo

/-- All four members of `quad` are honest. -/
def quartet : Deployment := deployment [a0, a1, a2, a3] quad

def pairRoster : List (AuthorityId × VerifyingKey) := [(a0, key 0), (a3, key 3)]

/-- The committees that changes to these rosters install, in epoch 1 and in epoch 2. -/
def soloNext : Committee := (Committee.withEpoch soloRoster policy 1).get (by decide +kernel)
def quadNext : Committee := (Committee.withEpoch quadRoster policy 2).get (by decide +kernel)
def pairNext : Committee := (Committee.withEpoch pairRoster policy 2).get (by decide +kernel)

/-- The frontier after `n` transfers of alice. -/
def spentBy (n : U64) : Frontier := [(alice, n), (bob, 0)]

def fences (members : List AuthorityId) (p : EpochProposal) : List (AuthorityId × Op) :=
  members.map fun a => (a, .fence p .stored)

def signs (members : List AuthorityId) : List (AuthorityId × Op) :=
  members.map fun a => (a, .signEpochVote)

/-- Three members fence and sign; one of them crashes in between. -/
def fenceRun : List (AuthorityId × Op) :=
  fences [a0, a1, a2] (proposal soloRoster 1) ++ [(a1, .crash)] ++ signs [a0, a1, a2]

/-- Three members apply the transfer and hand over to `a3`. -/
def handoverRun : List (AuthorityId × Op) :=
  votesFor toBob [a0, a1, a2] ++
    [a0, a1, a2].map (confirms · (certify quad (quadRoster.take 3) toBob)) ++
    fences [a0, a1, a2] (proposal soloRoster 1) ++ signs [a0, a1, a2]

/-- The straggler `a3` completes the handover late and signs for epoch 2. It crashes, installs the
handover again and signs another successor for epoch 2. -/
def forkRun : List (AuthorityId × Op) :=
  handoverRun ++
    [(a3, .installEpochCert handover quad .stored),
      confirms a3 (certify quad (quadRoster.take 3) toBob),
      (a3, .fence (proposal quadRoster 2) .stored), (a3, .signEpochVote), (a3, .crash),
      (a3, .installEpochCert handover quad .stored),
      (a3, .fence (proposal pairRoster 2) .stored), (a3, .signEpochVote)]

/-- The handover with the votes in another order. -/
def handoverAgain : EpochCert :=
  certifyEpoch quad solo soloRoster (quadRoster.take 3).reverse 1 (spentBy 1)

/-- Alice's second transfer. -/
def second : SignedTransfer := .signAtRound policy ⟨alice, 1, bob, 10⟩ 0 (key 100)

/-- The handover over the frontier that has the second transfer too. -/
def handoverSecond : EpochCert :=
  certifyEpoch quad solo soloRoster (quadRoster.take 3) 1 (spentBy 2)

/-- Three members vote for the second transfer before they fence, apply it between two epoch votes,
and so sign two frontiers. The straggler `a3` installs the first. -/
def twoFrontiersRun : List (AuthorityId × Op) :=
  votesFor toBob [a0, a1, a2] ++
    [a0, a1, a2].map (confirms · (certify quad (quadRoster.take 3) toBob)) ++
    votesFor second [a0, a1, a2] ++ fences [a0, a1, a2] (proposal soloRoster 1) ++
    signs [a0, a1, a2] ++
    [a0, a1, a2].map (confirms · (certify quad (quadRoster.take 3) second)) ++
    signs [a0, a1, a2] ++ [(a3, .installEpochCert handover quad .stored)]

end Demo

open Demo in
/-- Two epoch certificates for epoch 1, one of them with the vote of the Byzantine member. -/
theorem successor_unique_demo :
    ∃ net next next', Reachable trio.step trio.KeepsFences trio.start net ∧
      (net a0).live.AcceptsEpochCert
        (certifyEpoch quad solo soloRoster (quadRoster.take 3) 1 (spentBy 0)) quad next ∧
      (net a1).live.AcceptsEpochCert
        (certifyEpoch quad solo soloRoster (quadRoster.drop 1) 1 (spentBy 0)) quad next' ∧
      next.id = next'.id := by
  obtain ⟨net, h, hacc, hacc', hu, hu'⟩ : ∃ net,
      Reachable trio.step trio.KeepsFences trio.start net ∧
      (net a0).live.AcceptsEpochCert
        (certifyEpoch quad solo soloRoster (quadRoster.take 3) 1 (spentBy 0)) quad soloNext ∧
      (net a1).live.AcceptsEpochCert
        (certifyEpoch quad solo soloRoster (quadRoster.drop 1) 1 (spentBy 0)) quad soloNext ∧
      trio.UnforgedEpoch net quad
        (certifyEpoch quad solo soloRoster (quadRoster.take 3) 1 (spentBy 0)) ∧
      trio.UnforgedEpoch net quad
        (certifyEpoch quad solo soloRoster (quadRoster.drop 1) 1 (spentBy 0)) :=
    Reachable.of_exec fenceRun (by decide +kernel)
  exact ⟨net, _, _, h, hacc, hacc', successor_unique h (by decide +kernel) hacc hacc' hu hu' rfl⟩

open Demo in
/-- The straggler itself accepts two certificates for epoch 2, with different successors. -/
theorem successor_forked :
    ∃ net, Reachable quartet.step
      (fun net step => step ∈ forkRun ∧ step.1 ∈ quartet.honest ∧ step.2.Plain ∧
        quartet.Delivers ⟨[quad, solo], [spentBy 1]⟩ net step) quartet.start net ∧
      quartet.WithinBudget solo ∧
      quartet.UnforgedEpoch net solo
        (certifyEpoch solo quad quadRoster soloRoster 2 (spentBy 1)) ∧
      quartet.UnforgedEpoch net solo
        (certifyEpoch solo pairNext pairRoster soloRoster 2 (spentBy 1)) ∧
      (net a3).live.AcceptsEpochCert
        (certifyEpoch solo quad quadRoster soloRoster 2 (spentBy 1)) solo quadNext ∧
      (net a3).live.AcceptsEpochCert
        (certifyEpoch solo pairNext pairRoster soloRoster 2 (spentBy 1)) solo pairNext ∧
      quadNext.id ≠ pairNext.id :=
  Reachable.of_exec forkRun (by decide +kernel)

open Demo in
/-- The straggler is installing the handover and gets a second certificate for it. -/
theorem conflicting_cert_never_demo :
    ∃ net, Reachable quartet.step (quartet.SteadyFrontiers ⟨[quad], [spentBy 1]⟩) quartet.start
        net ∧
      (net a3).live.epochState.isInstalling = true ∧
      ((net a3).live.installEpochCert handoverAgain quad .stored).1 ≠ .error .conflictingCert := by
  obtain ⟨net, h, hinst, hok⟩ : ∃ net,
      Reachable quartet.step (quartet.SteadyFrontiers ⟨[quad], [spentBy 1]⟩) quartet.start net ∧
      (net a3).live.epochState.isInstalling = true ∧
      quartet.SteadyFrontiers ⟨[quad], [spentBy 1]⟩ net
        (a3, .installEpochCert handoverAgain quad .stored) :=
    Reachable.of_exec
      (handoverRun ++ signs [a0, a1, a2] ++ [(a3, .installEpochCert handover quad .stored)])
      (by decide +kernel)
  refine ⟨net, h, hinst, ?_⟩
  exact (conflicting_cert_never (by decide +kernel) (by decide +kernel) h).1 _ _ _ _ hok

open Demo in
/-- Nobody is Byzantine, and the straggler answers `ConflictingCert`. -/
theorem conflicting_cert_reached :
    ∃ net, Reachable quartet.step
      (fun net step => step ∈ twoFrontiersRun ∧ quartet.KeepsFences net step ∧
        quartet.Delivers ⟨[quad], [spentBy 1, spentBy 2]⟩ net step) quartet.start net ∧
      quartet.faulty quad = ∅ ∧ quartet.UnforgedEpoch net quad handoverSecond ∧
      ((net a3).live.installEpochCert handoverSecond quad .stored).1 = .error .conflictingCert :=
  Reachable.of_exec twoFrontiersRun (by decide +kernel)

end P2P333.Transfer333
