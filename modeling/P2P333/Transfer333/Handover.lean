import P2P333.Transfer333.EpochVotes

/-!
# Spending across an epoch change

A committee hands over to the next one at a signed frontier. The handover is safe when every member
of the old committee that signs the frontier has its own votes spent there. Where the next committee
has the id of the old one, the votes of the two epochs count for one certificate: then nobody may
vote for two transfers of a sequence number that the frontier leaves open.

Results:
1. `Node.Chained`: the trust roots of an authority form a chain of installed certificates, and
   `Deployment.root_unique`: honest authorities have the same root in the same epoch.
2. `Node.Covering`: a vote is for a sequence number that the frontiers installed before it leave
   unspent, and that the frontiers signed after it have spent.
3. `no_double_spend_across_epochs`: a sequence number that was spent under the committee of one
   epoch is spent under the next for the same transfer only, in runs that meet
   `Deployment.HandsOver`.
   `double_spend_across_epochs`: an authority that signs the frontier while a vote of its own is
   open lets both committees spend it.
-/

namespace P2P333.Transfer333

open Std Lib

section Handover

variable [Crypto]

/-! ## Frontiers and transfers -/

/-- The frontier leaves the transfer's sequence number unspent. -/
def Frontier.Leaves (f : Frontier) (t : Transfer) : Prop :=
  ∀ n, (t.sender, n) ∈ f → n.toNat ≤ t.fromSeq.toNat

instance (f : Frontier) (t : Transfer) : Decidable (f.Leaves t) :=
  decidable_of_iff (∀ e ∈ f, e.1 = t.sender → e.2.toNat ≤ t.fromSeq.toNat) <| by
    constructor
    · intro h n hmem
      exact h _ hmem rfl
    · rintro h ⟨account, n⟩ hmem rfl
      exact h n hmem

omit [Crypto] in
theorem Frontier.Leaves.of_slot {f : Frontier} {t t' : Transfer} (h : f.Leaves t)
    (hsender : t.sender = t'.sender) (hseq : t.fromSeq = t'.fromSeq) : f.Leaves t' := by
  intro n hmem
  rw [← hseq]
  exact h n (hsender ▸ hmem)

/-- The frontier has the transfer's sequence number spent. -/
def Frontier.Spends (f : Frontier) (t : Transfer) : Prop :=
  ∃ n, (t.sender, n) ∈ f ∧ t.fromSeq.toNat < n.toNat

omit [Crypto] in
theorem Frontier.not_leaves_of_spends {f f' : Frontier} (hf : f.Perm f') {t t' : Transfer}
    (hsender : t.sender = t'.sender) (hseq : t.fromSeq = t'.fromSeq) (h : f.Spends t) :
    ¬ f'.Leaves t' := by
  intro hleaves
  obtain ⟨n, hmem, hlt⟩ := h
  have hle := hleaves.of_slot hsender.symm hseq.symm n (hf.subset hmem)
  exact Nat.lt_irrefl _ (Nat.lt_of_lt_of_le hlt hle)

namespace Authority

variable {x : Authority}

omit [Crypto] in
theorem covers_mono {l l' : Ledger} (h : ∀ a, (l.nextSeq a).toNat ≤ (l'.nextSeq a).toNat)
    {f : Frontier} (hc : covers l f = true) : covers l' f = true := by
  unfold covers at hc ⊢
  rw [List.all_eq_true] at hc ⊢
  intro e he
  have hle := of_decide_eq_true (hc e he)
  exact decide_eq_true (Nat.le_trans hle (h e.1))

/-- An install begins, and is completed at once if the ledger covers its frontier. -/
theorem install_begins {cert : EpochCert} {next : Committee} {x' : Authority}
    (hroster : Committee.withEpoch cert.nextRoster x.policy cert.epoch = some next)
    (hx : x.replayRecord (.epochInstalled cert) = .ok x') :
    x' = x.beginInstall cert next ∨ (x.beginInstall cert next).installCovered = true ∧
      x' = (x.beginInstall cert next).completeInstall := by
  rw [replayRecord_epochInstalled hroster] at hx
  obtain rfl := Except.ok.inj hx
  split
  · next hc => exact .inr ⟨hc, rfl⟩
  · exact .inl rfl

omit [Crypto] in
/-- A covered frontier leaves the orders that the ledger admits. -/
theorem leaves_of_covers {f : Frontier} {t : Transfer} {sender : Account}
    (hc : covers x.ledger f = true) (hadmits : x.ledger.Admits t sender) : f.Leaves t := by
  intro n hmem
  have hle := of_decide_eq_true (List.all_eq_true.mp hc _ hmem)
  rw [hadmits.seq, ← Ledger.nextSeq_of_getElem? hadmits.found]
  exact hle

omit [Crypto] in
/-- The authority's frontier has every spent vote. -/
theorem frontier_spends {v : Vote} (h : x.Spent v) : x.frontier.Spends v.transfer := by
  refine ⟨x.ledger.nextSeq v.transfer.sender, ?_, h⟩
  unfold Spent at h
  cases ha : x.ledger.accounts[v.transfer.sender]? with
  | none =>
    simp only [Ledger.nextSeq, ha] at h
    exact absurd h (Nat.not_lt_zero _)
  | some account =>
    refine List.mem_map.mpr ⟨(v.transfer.sender, account.balance), ?_, rfl⟩
    unfold Ledger.balances
    exact List.mem_map.mpr
      ⟨(v.transfer.sender, account), ExtTreeMap.mem_toList_iff_getElem?_eq_some.mpr ha, rfl⟩

end Authority

/-! ## The chain of trust roots -/

namespace Node

/-- The condition on a step: an authority signs an epoch vote only when the votes it cast under its
current committee are spent. -/
def HandsOver (n : Node) : Op → Prop
  | .signEpochVote => n.live.epochState.isFencing = true → n.VotesSpent n.live.committeeId
  | _ => True

instance (n : Node) : ∀ op, Decidable (n.HandsOver op)
  | .signEpochVote => inferInstanceAs (Decidable (_ → _))
  | .handle _ _ | .confirm _ _ _ _ _ | .fence _ _ | .installEpochCert _ _ _ | .attest _ _
  | .compactJournal _ | .crash => .isTrue trivial

/-- The trust root of the authority in epoch `k`, by its history. -/
def RootAt (cfg : Config) (n : Node) (k : Nat) (cid : CommitteeId) : Prop :=
  k = 0 ∧ cid = cfg.committeeId ∨
    ∃ cert old next, .installed cert old next ∈ n.history ∧ cert.epoch.toNat = k ∧ next.id = cid

/-- Every install leads from the root of one epoch to a root of the next. Votes and applied orders
belong to the root of their epoch. -/
structure Chained (cfg : Config) (n : Node) : Prop where
  root : n.RootAt cfg n.live.epoch.toNat n.live.committeeId
  links : ∀ cert old next, .installed cert old next ∈ n.history →
    ∃ k, cert.epoch.toNat = k + 1 ∧ n.RootAt cfg k old.id
  installing : ∀ cert next fd, n.live.epochState = .installing cert next fd →
    cert.epoch.toNat = n.live.epoch.toNat + 1 ∧ ∃ old, .installed cert old next ∈ n.history
  voted : ∀ v e, .voted v e ∈ n.history →
    e.toNat ≤ n.live.epoch.toNat ∧ n.RootAt cfg e.toNat v.committeeId
  applied : ∀ cert verifier e, .applied cert verifier e ∈ n.history →
    e.toNat ≤ n.live.epoch.toNat ∧ n.RootAt cfg e.toNat verifier.id

variable {cfg : Config} {n n' : Node}

theorem RootAt.mono (h : n.history ⊆ n'.history) {k : Nat} {cid : CommitteeId}
    (hr : n.RootAt cfg k cid) : n'.RootAt cfg k cid := by
  rcases hr with hr | ⟨cert, old, next, hmem, hrest⟩
  · exact .inl hr
  · exact .inr ⟨cert, old, next, h hmem, hrest⟩

/-- Every epoch up to one that has a root was installed. -/
theorem Chained.installed_at (h : Chained cfg n) {k m : Nat} {cid : CommitteeId}
    (hr : n.RootAt cfg k cid) (hm : m < k) :
    ∃ cert old next, .installed cert old next ∈ n.history ∧ cert.epoch.toNat = m + 1 ∧
      n.RootAt cfg m old.id := by
  induction k generalizing cid with
  | zero => exact absurd hm (Nat.not_lt_zero _)
  | succ k ih =>
    rcases hr with ⟨h0, -⟩ | ⟨cert, old, next, hmem, hk, -⟩
    · cases h0
    · obtain ⟨k', hk', hold⟩ := h.links cert old next hmem
      obtain rfl : k' = k := by omega
      rcases Nat.lt_or_eq_of_le (Nat.le_of_lt_succ hm) with hlt | rfl
      · exact ih hold hlt
      · exact ⟨cert, old, next, hmem, hk, hold⟩

/-- The event belongs to the current root and installs nothing. -/
def Fits (n : Node) : Event → Prop
  | .voted v e => v.committeeId = n.live.committeeId ∧ e = n.live.epoch
  | .applied _ verifier e => verifier.id = n.live.committeeId ∧ e = n.live.epoch
  | .installed _ _ _ => False
  | _ => True

/-- Steps under one root, whatever they do to ledger and locks. -/
theorem Chained.frame (h : Chained cfg n) {events : List Event}
    (hhist : n'.history = n.history ++ events) (hevents : ∀ ev ∈ events, n.Fits ev)
    (hs : n'.live.epochState = n.live.epochState ∨ n'.live.epochState.isInstalling = false)
    (hc : n'.live.committeeId = n.live.committeeId) (he : n'.live.epoch = n.live.epoch) :
    Chained cfg n' := by
  have hsub : n.history ⊆ n'.history := hhist ▸ List.subset_append_left _ _
  have hsplit : ∀ {ev}, ev ∈ n'.history → ev ∈ n.history ∨ n.Fits ev := by
    intro ev hev
    rw [hhist] at hev
    exact (List.mem_append.mp hev).imp_right (hevents ev)
  refine ⟨?_, ?_, ?_, ?_, ?_⟩
  · rw [hc, he]
    exact h.root.mono hsub
  · intro cert old next hmem
    obtain ⟨k, hk, hr⟩ := h.links cert old next ((hsplit hmem).resolve_right id)
    exact ⟨k, hk, hr.mono hsub⟩
  · intro cert next fd hinst
    rcases hs with hs | hs
    · obtain ⟨hepoch, old, hmem⟩ := h.installing cert next fd (hs ▸ hinst)
      rw [he]
      exact ⟨hepoch, old, hsub hmem⟩
    · rw [hinst] at hs
      cases hs
  · intro v e hv
    rw [he]
    rcases hsplit hv with hv | ⟨hcid, rfl⟩
    · obtain ⟨hle, hr⟩ := h.voted v e hv
      exact ⟨hle, hr.mono hsub⟩
    · exact ⟨Nat.le_refl _, hcid ▸ h.root.mono hsub⟩
  · intro cert verifier e happ
    rw [he]
    rcases hsplit happ with happ | ⟨hcid, rfl⟩
    · exact (h.applied cert verifier e happ).imp_right (·.mono hsub)
    · exact ⟨Nat.le_refl _, hcid ▸ h.root.mono hsub⟩

theorem Chained.complete (h : Chained cfg n) (hc : n.live.installCovered = true) (late : Bool) :
    Chained cfg { n with live := n.live.completeInstall, late } := by
  obtain ⟨cert, next, fd, hs, -⟩ := Authority.isInstalling_of_covered hc
  obtain ⟨hepoch, old, hmem⟩ := h.installing cert next fd hs
  have hlive : n.live.completeInstall =
      { n.live with epochState := .active, committeeId := next.id, epoch := cert.epoch } := by
    unfold Authority.completeInstall
    rw [hs]
  have hlater : ∀ {k : Nat}, k ≤ n.live.epoch.toNat → k ≤ cert.epoch.toNat := by
    intro k hk
    omega
  rw [hlive]
  refine ⟨.inr ⟨cert, old, next, hmem, rfl, rfl⟩, h.links, fun _ _ _ hinst => (by cases hinst), ?_,
    ?_⟩
  · intro v e hv
    exact (h.voted v e hv).imp_left hlater
  · intro cert' verifier e happ
    exact (h.applied cert' verifier e happ).imp_left hlater

/-- An accepted certificate adds a link. -/
theorem Chained.begin (h : Chained cfg n) {cert : EpochCert} {old next : Committee}
    (hacc : n.live.AcceptsEpochCert cert old next) (hroom : n.live.epoch.toNat + 1 < 2 ^ 64)
    (late : Bool) :
    Chained cfg ⟨n.live.beginInstall cert next, n.history ++ [.installed cert old next], late⟩ := by
  have hepoch := hacc.epoch_toNat hroom
  have hsub : n.history ⊆ n.history ++ [.installed cert old next] := List.subset_append_left _ _
  have hnew : .installed cert old next ∈ n.history ++ [.installed cert old next] :=
    List.mem_append_right _ (List.mem_singleton_self _)
  refine ⟨h.root.mono hsub, ?_, ?_, ?_, ?_⟩
  · intro cert' old' next' hmem
    rcases List.mem_append.mp hmem with hmem | hmem
    · obtain ⟨k, hk, hr⟩ := h.links cert' old' next' hmem
      exact ⟨k, hk, hr.mono hsub⟩
    · cases List.mem_singleton.mp hmem
      rw [hacc.root]
      exact ⟨_, hepoch, h.root.mono hsub⟩
  · intro cert' next' fd hinst
    cases hinst
    exact ⟨hepoch, old, hnew⟩
  · intro v e hv
    exact (h.voted v e (mem_of_ne hv nofun)).imp_right (·.mono hsub)
  · intro cert' verifier e happ
    exact (h.applied cert' verifier e (mem_of_ne happ nofun)).imp_right (·.mono hsub)

end Node

/-! ## Votes and frontiers -/

namespace Node

variable {cfg : Config} {n n' : Node}

/-- The frontiers that were installed before an order was applied leave its sequence number open. -/
def Opens (n : Node) : Event → Prop
  | .applied cert _ e => ∀ ec old next, .installed ec old next ∈ n.history →
    ec.epoch.toNat ≤ e.toNat → ec.frontier.Leaves cert.order.transfer
  | _ => True

/-- What a vote has to do with the frontiers before and after it. -/
structure Covering (n : Node) : Prop where
  covered : ∀ cert old next, .installed cert old next ∈ n.history →
    Authority.covers n.live.ledger cert.frontier = true ∨
      ∃ next fd, n.live.epochState = .installing cert next fd
  locks : ∀ (k : Slot) (o : SignedTransfer), n.live.locked[k]? = some o →
    ∀ cert old next, .installed cert old next ∈ n.history → cert.frontier.Leaves o.transfer
  votes : ∀ v e, .voted v e ∈ n.history → ∀ cert old next, .installed cert old next ∈ n.history →
    cert.epoch.toNat ≤ e.toNat → cert.frontier.Leaves v.transfer
  epochVotes : ∀ v, .epochVoted v ∈ n.history → ∀ w e, .voted w e ∈ n.history →
    e.toNat < v.epoch.toNat → w.committeeId = v.committeeId → v.frontier.Spends w.transfer
  applied : ∀ ev ∈ n.history, n.Opens ev

omit [Crypto] in
/-- An authority that is not installing covers everything it installed. -/
theorem Covering.covers_of_idle (h : n.Covering) (hidle : n.live.epochState.isInstalling = false)
    {cert : EpochCert} {old next : Committee} (hmem : .installed cert old next ∈ n.history) :
    Authority.covers n.live.ledger cert.frontier = true := by
  rcases h.covered cert old next hmem with hcov | ⟨next', fd, hs⟩
  · exact hcov
  · rw [hs] at hidle
    cases hidle

/-- An order that is applied now comes after the frontiers installed so far. -/
theorem Covering.opens (h : n.Covering) (hc : Chained cfg n) {cert : Certificate}
    {verifier : Committee} (hcan : n.live.CanConfirm cert verifier) :
    n.Opens (.applied cert verifier n.live.epoch) := by
  intro ec old next hmem hle
  rcases h.covered ec old next hmem with hcov | ⟨next', fd, hs⟩
  · obtain ⟨sender, hadmits⟩ := Ledger.apply_eq_ok.mp hcan.admitted
    exact Authority.leaves_of_covers hcov hadmits
  · obtain ⟨hepoch, -⟩ := hc.installing ec next' fd hs
    omega

omit [Crypto] in
theorem Opens.mono (hinst : ∀ ec old next, .installed ec old next ∈ n'.history →
    .installed ec old next ∈ n.history) {ev : Event} (h : n.Opens ev) : n'.Opens ev := by
  cases ev with
  | applied cert verifier e => exact fun ec old next hmem => h ec old next (hinst ec old next hmem)
  | _ => trivial

section

variable (h : n.Covering)
include h

omit [Crypto] in
/-- The ledger may move forward, locks may go, and events may be added that are neither votes nor
installs. -/
theorem Covering.frame {events : List Event} (hhist : n'.history = n.history ++ events)
    (hevents : ∀ ev ∈ events, n.Opens ev ∧ ((∃ cert verifier e, ev = .applied cert verifier e) ∨
      ∃ a, ev = .attested a))
    (hs : n'.live.epochState = n.live.epochState ∨ n.live.epochState.isInstalling = false)
    (hseq : ∀ a, (n.live.ledger.nextSeq a).toNat ≤ (n'.live.ledger.nextSeq a).toNat)
    (hlocked : ∀ (k : Slot) (o : SignedTransfer),
      n'.live.locked[k]? = some o → n.live.locked[k]? = some o) : n'.Covering := by
  have hold : ∀ {ev}, ev ∈ n'.history → (∀ cert verifier e, ev ≠ .applied cert verifier e) →
      (∀ a, ev ≠ .attested a) → ev ∈ n.history := by
    intro ev hev happ hatt
    rw [hhist] at hev
    rcases List.mem_append.mp hev with hev | hev
    · exact hev
    · rcases (hevents ev hev).2 with ⟨cert, verifier, e, rfl⟩ | ⟨a, rfl⟩
      · exact absurd rfl (happ cert verifier e)
      · exact absurd rfl (hatt a)
  refine ⟨?_, ?_, ?_, ?_, ?_⟩
  · intro cert old next hmem
    have hmem' := hold hmem nofun nofun
    rcases hs with hs | hidle
    · rcases h.covered cert old next hmem' with hcov | hinst
      · exact .inl (Authority.covers_mono hseq hcov)
      · exact .inr (hs ▸ hinst)
    · exact .inl (Authority.covers_mono hseq (h.covers_of_idle hidle hmem'))
  · intro k o ho cert old next hmem
    exact h.locks k o (hlocked k o ho) cert old next (hold hmem nofun nofun)
  · intro v e hv cert old next hmem
    exact h.votes v e (hold hv nofun nofun) cert old next (hold hmem nofun nofun)
  · intro v hv w e hw
    exact h.epochVotes v (hold hv nofun nofun) w e (hold hw nofun nofun)
  · intro ev hev
    refine Opens.mono (n := n) (fun _ _ _ hmem => hold hmem nofun nofun) ?_
    rw [hhist] at hev
    rcases List.mem_append.mp hev with hev | hev
    · exact h.applied ev hev
    · exact (hevents ev hev).1

theorem Covering.complete (hc : n.live.installCovered = true) (late : Bool) :
    Covering { n with live := n.live.completeInstall, late } := by
  obtain ⟨cert, next, fd, hs, hcov⟩ := Authority.isInstalling_of_covered hc
  have hsync := n.live.synced_completeInstall
  refine ⟨?_, ?_, h.votes, h.epochVotes, fun ev hev =>
    Opens.mono (fun _ _ _ hmem => hmem) (h.applied ev hev)⟩
  · intro cert' old' next' hmem
    left
    rw [hsync.ledger]
    rcases h.covered cert' old' next' hmem with hcov' | ⟨next'', fd', hs'⟩
    · exact hcov'
    · cases hs.symm.trans hs'
      exact hcov
  · intro k o ho
    rw [hsync.locked] at ho
    exact h.locks k o ho

/-- A lock is for an order that the ledger admits, and the ledger covers what was installed. -/
theorem Covering.lock {order : SignedTransfer} (hcan : n.live.CanLock order)
    (hlive : n'.live.locked = n.live.locked.insert (slot order) order)
    (hledger : n'.live.ledger = n.live.ledger) (hs : n'.live.epochState = n.live.epochState)
    (hhist : n'.history = n.history) : n'.Covering := by
  have hidle : n.live.epochState.isInstalling = false := by rw [hcan.active]; rfl
  refine ⟨?_, ?_, ?_, ?_, ?_⟩
  · rw [hhist, hledger, hs]
    exact h.covered
  · intro k o ho cert old next hmem
    rw [hhist] at hmem
    rw [hlive] at ho
    by_cases hk : slot order = k
    · rw [← hk, ExtTreeMap.getElem?_insert_self] at ho
      rw [← Option.some.inj ho]
      obtain ⟨sender, hadmits⟩ := Ledger.preflight_eq_ok.mp hcan.admitted
      exact Authority.leaves_of_covers (h.covers_of_idle hidle hmem) hadmits
    · rw [OrdMap.getElem?_insert_of_ne _ hk] at ho
      exact h.locks k o ho cert old next hmem
  · rw [hhist]
    exact h.votes
  · rw [hhist]
    exact h.epochVotes
  · intro ev hev
    rw [hhist] at hev
    exact Opens.mono (fun _ _ _ hmem => hhist ▸ hmem) (h.applied ev hev)

omit [Crypto] in
/-- An event that is neither an applied order nor an install. -/
theorem Covering.applied_append {ev : Event} (hev : n.Opens ev)
    (hne : ∀ ec old next, ev ≠ .installed ec old next) :
    ∀ ev' ∈ n.history ++ [ev], Opens { n with history := n.history ++ [ev] } ev' := by
  intro ev' hmem
  refine Opens.mono (n := n) (fun ec old next hinst => mem_of_ne hinst (hne ec old next).symm) ?_
  rcases List.mem_append.mp hmem with hmem | hmem
  · exact h.applied ev' hmem
  · exact List.mem_singleton.mp hmem ▸ hev

/-- A vote is for a locked order, and lies after every epoch vote of the authority. -/
theorem Covering.vote {order : SignedTransfer}
    (hactive : n.live.epochState = .active) (hheld : n.live.locked[slot order]? = some order)
    (hpast : ∀ v, .epochVoted v ∈ n.history → n.live.Past v) :
    Covering { n with history := n.history ++ [.voted (n.live.sign order) n.live.epoch] } := by
  refine ⟨?_, ?_, ?_, ?_, h.applied_append trivial nofun⟩
  · intro cert old next hmem
    exact h.covered cert old next (mem_of_ne hmem nofun)
  · intro k o ho cert old next hmem
    exact h.locks k o ho cert old next (mem_of_ne hmem nofun)
  · intro v e hv cert old next hmem hle
    have hmem' := mem_of_ne hmem nofun
    rcases List.mem_append.mp hv with hv | hv
    · exact h.votes v e hv cert old next hmem' hle
    · cases List.mem_singleton.mp hv
      exact h.locks _ _ hheld cert old next hmem'
  · intro v hv w e hw hlt
    have hv' := mem_of_ne hv nofun
    rcases List.mem_append.mp hw with hw | hw
    · exact h.epochVotes v hv' w e hw hlt
    · cases List.mem_singleton.mp hw
      have hle := hpast v hv'
      unfold Authority.Past at hle
      rw [hactive] at hle
      exact absurd hlt (Nat.not_lt.mpr hle)

/-- An authority that signs its frontier has its votes spent. -/
theorem Covering.epochVote {v : EpochVote} (hv : n.live.signEpochVote = .ok v)
    (hok : n.HandsOver .signEpochVote) :
    Covering { n with history := n.history ++ [.epochVoted v] } := by
  obtain ⟨p, next, hs, -, rfl⟩ := Authority.signEpochVote_ok hv
  have hspent := hok (by rw [hs]; rfl)
  refine ⟨?_, ?_, ?_, ?_, h.applied_append trivial nofun⟩
  · intro cert old next hmem
    exact h.covered cert old next (mem_of_ne hmem nofun)
  · intro k o ho cert old next hmem
    exact h.locks k o ho cert old next (mem_of_ne hmem nofun)
  · intro v e hv cert old next hmem
    exact h.votes v e (mem_of_ne hv nofun) cert old next (mem_of_ne hmem nofun)
  · intro w hw u e hu hlt hcid
    have hu' := mem_of_ne hu nofun
    rcases List.mem_append.mp hw with hw | hw
    · exact h.epochVotes w hw u e hu' hlt hcid
    · cases List.mem_singleton.mp hw
      have hvoted : u.committeeId = n.live.committeeId → n.live.Spent u := hspent _ hu'
      exact Authority.frontier_spends (hvoted hcid)

/-- An install drops the locks, and is for a later epoch than every vote. -/
theorem Covering.begin {cert : EpochCert} {old next : Committee}
    (hacc : n.live.AcceptsEpochCert cert old next) (hroom : n.live.epoch.toNat + 1 < 2 ^ 64)
    (hidle : n.live.epochState.isInstalling = false)
    (hc : Chained cfg n) (late : Bool) :
    Covering ⟨n.live.beginInstall cert next, n.history ++ [.installed cert old next], late⟩ := by
  have hepoch := hacc.epoch_toNat hroom
  refine ⟨?_, ?_, ?_, ?_, ?_⟩
  · intro cert' old' next' hmem
    rcases List.mem_append.mp hmem with hmem | hmem
    · exact .inl (h.covers_of_idle hidle hmem)
    · cases List.mem_singleton.mp hmem
      exact .inr ⟨next, _, rfl⟩
  · intro k o ho
    cases ho
  · intro v e hv cert' old' next' hmem hle
    have hv' := mem_of_ne hv nofun
    rcases List.mem_append.mp hmem with hmem | hmem
    · exact h.votes v e hv' cert' old' next' hmem hle
    · cases List.mem_singleton.mp hmem
      have hlate := (hc.voted v e hv').1
      omega
  · intro v hv w e hw
    exact h.epochVotes v (mem_of_ne hv nofun) w e (mem_of_ne hw nofun)
  · intro ev hev
    cases ev with
    | applied cert' verifier e =>
      have happ := mem_of_ne hev nofun
      intro ec old' next' hmem hle
      rcases List.mem_append.mp hmem with hmem | hmem
      · exact h.applied _ happ ec old' next' hmem hle
      · cases List.mem_singleton.mp hmem
        have hlate := (hc.applied cert' verifier e happ).1
        omega
    | _ => trivial

end

end Node

/-! ## Runs of one authority -/

namespace Node

variable {cfg : Config} {n : Node}

/-- Everything that the argument needs to know about one authority. -/
structure Orderly (cfg : Config) (n : Node) (y : Authority) : Prop where
  successors : Successors n y
  chained : Chained cfg n
  covering : Covering n

/-- The guard on the steps of one authority: no crash, every write succeeds. -/
def HandsOverCleanly (cfg : Config) (n : Node) (op : Op) : Prop :=
  (op.Plain ∧ n.RecoversFence cfg op) ∧ op.isCrash = false ∧ n.HandsOver op

theorem chained_commit {op : Op} {r : JournalRecord} {x' : Authority}
    (hok : n.HandsOverCleanly cfg op) (hp : n.live.Pending op r)
    (hx : n.live.replayRecord r = .ok x') (h : Chained cfg n) (late : Bool) :
    Chained cfg ⟨x'.withRecord r, n.history ++ op.events n.live, late⟩ := by
  cases hp with
  | locked hcan =>
    cases hx
    exact h.frame rfl (List.forall_mem_nil _) (.inl rfl) rfl rfl
  | confirmed hcan =>
    obtain ⟨-, rfl⟩ := Authority.replayRecord_confirmed_inv hx
    refine h.frame rfl ?_ (.inl rfl) rfl rfl
    intro ev hev
    cases List.mem_singleton.mp hev
    exact ⟨hcan.root, rfl⟩
  | epochFence hcan =>
    cases hx
    exact h.frame rfl (List.forall_mem_nil _) (.inr rfl) rfl rfl
  | @epochInstalled _ cert old next io hacc hidle =>
    have hbegin := h.begin hacc hok.1.2 late
    simp only [Op.events, hacc.roster]
    rcases Authority.install_begins hacc.roster hx with rfl | ⟨hcov, rfl⟩
    · exact hbegin.frame (List.append_nil _).symm (List.forall_mem_nil _) (.inl rfl) rfl rfl
    · exact (hbegin.complete hcov late).frame (List.append_nil _).symm (List.forall_mem_nil _)
        (.inl rfl) rfl rfl

theorem covering_commit {op : Op} {r : JournalRecord} {x' : Authority}
    (hok : n.HandsOverCleanly cfg op) (hp : n.live.Pending op r)
    (hx : n.live.replayRecord r = .ok x') (hc : Chained cfg n) (h : Covering n) (late : Bool) :
    Covering ⟨x'.withRecord r, n.history ++ op.events n.live, late⟩ := by
  cases hp with
  | locked hcan =>
    cases hx
    exact h.lock hcan rfl rfl rfl (List.append_nil _)
  | confirmed hcan =>
    obtain ⟨-, rfl⟩ := Authority.replayRecord_confirmed_inv hx
    refine h.frame rfl ?_ (.inl rfl) (Ledger.nextSeq_le_apply _ _) ?_
    · intro ev hev
      cases List.mem_singleton.mp hev
      exact ⟨h.opens hc hcan, .inl ⟨_, _, _, rfl⟩⟩
    · intro k o ho
      exact (Authority.getElem?_dropSlots.mp ho).1
  | epochFence hcan =>
    cases hx
    have hidle : n.live.epochState.isInstalling = false := by rw [hcan.active]; rfl
    exact h.frame rfl (List.forall_mem_nil _) (.inr hidle) (fun _ => Nat.le_refl _) fun _ _ ho => ho
  | @epochInstalled _ cert old next io hacc hidle =>
    have hbegin := h.begin hacc hok.1.2 hidle hc late
    simp only [Op.events, hacc.roster]
    rcases Authority.install_begins hacc.roster hx with rfl | ⟨hcov, rfl⟩
    · exact hbegin.frame (List.append_nil _).symm (List.forall_mem_nil _) (.inl rfl)
        (fun _ => Nat.le_refl _)
        fun _ _ ho => ho
    · exact (hbegin.complete hcov late).frame (List.append_nil _).symm
        (List.forall_mem_nil _) (.inl rfl)
        (fun _ => Nat.le_refl _) fun _ _ ho => ho

theorem orderly_pair (cfg : Config) : Pair cfg (HandsOverCleanly cfg) (Orderly cfg) where
  start := by
    refine ⟨(successors_pair cfg).start, ⟨.inl ⟨rfl, rfl⟩, ?_, ?_, ?_, ?_⟩, ⟨?_, ?_, ?_, ?_, ?_⟩⟩
    all_goals nofun
  stable _ h := h
  complete hbase hrec hp hc h :=
    ⟨(successors_pair cfg).complete hbase hrec hp hc h.successors, h.chained.complete hc true,
      h.covering.complete hc true⟩
  vote hbase hrec hp hactive hv hheld h := by
    refine ⟨(successors_pair cfg).vote hbase hrec hp hactive hv hheld h.successors,
      h.chained.frame rfl ?_ (.inl rfl) rfl rfl,
      h.covering.vote hactive hheld fun v hv => (h.successors.past v hv).1⟩
    intro ev hev
    cases List.mem_singleton.mp hev
    exact ⟨rfl, rfl⟩
  commit hbase hrec hok hp hsync hx hy h :=
    ⟨(successors_pair cfg).commit hbase hrec hok.1 hp hsync hx hy h.successors,
      chained_commit hok hp hx h.chained _, covering_commit hok hp hx h.chained h.covering _⟩
  lost _ _ hok hio _ _ _ := absurd hok.1.1.1 hio
  kept _ _ hok hio _ _ _ _ := absurd hok.1.1.1 hio
  poison h :=
    ⟨(successors_pair cfg).poison h.successors,
      h.chained.frame (List.append_nil _).symm nofun (.inl rfl) rfl rfl,
      h.covering.frame (List.append_nil _).symm nofun (.inl rfl) (fun _ => Nat.le_refl _)
        fun _ _ ho => ho⟩
  epochVote hbase hrec hok hv h := by
    refine ⟨(successors_pair cfg).epochVote hbase hrec hok.1 hv h.successors,
      h.chained.frame rfl ?_ (.inl rfl) rfl rfl, h.covering.epochVote hv hok.2.2⟩
    intro ev hev
    cases List.mem_singleton.mp hev
    trivial
  attest hbase hrec ha h := by
    refine ⟨(successors_pair cfg).attest hbase hrec ha h.successors,
      h.chained.frame rfl ?_ (.inl rfl) rfl rfl,
      h.covering.frame rfl ?_ (.inl rfl) (fun _ => Nat.le_refl _) fun _ _ ho => ho⟩
    · intro ev hev
      cases List.mem_singleton.mp hev
      trivial
    · intro ev hev
      cases List.mem_singleton.mp hev
      exact ⟨trivial, .inr ⟨_, rfl⟩⟩
  compact _ hok _ _ := absurd hok.1.1.2 Bool.noConfusion
  crash _ _ hok _ := absurd hok.2.1 Bool.noConfusion

theorem orderly_of_reachable {ok : Node → Op → Prop}
    (hok : ∀ n op, ok n op →
      op.Plain ∧ n.KeepsFence op ∧ op.isCrash = false ∧ n.HandsOver op)
    (h : Reachable (step cfg) ok (start cfg) n) : Chained cfg n ∧ Covering n := by
  have horderly := pair_invariant (orderly_pair cfg) <|
    h.strengthen (I := Holds cfg Follows)
      (fun m hm => pair_invariant (follows_pair cfg) (hm.mono fun _ _ h => (hok _ _ h).1))
      fun m op hm hop => ⟨⟨(hok m op hop).1, recoversFence_of_follows hm (hok m op hop).2.1⟩,
        (hok m op hop).2.2⟩
  obtain ⟨-, y, -, hn⟩ := horderly
  exact ⟨hn.chained, hn.covering⟩

end Node

/-! ## Runs of the network -/

/-- The install of a committee over one with the same id, at a frontier that leaves the transfer's
sequence number open. -/
def Event.Renews (cid : CommitteeId) (t : Transfer) : Event → Prop
  | .installed cert old next => old.id = cid ∧ next.id = cid ∧ cert.frontier.Leaves t
  | _ => False

instance (cid : CommitteeId) (t : Transfer) : ∀ ev : Event, Decidable (ev.Renews cid t)
  | .installed _ _ _ => inferInstanceAs (Decidable (_ ∧ _ ∧ _))
  | .voted _ _ | .epochVoted _ | .attested _ | .applied _ _ _ => .isFalse id

/-- The votes under a committee that a frontier leaves open are for one transfer for each sequence
number. -/
def Node.SingleVoted (n : Node) (cid : CommitteeId) (f : Frontier) : Prop :=
  ∀ v ∈ n.votes, v.committeeId = cid → f.Leaves v.transfer →
    ∀ w ∈ n.votesAt v.transfer.sender v.transfer.fromSeq, w.committeeId = cid →
      w.transfer = v.transfer

instance (n : Node) (cid : CommitteeId) (f : Frontier) : Decidable (n.SingleVoted cid f) :=
  inferInstanceAs (Decidable (∀ v ∈ n.votes, _ → _ → ∀ w ∈ _, _))

namespace Deployment

/-- An honest authority has installed a committee over itself, at a frontier that leaves the
transfer's sequence number open. -/
def Renewed (d : Deployment) (net : Net) (cid : CommitteeId) (t : Transfer) : Prop :=
  ∃ a ∈ d.honest, ∃ ev ∈ (net a).history, ev.Renews cid t

/-- The condition on a step that keeps the votes of a renewed committee together: the votes of the
honest authorities under its id that the frontier leaves open are for one transfer for each sequence
number, those cast before the install and those cast after it. -/
def KeepsVotes (d : Deployment) (net : Net) (step : AuthorityId × Op) : Prop :=
  match step.2 with
  | .handle order _ => (net step.1).live.Signable order →
    ∀ v ∈ (net step.1).votesAt order.transfer.sender order.transfer.fromSeq,
      (net step.1).live.root = some v.committeeId → d.Renewed net v.committeeId order.transfer →
        v.transfer = order.transfer
  | .installEpochCert cert old _ =>
    ∀ next ∈ Committee.withEpoch cert.nextRoster (net step.1).live.policy cert.epoch,
      (net step.1).live.AcceptsEpochCert cert old next → next.id = old.id →
        ∀ a ∈ d.honest, (net a).SingleVoted old.id cert.frontier
  | _ => True

/-- The condition on the steps of a run. -/
def HandsOver (d : Deployment) (s : Scope) (net : Net) (step : AuthorityId × Op) : Prop :=
  d.KeepsFences net step ∧ step.2.isCrash = false ∧ d.Delivers s net step ∧
    (net step.1).HandsOver step.2 ∧ d.KeepsVotes net step

instance (d : Deployment) (net : Net) (cid : CommitteeId) (t : Transfer) :
    Decidable (d.Renewed net cid t) :=
  inferInstanceAs (Decidable (∃ a ∈ d.honest, ∃ ev ∈ (net a).history, _))

instance (d : Deployment) (net : Net) : ∀ step, Decidable (d.KeepsVotes net step)
  | (_, .handle _ _) => inferInstanceAs (Decidable (_ → ∀ v ∈ _, _ → _ → _))
  | (_, .installEpochCert _ _ _) =>
    inferInstanceAs (Decidable (∀ next ∈ _, _ → _ → ∀ a ∈ _, _))
  | (_, .confirm _ _ _ _ _) | (_, .fence _ _) | (_, .signEpochVote) | (_, .attest _ _)
  | (_, .compactJournal _) | (_, .crash) => .isTrue trivial

instance (d : Deployment) (s : Scope) (net : Net) (step : AuthorityId × Op) :
    Decidable (d.HandsOver s net step) := inferInstanceAs (Decidable (_ ∧ _ ∧ _ ∧ _ ∧ _))

variable {d : Deployment} {s : Scope} {net : Net} {c0 : CommitteeId}

/-- Only honest authorities have a history. -/
theorem honest_of_event {ok : Net → AuthorityId × Op → Prop}
    (hok : ∀ net step, ok net step → step.1 ∈ d.honest) (h : Reachable d.step ok d.start net)
    {a : AuthorityId} {ev : Event} (hev : ev ∈ (net a).history) : a ∈ d.honest := by
  revert a ev
  refine h.invariant (I := fun net => ∀ {a : AuthorityId} {ev : Event}, ev ∈ (net a).history →
    a ∈ d.honest) ?_ ?_
  · intro a ev hev
    cases hev
  · rintro net ⟨b, op⟩ net' - ih hstep hnet a ev hev
    rcases (emits_of_step hnet a).2 _ hev with hold | ⟨rfl, -⟩
    · exact ih hold
    · exact hok _ _ hstep

/-- The honest votes under a renewed committee id are for one transfer for each sequence number that
the frontier of the renewal leaves open. A new vote is an order that a step with the condition has
handled. -/
theorem singleVoted (h : Reachable d.step (d.HandsOver s) d.start net) :
    ∀ a cert old next, .installed cert old next ∈ (net a).history → next.id = old.id →
      ∀ b ∈ d.honest, (net b).SingleVoted old.id cert.frontier := by
  refine h.invariant (I := fun net => ∀ a cert old next,
    .installed cert old next ∈ (net a).history → next.id = old.id → ∀ b ∈ d.honest,
      (net b).SingleVoted old.id cert.frontier) ?_ ?_
  · intro a cert old next hmem
    cases hmem
  · rintro net ⟨x, op⟩ net' hreach ih hok hnet a cert old next hmem hid b hb
    have hvoted : ∀ v e, .voted v e ∈ (net' b).history → .voted v e ∈ (net b).history ∨
        b = x ∧ ∃ order io, op = .handle order io ∧ (net b).live.Signs order v := by
      intro v e hv
      obtain ⟨n, hn, rfl⟩ := componentStep_eq_some.mp hnet
      by_cases hbx : b = x
      · subst hbx
        rw [Function.update_self] at hv
        exact (Node.voted_of_step hn hv).imp_right fun h => ⟨rfl, h⟩
      · rw [Function.update_of_ne hbx] at hv
        exact .inl hv
    rcases (emits_of_step hnet a).2 _ hmem with hold | ⟨rfl, hemit⟩
    · have hsingle := ih a cert old next hold hid b hb
      -- an order that is voted for now has the transfer of every earlier vote that is left open
      have hnew : ∀ v w k, .voted w k ∈ (net b).history → v.committeeId = old.id →
          w.committeeId = old.id → cert.frontier.Leaves v.transfer →
          w.transfer.sender = v.transfer.sender → w.transfer.fromSeq = v.transfer.fromSeq →
          (b = x ∧ ∃ order io, op = .handle order io ∧ (net b).live.Signs order v) →
          w.transfer = v.transfer := by
        rintro v w k hw hcid hwcid hopen hsender hseq ⟨rfl, order, io, rfl, hsigns⟩
        rw [hsigns.transfer] at hopen hsender hseq ⊢
        have hhonest : a ∈ d.honest := honest_of_event (fun _ _ h => h.1.1) hreach hold
        refine hok.2.2.2.2 hsigns.signable w (Node.mem_votesAt.mpr ⟨⟨k, hw⟩, hsender, hseq⟩) ?_ ?_
        · rw [hwcid, ← hcid, hsigns.root]
        · rw [hwcid]
          exact ⟨a, hhonest, _, hold, rfl, hid, hopen⟩
      intro v hv hcid hopen w hw hwcid
      obtain ⟨e, hvev⟩ := Node.mem_votes.mp hv
      obtain ⟨⟨k, hwev⟩, hsender, hseq⟩ := Node.mem_votesAt.mp hw
      rcases hvoted v e hvev with hvold | hvnew
      · rcases hvoted w k hwev with hwold | hwnew
        · exact hsingle v (Node.mem_votes.mpr ⟨e, hvold⟩) hcid hopen w
            (Node.mem_votesAt.mpr ⟨⟨k, hwold⟩, hsender, hseq⟩) hwcid
        · exact (hnew w v e hvold hwcid hcid (hopen.of_slot hsender.symm hseq.symm) hsender.symm
            hseq.symm hwnew).symm
      · rcases hvoted w k hwev with hwold | ⟨-, order', io', hop', hsigns'⟩
        · exact hnew v w k hwold hcid hwcid hopen hsender hseq hvnew
        · obtain ⟨-, order, io, hop, hsigns⟩ := hvnew
          cases hop.symm.trans hop'
          rw [hsigns.transfer, hsigns'.transfer]
    · -- the install itself: it casts no vote
      cases hemit with
      | @installed _ _ _ io hacc =>
        have hback : ∀ v e, .voted v e ∈ (net' b).history → .voted v e ∈ (net b).history := by
          intro v e hv
          rcases hvoted v e hv with hv | ⟨-, order, io, hop, -⟩
          · exact hv
          · cases hop
        intro v hv hcid hopen w hw hwcid
        obtain ⟨e, hvev⟩ := Node.mem_votes.mp hv
        obtain ⟨⟨k, hwev⟩, hsender, hseq⟩ := Node.mem_votesAt.mp hw
        exact hok.2.2.2.2 next hacc.roster hacc hid b hb v
          (Node.mem_votes.mpr ⟨e, hback v e hvev⟩) hcid hopen w
          (Node.mem_votesAt.mpr ⟨⟨k, hback w k hwev⟩, hsender, hseq⟩) hwcid

section Handover

variable (hs : s.Injective) (hf : ∀ c ∈ s.committees, d.WithinBudget c)
  (hroot : ∀ a ∈ d.honest, (d.config a).committeeId = c0)
  (h : Reachable d.step (d.HandsOver s) d.start net)
include h

theorem orderly (a : AuthorityId) : (net a).Chained (d.config a) ∧ (net a).Covering :=
  Node.orderly_of_reachable (fun _ _ h => h) <|
    component (fun _ n op => op.Plain ∧ n.KeepsFence op ∧ op.isCrash = false ∧ n.HandsOver op)
      (fun _ _ _ h => ⟨h.1.2.1, h.1.2.2, h.2.1, h.2.2.2.1⟩) h a

include hs hf hroot in
/-- Honest authorities have the same trust root in the same epoch. The induction is on the epoch:
the roots before are the same committee, and that committee named one successor. -/
theorem root_unique {a a' : AuthorityId} (ha : a ∈ d.honest) (ha' : a' ∈ d.honest) {k : Nat}
    {cid cid' : CommitteeId} (hr : (net a).RootAt (d.config a) k cid)
    (hr' : (net a').RootAt (d.config a') k cid') : cid = cid' := by
  induction k generalizing cid cid' with
  | zero =>
    have hstart : ∀ {a cid}, a ∈ d.honest → (net a).RootAt (d.config a) 0 cid → cid = c0 := by
      intro a cid ha hr
      rcases hr with ⟨-, rfl⟩ | ⟨cert, old, next, hmem, hk, -⟩
      · exact hroot a ha
      · obtain ⟨k, hk', -⟩ := (orderly h a).1.links cert old next hmem
        omega
    exact (hstart ha hr).trans (hstart ha' hr').symm
  | succ k ih =>
    rcases hr with ⟨h0, -⟩ | ⟨cert, old, next, hmem, hk, rfl⟩
    · cases h0
    rcases hr' with ⟨h0, -⟩ | ⟨cert', old', next', hmem', hk', rfl⟩
    · cases h0
    obtain ⟨j, hj, hold⟩ := (orderly h a).1.links cert old next hmem
    obtain ⟨j', hj', hold'⟩ := (orderly h a').1.links cert' old' next' hmem'
    obtain rfl : j = k := by omega
    obtain rfl : j' = j := by omega
    obtain ⟨hscope, -, hq⟩ := receipts (fun _ _ h => h.2.2.1) h hmem
    obtain ⟨hscope', -, hq'⟩ := receipts (fun _ _ h => h.2.2.1) h hmem'
    have hmembers := s.members_eq hs hscope' hscope (ih hold hold').symm
    obtain ⟨b, -, hcast, hcast'⟩ := hq.common (hf old hscope) (hq'.of_members hmembers)
    have hepoch : cert'.epoch = cert.epoch := BitVec.eq_of_toNat_eq (hk'.trans hk.symm)
    rw [hepoch] at hcast'
    exact epochCast_unique (fun _ _ h => h.1) h hcast hcast'

/-- An honest authority voted about the slot in epoch `k`, under the committee id `cid`. -/
def VotedAt (d : Deployment) (net : Net) (account : AccountId) (seq : U64) (cid : CommitteeId)
    (k : Nat) : Prop :=
  ∃ a ∈ d.honest, ∃ v e, .voted v e ∈ (net a).history ∧ v.committeeId = cid ∧
    v.transfer.sender = account ∧ v.transfer.fromSeq = seq ∧ e.toNat = k

include hs hf hroot in
/-- A quorum voted about a slot under the committee `c`, last in epoch `m`. Then nobody votes about
it in a later epoch: on the way there the committee `c` has signed a frontier that has the slot
spent. -/
theorem not_votedAt_later {c : Committee} (hc : c ∈ s.committees) {account : AccountId} {seq : U64}
    {t : Transfer} {round : U64} (hq : d.Quorate c fun a => (net a).Cast c.id t round)
    (hsender : t.sender = account) (hseq : t.fromSeq = seq) {m : Nat}
    (hm : d.VotedAt net account seq c.id m)
    (hlast : ∀ k, d.VotedAt net account seq c.id k → k ≤ m) {cid : CommitteeId} {k : Nat}
    (hk : m < k) : ¬ d.VotedAt net account seq cid k := by
  rintro ⟨b, hb, v, e, hv, -, hvs, hvq, rfl⟩
  obtain ⟨a, ha, u, i, hu, hucid, -, -, rfl⟩ := hm
  -- the later voter has installed the epoch after `m`, from the committee `c`
  obtain ⟨cert, old, next, hmem, hepoch, hold⟩ :=
    (orderly h b).1.installed_at ((orderly h b).1.voted v e hv).2 hk
  have hid : old.id = c.id := by
    rw [← hucid]
    exact root_unique hs hf hroot h hb ha hold ((orderly h a).1.voted u i hu).2
  obtain ⟨hscope, hfrontier, hqe⟩ := receipts (fun _ _ h => h.2.2.1) h hmem
  have hqe' := hqe.of_members (s.members_eq hs hscope hc hid)
  -- a member of `c` voted about the slot, and signed the frontier of that install afterwards
  obtain ⟨x, hx, ⟨w, j, hw, hwcid, rfl, -⟩, ⟨ev, hev, hecid, heepoch, -, hefd⟩⟩ :=
    hq.common (hf c hc) hqe'
  have hj : j.toNat ≤ i.toNat := hlast _ ⟨x, hx, w, j, hw, hwcid, hsender, hseq, rfl⟩
  have hspends := (orderly h x).2.epochVotes ev hev w j hw (by rw [heepoch]; omega)
    (hwcid.trans (hid.symm.trans hecid.symm))
  have hleaves := (orderly h b).2.votes v e hv cert old next hmem (by omega)
  obtain ⟨hevscope, hdigest⟩ := receipts (fun _ _ h => h.2.2.1) h hev
  have hperm := s.frontier_perm hs hevscope hfrontier (hdigest.symm.trans hefd)
  exact Frontier.not_leaves_of_spends hperm (hsender.trans hvs.symm) (hseq.trans hvq.symm) hspends
    hleaves

omit h in
/-- The last epoch in which a slot that a quorum voted about was voted about. -/
theorem exists_last_votedAt (hf : ∀ c ∈ s.committees, d.WithinBudget c) {c : Committee}
    (hc : c ∈ s.committees) {t : Transfer} {round : U64}
    (hq : d.Quorate c fun a => (net a).Cast c.id t round) :
    ∃ m, d.VotedAt net t.sender t.fromSeq c.id m ∧
      ∀ k, d.VotedAt net t.sender t.fromSeq c.id k → k ≤ m := by
  have hne : {k | d.VotedAt net t.sender t.fromSeq c.id k}.Nonempty := by
    obtain ⟨a, ha, ⟨v, e, hv, hcid, rfl, -⟩, -⟩ := hq.common (hf c hc) hq
    exact ⟨e.toNat, a, ha, v, e, hv, hcid, rfl, rfl, rfl⟩
  have hbdd : BddAbove {k | d.VotedAt net t.sender t.fromSeq c.id k} := by
    refine ⟨2 ^ 64, ?_⟩
    rintro k ⟨a, -, v, e, -, -, -, -, rfl⟩
    exact e.isLt.le
  exact ⟨_, Nat.sSup_mem hne hbdd, fun k hk => le_csSup hbdd hk⟩

include hs hf hroot in
/-- A slot has a quorum of votes under one committee id only. -/
theorem quorate_slot_unique {c c' : Committee} (hc : c ∈ s.committees) (hc' : c' ∈ s.committees)
    {t t' : Transfer} {round round' : U64}
    (hq : d.Quorate c fun a => (net a).Cast c.id t round)
    (hq' : d.Quorate c' fun a => (net a).Cast c'.id t' round') (hsender : t.sender = t'.sender)
    (hseq : t.fromSeq = t'.fromSeq) : c.id = c'.id := by
  obtain ⟨m, hm, hlast⟩ := exists_last_votedAt hf hc hq
  obtain ⟨m', hm', hlast'⟩ := exists_last_votedAt hf hc' hq'
  rw [← hsender, ← hseq] at hm' hlast'
  rcases Nat.lt_trichotomy m m' with hlt | rfl | hlt
  · exact absurd hm' (not_votedAt_later hs hf hroot h hc hq rfl rfl hm hlast hlt)
  · obtain ⟨a, ha, v, e, hv, hcid, -, -, rfl⟩ := hm
    obtain ⟨a', ha', v', e', hv', hcid', -, -, he⟩ := hm'
    have hr := ((orderly h a).1.voted v e hv).2
    have hr' := ((orderly h a').1.voted v' e' hv').2
    rw [he, hcid'] at hr'
    rw [hcid] at hr
    exact root_unique hs hf hroot h ha ha' hr hr'
  · exact absurd hm
      (not_votedAt_later hs hf hroot h hc' hq' hsender.symm hseq.symm hm' hlast' hlt)

end Handover

end Deployment

/-- No double spend across an epoch change: where an honest authority applied an order under the
committee of one epoch, and one applied an order for the same sequence number under the committee of
the next, the two committees have one id and the two orders one transfer. -/
theorem no_double_spend_across_epochs {d : Deployment} {s : Scope} (hs : s.Injective)
    (hf : ∀ c ∈ s.committees, d.WithinBudget c) {c0 : CommitteeId}
    (hroot : ∀ a ∈ d.honest, (d.config a).committeeId = c0) {net : Net}
    (h : Reachable d.step (d.HandsOver s) d.start net) {a a' : AuthorityId}
    {cert cert' : Certificate} {verifier verifier' : Committee} {e e' : U64}
    (happ : .applied cert verifier e ∈ (net a).history)
    (happ' : .applied cert' verifier' e' ∈ (net a').history) (he : e'.toNat = e.toNat + 1)
    (hsender : cert.order.transfer.sender = cert'.order.transfer.sender)
    (hseq : cert.order.transfer.fromSeq = cert'.order.transfer.fromSeq) :
    verifier.id = verifier'.id ∧ cert.order.transfer = cert'.order.transfer := by
  have ha := Deployment.honest_of_event (fun _ _ h => h.1.1) h happ
  have ha' := Deployment.honest_of_event (fun _ _ h => h.1.1) h happ'
  obtain ⟨-, hr⟩ := (Deployment.orderly h a).1.applied cert verifier e happ
  obtain ⟨-, hr'⟩ := (Deployment.orderly h a').1.applied cert' verifier' e' happ'
  obtain ⟨hc, hq⟩ := Deployment.receipts (fun _ _ h => h.2.2.1) h happ
  obtain ⟨hc', hq'⟩ := Deployment.receipts (fun _ _ h => h.2.2.1) h happ'
  have hid := Deployment.quorate_slot_unique hs hf hroot h hc hc' hq hq' hsender hseq
  refine ⟨hid, ?_⟩
  -- the root of epoch `e'` was installed over the root of epoch `e`, which has the same id
  rcases hr' with ⟨h0, -⟩ | ⟨ecert, old, next, hmem, hk, hnext⟩
  · omega
  obtain ⟨k, hk', hold⟩ := (Deployment.orderly h a').1.links ecert old next hmem
  obtain rfl : k = e.toNat := by omega
  have hsame : verifier.id = old.id := Deployment.root_unique hs hf hroot h ha ha' hr hold
  have hrenews : next.id = old.id := hnext.trans (hid.symm.trans hsame)
  have hopen := (Deployment.orderly h a').2.applied _ happ' ecert old next hmem hk.le
  -- a common honest voter voted for both transfers, and for one only
  obtain ⟨b, hb, ⟨w, j, hw, hwcid, ht, -⟩, ⟨w', j', hw', hwcid', ht', -⟩⟩ :=
    hq.common (hf verifier hc) (hq'.of_members (s.members_eq hs hc' hc hid.symm))
  have hsingle := Deployment.singleVoted h a' ecert old next hmem hrenews b hb
  rw [← ht, ← ht']
  refine hsingle w' (Node.mem_votes.mpr ⟨j', hw'⟩) ?_ (ht' ▸ hopen) w ?_ (hwcid.trans hsame)
  · rw [hwcid', ← hid, hsame]
  · exact Node.mem_votesAt.mpr ⟨⟨j, hw⟩, by rw [ht, ht', hsender], by rw [ht, ht', hseq]⟩

end Handover

namespace Demo

def heirRoster : List (AuthorityId × VerifyingKey) := [(a0, key 0)]

def heir : Committee := (Committee.new heirRoster policy).get (by decide +kernel)

/-- The member of `solo` and its successor `a0`, who starts with the trust root `solo` too. -/
def relay : Deployment := deployment [a0, a3] solo

def relayScope : Scope := ⟨[solo, heir], [spentBy 0, spentBy 1]⟩

/-- `solo` hands over to `heir`. -/
def toHeir (frontier : Frontier) : AuthorityId × Op :=
  (a0, .installEpochCert (certifyEpoch solo heir heirRoster soloRoster 1 frontier) solo .stored)

/-- `solo` hands over to itself before alice has spent anything. Then its member votes for the
transfer at two rounds and applies it, and `a0`, who has not heard of the new epoch, applies it from
the certificate of the other round. -/
def renewedRun : List (AuthorityId × Op) :=
  [(a3, .fence (proposal soloRoster 1) .stored), (a3, .signEpochVote),
    (a3, .installEpochCert (renewal (spentBy 0)) solo .stored),
    (a3, .handle toBob .stored), (a3, .handle toBobAgain .stored),
    (a3, .confirm (certify solo soloRoster toBob) solo solo false .stored),
    (a0, .confirm (certify solo soloRoster toBobAgain) solo solo true .stored)]

/-- The frontier is signed while the vote for the transfer is open. The old committee still applies
it, and the successor applies another one. -/
def openVoteRun : List (AuthorityId × Op) :=
  [(a3, .handle toBob .stored), (a3, .fence (proposal heirRoster 1) .stored), (a3, .signEpochVote),
    (a3, .confirm (certify solo soloRoster toBob) solo solo false .stored), toHeir (spentBy 0),
    (a0, .handle toCarol .stored),
    (a0, .confirm (certify heir heirRoster toCarol) heir heir false .stored)]

end Demo

open Demo in
/-- Alice's first transfer is applied by `a0` in epoch 0 and by `a3` in epoch 1, from certificates
of two rounds. -/
theorem no_double_spend_across_epochs_demo :
    ∃ net, Reachable relay.step (relay.HandsOver relayScope) relay.start net ∧
      .applied (certify solo soloRoster toBobAgain) solo 0 ∈ (net a0).history ∧
      .applied (certify solo soloRoster toBob) solo 1 ∈ (net a3).history ∧
      toBobAgain.transfer = toBob.transfer := by
  obtain ⟨net, h, happ, happ'⟩ : ∃ net,
      Reachable relay.step (relay.HandsOver relayScope) relay.start net ∧
      .applied (certify solo soloRoster toBobAgain) solo 0 ∈ (net a0).history ∧
      .applied (certify solo soloRoster toBob) solo 1 ∈ (net a3).history :=
    Reachable.of_exec renewedRun (by decide +kernel)
  exact ⟨net, h, happ, happ', (no_double_spend_across_epochs (by decide +kernel)
    (by decide +kernel) (fun _ _ => rfl) h happ happ' rfl rfl rfl).2⟩

open Demo in
/-- Nobody is Byzantine. The old committee pays bob and its successor pays carol, for the same
sequence number. -/
theorem double_spend_across_epochs :
    ∃ net, Reachable relay.step
      (fun net step => step ∈ openVoteRun ∧ relay.KeepsFences net step ∧
        relay.Delivers relayScope net step) relay.start net ∧
      relay.faulty solo = ∅ ∧ relay.faulty heir = ∅ ∧ relayScope.Injective ∧ solo.id ≠ heir.id ∧
      .applied (certify solo soloRoster toBob) solo 0 ∈ (net a3).history ∧
      .applied (certify heir heirRoster toCarol) heir 1 ∈ (net a0).history ∧
      toBob.transfer.sender = toCarol.transfer.sender ∧
      toBob.transfer.fromSeq = toCarol.transfer.fromSeq ∧ toBob.transfer ≠ toCarol.transfer :=
  Reachable.of_exec openVoteRun (by decide +kernel)

end P2P333.Transfer333
