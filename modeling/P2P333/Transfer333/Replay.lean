import P2P333.Transfer333.Node

/-!
# The live authority and its log

What the log of an authority says about it, in every state of every run, whatever the storage did
and whenever it crashed.

Results:
1. `Config.recover_eq`: recovery is the fold of the log over the constructor's arguments, with the
   journal put back.
2. `Node.Base`: the log can always be recovered, and while the authority has not fail-stopped the
   recovered authority has the same ledger, locks and confirmed slots. The snapshot of compaction
   is faithful to these three.
3. `Node.pair_invariant`: the rule for relations between the live authority and the one its log
   recovers to.
-/

namespace P2P333.Transfer333

open Std Lib

variable [Crypto]

/-! ## Recovery as a fold -/

namespace Authority

/-- The same authority with another journal. -/
def withJournalOf (x : Authority) (j : Journal) : Authority := { x with journal := j }

theorem completeInstall_withJournalOf (x : Authority) (j : Journal) :
    (x.withJournalOf j).completeInstall = x.completeInstall.withJournalOf j := by
  unfold completeInstall
  simp only [withJournalOf]
  cases x.epochState <;> rfl

/-- Replay neither reads nor writes the journal. -/
theorem replayRecord_withJournalOf (x : Authority) (j : Journal) (r : JournalRecord) :
    (x.withJournalOf j).replayRecord r = (x.replayRecord r).map (·.withJournalOf j) := by
  cases r with
  | locked order => rfl
  | epochFence proposal => rfl
  | snapshot sn =>
    simp only [replayRecord]
    cases Ledger.restore sn.accounts <;> rfl
  | confirmed order =>
    simp only [replayRecord, withJournalOf]
    rcases x.ledger.apply order.transfer with ⟨_ | _, ledger⟩ <;> rfl
  | epochInstalled cert =>
    cases h : Committee.withEpoch cert.nextRoster x.policy cert.epoch with
    | none => simp only [replayRecord, withJournalOf, h]; rfl
    | some next =>
      rw [replayRecord_epochInstalled h, replayRecord_epochInstalled (x := x.withJournalOf j) h]
      have hbegin : (x.withJournalOf j).beginInstall cert next =
          (x.beginInstall cert next).withJournalOf j := rfl
      rw [hbegin, completeInstall_withJournalOf]
      cases hc : covers x.ledger cert.frontier <;> simp [withJournalOf, hc, Except.map]

theorem foldlM_replayRecord_withJournalOf (x : Authority) (j : Journal) (rs : List JournalRecord) :
    rs.foldlM replayRecord (x.withJournalOf j) =
      (rs.foldlM replayRecord x).map (·.withJournalOf j) := by
  induction rs generalizing x with
  | nil => rfl
  | cons r rs ih =>
    rw [List.foldlM_cons, List.foldlM_cons, replayRecord_withJournalOf]
    cases x.replayRecord r with
    | error e => rfl
    | ok y => exact ih y

end Authority

/-- The identity that the authority's journal is bound to. -/
def Config.identity (cfg : Config) : Digest := journalIdentity cfg.id cfg.committeeId cfg.genesis

/-- The state that the records lead to, with an empty journal. -/
def Config.replay (cfg : Config) (records : List JournalRecord) : Except JournalError Authority :=
  records.foldlM Authority.replayRecord cfg.authority

theorem Config.recover_eq (cfg : Config) {j : Journal} (h : j.identity = some cfg.identity) :
    cfg.recover j = (cfg.replay j.records).map (·.withJournalOf j) := by
  have hbind : j.bind cfg.identity = (.ok (), j) := by simp [Journal.bind, h]
  have hstart : Authority.withJournal cfg.id cfg.signing cfg.policy cfg.committeeId cfg.genesis j =
      cfg.authority.withJournalOf j := by
    unfold Authority.withJournal
    rw [show journalIdentity cfg.id cfg.committeeId cfg.genesis = cfg.identity from rfl, hbind]
    rfl
  unfold recover Authority.recover replay
  rw [show journalIdentity cfg.id cfg.committeeId cfg.genesis = cfg.identity from rfl, hbind]
  simp only [hstart]
  exact Authority.foldlM_replayRecord_withJournalOf _ _ _

theorem Config.replay_append {cfg : Config} {rs : List JournalRecord} {r : JournalRecord}
    {y y' : Authority} (h : cfg.replay rs = .ok y) (hr : y.replayRecord r = .ok y') :
    cfg.replay (rs ++ [r]) = .ok y' := by
  unfold replay at h ⊢
  rw [List.foldlM_append, h]
  simp [bind, Except.bind, hr, pure, Except.pure]

/-! ## Well-formed authorities -/

namespace Authority

/-- The constructor's arguments stay, the supply is representable, and every lock sits at its own
slot. -/
structure Wf (cfg : Config) (x : Authority) : Prop where
  id : x.id = cfg.id
  signing : x.signing = cfg.signing
  policy : x.policy = cfg.policy
  sound : x.ledger.Sound
  slots : ∀ (k : Slot) (o : SignedTransfer), x.locked[k]? = some o → slot o = k

omit [Crypto] in
theorem getElem?_dropSlots {m : OrdMap Slot SignedTransfer} {account : AccountId} {seq : U64}
    {k : Slot} {o : SignedTransfer} :
    (dropSlots m account seq)[k]? = some o ↔ m[k]? = some o ∧ ¬ (k.1 = account ∧ k.2.1 = seq) := by
  rw [dropSlots, OrdMap.getElem?_filter_eq_some]
  simp [imp_iff_not_or]

variable {x y : Authority}

theorem replayRecord_snapshot_inv {sn : SnapshotData} (h : x.replayRecord (.snapshot sn) = .ok y) :
    ∃ ledger, Ledger.restore sn.accounts = .ok ledger ∧ y = { x with
      ledger
      locked := OrdMap.ofEntries (sn.locked.map fun o => (slot o, o))
      confirmed := OrdMap.ofEntries (sn.confirmed.map fun e => ((e.1, e.2.1), e.2.2))
      epoch := sn.epoch
      epochState := .active } := by
  simp only [replayRecord] at h
  split at h
  · cases h
  · next ledger hl =>
    cases h
    exact ⟨ledger, hl, rfl⟩

theorem replayRecord_confirmed_inv {order : SignedTransfer}
    (h : x.replayRecord (.confirmed order) = .ok y) :
    (x.ledger.apply order.transfer).1 = .ok () ∧ y = x.spend order := by
  cases ha : (x.ledger.apply order.transfer).1 with
  | error e =>
    simp only [replayRecord] at h
    split at h
    · cases h
    · next he => rw [he] at ha; cases ha
  | ok _ =>
    rw [replayRecord_confirmed ha] at h
    exact ⟨rfl, (Except.ok.inj h).symm⟩

theorem replayRecord_epochInstalled_inv {cert : EpochCert}
    (h : x.replayRecord (.epochInstalled cert) = .ok y) :
    ∃ next, Committee.withEpoch cert.nextRoster x.policy cert.epoch = some next ∧
      y = if covers x.ledger cert.frontier then (x.beginInstall cert next).completeInstall
        else x.beginInstall cert next := by
  cases hr : Committee.withEpoch cert.nextRoster x.policy cert.epoch with
  | none => simp [replayRecord, hr] at h
  | some next =>
    rw [replayRecord_epochInstalled hr] at h
    exact ⟨next, rfl, (Except.ok.inj h).symm⟩

variable {cfg : Config}

theorem completeInstall_wf (h : x.Wf cfg) : x.completeInstall.Wf cfg := by
  unfold completeInstall
  split <;> exact ⟨h.id, h.signing, h.policy, h.sound, h.slots⟩

theorem spend_wf (h : x.Wf cfg) (order : SignedTransfer) :
    (x.spend order).Wf cfg where
  id := h.id
  signing := h.signing
  policy := h.policy
  sound := h.sound.apply order.transfer
  slots k o ho := h.slots k o (getElem?_dropSlots.mp ho).1

/-- Any record leaves a well-formed authority. -/
theorem replayRecord_wf {r : JournalRecord} (h : x.Wf cfg)
    (hr : x.replayRecord r = .ok y) : y.Wf cfg := by
  cases r with
  | locked order =>
    cases hr
    refine ⟨h.id, h.signing, h.policy, h.sound, ?_⟩
    intro k o ho
    by_cases hk : slot order = k
    · subst hk
      rw [ExtTreeMap.getElem?_insert_self, Option.some.injEq] at ho
      rw [ho]
    · rw [OrdMap.getElem?_insert_of_ne _ hk] at ho
      exact h.slots k o ho
  | epochFence proposal =>
    cases hr
    exact ⟨h.id, h.signing, h.policy, h.sound, h.slots⟩
  | snapshot sn =>
    obtain ⟨ledger, hl, rfl⟩ := replayRecord_snapshot_inv hr
    exact ⟨h.id, h.signing, h.policy, Ledger.restore_sound hl,
      fun k o ho => OrdMap.key_of_ofEntries ho⟩
  | confirmed order =>
    obtain ⟨-, rfl⟩ := replayRecord_confirmed_inv hr
    exact spend_wf h order
  | epochInstalled cert =>
    obtain ⟨next, -, rfl⟩ := replayRecord_epochInstalled_inv hr
    have hbegin : (x.beginInstall cert next).Wf cfg :=
      ⟨h.id, h.signing, h.policy, h.sound, fun k o ho => by cases ho⟩
    split
    · exact completeInstall_wf hbegin
    · exact hbegin

/-! ## Agreement of two authorities -/

/-- The same policy, ledger, locks and confirmed slots. The epoch state may differ. -/
structure Synced (x y : Authority) : Prop where
  policy : y.policy = x.policy
  ledger : y.ledger = x.ledger
  locked : y.locked = x.locked
  confirmed : y.confirmed = x.confirmed

omit [Crypto] in
theorem Synced.refl (x : Authority) : x.Synced x := ⟨rfl, rfl, rfl, rfl⟩

theorem synced_completeInstall (x : Authority) : x.Synced x.completeInstall := by
  unfold completeInstall
  split <;> exact ⟨rfl, rfl, rfl, rfl⟩

omit [Crypto] in
theorem Synced.trans {z : Authority} (h : x.Synced y) (h' : y.Synced z) : x.Synced z :=
  ⟨h'.policy.trans h.policy, h'.ledger.trans h.ledger, h'.locked.trans h.locked,
    h'.confirmed.trans h.confirmed⟩

omit [Crypto] in
theorem Synced.symm (h : x.Synced y) : y.Synced x :=
  ⟨h.policy.symm, h.ledger.symm, h.locked.symm, h.confirmed.symm⟩

theorem Synced.spend (h : x.Synced y) (order : SignedTransfer) :
    (x.spend order).Synced (y.spend order) where
  policy := h.policy
  ledger := by simp only [Authority.spend, h.ledger]
  locked := by simp only [Authority.spend, h.locked]
  confirmed := by simp only [Authority.spend, h.confirmed]

theorem synced_beginInstall (h : x.Synced y) (cert : EpochCert)
    (next : Committee) : (x.beginInstall cert next).Synced (y.beginInstall cert next) :=
  ⟨h.policy, h.ledger, rfl, h.confirmed⟩

/-- A record that takes effect on one authority takes the same effect on one that agrees. -/
theorem Synced.replayRecord {x' : Authority} {r : JournalRecord} (h : x.Synced y)
    (hx : x.replayRecord r = .ok x') : ∃ y', y.replayRecord r = .ok y' ∧ x'.Synced y' := by
  cases r with
  | locked order =>
    cases hx
    exact ⟨_, rfl, h.policy, h.ledger, by simp only [h.locked], h.confirmed⟩
  | epochFence proposal =>
    cases hx
    exact ⟨_, rfl, h.policy, h.ledger, h.locked, h.confirmed⟩
  | snapshot sn =>
    obtain ⟨ledger, hl, rfl⟩ := replayRecord_snapshot_inv hx
    refine ⟨{ y with
      ledger
      locked := OrdMap.ofEntries (sn.locked.map fun o => (slot o, o))
      confirmed := OrdMap.ofEntries (sn.confirmed.map fun e => ((e.1, e.2.1), e.2.2))
      epoch := sn.epoch
      epochState := .active }, ?_, h.policy, rfl, rfl, rfl⟩
    simp only [Authority.replayRecord, hl]
  | confirmed order =>
    obtain ⟨hok, rfl⟩ := replayRecord_confirmed_inv hx
    exact ⟨_, replayRecord_confirmed (h.ledger ▸ hok), h.spend order⟩
  | epochInstalled cert =>
    obtain ⟨next, hroster, rfl⟩ := replayRecord_epochInstalled_inv hx
    refine ⟨_, replayRecord_epochInstalled (h.policy ▸ hroster), ?_⟩
    rw [h.ledger]
    have hbegin := synced_beginInstall h cert next
    split
    · exact (synced_completeInstall _).symm.trans (hbegin.trans (synced_completeInstall _))
    · exact hbegin

/-! ## The snapshot -/

omit [Crypto] in
theorem accounts_snapshotData (x : Authority) : x.snapshotData.accounts = x.ledger.entries := by
  unfold snapshotData Ledger.entries Ledger.balances
  simp only [List.map_map]
  refine List.map_congr_left ?_
  rintro ⟨id, account⟩ he
  have hget := ExtTreeMap.mem_toList_iff_getElem?_eq_some.mp he
  simp only [Function.comp_apply, Ledger.nextSeq_of_getElem? hget]

/-- A snapshot restores ledger, locks, confirmed slots and epoch. The epoch state becomes `active`
and everything else, the committee id included, stays what the constructor made it. -/
theorem replayRecord_snapshotData (h : x.Wf cfg) (y : Authority) :
    y.replayRecord (.snapshot x.snapshotData) = .ok { y with
      ledger := x.ledger
      locked := x.locked
      confirmed := x.confirmed
      epoch := x.epoch
      epochState := .active } := by
  have hlocked : OrdMap.ofEntries (x.snapshotData.locked.map fun o => (slot o, o)) = x.locked :=
    OrdMap.ofEntries_map_values h.slots
  have hconfirmed : OrdMap.ofEntries
      (x.snapshotData.confirmed.map fun e => ((e.1, e.2.1), e.2.2)) = x.confirmed := by
    refine OrdMap.ofEntries_of_perm (List.Perm.of_eq ?_)
    simp [snapshotData, List.map_map, Function.comp_def]
  simp only [Authority.replayRecord, accounts_snapshotData, h.sound.restore_entries, hlocked,
    hconfirmed]
  rfl

end Authority

/-! ## The log in every reachable state -/

namespace Authority

theorem replayRecord_frame {x y : Authority} {r : JournalRecord} (h : x.replayRecord r = .ok y) :
    y.journal = x.journal ∧ y.poisoned = x.poisoned := by
  cases r with
  | locked order => cases h; exact ⟨rfl, rfl⟩
  | epochFence proposal => cases h; exact ⟨rfl, rfl⟩
  | snapshot sn =>
    obtain ⟨_, -, rfl⟩ := replayRecord_snapshot_inv h
    exact ⟨rfl, rfl⟩
  | confirmed order =>
    obtain ⟨-, rfl⟩ := replayRecord_confirmed_inv h
    exact ⟨rfl, rfl⟩
  | epochInstalled cert =>
    obtain ⟨_, -, rfl⟩ := replayRecord_epochInstalled_inv h
    split <;> exact ⟨rfl, rfl⟩

theorem completeInstall_frame (x : Authority) :
    x.completeInstall.journal = x.journal ∧ x.completeInstall.poisoned = x.poisoned := by
  unfold completeInstall
  split <;> exact ⟨rfl, rfl⟩

/-- A record about to be written has passed the checks that replay makes. -/
theorem Pending.replays {op : Op} {x : Authority} {r : JournalRecord} (h : x.Pending op r) :
    x.poisoned = false ∧ ∃ x', x.replayRecord r = .ok x' := by
  cases h with
  | locked h => exact ⟨h.unpoisoned, _, rfl⟩
  | confirmed h => exact ⟨h.unpoisoned, _, replayRecord_confirmed h.admitted⟩
  | epochFence h => exact ⟨h.unpoisoned, _, rfl⟩
  | epochInstalled h => exact ⟨h.unpoisoned, _, replayRecord_epochInstalled h.roster⟩

omit [Crypto] in
theorem failed_wf {cfg : Config} {x : Authority} (h : x.Wf cfg) (r : JournalRecord) (kept : Bool) :
    (x.failed r kept).Wf cfg := by
  refine ⟨h.id, h.signing, h.policy, ?_, h.slots⟩
  unfold failed
  cases r with
  | confirmed order => exact h.sound.apply order.transfer
  | _ => exact h.sound

end Authority

/-- The log of the node recovers to `y`, up to the journal. -/
def Recovers (cfg : Config) (n : Node) (y : Authority) : Prop :=
  cfg.replay n.live.journal.records = .ok y

namespace Node

/-- What holds of every reachable node, whatever the storage did: the journal is its own, its log
recovers, and to the same ledger, locks and confirmed slots as long as it has not fail-stopped. -/
structure Base (cfg : Config) (n : Node) : Prop where
  identity : n.live.journal.identity = some cfg.identity
  wf : n.live.Wf cfg
  recovers : ∃ y, Recovers cfg n y ∧ y.Wf cfg ∧ y.poisoned = false ∧
    (n.live.poisoned = false → n.live.Synced y)

variable {n : Node}

/-- The same, for the authority that the log recovers to. -/
theorem Base.recovered {cfg : Config} {y : Authority} (h : Base cfg n) (hy : Recovers cfg n y) :
    y.Wf cfg ∧ y.poisoned = false ∧ (n.live.poisoned = false → n.live.Synced y) := by
  obtain ⟨y', hy', hrest⟩ := h.recovers
  obtain rfl : y = y' := Except.ok.inj (hy.symm.trans hy')
  exact hrest

/-- Recovery never fails. -/
theorem Base.recover_ok {cfg : Config} (h : Base cfg n) :
    ∃ y, Recovers cfg n y ∧ cfg.recover n.live.journal = .ok (y.withJournalOf n.live.journal) := by
  obtain ⟨y, hy, -⟩ := h.recovers
  refine ⟨y, hy, ?_⟩
  rw [cfg.recover_eq h.identity, hy]
  rfl

/-- The state that a snapshot of `x` recovers to. -/
def restored (cfg : Config) (x : Authority) : Authority :=
  { cfg.authority with
    ledger := x.ledger
    locked := x.locked
    confirmed := x.confirmed
    epoch := x.epoch
    epochState := .active }

/-- The obligations for a relation `R` between a node and the authority its log recovers to, one
for each act. -/
structure Pair (cfg : Config) (ok : Node → Op → Prop) (R : Node → Authority → Prop) : Prop where
  start : R (.start cfg) cfg.authority
  stable : ∀ {order io m m'}, Quiet (.handle order io) m m' → ok m (.handle order io) →
    ok m' (.handle order io)
  complete : ∀ {n y}, Base cfg n → Recovers cfg n y → n.live.poisoned = false →
    n.live.installCovered = true → R n y →
    R { n with live := n.live.completeInstall, late := true } y
  vote : ∀ {n y order}, Base cfg n → Recovers cfg n y → n.live.poisoned = false →
    n.live.epochState = .active → order.verify n.live.policy = .ok () →
    n.live.locked[slot order]? = some order → R n y →
    R { n with history := n.history ++ [.voted (n.live.sign order) n.live.epoch] } y
  commit : ∀ {op n r x' y y'}, Base cfg n → Recovers cfg n y → ok n op → n.live.Pending op r →
    n.live.Synced y → n.live.replayRecord r = .ok x' → y.replayRecord r = .ok y' → R n y →
    R ⟨x'.withRecord r, n.history ++ op.events n.live, n.late && !completesAtOnce x' r⟩ y'
  lost : ∀ {op n r y}, Base cfg n → Recovers cfg n y → ok n op → op.io ≠ .stored →
    n.live.Pending op r → n.live.Synced y → R n y → R { n with live := n.live.failed r false } y
  kept : ∀ {op n r y y'}, Base cfg n → Recovers cfg n y → ok n op → op.io ≠ .stored →
    n.live.Pending op r → n.live.Synced y → y.replayRecord r = .ok y' → R n y →
    R { n with live := n.live.failed r true } y'
  poison : ∀ {n y}, R n y → R { n with live := { n.live with poisoned := true } } y
  epochVote : ∀ {n y v}, Base cfg n → Recovers cfg n y → ok n .signEpochVote →
    n.live.signEpochVote = .ok v → R n y → R { n with history := n.history ++ [.epochVoted v] } y
  attest : ∀ {n y account seq a}, Base cfg n → Recovers cfg n y →
    n.live.attestationFor account seq = some a → R n y →
    R { n with history := n.history ++ [.attested a] } y
  compact : ∀ {n y io poisoned}, Base cfg n → ok n (.compactJournal io) →
    n.live.epochState = .active → R n y →
    R { n with live := { n.live with
      journal := { n.live.journal with records := [.snapshot n.live.snapshotData] }
      poisoned } } (restored cfg n.live)
  crash : ∀ {n y}, Base cfg n → Recovers cfg n y → ok n .crash → R n y →
    R { n with live := y.withJournalOf n.live.journal, late := false } y

/-- The base facts and the relation, of one node. -/
def Holds (cfg : Config) (R : Node → Authority → Prop) (n : Node) : Prop :=
  Base cfg n ∧ ∃ y, Recovers cfg n y ∧ R n y

variable {cfg : Config} {ok : Node → Op → Prop} {R : Node → Authority → Prop}

theorem base_start (cfg : Config) : Base cfg (start cfg) := by
  have hwf : cfg.authority.Wf cfg :=
    ⟨rfl, rfl, rfl, cfg.sound, fun k o ho => by cases ho⟩
  exact ⟨rfl, hwf, cfg.authority, rfl, hwf, rfl, fun _ => .refl _⟩

theorem Pair.quiet (h : Pair cfg ok R) {op : Op} {n' : Node} (hq : Quiet op n n')
    (hn : Holds cfg R n) : Holds cfg R n' := by
  obtain ⟨hbase, y, hy, hR⟩ := hn
  obtain ⟨hywf, hyp, hsync⟩ := hbase.recovered hy
  cases hq with
  | complete hp hc =>
    obtain ⟨hj, -⟩ := n.live.completeInstall_frame
    have hy' : Recovers cfg { n with live := n.live.completeInstall, late := true } y := by
      unfold Recovers
      rw [hj]
      exact hy
    refine ⟨⟨?_, Authority.completeInstall_wf hbase.wf, y, hy', hywf, hyp, fun _ => ?_⟩, y, hy', ?_⟩
    · rw [hj]
      exact hbase.identity
    · exact n.live.synced_completeInstall.symm.trans (hsync hp)
    · exact h.complete hbase hy hp hc hR
  | vote hp hactive hv hheld =>
    exact ⟨⟨hbase.identity, hbase.wf, y, hy, hywf, hyp, hsync⟩, y, hy,
      h.vote hbase hy hp hactive hv hheld hR⟩

/-- A record that reaches the log is replayed by the recovered authority. -/
theorem recovers_append {y y' x : Authority} {r : JournalRecord} {history : List Event}
    {late : Bool} (hy : Recovers cfg n y) (hr : y.replayRecord r = .ok y')
    (hj : x.journal.records = n.live.journal.records ++ [r]) :
    Recovers cfg ⟨x, history, late⟩ y' := by
  unfold Recovers
  rw [hj]
  exact Config.replay_append hy hr

/-- The record is stored: the live authority and the recovered one replay it. -/
theorem Pair.stored (h : Pair cfg ok R) {op : Op} {n : Node} {r : JournalRecord} {x' : Authority}
    (hok : ok n op) (hp : n.live.Pending op r) (hx : n.live.replayRecord r = .ok x')
    (hn : Holds cfg R n) :
    Holds cfg R ⟨x'.withRecord r, n.history ++ op.events n.live,
      n.late && !completesAtOnce x' r⟩ := by
  obtain ⟨hbase, y, hy, hR⟩ := hn
  obtain ⟨hywf, hyp, hsync⟩ := hbase.recovered hy
  obtain ⟨hunp, -⟩ := hp.replays
  obtain ⟨y', hy', hsync'⟩ := (hsync hunp).replayRecord hx
  obtain ⟨hj, -⟩ := Authority.replayRecord_frame hx
  have hrec : Recovers cfg ⟨x'.withRecord r, n.history ++ op.events n.live,
      n.late && !completesAtOnce x' r⟩ y' :=
    recovers_append hy hy' (by simp [Authority.withRecord, hj])
  refine ⟨⟨?_, ?_, y', hrec, Authority.replayRecord_wf hywf hy', ?_, fun _ => ?_⟩, y', hrec, ?_⟩
  · simpa [Authority.withRecord, hj] using hbase.identity
  · obtain ⟨h1, h2, h3, h4, h5⟩ := Authority.replayRecord_wf hbase.wf hx
    exact ⟨h1, h2, h3, h4, h5⟩
  · exact (Authority.replayRecord_frame hy').2.trans hyp
  · exact ⟨hsync'.policy, hsync'.ledger, hsync'.locked, hsync'.confirmed⟩
  · exact h.commit hbase hy hok hp (hsync hunp) hx hy' hR

/-- The write fails: the live authority has fail-stopped, and the log has the record or not. -/
theorem Pair.failed (h : Pair cfg ok R) {op : Op} {n : Node} {r : JournalRecord} (kept : Bool)
    (hok : ok n op) (hio : op.io ≠ .stored) (hp : n.live.Pending op r) (hn : Holds cfg R n) :
    Holds cfg R { n with live := n.live.failed r kept } := by
  obtain ⟨hbase, y, hy, hR⟩ := hn
  obtain ⟨hywf, hyp, hsync⟩ := hbase.recovered hy
  obtain ⟨hunp, x', hx⟩ := hp.replays
  have hwf := Authority.failed_wf hbase.wf r kept
  cases kept with
  | false =>
    exact ⟨⟨hbase.identity, hwf, y, hy, hywf, hyp, fun hc => (by cases hc)⟩, y, hy,
      h.lost hbase hy hok hio hp (hsync hunp) hR⟩
  | true =>
    obtain ⟨y', hy', -⟩ := (hsync hunp).replayRecord hx
    have hrec : Recovers cfg { n with live := n.live.failed r true } y' :=
      recovers_append hy hy' rfl
    exact ⟨⟨hbase.identity, hwf, y', hrec, Authority.replayRecord_wf hywf hy',
      (Authority.replayRecord_frame hy').2.trans hyp, fun hc => (by cases hc)⟩, y', hrec,
      h.kept hbase hy hok hio hp (hsync hunp) hy' hR⟩

/-- The log is a snapshot of the live authority. -/
theorem Pair.compacted (h : Pair cfg ok R) {io : Io} {poisoned : Bool}
    (hok : ok n (.compactJournal io)) (hactive : n.live.epochState = .active)
    (hn : Holds cfg R n) :
    Holds cfg R { n with live := { n.live with
      journal := { n.live.journal with records := [.snapshot n.live.snapshotData] }
      poisoned } } := by
  obtain ⟨hbase, y, hy, hR⟩ := hn
  have hwf := hbase.wf
  have hrestored : (restored cfg n.live).Wf cfg := ⟨rfl, rfl, rfl, hwf.sound, hwf.slots⟩
  have hempty : cfg.replay [] = .ok cfg.authority := rfl
  have hrec : Recovers cfg { n with live := { n.live with
      journal := { n.live.journal with records := [.snapshot n.live.snapshotData] }
      poisoned } } (restored cfg n.live) :=
    Config.replay_append hempty (Authority.replayRecord_snapshotData hwf cfg.authority)
  refine ⟨⟨hbase.identity, ?_, _, hrec, hrestored, rfl, fun _ => ?_⟩, _, hrec,
    h.compact hbase hok hactive hR⟩
  · exact ⟨hwf.id, hwf.signing, hwf.policy, hwf.sound, hwf.slots⟩
  · exact ⟨hwf.policy.symm, rfl, rfl, rfl⟩

/-- The live authority is the recovered one. -/
theorem Pair.crashed (h : Pair cfg ok R) {x : Authority} (hok : ok n .crash)
    (hx : cfg.recover n.live.journal = .ok x) (hn : Holds cfg R n) :
    Holds cfg R { n with live := x, late := false } := by
  obtain ⟨hbase, y, hy, hR⟩ := hn
  obtain ⟨hywf, hyp, -⟩ := hbase.recovered hy
  obtain ⟨y', hy', hrec⟩ := hbase.recover_ok
  obtain rfl : y = y' := Except.ok.inj (hy.symm.trans hy')
  obtain rfl : x = y.withJournalOf n.live.journal := Except.ok.inj (hx.symm.trans hrec)
  refine ⟨⟨hbase.identity, ?_, y, hy, hywf, hyp, fun _ => ?_⟩, y, hy, h.crash hbase hy hok hR⟩
  · exact ⟨hywf.id, hywf.signing, hywf.policy, hywf.sound, hywf.slots⟩
  · exact ⟨rfl, rfl, rfl, rfl⟩

theorem Pair.act (h : Pair cfg ok R) {op : Op} {n' : Node} (ha : Act cfg op n n') (hok : ok n op)
    (hn : Holds cfg R n) : Holds cfg R n' := by
  cases ha with
  | commit hp hx => exact h.stored hok hp hx hn
  | fail hp kept hio => exact h.failed kept hok hio hp hn
  | compact hactive hpois => exact h.compacted hok hactive hn
  | crash hx => exact h.crashed hok hx hn
  | poison =>
    obtain ⟨hbase, y, hy, hR⟩ := hn
    obtain ⟨hywf, hyp, -⟩ := hbase.recovered hy
    refine ⟨⟨hbase.identity, ?_, y, hy, hywf, hyp, fun hc => (by cases hc)⟩, y, hy, h.poison hR⟩
    exact ⟨hbase.wf.id, hbase.wf.signing, hbase.wf.policy, hbase.wf.sound, hbase.wf.slots⟩
  | epochVote hv =>
    obtain ⟨hbase, y, hy, hR⟩ := hn
    exact ⟨⟨hbase.identity, hbase.wf, hbase.recovers⟩, y, hy, h.epochVote hbase hy hok hv hR⟩
  | attest ha =>
    obtain ⟨hbase, y, hy, hR⟩ := hn
    exact ⟨⟨hbase.identity, hbase.wf, hbase.recovers⟩, y, hy, h.attest hbase hy ha hR⟩

/-- The rule: the relation holds of every node that a run under the guard reaches. -/
theorem pair_invariant (h : Pair cfg ok R) (hn : Reachable (step cfg) ok (start cfg) n) :
    Holds cfg R n := by
  refine hn.invariant ⟨base_start cfg, cfg.authority, rfl, h.start⟩ ?_
  intro m op m' _ hm hok hstep
  exact step_invariant (fun _ _ _ => h.quiet) (fun _ _ _ _ => h.stable) (fun _ _ _ => h.act)
    hm hok hstep

/-- The log of every reachable authority recovers, in particular after any failure of the
storage. -/
theorem base_of_reachable (hn : Reachable (step cfg) ok (start cfg) n) : Base cfg n := by
  have htrivial : Pair cfg (fun _ _ => True) fun _ _ => True :=
    { start := trivial
      stable := fun _ _ => trivial
      complete := by intros; trivial
      vote := by intros; trivial
      commit := by intros; trivial
      lost := by intros; trivial
      kept := by intros; trivial
      poison := by intros; trivial
      epochVote := by intros; trivial
      attest := by intros; trivial
      compact := by intros; trivial
      crash := by intros; trivial }
  exact (pair_invariant htrivial (hn.mono fun _ _ _ => trivial)).1

end Node

end P2P333.Transfer333
