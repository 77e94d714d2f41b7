import P2P333.Transfer333.Replay

/-!
# Recovery

What a crash loses when every write succeeds.

Results:
1. `Node.follows_pair`: the log recovers to the live authority, field by field, until an install is
   completed by a later call. From then on recovery is still installing.
2. `recovery_reproduces`: the same for runs, with the exact condition: the first step that completes
   an install late is the first after which recovery disagrees.
   `recovery_forgets_late_install`: a straggler that falls back by an epoch.
-/

namespace P2P333.Transfer333

open Std Lib

section Recovery

variable [Crypto]

/-! ## Late completion -/

namespace Node

/-- The call would complete an install that an earlier call started. -/
def completesLate (n : Node) : Op → Bool
  | .handle _ _ => !n.live.poisoned && n.live.installCovered
  | .confirm cert verifier committee observer _ =>
    match cert.verify verifier with
    | none => false
    | some v =>
      decide (n.live.confirmChecks v committee (!observer) = .ok ()) &&
      (n.live.confirmed[(cert.order.transfer.sender, cert.order.transfer.fromSeq)]?).isNone &&
      decide ((n.live.ledger.apply cert.order.transfer).1 = .ok ()) &&
      (n.live.spend cert.order).installCovered
  | _ => false

omit [Crypto] in
theorem completes_self (x : Authority) : completes x x = false := completes_same rfl

theorem completes_handle (n : Node) (order : SignedTransfer) (io : Io) :
    completes n.live (n.live.handle order io).2 = n.completesLate (.handle order io) := by
  unfold completesLate Authority.handle Authority.gate
  cases hp : n.live.poisoned with
  | true => simp [completes_self]
  | false =>
    cases hs : n.live.epochState with
    | active | fencing p => simp [completes, Authority.installCovered, hs, EpochState.isInstalling]
    | installing cert next fd =>
      cases hc : n.live.installCovered with
      | false => simp [completes_self]
      | true =>
        have hp' : n.live.completeInstall.poisoned = false :=
          n.live.completeInstall_frame.2.trans hp
        have hopened :=
          Authority.handleOpen_spec hp' n.live.completeInstall_active order io
        simp [completes, hs, EpochState.isInstalling, opened_epochState hopened,
          n.live.completeInstall_active]

theorem completes_confirm (n : Node) {cert : Certificate} {verifier : Committee} {v : Verified}
    (hv : cert.verify verifier = some v) (committee : Committee) (observer : Bool) :
    completes n.live (n.live.confirmImpl v committee (!observer) .stored).2 =
      n.completesLate (.confirm cert verifier committee observer .stored) := by
  obtain ⟨-, horder, -⟩ := Certificate.verify_eq_some hv
  simp only [completesLate, hv, Authority.confirmImpl, horder]
  cases hchecks : n.live.confirmChecks v committee (!observer) with
  | error e => simp [completes_self]
  | ok _ =>
    cases hfresh : n.live.confirmed[(cert.order.transfer.sender, cert.order.transfer.fromSeq)]? with
    | some previous =>
      by_cases heq : previous = cert.order.orderId <;> simp [heq, completes_self]
    | none =>
      simp only [Authority.applyOrder]
      rcases happly : n.live.ledger.apply cert.order.transfer with ⟨e | _, ledger⟩
      · simp [completes_self]
      · have hspend : n.live.spend cert.order = { n.live with
            ledger
            confirmed := n.live.confirmed.insert
              (cert.order.transfer.sender, cert.order.transfer.fromSeq) cert.order.orderId
            locked := Authority.dropSlots n.live.locked cert.order.transfer.sender
              cert.order.transfer.fromSeq } := by
          simp only [Authority.spend, happly]
        simp only [Authority.journalAppend_stored, Authority.withRecord, hspend,
          Authority.installCovered]
        cases hs : n.live.epochState with
        | active => simp [completes, hs, EpochState.isInstalling]
        | fencing p => simp [completes, hs, EpochState.isInstalling]
        | installing c next fd =>
          cases hc : Authority.covers ledger c.frontier <;>
            simp [completes, hs, hc, EpochState.isInstalling, Authority.completeInstall]

/-- With working storage, exactly the late completions set the flag. -/
theorem late_step {cfg : Config} {n n' : Node} {op : Op} (hio : op.io = .stored)
    (h : step cfg n op = some n') (hlate : n.late = false) :
    n'.late = n.completesLate op := by
  cases op with
  | handle order io =>
    cases h
    simp only [stepHandle, hlate, Bool.false_or]
    exact completes_handle n order io
  | confirm cert verifier committee observer io =>
    cases h
    obtain rfl : io = .stored := hio
    unfold stepConfirm
    cases hv : cert.verify verifier with
    | none => simpa [completesLate, hv] using hlate
    | some v =>
      simp only [hlate, Bool.false_or]
      exact completes_confirm n hv committee observer
  | fence proposal io => cases h; exact hlate
  | signEpochVote =>
    cases h
    unfold stepSignEpochVote
    split <;> exact hlate
  | installEpochCert cert old io =>
    cases h
    simp only [stepInstall, hlate, Bool.false_and]
    rfl
  | attest account seq =>
    cases h
    unfold stepAttest
    split <;> exact hlate
  | compactJournal io => cases h; exact hlate
  | crash =>
    simp only [step] at h
    split at h
    · cases h
    · cases h
      rfl

end Node

/-! ## Recovery reproduces the live authority -/

/-- `y` is `x` but for the journal and the fail-stop flag. -/
def Twin (x y : Authority) : Prop :=
  { x with journal := y.journal, poisoned := false } = y

def Op.isCompact : Op → Bool
  | .compactJournal _ => true
  | _ => false

/-- A call whose write succeeds, other than a compaction. -/
def Op.Plain (op : Op) : Prop := op.io = .stored ∧ op.isCompact = false

instance (op : Op) : Decidable op.Plain := inferInstanceAs (Decidable (_ ∧ _))

namespace Node

theorem twin_replayRecord {x y x' y' : Authority} {r : JournalRecord} (h : Twin x y)
    (hp : x.poisoned = false) (hx : x.replayRecord r = .ok x') (hy : y.replayRecord r = .ok y') :
    Twin x' y' := by
  have hxy : y = x.withJournalOf y.journal := by
    rw [← h, ← hp]
    rfl
  rw [hxy, Authority.replayRecord_withJournalOf, hx] at hy
  obtain rfl : y' = x'.withJournalOf y.journal := (Except.ok.inj hy).symm
  unfold Twin Authority.withJournalOf
  rw [← hp, ← (Authority.replayRecord_frame hx).2]

/-- A covered install leaves two authorities that agree on ledger and confirmed slots the same. -/
theorem twin_install {cfg : Config} {x y x' y' : Authority} {cert : EpochCert} (hx : x.Wf cfg)
    (hy : y.Wf cfg) (hp : y.poisoned = false) (hsync : x.Synced y)
    (hx' : x.replayRecord (.epochInstalled cert) = .ok x')
    (hy' : y.replayRecord (.epochInstalled cert) = .ok y')
    (hcovered : x'.epochState.isInstalling = false) : Twin x' y' := by
  obtain ⟨next, hroster, rfl⟩ := Authority.replayRecord_epochInstalled_inv hx'
  rw [Authority.replayRecord_epochInstalled (hsync.policy ▸ hroster)] at hy'
  obtain rfl := Except.ok.inj hy'
  rw [hsync.ledger]
  split at hcovered
  · next hc =>
    simp only [hc, if_true]
    unfold Twin Authority.completeInstall Authority.beginInstall
    simp only [hx.id, hy.id, hx.signing, hy.signing, hx.policy, hy.policy, hsync.ledger,
      hsync.confirmed, hp]
  · cases hcovered

/-- The live authority and the recovered one in runs where every write succeeds: twins until an
install is completed late; from then on recovery is still installing when the live one is active. -/
structure Follows (n : Node) (y : Authority) : Prop where
  twin : n.late = false → Twin n.live y
  epochState : n.live.epochState ≠ .active → y.epochState = n.live.epochState
  late : n.late = true → n.live.epochState = .active → y.epochState.isInstalling = true

omit [Crypto] in
theorem Twin.epochState {x y : Authority} (h : Twin x y) : y.epochState = x.epochState := by
  rw [← h]

theorem follows_commit {cfg : Config} {op : Op} {n : Node} {r : JournalRecord} {x' y y' : Authority}
    (hbase : Base cfg n) (hywf : y.Wf cfg) (hyp : y.poisoned = false) (hp : n.live.Pending op r)
    (hsync : n.live.Synced y) (hx : n.live.replayRecord r = .ok x') (hy : y.replayRecord r = .ok y')
    (h : Follows n y) :
    Follows ⟨x'.withRecord r, n.history ++ op.events n.live,
    n.late && !completesAtOnce x' r⟩ y' := by
  obtain ⟨hunp, -⟩ := hp.replays
  refine ⟨?_, ?_, ?_⟩
  · intro hlate
    show Twin x' y'
    rcases Bool.and_eq_false_iff.mp hlate with hlate | hdone
    · exact twin_replayRecord (h.twin hlate) hunp hx hy
    · cases r with
      | epochInstalled cert =>
        exact twin_install hbase.wf hywf hyp hsync hx hy (by simpa [completesAtOnce] using hdone)
      | _ => simp [completesAtOnce] at hdone
  · intro hne
    cases hp with
    | locked hcan => cases hx; exact absurd hcan.active hne
    | confirmed hcan =>
      obtain ⟨-, rfl⟩ := Authority.replayRecord_confirmed_inv hx
      obtain ⟨-, rfl⟩ := Authority.replayRecord_confirmed_inv hy
      exact h.epochState hne
    | epochFence hcan => cases hx; cases hy; rfl
    | epochInstalled hcan hidle =>
      obtain ⟨next, hroster, rfl⟩ := Authority.replayRecord_epochInstalled_inv hx
      rw [Authority.replayRecord_epochInstalled (hsync.policy ▸ hroster), hsync.ledger] at hy
      obtain rfl := Except.ok.inj hy
      split at hne
      · exact absurd (Authority.completeInstall_active _) hne
      · next hc => simp only [hc]; rfl
  · intro hboth hactive
    have hactive' : x'.epochState = .active := hactive
    obtain ⟨hlate, hdone⟩ := (Bool.and_eq_true _ _).mp hboth
    cases hp with
    | locked hcan => cases hx; cases hy; exact h.late hlate hcan.active
    | confirmed hcan =>
      obtain ⟨-, rfl⟩ := Authority.replayRecord_confirmed_inv hx
      obtain ⟨-, rfl⟩ := Authority.replayRecord_confirmed_inv hy
      exact h.late hlate hactive'
    | epochFence hcan => cases hx; cases hactive'
    | epochInstalled hcan hidle =>
      rw [completesAtOnce, hactive'] at hdone
      cases hdone

/-- Recovery follows the live authority in every run whose writes all succeed. -/
theorem follows_pair (cfg : Config) : Pair cfg (fun _ op => op.Plain) Follows where
  start := ⟨fun _ => rfl, fun h => absurd rfl h, fun h => by cases h⟩
  stable _ h := h
  complete _ _ hp hc h := by
    obtain ⟨cert, next, fd, hs, -⟩ := Authority.isInstalling_of_covered hc
    refine ⟨fun h => (by cases h), fun hne => absurd (Authority.completeInstall_active _) hne, ?_⟩
    intro _ _
    rw [h.epochState (by rw [hs]; intro h; cases h), hs]
    rfl
  vote _ _ _ _ _ _ h := ⟨h.twin, h.epochState, h.late⟩
  commit hbase hrec _ hp hsync hx hy h :=
    have ⟨hywf, hyp, _⟩ := hbase.recovered hrec
    follows_commit hbase hywf hyp hp hsync hx hy h
  lost _ _ hok hio _ _ _ := absurd hok.1 hio
  kept _ _ hok hio _ _ _ _ := absurd hok.1 hio
  poison h := ⟨h.twin, h.epochState, h.late⟩
  epochVote _ _ _ _ h := ⟨h.twin, h.epochState, h.late⟩
  attest _ _ _ h := ⟨h.twin, h.epochState, h.late⟩
  compact _ hok _ _ := absurd hok.2 Bool.noConfusion
  crash hbase hy _ h := by
    obtain ⟨-, hyp, -⟩ := hbase.recovered hy
    exact ⟨fun _ => by unfold Twin Authority.withJournalOf; rw [← hyp], fun _ => rfl,
      fun h => by cases h⟩

end Node

/-- Agreement on everything that recovery is to reproduce. -/
structure Agrees (x y : Authority) : Prop where
  ledger : y.ledger = x.ledger
  locked : y.locked = x.locked
  confirmed : y.confirmed = x.confirmed
  epoch : y.epoch = x.epoch
  committeeId : y.committeeId = x.committeeId
  epochState : y.epochState = x.epochState

instance (x y : Authority) : Decidable (Agrees x y) :=
  decidable_of_iff (y.ledger = x.ledger ∧ y.locked = x.locked ∧ y.confirmed = x.confirmed ∧
    y.epoch = x.epoch ∧ y.committeeId = x.committeeId ∧ y.epochState = x.epochState)
    ⟨fun ⟨h1, h2, h3, h4, h5, h6⟩ => ⟨h1, h2, h3, h4, h5, h6⟩,
      fun h => ⟨h.ledger, h.locked, h.confirmed, h.epoch, h.committeeId, h.epochState⟩⟩

/-- Recovery from the node's journal agrees with its live authority. -/
def Reproduced (cfg : Config) (n : Node) : Prop :=
  ∃ y, cfg.recover n.live.journal = .ok y ∧ Agrees n.live y

instance (cfg : Config) (n : Node) : Decidable (Reproduced cfg n) :=
  match h : cfg.recover n.live.journal with
  | .error _ => isFalse (by rintro ⟨y, hy, -⟩; rw [h] at hy; cases hy)
  | .ok y =>
    decidable_of_iff (Agrees n.live y)
      ⟨fun ha => ⟨y, h, ha⟩, fun ⟨z, hz, ha⟩ => by rw [h] at hz; cases hz; exact ha⟩

theorem reproduced_of_late_eq_false {cfg : Config} {n : Node}
    (h : Node.Holds cfg Node.Follows n) (hlate : n.late = false) : Reproduced cfg n := by
  obtain ⟨hbase, y, hy, hfollows⟩ := h
  obtain ⟨y', hy', hrec⟩ := hbase.recover_ok
  obtain rfl : y = y' := Except.ok.inj (hy.symm.trans hy')
  refine ⟨_, hrec, ?_⟩
  rw [← hfollows.twin hlate]
  exact ⟨rfl, rfl, rfl, rfl, rfl, rfl⟩

theorem not_reproduced_of_late {cfg : Config} {n : Node} (h : Node.Holds cfg Node.Follows n)
    (hlate : n.late = true) (hactive : n.live.epochState = .active) : ¬ Reproduced cfg n := by
  obtain ⟨hbase, y, hy, hfollows⟩ := h
  obtain ⟨y', hy', hrec⟩ := hbase.recover_ok
  obtain rfl : y = y' := Except.ok.inj (hy.symm.trans hy')
  rintro ⟨z, hz, hagrees⟩
  obtain rfl := Except.ok.inj (hrec.symm.trans hz)
  have hstate : y.epochState = .active := hagrees.epochState.trans hactive
  have := hfollows.late hlate hactive
  rw [hstate] at this
  cases this

theorem Node.active_of_completesLate {cfg : Config} {n n' : Node} {op : Op} (hio : op.io = .stored)
    (h : step cfg n op = some n') (hlate : n.completesLate op = true) :
    n'.live.epochState = .active := by
  cases op with
  | handle order io =>
    cases h
    rw [← completes_handle, completes, Bool.and_eq_true, decide_eq_true_eq] at hlate
    exact hlate.2
  | confirm cert verifier committee observer io =>
    cases h
    obtain rfl : io = .stored := hio
    cases hv : cert.verify verifier with
    | none => simp [completesLate, hv] at hlate
    | some v =>
      rw [← completes_confirm n hv, completes, Bool.and_eq_true, decide_eq_true_eq] at hlate
      simp only [stepConfirm, hv]
      exact hlate.2
  | _ => cases hlate

/-- Recovery reproduces the live authority in every run of calls whose writes succeed, as long as no
call completes an install that an earlier call started. The condition is exact: at the first step
that does, and only there, recovery stops agreeing. -/
theorem recovery_reproduces {cfg : Config} {n : Node}
    (h : Reachable (Node.step cfg) (fun n op => op.Plain ∧ n.completesLate op = false)
      (.start cfg) n) :
    Reproduced cfg n ∧ ∀ op n', op.Plain → Node.step cfg n op = some n' →
      (Reproduced cfg n' ↔ n.completesLate op = false) := by
  have hplain := h.mono fun _ _ hok => hok.1
  have hlate : n.late = false := by
    refine h.invariant (I := fun n => n.late = false) rfl ?_
    intro m op m' _ hm hok hstep
    rw [Node.late_step hok.1.1 hstep hm]
    exact hok.2
  refine ⟨reproduced_of_late_eq_false (Node.pair_invariant (Node.follows_pair cfg) hplain) hlate,
    ?_⟩
  intro op n' hop hstep
  have hn' := Node.pair_invariant (Node.follows_pair cfg) (hplain.tail hop hstep)
  have hflag := Node.late_step hop.1 hstep hlate
  constructor
  · intro hrep
    by_contra hc
    rw [Bool.not_eq_false] at hc
    exact not_reproduced_of_late hn' (hflag.trans hc)
      (Node.active_of_completesLate hop.1 hstep hc) hrep
  · intro hc
    exact reproduced_of_late_eq_false hn' (hflag.trans hc)

end Recovery

/-! ## A small deployment

The runs that refute a statement, or show that its hypotheses can be met, use a toy hash and toy
signatures. On the strings that occur in them the hash has no collisions. -/

namespace Demo

/-- A polynomial hash with `k` bytes of output. -/
def mix (k : Nat) (m : Bytes) : List.Vector UInt8 k :=
  ⟨leBytes k (m.foldl (fun h b => (h * 16777619 + b.toNat + 1) % 2 ^ (8 * k)) 14695981039346656037),
    length_leBytes _ _⟩

scoped instance toyCrypto : Crypto where
  sha256 := mix 32
  verifyingKey key := key
  sign key m := mix 64 (key.toList ++ m)
  verifyStrict key m signature := decide (signature = mix 64 (key.toList ++ m))
  verify key m signature := decide (signature = mix 64 (key.toList ++ m))

def key (i : UInt8) : SigningKey := List.Vector.replicate 32 i

def policy : TransferPolicy where
  networkId := ⟨⟨"net", by decide⟩, by decide, by decide⟩
  owners := ⟨OrdMap.ofEntries [(alice, key 100), (bob, key 101), (carol, key 102)]⟩

def a0 : AuthorityId := ⟨"a0", Str.fits_a0⟩
def a1 : AuthorityId := ⟨"a1", Str.fits_a1⟩
def a2 : AuthorityId := ⟨"a2", by decide⟩
def a3 : AuthorityId := ⟨"a3", by decide⟩

/-- Four members; a toy key is its own verifying key. -/
def quadRoster : List (AuthorityId × VerifyingKey) :=
  [(a0, key 0), (a1, key 1), (a2, key 2), (a3, key 3)]

def quad : Committee := (Committee.new quadRoster policy).get (by decide +kernel)

def soloRoster : List (AuthorityId × VerifyingKey) := [(a3, key 3)]

def solo : Committee := (Committee.new soloRoster policy).get (by decide +kernel)

theorem demoLedger_sound : demoLedger.Sound := by
  show demoLedger.supply < 2 ^ 128
  decide +kernel

/-- The authority `id` with key `k`, whose trust root is `c`. -/
def config (id : AuthorityId) (k : SigningKey) (c : Committee) : Config :=
  ⟨id, k, policy, c.id, demoLedger, demoLedger_sound⟩

/-- Alice signs a transfer of her first sequence number to `recipient`. -/
def order (recipient : AccountId) (amount : Amount) (round : U64) : SignedTransfer :=
  .signAtRound policy ⟨alice, 0, recipient, amount⟩ round (key 100)

/-- The votes of the listed members of `c` for one order. -/
def certify (c : Committee) (members : List (AuthorityId × VerifyingKey)) (o : SignedTransfer) :
    Certificate :=
  ⟨o, members.map fun m => (config m.1 m.2 c).authority.sign o⟩

/-- The votes of the listed members of `old` for one epoch change. -/
def certifyEpoch (old next : Committee) (roster members : List (AuthorityId × VerifyingKey))
    (epoch : U64) (frontier : Frontier) : EpochCert :=
  ⟨epoch, roster, frontier, members.map fun m =>
    EpochVote.sign m.1 old.id epoch next.id frontier m.2⟩

def toBob : SignedTransfer := order bob 30 0

def proposal (roster : List (AuthorityId × VerifyingKey)) (epoch : U64) : EpochProposal :=
  ⟨policy.networkId, policy.id, epoch, roster⟩

/-- A member votes, applies, fences and installs a change to the roster `quad` in epoch 1. -/
def promptRun : List Op :=
  [.handle toBob .stored, .confirm (certify solo soloRoster toBob) solo solo false .stored,
    .fence (proposal quadRoster 1) .stored,
    .installEpochCert (certifyEpoch solo quad quadRoster soloRoster 1 [(alice, 1), (bob, 0)]) solo
      .stored]

/-- Three members of `quad` have applied the transfer and hand over to `a3` alone. -/
def handover : EpochCert :=
  certifyEpoch quad solo soloRoster (quadRoster.take 3) 1 [(alice, 1), (bob, 0)]

/-- The straggler `a3` installs the handover first and applies the transfer afterwards. -/
def lateRun : List Op :=
  [.installEpochCert handover quad .stored,
    .confirm (certify quad (quadRoster.take 3) toBob) quad quad false .stored]

end Demo

open Demo in
/-- Four calls of a member of `solo`, an epoch change among them: recovery reproduces the state. -/
theorem recovery_reproduces_demo :
    ∃ n, Reachable (Node.step (config a3 (key 3) solo))
      (fun n op => op.Plain ∧ n.completesLate op = false) (.start (config a3 (key 3) solo)) n ∧
      n.live.epoch = 1 ∧ Reproduced (config a3 (key 3) solo) n := by
  obtain ⟨n, hn, hepoch⟩ : ∃ n, Reachable (Node.step (config a3 (key 3) solo))
      (fun n op => op.Plain ∧ n.completesLate op = false) (.start (config a3 (key 3) solo)) n ∧
      n.live.epoch = 1 :=
    Reachable.of_exec promptRun (by decide +kernel)
  exact ⟨n, hn, hepoch, (recovery_reproduces hn).1⟩

open Demo in
/-- The straggler is live in epoch 1 and trusts `solo`; its own journal puts it back into
epoch 0. -/
theorem recovery_forgets_late_install :
    ∃ n, Reachable (Node.step (config a3 (key 3) quad)) (fun _ op => op.Plain ∧ op ∈ lateRun)
      (.start (config a3 (key 3) quad)) n ∧
      n.live.epoch = 1 ∧ n.live.committeeId = solo.id ∧ ¬ Reproduced (config a3 (key 3) quad) n :=
  Reachable.of_exec lateRun (by decide +kernel)

end P2P333.Transfer333
