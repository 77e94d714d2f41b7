import P2P333.Transfer333.Codec.Wire
import P2P333.Transfer333.Network
import P2P333.Transfer333.Recovery

/-!
# The daemon of an authority

`run_authority` of `333-transfer/src/bin/node.rs`: the process around an authority. The trust root
lives twice. The authority has its committee id, and the loop has the committee that it checks
certificates against. The loop builds its own from the flags at every start, and swaps it when an
epoch certificate is installed at once, or after the batch in which a parked one is covered.

Frames, the mesh, the events on stdout and what the loop broadcasts are left out: they change
neither the authority nor the two variables of the loop.

Results:
1. `Authority.Shift`: what one call can do to the trust root of the authority.
2. `Daemon.Phase`: the four ways in which the loop and its authority stand to each other.
3. `certs_checked_under_root`: no certificate is checked against another committee than the
   authority's own, if every restart is under the roster of the flags and the message that covers a
   parked install is the last certificate of its batch.
   `stale_root_drops`: without the first condition a restarted daemon drops what its authority
   accepts, without the second one it drops the next certificate of the batch.
-/

namespace P2P333.Transfer333

open Std Lib

section Loop

variable [Crypto]

/-! ## Start -/

/-- The command line of an authority, parsed. `journal` says whether `--journal` is there. The
committee is built by `parse_committee` under the policy of the other flags. -/
structure Flags where
  id : AuthorityId
  signing : SigningKey
  policy : TransferPolicy
  committee : Committee
  genesis : Ledger
  observe : Bool
  journal : Bool
  sound : genesis.Sound
  formed : ∃ roster, Committee.new roster policy = some committee

def Flags.config (flags : Flags) : Config :=
  ⟨flags.id, flags.signing, flags.policy, flags.committee.id, flags.genesis, flags.sound⟩

/-- Without `--journal` nothing is written, so nothing can fail. -/
def Flags.write (flags : Flags) (io : Io) : Io := if flags.journal then io else .stored

/-- The loop's variables. `batch` holds the messages of the current batch that are still to be
handled; it is `none` at the top of the loop. -/
structure Daemon where
  auth : Authority
  committee : Committee
  pendingEpochCert : Option EpochCert
  batch : Option (List AuthorityMsg)
deriving DecidableEq

/-- The daemon is down, or it has an authority. -/
inductive Process where
  | stopped (journal : Journal)
  | running (d : Daemon)
deriving DecidableEq

/-- A member has to have the key of its entry; anybody else needs `--observe`. -/
def Flags.admits (flags : Flags) (auth : Authority) : Bool :=
  match flags.committee.keyOf flags.id with
  | some expected => decide (Crypto.verifyingKey auth.signing = expected)
  | none => flags.observe

/-- `run_authority` up to its loop. Neither the committee nor the parked certificate are taken from
what was recovered. -/
def Flags.boot (flags : Flags) (journal : Journal) : Process :=
  match if flags.journal then flags.config.recover journal else .ok flags.config.authority with
  | .error _ => .stopped (journal.bind flags.config.identity).2
  | .ok auth =>
    if flags.admits auth then .running ⟨auth, flags.committee, none, none⟩
    else .stopped auth.journal

/-! ## The loop -/

/-- The `Cert` arm. A certificate that does not verify is dropped without an answer. -/
def Authority.present (x : Authority) (c : Certificate) (committee : Committee) (observe : Bool)
    (io : Io) : Option (Except ConfirmError ConfirmOutcome) × Authority :=
  match c.verify committee with
  | none => (none, x)
  | some v =>
    let outcome := if observe then x.confirmAsObserver v committee io else x.confirm v committee io
    (some outcome.1, outcome.2)

namespace Daemon

/-- The `Order` arm. A durability fault ends the process. -/
def onOrder (d : Daemon) (o : SignedTransfer) (io : Io) : Process :=
  match d.auth.handle o io with
  | (.error (.journalFailed _), x) => .stopped x.journal
  | (.error .poisoned, x) => .stopped x.journal
  | (_, x) => .running { d with auth := x }

/-- The `EpochCert` arm. -/
def onEpochCert (flags : Flags) (d : Daemon) (c : EpochCert) (io : Io) : Process :=
  match d.auth.installEpochCert c d.committee io with
  | (.ok .installed, x) =>
    match Committee.withEpoch c.nextRoster flags.policy c.epoch with
    | some committee => .running { d with auth := x, committee }
    -- `expect("roster validated at install")`
    | none => .stopped x.journal
  | (.ok .installing, x) => .running { d with auth := x, pendingEpochCert := some c }
  | (.error .conflictingCert, x) => .stopped x.journal
  | (_, x) => .running { d with auth := x }

/-- One message of a batch. -/
def onMessage (flags : Flags) (d : Daemon) (io : Io) : AuthorityMsg → Process
  | .order o => d.onOrder o io
  | .cert c => .running { d with auth := (d.auth.present c d.committee flags.observe io).2 }
  | .epochProposal p => .running { d with auth := (d.auth.fence p io).2 }
  | .epochCert c => d.onEpochCert flags c io
  | .vote _ | .attestation _ | .epochVote _ => .running d

/-- After a batch: a parked epoch certificate whose epoch the authority has reached. -/
def swap (flags : Flags) (d : Daemon) : Process :=
  match d.pendingEpochCert with
  | none => .running d
  | some pc =>
    if d.auth.epoch = pc.epoch then
      match Committee.withEpoch pc.nextRoster flags.policy pc.epoch with
      | some committee => .running { d with committee, pendingEpochCert := none }
      | none => .stopped d.auth.journal
    else .running d

end Daemon

/-- What happens to the process: it is started, polls a batch, handles the next message of it, ends
the batch, or is stopped, at any point. -/
inductive Turn where
  | boot
  | poll (msgs : List AuthorityMsg)
  | message (io : Io)
  | endBatch
  | stop
deriving DecidableEq

/-- A batch without messages is an idle round, which changes no variable of the loop. -/
def Process.step (flags : Flags) : Process → Turn → Option Process
  | .stopped journal, .boot => some (flags.boot journal)
  | .running d, .stop => some (.stopped d.auth.journal)
  | .running d, .poll msgs =>
    if d.batch ≠ none then none
    else if msgs = [] then some (.running d)
    else some (.running { d with batch := some msgs })
  | .running d, .message io =>
    match d.batch with
    | some (m :: rest) => some ({ d with batch := some rest }.onMessage flags (flags.write io) m)
    | _ => none
  | .running d, .endBatch =>
    match d.batch with
    | some [] => some ({ d with batch := none }.swap flags)
    | _ => none
  | _, _ => none

/-! ## When the loop keeps up -/

/-- The messages that are checked against the loop's committee. -/
def AuthorityMsg.isCert : AuthorityMsg → Bool
  | .cert _ | .epochCert _ => true
  | _ => false

/-- The install that waits for its frontier. -/
def Authority.parked (x : Authority) : Option (EpochCert × Committee) :=
  match x.epochState with
  | .installing cert next _ => some (cert, next)
  | _ => none

/-- Recovery from the journal leaves the authority under the roster of the flags, and with no
install of another roster under way. -/
def Flags.Rooted (flags : Flags) (journal : Journal) : Prop :=
  ∀ x ∈ (flags.config.recover journal).toOption,
    x.committeeId = flags.committee.id ∧ ∀ e ∈ x.parked, e.2.id = flags.committee.id

/-- The message covers a parked install: a certificate that delivers the rest of the committed
frontier, or an order that finds it delivered. -/
def Daemon.covering (flags : Flags) (d : Daemon) (io : Io) : AuthorityMsg → Bool
  | .order o => Node.completesLate ⟨d.auth, [], false⟩ (.handle o io)
  | .cert c => decide (io = .stored) &&
    Node.completesLate ⟨d.auth, [], false⟩ (.confirm c d.committee d.committee flags.observe io)
  | _ => false

/-- A restart with the journal is under the roster of the flags, and the message that covers a
parked install is the last certificate of its batch. -/
def Flags.Steady (flags : Flags) : Process → Turn → Prop
  | .stopped journal, .boot => flags.journal = true → flags.Rooted journal
  | .running d, .message io =>
    match d.batch with
    | some (m :: rest) =>
      d.covering flags (flags.write io) m = true → ∀ m' ∈ rest, m'.isCert = false
    | _ => True
  | _, _ => True

instance (flags : Flags) (journal : Journal) : Decidable (flags.Rooted journal) :=
  inferInstanceAs (Decidable (∀ x ∈ (flags.config.recover journal).toOption, _ ∧ _))

instance (flags : Flags) : (p : Process) → (t : Turn) → Decidable (flags.Steady p t)
  | .stopped journal, .boot => inferInstanceAs (Decidable (_ → flags.Rooted journal))
  | .running d, .message io =>
    match h : d.batch with
    | some (m :: rest) =>
      decidable_of_iff (d.covering flags (flags.write io) m = true → ∀ m' ∈ rest, m'.isCert = false)
        (by simp only [Flags.Steady, h])
    | some [] => isTrue (by simp only [Flags.Steady, h])
    | none => isTrue (by simp only [Flags.Steady, h])
  | .stopped _, .poll _ => isTrue trivial
  | .stopped _, .message _ => isTrue trivial
  | .stopped _, .endBatch => isTrue trivial
  | .stopped _, .stop => isTrue trivial
  | .running _, .boot => isTrue trivial
  | .running _, .poll _ => isTrue trivial
  | .running _, .endBatch => isTrue trivial
  | .running _, .stop => isTrue trivial

/-! ## What a call does to the trust root -/

namespace Authority

variable {x x' : Authority}

/-- The policy and the trust root are the same, and so is the install that waits. -/
structure SameRoot (x x' : Authority) : Prop where
  policy : x'.policy = x.policy
  committeeId : x'.committeeId = x.committeeId
  epoch : x'.epoch = x.epoch
  parked : x'.parked = x.parked

omit [Crypto] in
theorem SameRoot.refl (x : Authority) : SameRoot x x := ⟨rfl, rfl, rfl, rfl⟩

/-- A call leaves the trust root alone, or completes the install that waits. -/
inductive Shift (x x' : Authority) : Prop
  | stays (h : SameRoot x x')
  | completes {cert : EpochCert} {next : Committee} (hparked : x.parked = some (cert, next))
      (hpolicy : x'.policy = x.policy) (hroot : x'.committeeId = next.id)
      (hepoch : x'.epoch = cert.epoch) (hactive : x'.epochState = .active)

omit [Crypto] in
theorem parked_eq_none : x.parked = none ↔ x.epochState.isInstalling = false := by
  unfold parked
  cases x.epochState <;> simp [EpochState.isInstalling]

/-- Completing the install that waits, and then a call that leaves the trust root alone. -/
theorem shift_of_completeInstall (hcovered : x.installCovered = true)
    (h : SameRoot x.completeInstall x') (hactive : x'.epochState = .active) : Shift x x' := by
  obtain ⟨cert, next, fd, hs, -⟩ := isInstalling_of_covered hcovered
  have hdone : x.completeInstall =
      { x with epochState := .active, committeeId := next.id, epoch := cert.epoch } := by
    simp only [completeInstall, hs]
  rw [hdone] at h
  exact .completes (by simp only [parked, hs]) h.policy h.committeeId h.epoch hactive

theorem sameRoot_of_opened {order : SignedTransfer} {io : Io}
    {r : Except AuthorityError Vote × Authority} (h : x.Opened order io r) : SameRoot x r.2 := by
  cases h <;> exact ⟨rfl, rfl, rfl, rfl⟩

theorem handle_shift (x : Authority) (order : SignedTransfer) (io : Io) :
    Shift x (x.handle order io).2 := by
  unfold handle
  split
  · exact .stays (.refl x)
  · next hp =>
    rw [Bool.not_eq_true] at hp
    split
    · exact .stays (.refl x)
    · next hgate =>
      -- the gate completes the install before the order is looked at
      have hcovered : x.installCovered = true := by
        unfold gate at hgate
        split at hgate
        · cases hgate
        · cases hgate
        · split at hgate
          · next hc => exact hc
          · cases hgate
      have hopened := handleOpen_spec (x.completeInstall_frame.2.trans hp)
        x.completeInstall_active order io
      exact shift_of_completeInstall hcovered (sameRoot_of_opened hopened)
        ((Node.opened_epochState hopened).trans x.completeInstall_active)
    · next hgate =>
      have hactive : x.epochState = .active := by
        unfold gate at hgate
        split at hgate
        · next hs => exact hs
        · cases hgate
        · split at hgate <;> cases hgate
      exact .stays (sameRoot_of_opened (handleOpen_spec hp hactive order io))

theorem present_eq {c : Certificate} {committee : Committee} {v : Verified}
    (hv : c.verify committee = some v) (x : Authority) (observe : Bool) (io : Io) :
    x.present c committee observe io =
      (some (x.confirmImpl v committee (!observe) io).1,
      (x.confirmImpl v committee (!observe) io).2) := by
  cases observe <;> simp only [present, hv] <;> rfl

theorem present_shift (x : Authority) (c : Certificate) (committee : Committee) (observe : Bool)
    (io : Io) : Shift x (x.present c committee observe io).2 := by
  cases hv : c.verify committee with
  | none =>
    simp only [present, hv]
    exact .stays (.refl x)
  | some v =>
    rw [present_eq hv]
    have hspec := x.confirmImpl_spec hv committee (!observe) io
    generalize x.confirmImpl v committee (!observe) io = r at hspec
    cases hspec with
    | refused e => exact .stays (.refl x)
    | already => exact .stays (.refl x)
    | failed h e kept hio => exact .stays ⟨rfl, rfl, rfl, rfl⟩
    | stored h =>
      split
      · next hcovered =>
        obtain ⟨cert, next, fd, hs, -⟩ := isInstalling_of_covered hcovered
        have hx : x.epochState = .installing cert next fd := hs
        have hparked : x.parked = some (cert, next) := by simp only [parked, hx]
        refine .completes hparked ?_ ?_ ?_ (completeInstall_active _) <;>
          simp only [completeInstall, withRecord, spend, hx]
      · exact .stays ⟨rfl, rfl, rfl, rfl⟩

/-- A failed write leaves the epoch change where it stands. -/
theorem epochState_confirmImpl_failed (x : Authority) (v : Verified) (committee : Committee)
    (m : Bool) (e : JournalError) (kept : Bool) :
    (x.confirmImpl v committee m (.failed e kept)).2.epochState = x.epochState := by
  unfold confirmImpl
  split
  · rfl
  · simp only
    split
    · split <;> rfl
    · unfold applyOrder
      split
      · rfl
      · rw [journalAppend_failed]

theorem fence_sameRoot (x : Authority) (proposal : EpochProposal) (io : Io) :
    SameRoot x (x.fence proposal io).2 := by
  have hspec := x.fence_spec proposal io
  generalize (x.fence proposal io).2 = y at hspec
  cases hspec with
  | same => exact .refl x
  | stored h => exact ⟨rfl, rfl, rfl, by simp [parked, withRecord, h.active]⟩
  | failed h kept hio => exact ⟨rfl, rfl, rfl, rfl⟩

theorem replayRecord_policy {y : Authority} {r : JournalRecord} (h : x.replayRecord r = .ok y) :
    y.policy = x.policy := by
  cases r with
  | locked order => cases h; rfl
  | epochFence proposal => cases h; rfl
  | snapshot sn =>
    obtain ⟨_, -, rfl⟩ := replayRecord_snapshot_inv h
    rfl
  | confirmed order =>
    obtain ⟨-, rfl⟩ := replayRecord_confirmed_inv h
    rfl
  | epochInstalled cert =>
    obtain ⟨_, -, rfl⟩ := replayRecord_epochInstalled_inv h
    split <;> rfl

/-- What `install_epoch_cert` answers, and what it does to the trust root. -/
inductive Installs (x : Authority) (c : EpochCert) :
    Except EpochError InstallOutcome × Authority → Prop
  | stays {r : Except EpochError InstallOutcome} {x' : Authority} (h : SameRoot x x')
      (hinstalled : r ≠ .ok .installed) (hinstalling : r ≠ .ok .installing) : Installs x c (r, x')
  | installing {next : Committee} {x' : Authority} (hidle : x.parked = none)
      (hroster : Committee.withEpoch c.nextRoster x.policy c.epoch = some next)
      (hnext : c.epoch = x.epoch + 1) (hpolicy : x'.policy = x.policy)
      (hroot : x'.committeeId = x.committeeId) (hepoch : x'.epoch = x.epoch)
      (hparked : x'.parked = some (c, next)) : Installs x c (.ok .installing, x')
  | installed {next : Committee} {x' : Authority} (hidle : x.parked = none)
      (hroster : Committee.withEpoch c.nextRoster x.policy c.epoch = some next)
      (hpolicy : x'.policy = x.policy) (hroot : x'.committeeId = next.id)
      (hparked : x'.parked = none) : Installs x c (.ok .installed, x')

theorem installEpochCert_installs (x : Authority) (c : EpochCert) (old : Committee) (io : Io) :
    Installs x c (x.installEpochCert c old io) := by
  have hspec := x.installEpochCert_spec c old io
  generalize x.installEpochCert c old io = r at hspec
  cases hspec with
  | refused e hne => exact .stays (.refl x) (by simp) (by simp)
  | already => exact .stays (.refl x) (by simp) (by simp)
  | stale expected got => exact .stays (.refl x) (by simp) (by simp)
  | conflict h hstate hdiff | failed h hidle e kept hio =>
    exact .stays ⟨rfl, rfl, rfl, rfl⟩ (by simp) (by simp)
  | stored h hidle hy hr =>
    have hnone := parked_eq_none.mpr hidle
    rw [replayRecord_epochInstalled h.roster, Except.ok.injEq] at hy
    subst hy hr
    split
    · exact .installed hnone h.roster rfl rfl rfl
    · exact .installing hnone h.roster h.epoch rfl rfl rfl rfl

end Authority

/-! ## The loop and its authority -/

namespace Daemon

variable {flags : Flags} {d : Daemon}

/-- How the loop's variables stand to its authority. -/
inductive Phase (flags : Flags) (d : Daemon) : Prop
  /-- No epoch change is under way. -/
  | level (hroot : d.committee.id = d.auth.committeeId) (hparked : d.auth.parked = none)
      (hpending : d.pendingEpochCert = none)
  /-- The authority waits for the frontier of the certificate that the loop has kept. -/
  | parked {pc : EpochCert} {next : Committee} (hroot : d.committee.id = d.auth.committeeId)
      (hparked : d.auth.parked = some (pc, next)) (hpending : d.pendingEpochCert = some pc)
      (hroster : Committee.withEpoch pc.nextRoster flags.policy pc.epoch = some next)
      (hepoch : pc.epoch = d.auth.epoch + 1)
  /-- The authority waits since before the start, for a change that keeps the roster. -/
  | renewing {pc : EpochCert} {next : Committee} (hroot : d.committee.id = d.auth.committeeId)
      (hparked : d.auth.parked = some (pc, next)) (hpending : d.pendingEpochCert = none)
      (hsame : next.id = d.committee.id)
  /-- The authority has moved on in this batch; the loop follows when the batch is over. -/
  | ahead {pc : EpochCert} {next : Committee} {rest : List AuthorityMsg}
      (hparked : d.auth.parked = none) (hpending : d.pendingEpochCert = some pc)
      (hroster : Committee.withEpoch pc.nextRoster flags.policy pc.epoch = some next)
      (hroot : d.auth.committeeId = next.id) (hepoch : d.auth.epoch = pc.epoch)
      (hbatch : d.batch = some rest) (hrest : ∀ m ∈ rest, m.isCert = false)

/-- The invariant of the loop. -/
structure Inv (flags : Flags) (d : Daemon) : Prop where
  policy : d.auth.policy = flags.policy
  formed : d.committee.policy = flags.policy
  phase : Phase flags d

/-- A message taken off the batch. -/
theorem Phase.tail {m : AuthorityMsg} {rest : List AuthorityMsg} (h : Phase flags d)
    (hbatch : d.batch = some (m :: rest)) : Phase flags { d with batch := some rest } := by
  cases h with
  | level hroot hparked hpending => exact .level hroot hparked hpending
  | parked hroot hparked hpending hroster hepoch =>
    exact .parked hroot hparked hpending hroster hepoch
  | renewing hroot hparked hpending hsame => exact .renewing hroot hparked hpending hsame
  | ahead hparked hpending hroster hroot hepoch hb hrest =>
    obtain rfl := Option.some.inj (hbatch.symm.trans hb)
    exact .ahead hparked hpending hroster hroot hepoch rfl
      fun m' hm' => hrest m' (List.mem_cons_of_mem _ hm')

/-- A batch that is polled. -/
theorem Phase.poll (h : Phase flags d) (hbatch : d.batch = none) (msgs : List AuthorityMsg) :
    Phase flags { d with batch := some msgs } := by
  cases h with
  | level hroot hparked hpending => exact .level hroot hparked hpending
  | parked hroot hparked hpending hroster hepoch =>
    exact .parked hroot hparked hpending hroster hepoch
  | renewing hroot hparked hpending hsame => exact .renewing hroot hparked hpending hsame
  | ahead _ _ _ _ _ hb _ => rw [hbatch] at hb; cases hb

variable {m : AuthorityMsg} {rest : List AuthorityMsg}

/-- The loop is not behind when its next message is a certificate. -/
theorem Phase.root_eq (h : Phase flags d)
    (hbatch : d.batch = some (m :: rest)) (hm : m.isCert = true) :
    d.committee.id = d.auth.committeeId := by
  cases h with
  | level hroot _ _ => exact hroot
  | parked hroot _ _ _ _ => exact hroot
  | renewing hroot _ _ _ => exact hroot
  | ahead _ _ _ _ _ hb hrest =>
    obtain rfl := Option.some.inj (hbatch.symm.trans hb)
    rw [hrest m List.mem_cons_self] at hm
    cases hm

/-- Nor has it kept a certificate then that the authority does not wait for. -/
theorem Phase.pending_eq_none (h : Phase flags d)
    (hbatch : d.batch = some (m :: rest)) (hm : m.isCert = true) (hidle : d.auth.parked = none) :
    d.pendingEpochCert = none := by
  cases h with
  | level _ _ hpending => exact hpending
  | parked _ hparked _ _ _ => rw [hidle] at hparked; cases hparked
  | renewing _ _ hpending _ => exact hpending
  | ahead _ _ _ _ _ hb hrest =>
    obtain rfl := Option.some.inj (hbatch.symm.trans hb)
    rw [hrest m List.mem_cons_self] at hm
    cases hm

variable {x' : Authority}

/-- A call that may complete an install keeps the phase, if no certificate is left in the batch when
it does. -/
theorem Phase.shift (h : Phase flags d) (hshift : d.auth.Shift x')
    (hlast : d.auth.parked ≠ none → x'.epochState = .active →
      ∃ rest, d.batch = some rest ∧ ∀ m ∈ rest, m.isCert = false) :
    Phase flags { d with auth := x' } := by
  cases hshift with
  | stays hs =>
    cases h with
    | level hroot hparked hpending =>
      exact .level (hroot.trans hs.committeeId.symm) (hs.parked.trans hparked) hpending
    | parked hroot hparked hpending hroster hepoch =>
      exact .parked (hroot.trans hs.committeeId.symm) (hs.parked.trans hparked) hpending hroster
        (hepoch.trans (by rw [hs.epoch]))
    | renewing hroot hparked hpending hsame =>
      exact .renewing (hroot.trans hs.committeeId.symm) (hs.parked.trans hparked) hpending hsame
    | ahead hparked hpending hroster hroot hepoch hb hrest =>
      exact .ahead (hs.parked.trans hparked) hpending hroster (hs.committeeId.trans hroot)
        (hs.epoch.trans hepoch) hb hrest
  | completes hwaits hpolicy hnext hnew hactive =>
    have hdone : x'.parked = none := Authority.parked_eq_none.mpr (by rw [hactive]; rfl)
    cases h with
    | level _ hparked _ => rw [hparked] at hwaits; cases hwaits
    | ahead hparked _ _ _ _ _ _ => rw [hparked] at hwaits; cases hwaits
    | parked _ hparked hpending hroster _ =>
      obtain ⟨rest, hb, hrest⟩ := hlast (by rw [hparked]; simp) hactive
      rw [hparked] at hwaits
      cases hwaits
      exact .ahead hdone hpending hroster hnext hnew hb hrest
    | renewing _ hparked hpending hsame =>
      rw [hparked] at hwaits
      cases hwaits
      exact .level (hsame.symm.trans hnext.symm) hdone hpending

/-- What a process that is still running has to satisfy. -/
def Holds (flags : Flags) : Process → Prop
  | .stopped _ => True
  | .running d => d.Inv flags

theorem inv_shift (h : d.Inv flags) (hshift : d.auth.Shift x')
    (hlast : d.auth.parked ≠ none → x'.epochState = .active →
      ∃ rest, d.batch = some rest ∧ ∀ m ∈ rest, m.isCert = false) :
    Inv flags { d with auth := x' } := by
  refine ⟨?_, h.formed, h.phase.shift hshift hlast⟩
  cases hshift with
  | stays hs => exact hs.policy.trans h.policy
  | completes _ hpolicy _ _ _ => exact hpolicy.trans h.policy

/-- A call that leaves the trust root alone. -/
theorem inv_sameRoot (h : d.Inv flags) (hs : d.auth.SameRoot x') :
    Inv flags { d with auth := x' } := by
  refine inv_shift h (.stays hs) fun hparked hactive => absurd ?_ hparked
  rw [← hs.parked, Authority.parked_eq_none, hactive]
  rfl

/-- The process ends, or goes on with what `handle` left. -/
theorem onOrder_holds {o : SignedTransfer} {io : Io}
    (h : Inv flags { d with auth := (d.auth.handle o io).2 }) :
    Holds flags (d.onOrder o io) := by
  unfold onOrder
  split
  · trivial
  · trivial
  · next heq =>
    rw [heq] at h
    exact h

/-- The arm of a loop that is not behind: the committee is swapped at once, or the certificate is
kept. -/
theorem onEpochCert_holds (h : d.Inv flags) (hroot : d.committee.id = d.auth.committeeId)
    (hpending : d.auth.parked = none → d.pendingEpochCert = none) (c : EpochCert) (io : Io) :
    Holds flags (d.onEpochCert flags c io) := by
  unfold onEpochCert
  have hspec := d.auth.installEpochCert_installs c d.committee io
  generalize d.auth.installEpochCert c d.committee io = r at hspec
  cases hspec with
  | stays hs hinstalled hinstalling =>
    split
    · next heq => exact absurd (Prod.mk.inj heq).1 hinstalled
    · next heq => exact absurd (Prod.mk.inj heq).1 hinstalling
    · trivial
    · next heq =>
      obtain ⟨-, rfl⟩ := Prod.mk.inj heq
      exact inv_sameRoot h hs
  | installing hidle hroster hnext hpolicy hsame hepoch hparked =>
    rw [h.policy] at hroster
    exact ⟨hpolicy.trans h.policy, h.formed,
      .parked (hroot.trans hsame.symm) hparked rfl hroster (hnext.trans (by rw [hepoch]))⟩
  | installed hidle hroster hpolicy hnext hparked =>
    rw [h.policy] at hroster
    simp only [hroster]
    exact ⟨hpolicy.trans h.policy, Committee.withEpoch_policy hroster,
      .level hnext.symm hparked (hpending hidle)⟩

/-- Completing the install that waits takes a message that covers it. -/
theorem covering_order {o : SignedTransfer} {io : Io} (hparked : d.auth.parked ≠ none)
    (hactive : (d.auth.handle o io).2.epochState = .active) :
    d.covering flags io (.order o) = true := by
  rw [Ne, Authority.parked_eq_none, Bool.not_eq_false] at hparked
  have hdone : Node.completes d.auth (d.auth.handle o io).2 = true := by
    rw [Node.completes, hparked, hactive]
    rfl
  exact (Node.completes_handle ⟨d.auth, [], false⟩ o io).symm.trans hdone

theorem covering_cert {c : Certificate} {io : Io} (hparked : d.auth.parked ≠ none)
    (hactive : (d.auth.present c d.committee flags.observe io).2.epochState = .active) :
    d.covering flags io (.cert c) = true := by
  rw [Ne, Authority.parked_eq_none, Bool.not_eq_false] at hparked
  cases hv : c.verify d.committee with
  | none =>
    simp only [Authority.present, hv] at hactive
    rw [hactive] at hparked
    cases hparked
  | some v =>
    rw [Authority.present_eq hv] at hactive
    cases io with
    | stored =>
      have hdone : Node.completes d.auth
          (d.auth.confirmImpl v d.committee (!flags.observe) .stored).2 = true := by
        rw [Node.completes, hparked, hactive]
        rfl
      have hlate := (Node.completes_confirm ⟨d.auth, [], false⟩ hv d.committee
        flags.observe).symm.trans hdone
      simp only [covering, hlate, decide_true, Bool.and_self]
    | failed e kept =>
      rw [Authority.epochState_confirmImpl_failed] at hactive
      rw [hactive] at hparked
      cases hparked

/-! ## Every turn keeps the invariant -/

theorem onMessage_holds (h : d.Inv flags) (hbatch : d.batch = some (m :: rest)) (io : Io)
    (hlast : d.covering flags io m = true → ∀ m' ∈ rest, m'.isCert = false) :
    Holds flags ({ d with batch := some rest }.onMessage flags io m) := by
  have htail : Inv flags { d with batch := some rest } :=
    ⟨h.policy, h.formed, h.phase.tail hbatch⟩
  cases m with
  | order o =>
    exact onOrder_holds (inv_shift htail (d.auth.handle_shift o io) fun hparked hactive =>
      ⟨rest, rfl, hlast (covering_order hparked hactive)⟩)
  | cert c =>
    exact inv_shift htail (d.auth.present_shift c d.committee flags.observe io)
      fun hparked hactive => ⟨rest, rfl, hlast (covering_cert hparked hactive)⟩
  | epochProposal p => exact inv_sameRoot htail (d.auth.fence_sameRoot p io)
  | epochCert c =>
    refine onEpochCert_holds htail (h.phase.root_eq hbatch rfl) ?_ c io
    exact h.phase.pending_eq_none hbatch rfl
  | vote v => exact htail
  | attestation a => exact htail
  | epochVote v => exact htail

theorem swap_holds (h : d.Inv flags) :
    Holds flags ({ d with batch := none }.swap flags) := by
  obtain ⟨hpolicy, hformed, hphase⟩ := h
  cases hphase with
  | level hroot hparked hpending =>
    simp only [swap, hpending]
    exact ⟨hpolicy, hformed, .level hroot hparked rfl⟩
  | renewing hroot hparked hpending hsame =>
    simp only [swap, hpending]
    exact ⟨hpolicy, hformed, .renewing hroot hparked rfl hsame⟩
  | @parked pc next hroot hparked hpending hroster hepoch =>
    -- the authority is still one epoch behind the certificate
    have hbehind : d.auth.epoch ≠ pc.epoch := by
      rw [hepoch]
      intro heq
      have := congrArg (· - d.auth.epoch) heq
      simp at this
    simp only [swap, hpending, if_neg hbehind]
    exact ⟨hpolicy, hformed, .parked hroot hparked rfl hroster hepoch⟩
  | ahead hparked hpending hroster hroot hepoch hb hrest =>
    simp only [swap, hpending, if_pos hepoch, hroster]
    exact ⟨hpolicy, Committee.withEpoch_policy hroster, .level hroot.symm hparked rfl⟩

theorem policy_foldlM {records : List JournalRecord} {x y : Authority}
    (h : records.foldlM Authority.replayRecord x = .ok y) : y.policy = x.policy := by
  induction records generalizing x with
  | nil => cases h; rfl
  | cons r records ih =>
    rw [List.foldlM_cons] at h
    cases hr : x.replayRecord r with
    | error e => rw [hr] at h; cases h
    | ok z =>
      rw [hr] at h
      exact (ih h).trans (Authority.replayRecord_policy hr)

theorem policy_recover {cfg : Config} {journal : Journal} {y : Authority}
    (h : cfg.recover journal = .ok y) : y.policy = cfg.policy := by
  unfold Config.recover Authority.recover at h
  split at h
  · cases h
  · exact policy_foldlM h

theorem boot_holds (journal : Journal) (hrooted : flags.journal = true → flags.Rooted journal) :
    Holds flags (flags.boot journal) := by
  obtain ⟨roster, hformed⟩ := flags.formed
  unfold Flags.boot
  split
  · trivial
  · next auth hauth =>
    split
    · have hpolicy : auth.policy = flags.policy := by
        split at hauth
        · exact policy_recover hauth
        · cases hauth
          rfl
      have hunder : auth.committeeId = flags.committee.id ∧
          ∀ e ∈ auth.parked, e.2.id = flags.committee.id := by
        split at hauth
        · next hj => exact hrooted hj auth (by rw [hauth]; rfl)
        · cases hauth
          exact ⟨rfl, fun e he => by cases he⟩
      refine ⟨hpolicy, Committee.withEpoch_policy hformed, ?_⟩
      cases hparked : auth.parked with
      | none => exact .level hunder.1.symm hparked rfl
      | some e => exact .renewing hunder.1.symm hparked rfl (hunder.2 e hparked)
    · trivial

theorem step_holds {p p' : Process} {t : Turn} (h : Holds flags p) (hok : flags.Steady p t)
    (hstep : p.step flags t = some p') : Holds flags p' := by
  cases p with
  | stopped journal =>
    cases t with
    | boot =>
      cases hstep
      exact boot_holds journal hok
    | _ => cases hstep
  | running d =>
    cases t with
    | boot => cases hstep
    | stop =>
      cases hstep
      trivial
    | poll msgs =>
      simp only [Process.step] at hstep
      split at hstep
      · cases hstep
      · split at hstep
        · cases hstep
          exact h
        · next hbatch _ =>
          cases hstep
          exact ⟨h.policy, h.formed, h.phase.poll (not_not.mp hbatch) msgs⟩
    | message io =>
      simp only [Process.step] at hstep
      split at hstep
      · next m rest hbatch =>
        cases hstep
        simp only [Flags.Steady, hbatch] at hok
        exact onMessage_holds h hbatch (flags.write io) hok
      · cases hstep
    | endBatch =>
      simp only [Process.step] at hstep
      split at hstep
      · cases hstep
        exact swap_holds h
      · cases hstep

end Daemon

/-! ## Committees with the same id -/

/-- The generation marker of a committee decides nothing. -/
theorem Certificate.verify_withMarker (cert : Certificate) (c : Committee) (epoch : U64) :
    cert.verify { c with epoch } = cert.verify c := by
  have hloop : ∀ (votes : List Vote) (distinct : List AuthorityId),
      validateLoop cert.order { c with epoch } votes distinct =
        validateLoop cert.order c votes distinct := by
    intro votes
    induction votes with
    | nil => exact fun _ => rfl
    | cons v votes ih =>
      intro distinct
      have hv : v.validateFor cert.order { c with epoch } = v.validateFor cert.order c := rfl
      simp only [validateLoop, hv, ih]
  have hvalid : cert.isValid { c with epoch } = cert.isValid c := by
    simp only [isValid, validate, hloop]
    rfl
  unfold verify
  simp only [hvalid]
  rfl

theorem checkEpochVotes_withMarker (cid nextId : CommitteeId) (cert : EpochCert) (c : Committee)
    (epoch : U64) : Authority.checkEpochVotes cid cert nextId { c with epoch } =
      Authority.checkEpochVotes cid cert nextId c := by
  have hloop : ∀ (votes : List EpochVote) (seen : List AuthorityId),
      Authority.epochVotesLoop cid cert nextId { c with epoch } votes seen =
        Authority.epochVotesLoop cid cert nextId c votes seen := by
    intro votes
    induction votes with
    | nil => exact fun _ => rfl
    | cons v votes ih =>
      intro seen
      have hkey : Committee.keyOf { c with epoch } v.authority = c.keyOf v.authority := rfl
      simp only [Authority.epochVotesLoop, ih, hkey]
  simp only [Authority.checkEpochVotes, hloop]
  rfl

/-- The authority answers certificates of both kinds as it would under its own committee. -/
def Authority.JudgesAs (x : Authority) (observe : Bool) (committee own : Committee) : Prop :=
  (∀ c io, x.present c committee observe io = x.present c own observe io) ∧
    ∀ c io, x.installEpochCert c committee io = x.installEpochCert c own io

theorem Authority.judgesAs_of_id_eq {x : Authority} {committee own : Committee} (observe : Bool)
    (hpolicy : own.policy = committee.policy) (hid : own.id = committee.id)
    (hfree : CollisionFree [own.preimage, committee.preimage]) :
    x.JudgesAs observe committee own := by
  have hpre : own.preimage = committee.preimage := hfree _ (by simp) _ (by simp) hid
  have hown : own = { committee with epoch := own.epoch } := by
    obtain ⟨members, policy, epoch, roster⟩ := own
    obtain ⟨members', policy', epoch', roster'⟩ := committee
    obtain rfl : members = members' := (committeeIdPreimage_inj hpre).2
    obtain rfl : policy = policy' := hpolicy
    rfl
  rw [hown]
  refine ⟨fun c io => ?_, fun c io => ?_⟩
  · unfold present
    rw [Certificate.verify_withMarker c committee own.epoch]
    rfl
  · have hvotes := fun cid nextId =>
      checkEpochVotes_withMarker cid nextId c committee own.epoch
    unfold installEpochCert
    simp only [hvotes]
    rfl

/-! ## Certificates are checked under the authority's own committee -/

theorem Daemon.inv_of_reachable {flags : Flags} {p : Process}
    (h : Reachable (Process.step flags) flags.Steady (.stopped .new) p) : Daemon.Holds flags p :=
  h.invariant (I := Daemon.Holds flags) (by trivial) fun _ _ _ _ hp hok hstep =>
    Daemon.step_holds hp hok hstep

/-- In every run of the daemon, over any batches and any restarts, in which every restart with the
journal is under the roster of the flags and the message that covers a parked install is the last
certificate of its batch: when a certificate is up next, the loop's committee is the authority's
trust root, and the certificate is answered as under any committee of that id. -/
theorem certs_checked_under_root {flags : Flags} {d : Daemon} {m : AuthorityMsg}
    {rest : List AuthorityMsg}
    (h : Reachable (Process.step flags) flags.Steady (.stopped .new) (.running d))
    (hbatch : d.batch = some (m :: rest)) (hm : m.isCert = true) :
    d.committee.id = d.auth.committeeId ∧
      ∀ own : Committee, own.policy = d.auth.policy → own.id = d.auth.committeeId →
        CollisionFree [own.preimage, d.committee.preimage] →
        d.auth.JudgesAs flags.observe d.committee own := by
  have hinv : d.Inv flags := Daemon.inv_of_reachable h
  have hroot := hinv.phase.root_eq hbatch hm
  refine ⟨hroot, fun own hpolicy hid hfree => ?_⟩
  exact Authority.judgesAs_of_id_eq flags.observe
    (hpolicy.trans (hinv.policy.trans hinv.formed.symm)) (hid.trans hroot.symm) hfree

/-! ## Runs -/

/-- The process is about to drop a certificate that its authority applies under `own`, the committee
it has moved to. -/
def Process.Drops (flags : Flags) (c : Certificate) (own : Committee) : Process → Prop
  | .stopped _ => False
  | .running d => d.batch = some [.cert c] ∧ own.id = d.auth.committeeId ∧
    d.committee.id ≠ d.auth.committeeId ∧
    (d.auth.present c d.committee flags.observe .stored).1 = none ∧
    (d.auth.present c own flags.observe .stored).1 = some (.ok .applied)

instance (flags : Flags) (c : Certificate) (own : Committee) :
    DecidablePred (Process.Drops flags c own)
  | .stopped _ => isFalse id
  | .running _ => inferInstanceAs (Decidable (_ ∧ _ ∧ _ ∧ _ ∧ _))

/-- The authority has moved to `own`, and the message `m` is up next. -/
def Process.Awaits (own : Committee) (m : AuthorityMsg) : Process → Prop
  | .stopped _ => False
  | .running d => d.batch = some [m] ∧ own.policy = d.auth.policy ∧ own.id = d.auth.committeeId ∧
    CollisionFree [own.preimage, d.committee.preimage]

instance (own : Committee) (m : AuthorityMsg) : DecidablePred (Process.Awaits own m)
  | .stopped _ => isFalse id
  | .running _ => inferInstanceAs (Decidable (_ ∧ _ ∧ _ ∧ _))

end Loop

namespace Demo

/-- The command line of `a3` under the roster `c`. -/
def flagsOf (roster : List (AuthorityId × VerifyingKey)) (c : Committee)
    (h : Committee.new roster policy = some c) : Flags :=
  ⟨a3, key 3, policy, c, demoLedger, false, true, demoLedger_sound, roster, h⟩

theorem solo_formed : Committee.new soloRoster policy = some solo := (Option.some_get _).symm

theorem quad_formed : Committee.new quadRoster policy = some quad := (Option.some_get _).symm

/-- A change from `solo` to `quad` that every ledger covers. -/
def widening : EpochCert := certifyEpoch solo quad quadRoster soloRoster 1 []

/-- Alice's second transfer. -/
def aliceNext : SignedTransfer := .signAtRound policy ⟨alice, 1, carol, 5⟩ 0 (key 100)

def batchOf (msgs : List AuthorityMsg) : List Turn :=
  .poll msgs :: msgs.map (fun _ => Turn.message .stored) ++ [.endBatch]

/-- The widening is installed; after a restart a certificate of the new committee arrives. -/
def restartRun : List Turn :=
  .boot :: batchOf [.epochCert widening] ++
    [.stop, .boot, .poll [.cert (certify quad (quadRoster.take 3) toBob)]]

/-- The handover is parked; the certificate that covers it comes with one of the new committee. -/
def batchRun : List Turn :=
  .boot :: batchOf [.epochCert handover] ++
    [.poll [.cert (certify quad (quadRoster.take 3) toBob),
    .cert (certify solo soloRoster aliceNext)],
      .message .stored]

/-- The same in two batches, after a restart. -/
def steadyRun : List Turn :=
  [.boot, .stop, .boot] ++ batchOf [.epochCert handover] ++
    batchOf [.cert (certify quad (quadRoster.take 3) toBob)] ++
    [.poll [.cert (certify solo soloRoster aliceNext)]]

end Demo

open Demo in
/-- A straggler is restarted, parks the handover, applies what covers it and moves to `solo`; then
it answers as under `solo`. -/
theorem certs_checked_under_root_demo :
    ∃ d : Daemon, d.batch = some [.cert (certify solo soloRoster aliceNext)] ∧
      solo.id = d.auth.committeeId ∧ d.committee.id = d.auth.committeeId ∧
      d.auth.JudgesAs false d.committee solo := by
  obtain ⟨p, hp, hawaits⟩ : ∃ p, Reachable (Process.step (flagsOf quadRoster quad quad_formed))
      (flagsOf quadRoster quad quad_formed).Steady (.stopped .new) p ∧
      p.Awaits solo (.cert (certify solo soloRoster aliceNext)) :=
    Reachable.of_exec steadyRun (by decide +kernel)
  cases p with
  | stopped journal => cases hawaits
  | running d =>
    obtain ⟨hbatch, hpolicy, hid, hfree⟩ := hawaits
    obtain ⟨hroot, hjudges⟩ := certs_checked_under_root hp hbatch rfl
    exact ⟨d, hbatch, hid, hroot, hjudges solo hpolicy hid hfree⟩

open Demo in
/-- A daemon drops what its authority accepts: after a restart in a later epoch, and after the
certificate that covers a parked install in one batch. -/
theorem stale_root_drops :
    (∃ p, Reachable (Process.step (flagsOf soloRoster solo solo_formed)) (fun _ _ => True)
      (.stopped .new) p ∧
      p.Drops (flagsOf soloRoster solo solo_formed) (certify quad (quadRoster.take 3) toBob) quad) ∧
    ∃ p, Reachable (Process.step (flagsOf quadRoster quad quad_formed)) (fun _ _ => True)
      (.stopped .new) p ∧
      p.Drops (flagsOf quadRoster quad quad_formed) (certify solo soloRoster aliceNext) solo :=
  ⟨Reachable.of_exec restartRun (by decide +kernel), Reachable.of_exec batchRun (by decide +kernel)⟩

end P2P333.Transfer333
