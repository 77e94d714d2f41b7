import P2P333.Substrate.Billing
import P2P333.Substrate.Ltdd.WalStore

/-!
# Billing over a durable store

`Account::meter_and_bill_durable` of `substrate/crates/billing`: the events of a call are appended
to the log one by one, and a sync ends the call. The process can die at any moment. `Till` is that
process: its store, the calls that were made, and the events that the running call has still to
ship.

Three records of a paid forward are three records of the log, and a crash can come between them.

Results:
1. `Till.inv_step`: the log holds a prefix of the trace of the calls.
2. `recovered_conserved_iff`: the trace that is recovered after a crash is conserved if and only if
   the records that survived do not end inside a paid forward.
3. `half_debit`: a run in which they do.
-/

namespace P2P333.Substrate

open Lib

/-! ## Definitions -/

/-- A call of the billing API. -/
inductive Call where
  | account (cid object : String) (balance : UInt64)
  | bill (index : Nat) (cid : String) (bytes ratePerKib : UInt64)
deriving DecidableEq

/-- The accounts after the call, and what it ships. -/
def Call.perform (accounts : List Account) : Call → Option (List Account × List Event)
  | .account cid object balance =>
    let r := Account.new cid object balance
    some (accounts ++ [r.1], r.2.flatten)
  | .bill index cid bytes ratePerKib =>
    accounts[index]?.map fun a =>
      let r := a.meterAndBill cid bytes ratePerKib
      (accounts.set index r.2.1, r.2.2.flatten)

/-- The accounts after these calls, and what each of them ships. -/
def performAll (calls : List Call) : List Account × List (List Event) :=
  calls.foldl (fun r call =>
    match call.perform r.1 with
    | none => r
    | some (accounts, events) => (accounts, r.2 ++ [events])) ([], [])

/-- `queue` are the events that the running call has still to ship; `syncing` says that it ends with
a sync. `history` is what the log's user can have seen. -/
structure Till where
  store : WalStore
  dir : Dir
  history : History
  calls : List Call
  queue : List Event
  syncing : Bool

/-- What the till does with its store. -/
inductive TillOp where
  | call (c : Call)
  | ship
  | sync
deriving DecidableEq

section Till

variable [Crc32c] [JsonText] (metadata : Bytes)

namespace Till

def start (segmentSize : Nat) : Till :=
  ⟨(WalStore.create metadata segmentSize).1, (WalStore.create metadata segmentSize).2,
    ⟨[], [], [], 0, 0⟩, [], [], false⟩

/-- The process as the log sees it. -/
def machine (t : Till) : Machine := ⟨t.dir, some t.store.wal, t.history⟩

/-- The events of all calls so far. -/
def trace (t : Till) : List (List Event) := (performAll t.calls).2

/-- One turn of `ship`. -/
def shipNext (t : Till) (e : Event) (rest : List Event) : Till :=
  if t.store.pending.isSome then { t with queue := rest }
  else
    let r := t.store.shipOne t.dir e
    { t with
      store := r.1
      dir := r.2
      queue := rest
      history :=
        if r.1.pending.isSome then t.history
        else (t.history.wrote t.store.wal t.store.wal.nextSeq e.text).settle r.2 }

/-- Calls come one after the other. A call that bills returns only after the sync. -/
def step (t : Till) : TillOp → Option Till
  | .call c =>
    if t.queue ≠ [] ∨ t.syncing then none
    else
      (c.perform (performAll t.calls).1).map fun r =>
        { t with
          calls := t.calls ++ [c]
          queue := r.2
          syncing := match c with
            | .account .. => false
            | .bill .. => true }
  | .ship =>
    match t.queue with
    | [] => none
    | e :: rest => some (t.shipNext e rest)
  | .sync =>
    if t.queue ≠ [] ∨ ¬ t.syncing then none
    else
      match t.store.externalize t.dir () with
      | .error _ => some { t with syncing := false }
      | .ok (ext, store, dir) =>
        some { t with
          store
          dir
          history := { t.history.settle dir with receipt := ext.receipt }
          syncing := false }

/-- What the process can be doing when it dies: nothing to the log, or the append of the next event
of the running call, with or without the cut that it brings. -/
def MayBe (t : Till) : Doing → Prop
  | .nothing => True
  | .append payload | .cut payload =>
    t.store.pending = none ∧ payload ∈ t.queue.head?.map Event.text
  | .release _ _ => False

/-! ## The trace and the log -/

variable {metadata} {t t' : Till}

omit [Crc32c] [JsonText] in
theorem performAll_concat (calls : List Call) (c : Call) :
    performAll (calls ++ [c]) =
      match c.perform (performAll calls).1 with
      | none => performAll calls
      | some (accounts, events) => (accounts, (performAll calls).2 ++ [events]) := by
  unfold performAll
  rw [List.foldl_append]
  rfl

omit [Crc32c] [JsonText] in
theorem perform_step {accounts accounts' : List Account} {c : Call} {events : List Event}
    (h : c.perform accounts = some (accounts', events)) : BillingStep events := by
  cases c with
  | account cid object balance =>
    cases h
    exact new_step cid object balance
  | bill index cid bytes ratePerKib =>
    obtain ⟨a, -, h⟩ := Option.map_eq_some_iff.mp h
    cases h
    exact meterAndBill_step a cid bytes ratePerKib

/-- The log holds the texts of a prefix of the trace; the rest is still to be shipped, unless a ship
has failed. -/
structure Inv (metadata : Bytes) (t : Till) : Prop where
  holds : Holds metadata True False t.machine
  steps : ∀ step ∈ t.trace, BillingStep step
  log : ∃ done rest, t.trace.flatten = done ++ rest ∧
    t.history.log.map Entry.payload = done.map Event.text ∧
    (t.store.pending = none → rest = t.queue)

omit [Crc32c] [JsonText] in
@[simp] theorem log_settle (h : History) (dir : Dir) : (h.settle dir).log = h.log := by
  unfold History.settle
  split
  · rfl
  · rfl

theorem inv_start (segmentSize : Nat) : Inv metadata (start metadata segmentSize) where
  holds := by
    refine ⟨_, P2P333.Substrate.inv_start, ?_⟩
    unfold machine start WalStore.create
    rw [dir_create, wal_create]
    exact .up
  steps step hstep := by cases hstep
  log := ⟨[], [], rfl, rfl, fun _ => rfl⟩

theorem Inv.call (hi : Inv metadata t) {c : Call} (hstep : t.step (.call c) = some t') :
    Inv metadata t' := by
  unfold step at hstep
  dsimp only at hstep
  split at hstep
  · cases hstep
  next hidle =>
  push Not at hidle
  obtain ⟨⟨accounts, events⟩, hperform, rfl⟩ := Option.map_eq_some_iff.mp hstep
  have htrace : (performAll (t.calls ++ [c])).2 = t.trace ++ [events] := by
    rw [performAll_concat, hperform]
    rfl
  obtain ⟨done, rest, hflat, hlog, hqueue⟩ := hi.log
  exact
    { holds := hi.holds
      steps := fun step hs => by
        unfold trace at hs
        rw [htrace] at hs
        rcases List.mem_append.mp hs with hs | hs
        · exact hi.steps step hs
        · rw [List.mem_singleton.mp hs]
          exact perform_step hperform
      log := by
        refine ⟨done, rest ++ events, ?_, hlog, fun hp => ?_⟩
        · unfold trace
          rw [htrace, List.flatten_append, hflat, List.append_assoc, List.flatten_singleton]
        · rw [hqueue hp, hidle.1]
          rfl }

theorem Inv.ship (hmeta : MetadataFits metadata) (hi : Inv metadata t) {e : Event}
    {rest : List Event} (hqueue : t.queue = e :: rest) : Inv metadata (t.shipNext e rest) := by
  obtain ⟨done, left, hflat, hlog, hleft⟩ := hi.log
  unfold shipNext
  split
  · next hfailed =>
    refine ⟨hi.holds, hi.steps, done, left, hflat, hlog, fun hp => ?_⟩
    rw [show t.store.pending = none from hp] at hfailed
    cases hfailed
  next hok =>
  have hp : t.store.pending = none := by simpa using hok
  unfold WalStore.shipOne
  cases happ : t.store.wal.append t.dir e.text with
  | error err =>
    exact ⟨hi.holds, hi.steps, done, left, hflat, hlog, fun hp => by cases hp⟩
  | ok r =>
    obtain ⟨seq, wal, dir⟩ := r
    have hseq := append_seq happ
    have hmachine : t.machine.step metadata (.append e.text) =
        some ⟨dir, some wal, (t.history.wrote t.store.wal seq e.text).settle dir⟩ := by
      unfold machine Machine.step
      dsimp only
      rw [happ]
    dsimp only
    rw [hp]
    refine ⟨?_, hi.steps, done ++ [e], rest, ?_, ?_, fun _ => rfl⟩
    · have hallowed : Allowed metadata True False t.machine (.append e.text) :=
        ⟨trivial, nofun, False.elim⟩
      have := holds_step hmeta hi.holds hallowed hmachine
      rw [hseq] at this
      exact this
    · show t.trace.flatten = _
      rw [hflat, hleft hp, hqueue, List.append_assoc]
      rfl
    · simp [History.wrote, hlog]

theorem Inv.sync (hmeta : MetadataFits metadata) (hi : Inv metadata t)
    (hstep : t.step .sync = some t') : Inv metadata t' := by
  obtain ⟨done, rest, hflat, hlog, hqueue⟩ := hi.log
  unfold step at hstep
  dsimp only at hstep
  split at hstep
  · cases hstep
  unfold WalStore.externalize WalStore.sync at hstep
  cases hp : t.store.pending with
  | some err =>
    rw [hp] at hstep
    cases hstep
    exact ⟨hi.holds, hi.steps, done, rest, hflat, hlog, hqueue⟩
  | none =>
    rw [hp] at hstep
    cases hstep
    have hmachine : t.machine.step metadata .sync = some (t.machine.synced t.store.wal) := rfl
    have hallowed : Allowed metadata True False t.machine .sync :=
      ⟨trivial, nofun, False.elim⟩
    refine ⟨holds_step hmeta hi.holds hallowed hmachine, hi.steps, done, rest, hflat, ?_,
      fun _ => hqueue hp⟩
    show ((t.history.settle _).log).map Entry.payload = _
    rw [log_settle, hlog]

theorem inv_step (hmeta : MetadataFits metadata) {op : TillOp} (hi : Inv metadata t)
    (hstep : t.step op = some t') : Inv metadata t' := by
  cases op with
  | call c => exact hi.call hstep
  | ship =>
    unfold step at hstep
    dsimp only at hstep
    split at hstep
    · cases hstep
    next e rest hqueue =>
    cases hstep
    exact hi.ship hmeta hqueue
  | sync => exact hi.sync hmeta hstep

theorem inv_of_reachable (hmeta : MetadataFits metadata) {segmentSize : Nat}
    (h : Reachable step (fun _ _ => True) (start metadata segmentSize) t) : Inv metadata t :=
  Reachable.invariant (I := Inv metadata) (inv_start segmentSize)
    (fun _ _ _ _ hi _ hstep => inv_step hmeta hi hstep) h

/-- What was written when the process died is a prefix of the trace too. -/
theorem Inv.crashed (hi : Inv metadata t) {doing : Doing} {d : Damage} {m : Machine}
    (hdoing : t.MayBe doing) (hcrash : t.machine.step metadata (.crash doing d) = some m) :
    ∃ n, m.history.log.map Entry.payload = (t.trace.flatten.take n).map Event.text := by
  obtain ⟨done, rest, hflat, hlog, hqueue⟩ := hi.log
  have hdone : t.history.log.map Entry.payload =
    (t.trace.flatten.take done.length).map Event.text := by
    rw [hflat, List.take_left, hlog]
  have hnext : ∀ payload, t.store.pending = none ∧ payload ∈ t.queue.head?.map Event.text →
      t.history.log.map Entry.payload ++ [payload] =
        (t.trace.flatten.take (done.length + 1)).map Event.text := by
    rintro payload ⟨hp, hhead⟩
    obtain ⟨e, he, rfl⟩ := Option.map_eq_some_iff.mp hhead
    obtain ⟨more, hmore⟩ : ∃ more, t.queue = e :: more := by
      cases hq : t.queue with
      | nil => rw [hq] at he; cases he
      | cons e' more => rw [hq] at he; cases he; exact ⟨more, rfl⟩
    rw [hflat, hqueue hp, hmore, List.take_length_add_append, hlog, List.map_append]
    rfl
  obtain ⟨s1, hint, rfl⟩ := Option.map_eq_some_iff.mp hcrash
  cases doing with
  | nothing =>
    cases hint
    exact ⟨done.length, hdone⟩
  | append payload | cut payload =>
    unfold Machine.interrupt at hint
    dsimp only at hint
    split at hint
    · cases hint
    · cases hint
      refine ⟨done.length + 1, ?_⟩
      rw [← hnext payload hdoing]
      simp [History.wrote, machine]
  | release upto k => cases hdoing

end Till

variable {metadata} {t : Till}

/-- What opening the store returns after a crash. -/
theorem Till.Inv.recovers {doing : Doing} {d : Damage} {m : Machine} (hfit : MetadataFits metadata)
    (hi : t.Inv metadata) (htext : ∀ e ∈ t.trace.flatten, Lossless e.toTraceJson)
    (hdoing : t.MayBe doing) (hcrc : t.machine.CrcDistinguishes (.crash doing d))
    (hcrash : t.machine.step metadata (.crash doing d) = some m) (size : Nat) :
    ∃ store dir, WalStore.openDir m.dir metadata size = .ok (store, dir) ∧
      store.index = t.trace.flatten.take (m.kept d) := by
  have hallowed : Allowed metadata True False t.machine (.crash doing d) := by
    refine ⟨hcrc, fun upto hup => ?_, False.elim⟩
    cases doing with
    | release upto k => cases hdoing
    | nothing => cases hup
    | append payload => cases hup
    | cut payload => cases hup
  obtain ⟨hle, w, dir, hopen⟩ := hi.holds.recovers hfit hallowed hcrash size
  obtain ⟨n, hlog⟩ := hi.crashed hdoing hcrash
  have hmem : ∀ e ∈ t.trace.flatten.take (m.kept d), e ∈ t.trace.flatten :=
    fun e he => List.mem_of_mem_take he
  have hpayloads : (m.history.log.take (m.kept d)).map Entry.payload =
      (t.trace.flatten.take (m.kept d)).map Event.text := by
    have hlen := congrArg List.length hlog
    rw [List.length_map, List.length_map, List.length_take] at hlen
    rw [List.map_take, hlog, ← List.map_take, List.take_take, Nat.min_eq_left (by omega)]
  have hreplay := replay_texts hpayloads (fun e he => htext e (hmem e he)) (fun e he k hk => by
    obtain ⟨step, hs, he⟩ := List.mem_flatten.mp (hmem e he)
    exact (hi.steps step hs).keys he hk)
  refine ⟨⟨w, t.trace.flatten.take (m.kept d), none⟩, dir, ?_, rfl⟩
  unfold WalStore.openDir
  rw [hopen]
  dsimp only
  rw [hreplay]

/-- Opening the store after a crash succeeds. The trace that it returns is conserved if and only if
the records that are left do not end inside a paid forward. -/
theorem recovered_conserved_iff {segmentSize : Nat} {doing : Doing} {d : Damage} {m : Machine}
    (hfit : envelopeHeader + metadata.length ≤ maxEnvelopeLen)
    (h : Reachable Till.step (fun _ _ => True) (Till.start metadata segmentSize) t)
    (htext : ∀ e ∈ t.trace.flatten, Lossless e.toTraceJson) (hdoing : t.MayBe doing)
    (hcrc : t.machine.CrcDistinguishes (.crash doing d))
    (hcrash : t.machine.step metadata (.crash doing d) = some m) (size : Nat) :
    ∃ store dir, WalStore.openDir m.dir metadata size = .ok (store, dir) ∧
      (Conserved store.index ↔ Whole t.trace (m.kept d)) := by
  have hi := Till.inv_of_reachable hfit h
  obtain ⟨store, dir, hopen, hindex⟩ := hi.recovers hfit htext hdoing hcrc hcrash size
  refine ⟨store, dir, hopen, ?_⟩
  rw [hindex]
  exact conserved_take_iff hi.steps _

end Till

/-! ## Concrete runs -/

/-- An account with nine credits, and a forward of two KiB that costs two. -/
def sale : List Call := [.account "s" "a" 9, .bill 0 "s" 2048 1]

@[reducible] def saleText : JsonText :=
  reading ((performAll sale).2.flatten.map Event.toTraceJson)

theorem lossless_sale : ∀ e ∈ (performAll sale).2.flatten, @Lossless saleText e.toTraceJson := by
  intro e he
  exact lossless_reading (by decide +kernel) (List.mem_map_of_mem he)

/-- The process dies with so many records of the sale on disk. -/
def LeavesOfSale (records : Nat) (t : Till) : Prop :=
  t.calls = sale ∧ @Machine.CrcDistinguishes castagnoli t.machine (.crash .nothing ⟨0, []⟩) ∧
    (@Machine.step castagnoli [] t.machine (.crash .nothing ⟨0, []⟩)).map
      (fun m => @Machine.kept castagnoli m ⟨0, []⟩) = some records

instance (records : Nat) (t : Till) : Decidable (LeavesOfSale records t) :=
  inferInstanceAs (Decidable (_ ∧ _ ∧ _))

/-- The forward has been computed and nothing of it written. -/
theorem recovered_conserved_iff_demo :
    ∃ (t : Till) (m : Machine), t.calls = sale ∧
      @Machine.step castagnoli [] t.machine (.crash .nothing ⟨0, []⟩) = some m ∧
      ∃ store dir, @WalStore.openDir castagnoli saleText m.dir [] 0 = .ok (store, dir) ∧
        Conserved store.index := by
  obtain ⟨t, ht, hcalls, hcrc, hkept⟩ := @Reachable.of_exec _ _ (@Till.step castagnoli saleText)
    (fun _ _ => True) (@Till.start castagnoli [] 1) _ (LeavesOfSale 2) _
    [.call (.account "s" "a" 9), .ship, .ship, .call (.bill 0 "s" 2048 1)] (by decide +kernel)
  obtain ⟨m, hm, hkept⟩ := Option.map_eq_some_iff.mp hkept
  have htrace : t.trace = (performAll sale).2 := congrArg (fun c => (performAll c).2) hcalls
  obtain ⟨store, dir, hopen, hiff⟩ := @recovered_conserved_iff castagnoli saleText [] t 1
    .nothing ⟨0, []⟩ m (by decide) ht (htrace ▸ lossless_sale) trivial hcrc hm 0
  refine ⟨t, m, hcalls, hm, store, dir, hopen, hiff.mpr ?_⟩
  rw [hkept, htrace]
  decide +kernel

/-- The debit is not written yet, and each record before it has filled a segment: the spend and the
forward come back without their debit. -/
theorem half_debit :
    ∃ (t : Till) (m : Machine), Reachable (@Till.step castagnoli saleText) (fun _ _ => True)
        (@Till.start castagnoli [] 1) t ∧ t.calls = sale ∧
      @Machine.step castagnoli [] t.machine (.crash .nothing ⟨0, []⟩) = some m ∧
      ∃ store dir, @WalStore.openDir castagnoli saleText m.dir [] 0 = .ok (store, dir) ∧
        sumAttr "relay_forwarded" "cost" store.index = 2 ∧
        sumAttr "credit_debited" "amount" store.index = 0 ∧ ¬ Conserved store.index := by
  obtain ⟨t, ht, hcalls, hcrc, hkept⟩ := @Reachable.of_exec _ _ (@Till.step castagnoli saleText)
    (fun _ _ => True) (@Till.start castagnoli [] 1) _ (LeavesOfSale 4) _
    [.call (.account "s" "a" 9), .ship, .ship, .call (.bill 0 "s" 2048 1), .ship, .ship]
    (by decide +kernel)
  obtain ⟨m, hm, hkept⟩ := Option.map_eq_some_iff.mp hkept
  have htrace : t.trace = (performAll sale).2 := congrArg (fun c => (performAll c).2) hcalls
  have hfit : MetadataFits [] := by
    unfold MetadataFits
    decide
  obtain ⟨store, dir, hopen, hindex⟩ := @Till.Inv.recovers castagnoli saleText [] t .nothing
    ⟨0, []⟩ m hfit (@Till.inv_of_reachable castagnoli saleText [] t hfit 1 ht)
    (htrace ▸ lossless_sale) trivial hcrc hm 0
  rw [hkept, htrace] at hindex
  have hcost : sumAttr "relay_forwarded" "cost" store.index = 2 := by
    rw [hindex]
    decide +kernel
  have hamount : sumAttr "credit_debited" "amount" store.index = 0 := by
    rw [hindex]
    decide +kernel
  refine ⟨t, m, ht, hcalls, hm, store, dir, hopen, hcost, hamount, fun h => ?_⟩
  rw [h.1, hamount] at hcost
  cases hcost

end P2P333.Substrate
