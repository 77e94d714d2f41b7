import P2P333.Transfer333.Codec.Journal
import P2P333.Transfer333.Recovery

/-!
# Reading back what an authority wrote

Every record that an authority appends has passed the checks of the operation that appends it. For
locks, confirmations and fences these checks imply the bounds of the reader. For epoch certificates
and snapshots they do not: no check bounds the frontiers of a certificate, or the number of accounts
that a snapshot lists, while the reader refuses frontiers of more than 4096 entries and bodies of
more than 16 MiB.

Results:
1. `Pending.readable`: what `handle`, `confirm` and `fence` write is within the bounds, and what
   `install_epoch_cert` writes is exactly if the certificate is.
2. `log_read_back`: in a run whose certificates and snapshots are within the bounds, every log is
   read back as it was written; a compaction that exceeds them makes the log unreadable.
3. `compaction_unreadable`: a genesis of 600000 accounts is compacted to a log that cannot be read.
-/

namespace P2P333.Transfer333

open Std Lib

/-! ## Sizes -/

theorem length_putStr (s : Str) : (putStr s).length = 8 + s.len := by
  simp [putStr, putBytes, Str.length_bytes]

/-- An order within the wire bounds is a short record. -/
theorem length_encodeTransfer_le {o : SignedTransfer} (h : o.Fits) :
    (encodeTransfer o).length ≤ maxRecordBytes := by
  have hnet := o.networkId.bounded
  have hdomain : domainTransfer.length = 33 := by decide
  obtain ⟨hsender, hrecipient⟩ := h
  simp only [encodeTransfer, Wire.encode, Wire.putSignedTransferBody, Wire.putTransferBody, putLe,
    List.length_append, length_putStr, length_leBytes, List.Vector.toList_length, hdomain]
  unfold maxAccountIdBytes at hsender hrecipient
  unfold maxNetworkIdBytes at hnet
  unfold maxRecordBytes
  omega

/-- A list of short items is short. -/
theorem length_putList_le {α : Type} {l : List α} {k : Nat} (put : α → Bytes)
    (h : ∀ a ∈ l, (put a).length ≤ k) : (Wire.putList put l).length ≤ 8 + l.length * k := by
  have hsum := List.sum_le_card_nsmul (l.map fun a => (put a).length) k (by
    intro x hx
    obtain ⟨a, ha, rfl⟩ := List.mem_map.mp hx
    exact h a ha)
  simp only [Wire.putList, List.length_append, length_leBytes, List.length_flatMap]
  simp only [List.length_map, smul_eq_mul] at hsum
  omega

theorem length_encodeEpochProposal_le [KeyFormat] {p : EpochProposal} (h : p.Fits) :
    (encodeEpochProposal p).length ≤ maxRecordBytes := by
  have hnet := p.networkId.bounded
  have hdomain : domainEpochProposal.length = 35 := by decide
  obtain ⟨hcount, hmembers⟩ := h
  have hroster := length_putList_le (l := p.nextRoster) (k := 296) Wire.putMember (by
    intro e he
    have halias := (hmembers e he).1
    simp only [Wire.putMember, List.length_append, length_putStr, List.Vector.toList_length]
    unfold maxAuthorityIdBytes at halias
    omega)
  simp only [encodeEpochProposal, Wire.encode, Wire.putEpochProposalBody, Wire.putRoster, putLe,
    List.length_append, length_putStr, length_leBytes, List.Vector.toList_length, hdomain]
  unfold maxCommitteeMembers at hcount
  unfold maxNetworkIdBytes at hnet
  unfold maxRecordBytes
  omega

/-! ## What the checks imply -/

namespace OwnerRegistry

theorem newLoop_bounded {bindings : List (AccountId × VerifyingKey)}
    {keys result : OrdMap AccountId VerifyingKey}
    (hkeys : ∀ a : AccountId, a ∈ keys → a.len ≤ maxAccountIdBytes)
    (h : newLoop bindings keys = .ok result) :
    ∀ a : AccountId, a ∈ result → a.len ≤ maxAccountIdBytes := by
  induction bindings generalizing keys with
  | nil =>
    cases h
    exact hkeys
  | cons binding bindings ih =>
    simp only [newLoop] at h
    split at h
    · cases h
    · split at h
      · cases h
      · next hlen =>
        split at h
        · cases h
        · refine ih ?_ h
          intro a ha
          rw [ExtTreeMap.mem_insert] at ha
          rcases ha with ha | ha
          · rw [← LawfulEqCmp.eq_of_compare ha]
            exact Nat.not_lt.mp hlen
          · exact hkeys a ha

/-- Registered accounts have ids within the cap. -/
theorem new_bounded {bindings : List (AccountId × VerifyingKey)} {r : OwnerRegistry}
    (h : new bindings = .ok r) {a : AccountId} (ha : r.contains a = true) :
    a.len ≤ maxAccountIdBytes := by
  unfold new at h
  split at h
  · cases h
  · next keys hloop =>
    split at h
    · cases h
    · cases h
      exact newLoop_bounded (fun a ha => absurd ha ExtTreeMap.not_mem_empty) hloop a
        (ExtTreeMap.contains_iff_mem.mp ha)

end OwnerRegistry

/-- An order that passes the policy is between registered accounts. -/
theorem SignedTransfer.fits_of_verify [Crypto] {o : SignedTransfer} {p : TransferPolicy}
    {bindings : List (AccountId × VerifyingKey)} (hp : OwnerRegistry.new bindings = .ok p.owners)
    (h : o.verify p = .ok ()) : o.Fits := by
  unfold SignedTransfer.verify TransferPolicy.validate at h
  split at h
  · cases h
  · split at h
    · cases h
    · split at h
      · cases h
      · next key hkey =>
        split at h
        · cases h
        · next hrecipient =>
          refine ⟨OwnerRegistry.new_bounded hp ?_, OwnerRegistry.new_bounded hp ?_⟩
          · exact ExtTreeMap.contains_iff_mem.mpr
              ((ExtTreeMap.isSome_getElem?_iff_mem ..).mp (Option.isSome_of_eq_some hkey))
          · exact Bool.not_eq_false _ ▸ hrecipient

theorem rosterLoop_bounds {members : List (AuthorityId × VerifyingKey)} {roster result : Members}
    {publicKeys : List VerifyingKey} (hsize : roster.size ≤ maxCommitteeMembers)
    (h : rosterLoop members roster publicKeys = some result) :
    roster.size + members.length ≤ maxCommitteeMembers ∧
      ∀ e ∈ members, e.1.len ≤ maxAuthorityIdBytes := by
  induction members generalizing roster publicKeys with
  | nil => exact ⟨hsize, fun e he => (by cases he)⟩
  | cons member members ih =>
    simp only [rosterLoop] at h
    split at h
    · cases h
    · next halias =>
      split at h
      · cases h
      · next hfull =>
        split at h
        · cases h
        · split at h
          · cases h
          · next hfresh =>
            have hinsert : (roster.insert member.1 member.2).size = roster.size + 1 := by
              rw [ExtTreeMap.size_insert, if_neg (by simpa using hfresh)]
            obtain ⟨hlen, haliases⟩ := ih (by omega) h
            refine ⟨by rw [List.length_cons]; omega, ?_⟩
            intro e he
            rcases List.mem_cons.mp he with rfl | he
            · omega
            · exact haliases e he

/-- A roster that forms a committee is within the wire bounds. -/
theorem rosterFits_of_withEpoch [KeyFormat] {roster : List (AuthorityId × VerifyingKey)}
    {p : TransferPolicy} {epoch : U64} {c : Committee}
    (hkeys : ∀ e ∈ roster, KeyFormat.isKey e.2 = true)
    (h : Committee.withEpoch roster p epoch = some c) : RosterFits roster := by
  obtain ⟨hloop, -, -⟩ := Committee.withEpoch_eq_some.mp h
  obtain ⟨hlen, haliases⟩ := rosterLoop_bounds (Nat.zero_le _) hloop
  refine ⟨?_, fun e he => ⟨haliases e he, hkeys e he⟩⟩
  have hempty : (∅ : Members).size = 0 := ExtTreeMap.size_empty
  omega

/-! ## Runs within the bounds -/

section Runs

variable [Crypto] [KeyFormat]

/-- Keys in a roster are keys: `VerifyingKey` has no other values. -/
def Op.WellTyped : Op → Prop
  | .fence proposal _ => ∀ e ∈ proposal.nextRoster, KeyFormat.isKey e.2 = true
  | .installEpochCert cert _ _ => ∀ e ∈ cert.nextRoster, KeyFormat.isKey e.2 = true
  | _ => True

/-- The parts of an epoch certificate that `install_epoch_cert` does not bound. -/
structure EpochCert.Small (cert : EpochCert) : Prop where
  frontier : FrontierFits cert.frontier
  votes : ∀ v ∈ cert.votes, FrontierFits v.frontier
  capped : (encodeEpochCert cert).length ≤ maxRecordBytes

/-- An epoch certificate that is accepted, and a snapshot that is taken, are within the bounds. -/
def Node.Bounded (n : Node) : Op → Prop
  | .installEpochCert cert old _ => (∃ next, n.live.AcceptsEpochCert cert old next) →
    n.live.epochState.isInstalling = false → cert.Small
  | .compactJournal _ => n.live.epochState = .active →
    (encodeSnapshot n.live.snapshotData).length ≤ maxRecordBytes
  | _ => True

/-- Everything locked is within the wire bounds. -/
def Authority.LocksFit (x : Authority) : Prop := 
  ∀ (k : Slot) (o : SignedTransfer), x.locked[k]? = some o → o.Fits

theorem Authority.AcceptsEpochCert.readable_iff {x : Authority} {cert : EpochCert}
    {old next : Committee} (h : x.AcceptsEpochCert cert old next)
    (hkeys : ∀ e ∈ cert.nextRoster, KeyFormat.isKey e.2 = true) :
    (JournalRecord.epochInstalled cert).Readable ↔ cert.Small := by
  obtain ⟨hvotes, hnodup, -⟩ := Authority.checkEpochVotes_ok h.votes
  constructor
  · rintro ⟨⟨-, hfrontier, -, hfits⟩, hcapped⟩
    exact ⟨hfrontier, fun v hv => (hfits v hv).2, hcapped⟩
  · rintro ⟨hfrontier, hfits, hcapped⟩
    have hseat : ∀ v ∈ cert.votes, v.authority ∈ old.members := by
      intro v hv
      obtain ⟨key, hkey, -⟩ := (hvotes v hv).signed
      exact (ExtTreeMap.isSome_getElem?_iff_mem ..).mp (Option.isSome_of_eq_some hkey)
    refine ⟨⟨rosterFits_of_withEpoch hkeys h.roster, hfrontier, ?_, fun v hv => ?_⟩, hcapped⟩
    · -- distinct voters with a seat each
      have hsub : cert.signers.toFinset ⊆ old.seats := by
        intro a ha
        obtain ⟨v, hv, rfl⟩ := List.mem_map.mp (List.mem_toFinset.mp ha)
        rw [Committee.seats, List.mem_toFinset, ExtTreeMap.mem_keys]
        exact hseat v hv
      have hcard := Finset.card_le_card hsub
      rw [List.toFinset_card_of_nodup hnodup] at hcard
      have hlen : cert.signers.length = cert.votes.length := List.length_map _
      have := old.card_seats_le
      have := old.roster.bounded
      unfold Committee.size at *
      omega
    · exact ⟨(old.roster.aliases _ (hseat v hv)).2, hfits v hv⟩

/-- What a call is about to write is within the bounds of the reader. -/
theorem Authority.Pending.readable {op : Op} {n : Node} {r : JournalRecord}
    {bindings : List (AccountId × VerifyingKey)}
    (hp : OwnerRegistry.new bindings = .ok n.live.policy.owners) (htyped : op.WellTyped)
    (hbounded : n.Bounded op) (h : n.live.Pending op r) : r.Readable := by
  cases h with
  | locked h | confirmed h =>
    have hfits := SignedTransfer.fits_of_verify hp h.verified
    exact ⟨hfits, length_encodeTransfer_le hfits⟩
  | epochFence h =>
    have hfits := rosterFits_of_withEpoch htyped h.roster
    exact ⟨hfits, length_encodeEpochProposal_le hfits⟩
  | epochInstalled h hidle => exact (h.readable_iff htyped).mpr (hbounded ⟨_, h⟩ hidle)

omit [Crypto] in
theorem Authority.LocksFit.snapshot_readable_iff {x : Authority} (h : x.LocksFit) :
    (JournalRecord.snapshot x.snapshotData).Readable ↔
      (encodeSnapshot x.snapshotData).length ≤ maxRecordBytes := by
  constructor
  · exact JournalRecord.Readable.capped
  · intro hcapped
    refine ⟨SnapshotData.fits_of_length ?_ (Nat.lt_of_le_of_lt hcapped (by decide)), hcapped⟩
    intro o ho
    obtain ⟨e, he, rfl⟩ := List.mem_map.mp ho
    exact h e.1 e.2 (ExtTreeMap.mem_toList_iff_getElem?_eq_some.mp he)

/-- What replay locks comes from the record or was locked before. -/
theorem Authority.LocksFit.replayRecord {x y : Authority} {r : JournalRecord} (h : x.LocksFit)
    (hr : r.Fits) (hy : x.replayRecord r = .ok y) : y.LocksFit := by
  intro k o ho
  cases r with
  | locked order =>
    cases hy
    rw [ExtTreeMap.getElem?_insert] at ho
    split at ho
    · cases ho
      exact hr
    · exact h k o ho
  | confirmed order =>
    obtain ⟨-, rfl⟩ := replayRecord_confirmed_inv hy
    exact h k o (getElem?_dropSlots.mp ho).1
  | snapshot sn =>
    obtain ⟨ledger, -, rfl⟩ := replayRecord_snapshot_inv hy
    obtain ⟨o', ho', he⟩ := List.mem_map.mp (OrdMap.mem_of_ofEntries ho)
    cases he
    exact (hr.locked.2 o ho').1
  | epochFence proposal =>
    cases hy
    exact h k o ho
  | epochInstalled cert =>
    obtain ⟨next, -, rfl⟩ := replayRecord_epochInstalled_inv hy
    split at ho <;> cases ho

/-- The log is readable, and what is locked live or after recovery is within the bounds. -/
structure Node.LogReadable (n : Node) (y : Authority) : Prop where
  records : ∀ r ∈ n.live.journal.records, r.Readable
  live : n.live.LocksFit
  recovered : y.LocksFit

omit [Crypto] in
theorem forall_mem_append_singleton {records : List JournalRecord} {r : JournalRecord}
    (h : ∀ r' ∈ records, r'.Readable) (hr : r.Readable) : ∀ r' ∈ records ++ [r], r'.Readable := by
  intro r' hr'
  rcases List.mem_append.mp hr' with hr' | hr'
  · exact h r' hr'
  · rw [List.mem_singleton.mp hr']
    exact hr

theorem logReadable_pair {cfg : Config} {bindings : List (AccountId × VerifyingKey)}
    (hp : OwnerRegistry.new bindings = .ok cfg.policy.owners) :
    Node.Pair cfg (fun n op => op.WellTyped ∧ n.Bounded op) Node.LogReadable where
  start := ⟨fun r hr => (by cases hr), fun k o ho => (by cases ho), fun k o ho => by cases ho⟩
  stable _ _ := ⟨trivial, trivial⟩
  complete {n y} _ _ _ _ hR := by
    obtain ⟨hj, -⟩ := n.live.completeInstall_frame
    refine ⟨?_, ?_, hR.recovered⟩
    · rw [hj]
      exact hR.records
    · intro k o ho
      exact hR.live k o (n.live.synced_completeInstall.locked ▸ ho)
  vote _ _ _ _ _ _ hR := ⟨hR.records, hR.live, hR.recovered⟩
  commit {op n r x' y y'} hbase _ hok hpend _ hx hy hR := by
    have hr := hpend.readable (hbase.wf.policy ▸ hp) hok.1 hok.2
    obtain ⟨hj, -⟩ := Authority.replayRecord_frame hx
    have hlocks := hR.live.replayRecord hr.fits hx
    refine ⟨?_, hlocks, hR.recovered.replayRecord hr.fits hy⟩
    simp only [Authority.withRecord, hj]
    exact forall_mem_append_singleton hR.records hr
  lost _ _ _ _ _ _ hR := ⟨hR.records, hR.live, hR.recovered⟩
  kept hbase _ hok _ hpend _ hy hR := by
    have hr := hpend.readable (hbase.wf.policy ▸ hp) hok.1 hok.2
    exact ⟨forall_mem_append_singleton hR.records hr, hR.live, hR.recovered.replayRecord hr.fits hy⟩
  poison hR := ⟨hR.records, hR.live, hR.recovered⟩
  epochVote _ _ _ _ hR := ⟨hR.records, hR.live, hR.recovered⟩
  attest _ _ _ hR := ⟨hR.records, hR.live, hR.recovered⟩
  compact {n y io poisoned} _ hok hactive hR := by
    refine ⟨?_, hR.live, hR.live⟩
    intro r hr
    rw [List.mem_singleton.mp hr]
    exact hR.live.snapshot_readable_iff.mpr (hok.2 hactive)
  crash _ _ _ hR := ⟨hR.records, hR.recovered, hR.recovered⟩

/-- The frames of the records are read back as these records, and to the last byte. -/
def ReadsBack (records : List JournalRecord) : Prop :=
  decodeRecords (encodeLog records) = .ok records ∧
    goodPrefixLen (encodeLog records) = .ok (encodeLog records).length

theorem readsBack_iff {records : List JournalRecord} :
    ReadsBack records ↔ ∀ r ∈ records, r.Readable := by
  unfold ReadsBack decodeRecords goodPrefixLen
  constructor
  · rintro ⟨hrecords, -⟩
    obtain ⟨p, hscan, heq⟩ := Wire.map_eq_ok hrecords
    obtain ⟨records', n⟩ := p
    obtain rfl : records = records' := heq
    exact readable_of_scan hscan
  · intro h
    rw [scan_encodeLog h]
    exact ⟨rfl, rfl⟩

omit [KeyFormat] in
/-- An accepted certificate goes to the log. -/
theorem Authority.AcceptsEpochCert.install_records {x : Authority} {cert : EpochCert}
    {old next : Committee} (h : x.AcceptsEpochCert cert old next)
    (hidle : x.epochState.isInstalling = false) :
    (x.installEpochCert cert old .stored).2.journal.records =
      x.journal.records ++ [.epochInstalled cert] := by
  have haccept : x.installEpochCert cert old .stored = x.acceptEpochCert cert next .stored := by
    unfold installEpochCert
    rw [h.unpoisoned, if_neg Bool.false_ne_true, if_neg (not_not.mpr h.root),
      if_neg (not_not.mpr h.epoch), h.roster]
    simp only [h.votes]
  rw [haccept, acceptEpochCert_stored hidle]
  split
  · rw [(completeInstall_frame _).1]
    rfl
  · rfl

/-- In a run within the bounds every log is read back; and one more write that succeeds leaves a log
that is read back exactly if it is within the bounds too. -/
theorem log_read_back {cfg : Config} {bindings : List (AccountId × VerifyingKey)}
    (hp : OwnerRegistry.new bindings = .ok cfg.policy.owners) {n : Node}
    (hn : Reachable (Node.step cfg) (fun n op => op.WellTyped ∧ n.Bounded op) (.start cfg) n) :
    ReadsBack n.live.journal.records ∧
    ∀ op n', op.WellTyped → op.io = .stored → Node.step cfg n op = some n' →
      (ReadsBack n'.live.journal.records ↔ n.Bounded op) := by
  have hreads : ∀ {m}, Reachable (Node.step cfg) (fun n op => op.WellTyped ∧ n.Bounded op)
      (.start cfg) m → ReadsBack m.live.journal.records := by
    intro m hm
    obtain ⟨-, y, -, hR⟩ := Node.pair_invariant (logReadable_pair hp) hm
    exact readsBack_iff.mpr hR.records
  refine ⟨hreads hn, ?_⟩
  intro op n' htyped hio hstep
  refine ⟨fun hback => ?_, fun hbounded => hreads (.tail hn ⟨htyped, hbounded⟩ hstep)⟩
  rw [readsBack_iff] at hback
  cases op with
  | installEpochCert cert old io =>
    obtain rfl : io = .stored := hio
    cases hstep
    rintro ⟨next, haccepts⟩ hidle
    refine (haccepts.readable_iff htyped).mp (hback _ ?_)
    rw [Node.stepInstall, haccepts.install_records hidle]
    exact List.mem_append_right _ List.mem_cons_self
  | compactJournal io =>
    obtain rfl : io = .stored := hio
    cases hstep
    intro hactive
    refine (hback (.snapshot n.live.snapshotData) ?_).capped
    simp [Authority.compactJournal, hactive, Journal.compact]
  | _ => trivial

end Runs

/-! ## A log that cannot be read -/

/-- Distinct accounts without a balance are a genesis. -/
theorem tryGenesisLoop_zeros {ids : List AccountId} (accounts : OrdMap AccountId Account)
    (hnodup : ids.Nodup) (hfresh : ∀ a ∈ ids, accounts.contains a = false) :
    ∃ l, Ledger.tryGenesisLoop (ids.map fun a => (a, 0)) accounts 0 = .ok l ∧
      l.accounts.size = accounts.size + ids.length := by
  induction ids generalizing accounts with
  | nil => exact ⟨⟨accounts⟩, rfl, rfl⟩
  | cons a ids ih =>
    obtain ⟨hnew, hnodup⟩ := List.nodup_cons.mp hnodup
    have ha := hfresh a List.mem_cons_self
    obtain ⟨l, hl, hsize⟩ := ih (accounts.insert a ⟨0, 0⟩) hnodup (by
      intro b hb
      have hne : a ≠ b := fun h => hnew (h ▸ hb)
      rw [ExtTreeMap.contains_insert, hfresh b (List.mem_cons_of_mem _ hb)]
      simpa using hne)
    refine ⟨l, ?_, ?_⟩
    · rw [List.map_cons, Ledger.tryGenesisLoop, ha, if_neg Bool.false_ne_true]
      exact hl
    · rw [hsize, ExtTreeMap.size_insert, if_neg, List.length_cons]
      · omega
      · exact Bool.eq_false_iff.mp ha

/-- Every account takes at least 28 bytes of the snapshot. -/
theorem length_encodeSnapshot_ge (sn : SnapshotData) :
    28 * sn.accounts.length ≤ (encodeSnapshot sn).length := by
  have hentry : ∀ x ∈ sn.accounts.map fun a => (Snapshot.putAccount a).length, 28 ≤ x := by
    intro x hx
    obtain ⟨a, -, rfl⟩ := List.mem_map.mp hx
    rw [length_putAccount]
    exact Nat.le_add_right 28 _
  have hsum := List.card_nsmul_le_sum _ 28 hentry
  rw [List.length_map, smul_eq_mul, Nat.mul_comm] at hsum
  simp only [encodeSnapshot, putSnapshot, List.length_append, length_putCounted]
  omega

theorem utf8ByteSize_ofList_le (l : List Char) : (String.ofList l).utf8ByteSize ≤ 4 * l.length := by
  induction l with
  | nil => simp
  | cons c l ih =>
    have hsplit : String.ofList (c :: l) = String.singleton c ++ String.ofList l := by
      rw [← String.toList_inj]
      simp
    have hc := c.utf8Size_le_four
    rw [hsplit, String.utf8ByteSize_append, String.utf8ByteSize_singleton, List.length_cons]
    omega

namespace Demo

theorem repr_fits (i : Fin 600000) : i.val.repr.utf8ByteSize < 2 ^ 63 := by
  have hdigits := (Nat.length_toDigits_le_iff (n := i.val) (b := 10) (k := 6) (by decide)
    (by decide)).mpr (Nat.lt_trans i.isLt (by decide))
  have hbytes := utf8ByteSize_ofList_le (Nat.toDigits 10 i.val)
  rw [Nat.repr_eq_ofList_toDigits]
  omega

/-- The accounts "0", "1", ..., "599999". -/
def crowd : List AccountId := List.ofFn fun i => ⟨i.val.repr, repr_fits i⟩

theorem nodup_crowd : crowd.Nodup := by
  refine List.nodup_ofFn.mpr ?_
  intro i j hij
  exact Fin.ext (Nat.repr_injective (congrArg Str.text hij))

def owners : List (AccountId × VerifyingKey) := [(alice, key 100), (bob, key 101), (carol, key 102)]

theorem owners_policy : OwnerRegistry.new owners = .ok policy.owners := by decide +kernel

instance [KeyFormat] : (op : Op) → Decidable op.WellTyped
  | .fence proposal _ =>
    inferInstanceAs (Decidable (∀ e ∈ proposal.nextRoster, KeyFormat.isKey e.2 = true))
  | .installEpochCert cert _ _ =>
    inferInstanceAs (Decidable (∀ e ∈ cert.nextRoster, KeyFormat.isKey e.2 = true))
  | .handle _ _ | .confirm _ _ _ _ _ | .signEpochVote | .attest _ _ | .compactJournal _ | .crash =>
    inferInstanceAs (Decidable True)

instance [KeyFormat] (cert : EpochCert) : Decidable cert.Small :=
  decidable_of_iff (FrontierFits cert.frontier ∧ (∀ v ∈ cert.votes, FrontierFits v.frontier) ∧
    (encodeEpochCert cert).length ≤ maxRecordBytes)
    ⟨fun h => ⟨h.1, h.2.1, h.2.2⟩, fun h => ⟨h.frontier, h.votes, h.capped⟩⟩

/-- Every certificate and every snapshot is within the bounds, accepted or not. -/
def small (n : Node) : Op → Bool
  | .installEpochCert cert _ _ => decide cert.Small
  | .compactJournal _ => decide ((encodeSnapshot n.live.snapshotData).length ≤ maxRecordBytes)
  | _ => true

theorem bounded_of_small {n : Node} {op : Op} (h : small n op = true) : n.Bounded op := by
  cases op with
  | installEpochCert cert old io => exact fun _ _ => of_decide_eq_true h
  | compactJournal io => exact fun _ => of_decide_eq_true h
  | _ => trivial

end Demo

open Demo in
/-- A member votes, applies, fences, installs an epoch change and compacts its log. -/
theorem log_read_back_demo :
    ∃ n, Reachable (Node.step (config a3 (key 3) solo)) (fun n op => op.WellTyped ∧ n.Bounded op)
      (.start (config a3 (key 3) solo)) n ∧ n.live.epoch = 1 ∧
      n.live.journal.records.length = 1 ∧ ReadsBack n.live.journal.records := by
  obtain ⟨n, hn, hepoch, hlen⟩ : ∃ n, Reachable (Node.step (config a3 (key 3) solo))
      (fun n op => op.WellTyped ∧ small n op = true) (.start (config a3 (key 3) solo)) n ∧
      n.live.epoch = 1 ∧ n.live.journal.records.length = 1 :=
    Reachable.of_exec (promptRun ++ [.compactJournal .stored]) (by decide +kernel)
  have hrun : Reachable (Node.step (config a3 (key 3) solo))
      (fun n op => op.WellTyped ∧ n.Bounded op) (.start (config a3 (key 3) solo)) n :=
    hn.mono fun n op h => ⟨h.1, bounded_of_small h.2⟩
  exact ⟨n, hrun, hepoch, hlen, (log_read_back owners_policy hrun).1⟩

open Demo in
/-- The first call compacts the log of an authority with 600000 accounts. Its journal reports
success, and the file cannot be read any more. -/
theorem compaction_unreadable :
    ∃ (cfg : Config) (n : Node), Ledger.tryGenesis (crowd.map fun a => (a, 0)) = .ok cfg.genesis ∧
      OwnerRegistry.new owners = .ok cfg.policy.owners ∧
      Reachable (Node.step cfg) (fun _ op => op = .compactJournal .stored) (.start cfg) n ∧
      n.live.journal.records = [.snapshot cfg.authority.snapshotData] ∧
      ¬ ReadsBack n.live.journal.records := by
  obtain ⟨l, hl, hsize⟩ := tryGenesisLoop_zeros ∅ nodup_crowd fun a _ => ExtTreeMap.contains_empty
  have hcount : l.accounts.size = 600000 := by
    rw [hsize, ExtTreeMap.size_empty, crowd, List.length_ofFn]
  let cfg : Config := { config a3 (key 3) solo with
    genesis := l, sound := Ledger.tryGenesis_sound hl }
  refine ⟨cfg, _, hl, owners_policy, .tail .refl rfl rfl, rfl, ?_⟩
  intro hback
  have hcapped := (readsBack_iff.mp hback _ List.mem_cons_self).capped
  have hlen : cfg.authority.snapshotData.accounts.length = 600000 := by
    rw [← hcount, ← ExtTreeMap.length_toList]
    simp only [Authority.snapshotData, Ledger.balances, List.length_map]
    rfl
  have hge := length_encodeSnapshot_ge cfg.authority.snapshotData
  rw [hlen] at hge
  exact absurd (Nat.le_trans hge hcapped) (by decide)

end P2P333.Transfer333
