import P2P333.Transfer333.Ledger
import P2P333.Transfer333.Epoch

/-!
# The write-ahead journal

The durability port of `333-transfer/src/journal.rs`: the five kinds of record, the snapshot that
compaction writes, and the journal as the records that stable storage holds.

What the storage does with one write is an input of the model (`Io`). It encodes the contract of
the `Journal` trait: a write that reports success is stored, and a write that reports an error may
or may not be. The second case is also what a crash in the middle of an operation leaves behind.
-/

namespace P2P333.Transfer333

open Std Lib

/-- Authority state captured whole. It has no committee id. -/
structure SnapshotData where
  accounts : List (AccountId × Amount × U64)
  locked : List SignedTransfer
  confirmed : List (AccountId × U64 × Digest)
  epoch : U64
deriving DecidableEq

/-- One durable authority decision. -/
inductive JournalRecord where
  | locked (order : SignedTransfer)
  | confirmed (order : SignedTransfer)
  | snapshot (sn : SnapshotData)
  | epochFence (proposal : EpochProposal)
  | epochInstalled (cert : EpochCert)
deriving DecidableEq

/-- The messages of `JournalError::Corrupt` that `bind` and `recover` produce. -/
inductive Corruption where
  /-- "journal belongs to a different authority, committee or genesis" -/
  | foreignIdentity
  /-- "snapshot ledger invalid: {e:?}" -/
  | snapshotLedgerInvalid (e : GenesisError)
  /-- "replay: confirmed record for ({account}, {seq}) does not apply: {e:?}" -/
  | confirmedDoesNotApply (account : AccountId) (seq : U64) (e : Reject)
  /-- "epoch-installed roster invalid" -/
  | rosterInvalid
deriving DecidableEq

/-- Why a journal does not take or give back a record. -/
inductive JournalError where
  | io (message : String)
  | corrupt (why : Corruption)
deriving DecidableEq

/-- What the storage does with one write. -/
inductive Io where
  | stored
  | failed (e : JournalError) (kept : Bool)
deriving DecidableEq

/-- A journal that retains its records: the identity it is bound to, and the log. -/
structure Journal where
  identity : Option Digest
  records : List JournalRecord
deriving DecidableEq

namespace Journal

def new : Journal := ⟨none, []⟩

/-- Claim the journal for one identity, or verify an existing claim. -/
def bind (j : Journal) (identity : Digest) : Except JournalError Unit × Journal :=
  match j.identity with
  | none => (.ok (), { j with identity := some identity })
  | some existing =>
    if existing = identity then (.ok (), j) else (.error (.corrupt .foreignIdentity), j)

def append (j : Journal) (record : JournalRecord) : Io → Except JournalError Unit × Journal
  | .stored => (.ok (), { j with records := j.records ++ [record] })
  | .failed e true => (.error e, { j with records := j.records ++ [record] })
  | .failed e false => (.error e, j)

/-- Replace the whole log with a single snapshot, atomically. -/
def compact (j : Journal) (snapshot : SnapshotData) : Io → Except JournalError Unit × Journal
  | .stored => (.ok (), { j with records := [.snapshot snapshot] })
  | .failed e true => (.error e, { j with records := [.snapshot snapshot] })
  | .failed e false => (.error e, j)

end Journal

end P2P333.Transfer333
