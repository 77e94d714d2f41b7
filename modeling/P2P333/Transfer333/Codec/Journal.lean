import P2P333.Transfer333.Journal
import P2P333.Transfer333.Codec.Wire

/-!
# The log format

The codec of `333-transfer/src/journal.rs`: the snapshot body, the checksummed frame around each
record, and the scanner that splits a log into frames and finds the point where it is torn.

The writer checks nothing. The reader refuses frames above 16 MiB, and it decodes bodies with the
wire codec, which has its own caps.

Results:
1. `exact_takeSnapshot`: snapshots are read back exactly.
2. `scan_append`: frames of readable records in front of any bytes are split off one by one.
3. `scan_encodeLog`, `readable_of_scan`: a log of frames is read back as the records it was
   written from exactly if every one of them is readable.
-/

namespace P2P333.Transfer333

open Std Lib

/-- The messages of `JournalError::Corrupt` that reading a log file produces. -/
inductive LogError where
  /-- "record body: {e:?}" -/
  | recordBody (e : WireError)
  /-- "record too large: {len}" -/
  | recordTooLarge (len : Nat)
  /-- "frame checksum mismatch: complete frame with bad data" -/
  | checksumMismatch
  /-- "unknown tag: {other}" -/
  | unknownTag (tag : UInt8)
  /-- "snapshot: truncated u32" -/
  | truncatedU32
  /-- "snapshot: truncated field" -/
  | truncatedField
  /-- "snapshot: account id not utf-8" -/
  | accountNotUtf8
  /-- "snapshot: confirmed account not utf-8" -/
  | confirmedNotUtf8
  /-- "snapshot: trailing bytes" -/
  | trailingBytes
  /-- "missing magic: {e}" -/
  | missingMagic
  /-- "bad magic" -/
  | badMagic
  /-- "torn identity block" -/
  | tornIdentity
  /-- "journal belongs to a different authority, committee or genesis" -/
  | foreignIdentity
deriving DecidableEq

def journalMagic : Bytes := tag "transfer333/journal/v4\x00"

def identityLen : Nat := 32

/-- Zero is reserved: a tail of zeros is not a record. -/
def tagTorn : UInt8 := 0

/-- `tag(1) || len(4, BE) || crc(4, BE)`. -/
def headerLen : Nat := 9

def maxRecordBytes : Nat := 16 * 1024 * 1024

/-! ## Snapshots -/

namespace Snapshot

abbrev Take (α : Type) := Decoder LogError α

/-- `v as u32`: the low 32 bits. -/
def putU32 (v : Nat) : Bytes := beBytes 4 v

def takeU32 : Take Nat := Decoder.takeBe .truncatedU32 4

def takeSlice (n : Nat) : Take Bytes := Decoder.take .truncatedField n

def putBits (k : Nat) {w : Nat} (x : BitVec w) : Bytes := beBytes k x.toNat

def takeBits (k : Nat) {w : Nat} : Take (BitVec w) := do
  let b ← takeSlice k
  pure (BitVec.ofNat w (ofBeBytes b))

def putText (s : Str) : Bytes := putU32 s.len ++ s.bytes

def takeText (e : LogError) : Take Str := do
  let len ← takeU32
  let b ← takeSlice len
  Decoder.ofOption e (Str.fromUtf8 b)

/-- A list behind its length as a `u32`. -/
def putCounted {α : Type} (put : α → Bytes) (l : List α) : Bytes := putU32 l.length ++ l.flatMap put

def takeCounted {α : Type} (item : Take α) : Take (List α) := do
  let n ← takeU32
  item.many n

theorem exact_takeU32 : Exact takeU32 putU32 (fun n => n < 2 ^ 32) := exact_takeBe _ 4

theorem exact_takeBits {k w : Nat} (hw : w = 8 * k) :
    Exact (takeBits k : Take (BitVec w)) (putBits k) (fun _ => True) := by
  have hpow : 2 ^ w = 256 ^ k := by rw [hw, pow_mul]; norm_num
  refine Exact.congr (Exact.bind (putBits k) ?_ (exact_take _ k)
    (fun b => Exact.pure (BitVec.ofNat w (ofBeBytes b)))) (fun x => ?_)
    (fun x _ => List.append_nil _)
  · rintro b x hb rfl
    have hlt := ofBeBytes_lt b
    rw [hb, ← hpow] at hlt
    rw [putBits, BitVec.toNat_ofNat, Nat.mod_eq_of_lt hlt, ← hb]
    exact beBytes_ofBeBytes b
  · simp only [iff_true]
    refine ⟨length_beBytes k x.toNat, ?_⟩
    rw [putBits, ofBeBytes_beBytes (hpow ▸ x.isLt), BitVec.ofNat_toNat, BitVec.setWidth_eq]

theorem exact_takeText (e : LogError) :
    Exact (takeText e) putText (fun s => s.len < 2 ^ 32) := by
  refine Exact.congr (Exact.bind Str.len ?_ exact_takeU32 (fun len =>
    Exact.bind Str.bytes ?_ (exact_take _ len) (fun b => exact_ofOption e (Str.fromUtf8 b))))
    (fun s => ?_) (fun s _ => ?_)
  · rintro len s - ⟨hlen, -⟩
    exact hlen
  · intro b s _ hs
    exact Str.fromUtf8_eq_some.mp hs
  · simp [Str.fromUtf8_eq_some, Str.length_bytes]
  · unfold putText
    simp

theorem exact_takeCounted {α : Type} {item : Take α} {put : α → Bytes} {dom : α → Prop}
    (h : Exact item put dom) :
    Exact (takeCounted item) (putCounted put)
      (fun l => l.length < 2 ^ 32 ∧ ∀ a ∈ l, dom a) := by
  refine Exact.congr (Exact.bind List.length (by grind) exact_takeU32 (fun n => h.many n))
    (fun l => ?_) (fun l _ => rfl)
  simp

/-- `(account, balance, next_seq)`. -/
def putAccount (a : AccountId × Amount × U64) : Bytes :=
  putText a.1 ++ (putBits 16 a.2.1 ++ putBits 8 a.2.2)

def takeAccount : Take (AccountId × Amount × U64) := do
  let id ← takeText .accountNotUtf8
  let balance ← takeBits 16
  let nextSeq ← takeBits 8
  pure (id, balance, nextSeq)

def putLocked (o : SignedTransfer) : Bytes := putU32 (encodeTransfer o).length ++ encodeTransfer o

def takeLocked : Take SignedTransfer := do
  let len ← takeU32
  let b ← takeSlice len
  Decoder.ofExcept .recordBody (decodeTransfer b)

/-- `(account, seq, order_id)`. -/
def putConfirmed (c : AccountId × U64 × Digest) : Bytes :=
  putText c.1 ++ (putBits 8 c.2.1 ++ c.2.2.toList)

def takeConfirmed : Take (AccountId × U64 × Digest) := do
  let account ← takeText .confirmedNotUtf8
  let seq ← takeBits 8
  let orderId ← Decoder.takeVector .truncatedField 32
  pure (account, seq, orderId)

theorem exact_takeAccount : Exact takeAccount putAccount (fun a => a.1.len < 2 ^ 32) := by
  refine Exact.congr
    (Exact.bind (fun a : AccountId × Amount × U64 => a.1) (by grind) (exact_takeText _) fun id =>
      Exact.bind (fun a : AccountId × Amount × U64 => a.2.1) (by grind) (exact_takeBits rfl)
        fun balance =>
      Exact.bind (fun a : AccountId × Amount × U64 => a.2.2) (by grind) (exact_takeBits rfl)
        fun nextSeq =>
      Exact.pure (id, balance, nextSeq)) (fun a => ?_) (fun a _ => ?_)
  · simp
  · unfold putAccount
    simp

theorem decodeTransfer_eq_ok {b : Bytes} {o : SignedTransfer} :
    decodeTransfer b = .ok o ↔ o.Fits ∧ b = encodeTransfer o :=
  Wire.decode_eq_ok Wire.exact_takeSignedTransferBody

theorem exact_takeLocked :
    Exact takeLocked putLocked (fun o => o.Fits ∧ (encodeTransfer o).length < 2 ^ 32) := by
  refine Exact.congr (Exact.bind (fun o : SignedTransfer => (encodeTransfer o).length) ?_
    exact_takeU32 (fun len =>
      Exact.bind encodeTransfer ?_ (exact_take _ len)
        (fun b => exact_ofExcept LogError.recordBody (decodeTransfer b))))
    (fun o => ?_) (fun o _ => ?_)
  · rintro len o - ⟨hlen, -⟩
    exact hlen
  · intro b o _ ho
    exact (decodeTransfer_eq_ok.mp ho).2.symm
  · simp [decodeTransfer_eq_ok, and_comm]
  · unfold putLocked
    simp

theorem exact_takeConfirmed : Exact takeConfirmed putConfirmed (fun c => c.1.len < 2 ^ 32) := by
  refine Exact.congr
    (Exact.bind (fun c : AccountId × U64 × Digest => c.1) (by grind) (exact_takeText _)
      fun account =>
      Exact.bind (fun c : AccountId × U64 × Digest => c.2.1) (by grind) (exact_takeBits rfl)
        fun seq =>
      Exact.bind (fun c : AccountId × U64 × Digest => c.2.2) (by grind) (exact_takeVector _ 32)
        fun orderId =>
      Exact.pure (account, seq, orderId)) (fun c => ?_) (fun c _ => ?_)
  · simp
  · unfold putConfirmed
    simp

end Snapshot

section Snapshots

open Snapshot

def putSnapshot (sn : SnapshotData) : Bytes :=
  putCounted putAccount sn.accounts ++ (putCounted putLocked sn.locked ++
    (putCounted putConfirmed sn.confirmed ++ putBits 8 sn.epoch))

def takeSnapshot : Take SnapshotData := do
  let accounts ← takeCounted takeAccount
  let locked ← takeCounted takeLocked
  let confirmed ← takeCounted takeConfirmed
  let epoch ← takeBits 8
  pure ⟨accounts, locked, confirmed, epoch⟩

def encodeSnapshot : SnapshotData → Bytes := putSnapshot

def decodeSnapshot : Bytes → Except LogError SnapshotData := takeSnapshot.all .trailingBytes

/-- Every count and length fits its `u32`, and the locked orders are within the wire bounds. -/
structure SnapshotData.Fits (sn : SnapshotData) : Prop where
  accounts : sn.accounts.length < 2 ^ 32 ∧ ∀ a ∈ sn.accounts, a.1.len < 2 ^ 32
  locked : sn.locked.length < 2 ^ 32 ∧
    ∀ o ∈ sn.locked, o.Fits ∧ (encodeTransfer o).length < 2 ^ 32
  confirmed : sn.confirmed.length < 2 ^ 32 ∧ ∀ c ∈ sn.confirmed, c.1.len < 2 ^ 32

instance (sn : SnapshotData) : Decidable sn.Fits :=
  decidable_of_iff
    ((sn.accounts.length < 2 ^ 32 ∧ ∀ a ∈ sn.accounts, a.1.len < 2 ^ 32) ∧
      (sn.locked.length < 2 ^ 32 ∧
        ∀ o ∈ sn.locked, o.Fits ∧ (encodeTransfer o).length < 2 ^ 32) ∧
      (sn.confirmed.length < 2 ^ 32 ∧ ∀ c ∈ sn.confirmed, c.1.len < 2 ^ 32))
    ⟨fun h => ⟨h.1, h.2.1, h.2.2⟩, fun h => ⟨h.accounts, h.locked, h.confirmed⟩⟩

theorem exact_takeSnapshot : Exact takeSnapshot putSnapshot SnapshotData.Fits := by
  refine Exact.congr
    (Exact.bind SnapshotData.accounts (by grind) (exact_takeCounted exact_takeAccount)
      fun accounts =>
      Exact.bind SnapshotData.locked (by grind) (exact_takeCounted exact_takeLocked) fun locked =>
      Exact.bind SnapshotData.confirmed (by grind) (exact_takeCounted exact_takeConfirmed)
        fun confirmed =>
      Exact.bind SnapshotData.epoch (by grind) (exact_takeBits rfl) fun epoch =>
      Exact.pure (SnapshotData.mk accounts locked confirmed epoch)) (fun sn => ?_) (fun sn _ => ?_)
  · constructor
    · rintro ⟨haccounts, hlocked, hconfirmed, -⟩
      exact ⟨haccounts, hlocked, hconfirmed⟩
    · rintro ⟨haccounts, hlocked, hconfirmed⟩
      exact ⟨haccounts, hlocked, hconfirmed, trivial, rfl⟩
  · unfold putSnapshot
    simp

theorem decodeSnapshot_eq_ok {b : Bytes} {sn : SnapshotData} :
    decodeSnapshot b = .ok sn ↔ sn.Fits ∧ b = encodeSnapshot sn := by
  constructor
  · exact exact_takeSnapshot.all_eq_ok
  · rintro ⟨hfits, rfl⟩
    exact exact_takeSnapshot.all_encode _ hfits

/-! A snapshot whose encoding is short has short parts. -/

theorem length_putCounted {α : Type} (put : α → Bytes) (l : List α) :
    (putCounted put l).length = 4 + (l.map fun a => (put a).length).sum := by
  simp [putCounted, putU32, List.length_flatMap]

theorem length_putText (s : Str) : (putText s).length = 4 + s.len := by
  simp [putText, putU32, Str.length_bytes]

theorem length_putAccount (a : AccountId × Amount × U64) :
    (putAccount a).length = 28 + a.1.len := by
  simp only [putAccount, putBits, List.length_append, length_putText, length_beBytes]
  omega

theorem length_putLocked (o : SignedTransfer) :
    (putLocked o).length = 4 + (encodeTransfer o).length := by
  simp [putLocked, putU32]

theorem length_putConfirmed (c : AccountId × U64 × Digest) :
    (putConfirmed c).length = 44 + c.1.len := by
  simp only [putConfirmed, putBits, List.length_append, length_putText, length_beBytes,
    List.Vector.toList_length]
  omega

/-- The length of a counted list bounds the number of its items and the size of each. -/
theorem counted_bounds {α : Type} {l : List α} {n : Nat} (put : α → Bytes) (size : α → Nat)
    (hput : ∀ a, size a + 1 ≤ (put a).length) (h : (putCounted put l).length ≤ n) :
    l.length ≤ n ∧ ∀ a ∈ l, size a ≤ n := by
  rw [length_putCounted] at h
  constructor
  · have hsum : l.length * 1 ≤ (l.map fun a => (put a).length).sum := by
      rw [← List.length_map (f := fun a => (put a).length)]
      refine List.card_nsmul_le_sum _ 1 fun x hx => ?_
      obtain ⟨a, -, rfl⟩ := List.mem_map.mp hx
      exact Nat.le_of_add_left_le (hput a)
    omega
  · intro a ha
    have hle := List.single_le_sum (fun _ _ => Nat.zero_le _) _
      (List.mem_map_of_mem (f := fun a => (put a).length) ha)
    have := hput a
    omega

theorem SnapshotData.fits_of_length {sn : SnapshotData} (hlocked : ∀ o ∈ sn.locked, o.Fits)
    (hlen : (encodeSnapshot sn).length < 2 ^ 32) : sn.Fits := by
  simp only [encodeSnapshot, putSnapshot, List.length_append] at hlen
  have haccounts := counted_bounds (l := sn.accounts) (n := 2 ^ 32 - 1) putAccount
    (fun a : AccountId × Amount × U64 => a.1.len)
    (fun a => by rw [length_putAccount]; omega) (by omega)
  have horders := counted_bounds (l := sn.locked) (n := 2 ^ 32 - 1) putLocked
    (fun o : SignedTransfer => (encodeTransfer o).length)
    (fun o => by rw [length_putLocked]; omega) (by omega)
  have hconfirmed := counted_bounds (l := sn.confirmed) (n := 2 ^ 32 - 1) putConfirmed
    (fun c : AccountId × U64 × Digest => c.1.len)
    (fun c => by rw [length_putConfirmed]; omega) (by omega)
  refine ⟨⟨by omega, fun a ha => ?_⟩, ⟨by omega, fun o ho => ⟨hlocked o ho, ?_⟩⟩,
    ⟨by omega, fun c hc => ?_⟩⟩
  · exact Nat.lt_of_le_of_lt (haccounts.2 a ha) (by decide)
  · exact Nat.lt_of_le_of_lt (horders.2 o ho) (by decide)
  · exact Nat.lt_of_le_of_lt (hconfirmed.2 c hc) (by decide)

end Snapshots

/-! ## Frames -/

section Frames

variable [Crypto] [KeyFormat]

/-- Truncated SHA-256 over `tag || len || body`: an integrity check, not an authentication tag. -/
def frameCrc (tag : UInt8) (body : Bytes) : Bytes :=
  (Crypto.sha256 (journalMagic ++ tag :: (beBytes 4 body.length ++ body))).toList.take 4

namespace JournalRecord

def tag : JournalRecord → UInt8
  | .locked _ => 1
  | .confirmed _ => 2
  | .snapshot _ => 3
  | .epochFence _ => 4
  | .epochInstalled _ => 5

def body : JournalRecord → Bytes
  | .locked o => encodeTransfer o
  | .confirmed o => encodeTransfer o
  | .snapshot sn => encodeSnapshot sn
  | .epochFence p => encodeEpochProposal p
  | .epochInstalled c => encodeEpochCert c

/-- The bounds of the codec that decodes the body. -/
def Fits : JournalRecord → Prop
  | .locked o => o.Fits
  | .confirmed o => o.Fits
  | .snapshot sn => sn.Fits
  | .epochFence p => p.Fits
  | .epochInstalled c => c.Fits

/-- Within the bounds of the reader: those of the body's codec, and the cap on the body's size. -/
structure Readable (r : JournalRecord) : Prop where
  fits : r.Fits
  capped : r.body.length ≤ maxRecordBytes

instance : (r : JournalRecord) → Decidable r.Fits
  | .locked o => inferInstanceAs (Decidable o.Fits)
  | .confirmed o => inferInstanceAs (Decidable o.Fits)
  | .snapshot sn => inferInstanceAs (Decidable sn.Fits)
  | .epochFence p => inferInstanceAs (Decidable p.Fits)
  | .epochInstalled c => inferInstanceAs (Decidable c.Fits)

instance (r : JournalRecord) : Decidable r.Readable :=
  decidable_of_iff (r.Fits ∧ r.body.length ≤ maxRecordBytes)
    ⟨fun h => ⟨h.1, h.2⟩, fun h => ⟨h.fits, h.capped⟩⟩

omit [Crypto] [KeyFormat] in
theorem tag_ne_torn (r : JournalRecord) : r.tag ≠ tagTorn := by
  cases r <;> simp [tag, tagTorn]

end JournalRecord

/-- `tag || u32-BE len || crc(4) || body`. The length is cut to 32 bits. -/
def encodeRecord (r : JournalRecord) : Bytes :=
  r.tag :: (beBytes 4 r.body.length ++ (frameCrc r.tag r.body ++ r.body))

def decodeBody (tag : UInt8) (body : Bytes) : Except LogError JournalRecord :=
  match tag with
  | 1 => ((decodeTransfer body).mapError .recordBody).map .locked
  | 2 => ((decodeTransfer body).mapError .recordBody).map .confirmed
  | 3 => (decodeSnapshot body).map .snapshot
  | 4 => ((decodeEpochProposal body).mapError .recordBody).map .epochFence
  | 5 => ((decodeEpochCert body).mapError .recordBody).map .epochInstalled
  | other => .error (.unknownTag other)

/-- One turn of the loop of `scan`: the record at the front with the length of its frame, or `none`
where the log is torn. Only a complete frame can be corrupt. -/
def scanFrame (rest : Bytes) : Except LogError (Option (JournalRecord × Nat)) :=
  if rest.length < headerLen then .ok none
  else if rest.headD tagTorn = tagTorn then .ok none
  else
    let len := ofBeBytes ((rest.drop 1).take 4)
    if len > maxRecordBytes then .error (.recordTooLarge len)
    else if rest.length < headerLen + len then .ok none
    else
      let body := (rest.drop headerLen).take len
      if frameCrc (rest.headD tagTorn) body ≠ (rest.drop 5).take 4 then .error .checksumMismatch
      else (decodeBody (rest.headD tagTorn) body).map fun r => some (r, headerLen + len)

/-- The loop of `scan`. A frame has at least one byte, so the length of the log is enough fuel. -/
def scanLoop : Nat → Bytes → Except LogError (List JournalRecord × Nat)
  | 0, _ => .ok ([], 0)
  | fuel + 1, rest =>
    match scanFrame rest with
    | .error e => .error e
    | .ok none => .ok ([], 0)
    | .ok (some (r, n)) => (scanLoop fuel (rest.drop n)).map fun p => (r :: p.1, n + p.2)

/-- The single parser behind `decodeRecords` and `goodPrefixLen`: the records, and the offset where
scanning stopped. -/
def scan (bytes : Bytes) : Except LogError (List JournalRecord × Nat) :=
  scanLoop bytes.length bytes

def decodeRecords (bytes : Bytes) : Except LogError (List JournalRecord) :=
  (scan bytes).map Prod.fst

def goodPrefixLen (bytes : Bytes) : Except LogError Nat := (scan bytes).map Prod.snd

/-! ## One frame -/

omit [KeyFormat] in
theorem length_frameCrc (tag : UInt8) (body : Bytes) : (frameCrc tag body).length = 4 := by
  simp [frameCrc]

omit [KeyFormat] in
theorem length_encodeRecord (r : JournalRecord) :
    (encodeRecord r).length = headerLen + r.body.length := by
  simp only [encodeRecord, headerLen, List.length_cons, List.length_append, length_beBytes,
    length_frameCrc]
  omega

omit [Crypto] [KeyFormat] in
theorem mapError_map_eq_ok {α β ε ε' : Type} {x : Except ε α} {g : ε → ε'} {f : α → β} {b : β} :
    (x.mapError g).map f = .ok b ↔ ∃ a, x = .ok a ∧ f a = b := by
  cases x with
  | error e => exact ⟨fun h => (by cases h), fun ⟨_, h, _⟩ => by cases h⟩
  | ok a =>
    constructor
    · intro h
      cases h
      exact ⟨a, rfl, rfl⟩
    · rintro ⟨_, ⟨rfl⟩, rfl⟩
      rfl

omit [Crypto] in
theorem decodeEpochProposal_eq_ok {b : Bytes} {p : EpochProposal} :
    decodeEpochProposal b = .ok p ↔ p.Fits ∧ b = encodeEpochProposal p :=
  Wire.decode_eq_ok Wire.exact_takeEpochProposalBody

omit [Crypto] in
theorem decodeEpochCert_eq_ok {b : Bytes} {c : EpochCert} :
    decodeEpochCert b = .ok c ↔ c.Fits ∧ b = encodeEpochCert c :=
  Wire.decode_eq_ok Wire.exact_takeEpochCertBody

variable {r : JournalRecord}

omit [Crypto] in
/-- The body decoder behind each tag is exact. -/
theorem decodeBody_eq_ok {tag : UInt8} {body : Bytes} :
    decodeBody tag body = .ok r ↔ r.Fits ∧ tag = r.tag ∧ body = r.body := by
  constructor
  · intro h
    unfold decodeBody at h
    split at h
    · obtain ⟨o, ho, rfl⟩ := mapError_map_eq_ok.mp h
      obtain ⟨hfits, rfl⟩ := Snapshot.decodeTransfer_eq_ok.mp ho
      exact ⟨hfits, rfl, rfl⟩
    · obtain ⟨o, ho, rfl⟩ := mapError_map_eq_ok.mp h
      obtain ⟨hfits, rfl⟩ := Snapshot.decodeTransfer_eq_ok.mp ho
      exact ⟨hfits, rfl, rfl⟩
    · obtain ⟨sn, hsn, rfl⟩ := Wire.map_eq_ok h
      obtain ⟨hfits, rfl⟩ := decodeSnapshot_eq_ok.mp hsn
      exact ⟨hfits, rfl, rfl⟩
    · obtain ⟨p, hp, rfl⟩ := mapError_map_eq_ok.mp h
      obtain ⟨hfits, rfl⟩ := decodeEpochProposal_eq_ok.mp hp
      exact ⟨hfits, rfl, rfl⟩
    · obtain ⟨c, hc, rfl⟩ := mapError_map_eq_ok.mp h
      obtain ⟨hfits, rfl⟩ := decodeEpochCert_eq_ok.mp hc
      exact ⟨hfits, rfl, rfl⟩
    · cases h
  · rintro ⟨hfits, rfl, rfl⟩
    cases r with
    | locked o | confirmed o =>
      exact mapError_map_eq_ok.mpr ⟨o, Snapshot.decodeTransfer_eq_ok.mpr ⟨hfits, rfl⟩, rfl⟩
    | snapshot sn =>
      have hsn := decodeSnapshot_eq_ok.mpr ⟨hfits, rfl⟩
      simp only [JournalRecord.tag, JournalRecord.body, decodeBody, hsn]
      rfl
    | epochFence p =>
      exact mapError_map_eq_ok.mpr ⟨p, decodeEpochProposal_eq_ok.mpr ⟨hfits, rfl⟩, rfl⟩
    | epochInstalled c =>
      have hc := decodeEpochCert_eq_ok.mpr ⟨hfits, rfl⟩
      simp only [JournalRecord.tag, JournalRecord.body, decodeBody, hc]
      rfl

omit [Crypto] [KeyFormat] in
theorem drop_header {tag : UInt8} {len crc : Bytes} (hlen : len.length = 4) (hcrc : crc.length = 4)
    (tail : Bytes) (n : Nat) :
    (tag :: (len ++ (crc ++ tail))).drop (headerLen + n) = tail.drop n := by
  have hhead : (tag :: (len ++ crc)).length = headerLen := by simp [hlen, hcrc, headerLen]
  rw [← List.append_assoc, ← List.cons_append, ← hhead, List.drop_length_add_append]

/-- The turn of the loop on a log with at least a header, by the parts of the header. -/
theorem scanFrame_header {tag : UInt8} {len crc : Bytes} (hlen : len.length = 4)
    (hcrc : crc.length = 4) (tail : Bytes) :
    scanFrame (tag :: (len ++ (crc ++ tail))) =
      if tag = tagTorn then .ok none
      else if ofBeBytes len > maxRecordBytes then .error (.recordTooLarge (ofBeBytes len))
      else if tail.length < ofBeBytes len then .ok none
      else if frameCrc tag (tail.take (ofBeBytes len)) ≠ crc then .error .checksumMismatch
      else (decodeBody tag (tail.take (ofBeBytes len))).map
        fun r => some (r, headerLen + ofBeBytes len) := by
  have hlength : (tag :: (len ++ (crc ++ tail))).length = headerLen + tail.length := by
    simp only [List.length_cons, List.length_append, hlen, hcrc, headerLen]
    omega
  have htake : ((tag :: (len ++ (crc ++ tail))).drop 1).take 4 = len := by
    simp [← hlen]
  have hcrc' : ((tag :: (len ++ (crc ++ tail))).drop 5).take 4 = crc := by
    rw [← List.cons_append, ← List.append_assoc, List.append_assoc,
      List.drop_left' (by simp [hlen]), List.take_left' hcrc]
  have hdrop : (tag :: (len ++ (crc ++ tail))).drop headerLen = tail :=
    drop_header hlen hcrc tail 0
  unfold scanFrame
  simp only [hlength, htake, hcrc', hdrop, List.headD_cons]
  rw [if_neg (by omega)]
  simp only [Nat.add_lt_add_iff_left]

variable {bs : Bytes}

omit [Crypto] [KeyFormat] in
/-- A log of at least nine bytes starts with a header. -/
theorem exists_header (h : headerLen ≤ bs.length) :
    ∃ (tag : UInt8) (len crc tail : Bytes), len.length = 4 ∧ crc.length = 4 ∧
      bs = tag :: (len ++ (crc ++ tail)) := by
  unfold headerLen at h
  cases bs with
  | nil => exact absurd h (by decide)
  | cons tag bs =>
    rw [List.length_cons] at h
    refine ⟨tag, bs.take 4, (bs.drop 4).take 4, (bs.drop 4).drop 4, ?_, ?_, ?_⟩
    · rw [List.length_take]
      omega
    · rw [List.length_take, List.length_drop]
      omega
    · rw [List.take_append_drop, List.take_append_drop]

theorem scanFrame_short (h : bs.length < headerLen) : scanFrame bs = .ok none :=
  if_pos h

omit [Crypto] in
theorem JournalRecord.Readable.length_lt (h : r.Readable) :
    ofBeBytes (beBytes 4 r.body.length) = r.body.length :=
  ofBeBytes_beBytes (Nat.lt_of_le_of_lt h.capped (by decide))

/-- The frame of a readable record is split off, whatever follows it. -/
theorem scanFrame_encodeRecord (h : r.Readable) (rest : Bytes) :
    scanFrame (encodeRecord r ++ rest) = .ok (some (r, (encodeRecord r).length)) := by
  have hbody : decodeBody r.tag r.body = .ok r := decodeBody_eq_ok.mpr ⟨h.fits, rfl, rfl⟩
  rw [length_encodeRecord, encodeRecord, List.cons_append, List.append_assoc, List.append_assoc,
    scanFrame_header (length_beBytes ..) (length_frameCrc ..), if_neg r.tag_ne_torn, h.length_lt,
    if_neg (Nat.not_lt.mpr h.capped), List.take_left, hbody]
  rw [if_neg (by simp), if_neg (not_not.mpr rfl)]
  rfl

/-- A proper prefix of such a frame is a tear. -/
theorem scanFrame_torn (h : r.Readable) {k : Nat}
    (hk : k < (encodeRecord r).length) : scanFrame ((encodeRecord r).take k) = .ok none := by
  by_cases hheader : k < headerLen
  · refine scanFrame_short ?_
    rw [List.length_take]
    omega
  · -- the header is complete, so the cap is checked, and then the body is too short
    have hsplit : (encodeRecord r).take k = r.tag :: (beBytes 4 r.body.length ++
        (frameCrc r.tag r.body ++ r.body.take (k - headerLen))) := by
      obtain ⟨j, rfl⟩ := Nat.exists_eq_add_of_le (Nat.not_lt.mp hheader)
      have hhead : (r.tag :: (beBytes 4 r.body.length ++ frameCrc r.tag r.body)).length =
          headerLen := by simp [length_frameCrc, headerLen]
      have hframe : encodeRecord r =
          (r.tag :: (beBytes 4 r.body.length ++ frameCrc r.tag r.body)) ++ r.body := by
        simp [encodeRecord]
      rw [hframe, ← hhead, List.take_length_add_append, hhead, Nat.add_sub_cancel_left]
      simp
    rw [length_encodeRecord] at hk
    rw [hsplit, scanFrame_header (length_beBytes ..) (length_frameCrc ..), if_neg r.tag_ne_torn,
      h.length_lt, if_neg (Nat.not_lt.mpr h.capped), if_pos]
    rw [List.length_take]
    omega

/-- Whatever is split off is the frame of a readable record. -/
theorem scanFrame_eq_some {n : Nat} (h : scanFrame bs = .ok (some (r, n))) :
    r.Readable ∧ n = (encodeRecord r).length ∧ bs = encodeRecord r ++ bs.drop n := by
  by_cases hshort : bs.length < headerLen
  · rw [scanFrame_short hshort] at h
    cases h
  · obtain ⟨tag, len, crc, tail, hlen, hcrc, rfl⟩ := exists_header (Nat.not_lt.mp hshort)
    rw [scanFrame_header hlen hcrc] at h
    split at h
    · cases h
    · split at h
      · cases h
      · next hcap =>
        split at h
        · cases h
        · next htail =>
          split at h
          · cases h
          · next hmatch =>
            obtain ⟨r', hr', heq⟩ := Wire.map_eq_ok h
            cases heq
            obtain ⟨hfits, rfl, hbody⟩ := decodeBody_eq_ok.mp hr'
            have hn : r.body.length = ofBeBytes len := by
              rw [← hbody, List.length_take]
              omega
            have hframe : encodeRecord r = r.tag :: (len ++ (crc ++ r.body)) := by
              have hlen' : beBytes 4 (ofBeBytes len) = len := by
                rw [← hlen]
                exact beBytes_ofBeBytes len
              rw [encodeRecord, hn, hlen', ← not_not.mp hmatch, hbody]
            refine ⟨⟨hfits, by omega⟩, by rw [length_encodeRecord, hn], ?_⟩
            rw [drop_header hlen hcrc, hframe, ← hbody]
            simp only [List.cons_append, List.append_assoc, List.take_append_drop]

/-! ## The whole log -/

/-- The frames of the records, one after the other. -/
def encodeLog (records : List JournalRecord) : Bytes := records.flatMap encodeRecord

section

omit [KeyFormat]

theorem encodeLog_cons (r : JournalRecord) (records : List JournalRecord) :
    encodeLog (r :: records) = encodeRecord r ++ encodeLog records := rfl

theorem encodeLog_append (records records' : List JournalRecord) :
    encodeLog (records ++ records') = encodeLog records ++ encodeLog records' :=
  List.flatMap_append

theorem encodeLog_singleton (r : JournalRecord) : encodeLog [r] = encodeRecord r :=
  List.append_nil _

end

theorem scanFrame_pos {n : Nat} (h : scanFrame bs = .ok (some (r, n))) : 0 < n := by
  rw [(scanFrame_eq_some h).2.1, length_encodeRecord]
  exact Nat.add_pos_left (by decide) _

theorem scanLoop_fuel {fuel fuel' : Nat} (h : bs.length ≤ fuel)
    (h' : bs.length ≤ fuel') : scanLoop fuel bs = scanLoop fuel' bs := by
  induction fuel generalizing fuel' bs with
  | zero =>
    obtain rfl := List.length_eq_zero_iff.mp (Nat.le_zero.mp h)
    cases fuel' <;> rfl
  | succ fuel ih =>
    cases fuel' with
    | zero =>
      obtain rfl := List.length_eq_zero_iff.mp (Nat.le_zero.mp h')
      rfl
    | succ fuel' =>
      simp only [scanLoop]
      split
      · rfl
      · rfl
      · next r n hframe =>
        have hpos := scanFrame_pos hframe
        have hlen : (bs.drop n).length ≤ fuel ∧ (bs.drop n).length ≤ fuel' := by
          rw [List.length_drop]
          omega
        rw [ih hlen.1 hlen.2]

/-- Scanning stops where the front of the log is torn. -/
theorem scan_of_torn (h : scanFrame bs = .ok none) : scan bs = .ok ([], 0) := by
  cases bs with
  | nil => rfl
  | cons b bs => simp only [scan, List.length_cons, scanLoop, h]

theorem scan_of_error {e : LogError} (h : scanFrame bs = .error e) : scan bs = .error e := by
  cases bs with
  | nil => cases h
  | cons b bs => simp only [scan, List.length_cons, scanLoop, h]

/-- Scanning goes on behind a complete frame. -/
theorem scan_of_frame {n : Nat} (h : scanFrame bs = .ok (some (r, n))) :
    scan bs = (scan (bs.drop n)).map fun p => (r :: p.1, n + p.2) := by
  cases bs with
  | nil => cases h
  | cons b bs =>
    have hpos := scanFrame_pos h
    have hfuel : scanLoop bs.length ((b :: bs).drop n) = scan ((b :: bs).drop n) := by
      apply scanLoop_fuel
      · rw [List.length_drop, List.length_cons]
        omega
      · exact Nat.le_refl _
    rw [← hfuel]
    simp only [scan, List.length_cons, scanLoop, h]

variable {records : List JournalRecord}

/-- The frames of readable records are split off one by one. -/
theorem scan_append (h : ∀ r ∈ records, r.Readable) (tail : Bytes) :
    scan (encodeLog records ++ tail) =
      (scan tail).map fun p => (records ++ p.1, (encodeLog records).length + p.2) := by
  induction records with
  | nil =>
    rw [show encodeLog [] = [] from rfl, List.nil_append]
    cases scan tail with
    | error e => rfl
    | ok p => simp [Except.map]
  | cons r records ih =>
    have hframe := scanFrame_encodeRecord (h r List.mem_cons_self) (encodeLog records ++ tail)
    rw [encodeLog_cons, List.append_assoc, scan_of_frame hframe, List.drop_left,
      ih fun r' hr' => h r' (List.mem_cons_of_mem _ hr')]
    cases scan tail with
    | error e => rfl
    | ok p => simp [Except.map, Nat.add_assoc]

theorem scan_encodeLog (h : ∀ r ∈ records, r.Readable) :
    scan (encodeLog records) = .ok (records, (encodeLog records).length) := by
  have happend := scan_append h []
  rw [List.append_nil] at happend
  rw [happend, scan_of_torn (scanFrame_short (by decide))]
  simp [Except.map]

/-- Records that are read back are readable: the reader accepts nothing else. -/
theorem readable_of_scan {n : Nat}
    (h : scan (encodeLog records) = .ok (records, n)) : ∀ r ∈ records, r.Readable := by
  induction records generalizing n with
  | nil =>
    intro r hr
    cases hr
  | cons r records ih =>
    rw [encodeLog_cons] at h
    cases hframe : scanFrame (encodeRecord r ++ encodeLog records) with
    | error e =>
      rw [scan_of_error hframe] at h
      cases h
    | ok front =>
      cases front with
      | none =>
        rw [scan_of_torn hframe] at h
        cases h
      | some p =>
        obtain ⟨r', m⟩ := p
        obtain ⟨hreadable, rfl, -⟩ := scanFrame_eq_some hframe
        rw [scan_of_frame hframe] at h
        obtain ⟨⟨records', n'⟩, hscan, heq⟩ := Wire.map_eq_ok h
        simp only [Prod.mk.injEq, List.cons.injEq] at heq
        obtain ⟨⟨rfl, rfl⟩, -⟩ := heq
        rw [List.drop_left] at hscan
        intro r' hr'
        rcases List.mem_cons.mp hr' with rfl | hr'
        · exact hreadable
        · exact ih hscan r' hr'

end Frames

end P2P333.Transfer333
