import P2P333.Lib.Transition
import P2P333.Substrate.Wal.Scan

/-!
# The write-ahead log

`Wal` of `substrate/crates/wal/src/lib.rs` over a directory of segment files. A file is its bytes
and the number of them that are on stable storage; a segment's name is the pair of numbers that it
spells. Failures of the file system are not modelled, so no handle is ever poisoned.

`Live w dir entries` says that the directory reads back as `entries` and that the handle `w` stands
behind them. It is established by `create` and by `openDir` on any directory, and kept by appends
and syncs.

Results:
1. `live_create`, `live_openDir`, `Live.append`, `Live.sync`: the handle stays in step with the log.
2. `Live.reopen`: opening such a directory returns its entries, and changes nothing but what is on
   stable storage.
3. `reads_back_iff`: what the log accepts can be read back if and only if the metadata fits into
   one record, which `create` does not check.
-/

namespace P2P333.Substrate

open Lib

/-! ## Definitions -/

/-- A file `<seq>-<first>.wal`; its first `synced` bytes are on stable storage. -/
structure Segment where
  seq : Nat
  first : Nat
  bytes : Bytes
  synced : Nat
deriving DecidableEq

abbrev Dir := List Segment

structure Wal where
  metadata : Bytes
  tailOffset : Nat
  crc : UInt32
  segmentSeq : Nat
  nextSeq : Nat
  lastSynced : Nat
  dirty : Bool
  segmentSize : Nat
deriving DecidableEq

structure VerifyReport where
  segments : Nat
  entries : Nat
  firstSeq : Nat
  lastSeq : Nat
  tornTail : Bool
deriving DecidableEq

structure RepairReport where
  entries : Nat
  lastSeq : Nat
  truncated : Bool
deriving DecidableEq

/-- What the loop over the segments leaves: entries, checksum, and the scan of the tail. -/
structure Replay where
  entries : List Entry
  crc : UInt32
  validOff : Nat
  torn : Bool
deriving DecidableEq

def checkContiguous : Nat → List Segment → Except WalError Unit
  | _, [] => .ok ()
  | expected, s :: rest =>
    if expected ≥ 2 ^ 64 then .error .panic
    else if s.seq ≠ expected then .error (.segmentSeqGap expected s.seq)
    else checkContiguous (expected + 1) rest

/-- The segments in the order of their numbers, which must have no gap. -/
def listSegments (dir : Dir) : Except WalError (List Segment) :=
  match dir.insertionSort (fun s t => s.seq ≤ t.seq) with
  | [] => .error .notAWal
  | s :: rest =>
    match checkContiguous s.seq (s :: rest) with
    | .error e => .error e
    | .ok () => .ok (s :: rest)

/-- `fdatasync` of one file. -/
def Segment.sync (s : Segment) : Segment := { s with synced := s.bytes.length }

def Segment.write (buf : Bytes) (s : Segment) : Segment := { s with bytes := s.bytes ++ buf }

/-- `set_len` and `sync_all`. -/
def Segment.truncate (len : Nat) (s : Segment) : Segment :=
  { s with bytes := s.bytes.take len, synced := len }

/-- The number behind the last entry. -/
def nextSeqAfter (entries : List Entry) : Nat :=
  match entries.getLast? with
  | none => 1
  | some e => e.seq + 1

/-- Delete the oldest segments while the name of the next one says that all their entries are
covered; at most `budget` of them. The tail is never deleted. -/
def releaseLoop (upto : Nat) : Nat → List Segment → List Segment
  | budget + 1, s :: next :: rest =>
    if next.first > min (upto + 1) (2 ^ 64 - 1) then s :: next :: rest
    else releaseLoop upto budget (next :: rest)
  | _, segs => segs

section Handle

variable [Crc32c]

/-- The loop over the segments, of `open` and of `scan_all`. -/
def scanAll (metadata : Bytes) : Nat → UInt32 → List Entry → List Segment → Except WalError Replay
  | _, crc, entries, [] => .ok ⟨entries, crc, 0, false⟩
  | i, crc, entries, [s] =>
    match scanSegment s.bytes i true metadata crc entries with
    | .error e => .error e
    | .ok (scan, crc, entries) => .ok ⟨entries, crc, scan.validOff, scan.torn⟩
  | i, crc, entries, s :: t :: rest =>
    match scanSegment s.bytes i false metadata crc entries with
    | .error e => .error e
    | .ok (_, crc, entries) => scanAll metadata (i + 1) crc entries (t :: rest)

namespace Wal

def create (metadata : Bytes) (segmentSize : Nat) : Wal × Dir :=
  let buf := header metadata 0
  (⟨metadata, buf.length, nextCrc 0 .metadata metadata, 0, 1, 0, false, segmentSize⟩,
    [⟨0, 0, buf, buf.length⟩])

def openDir (dir : Dir) (metadata : Bytes) (segmentSize : Nat) :
    Except WalError (List Entry × Wal × Dir) :=
  match listSegments dir with
  | .error e => .error e
  | .ok segs =>
    match scanAll metadata 0 0 [] segs with
    | .error e => .error e
    | .ok r =>
      if nextSeqAfter r.entries ≥ 2 ^ 64 then .error .panic
      else
        let nextSeq := nextSeqAfter r.entries
        .ok (r.entries,
          ⟨metadata, r.validOff, r.crc, (segs.getLast?.map Segment.seq).getD 0, nextSeq,
            nextSeq - 1, false, segmentSize⟩,
          segs.modifyLast (Segment.truncate r.validOff))

/-- The new segment becomes visible only with a complete header on stable storage. -/
def cut (w : Wal) (dir : Dir) : Except WalError (Wal × Dir) :=
  if w.segmentSeq + 1 ≥ 2 ^ 64 then .error .panic
  else
    let buf := header w.metadata w.crc
    .ok ({ w with
        dirty := false
        lastSynced := w.nextSeq - 1
        crc := nextCrc w.crc .metadata w.metadata
        tailOffset := buf.length
        segmentSeq := w.segmentSeq + 1 },
      dir.modifyLast Segment.sync ++ [⟨w.segmentSeq + 1, w.nextSeq, buf, buf.length⟩])

/-- The first half of `append_inner`: the record is written, and not yet on stable storage. -/
def writeEntry (w : Wal) (dir : Dir) (payload : Bytes) : Wal × Dir :=
  let buf := entryFrame w.crc w.nextSeq payload
  ({ w with
      crc := entryCrc w.crc w.nextSeq payload
      tailOffset := w.tailOffset + buf.length
      nextSeq := w.nextSeq + 1
      dirty := true },
    dir.modifyLast (Segment.write buf))

def append (w : Wal) (dir : Dir) (payload : Bytes) : Except WalError (Nat × Wal × Dir) :=
  if payload.length > maxPayload then .error (.recordTooLarge payload.length maxPayload)
  else if w.nextSeq + 1 ≥ 2 ^ 64 then .error .panic
  else
    let written := w.writeEntry dir payload
    if written.1.tailOffset ≥ w.segmentSize then
      match written.1.cut written.2 with
      | .error e => .error e
      | .ok r => .ok (w.nextSeq, r)
    else .ok (w.nextSeq, written)

/-- The receipt is the number of the last record on stable storage. -/
def sync (w : Wal) (dir : Dir) : Nat × Wal × Dir :=
  if w.dirty then
    (w.nextSeq - 1, { w with dirty := false, lastSynced := w.nextSeq - 1 },
      dir.modifyLast Segment.sync)
  else (w.lastSynced, w, dir)

/-- `budget` is for a machine that stops between two deletions. -/
def releaseOlder (dir : Dir) (upto budget : Nat) : Except WalError Dir :=
  match listSegments dir with
  | .error e => .error e
  | .ok segs => .ok (releaseLoop upto budget segs)

def verify (dir : Dir) (metadata : Bytes) : Except WalError VerifyReport :=
  match listSegments dir with
  | .error e => .error e
  | .ok segs =>
    match scanAll metadata 0 0 [] segs with
    | .error e => .error e
    | .ok r =>
      .ok ⟨segs.length, r.entries.length, (r.entries.head?.map Entry.seq).getD 0,
        (r.entries.getLast?.map Entry.seq).getD 0, r.torn⟩

/-- Classify first, then open and close. The backup is left out. -/
def repair (dir : Dir) (metadata : Bytes) (segmentSize : Nat) :
    Except WalError (RepairReport × Dir) :=
  match verify dir metadata with
  | .error e => .error e
  | .ok report =>
    match openDir dir metadata segmentSize with
    | .error e => .error e
    | .ok (entries, w, dir) =>
      .ok (⟨entries.length, (w.sync dir).1, report.tornTail⟩, (w.sync dir).2.2)

end Wal

/-! ## Listing the segments -/

/-- Numbered without a gap, in order. -/
def Contiguous (segs : List Segment) : Prop :=
  ∃ base, segs.map Segment.seq = List.range' base segs.length ∧ base + segs.length ≤ 2 ^ 64

variable {segs : List Segment}

section

omit [Crc32c]

theorem checkContiguous_eq_ok {base : Nat} (hbase : base ≤ 2 ^ 64) :
    checkContiguous base segs = .ok () ↔
      segs.map Segment.seq = List.range' base segs.length ∧ base + segs.length ≤ 2 ^ 64 := by
  induction segs generalizing base with
  | nil => simpa [checkContiguous] using hbase
  | cons s rest ih =>
    rw [checkContiguous, List.map_cons, List.length_cons, List.range'_succ, List.cons.injEq]
    split
    · next h => exact ⟨fun h' => (by cases h'), fun h' => (by omega)⟩
    split
    · next h => exact ⟨fun h' => (by cases h'), fun h' => absurd h'.1.1 h⟩
    next hseq =>
    rw [ih (by omega), not_not.mp hseq, Nat.add_right_comm, Nat.add_assoc]
    simp only [true_and]

theorem Contiguous.pairwise (h : Contiguous segs) : segs.Pairwise fun s t => s.seq ≤ t.seq := by
  obtain ⟨base, hseq, -⟩ := h
  have : (List.range' base segs.length).Pairwise (· < ·) := List.pairwise_lt_range'
  rw [← hseq, List.pairwise_map] at this
  exact this.imp Nat.le_of_lt

theorem Contiguous.listSegments (h : Contiguous segs) (hne : segs ≠ []) :
    listSegments segs = .ok segs := by
  have hsort := h.pairwise.insertionSort_eq
  obtain ⟨base, hseq, hbase⟩ := h
  unfold P2P333.Substrate.listSegments
  rw [hsort]
  cases segs with
  | nil => exact absurd rfl hne
  | cons s rest =>
    have hs : s.seq = base := by
      rw [List.map_cons, List.length_cons, List.range'_succ] at hseq
      exact (List.cons.inj hseq).1
    dsimp only
    rw [hs, (checkContiguous_eq_ok (by omega)).mpr ⟨hseq, hbase⟩]

theorem contiguous_of_listSegments {dir : List Segment} (h : listSegments dir = .ok segs) :
    Contiguous segs ∧ segs ≠ [] := by
  unfold listSegments at h
  split at h
  · cases h
  next s rest _ =>
  split at h
  · cases h
  next hcheck =>
  cases h
  refine ⟨⟨s.seq, ?_⟩, List.cons_ne_nil _ _⟩
  by_cases hs : s.seq ≤ 2 ^ 64
  · exact (checkContiguous_eq_ok hs).mp hcheck
  · rw [checkContiguous, if_pos (by omega)] at hcheck
    cases hcheck

theorem Contiguous.congr {segs' : List Segment} (h : Contiguous segs)
    (hseq : segs'.map Segment.seq = segs.map Segment.seq) : Contiguous segs' := by
  have hlen : segs'.length = segs.length := by simpa using congrArg List.length hseq
  unfold Contiguous
  rw [hseq, hlen]
  exact h

theorem Contiguous.concat {init : List Segment} {tail new : Segment}
    (h : Contiguous (init ++ [tail])) (hnew : new.seq = tail.seq + 1) (hlt : new.seq < 2 ^ 64) :
    Contiguous (init ++ [tail] ++ [new]) := by
  obtain ⟨base, hseq, -⟩ := h
  have htail : tail.seq = base + init.length := by
    rw [List.map_append, List.length_append, List.length_singleton, List.range'_concat] at hseq
    simpa using (List.append_inj' hseq rfl).2
  have hlen : (init ++ [tail] ++ [new]).length = (init ++ [tail]).length + 1 :=
    List.length_append
  refine ⟨base, ?_, ?_⟩
  · rw [List.map_append, hseq, hlen, List.range'_concat]
    simp [hnew, htail, Nat.add_assoc]
  · simp only [List.length_append, List.length_singleton]
    omega

end

/-! ## Replaying the segments one by one -/

/-- The loop over segments none of which is the tail. -/
def scanSealed (metadata : Bytes) :
    Nat → UInt32 → List Entry → List Segment → Except WalError (UInt32 × List Entry)
  | _, crc, entries, [] => .ok (crc, entries)
  | i, crc, entries, s :: rest =>
    match scanSegment s.bytes i false metadata crc entries with
    | .error e => .error e
    | .ok (_, crc, entries) => scanSealed metadata (i + 1) crc entries rest

/-- The replay of a file and of those behind it. -/
theorem scanAll_cons (metadata : Bytes) (i : Nat) (crc : UInt32) (entries : List Entry)
    (s : Segment) (rest : List Segment) :
    scanAll metadata i crc entries (s :: rest) =
      match scanSegment s.bytes i rest.isEmpty metadata crc entries with
      | .error e => .error e
      | .ok (scan, crc, entries) =>
        if rest.isEmpty then .ok ⟨entries, crc, scan.validOff, scan.torn⟩
        else scanAll metadata (i + 1) crc entries rest := by
  cases rest with
  | nil => rfl
  | cons t rest => rfl

theorem scanAll_append (metadata : Bytes) (i : Nat) (crc : UInt32) (entries : List Entry)
    (init : List Segment) (s : Segment) (rest : List Segment) :
    scanAll metadata i crc entries (init ++ s :: rest) =
      match scanSealed metadata i crc entries init with
      | .error e => .error e
      | .ok (crc, entries) => scanAll metadata (i + init.length) crc entries (s :: rest) := by
  induction init generalizing i crc entries with
  | nil => rfl
  | cons t init ih =>
    obtain ⟨u, us, hus⟩ : ∃ u us, init ++ s :: rest = u :: us := by
      cases init with
      | nil => exact ⟨s, rest, rfl⟩
      | cons u us => exact ⟨u, us ++ s :: rest, rfl⟩
    rw [List.cons_append, hus, scanAll, scanSealed]
    cases scanSegment t.bytes i false metadata crc entries with
    | error e => rfl
    | ok r =>
      dsimp only
      rw [← hus, ih, List.length_cons, Nat.add_assoc, Nat.add_comm 1]

theorem scanAll_concat (metadata : Bytes) (i : Nat) (crc : UInt32) (entries : List Entry)
    (init : List Segment) (tail : Segment) :
    scanAll metadata i crc entries (init ++ [tail]) =
      match scanSealed metadata i crc entries init with
      | .error e => .error e
      | .ok (crc, entries) =>
        match scanSegment tail.bytes (i + init.length) true metadata crc entries with
        | .error e => .error e
        | .ok (scan, crc, entries) => .ok ⟨entries, crc, scan.validOff, scan.torn⟩ :=
  scanAll_append ..

theorem scanSealed_concat (metadata : Bytes) (i : Nat) (crc : UInt32) (entries : List Entry)
    (init : List Segment) (s : Segment) :
    scanSealed metadata i crc entries (init ++ [s]) =
      match scanSealed metadata i crc entries init with
      | .error e => .error e
      | .ok (crc, entries) =>
        match scanSegment s.bytes (i + init.length) false metadata crc entries with
        | .error e => .error e
        | .ok (_, crc, entries) => .ok (crc, entries) := by
  induction init generalizing i crc entries with
  | nil => rfl
  | cons t rest ih =>
    rw [List.cons_append, scanSealed, scanSealed]
    cases scanSegment t.bytes i false metadata crc entries with
    | error e => rfl
    | ok r =>
      dsimp only
      rw [ih, List.length_cons, Nat.add_assoc, Nat.add_comm 1]

variable {metadata : Bytes}

/-- A file that is accepted as a whole. -/
theorem scanSegment_accepts {file : Bytes} {i : Nat} {crc : UInt32}
    {entries : List Entry} {st : ScanState} (isLast : Bool)
    (h : Accepts metadata i ⟨crc, entries, 0, true⟩ file st) :
    scanSegment file i isLast metadata crc entries =
      .ok (⟨file.length, false⟩, st.crc, st.entries) := by
  have hscan : scanFrom metadata i isLast ⟨crc, entries, 0, true⟩ file = .ok (st, .clean) := by
    have hrest : scanFrom metadata i isLast _ (file ++ []) = _ := scanFrom_accepts h []
    rwa [List.append_nil, scanFrom_nil] at hrest
  have hoff := h.validOff
  rw [Nat.zero_add] at hoff
  unfold scanSegment
  rw [hscan]
  dsimp only [classify]
  rw [hoff]

/-- What a scan kept was accepted. -/
theorem accepts_of_scanSegment {file : Bytes} {i : Nat} {isLast : Bool} {crc crc' : UInt32}
    {entries entries' : List Entry} {scan : SegScan}
    (h : scanSegment file i isLast metadata crc entries = .ok (scan, crc', entries')) :
    scan.validOff ≤ file.length ∧ ∃ first,
      Accepts metadata i ⟨crc, entries, 0, true⟩ (file.take scan.validOff)
        ⟨crc', entries', scan.validOff, first⟩ := by
  unfold scanSegment at h
  split at h
  · cases h
  next st e hscan =>
  split at h
  · cases h
  cases h
  obtain ⟨hacc, hle, -⟩ := accepts_of_scanFrom hscan
  exact ⟨hle, st.firstRecord, hacc⟩

/-- Opening a directory whose sealed segments and tail replay. -/
theorem openDir_eq {init : List Segment} {tail : Segment} {c c' : UInt32}
    {es es' : List Entry} {scan : SegScan} (hcont : Contiguous (init ++ [tail]))
    (hsealed : scanSealed metadata 0 0 [] init = .ok (c, es))
    (htail : scanSegment tail.bytes init.length true metadata c es = .ok (scan, c', es'))
    (hbound : nextSeqAfter es' < 2 ^ 64) (segmentSize : Nat) :
    Wal.openDir (init ++ [tail]) metadata segmentSize =
      .ok (es', ⟨metadata, scan.validOff, c', tail.seq, nextSeqAfter es', nextSeqAfter es' - 1,
        false, segmentSize⟩, init ++ [tail.truncate scan.validOff]) := by
  have hscan : scanAll metadata 0 0 [] (init ++ [tail]) =
      .ok ⟨es', c', scan.validOff, scan.torn⟩ := by
    rw [scanAll_concat, hsealed]
    dsimp only
    rw [Nat.zero_add, htail]
  unfold Wal.openDir
  rw [hcont.listSegments (by simp)]
  dsimp only
  rw [hscan]
  dsimp only
  rw [if_neg (Nat.not_le.mpr hbound), List.modifyLast_concat, List.getLast?_concat]
  rfl

/-! ## A handle and its directory -/

omit [Crc32c] in
theorem endsBefore_nextSeqAfter (entries : List Entry) :
    EndsBefore entries (nextSeqAfter entries) := by
  intro e he
  unfold nextSeqAfter
  rw [he]

omit [Crc32c] in
theorem nextSeqAfter_concat (entries : List Entry) (e : Entry) :
    nextSeqAfter (entries ++ [e]) = e.seq + 1 := by
  unfold nextSeqAfter
  rw [List.getLast?_concat]

/-- The directory reads back as `entries`: its sealed segments up to the checksum `c` and the
entries `es`, its tail from there to its end, where the handle stands. -/
structure LiveAt (w : Wal) (dir : Dir) (entries : List Entry) (init : List Segment)
    (tail : Segment) (c : UInt32) (es : List Entry) : Prop where
  dir_eq : dir = init ++ [tail]
  contiguous : Contiguous dir
  sealed : scanSealed w.metadata 0 0 [] init = .ok (c, es)
  accepts : ∃ first, Accepts w.metadata init.length ⟨c, es, 0, true⟩ tail.bytes
    ⟨w.crc, entries, tail.bytes.length, first⟩
  tailOffset : w.tailOffset = tail.bytes.length
  segmentSeq : w.segmentSeq = tail.seq
  nextSeq : w.nextSeq = nextSeqAfter entries
  bound : w.nextSeq < 2 ^ 64

def Live (w : Wal) (dir : Dir) (entries : List Entry) : Prop :=
  ∃ init tail c es, LiveAt w dir entries init tail c es

theorem live_create (hfit : MetadataFits metadata) (segmentSize : Nat) :
    Live (Wal.create metadata segmentSize).1 (Wal.create metadata segmentSize).2 [] := by
  refine ⟨[], ⟨0, 0, header metadata 0, (header metadata 0).length⟩, 0, [], ?_⟩
  exact
    { dir_eq := rfl
      contiguous := ⟨0, rfl, by simp [Wal.create]⟩
      sealed := rfl
      accepts := ⟨false, accepts_header hfit (.inl rfl)⟩
      tailOffset := rfl
      segmentSeq := rfl
      nextSeq := rfl
      bound := by simp [Wal.create] }

variable {segmentSize : Nat}

/-- On any directory that can be opened. -/
theorem live_openDir {dir dir' : Dir} {entries : List Entry} {w : Wal}
    (h : Wal.openDir dir metadata segmentSize = .ok (entries, w, dir')) :
    Live w dir' entries ∧ w.metadata = metadata := by
  unfold Wal.openDir at h
  split at h
  · cases h
  next segs hsegs =>
  split at h
  · cases h
  next r hscan =>
  split at h
  · cases h
  next hbound =>
  cases h
  obtain ⟨hcont, hne⟩ := contiguous_of_listSegments hsegs
  obtain ⟨init, tail, rfl⟩ : ∃ init tail, segs = init ++ [tail] :=
    ⟨_, _, (List.dropLast_concat_getLast hne).symm⟩
  rw [scanAll_concat] at hscan
  split at hscan
  · cases hscan
  next c es hsealed =>
  split at hscan
  · cases hscan
  next scan c' es' htail =>
  cases hscan
  rw [Nat.zero_add] at htail
  obtain ⟨hle, first, hacc⟩ := accepts_of_scanSegment htail
  have hlen : (tail.bytes.take scan.validOff).length = scan.validOff := List.length_take_of_le hle
  refine ⟨⟨init, tail.truncate scan.validOff, c, es, ?_⟩, rfl⟩
  exact
    { dir_eq := List.modifyLast_concat ..
      contiguous := hcont.congr (by simp [List.modifyLast_concat, Segment.truncate])
      sealed := hsealed
      accepts := ⟨first, by simpa only [Segment.truncate, hlen] using hacc⟩
      tailOffset := hlen.symm
      segmentSeq := by simp [Segment.truncate]
      nextSeq := rfl
      bound := Nat.not_le.mp hbound }

variable {w w' : Wal} {dir dir' : Dir} {entries : List Entry}

theorem Live.writeEntry (h : Live w dir entries) {payload : Bytes}
    (hfit : payload.length ≤ maxPayload) (hbound : w.nextSeq + 1 < 2 ^ 64) :
    Live (w.writeEntry dir payload).1 (w.writeEntry dir payload).2
      (entries ++ [⟨w.nextSeq, payload⟩]) := by
  obtain ⟨init, tail, c, es, h⟩ := h
  obtain ⟨first, hacc⟩ := h.accepts
  have hends : EndsBefore entries w.nextSeq := h.nextSeq ▸ endsBefore_nextSeqAfter entries
  have hnew := hacc.append (accepts_entryFrame (by omega) hfit hends)
  have hdir : (w.writeEntry dir payload).2 =
      init ++ [tail.write (entryFrame w.crc w.nextSeq payload)] := by
    unfold Wal.writeEntry
    rw [h.dir_eq]
    exact List.modifyLast_concat ..
  refine ⟨init, tail.write (entryFrame w.crc w.nextSeq payload), c, es, ?_⟩
  exact
    { dir_eq := hdir
      contiguous := h.contiguous.congr (by rw [hdir, h.dir_eq]; simp [Segment.write])
      sealed := h.sealed
      accepts := ⟨false, by
        simpa only [Wal.writeEntry, Segment.write, List.length_append] using hnew⟩
      tailOffset := by simp only [Wal.writeEntry, Segment.write, List.length_append, h.tailOffset]
      segmentSeq := h.segmentSeq
      nextSeq := by
        show w.nextSeq + 1 = _
        rw [nextSeqAfter_concat]
      bound := hbound }

theorem Live.cut (h : Live w dir entries) (hfit : MetadataFits w.metadata)
    (hcut : w.cut dir = .ok (w', dir')) : Live w' dir' entries := by
  obtain ⟨init, tail, c, es, h⟩ := h
  obtain ⟨first, hacc⟩ := h.accepts
  unfold Wal.cut at hcut
  split at hcut
  · cases hcut
  next hseq =>
  cases hcut
  have hsealed : scanSealed w.metadata 0 0 [] (init ++ [tail.sync]) = .ok (w.crc, entries) := by
    rw [scanSealed_concat, h.sealed]
    dsimp only
    rw [Nat.zero_add, show tail.sync.bytes = tail.bytes from rfl, scanSegment_accepts false hacc]
  refine ⟨init ++ [tail.sync], ⟨w.segmentSeq + 1, w.nextSeq, header w.metadata w.crc,
    (header w.metadata w.crc).length⟩, w.crc, entries, ?_⟩
  exact
    { dir_eq := by rw [h.dir_eq, List.modifyLast_concat]
      contiguous := by
        rw [h.dir_eq, List.modifyLast_concat]
        refine Contiguous.concat (h.contiguous.congr (by rw [h.dir_eq]; simp [Segment.sync])) ?_ ?_
        · exact congrArg (· + 1) h.segmentSeq
        · exact Nat.not_le.mp hseq
      sealed := hsealed
      accepts := ⟨false, accepts_header hfit (.inr rfl)⟩
      tailOffset := rfl
      segmentSeq := rfl
      nextSeq := h.nextSeq
      bound := h.bound }

/-- An accepted payload is the next entry. -/
theorem Live.append (h : Live w dir entries) (hfit : MetadataFits w.metadata) {payload : Bytes}
    {seq : Nat} (happ : w.append dir payload = .ok (seq, w', dir')) :
    Live w' dir' (entries ++ [⟨nextSeqAfter entries, payload⟩]) ∧ w'.metadata = w.metadata ∧
      seq = nextSeqAfter entries := by
  have hnext : w.nextSeq = nextSeqAfter entries := by
    obtain ⟨init, tail, c, es, h⟩ := h
    exact h.nextSeq
  unfold Wal.append at happ
  split at happ
  · cases happ
  next hpayload =>
  split at happ
  · cases happ
  next hbound =>
  have hwritten := h.writeEntry (Nat.not_lt.mp hpayload) (Nat.not_le.mp hbound)
  rw [← hnext]
  dsimp only at happ
  split at happ
  · split at happ
    · cases happ
    next hcut =>
    cases happ
    refine ⟨hwritten.cut hfit hcut, ?_, rfl⟩
    unfold Wal.cut at hcut
    split at hcut
    · cases hcut
    · cases hcut
      rfl
  · cases happ
    exact ⟨hwritten, rfl, rfl⟩

theorem Live.sync (h : Live w dir entries) : Live (w.sync dir).2.1 (w.sync dir).2.2 entries := by
  unfold Wal.sync
  split
  · obtain ⟨init, tail, c, es, h⟩ := h
    refine ⟨init, tail.sync, c, es, ?_⟩
    exact
      { h with
        dir_eq := by rw [h.dir_eq, List.modifyLast_concat]
        contiguous := h.contiguous.congr (by
          rw [h.dir_eq, List.modifyLast_concat]
          simp [Segment.sync]) }
  · exact h

omit [Crc32c] in
theorem sync_metadata (w : Wal) (dir : Dir) : (w.sync dir).2.1.metadata = w.metadata := by
  unfold Wal.sync
  split <;> rfl

theorem Live.reopen (h : Live w dir entries) (segmentSize : Nat) :
    Wal.openDir dir w.metadata segmentSize =
      .ok (entries, ⟨w.metadata, w.tailOffset, w.crc, w.segmentSeq, w.nextSeq, w.nextSeq - 1, false,
        segmentSize⟩, dir.modifyLast Segment.sync) := by
  obtain ⟨init, tail, c, es, h⟩ := h
  obtain ⟨first, hacc⟩ := h.accepts
  have hbound := h.bound
  have hcont := h.contiguous
  rw [h.nextSeq] at hbound
  rw [h.dir_eq] at hcont ⊢
  rw [openDir_eq hcont h.sealed (scanSegment_accepts true hacc) hbound, h.tailOffset, h.segmentSeq,
    h.nextSeq, List.modifyLast_concat]
  simp [Segment.truncate, Segment.sync]

/-! ## Reading back what was accepted -/

/-- The payloads are appended one after the other; all are accepted, with the numbers returned. -/
def appendAll (w : Wal) (dir : Dir) : List Bytes → Except WalError (List Nat × Wal × Dir)
  | [] => .ok ([], w, dir)
  | p :: ps =>
    match w.append dir p with
    | .error e => .error e
    | .ok (seq, w', dir') =>
      match appendAll w' dir' ps with
      | .error e => .error e
      | .ok (seqs, r) => .ok (seq :: seqs, r)

theorem Live.appendAll (h : Live w dir entries) (hfit : MetadataFits w.metadata) {ps : List Bytes}
    {seqs : List Nat} (happ : appendAll w dir ps = .ok (seqs, w', dir')) :
    Live w' dir' (entries ++ numbered (nextSeqAfter entries) ps) ∧ w'.metadata = w.metadata := by
  induction ps generalizing w dir entries seqs with
  | nil =>
    cases happ
    simpa [numbered] using h
  | cons p ps ih =>
    rw [P2P333.Substrate.appendAll] at happ
    split at happ
    · cases happ
    next seq w1 dir1 h1 =>
    split at happ
    · cases happ
    next hrest =>
    cases happ
    obtain ⟨hlive, hmeta, -⟩ := h.append hfit h1
    obtain ⟨hlive', hmeta'⟩ := ih hlive (hmeta ▸ hfit) hrest
    rw [nextSeqAfter_concat] at hlive'
    refine ⟨?_, hmeta'.trans hmeta⟩
    simpa [numbered] using hlive'

/-- A log in use: the handle, the directory and the payloads that were accepted since `create`. -/
structure Session where
  wal : Wal
  dir : Dir
  accepted : List Bytes
deriving DecidableEq

/-- The calls of a session. -/
inductive SessionOp where
  | append (payload : Bytes)
  | reopen (segmentSize : Nat)
deriving DecidableEq

namespace Session

def start (metadata : Bytes) (segmentSize : Nat) : Session :=
  ⟨(Wal.create metadata segmentSize).1, (Wal.create metadata segmentSize).2, []⟩

/-- Close the log and open it again. -/
def reopened (s : Session) (segmentSize : Nat) : Except WalError (List Entry × Wal × Dir) :=
  Wal.openDir (s.wal.sync s.dir).2.2 s.wal.metadata segmentSize

/-- A payload that is refused changes nothing. -/
def step (s : Session) : SessionOp → Option Session
  | .append payload =>
    match s.wal.append s.dir payload with
    | .error (.recordTooLarge _ _) => some s
    | .error _ => none
    | .ok (_, w, dir) => some ⟨w, dir, s.accepted ++ [payload]⟩
  | .reopen segmentSize =>
    match s.reopened segmentSize with
    | .error _ => none
    | .ok (_, w, dir) => some { s with wal := w, dir }

end Session

section

omit [Crc32c]

/-- Numbered from one on. -/
theorem numbered_concat (seq : Nat) (ps : List Bytes) (p : Bytes) :
    numbered seq (ps ++ [p]) = numbered seq ps ++ [⟨seq + ps.length, p⟩] := by
  induction ps generalizing seq with
  | nil => rfl
  | cons q ps ih =>
    simp only [List.cons_append, numbered, ih, List.length_cons]
    rw [Nat.add_assoc, Nat.add_comm 1]

theorem nextSeqAfter_numbered (seq : Nat) (ps : List Bytes) :
    nextSeqAfter (numbered seq ps) = if ps = [] then 1 else seq + ps.length := by
  cases ps using List.reverseRecOn with
  | nil => rfl
  | append_singleton ps p =>
    rw [numbered_concat, nextSeqAfter_concat, List.length_append, if_neg (by simp)]
    rfl

theorem nextSeqAfter_numbered_one (ps : List Bytes) :
    nextSeqAfter (numbered 1 ps) = 1 + ps.length := by
  rw [nextSeqAfter_numbered]
  split
  · next h => rw [h]; rfl
  · rfl

end

theorem session_live (hfit : MetadataFits metadata) {s : Session}
    (h : Reachable Session.step (fun _ _ => True) (Session.start metadata segmentSize) s) :
    Live s.wal s.dir (numbered 1 s.accepted) ∧ s.wal.metadata = metadata := by
  refine Reachable.invariant (I := fun s : Session =>
    Live s.wal s.dir (numbered 1 s.accepted) ∧ s.wal.metadata = metadata)
    ⟨live_create hfit segmentSize, rfl⟩ ?_ h
  rintro s op s' - ⟨hlive, hmeta⟩ - hstep
  cases op with
  | append payload =>
    unfold Session.step at hstep
    dsimp only at hstep
    split at hstep
    · cases hstep
      exact ⟨hlive, hmeta⟩
    · cases hstep
    · next happ =>
      cases hstep
      obtain ⟨hlive', hmeta', -⟩ := hlive.append (hmeta ▸ hfit) happ
      rw [nextSeqAfter_numbered_one, ← numbered_concat] at hlive'
      exact ⟨hlive', hmeta'.trans hmeta⟩
  | reopen segmentSize =>
    unfold Session.step at hstep
    dsimp only at hstep
    split at hstep
    · cases hstep
    · next hopen =>
      cases hstep
      have hreopen := hlive.sync.reopen segmentSize
      rw [sync_metadata] at hreopen
      unfold Session.reopened at hopen
      obtain ⟨hlive', hmeta'⟩ := live_openDir hopen
      rw [hreopen] at hopen
      cases hopen
      exact ⟨hlive', hmeta'.trans hmeta⟩

/-- What was accepted since `create` comes back, in order and numbered from one on, each time the
log is closed and opened. -/
def SessionsReadBack (metadata : Bytes) : Prop :=
  ∀ segmentSize s, Reachable Session.step (fun _ _ => True) (Session.start metadata segmentSize) s →
    ∀ segmentSize', ∃ w dir, s.reopened segmentSize' = .ok (numbered 1 s.accepted, w, dir)

/-- On any directory that can be opened, the appended payloads come back behind its entries. -/
def AppendsReadBack (metadata : Bytes) : Prop :=
  ∀ dir segmentSize entries w dir', Wal.openDir dir metadata segmentSize = .ok (entries, w, dir') →
    ∀ ps seqs w' dir'', appendAll w dir' ps = .ok (seqs, w', dir'') →
      ∀ segmentSize', ∃ w'' dir''', Wal.openDir (w'.sync dir'').2.2 metadata segmentSize' =
        .ok (entries ++ numbered (nextSeqAfter entries) ps, w'', dir''')

theorem sessionsReadBack_of_fits (hfit : MetadataFits metadata) : SessionsReadBack metadata := by
  intro segmentSize s hs segmentSize'
  obtain ⟨hlive, hmeta⟩ := session_live hfit hs
  have hreopen := hlive.sync.reopen segmentSize'
  rw [sync_metadata] at hreopen
  exact ⟨_, _, hreopen⟩

theorem appendsReadBack_of_fits (hfit : MetadataFits metadata) : AppendsReadBack metadata := by
  intro dir segmentSize entries w dir' hopen ps seqs w' dir'' happ segmentSize'
  obtain ⟨hlive, hmeta⟩ := live_openDir hopen
  obtain ⟨hlive', hmeta'⟩ := hlive.appendAll (hmeta ▸ hfit) happ
  have hreopen := hlive'.sync.reopen segmentSize'
  rw [sync_metadata, hmeta', hmeta] at hreopen
  exact ⟨_, _, hreopen⟩

/-- The first record, in a segment that it does not fill. -/
theorem exists_append_first (metadata : Bytes) :
    ∃ segmentSize, (Wal.create metadata segmentSize).1.append
        (Wal.create metadata segmentSize).2 [] =
      .ok (1, (Wal.create metadata segmentSize).1.writeEntry
        (Wal.create metadata segmentSize).2 []) := by
  refine ⟨(header metadata 0).length +
    (entryFrame (nextCrc 0 .metadata metadata) 1 []).length + 1, ?_⟩
  unfold Wal.append
  rw [if_neg (by simp), if_neg (by simp [Wal.create])]
  exact if_neg (Nat.not_le.mpr (Nat.lt_succ_self _))

/-- Files behind headers with too long a metadata have no entries. -/
theorem openDir_headers (hfit : ¬ MetadataFits metadata)
    (hdir : ∀ s ∈ dir, ∃ crc rest, s.bytes = header metadata crc ++ rest)
    (h : Wal.openDir dir metadata segmentSize = .ok (entries, w, dir')) : entries = [] := by
  have hscan : ∀ (segs : List Segment), (∀ s ∈ segs, s ∈ dir) → ∀ i c r,
      scanAll metadata i c [] segs = .ok r → r.entries = [] := by
    intro segs
    induction segs with
    | nil =>
      intro _ i c r hr
      cases hr
      rfl
    | cons s segs ih =>
      intro hsub i c r hr
      obtain ⟨crc, rest, hs⟩ := hdir s (hsub s List.mem_cons_self)
      rw [scanAll_cons] at hr
      split at hr
      · cases hr
      next scan c' es' hseg =>
      unfold scanSegment at hseg
      split at hseg
      · cases hseg
      next st e hfrom =>
      split at hseg
      · cases hseg
      cases hseg
      rw [hs] at hfrom
      -- The reader stops at the header.
      rw [scanFrom_oversize hfit hfrom] at hr
      split at hr
      · cases hr
        rfl
      · exact ih (fun t ht => hsub t (List.mem_cons_of_mem _ ht)) _ _ _ hr
  unfold Wal.openDir at h
  split at h
  · cases h
  next segs hsegs =>
  split at h
  · cases h
  next r hr =>
  split at h
  · cases h
  cases h
  refine hscan segs (fun s hs => ?_) _ _ _ hr
  unfold listSegments at hsegs
  split at hsegs
  · cases hsegs
  next t rest hsort =>
  split at hsegs
  · cases hsegs
  cases hsegs
  rw [← hsort] at hs
  exact (List.mem_insertionSort _).mp hs

theorem openDir_oversize (hfit : ¬ MetadataFits metadata) {s : Segment}
    {crc : UInt32} {rest : Bytes} (hs : s.bytes = header metadata crc ++ rest)
    (h : Wal.openDir [s] metadata segmentSize = .ok (entries, w, dir)) : entries = [] := by
  refine openDir_headers hfit (fun t ht => ?_) h
  rw [List.mem_singleton.mp ht]
  exact ⟨crc, rest, hs⟩

/-- A log with too long a metadata is created and takes a record, and does not give it back. -/
theorem not_sessionsReadBack {metadata : Bytes} (hfit : ¬ MetadataFits metadata) :
    ¬ SessionsReadBack metadata := by
  intro h
  obtain ⟨size, happ⟩ := exists_append_first metadata
  have hstep : Session.step (Session.start metadata size) (.append []) =
      some ⟨((Wal.create metadata size).1.writeEntry (Wal.create metadata size).2 []).1,
        ((Wal.create metadata size).1.writeEntry (Wal.create metadata size).2 []).2, [[]]⟩ := by
    unfold Session.step Session.start
    dsimp only
    rw [happ]
    rfl
  obtain ⟨w', dir', hopen⟩ := h size _ (.tail .refl trivial hstep) size
  have hnil : numbered 1 [[]] = [] := openDir_oversize hfit rfl hopen
  cases hnil

/-- The log reads back whatever it accepts if and only if its metadata fits into a record. -/
theorem reads_back_iff (metadata : Bytes) :
    (SessionsReadBack metadata ∧ AppendsReadBack metadata) ↔
      envelopeHeader + metadata.length ≤ maxEnvelopeLen := by
  constructor
  · rintro ⟨h, -⟩
    by_contra hfit
    exact not_sessionsReadBack hfit h
  · intro hfit
    exact ⟨sessionsReadBack_of_fits hfit, appendsReadBack_of_fits hfit⟩

end Handle

/-- Metadata of 16 MiB less seven bytes. -/
theorem oversize_metadata_lost :
    ¬ (@SessionsReadBack castagnoli (List.replicate (2 ^ 24 - 7) 0) ∧
      @AppendsReadBack castagnoli (List.replicate (2 ^ 24 - 7) 0)) := by
  rintro ⟨h, -⟩
  refine @not_sessionsReadBack castagnoli _ ?_ h
  unfold MetadataFits
  rw [List.length_replicate]
  decide

end P2P333.Substrate
