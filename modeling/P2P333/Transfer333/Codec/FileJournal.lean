import P2P333.Transfer333.Codec.Journal
import P2P333.Transfer333.Recovery

/-!
# The journal file

`FileJournal` of `333-transfer/src/journal.rs`. The file is its bytes: the magic, the identity of
the owner, and the frames. Appending writes at the end of the file, replay stops at the first tear,
and opening cuts the tear off, so that both agree on where the log ends.

A crash in the middle of an append leaves any number of bytes of the frame that was being written.

Results:
1. `step_intact`: appends, crashes and reopens keep the file a header, whole frames, and at most one
   tear behind them, which is there only while the journal is closed.
2. `durable_log`: in a run over readable records, replay returns every record that was written
   completely, in order, and nothing else, at any moment; and reopening succeeds.
3. `append_unreadable`: a record below the size cap with a field above its own cap is appended with
   success, and no record of the file can be read any more.
-/

namespace P2P333.Transfer333

open Std Lib

section File

variable [Crypto] [KeyFormat]

/-! ## Definitions -/

namespace FileJournal

/-- Records start after the identity block. -/
def bodyStart : Nat := journalMagic.length + identityLen

def checkMagic (file : Bytes) : Except LogError Unit :=
  if file.length < journalMagic.length then .error .missingMagic
  else if file.take journalMagic.length ≠ journalMagic then .error .badMagic
  else .ok ()

/-- A file that stops inside the identity block was never claimed, so it has no records. -/
def readBody (file : Bytes) : Except LogError Bytes :=
  if file.length < journalMagic.length ∨ file.take journalMagic.length ≠ journalMagic then
    .error .badMagic
  else if file.length < bodyStart then .ok []
  else .ok (file.drop bodyStart)

/-- `none` if only the magic is there. A torn identity is not guessed. -/
def readIdentity (file : Bytes) : Except LogError (Option Bytes) :=
  if file.length = journalMagic.length then .ok none
  else if file.length ≥ bodyStart then
    .ok (some ((file.drop journalMagic.length).take identityLen))
  else .error .tornIdentity

/-- Cut a torn tail off before anything can append past it. A corrupt log is left as it is. -/
def truncateTornTail (file : Bytes) : Except LogError Bytes :=
  match readBody file with
  | .error e => .error e
  | .ok body =>
    match goodPrefixLen body with
    | .error _ => .ok file
    | .ok good => if good = body.length then .ok file else .ok (file.take (bodyStart + good))

/-- `open`: the content of the file afterwards. A new file gets the magic. -/
def openFile : Option Bytes → Except LogError Bytes
  | none => .ok journalMagic
  | some file =>
    match checkMagic file with
    | .error e => .error e
    | .ok () => truncateTornTail file

/-- Claim the file for one identity, or verify an existing claim. -/
def bind (file : Bytes) (identity : Digest) : Except LogError Bytes :=
  match readIdentity file with
  | .error e => .error e
  | .ok (some existing) =>
    if existing = identity.toList then .ok file else .error .foreignIdentity
  | .ok none => .ok (file ++ identity.toList)

/-- The file is opened in append mode. -/
def append (file : Bytes) (record : JournalRecord) : Bytes := file ++ encodeRecord record

def replay (file : Bytes) : Except LogError (List JournalRecord) :=
  match readBody file with
  | .error e => .error e
  | .ok body => decodeRecords body

end FileJournal

/-- The file, whether a journal holds it open, and the records whose frames were written completely:
those whose append returned `Ok`, and those that a crash cut off after the last byte. -/
structure LogFile where
  file : Bytes
  isOpen : Bool
  written : List (JournalRecord × Bool)
deriving DecidableEq

/-- `crash record k`: the machine dies while `record` is being appended, with the first `k` bytes of
its frame on disk. -/
inductive FileOp where
  | append (record : JournalRecord)
  | crash (record : JournalRecord) (k : Nat)
  | reopen
deriving DecidableEq

def FileOp.Readable : FileOp → Prop
  | .append record | .crash record _ => record.Readable
  | .reopen => True

namespace LogFile

def records (s : LogFile) : List JournalRecord := s.written.map Prod.fst

def header (identity : Digest) : Bytes := journalMagic ++ identity.toList

/-- A new journal, opened and claimed. -/
def start (identity : Digest) : LogFile := ⟨header identity, true, []⟩

def step (identity : Digest) (s : LogFile) : FileOp → Option LogFile
  | .append record =>
    if s.isOpen then
      some { s with
        file := FileJournal.append s.file record
        written := s.written ++ [(record, true)] }
    else none
  | .crash record k =>
    if s.isOpen then
      some
        { file := s.file ++ (encodeRecord record).take k
          isOpen := false
          written := if k < (encodeRecord record).length then s.written
            else s.written ++ [(record, false)] }
    else none
  | .reopen =>
    if s.isOpen then none
    else match FileJournal.openFile (some s.file) with
      | .error _ => none
      | .ok file =>
        match FileJournal.bind file identity with
        | .error _ => none
        | .ok file => some { s with file, isOpen := true }

/-! ## The shape of the file -/

/-- A header, whole frames, and a tear behind them while the journal is closed. -/
structure Intact (identity : Digest) (s : LogFile) : Prop where
  readable : ∀ r ∈ s.records, r.Readable
  layout : ∃ tail, s.file = header identity ++ (encodeLog s.records ++ tail) ∧
    scanFrame tail = .ok none ∧ (s.isOpen = true → tail = [])

end LogFile

namespace FileJournal

section

omit [Crypto] [KeyFormat]

section

variable (identity : Digest)

theorem length_header : (LogFile.header identity).length = bodyStart := by
  simp [LogFile.header, bodyStart, identityLen]

theorem take_magic (body : Bytes) :
    (LogFile.header identity ++ body).take journalMagic.length = journalMagic := by
  rw [LogFile.header, List.append_assoc, List.take_left]

theorem readBody_header (body : Bytes) : readBody (LogFile.header identity ++ body) = .ok body := by
  have hlen : (LogFile.header identity ++ body).length = bodyStart + body.length := by
    rw [List.length_append, length_header]
  unfold readBody
  rw [if_neg, if_neg (by omega), ← length_header identity, List.drop_left]
  rw [take_magic, not_or, hlen]
  unfold bodyStart
  exact ⟨by omega, not_not.mpr rfl⟩

theorem checkMagic_header (body : Bytes) :
    checkMagic (LogFile.header identity ++ body) = .ok () := by
  unfold checkMagic
  rw [take_magic, if_neg, if_neg (not_not.mpr rfl)]
  rw [List.length_append, length_header]
  unfold bodyStart
  omega

theorem bind_header (body : Bytes) :
    bind (LogFile.header identity ++ body) identity = .ok (LogFile.header identity ++ body) := by
  have hid : readIdentity (LogFile.header identity ++ body) = .ok (some identity.toList) := by
    have hlen : (LogFile.header identity ++ body).length = bodyStart + body.length := by
      rw [List.length_append, length_header]
    unfold readIdentity
    rw [if_neg, if_pos, LogFile.header, List.append_assoc, List.drop_left,
      List.take_left' (show identity.toList.length = identityLen from identity.toList_length)]
    · omega
    · rw [hlen]
      unfold bodyStart identityLen
      omega
  unfold bind
  rw [hid]
  exact if_pos rfl

end

end

variable {records : List JournalRecord} {tail : Bytes}

theorem scan_frames (h : ∀ r ∈ records, r.Readable) (htail : scanFrame tail = .ok none) :
    scan (encodeLog records ++ tail) = .ok (records, (encodeLog records).length) := by
  rw [scan_append h, scan_of_torn htail]
  simp [Except.map]

theorem replay_frames (identity : Digest) (h : ∀ r ∈ records, r.Readable)
    (htail : scanFrame tail = .ok none) :
    replay (LogFile.header identity ++ (encodeLog records ++ tail)) = .ok records := by
  simp only [replay, readBody_header, decodeRecords, scan_frames h htail]
  rfl

/-- Opening cuts exactly the tear off. -/
theorem openFile_frames (identity : Digest) (h : ∀ r ∈ records, r.Readable)
    (htail : scanFrame tail = .ok none) :
    openFile (some (LogFile.header identity ++ (encodeLog records ++ tail))) =
      .ok (LogFile.header identity ++ encodeLog records) := by
  have hgood : goodPrefixLen (encodeLog records ++ tail) = .ok (encodeLog records).length := by
    rw [goodPrefixLen, scan_frames h htail]
    rfl
  simp only [openFile, checkMagic_header, truncateTornTail, readBody_header, hgood]
  split
  · next hlen =>
    rw [List.length_append, left_eq_add, List.length_eq_zero_iff] at hlen
    rw [hlen, List.append_nil]
  · rw [← List.append_assoc, ← length_header identity, ← List.length_append, List.take_left]

end FileJournal

/-! ## Runs -/

namespace LogFile

variable {identity : Digest} {s s' : LogFile}

omit [Crypto] [KeyFormat] in
theorem records_append (written : List (JournalRecord × Bool)) (r : JournalRecord) (acked : Bool)
    (file : Bytes) (isOpen : Bool) :
    (LogFile.mk file isOpen (written ++ [(r, acked)])).records = written.map Prod.fst ++ [r] := by
  simp [records]

section

variable (h : Intact identity s)
include h

/-- Replay of an intact file returns what was written. -/
theorem Intact.replay_eq : FileJournal.replay s.file = .ok s.records := by
  obtain ⟨hreadable, tail, hfile, htail, -⟩ := h
  rw [hfile]
  exact FileJournal.replay_frames identity hreadable htail

/-- Reopening cuts the tear off and claims the file again. -/
theorem Intact.reopen_eq (hclosed : s.isOpen = false) :
    step identity s .reopen =
      some { s with file := header identity ++ encodeLog s.records, isOpen := true } := by
  obtain ⟨hreadable, tail, hfile, htail, -⟩ := h
  have hopen := FileJournal.openFile_frames identity hreadable htail
  rw [← hfile] at hopen
  simp only [step, hclosed, Bool.false_eq_true, if_false, hopen, FileJournal.bind_header]

/-- An open journal ends with its last frame. -/
theorem Intact.file_eq (hopen : s.isOpen = true) :
    s.file = header identity ++ encodeLog s.records := by
  obtain ⟨-, tail, hfile, -, htail⟩ := h
  rw [hfile, htail hopen, List.append_nil]

/-- One more complete frame. -/
theorem Intact.write (hopen : s.isOpen = true) {r : JournalRecord}
    (hr : r.Readable) (isOpen acked : Bool) :
    Intact identity ⟨s.file ++ encodeRecord r, isOpen, s.written ++ [(r, acked)]⟩ := by
  have hlog : encodeLog (s.records ++ [r]) = encodeLog s.records ++ encodeRecord r := by
    rw [encodeLog_append, encodeLog_singleton]
  refine ⟨?_, [], ?_, scanFrame_short (by decide), fun _ => rfl⟩
  · rw [records_append]
    intro r' hr'
    rcases List.mem_append.mp hr' with hr' | hr'
    · exact h.readable r' hr'
    · rw [List.mem_singleton.mp hr']
      exact hr
  · rw [records_append, ← records, hlog, h.file_eq hopen, List.append_nil, List.append_assoc]

theorem step_intact {op : FileOp} (hop : op.Readable)
    (hstep : step identity s op = some s') : Intact identity s' := by
  cases op with
  | append r =>
    simp only [step] at hstep
    split at hstep
    · next hopen =>
      cases hstep
      exact h.write hopen hop s.isOpen true
    · cases hstep
  | crash r k =>
    simp only [step] at hstep
    split at hstep
    · next hopen =>
      cases hstep
      split
      · next hk =>
        -- a proper prefix of the frame: the log ends where it ended
        refine ⟨h.readable, (encodeRecord r).take k, ?_, scanFrame_torn hop hk, ?_⟩
        swap
        · intro hc
          cases hc
        rw [h.file_eq hopen, List.append_assoc]
        rfl
      · next hk =>
        rw [List.take_of_length_le (Nat.not_lt.mp hk)]
        exact h.write hopen hop false false
    · cases hstep
  | reopen =>
    cases hclosed : s.isOpen with
    | true => simp [step, hclosed] at hstep
    | false =>
      rw [h.reopen_eq hclosed] at hstep
      cases hstep
      refine ⟨h.readable, [], ?_, scanFrame_short (by decide), fun _ => rfl⟩
      rw [List.append_nil]
      rfl

end

theorem intact_start (identity : Digest) : Intact identity (start identity) :=
  ⟨fun r hr => (by cases hr), [], (List.append_nil _).symm, scanFrame_short (by decide),
    fun _ => rfl⟩

theorem intact_of_reachable
    (hs : Reachable (step identity) (fun _ op => op.Readable) (start identity) s) :
    Intact identity s :=
  hs.invariant (intact_start identity) fun _ _ _ _ hI hok hstep => step_intact hI hok hstep

end LogFile

/-- Along every run over readable records replay returns what was written completely, in order, and
a closed journal can be reopened. One more append of any record is read back exactly if the record
is readable. -/
theorem durable_log {identity : Digest} {s : LogFile}
    (hs : Reachable (LogFile.step identity) (fun _ op => op.Readable) (.start identity) s) :
    FileJournal.replay s.file = .ok s.records ∧
    (s.isOpen = false → ∃ s', LogFile.step identity s .reopen = some s' ∧ s'.records = s.records) ∧
    ∀ r, s.isOpen = true →
      (FileJournal.replay (FileJournal.append s.file r) = .ok (s.records ++ [r]) ↔ r.Readable) := by
  have hintact := LogFile.intact_of_reachable hs
  refine ⟨hintact.replay_eq, fun hclosed => ⟨_, hintact.reopen_eq hclosed, rfl⟩, ?_⟩
  intro r hopen
  constructor
  · intro hreplay
    rw [FileJournal.append, hintact.file_eq hopen, List.append_assoc, ← encodeLog_singleton,
      ← encodeLog_append] at hreplay
    simp only [FileJournal.replay, FileJournal.readBody_header, decodeRecords] at hreplay
    obtain ⟨⟨records, n⟩, hscan, heq⟩ := Wire.map_eq_ok hreplay
    obtain rfl : s.records ++ [r] = records := heq
    exact readable_of_scan hscan r (List.mem_append_right _ List.mem_cons_self)
  · intro hr
    have hwrite := hintact.write hopen hr s.isOpen true
    have hreplay := hwrite.replay_eq
    rw [LogFile.records_append] at hreplay
    exact hreplay

instance : (op : FileOp) → Decidable op.Readable
  | .append record => inferInstanceAs (Decidable record.Readable)
  | .crash record _ => inferInstanceAs (Decidable record.Readable)
  | .reopen => inferInstanceAs (Decidable True)

end File

namespace Demo

def identity : Digest := bytes32 9

/-- A crash five bytes into a frame, and one right after a frame. -/
def tearRun : List FileOp :=
  [.append (.locked toBob), .crash (.confirmed toBob) 5, .reopen, .append (.confirmed toBob),
    .crash (.epochFence (proposal quadRoster 1)) 100000, .reopen]

/-- An account id of 257 bytes, one more than the wire codec reads. -/
def longId : AccountId := ⟨String.ofList (List.replicate 257 'x'), by decide +kernel⟩

/-- An install record of less than 500 bytes whose frontier names that account. -/
def longCert : EpochCert := ⟨1, soloRoster, [(longId, 0)], []⟩

end Demo

open Demo in
theorem durable_log_demo :
    ∃ s, Reachable (LogFile.step identity) (fun _ op => op.Readable) (.start identity) s ∧
      s.written = [(.locked toBob, true), (.confirmed toBob, true),
        (.epochFence (proposal quadRoster 1), false)] ∧
      FileJournal.replay s.file = .ok s.records := by
  obtain ⟨s, hs, hwritten⟩ : ∃ s, Reachable (LogFile.step identity) (fun _ op => op.Readable)
      (.start identity) s ∧ s.written = [(.locked toBob, true), (.confirmed toBob, true),
        (.epochFence (proposal quadRoster 1), false)] :=
    Reachable.of_exec tearRun (by decide +kernel)
  exact ⟨s, hs, hwritten, (durable_log hs).1⟩

open Demo in
/-- Both appends return `Ok`, and the lock before the long record is lost with it. -/
theorem append_unreadable :
    ∃ s, Reachable (LogFile.step identity)
      (fun _ op => op = .append (.locked toBob) ∨ op = .append (.epochInstalled longCert))
      (.start identity) s ∧
      s.written = [(.locked toBob, true), (.epochInstalled longCert, true)] ∧
      (JournalRecord.epochInstalled longCert).body.length < 500 ∧
      FileJournal.replay s.file =
        .error (.recordBody (.fieldTooLong "epoch.frontier.account" 257 256)) :=
  Reachable.of_exec [.append (.locked toBob), .append (.epochInstalled longCert)]
    (by decide +kernel)

end P2P333.Transfer333
