import P2P333.Substrate.Wal.Record

/-!
# Replaying one segment

`scan_segment` and `zero_sector_in_window` of `substrate/crates/wal/src/lib.rs`. The loop decodes
records, passes each one through the gate of its kind, and stops at the first frame that is not
accepted; then the end of the file is classified.

`Accepts st b st'` says that the loop takes the bytes `b` from the state `st` to the state `st'`. It
composes by concatenation, and it is all that the results about whole logs use of the loop.

Results:
1. `scanFrom_eq`: one turn of the loop; the fuel never runs out.
2. `scanFrom_accepts`: accepted bytes can be skipped.
3. `accepts_of_scanFrom`: what the loop consumed was accepted.
4. `accepts_header`, `accepts_entryFrames`: the bytes that the writer writes are accepted.
5. `zeroSectorInWindow_eq_true`: when the window of a failing record counts as torn.
-/

namespace P2P333.Substrate

open Lib

/-! ## Definitions -/

def unknownExtentScan : Nat := 64 * 1024

def sectorSize : Nat := 512

structure Entry where
  seq : Nat
  payload : Bytes
deriving DecidableEq

/-- What the loop carries. At the head of a turn `crc` is also the source's `chain_at_entry`. -/
structure ScanState where
  crc : UInt32
  entries : List Entry
  validOff : Nat
  firstRecord : Bool
deriving DecidableEq

/-- How the loop ends. -/
inductive End where
  | clean
  | zeroTail
  | fail (df : DecodeFailure)
deriving DecidableEq

/-- `valid_off`, and whether a suffix that can be repaired follows it. -/
structure SegScan where
  validOff : Nat
  torn : Bool
deriving DecidableEq

/-- The gate of one decoded record. Sequence numbers are 64 bits wide. -/
def gate (metadata : Bytes) (segIndex : Nat) (st : ScanState) (rec : Record) :
    Except WalError (List Entry) :=
  match rec.kind with
  | .crcSeed =>
    if ¬ (segIndex = 0 ∧ st.firstRecord) ∧ rec.crc ≠ st.crc then
      .error (.crcMismatch rec.crc st.crc)
    else .ok st.entries
  | .metadata => if rec.data ≠ metadata then .error .metadataConflict else .ok st.entries
  | .entry =>
    match decodeEntryData rec.data with
    | .error e => .error e
    | .ok (seq, payload) =>
      match st.entries.getLast? with
      | none => .ok (st.entries ++ [⟨seq, payload⟩])
      | some last =>
        if last.seq + 1 ≥ 2 ^ 64 then .error .panic
        else if seq ≠ last.seq + 1 then .error (.entrySeqGap (last.seq + 1) seq)
        else .ok (st.entries ++ [⟨seq, payload⟩])

/-- Is one of the chunks that the sector grid cuts out of `[pos, pos + bytes.length)` all zero? The
recursion goes over `win[pos - start ..]`. -/
def zeroChunk : Nat → Nat → Bytes → Bool
  | 0, _, _ => false
  | fuel + 1, pos, win =>
    let chunk := win.take ((pos / sectorSize + 1) * sectorSize - pos)
    if win = [] then false
    else chunk.all (· == 0) || zeroChunk fuel (pos + chunk.length) (win.drop chunk.length)

def zeroSectorInWindow (file : Bytes) (start stop : Nat) : Bool :=
  let win := (file.drop start).take (stop - start)
  zeroChunk win.length start win

section Scan

variable [Crc32c]

def scanLoop (metadata : Bytes) (segIndex : Nat) (isLast : Bool) :
    Nat → ScanState → Bytes → Except WalError (ScanState × End)
  | 0, st, _ => .ok (st, .clean)
  | fuel + 1, st, r =>
    match decodeRecord st.crc r with
    | .ok (.record rec consumed crc) =>
      match gate metadata segIndex st rec with
      | .error e => .error e
      | .ok entries =>
        scanLoop metadata segIndex isLast fuel ⟨crc, entries, st.validOff + consumed, false⟩
          (r.drop consumed)
    | .ok .eof => .ok (st, .clean)
    | .ok .zeroLen => .ok (st, if isLast then .zeroTail else .clean)
    | .error df => .ok (st, .fail df)

/-- Every turn consumes a byte, so this is the loop itself. -/
def scanFrom (metadata : Bytes) (segIndex : Nat) (isLast : Bool) (st : ScanState) (r : Bytes) :
    Except WalError (ScanState × End) :=
  scanLoop metadata segIndex isLast (r.length + 1) st r

/-- `repair`: a partial frame is torn by definition, a complete one only if a chunk of it is zero.
The window starts behind the length field. -/
def repairable (file : Bytes) (validOff : Nat) (df : DecodeFailure) : Bool :=
  match df.error with
  | .tornRecord => true
  | .crcMismatch _ _ | .corruptFrame =>
    let scanEnd :=
      match df.frameLen with
      | some fl => min (validOff + fl) file.length
      | none => min (validOff + 8 + unknownExtentScan) file.length
    zeroSectorInWindow file (validOff + 8) scanEnd
  | _ => false

/-- The end of the file: is there a suffix to cut off, or is the failure fatal? -/
def classify (file : Bytes) (isLast : Bool) (validOff : Nat) : End → Except WalError Bool
  | .clean => .ok false
  | .zeroTail => .ok true
  | .fail df => if isLast && repairable file validOff df then .ok true else .error df.error

/-- The state and the entries are passed on to the next segment. -/
def scanSegment (file : Bytes) (segIndex : Nat) (isLast : Bool) (metadata : Bytes) (crc : UInt32)
    (entries : List Entry) : Except WalError (SegScan × UInt32 × List Entry) :=
  match scanFrom metadata segIndex isLast ⟨crc, entries, 0, true⟩ file with
  | .error e => .error e
  | .ok (st, e) =>
    match classify file isLast st.validOff e with
    | .error e => .error e
    | .ok torn => .ok (⟨st.validOff, torn⟩, st.crc, st.entries)

/-! ## One turn of the loop -/

/-- The state behind an accepted record. -/
def turn (metadata : Bytes) (segIndex : Nat) (st : ScanState) (rec : Record) (consumed : Nat)
    (crc : UInt32) : Except WalError ScanState :=
  match gate metadata segIndex st rec with
  | .error e => .error e
  | .ok entries => .ok ⟨crc, entries, st.validOff + consumed, false⟩

theorem scanLoop_succ (metadata : Bytes) (segIndex : Nat) (isLast : Bool) (fuel : Nat)
    (st : ScanState) (r : Bytes) :
    scanLoop metadata segIndex isLast (fuel + 1) st r =
      match decodeRecord st.crc r with
      | .ok (.record rec consumed crc) =>
        match turn metadata segIndex st rec consumed crc with
        | .error e => .error e
        | .ok st' => scanLoop metadata segIndex isLast fuel st' (r.drop consumed)
      | .ok .eof => .ok (st, .clean)
      | .ok .zeroLen => .ok (st, if isLast then .zeroTail else .clean)
      | .error df => .ok (st, .fail df) := by
  rw [scanLoop]
  split
  · next rec consumed crc _ =>
    unfold turn
    cases gate metadata segIndex st rec with
    | error e => rfl
    | ok entries => rfl
  · rfl
  · rfl
  · rfl

/-- More fuel than bytes is enough fuel. -/
theorem scanLoop_fuel {metadata : Bytes} {segIndex : Nat} {isLast : Bool} :
    ∀ {n m : Nat} {st : ScanState} {r : Bytes}, r.length < n → r.length < m →
      scanLoop metadata segIndex isLast n st r = scanLoop metadata segIndex isLast m st r := by
  intro n
  induction n with
  | zero => intro m st r hn; omega
  | succ n ih =>
    intro m st r hn hm
    obtain ⟨m, rfl⟩ : ∃ k, m = k + 1 := ⟨m - 1, by omega⟩
    rw [scanLoop_succ, scanLoop_succ]
    split
    · next rec consumed crc hdec =>
      have hpos := decodeRecord_pos hdec
      split
      · rfl
      · exact ih (by rw [List.length_drop]; omega) (by rw [List.length_drop]; omega)
    · rfl
    · rfl
    · rfl

theorem scanFrom_eq (metadata : Bytes) (segIndex : Nat) (isLast : Bool) (st : ScanState)
    (r : Bytes) :
    scanFrom metadata segIndex isLast st r =
      match decodeRecord st.crc r with
      | .ok (.record rec consumed crc) =>
        match turn metadata segIndex st rec consumed crc with
        | .error e => .error e
        | .ok st' => scanFrom metadata segIndex isLast st' (r.drop consumed)
      | .ok .eof => .ok (st, .clean)
      | .ok .zeroLen => .ok (st, if isLast then .zeroTail else .clean)
      | .error df => .ok (st, .fail df) := by
  unfold scanFrom
  rw [scanLoop_succ]
  split
  · next rec consumed crc hdec =>
    have hpos := decodeRecord_pos hdec
    split
    · rfl
    · exact scanLoop_fuel (by rw [List.length_drop]; omega) (by rw [List.length_drop]; omega)
  · rfl
  · rfl
  · rfl

/-! ## Accepted bytes -/

/-- The loop takes the bytes from the first state to the second. -/
inductive Accepts (metadata : Bytes) (segIndex : Nat) : ScanState → Bytes → ScanState → Prop
  | nil (st : ScanState) : Accepts metadata segIndex st [] st
  | cons {st st' st'' : ScanState} {b more : Bytes} {rec : Record} {crc : UInt32} :
      decodeRecord st.crc b = .ok (.record rec b.length crc) →
      turn metadata segIndex st rec b.length crc = .ok st' →
      Accepts metadata segIndex st' more st'' → Accepts metadata segIndex st (b ++ more) st''

section Acceptance

variable {metadata : Bytes} {segIndex : Nat} {isLast : Bool} {st st' st'' : ScanState}
variable {b payload : Bytes}

theorem Accepts.append {a : Bytes} (h : Accepts metadata segIndex st a st')
    (h' : Accepts metadata segIndex st' b st'') : Accepts metadata segIndex st (a ++ b) st'' := by
  induction h with
  | nil st => exact h'
  | cons hdec hturn _ ih =>
    rw [List.append_assoc]
    exact .cons hdec hturn (ih h')

variable {crc c : UInt32}

omit [Crc32c] in
theorem turn_validOff {rec : Record} {n : Nat}
    (h : turn metadata segIndex st rec n crc = .ok st') : st'.validOff = st.validOff + n := by
  unfold turn at h
  split at h
  · cases h
  · cases h
    rfl

theorem Accepts.validOff {b : Bytes} (h : Accepts metadata segIndex st b st') :
    st'.validOff = st.validOff + b.length := by
  induction h with
  | nil st => rfl
  | cons _ hturn _ ih =>
    rw [ih, turn_validOff hturn, List.length_append, Nat.add_assoc]

theorem scanFrom_accepts (h : Accepts metadata segIndex st b st') (more : Bytes) :
    scanFrom metadata segIndex isLast st (b ++ more) =
      scanFrom metadata segIndex isLast st' more := by
  induction h with
  | nil st => rfl
  | @cons st st' st'' b rest rec crc hdec hturn _ ih =>
    rw [scanFrom_eq, List.append_assoc, decodeRecord_append hdec]
    dsimp only
    rw [hturn]
    dsimp only
    rw [List.drop_left]
    exact ih

theorem scanFrom_nil (metadata : Bytes) (segIndex : Nat) (isLast : Bool) (st : ScanState) :
    scanFrom metadata segIndex isLast st [] = .ok (st, .clean) := rfl

/-- The loop stops behind accepted bytes, at a frame that it does not accept. -/
theorem accepts_of_scanFrom {r : Bytes} {e : End}
    (h : scanFrom metadata segIndex isLast st r = .ok (st', e)) :
    Accepts metadata segIndex st (r.take (st'.validOff - st.validOff)) st' ∧
      st'.validOff - st.validOff ≤ r.length ∧
      scanFrom metadata segIndex isLast st' (r.drop (st'.validOff - st.validOff)) =
        .ok (st', e) := by
  induction hn : r.length using Nat.strong_induction_on generalizing st r with
  | _ n ih =>
  have hcopy := h
  rw [scanFrom_eq] at h
  split at h
  · next rec consumed crc hdec =>
    have hpos := decodeRecord_pos hdec
    split at h
    · cases h
    next st1 hturn =>
    obtain ⟨hacc, hle, hend⟩ := ih _ (by rw [List.length_drop]; omega) h rfl
    have hoff := turn_validOff hturn
    have hoff' := hacc.validOff
    rw [List.length_take, Nat.min_eq_left hle] at hoff'
    rw [List.length_drop] at hle
    have hsplit : st'.validOff - st.validOff = consumed + (st'.validOff - st1.validOff) := by omega
    refine ⟨?_, by omega, ?_⟩
    · rw [hsplit, List.take_add]
      have hlen : (r.take consumed).length = consumed := List.length_take_of_le hpos.2
      refine Accepts.cons (by rw [hlen]; exact decodeRecord_take hdec) ?_ hacc
      rw [hlen]
      exact hturn
    · rw [hsplit, ← List.drop_drop]
      exact hend
  all_goals
    cases h
    rw [Nat.sub_self]
    exact ⟨.nil _, Nat.zero_le _, hcopy⟩

/-! ## What the writer writes -/

def maxPayload : Nat := maxEnvelopeLen - envelopeHeader - 8

/-- Seed and metadata, at the start of every segment. -/
def header (metadata : Bytes) (crc : UInt32) : Bytes :=
  encodeRecord crc .crcSeed [] ++ encodeRecord crc .metadata metadata

def entryFrame (crc : UInt32) (seq : Nat) (payload : Bytes) : Bytes :=
  encodeRecord crc .entry (encodeEntryData seq payload)

def entryCrc (crc : UInt32) (seq : Nat) (payload : Bytes) : UInt32 :=
  nextCrc crc .entry (encodeEntryData seq payload)

/-- The frames of consecutive entries. -/
def entryFrames : UInt32 → Nat → List Bytes → Bytes
  | _, _, [] => []
  | crc, seq, p :: ps => entryFrame crc seq p ++ entryFrames (entryCrc crc seq p) (seq + 1) ps

def entriesCrc : UInt32 → Nat → List Bytes → UInt32
  | crc, _, [] => crc
  | crc, seq, p :: ps => entriesCrc (entryCrc crc seq p) (seq + 1) ps

/-- Payloads, numbered from `seq` on. -/
def numbered : Nat → List Bytes → List Entry
  | _, [] => []
  | seq, p :: ps => ⟨seq, p⟩ :: numbered (seq + 1) ps

/-- The entries read so far end right before `seq`. -/
def EndsBefore (entries : List Entry) (seq : Nat) : Prop :=
  ∀ e, entries.getLast? = some e → e.seq + 1 = seq

def MetadataFits (metadata : Bytes) : Prop := envelopeHeader + metadata.length ≤ maxEnvelopeLen

omit [Crc32c] in
theorem endsBefore_nil (seq : Nat) : EndsBefore [] seq := by
  intro e he
  cases he

omit [Crc32c] in
theorem endsBefore_snoc (entries : List Entry) (e : Entry) :
    EndsBefore (entries ++ [e]) (e.seq + 1) := by
  intro e' he
  rw [List.getLast?_concat] at he
  cases he
  rfl

variable {seq : Nat}

omit [Crc32c] in
theorem entryData_fits (h : payload.length ≤ maxPayload) :
    envelopeHeader + (encodeEntryData seq payload).length ≤ maxEnvelopeLen := by
  rw [encodeEntryData, List.length_append, length_leBytes]
  unfold maxPayload maxEnvelopeLen at h
  unfold maxEnvelopeLen envelopeHeader at *
  omega

/-- One frame behind what was accepted. -/
theorem Accepts.snoc {frame : Bytes} {rec : Record} (h : Accepts metadata segIndex st b st')
    (hdec : decodeRecord st'.crc frame = .ok (.record rec frame.length crc))
    (hturn : turn metadata segIndex st' rec frame.length crc = .ok st'') :
    Accepts metadata segIndex st (b ++ frame) st'' := by
  have := h.append (.cons hdec hturn (.nil st''))
  rwa [List.append_nil] at this

variable {entries : List Entry}

/-- A record that was written is accepted if its gate lets it pass. -/
theorem accepts_encodeRecord {kind : RecordKind} {data : Bytes}
    (hreader : kind = .crcSeed ∨ st.crc = crc)
    (hfit : envelopeHeader + data.length ≤ maxEnvelopeLen)
    (hgate : gate metadata segIndex st ⟨kind, nextCrc crc kind data, data⟩ = .ok entries) :
    Accepts metadata segIndex st (encodeRecord crc kind data)
      ⟨nextCrc crc kind data, entries, st.validOff + (encodeRecord crc kind data).length,
        false⟩ := by
  have hdec := decodeRecord_encodeRecord hreader hfit []
  rw [List.append_nil] at hdec
  have hturn : turn metadata segIndex st ⟨kind, nextCrc crc kind data, data⟩
      (encodeRecord crc kind data).length (nextCrc crc kind data) =
      .ok ⟨nextCrc crc kind data, entries, st.validOff + (encodeRecord crc kind data).length,
        false⟩ := by
    unfold turn
    rw [hgate]
  exact (Accepts.nil st).snoc hdec hturn

/-- A record that was written and that its gate refuses. -/
theorem scanFrom_refused {kind : RecordKind} {data : Bytes} {e : WalError}
    (hreader : kind = .crcSeed ∨ st.crc = crc)
    (hfit : envelopeHeader + data.length ≤ maxEnvelopeLen)
    (hgate : gate metadata segIndex st ⟨kind, nextCrc crc kind data, data⟩ = .error e)
    (more : Bytes) :
    scanFrom metadata segIndex isLast st (encodeRecord crc kind data ++ more) = .error e := by
  rw [scanFrom_eq, decodeRecord_encodeRecord hreader hfit]
  dsimp only
  unfold turn
  rw [hgate]

omit [Crc32c] in
theorem gate_entry (hseq : seq < 2 ^ 64) (hends : EndsBefore st.entries seq) :
    gate metadata segIndex st ⟨.entry, crc, encodeEntryData seq payload⟩ =
      .ok (st.entries ++ [⟨seq, payload⟩]) := by
  unfold gate
  dsimp only
  rw [decodeEntryData_encodeEntryData hseq]
  dsimp only
  split
  · rfl
  · next last hlast =>
    have := hends last hlast
    rw [if_neg (by omega), if_neg (by omega)]

theorem accepts_entryFrame (hseq : seq < 2 ^ 64)
    (hfit : payload.length ≤ maxPayload) (hends : EndsBefore st.entries seq) :
    Accepts metadata segIndex st (entryFrame st.crc seq payload)
      ⟨entryCrc st.crc seq payload, st.entries ++ [⟨seq, payload⟩],
        st.validOff + (entryFrame st.crc seq payload).length, false⟩ :=
  accepts_encodeRecord (.inr rfl) (entryData_fits hfit) (gate_entry hseq hends)

/-- Entries with consecutive numbers, behind a record. -/
theorem accepts_entryFrames {ps : List Bytes} (hseq : seq + ps.length ≤ 2 ^ 64)
    (hfit : ∀ p ∈ ps, p.length ≤ maxPayload) (hends : EndsBefore st.entries seq)
    (hfirst : st.firstRecord = false) :
    Accepts metadata segIndex st (entryFrames st.crc seq ps)
      ⟨entriesCrc st.crc seq ps, st.entries ++ numbered seq ps,
        st.validOff + (entryFrames st.crc seq ps).length, false⟩ := by
  induction ps generalizing st seq with
  | nil =>
    obtain ⟨crc, entries, validOff, firstRecord⟩ := st
    cases hfirst
    simpa [entryFrames, entriesCrc, numbered] using Accepts.nil _
  | cons p ps ih =>
    rw [List.length_cons] at hseq
    have hhead : Accepts metadata segIndex st (entryFrame st.crc seq p) _ :=
      accepts_entryFrame (by omega) (hfit p List.mem_cons_self) hends
    have hrest : seq + 1 + ps.length ≤ 2 ^ 64 := by omega
    have h := hhead.append (ih hrest (fun q hq => hfit q (List.mem_cons_of_mem _ hq))
      (endsBefore_snoc _ _) rfl)
    simpa [entryFrames, entriesCrc, numbered, Nat.add_assoc] using h

/-- Only the seed of the oldest segment is not compared. -/
theorem accepts_seed (hc : segIndex = 0 ∨ c = crc) :
    Accepts metadata segIndex ⟨c, entries, 0, true⟩ (encodeRecord crc .crcSeed [])
      ⟨crc, entries, (encodeRecord crc .crcSeed []).length, false⟩ := by
  have hgate : gate metadata segIndex ⟨c, entries, 0, true⟩ ⟨.crcSeed, crc, []⟩ = .ok entries := by
    unfold gate
    dsimp only
    refine if_neg ?_
    rintro ⟨hfirst, hne⟩
    rcases hc with hc | hc
    · exact hfirst ⟨hc, rfl⟩
    · exact hne hc.symm
  have h : Accepts metadata segIndex ⟨c, entries, 0, true⟩ (encodeRecord crc .crcSeed []) _ :=
    accepts_encodeRecord (.inl rfl) (by decide) hgate
  simpa only [Nat.zero_add, nextCrc_crcSeed] using h

/-- The header of a segment. -/
theorem accepts_header (hfit : MetadataFits metadata) (hc : segIndex = 0 ∨ c = crc) :
    Accepts metadata segIndex ⟨c, entries, 0, true⟩ (header metadata crc)
      ⟨nextCrc crc .metadata metadata, entries, (header metadata crc).length, false⟩ := by
  have hgate : gate metadata segIndex ⟨crc, entries, (encodeRecord crc .crcSeed []).length, false⟩
      ⟨.metadata, nextCrc crc .metadata metadata, metadata⟩ = .ok entries := by
    unfold gate
    exact if_neg (not_not.mpr rfl)
  have h := (accepts_seed hc).append (accepts_encodeRecord (.inr rfl) hfit hgate)
  simpa only [header, List.length_append] using h

/-- A header whose metadata does not fit is never passed. -/
theorem scanFrom_oversize {rest : Bytes} {e : End} (hfit : ¬ MetadataFits metadata)
    (h : scanFrom metadata segIndex isLast ⟨c, [], 0, true⟩ (header metadata crc ++ rest) =
      .ok (st, e)) : st.entries = [] := by
  rw [header, List.append_assoc] at h
  have hc : segIndex = 0 ∨ c = crc := by
    by_contra hne
    push Not at hne
    have hgate : gate metadata segIndex ⟨c, [], 0, true⟩ ⟨.crcSeed, crc, []⟩ =
        .error (.crcMismatch crc c) := by
      unfold gate
      exact if_pos ⟨fun hfirst => hne.1 hfirst.1, fun heq => hne.2 heq.symm⟩
    cases (scanFrom_refused (.inl rfl) (by decide) (nextCrc_crcSeed crc [] ▸ hgate) _).symm.trans h
  rw [scanFrom_accepts (accepts_seed hc), scanFrom_eq] at h
  split at h
  · next rec consumed crc' hdec =>
    have hkind := decodeRecord_kind hdec
    have hdata : rec.data ≠ metadata := by
      intro hdata
      exact hfit (hdata ▸ length_data_le hdec)
    have hgate :
      gate metadata segIndex ⟨crc, [], (encodeRecord crc .crcSeed []).length, false⟩ rec =
        .error .metadataConflict := by
      unfold gate
      rw [hkind]
      exact if_pos hdata
    unfold turn at h
    rw [hgate] at h
    cases h
  all_goals
    cases h
    rfl

end Acceptance

end Scan

/-! ## Zero sectors -/

theorem all_zero_iff (l : Bytes) : l.all (· == 0) = true ↔ ∀ j, l.getD j 0 = 0 := by
  rw [List.all_eq_true]
  constructor
  · intro h j
    by_cases hj : j < l.length
    · rw [List.getD_eq_getElem _ _ hj]
      simpa using h _ (List.getElem_mem hj)
    · exact List.getD_eq_default _ _ (Nat.not_lt.mp hj)
  · intro h b hb
    obtain ⟨j, hj, rfl⟩ := List.mem_iff_getElem.mp hb
    rw [← List.getD_eq_getElem l 0 hj, h j]
    rfl

theorem zeroChunk_eq_true {fuel pos : Nat} {win : Bytes} (hfuel : win.length ≤ fuel) :
    zeroChunk fuel pos win = true ↔ ∃ i < win.length, ∀ j,
      (pos + j) / sectorSize = (pos + i) / sectorSize → win.getD j 0 = 0 := by
  induction fuel generalizing pos win with
  | zero =>
    obtain rfl : win = [] := List.length_eq_zero_iff.mp (Nat.le_zero.mp hfuel)
    simp [zeroChunk]
  | succ fuel ih =>
    rw [zeroChunk]
    by_cases hwin : win = []
    · simp [hwin]
    have hpos : 0 < win.length := List.length_pos_iff.mpr hwin
    -- the first chunk ends with its sector or with the window
    generalize hc : (pos / sectorSize + 1) * sectorSize - pos = c
    have hc' : pos + c = (pos / sectorSize + 1) * sectorSize := by
      rw [← hc]
      unfold sectorSize
      omega
    have hlen : (win.take c).length = min c win.length := List.length_take
    have hsector : ∀ j, j < c ↔ (pos + j) / sectorSize = pos / sectorSize := by
      intro j
      unfold sectorSize at hc' ⊢
      omega
    have htake : ∀ j, j < c → (win.take c).getD j 0 = win.getD j 0 := by
      intro j hj
      simp [List.getD_eq_getElem?_getD, hj]
    have hdrop : ∀ m j, (win.drop m).getD j 0 = win.getD (m + j) 0 := by
      intro m j
      simp [List.getD_eq_getElem?_getD]
    have hstep : 0 < c := (hsector 0).mpr rfl
    rw [if_neg hwin, Bool.or_eq_true, all_zero_iff,
      ih (by rw [List.length_drop, hlen]; omega), hlen]
    constructor
    · rintro (hzero | ⟨i, hi, hzero⟩)
      · refine ⟨0, hpos, fun j hj => ?_⟩
        have hj : j < c := (hsector j).mpr hj
        rw [← htake j hj]
        exact hzero j
      · rw [List.length_drop] at hi
        have hm : min c win.length = c := by omega
        rw [hm] at hi hzero
        refine ⟨c + i, by omega, fun j hj => ?_⟩
        have hj' : ¬ j < c := by
          intro hlt
          have := (hsector (c + i)).mpr (hj ▸ (hsector j).mp hlt)
          omega
        obtain ⟨j, rfl⟩ : ∃ k, j = c + k := ⟨j - c, by omega⟩
        rw [← hdrop]
        refine hzero j ?_
        rw [Nat.add_assoc, Nat.add_assoc]
        exact hj
    · rintro ⟨i, hi, hzero⟩
      by_cases hic : i < c
      · refine .inl fun j => ?_
        by_cases hj : j < c
        · rw [htake j hj]
          exact hzero j (((hsector j).mp hj).trans ((hsector i).mp hic).symm)
        · exact List.getD_eq_default _ _ (by omega)
      · have hm : min c win.length = c := by omega
        rw [hm]
        refine .inr ⟨i - c, by rw [List.length_drop]; omega, fun j hj => ?_⟩
        rw [hdrop]
        refine hzero _ ?_
        rw [← Nat.add_assoc, hj]
        congr 1
        omega

/-- A chunk of the window is all zero: the bytes of the window that lie in one sector are. -/
theorem zeroSectorInWindow_eq_true {file : Bytes} {start stop : Nat} :
    zeroSectorInWindow file start stop = true ↔
      ∃ q, start ≤ q ∧ q < min stop file.length ∧ ∀ q', start ≤ q' → q' < stop →
        q' / sectorSize = q / sectorSize → file.getD q' 0 = 0 := by
  unfold zeroSectorInWindow
  dsimp only
  rw [zeroChunk_eq_true (Nat.le_refl _)]
  have hget : ∀ j, j < stop - start → ((file.drop start).take (stop - start)).getD j 0 =
      file.getD (start + j) 0 := by
    intro j hj
    simp [List.getD_eq_getElem?_getD, hj]
  have hlen : ((file.drop start).take (stop - start)).length = min stop file.length - start := by
    rw [List.length_take, List.length_drop]
    omega
  rw [hlen]
  constructor
  · rintro ⟨i, hi, hzero⟩
    refine ⟨start + i, by omega, by omega, fun q' h1 h2 h3 => ?_⟩
    obtain ⟨j, rfl⟩ : ∃ j, q' = start + j := ⟨q' - start, by omega⟩
    rw [← hget j (by omega)]
    exact hzero j h3
  · rintro ⟨q, h1, h2, hzero⟩
    obtain ⟨i, rfl⟩ : ∃ i, q = start + i := ⟨q - start, by omega⟩
    refine ⟨i, by omega, fun j hj => ?_⟩
    by_cases hlt : j < stop - start
    · rw [hget j hlt]
      exact hzero _ (by omega) (by omega) hj
    · exact List.getD_eq_default _ _ (by rw [hlen]; omega)

end P2P333.Substrate
