import P2P333.Substrate.Wal.Layout

/-!
# Crashes

A crash keeps what is on stable storage. Of the bytes written since it keeps any number, and it
zeroes any sectors among them. Records are aligned to eight bytes, so a length field or the first
eight bytes of an envelope are zeroed as a whole or not at all; that is what makes the classifier
of the tail right.

Results:
1. `stops_at_damage`: the loop stops at a damaged record, and the classifier finds it torn.
2. `scan_damaged`: a damaged tail replays as a prefix of what was written to it.
-/

namespace P2P333.Substrate

open Lib

/-! ## Definitions -/

/-- `keep` bytes of what is not on stable storage survive, with some sectors zeroed. -/
structure Damage where
  keep : Nat
  zeroed : List Nat
deriving DecidableEq

/-- The bytes that lie in the file from offset `o` on, with whole sectors zeroed. -/
def zeroSectors (zeroed : List Nat) (o : Nat) (b : Bytes) : Bytes :=
  b.mapIdx fun i x => if (o + i) / sectorSize ∈ zeroed then 0 else x

/-- What is there after a crash is on stable storage. -/
def Segment.crash (d : Damage) (s : Segment) : Segment :=
  let bytes := s.bytes.take s.synced ++
    (zeroSectors d.zeroed s.synced (s.bytes.drop s.synced)).take d.keep
  { s with bytes, synced := bytes.length }

/-! ## Zeroed sectors -/

section Zeroed

variable (zeroed : List Nat)

@[simp] theorem length_zeroSectors (o : Nat) (b : Bytes) :
    (zeroSectors zeroed o b).length = b.length := by
  simp [zeroSectors]

theorem zeroSectors_append (o : Nat) (a b : Bytes) :
    zeroSectors zeroed o (a ++ b) = zeroSectors zeroed o a ++ zeroSectors zeroed
    (o + a.length) b := by
  simp only [zeroSectors, List.mapIdx_append]
  congr 2
  funext i x
  rw [Nat.add_assoc, Nat.add_comm i]

theorem getD_zeroSectors (o : Nat) (b : Bytes) (i : Nat) :
    (zeroSectors zeroed o b).getD i 0 =
      if (o + i) / sectorSize ∈ zeroed then 0 else b.getD i 0 := by
  simp only [zeroSectors, List.getD_eq_getElem?_getD, List.getElem?_mapIdx]
  cases b[i]? with
  | none => simp
  | some x => simp

theorem zeroSectors_replicate (o n : Nat) :
    zeroSectors zeroed o (List.replicate n 0) = List.replicate n 0 := by
  refine List.eq_replicate_iff.mpr ⟨by simp, fun x hx => ?_⟩
  obtain ⟨i, hi, rfl⟩ := List.mem_iff_getElem.mp hx
  simp [zeroSectors]

/-- Eight aligned bytes lie in one sector. -/
theorem zeroSectors_aligned {o : Nat} (ho : 8 ∣ o) {b : Bytes} (hb : b.length ≤ 8) :
    zeroSectors zeroed o b =
      if o / sectorSize ∈ zeroed then List.replicate b.length 0 else b := by
  have hsector : ∀ i < b.length, (o + i) / sectorSize = o / sectorSize := by
    intro i hi
    unfold sectorSize
    omega
  refine List.ext_getElem (by split <;> simp) fun i h1 h2 => ?_
  have hi : i < b.length := by simpa using h1
  simp only [zeroSectors, List.getElem_mapIdx, hsector i hi]
  split <;> simp

/-- Where a byte changed, its sector was zeroed. -/
theorem exists_zeroed {o : Nat} {b : Bytes} (h : zeroSectors zeroed o b ≠ b) :
    ∃ i < b.length, (o + i) / sectorSize ∈ zeroed ∧ b.getD i 0 ≠ 0 := by
  by_contra hnone
  push Not at hnone
  refine h (List.ext_getElem (by simp) fun i h1 h2 => ?_)
  have hget := hnone i h2
  rw [List.getD_eq_getElem _ _ h2] at hget
  simp only [zeroSectors, List.getElem_mapIdx]
  split
  · next hz => exact (hget hz).symm
  · rfl

end Zeroed

section Damaged

variable [Crc32c] {zeroed : List Nat}

/-- The checksum notices that sectors of the record were zeroed. -/
def Distinguishes (zeroed : List Nat) (o : Nat) (crc : UInt32) (data : Bytes) : Prop :=
  zeroSectors zeroed o data ≠ data →
    Crc32c.append crc (zeroSectors zeroed o data) ≠ Crc32c.append crc data

instance (zeroed : List Nat) (o : Nat) (crc : UInt32) (data : Bytes) :
    Decidable (Distinguishes zeroed o crc data) :=
  inferInstanceAs (Decidable (_ → _))

/-- A failure that is repaired only behind a zero sector. -/
def Invalid (e : WalError) : Prop := e = .corruptFrame ∨ ∃ a b, e = .crcMismatch a b

theorem decodeEnvelope_damaged {o n : Nat} (ho : 8 ∣ o) {crc : UInt32} {data : Bytes}
    (hcrc : Distinguishes zeroed (o + 8) crc data)
    (h : zeroSectors zeroed o (envelope crc .entry data) ≠ envelope crc .entry data) :
    ∃ e, decodeEnvelope crc n (zeroSectors zeroed o (envelope crc .entry data)) =
      .error ⟨e, some n⟩ ∧ Invalid e := by
  have hsplit : zeroSectors zeroed o (envelope crc .entry data) =
      (if o / sectorSize ∈ zeroed then List.replicate 8 0 else (RecordKind.entry.toU8 ::
        [0, 0, 0]) ++ leBytes 4 (nextCrc crc .entry data).toNat) ++
        zeroSectors zeroed (o + 8) data := by
    rw [envelope, zeroSectors_append, zeroSectors_aligned zeroed ho (by simp)]
    simp
  rw [hsplit]
  split
  · exact ⟨.corruptFrame, rfl, .inl rfl⟩
  · next hkind =>
    have hdata : zeroSectors zeroed (o + 8) data ≠ data := by
      intro hdata
      rw [hsplit, if_neg hkind, hdata] at h
      exact h rfl
    rw [decodeEnvelope_parts]
    exact ⟨_, if_pos ⟨by decide, hcrc hdata⟩, .inr ⟨_, _, rfl⟩⟩

omit [Crc32c] in
theorem classify_invalid {file : Bytes} {off n : Nat} {e : WalError} (he : Invalid e)
    (hzero : zeroSectorInWindow file (off + 8) (min (off + n) file.length) = true) :
    classify file true off (.fail ⟨e, some n⟩) = .ok true := by
  rcases he with rfl | ⟨a, b, rfl⟩
  · simp [classify, repairable, hzero]
  · simp [classify, repairable, hzero]

omit [Crc32c] in
/-- The window of a record that lost a sector counts as torn. -/
theorem zeroSector_of_damage {off keep n : Nat} {before r : Bytes} (hbefore : before.length = off)
    (hkeep : off + n ≤ (before ++ (zeroSectors zeroed off r).take keep).length) {q : Nat}
    (h8 : 8 ≤ q) (hq : q < n) (hz : (off + q) / sectorSize ∈ zeroed) :
    zeroSectorInWindow (before ++ (zeroSectors zeroed off r).take keep) (off + 8)
      (min (off + n) (before ++ (zeroSectors zeroed off r).take keep).length) = true := by
  rw [zeroSectorInWindow_eq_true]
  refine ⟨off + q, by omega, by omega, fun q' h1 h2 hsector => ?_⟩
  obtain ⟨j, rfl⟩ : ∃ j, q' = off + j := ⟨q' - off, by omega⟩
  have hj : j < keep := by
    simp only [List.length_append, List.length_take, length_zeroSectors] at hkeep
    omega
  rw [List.getD_append_right _ _ _ _ (by omega), hbefore, Nat.add_sub_cancel_left]
  have hget : ((zeroSectors zeroed off r).take keep).getD j 0 =
      (zeroSectors zeroed off r).getD j 0 := by
    simp [List.getD_eq_getElem?_getD, hj]
  rw [hget, getD_zeroSectors, hsector, if_pos hz]

/-- The length field, the envelope and what follows, with sectors zeroed. -/
theorem zeroSectors_encodeRecord (zeroed : List Nat) {o : Nat} (ho : 8 ∣ o) (crc : UInt32)
    (kind : RecordKind)
    (data more : Bytes) :
    zeroSectors zeroed o (encodeRecord crc kind data ++ more) =
      (if o / sectorSize ∈ zeroed then List.replicate 8 0
        else leBytes 8 (lenFieldOf (envelopeHeader + data.length))) ++
      (zeroSectors zeroed (o + 8) (envelope crc kind data) ++
        (List.replicate (padOf (envelopeHeader + data.length)) 0 ++
          zeroSectors zeroed (o + (encodeRecord crc kind data).length) more)) := by
  rw [length_encodeRecord, encodeRecord, List.append_assoc, List.append_assoc, zeroSectors_append,
    zeroSectors_append, zeroSectors_append, zeroSectors_aligned zeroed ho (by simp),
    zeroSectors_replicate, length_leBytes, length_envelope, List.length_replicate]
  simp only [Nat.add_assoc]

/-- What the decoder says of a record that was cut off or changed. -/
theorem decodeRecord_damaged {o keep : Nat} {crc : UInt32} {data : Bytes} (ho : 8 ∣ o)
    (hcap : envelopeHeader + data.length ≤ maxEnvelopeLen)
    (hcrc : Distinguishes zeroed (o + 16) crc data)
    (hbad : keep < (encodeRecord crc .entry data).length ∨
      zeroSectors zeroed o (encodeRecord crc .entry data) ≠ encodeRecord crc .entry data)
    (more : Bytes) :
    let dec := decodeRecord crc ((zeroSectors zeroed o
      (encodeRecord crc .entry data ++ more)).take keep)
    dec = .ok .eof ∨ dec = .ok .zeroLen ∨ (∃ fl, dec = .error ⟨.tornRecord, fl⟩) ∨
      ∃ e, dec = .error ⟨e, some (encodeRecord crc .entry data).length⟩ ∧ Invalid e ∧
        (encodeRecord crc .entry data).length ≤ keep ∧
        ∃ q, 8 ≤ q ∧ q < (encodeRecord crc .entry data).length ∧
          (o + q) / sectorSize ∈ zeroed := by
  have hlen := length_encodeRecord crc .entry data
  have hxlen : ((zeroSectors zeroed o (encodeRecord crc .entry data ++ more)).take keep).length =
      min keep ((encodeRecord crc .entry data).length + more.length) := by
    rw [List.length_take, length_zeroSectors, List.length_append]
  have hsplit := zeroSectors_encodeRecord zeroed ho crc .entry data more
  generalize hx : (zeroSectors zeroed o (encodeRecord crc .entry data ++ more)).take keep = x at *
  dsimp only
  by_cases hkeep : keep < 8
  · by_cases hzero : keep = 0
    · left
      rw [← hx, hzero]
      rfl
    · exact .inr (.inr (.inl ⟨none, decodeRecord_short crc (by omega) (by omega)⟩))
  have htake : x.take 8 = if o / sectorSize ∈ zeroed then List.replicate 8 0
      else leBytes 8 (lenFieldOf (envelopeHeader + data.length)) := by
    rw [← hx, List.take_take, Nat.min_eq_left (by omega), hsplit]
    exact List.take_left' (by split <;> simp)
  by_cases hfield : o / sectorSize ∈ zeroed
  · rw [if_pos hfield] at htake
    exact .inr (.inl (decodeRecord_zeroLen crc (by omega) (by rw [htake]; rfl)))
  rw [if_neg hfield] at htake hsplit
  rw [decodeRecord_of_split crc (by rw [htake]; exact splitLenField_encode hcap)
    (Nat.le_add_right ..) hcap (by omega), ← hlen]
  by_cases hshort : keep < (encodeRecord crc .entry data).length
  · rw [if_pos (by omega)]
    exact .inr (.inr (.inl ⟨_, rfl⟩))
  -- the frame is complete and its length field is intact, so its envelope was hit
  have hdamaged : zeroSectors zeroed (o + 8) (envelope crc .entry data) ≠
      envelope crc .entry data := by
    intro henv
    refine hbad.resolve_left hshort ?_
    have h := zeroSectors_encodeRecord zeroed ho crc .entry data []
    rwa [if_neg hfield, henv, ← List.append_assoc, ← List.append_assoc, List.append_nil,
      show zeroSectors zeroed _ ([] : Bytes) = [] from rfl, List.append_nil] at h
  have henv : (x.drop 8).take (envelopeHeader + data.length) =
      zeroSectors zeroed (o + 8) (envelope crc .entry data) := by
    rw [← hx, List.drop_take, List.take_take, Nat.min_eq_left (by omega), hsplit,
      List.drop_left' (by simp)]
    exact List.take_left' (by simp)
  obtain ⟨e, herr, hinv⟩ := decodeEnvelope_damaged (n := (encodeRecord crc .entry data).length)
    (by omega) hcrc hdamaged
  obtain ⟨q, hq, hz, -⟩ := exists_zeroed zeroed hdamaged
  rw [length_envelope] at hq
  rw [if_neg (by omega), henv, herr]
  exact .inr (.inr (.inr ⟨e, rfl, hinv, by omega, 8 + q, by omega, by omega, by
    rwa [← Nat.add_assoc]⟩))

/-- The loop stops at the first record that was cut off or changed, and the classifier lets the rest
of the file be cut off. -/
theorem stops_at_damage (metadata : Bytes) (i : Nat) {seq keep : Nat} {st : ScanState}
    {payload before : Bytes} (ho : 8 ∣ st.validOff) (hbefore : before.length = st.validOff)
    (hfit : payload.length ≤ maxPayload)
    (hcrc : Distinguishes zeroed (st.validOff + 16) st.crc (encodeEntryData seq payload))
    (hbad : keep < (entryFrame st.crc seq payload).length ∨
      zeroSectors zeroed st.validOff (entryFrame st.crc seq payload) ≠
        entryFrame st.crc seq payload)
    (more : Bytes) :
    ∃ e torn, scanFrom metadata i true st ((zeroSectors zeroed st.validOff
        (entryFrame st.crc seq payload ++ more)).take keep) = .ok (st, e) ∧
      classify (before ++ (zeroSectors zeroed st.validOff
        (entryFrame st.crc seq payload ++ more)).take keep) true st.validOff e = .ok torn := by
  rw [scanFrom_eq]
  rcases decodeRecord_damaged ho (entryData_fits hfit) hcrc hbad more with
    hdec | hdec | ⟨fl, hdec⟩ | ⟨e, hdec, hinv, hkeep, q, h8, hq, hz⟩
  · exact ⟨.clean, false, by rw [entryFrame, hdec], rfl⟩
  · exact ⟨.zeroTail, true, by rw [entryFrame, hdec]; rfl, rfl⟩
  · exact ⟨.fail ⟨.tornRecord, fl⟩, true, by rw [entryFrame, hdec], rfl⟩
  · refine ⟨_, true, by rw [entryFrame, hdec], classify_invalid hinv ?_⟩
    refine zeroSector_of_damage hbefore ?_ h8 hq hz
    rw [List.length_append, List.length_take, length_zeroSectors, List.length_append, entryFrame]
    omega

theorem dvd_length_entryFrame (crc : UInt32) (seq : Nat) (payload : Bytes) :
    8 ∣ (entryFrame crc seq payload).length := dvd_length_encodeRecord ..

/-- The offset and the checksum at which consecutive entries are written, from `o` and `crc` on. -/
def writtenAt : Nat → UInt32 → Nat → List Bytes → List (Nat × UInt32 × Entry)
  | _, _, _, [] => []
  | o, crc, seq, p :: ps =>
    (o, crc, ⟨seq, p⟩) ::
      writtenAt (o + (entryFrame crc seq p).length) (entryCrc crc seq p) (seq + 1) ps

/-- How many of these records a crash leaves as they were written, if it keeps so many of their
bytes: those before the first one that is cut off or hit. -/
def survivors (zeroed : List Nat) : Nat → List (Nat × UInt32 × Entry) → Nat
  | _, [] => 0
  | keep, (o, crc, e) :: rest =>
    let frame := entryFrame crc e.seq e.payload
    if keep < frame.length ∨ zeroSectors zeroed o frame ≠ frame then 0
    else survivors zeroed (keep - frame.length) rest + 1

/-- The checksum notices the damage to each of these records. -/
def AllDistinguished (zeroed : List Nat) (records : List (Nat × UInt32 × Entry)) : Prop :=
  ∀ r ∈ records, Distinguishes zeroed (r.1 + 16) r.2.1 (encodeEntryData r.2.2.seq r.2.2.payload)

instance (zeroed : List Nat) (records : List (Nat × UInt32 × Entry)) :
    Decidable (AllDistinguished zeroed records) :=
  inferInstanceAs (Decidable (∀ r ∈ records, _))

/-- Damaged frames replay as a prefix of the entries that they hold. -/
theorem scan_damaged {metadata : Bytes} {i seq keep : Nat} {st : ScanState} {before : Bytes}
    {ps : List Bytes} (ho : 8 ∣ st.validOff) (hbefore : before.length = st.validOff)
    (hfirst : st.firstRecord = false) (hends : EndsBefore st.entries seq)
    (hseq : seq + ps.length ≤ 2 ^ 64) (hfit : ∀ p ∈ ps, p.length ≤ maxPayload)
    (hcrc : AllDistinguished zeroed (writtenAt st.validOff st.crc seq ps)) :
    ∃ j ≤ ps.length, j = survivors zeroed keep (writtenAt st.validOff st.crc seq ps) ∧ ∃ e torn,
      scanFrom metadata i true st
          ((zeroSectors zeroed st.validOff (entryFrames st.crc seq ps)).take keep) =
        .ok (⟨entriesCrc st.crc seq (ps.take j), st.entries ++ numbered seq (ps.take j),
          st.validOff + (entryFrames st.crc seq (ps.take j)).length, false⟩, e) ∧
      (entryFrames st.crc seq (ps.take j)) <+:
        (zeroSectors zeroed st.validOff (entryFrames st.crc seq ps)).take keep ∧
      classify (before ++ (zeroSectors zeroed st.validOff (entryFrames st.crc seq ps)).take keep)
        true (st.validOff + (entryFrames st.crc seq (ps.take j)).length) e = .ok torn := by
  induction ps generalizing st seq keep before with
  | nil =>
    obtain ⟨crc, entries, validOff, firstRecord⟩ := st
    cases hfirst
    refine ⟨0, Nat.le_refl _, rfl, .clean, false, ?_, ?_, rfl⟩
    · simp [entryFrames, entriesCrc, numbered, zeroSectors, scanFrom_nil]
    · exact List.nil_prefix
  | cons p ps ih =>
    rw [List.length_cons] at hseq
    have hp := hfit p List.mem_cons_self
    by_cases hbad : keep < (entryFrame st.crc seq p).length ∨
        zeroSectors zeroed st.validOff (entryFrame st.crc seq p) ≠ entryFrame st.crc seq p
    · obtain ⟨e, torn, hscan, hclass⟩ := stops_at_damage metadata i ho hbefore hp
        (hcrc _ List.mem_cons_self) hbad (entryFrames (entryCrc st.crc seq p) (seq + 1) ps)
      obtain ⟨crc, entries, validOff, firstRecord⟩ := st
      cases hfirst
      refine ⟨0, Nat.zero_le _, ?_, e, torn, ?_, List.nil_prefix, hclass⟩
      · rw [writtenAt, survivors]
        exact (if_pos hbad).symm
      · simpa [entryFrames, entriesCrc, numbered] using hscan
    · have hnot := hbad
      push Not at hbad
      obtain ⟨hkeep, hsame⟩ := hbad
      -- an intact record is accepted, and the rest of the file is damaged behind it
      have hacc : Accepts metadata i st (entryFrame st.crc seq p) _ :=
        accepts_entryFrame (by omega) hp hends
      have hfile : (zeroSectors zeroed st.validOff (entryFrames st.crc seq (p :: ps))).take keep =
          entryFrame st.crc seq p ++ (zeroSectors zeroed
            (st.validOff + (entryFrame st.crc seq p).length)
            (entryFrames (entryCrc st.crc seq p) (seq + 1) ps)).take
            (keep - (entryFrame st.crc seq p).length) := by
        rw [entryFrames, zeroSectors_append, hsame, List.take_append,
          List.take_of_length_le hkeep]
      have hdvd := dvd_length_entryFrame st.crc seq p
      obtain ⟨j, hj, hcount, e, torn, hscan, hpre, hclass⟩ := @ih
        (seq + 1) (keep - (entryFrame st.crc seq p).length)
        ⟨entryCrc st.crc seq p, st.entries ++ [⟨seq, p⟩],
          st.validOff + (entryFrame st.crc seq p).length, false⟩
        (before ++ entryFrame st.crc seq p)
        ((Nat.dvd_add_right ho).mpr hdvd) (by rw [List.length_append, hbefore]) rfl
        (endsBefore_snoc _ _) (by omega) (fun q hq => hfit q (List.mem_cons_of_mem _ hq))
        (fun r hr => hcrc r (List.mem_cons_of_mem _ hr))
      refine ⟨j + 1, Nat.succ_le_succ hj, ?_, e, torn, ?_, ?_, ?_⟩
      · rw [writtenAt, survivors]
        dsimp only
        rw [if_neg hnot, hcount]
      · rw [hfile, scanFrom_accepts hacc, hscan]
        simp [entryFrames, entriesCrc, numbered, Nat.add_assoc]
      · rw [hfile, List.take_succ_cons, entryFrames]
        exact (List.prefix_append_right_inj _).mpr hpre
      · rw [hfile, ← List.append_assoc, List.take_succ_cons, entryFrames, List.length_append,
          ← Nat.add_assoc]
        exact hclass

/-! ## Recovery -/

variable {metadata : Bytes}

theorem dvd_length_entryFrames (crc : UInt32) (seq : Nat) (ps : List Bytes) :
    8 ∣ (entryFrames crc seq ps).length := by
  induction ps generalizing crc seq with
  | nil => exact Nat.dvd_zero 8
  | cons p ps ih =>
    rw [entryFrames, List.length_append]
    exact (Nat.dvd_add_right (dvd_length_entryFrame ..)).mpr (ih ..)

theorem Head.dvd_length_bytes (h : Head) (ps : List Bytes) : 8 ∣ (h.bytes metadata ps).length := by
  rw [Head.bytes, header, List.length_append, List.length_append]
  exact (Nat.dvd_add_right ((Nat.dvd_add_right (dvd_length_encodeRecord ..)).mpr
    (dvd_length_encodeRecord ..))).mpr (dvd_length_entryFrames ..)

namespace Layout

/-- The records of the tail that are not on stable storage, as they were written. -/
def pending (metadata : Bytes) (l : Layout) : List (Nat × UInt32 × Entry) :=
  let h := l.tailHead metadata
  writtenAt (h.bytes metadata (l.tail.take l.synced)).length
    (h.endCrc metadata (l.tail.take l.synced)) (h.first + l.synced) (l.tail.drop l.synced)

/-- The tail is cut behind its first `j` entries. -/
def truncate (l : Layout) (j : Nat) : Layout := { l with tail := l.tail.take j, synced := j }

/-- An empty log is numbered from one on again. -/
def renumber (l : Layout) : Layout :=
  if l.payloads = [] then { l with head := { l.head with first := 1 } } else l

end Layout

theorem Segment.crash_synced (d : Damage) (h : Head) (ps : List Bytes) :
    (h.segment metadata ps ps.length).crash d = h.segment metadata ps ps.length := by
  simp [Segment.crash, Head.segment, zeroSectors]

theorem Head.crash_sealedSegments (d : Damage) (h : Head) (pss : List (List Bytes)) :
    (h.sealedSegments metadata pss).map (Segment.crash d) = h.sealedSegments metadata pss := by
  induction pss generalizing h with
  | nil => rfl
  | cons ps pss ih => rw [Head.sealedSegments, List.map_cons, Segment.crash_synced, ih]

/-- The bytes of a tail after a crash. -/
theorem Head.crash_bytes (d : Damage) (h : Head) (ps : List Bytes) {k : Nat} (hk : k ≤ ps.length) :
    ((h.segment metadata ps k).crash d).bytes = h.bytes metadata (ps.take k) ++
      (zeroSectors d.zeroed (h.bytes metadata (ps.take k)).length
        (entryFrames (h.endCrc metadata (ps.take k)) (h.first + k) (ps.drop k))).take d.keep := by
  simp only [Segment.crash, Head.segment]
  rw [h.bytes_split hk, List.take_left, List.drop_left]

/-- A tail after a crash replays as a prefix of its entries that holds those on stable storage. -/
theorem Head.scan_crashed {h : Head} {ps : List Bytes} {k i : Nat} {c : UInt32}
    {entries : List Entry} {d : Damage} (hmeta : MetadataFits metadata) (hk : k ≤ ps.length)
    (hc : i = 0 ∨ c = h.crc) (hseq : h.first + ps.length ≤ 2 ^ 64)
    (hfit : ∀ p ∈ ps, p.length ≤ maxPayload) (hends : EndsBefore entries h.first)
    (hcrc : AllDistinguished d.zeroed (writtenAt (h.bytes metadata (ps.take k)).length
      (h.endCrc metadata (ps.take k)) (h.first + k) (ps.drop k))) :
    ∃ j torn, k ≤ j ∧ j ≤ ps.length ∧
      j = k + survivors d.zeroed d.keep (writtenAt (h.bytes metadata (ps.take k)).length
        (h.endCrc metadata (ps.take k)) (h.first + k) (ps.drop k)) ∧
      scanSegment ((h.segment metadata ps k).crash d).bytes i true metadata c entries =
        .ok (⟨(h.bytes metadata (ps.take j)).length, torn⟩, h.endCrc metadata (ps.take j),
          entries ++ numbered h.first (ps.take j)) ∧
      ((h.segment metadata ps k).crash d).bytes.take (h.bytes metadata (ps.take j)).length =
        h.bytes metadata (ps.take j) := by
  have hlen : (ps.take k).length = k := List.length_take_of_le hk
  have hacc : Accepts metadata i ⟨c, entries, 0, true⟩ (h.bytes metadata (ps.take k)) _ :=
    Layout.accepts_head hmeta hc (by omega) (fun p hp => hfit p (List.mem_of_mem_take hp)) hends
  have hends' := Layout.endsBefore_numbered hends (ps.take k)
  rw [hlen] at hends'
  obtain ⟨j, hj, hcount, e, torn, hscan, hpre, hclass⟩ := @scan_damaged _ d.zeroed metadata i
    (h.first + k) d.keep ⟨h.endCrc metadata (ps.take k), entries ++ numbered h.first (ps.take k),
      (h.bytes metadata (ps.take k)).length, false⟩ (h.bytes metadata (ps.take k)) (ps.drop k)
    (h.dvd_length_bytes _) rfl rfl hends' (by rw [List.length_drop]; omega)
    (fun p hp => hfit p (List.mem_of_mem_drop hp)) hcrc
  rw [List.length_drop] at hj
  have htake : ps.take (k + j) = ps.take k ++ (ps.drop k).take j := List.take_add
  have hbytes : h.bytes metadata (ps.take (k + j)) = h.bytes metadata (ps.take k) ++
      entryFrames (h.endCrc metadata (ps.take k)) (h.first + k) ((ps.drop k).take j) := by
    rw [htake, Head.bytes_append, hlen]
  refine ⟨k + j, torn, by omega, by omega, congrArg (k + ·) hcount, ?_, ?_⟩
  · unfold scanSegment
    rw [Head.crash_bytes d h ps hk, scanFrom_accepts hacc, hscan]
    dsimp only
    rw [hclass, hbytes, List.length_append, htake, numbered_append, hlen, List.append_assoc,
      Head.endCrc, Head.endCrc, entriesCrc_append, hlen]
  · rw [Head.crash_bytes d h ps hk, hbytes]
    exact List.prefix_iff_eq_take.mp ((List.prefix_append_right_inj _).mpr hpre) |>.symm

namespace Layout

variable {l : Layout}

section

omit [Crc32c]

theorem truncate_valid (h : l.Valid) {j : Nat} (hj : j ≤ l.tail.length) : (l.truncate j).Valid :=
  { h with
    fits := fun p hp => h.fits p (by
      simp only [payloads, truncate, List.mem_append] at hp ⊢
      exact hp.imp_right List.mem_of_mem_take)
    synced_le := by simp [truncate, hj]
    nextSeq_lt := by
      have := h.nextSeq_lt
      simp only [nextSeq, payloads, truncate, List.length_append, List.length_take] at this ⊢
      omega }

/-- An empty log is one header. -/
theorem sealed_eq_nil (h : l.Valid) (hempty : l.payloads = []) : l.sealed = [] ∧ l.tail = [] := by
  obtain ⟨hsealed, htail⟩ := List.append_eq_nil_iff.mp hempty
  refine ⟨?_, htail⟩
  cases hl : l.sealed with
  | nil => rfl
  | cons ps rest =>
    have hne := h.sealed_ne ps (by rw [hl]; exact List.mem_cons_self)
    rw [hl, List.flatten_cons] at hsealed
    exact absurd (List.append_eq_nil_iff.mp hsealed).1 hne

theorem renumber_valid (h : l.Valid) : l.renumber.Valid := by
  unfold renumber
  split
  · next hempty =>
    exact
      { h with
        first_pos := Nat.one_pos
        nextSeq_lt := by
          have : payloads { l with head := { l.head with first := 1 } } = [] := hempty
          rw [nextSeq, this]
          exact Nat.one_lt_two_pow (by decide) }
  · exact h

end

omit [Crc32c] in
theorem nextSeq_renumber (l : Layout) : l.renumber.nextSeq = nextSeqAfter l.entries := by
  unfold renumber entries
  rw [nextSeqAfter_numbered]
  split
  · next hempty =>
    have : payloads { l with head := { l.head with first := 1 } } = [] := hempty
    rw [nextSeq, this]
    rfl
  · rfl

theorem dir_renumber (h : l.Valid) : l.renumber.dir metadata = l.dir metadata := by
  unfold renumber
  split
  · next hempty =>
    obtain ⟨hsealed, htail⟩ := sealed_eq_nil h hempty
    simp only [dir, tailHead, hsealed, htail, Head.after, Head.sealedSegments, Head.segment,
      Head.bytes, entryFrames, List.take_nil]
  · rfl

/-- The handle that `openDir` builds on a log all of which is on stable storage. -/
theorem handle_renumber (h : l.Valid) (hsynced : l.synced = l.tail.length) (segmentSize : Nat) :
    l.renumber.handle metadata segmentSize =
      ⟨metadata, ((l.tailHead metadata).bytes metadata l.tail).length,
        (l.tailHead metadata).endCrc metadata l.tail, (l.tailHead metadata).seq,
        nextSeqAfter l.entries, nextSeqAfter l.entries - 1, false, segmentSize⟩ := by
  rw [← nextSeq_renumber, nextSeq_eq metadata]
  unfold renumber
  split
  · next hempty =>
    obtain ⟨hsealed, htail⟩ := sealed_eq_nil h hempty
    rw [htail] at hsynced
    simp [handle, tailHead, hsealed, htail, hsynced, Head.after, Head.bytes, Head.endCrc,
      Head.bodyCrc, entryFrames, entriesCrc]
  · simp [handle, hsynced]

/-- Opening a log after a crash: everything on stable storage comes back, and a prefix of the rest.
-/
theorem open_crashed (h : l.Valid) (hmeta : MetadataFits metadata) (d : Damage)
    (hcrc : AllDistinguished d.zeroed (l.pending metadata)) (segmentSize : Nat) :
    ∃ j, l.synced ≤ j ∧ j ≤ l.tail.length ∧
      j = l.synced + survivors d.zeroed d.keep (l.pending metadata) ∧
      Wal.openDir ((l.dir metadata).map (Segment.crash d)) metadata segmentSize =
        .ok ((l.truncate j).entries, (l.truncate j).renumber.handle metadata segmentSize,
          (l.truncate j).renumber.dir metadata) := by
  have hnext := h.nextSeq_lt
  have hfirst : (l.tailHead metadata).first = l.head.first + l.sealed.flatten.length :=
    Head.first_after ..
  simp only [nextSeq, payloads, List.length_append] at hnext
  -- The crash hits the tail alone; the sealed files are read as they were.
  obtain ⟨c, hsealed, hc⟩ := @scanSealed_layout _ metadata l.head l.sealed 0 0 [] hmeta (.inl rfl)
    (by omega) (fun p hp => h.fits p (List.mem_append_left _ hp)) (endsBefore_nil _)
  have hends : EndsBefore ([] ++ numbered l.head.first l.sealed.flatten)
      (l.tailHead metadata).first := hfirst ▸ endsBefore_numbered (endsBefore_nil _) _
  rw [Nat.zero_add] at hc
  have hc : l.sealed.length = 0 ∨ c = (l.tailHead metadata).crc := hc
  obtain ⟨j, torn, hkj, hj, hcount, hscan, hbytes⟩ := Head.scan_crashed hmeta h.synced_le hc
    (by rw [← nextSeq_eq]; exact h.nextSeq_lt.le)
    (fun p hp => h.fits p (List.mem_append_right _ hp)) hends hcrc
  refine ⟨j, hkj, hj, hcount, ?_⟩
  have hdir : (l.dir metadata).map (Segment.crash d) =
      l.head.sealedSegments metadata l.sealed ++
        [((l.tailHead metadata).segment metadata l.tail l.synced).crash d] := by
    rw [dir, List.map_append, Head.crash_sealedSegments]
    rfl
  have hseqs : ((l.dir metadata).map (Segment.crash d)).map Segment.seq =
      (l.dir metadata).map Segment.seq := by
    rw [List.map_map]
    rfl
  have hcont := (contiguous h).congr hseqs
  have hentries : [] ++ numbered l.head.first l.sealed.flatten ++
      numbered (l.tailHead metadata).first (l.tail.take j) = (l.truncate j).entries := by
    rw [hfirst, List.nil_append, ← numbered_append]
    rfl
  have hvalid := truncate_valid h hj
  have hbound : nextSeqAfter (l.truncate j).entries < 2 ^ 64 :=
    nextSeq_renumber _ ▸ (renumber_valid hvalid).nextSeq_lt
  rw [hentries] at hscan
  rw [hdir] at hcont ⊢
  rw [openDir_eq hcont hsealed (by rw [Head.length_sealedSegments]; exact hscan) hbound,
    handle_renumber hvalid (by simp [truncate, hj]), dir_renumber hvalid]
  have htail : (((l.tailHead metadata).segment metadata l.tail l.synced).crash d).truncate
      ((l.tailHead metadata).bytes metadata (l.tail.take j)).length =
      (l.tailHead metadata).segment metadata (l.tail.take j) j := by
    unfold Segment.truncate
    rw [hbytes]
    simp only [Head.segment, Segment.crash, List.take_take, Nat.min_self]
  rw [htail]
  rfl

end Layout

end Damaged

end P2P333.Substrate
