import P2P333.Substrate.Wal.Resume

/-!
# Damage to what was synced

One byte of a segment file is changed after everything was synced. The checksum covers only the data
of a record; the length field and the kind steer the reader, and a record that fails in the last
file is taken for a torn one if a chunk of it is all zero. So the change can make `open` cut the log
off without an error.

`Place` is a record that the replay comes to, with what is around it. `Place.Safe` says for each
part of the record which values of a byte do no harm.

Results:
1. `harmless_iff`: damage is harmless if and only if a replay of the damaged files fails or finds
   the old entries and nothing torn.
2. `harmless_iff_safe`: in every state that a run reaches with everything synced, a changed byte is
   harmless if and only if it is safe for the record that holds it.
3. `synced_log_wiped`: clearing the kind of the first record wipes a log.
-/

namespace P2P333.Substrate

open Lib

/-! ## Definitions -/

/-- Byte `x` of file `k` becomes `b`. -/
def setByte (dir : Dir) (k x : Nat) (b : UInt8) : Dir :=
  dir.modify k fun s => { s with bytes := s.bytes.set x b }

/-- A record in its file: the bytes in front of it, what the reader has when it comes to it, its
frame, what the reader makes of it, the bytes behind it, what the reader has at the end of the file,
and the files behind. `passed` are the entries up to the record and with it. -/
structure Place where
  file : Nat
  pre : Bytes
  st : ScanState
  frame : Bytes
  record : Record
  passed : List Entry
  post : Bytes
  last : ScanState
  rest : List Segment

section Damage

variable [Crc32c] (metadata : Bytes)

/-- Whatever succeeds on the damaged directory finds the entries of the undamaged one, and cuts
nothing off. -/
def Harmless (dir dir' : Dir) : Prop :=
  ∀ segmentSize entries w d, Wal.openDir dir metadata segmentSize = .ok (entries, w, d) →
    (∀ entries' w' d', Wal.openDir dir' metadata segmentSize = .ok (entries', w', d') →
      entries' = entries ∧ d'.map Segment.bytes = dir'.map Segment.bytes) ∧
    (∀ report, Wal.verify dir' metadata = .ok report → Wal.verify dir metadata = .ok report) ∧
    ∀ report d', Wal.repair dir' metadata segmentSize = .ok (report, d') →
      report.truncated = false ∧ d'.map Segment.bytes = dir'.map Segment.bytes

namespace Place

variable (p : Place) (log : List Entry)

/-- The replay of the directory comes to the record, accepts it, and goes on to the end of the
log. -/
structure In (dir : Dir) : Prop where
  reached : ∃ init s c es, dir = init ++ s :: p.rest ∧ init.length = p.file ∧
    s.bytes = p.pre ++ (p.frame ++ p.post) ∧ scanSealed metadata 0 0 [] init = .ok (c, es) ∧
    Accepts metadata p.file ⟨c, es, 0, true⟩ p.pre p.st
  headed : ∃ crc more, p.pre ++ (p.frame ++ p.post) = header metadata crc ++ more
  decoded : decodeRecord p.st.crc p.frame = .ok (.record p.record p.frame.length p.record.crc)
  gated : gate metadata p.file p.st p.record = .ok p.passed
  onwards : Accepts metadata p.file ⟨p.record.crc, p.passed, p.st.validOff + p.frame.length, false⟩
    p.post p.last
  behind : Chain metadata (p.file + 1) p.last.crc p.last.entries p.rest log

/-- Where the frame ends. -/
def stop : Nat := p.st.validOff + p.frame.length

/-- The entries behind the record. -/
def after : List Entry := log.drop p.passed.length

/-- The entries in the files behind that of the record. -/
def beyond : List Entry := log.drop p.last.entries.length

/-- `file` has another length field. With a zero the file ends there, and the next one must show
that something is missing. Otherwise the record ends elsewhere. -/
def SafeLength (file : Bytes) : Prop :=
  let lenField := ofLeBytes ((file.drop p.st.validOff).take 8)
  let torn := TakenAsTorn p.rest file p.st.validOff (p.st.validOff + 8 + unknownExtentScan)
  if lenField = 0 then
    p.rest ≠ [] ∧ (p.last.crc ≠ p.st.crc ∨ GoesOn log p.st.entries (p.beyond log))
  else
    match splitLenField lenField with
    | none => ¬ torn
    | some (envLen, pad) =>
      if envLen < envelopeHeader ∨ envLen > maxEnvelopeLen then ¬ torn
      else if file.length < p.st.validOff + (8 + envLen + pad) then p.rest ≠ []
      else
        let data := (file.drop (p.st.validOff + 16)).take (envLen - envelopeHeader)
        FrameAgrees metadata log p.file p.rest file p.st (p.st.validOff + (8 + envLen + pad))
          p.record.kind.toU8 p.record.crc data

/-- `file` has another kind at the record. If its checksum and the gate of that kind let it pass,
the numbers behind it decide. -/
def SafeKind (file : Bytes) (b : UInt8) : Prop :=
  match RecordKind.fromU8 b with
  | none => ¬ TakenAsTorn p.rest file p.st.validOff p.stop
  | some kind =>
    if kind ≠ .crcSeed ∧ Crc32c.append p.st.crc p.record.data ≠ p.record.crc then
      ¬ TakenAsTorn p.rest file p.st.validOff p.stop
    else ∀ entries, gate metadata p.file p.st ⟨kind, p.record.crc, p.record.data⟩ = .ok entries →
      GoesOn log entries (p.after log)

/-- `file` has the byte `b` at `j` in the frame. The reserved bytes and the padding are not looked
at. The checksum of the oldest seed is noticed only at the metadata behind it. -/
def Safe (file : Bytes) (j : Nat) (b : UInt8) : Prop :=
  if j < 8 then p.SafeLength metadata log file
  else if j = 8 then p.SafeKind metadata log file b
  else if p.record.kind = .crcSeed then
    12 ≤ j → j < 16 → p.file = 0 → p.st.firstRecord = true →
      ¬ TakenAsTorn p.rest file p.stop
        (p.stop + (encodeRecord p.record.crc .metadata metadata).length)
  else 12 ≤ j → j < 16 + p.record.data.length → ¬ TakenAsTorn p.rest file p.st.validOff p.stop

end Place

/-! ## Whole directories -/

variable {metadata} {i k x : Nat} {file : Bytes} {st st' : ScanState} {c : UInt32}
  {es log : List Entry} {dir dir' : Dir} {b : UInt8}

omit [Crc32c] in
theorem setByte_append (init : List Segment) (s : Segment) (rest : List Segment) (x : Nat)
    (b : UInt8) :
    setByte (init ++ s :: rest) init.length x b =
      init ++ { s with bytes := s.bytes.set x b } :: rest := by
  unfold setByte
  induction init with
  | nil => rfl
  | cons t init ih => rw [List.cons_append, List.length_cons, List.modify_succ_cons, ih]; rfl

/-- A scan of the last file that ends without a failure has come to its end. -/
theorem validOff_of_clean {r : Bytes} (h : scanFrom metadata i true st r = .ok (st', .clean)) :
    st'.validOff = st.validOff + r.length := by
  obtain ⟨hacc, hle, hend⟩ := accepts_of_scanFrom h
  suffices hnil : r.drop (st'.validOff - st.validOff) = [] by
    have hlen := congrArg List.length hnil
    have hoff := hacc.validOff
    rw [List.length_drop, List.length_nil] at hlen
    rw [List.length_take] at hoff
    omega
  generalize r.drop (st'.validOff - st.validOff) = q at hend
  rw [scanFrom_eq] at hend
  split at hend
  · next rec n crc hdec =>
    split at hend
    · cases hend
    next st1 hturn =>
    have hoff := turn_validOff hturn
    have hoff' := (accepts_of_scanFrom hend).1.validOff
    have := (decodeRecord_pos hdec).1
    omega
  · next hdec =>
    by_contra hne
    unfold decodeRecord at hdec
    rw [if_neg hne] at hdec
    split at hdec
    · cases hdec
    dsimp only at hdec
    split at hdec
    · cases hdec
    split at hdec
    · cases hdec
    split at hdec
    · cases hdec
    split at hdec
    · cases hdec
    split at hdec
    · cases hdec
    · cases hdec
  · cases hend
  · cases hend

theorem scanAll_validOff {init : List Segment} {tail : Segment} {r : Replay}
    (h : scanAll metadata 0 0 [] (init ++ [tail]) = .ok r) (htorn : r.torn = false) :
    r.validOff = tail.bytes.length := by
  rw [scanAll_concat] at h
  split at h
  · cases h
  next c es hsealed =>
  split at h
  · cases h
  next scan c' es' hseg =>
  cases h
  unfold scanSegment at hseg
  split at hseg
  · cases hseg
  next st e hscan =>
  split at hseg
  · cases hseg
  next torn hclass =>
  cases hseg
  cases e with
  | clean => exact (validOff_of_clean hscan).trans (Nat.zero_add _)
  | zeroTail =>
    cases hclass
    cases htorn
  | fail df =>
    unfold classify at hclass
    dsimp only at hclass
    split at hclass
    · cases hclass
      cases htorn
    · cases hclass

omit [Crc32c] in
theorem bytes_sync (w : Wal) (dir : Dir) (hne : dir ≠ []) :
    (w.sync dir).2.2.map Segment.bytes = dir.map Segment.bytes := by
  unfold Wal.sync
  split
  · obtain ⟨init, tail, rfl⟩ : ∃ init tail, dir = init ++ [tail] :=
      ⟨_, _, (List.dropLast_concat_getLast hne).symm⟩
    simp [Segment.sync, List.modifyLast_concat]
  · rfl

/-- A directory that replays to its end, with nothing torn. -/
structure Replays (metadata : Bytes) (dir : Dir) (log : List Entry) : Prop where
  contiguous : Contiguous dir
  ne_nil : dir ≠ []
  scan : ∃ r, scanAll metadata 0 0 [] dir = .ok r ∧ r.entries = log ∧ r.torn = false
  bound : ∀ e ∈ log, e.seq + 1 < 2 ^ 64

section

variable (h : Replays metadata dir log)
include h

theorem Replays.opens (segmentSize : Nat) :
    ∃ w d, Wal.openDir dir metadata segmentSize = .ok (log, w, d) ∧
      d.map Segment.bytes = dir.map Segment.bytes := by
  obtain ⟨r, hscan, rfl, htorn⟩ := h.scan
  have hbound : ¬ nextSeqAfter r.entries ≥ 2 ^ 64 := by
    unfold nextSeqAfter
    split
    · decide
    · next e he => exact Nat.not_le.mpr (h.bound e (List.mem_of_getLast? he))
  unfold Wal.openDir
  rw [h.contiguous.listSegments h.ne_nil]
  dsimp only
  rw [hscan]
  dsimp only
  rw [if_neg hbound]
  refine ⟨_, _, rfl, ?_⟩
  obtain ⟨init, tail, rfl⟩ : ∃ init tail, dir = init ++ [tail] :=
    ⟨_, _, (List.dropLast_concat_getLast h.ne_nil).symm⟩
  rw [List.modifyLast_concat, scanAll_validOff hscan htorn]
  simp [Segment.truncate]

theorem Replays.verify :
    Wal.verify dir metadata = .ok ⟨dir.length, log.length, (log.head?.map Entry.seq).getD 0,
      (log.getLast?.map Entry.seq).getD 0, false⟩ := by
  obtain ⟨r, hscan, rfl, htorn⟩ := h.scan
  unfold Wal.verify
  rw [h.contiguous.listSegments h.ne_nil]
  dsimp only
  rw [hscan, ← htorn]

theorem harmless_of_replays (h' : Replays metadata dir' log)
    (hlen : dir'.length = dir.length) : Harmless metadata dir dir' := by
  intro segmentSize entries w d hopen
  obtain ⟨w₁, d₁, hopen₁, -⟩ := h.opens segmentSize
  obtain ⟨w₂, d₂, hopen₂, hbytes⟩ := h'.opens segmentSize
  obtain rfl : log = entries := by
    rw [hopen₁] at hopen
    cases hopen
    rfl
  refine ⟨fun entries' w' d' hopen' => ?_, fun report hverify => ?_, fun report d' hrepair => ?_⟩
  · rw [hopen₂] at hopen'
    cases hopen'
    exact ⟨rfl, hbytes⟩
  · rw [h'.verify, hlen] at hverify
    exact h.verify.trans hverify
  · unfold Wal.repair at hrepair
    rw [h'.verify, hopen₂] at hrepair
    cases hrepair
    refine ⟨rfl, (bytes_sync _ _ fun hnil => h'.ne_nil ?_).trans hbytes⟩
    rw [hnil] at hbytes
    exact List.map_eq_nil_iff.mp hbytes.symm

/-- Success on the damaged files is success of the replay. -/
theorem harmless_iff (hcont : Contiguous dir') (hlen : dir'.length = dir.length) :
    Harmless metadata dir dir' ↔ Agrees log (scanAll metadata 0 0 [] dir') := by
  have hne : dir' ≠ [] := by
    rw [← List.length_pos_iff, hlen]
    exact List.length_pos_iff.mpr h.ne_nil
  cases hscan : scanAll metadata 0 0 [] dir' with
  | error e =>
    refine iff_of_true ?_ (agrees_error e)
    have hopen : ∀ segmentSize, Wal.openDir dir' metadata segmentSize = .error e := by
      intro segmentSize
      unfold Wal.openDir
      rw [hcont.listSegments hne]
      dsimp only
      rw [hscan]
    have hverify : Wal.verify dir' metadata = .error e := by
      unfold Wal.verify
      rw [hcont.listSegments hne]
      dsimp only
      rw [hscan]
    intro segmentSize entries w d _
    refine ⟨fun _ _ _ h => ?_, fun _ h => ?_, fun _ _ h => ?_⟩
    · rw [hopen] at h
      cases h
    · rw [hverify] at h
      cases h
    · unfold Wal.repair at h
      rw [hverify] at h
      cases h
  | ok r =>
    rw [agrees_ok]
    constructor
    · intro hharm
      obtain ⟨w, d, hopen, -⟩ := h.opens 0
      have hverify' : Wal.verify dir' metadata = .ok ⟨dir'.length, r.entries.length,
          (r.entries.head?.map Entry.seq).getD 0, (r.entries.getLast?.map Entry.seq).getD 0,
          r.torn⟩ := by
        unfold Wal.verify
        rw [hcont.listSegments hne]
        dsimp only
        rw [hscan]
      have hreport := (hharm _ _ _ _ hopen).2.1 _ hverify'
      rw [h.verify] at hreport
      obtain ⟨-, -, -, hlast, htorn⟩ := VerifyReport.mk.inj (Except.ok.inj hreport)
      -- the last number is that of the old log, so the log opens
      have hbound : ¬ nextSeqAfter r.entries ≥ 2 ^ 64 := by
        unfold nextSeqAfter
        split
        · decide
        next e he =>
        rw [he] at hlast
        cases hold : log.getLast? with
        | none =>
          rw [hold] at hlast
          have hzero : 0 = e.seq := hlast
          rw [← hzero]
          decide
        | some e' =>
          rw [hold] at hlast
          have hseq : e'.seq = e.seq := hlast
          rw [← hseq]
          exact Nat.not_le.mpr (h.bound e' (List.mem_of_getLast? hold))
      have hopen' : ∃ w' d', Wal.openDir dir' metadata 0 = .ok (r.entries, w', d') := by
        unfold Wal.openDir
        rw [hcont.listSegments hne]
        dsimp only
        rw [hscan]
        dsimp only
        rw [if_neg hbound]
        exact ⟨_, _, rfl⟩
      obtain ⟨w', d', hopen'⟩ := hopen'
      exact ⟨((hharm _ _ _ _ hopen).1 _ _ _ hopen').1, htorn.symm⟩
    · rintro ⟨hentries, htorn⟩
      exact harmless_of_replays h ⟨hcont, hne, ⟨r, hscan, hentries, htorn⟩, h.bound⟩ hlen

end

/-! ## The parts of a frame -/

section

omit [Crc32c]

theorem RecordKind.toU8_of_fromU8 {kind : RecordKind} (h : fromU8 b = some kind) :
    b = kind.toU8 := by
  unfold fromU8 at h
  split_ifs at h with h₁ h₂ h₃
  · cases h
    exact h₁
  · cases h
    exact h₂
  · cases h
    exact h₃

/-- Kind and checksum lie in the first eight bytes of an envelope. -/
theorem envelope_congr {env env' : Bytes} (h : env.take 8 = env'.take 8) :
    env.getD 0 0 = env'.getD 0 0 ∧ storedCrc env = storedCrc env' := by
  have hget : ∀ e : Bytes, e.getD 0 0 = (e.take 8).getD 0 0 := by
    intro e
    simp [List.getD_eq_getElem?_getD]
  have hmid : ∀ e : Bytes, (e.drop 4).take 4 = (e.take 8).drop 4 := fun e => by rw [List.drop_take]
  rw [storedCrc, storedCrc, hmid, hmid, hget, hget env', h]
  exact ⟨rfl, rfl⟩

theorem storedCrc_set_ne {env : Bytes} {m : Nat} (hm : 4 ≤ m) (hm' : m < 8)
    (hlen : 8 ≤ env.length) (hne : env[m]? ≠ some b) : storedCrc (env.set m b) ≠ storedCrc env := by
  have hinj : ∀ {a a' : Bytes}, a.length = 4 → a'.length = 4 →
      UInt32.ofNat (ofLeBytes a) = UInt32.ofNat (ofLeBytes a') → a = a' := by
    intro a a' ha ha' h
    have hlt := ofLeBytes_lt a
    have hlt' := ofLeBytes_lt a'
    have h := congrArg UInt32.toNat h
    rw [ha] at hlt
    rw [ha'] at hlt'
    rw [UInt32.toNat_ofNat_of_lt' hlt, UInt32.toNat_ofNat_of_lt' hlt'] at h
    rw [← leBytes_ofLeBytes a, ← leBytes_ofLeBytes a', ha, ha', h]
  intro h
  rw [storedCrc, storedCrc, List.drop_set, if_neg (by omega), List.take_set] at h
  have hcrc := hinj (by simp; omega) (by simp; omega) h
  have hget := congrArg (·[m - 4]?) hcrc
  rw [List.getElem?_set_self (by simp; omega), List.getElem?_take_of_lt (by omega),
    List.getElem?_drop, Nat.add_sub_cancel' hm] at hget
  exact hne hget.symm

end

/-! ## Reading a changed record -/

namespace Place.In

variable {p : Place}

/-- Reading on behind the record, with other entries in front of what follows. -/
theorem reads_on (hp : p.In metadata log dir) :
    p.passed ++ p.after log = log ∧
      (∀ es, Agrees log (scanAll metadata (p.file + 1) p.last.crc es p.rest) ↔
        GoesOn log es (p.beyond log)) ∧
      ∀ {es file}, file.drop p.stop = p.post →
        (Agrees log (readOn metadata p.file p.rest file ⟨p.record.crc, es, p.stop, false⟩) ↔
          GoesOn log es (p.after log)) := by
  obtain ⟨more, hlog, hcont, hbehind⟩ := hp.behind.agrees
  obtain ⟨added, hadded, -, hagrees⟩ := hp.onwards.agrees hcont hbehind
  have hbeyond : p.beyond log = more := by
    rw [beyond, hlog]
    exact List.drop_left
  have hafter : p.after log = added ++ more := by
    rw [after, hlog, hadded, List.append_assoc]
    exact List.drop_left
  refine ⟨?_, ?_, ?_⟩
  · rw [hafter, ← List.append_assoc]
    exact hadded ▸ hlog.symm
  · rw [hbeyond]
    exact hbehind log
  · rw [hafter]
    exact fun hfile => hagrees log _ _ hfile

/-- The record as it was. -/
theorem reads_unchanged (hp : p.In metadata log dir) (hpost : file.drop p.stop = p.post)
    (entries : List Entry) (h : gate metadata p.file p.st p.record = .ok entries) :
    Agrees log (readOn metadata p.file p.rest file ⟨p.record.crc, entries, p.stop, false⟩) := by
  cases hp.gated.symm.trans h
  exact (hp.reads_on.2.2 hpost).mpr (.inr hp.reads_on.1)

/-- Another checksum in the oldest seed. The metadata behind it does not go on from there. -/
theorem reads_seed [LawfulCrc32c] (hp : p.In metadata log dir) (hmeta : MetadataFits metadata)
    (hfirst : p.st.firstRecord = true) (hpost : file.drop p.stop = p.post) {crc : UInt32}
    (hcrc : crc ≠ p.record.crc) :
    Agrees log (readOn metadata p.file p.rest file ⟨crc, es, p.stop, false⟩) ↔
      ¬ TakenAsTorn p.rest file p.stop
        (p.stop + (encodeRecord p.record.crc .metadata metadata).length) := by
  obtain ⟨_, _, _, _, -, -, -, -, hacc⟩ := hp.reached
  obtain ⟨crc₀, more, hheaded⟩ := hp.headed
  rw [(hacc.eq_nil hfirst).1, List.nil_append, header, List.append_assoc] at hheaded
  have hdec := decodeRecord_append hp.decoded p.post
  rw [hheaded, decodeRecord_encodeRecord (.inl rfl) (by decide)] at hdec
  obtain ⟨hrec, hlen, -⟩ := Decoded.record.inj (Except.ok.inj hdec)
  obtain rfl : crc₀ = p.record.crc := congrArg Record.crc hrec
  have hdrop := hpost.trans (List.append_inj hheaded hlen.symm).2
  have hfits := congrArg List.length hdrop
  rw [List.length_drop, List.length_append, length_encodeRecord] at hfits
  have henv : decodeEnvelope p.record.crc 0 (envelope p.record.crc .metadata metadata) = _ :=
    decodeEnvelope_envelope (.inr rfl) metadata 0
  obtain ⟨hbyte, hdata, -, hstored, -⟩ := decodeEnvelope_eq_ok henv
  have htake : ((file.drop p.stop).drop 8).take (envelopeHeader + metadata.length) =
      envelope p.record.crc .metadata metadata := by
    rw [hdrop, drop_encodeRecord, List.take_left' (length_envelope ..)]
  rw [agrees_frame
    (by rw [hdrop, take_encodeRecord, splitLenField_encode hmeta]) (Nat.le_add_right ..) hmeta
    (by
      show p.stop + _ ≤ _
      omega)
    htake, FrameAgrees, hbyte, ← hstored, ← hdata, ← length_encodeRecord p.record.crc .metadata]
  dsimp only
  rw [if_pos ⟨by decide, fun heq => hcrc (LawfulCrc32c.append_inj heq)⟩]

variable {j : Nat} (hfile : file.drop p.st.validOff = p.frame.set j b ++ p.post)
include hfile

omit [Crc32c] in
theorem drop_stop : file.drop p.stop = p.post := by
  rw [stop, ← List.drop_drop, hfile]
  exact List.drop_left' List.length_set

/-- A changed byte behind the length field. -/
theorem agrees_of_le [LawfulCrc32c] (hp : p.In metadata log dir) (hmeta : MetadataFits metadata)
    (hj : 8 ≤ j) (hlt : j < p.frame.length) (hne : p.frame[j]? ≠ some b) :
    Agrees log (readOn metadata p.file p.rest file p.st) ↔ p.Safe metadata log file j b := by
  have hpost := drop_stop hfile
  obtain ⟨envLen, pad, hsplit, hmin, hmax, hlen, -, henv⟩ := decodeRecord_eq_record.mp hp.decoded
  obtain ⟨hbyte, hdata, -, hstored, hchecked⟩ := decodeEnvelope_eq_ok henv
  generalize henv' : (p.frame.drop 8).take envLen = env at hbyte hdata hstored
  have henvLen : env.length = envLen := by
    rw [← henv', List.length_take, List.length_drop]
    omega
  have hdataLen : p.record.data.length = envLen - envelopeHeader := by
    rw [hdata, List.length_drop, henvLen]
  have hnew : ((file.drop p.st.validOff).drop 8).take envLen = env.set (j - 8) b := by
    rw [hfile, List.drop_append_of_le_length (by simp; omega), List.drop_set, if_neg (by omega),
      List.take_append_of_le_length (by simp; omega), List.take_set, henv']
  have hhead : (file.drop p.st.validOff).take 8 = p.frame.take 8 := by
    rw [hfile, List.take_append_of_le_length (by simp; omega), List.take_set,
      List.set_eq_of_length_le (by simp; omega)]
  have hold : env[j - 8]? ≠ some b ∨ env.length ≤ j - 8 := by
    by_cases hin : j - 8 < envLen
    · refine .inl ?_
      rwa [← henv', List.getElem?_take_of_lt hin, List.getElem?_drop, Nat.add_sub_cancel' hj]
    · exact .inr (by omega)
  have hfull := congrArg List.length hfile
  rw [List.length_drop, List.length_append, List.length_set] at hfull
  rw [agrees_frame (hhead ▸ hsplit) hmin hmax (by omega) hnew, ← hlen, Safe,
    if_neg (Nat.not_lt.mpr hj)]
  show FrameAgrees metadata log p.file p.rest file p.st p.stop _ _ _ ↔ _
  unfold envelopeHeader at *
  by_cases hj8 : j = 8
  · subst hj8
    have hb : (env.set 0 b).getD 0 0 = b := by
      rw [List.getD_eq_getElem?_getD, List.getElem?_set_self (by omega)]
      rfl
    have hrest : ∀ n, 0 < n → (env.set 0 b).drop n = env.drop n :=
      fun n hn => List.drop_set_of_lt hn
    rw [if_pos rfl, Nat.sub_self, hb, hrest 8 (by decide), ← hdata, storedCrc, hrest 4 (by decide),
      ← storedCrc, ← hstored, SafeKind, FrameAgrees]
    cases RecordKind.fromU8 b with
    | none => rfl
    | some kind =>
      dsimp only
      split
      · rfl
      · exact forall₂_congr fun entries _ => hp.reads_on.2.2 hpost
  have hkind : RecordKind.fromU8 ((env.set (j - 8) b).getD 0 0) = some p.record.kind := by
    rw [List.getD_eq_getElem?_getD, List.getElem?_set_ne (by omega), ← List.getD_eq_getElem?_getD,
      hbyte]
  rw [if_neg hj8, FrameAgrees, hkind]
  dsimp only
  -- which of checksum and data the byte belongs to
  have hcrc : 12 ≤ j ∧ j < 16 ∨ storedCrc (env.set (j - 8) b) = p.record.crc := by
    by_cases hin : 12 ≤ j ∧ j < 16
    · exact .inl hin
    · refine .inr (hstored ▸ ?_)
      by_cases hj12 : j < 12
      · rw [storedCrc, List.drop_set_of_lt (by omega)]
        rfl
      · refine (envelope_congr ?_).2
        rw [List.take_set, List.set_eq_of_length_le (by simp; omega)]
  have hdata' : (env.set (j - 8) b).drop 8 =
      if j < 16 then p.record.data else p.record.data.set (j - 16) b := by
    rw [List.drop_set, ← hdata]
    by_cases hj16 : j < 16
    · rw [if_pos (by omega), if_pos hj16]
    · rw [if_neg (by omega), if_neg hj16, Nat.sub_sub]
  have hstored' : 12 ≤ j → j < 16 → storedCrc (env.set (j - 8) b) ≠ p.record.crc := fun h h' =>
    hstored ▸ storedCrc_set_ne (by omega) (by omega) (by omega) (hold.resolve_right (by omega))
  have hsame : ¬ (12 ≤ j ∧ j < 16 + p.record.data.length) →
      (env.set (j - 8) b).drop 8 = p.record.data := by
    intro hout
    rw [hdata']
    split
    · rfl
    · exact List.set_eq_of_length_le (by omega)
  by_cases hseed : p.record.kind = .crcSeed
  · rw [if_pos hseed, if_neg fun h => h.1 hseed]
    have hgated := hp.gated
    unfold gate at hgated ⊢
    rw [hseed] at hgated ⊢
    dsimp only at hgated ⊢
    by_cases hin : 12 ≤ j ∧ j < 16
    · rw [imp_iff_right hin.1, imp_iff_right hin.2, ← and_imp]
      by_cases hfirst : p.file = 0 ∧ p.st.firstRecord = true
      · rw [if_neg fun h => h.1 hfirst, imp_iff_right hfirst]
        simp only [Except.ok.injEq, forall_eq']
        exact hp.reads_seed hmeta hfirst.2 hpost (hstored' hin.1 hin.2)
      · have hseen : p.record.crc = p.st.crc := by
          by_contra hdiffers
          rw [if_pos ⟨hfirst, hdiffers⟩] at hgated
          cases hgated
        rw [if_pos ⟨hfirst, hseen ▸ hstored' hin.1 hin.2⟩]
        exact iff_of_true (fun _ h => by cases h) fun h => absurd h hfirst
    · rw [hcrc.resolve_left hin]
      refine iff_of_true (fun entries h => hp.reads_unchanged hpost entries ?_)
        fun h h' => absurd ⟨h, h'⟩ hin
      unfold gate
      rw [hseed]
      exact h
  · rw [if_neg hseed, ← and_imp]
    by_cases hin : 12 ≤ j ∧ j < 16 + p.record.data.length
    · have hwrong : Crc32c.append p.st.crc ((env.set (j - 8) b).drop 8) ≠
          storedCrc (env.set (j - 8) b) := by
        rw [hdata']
        by_cases hj16 : j < 16
        · rw [if_pos hj16, hchecked hseed]
          exact (hstored' hin.1 hj16).symm
        · rw [if_neg hj16, hcrc.resolve_left fun h => hj16 h.2, ← hchecked hseed]
          intro heq
          have hset := congrArg (·[j - 16]?) (LawfulCrc32c.append_set heq)
          rw [List.getElem?_set_self (by omega), hdata, List.getElem?_drop] at hset
          refine hold.resolve_right (by omega) ?_
          rw [hset]
          congr 1
          omega
      rw [if_pos ⟨hseed, hwrong⟩, imp_iff_right hin]
    · have hj16 : ¬ (12 ≤ j ∧ j < 16) := by omega
      rw [hcrc.resolve_left hj16, hsame hin, if_neg fun h => h.2 (hchecked hseed)]
      exact iff_of_true (hp.reads_unchanged hpost) fun h => absurd h hin

/-- A changed byte of the length field. -/
theorem agrees_of_lt (hp : p.In metadata log dir) (hj : j < 8) :
    Agrees log (readOn metadata p.file p.rest file p.st) ↔ p.Safe metadata log file j b := by
  obtain ⟨envLen, pad, -, hmin, -, hlen, -, henv⟩ := decodeRecord_eq_record.mp hp.decoded
  obtain ⟨hbyte, -, -, hstored, -⟩ := decodeEnvelope_eq_ok henv
  have hfull := congrArg List.length hfile
  rw [List.length_append, List.length_set] at hfull
  have hbody : (file.drop p.st.validOff).drop 8 = p.frame.drop 8 ++ p.post := by
    rw [hfile, List.drop_append_of_le_length (by simp; omega), List.drop_set_of_lt hj]
  have hdec := fun h => decodeRecord_zeroLen (r := file.drop p.st.validOff) p.st.crc (by omega) h
  rw [Safe, if_pos hj, SafeLength]
  by_cases hzero : ofLeBytes ((file.drop p.st.validOff).take 8) = 0
  · rw [if_pos hzero, agrees_zeroLen (hdec hzero)]
    refine and_congr_right fun hne => ?_
    by_cases hcrc : p.last.crc = p.st.crc
    · rw [← hcrc, hp.reads_on.2.1, or_iff_right (not_not.mpr rfl)]
    · exact iff_of_true (hp.behind.agrees_of_ne hne (Nat.succ_ne_zero _) hcrc) (.inl hcrc)
  rw [if_neg hzero]
  have hopen : ∀ df, decodeRecord p.st.crc (file.drop p.st.validOff) = .error df →
      (Agrees log (readOn metadata p.file p.rest file p.st) ↔ _) := fun _ => agrees_refused
  cases hsplit : splitLenField (ofLeBytes ((file.drop p.st.validOff).take 8)) with
  | none =>
    refine hopen ⟨.corruptFrame, none⟩ ?_
    unfold decodeRecord
    rw [if_neg (List.length_pos_iff.mp (by omega)), if_neg (by omega)]
    dsimp only
    rw [if_neg hzero, hsplit]
  | some split =>
    obtain ⟨newLen, newPad⟩ := split
    dsimp only
    by_cases hcap : newLen < envelopeHeader ∨ newLen > maxEnvelopeLen
    · rw [if_pos hcap]
      refine hopen ⟨.corruptFrame, none⟩ ?_
      unfold decodeRecord
      rw [if_neg (List.length_pos_iff.mp (by omega)), if_neg (by omega)]
      dsimp only
      rw [if_neg hzero, hsplit]
      dsimp only
      rw [if_pos hcap]
    obtain ⟨hmin', hmax'⟩ := not_or.mp hcap
    rw [if_neg hcap]
    by_cases hshort : file.length < p.st.validOff + (8 + newLen + newPad)
    · have hdec := decodeRecord_of_split p.st.crc hsplit (Nat.le_of_not_lt hmin')
        (Nat.le_of_not_lt hmax') (by omega)
      rw [List.length_drop, if_pos (by omega)] at hdec
      rw [if_pos hshort, agrees_refused hdec]
      show ¬ (_ ∧ true = true) ↔ _
      rw [and_iff_left rfl]
    have hsame : (((file.drop p.st.validOff).drop 8).take newLen).take 8 =
        ((p.frame.drop 8).take envLen).take 8 := by
      unfold envelopeHeader at hmin hmin'
      rw [hbody, List.take_take, List.take_take, Nat.min_eq_left (by omega),
        Nat.min_eq_left hmin, List.take_append_of_le_length (by simp; omega)]
    obtain ⟨hk, hcrc⟩ := envelope_congr hsame
    rw [if_neg hshort, agrees_frame hsplit (Nat.le_of_not_lt hmin') (Nat.le_of_not_lt hmax')
      (Nat.le_of_not_lt hshort) rfl, hk, hcrc, RecordKind.toU8_of_fromU8 hbyte, ← hstored,
      List.drop_take, List.drop_drop, List.drop_drop]
    rfl

end Place.In

/-! ## The whole log -/

omit [Crc32c] in
theorem setByte_self (hold : (dir[k]?).map Segment.bytes = some file) (hb : file[x]? = some b) :
    setByte dir k x b = dir := by
  obtain ⟨hx, hget⟩ := List.getElem?_eq_some_iff.mp hb
  refine List.ext_getElem? fun n => ?_
  rw [setByte, List.getElem?_modify]
  by_cases hn : k = n
  · subst hn
    obtain ⟨s, hs, rfl⟩ := Option.map_eq_some_iff.mp hold
    simp [hs, ← hget, List.set_getElem_self]
  · simp [hn]

omit [Crc32c] in
theorem map_seq_setByte (dir : Dir) (k x : Nat) (b : UInt8) :
    (setByte dir k x b).map Segment.seq = dir.map Segment.seq := by
  refine List.ext_getElem? fun n => ?_
  rw [List.getElem?_map, List.getElem?_map, setByte, List.getElem?_modify]
  cases dir[n]? with
  | none => rfl
  | some s =>
    by_cases hn : k = n
    · simp [hn]
    · simp [hn]

/-- Every byte lies in a record that the replay comes to. -/
theorem exists_place (h : Chain metadata 0 0 [] dir log)
    (hfile : (dir[k]?).map Segment.bytes = some file) (hx : x < file.length) :
    ∃ p : Place, p.In metadata log dir ∧ p.file = k ∧ p.st.validOff ≤ x ∧ x < p.stop ∧
      p.pre.length = p.st.validOff ∧ file = p.pre ++ (p.frame ++ p.post) := by
  obtain ⟨s, hs, rfl⟩ := Option.map_eq_some_iff.mp hfile
  obtain ⟨init, rest, c, es, hdir, hinit, hsealed, hchain⟩ := h.split hs
  rw [Nat.zero_add] at hchain
  cases hchain with
  | @cons _ _ crc₀ _ _ _ _ more last hc hheaded hacc hbehind =>
    obtain ⟨pre, st, frame, rec, crc, passed, post, hbytes, hpre, hdec, hgate, hpost, hle, hlt⟩ :=
      hacc.at hx
    obtain ⟨envLen, pad, -, -, -, -, -, henv⟩ := decodeRecord_eq_record.mp hdec
    obtain ⟨-, -, rfl, -⟩ := decodeEnvelope_eq_ok henv
    have hoff : st.validOff = pre.length := hpre.validOff.trans (Nat.zero_add _)
    exact ⟨⟨k, pre, st, frame, rec, passed, post, last, rest⟩,
      ⟨⟨init, s, c, es, hdir, hinit, hbytes, hsealed, hpre⟩, ⟨crc₀, more, hbytes ▸ hheaded⟩, hdec,
        hgate, hpost, hbehind⟩,
      rfl, hoff ▸ hle, by rw [Place.stop]; exact hoff ▸ hlt, hoff.symm, hbytes⟩

/-- A record with the byte `b` at `j`. -/
theorem Place.In.harmless_at [LawfulCrc32c] {p : Place} (hp : p.In metadata log dir)
    (hreplays : Replays metadata dir log) (hmeta : MetadataFits metadata) {j : Nat}
    (hj : j < p.frame.length) (hoff : p.pre.length = p.st.validOff)
    (hfile : (dir[p.file]?).map Segment.bytes = some (p.pre ++ (p.frame ++ p.post))) :
    Harmless metadata dir (setByte dir p.file (p.st.validOff + j) b) ↔
      p.frame[j]? = some b ∨ p.Safe metadata log (p.pre ++ (p.frame.set j b ++ p.post)) j b := by
  have hcont : Contiguous (setByte dir p.file (p.st.validOff + j) b) :=
    hreplays.contiguous.congr (map_seq_setByte ..)
  rw [harmless_iff hreplays hcont (List.length_modify ..)]
  by_cases hsame : p.frame[j]? = some b
  · refine iff_of_true ?_ (.inl hsame)
    obtain ⟨r, hscan, hentries, htorn⟩ := hreplays.scan
    rw [setByte_self hfile, hscan]
    · exact agrees_ok.mpr ⟨hentries, htorn⟩
    · rw [← hoff, List.getElem?_append_right (Nat.le_add_right ..), Nat.add_sub_cancel_left,
        List.getElem?_append_left hj, hsame]
  rw [or_iff_right hsame]
  obtain ⟨init, s, c, es, hdir, hinit, hbytes, hsealed, hacc⟩ := hp.reached
  have hset : s.bytes.set (p.st.validOff + j) b = p.pre ++ (p.frame.set j b ++ p.post) := by
    rw [hbytes, ← hoff, List.set_append_right _ _ (Nat.le_add_right ..), Nat.add_sub_cancel_left,
      List.set_append_left _ _ hj]
  have hdrop : (p.pre ++ (p.frame.set j b ++ p.post)).drop p.st.validOff =
      p.frame.set j b ++ p.post := List.drop_left' hoff
  have hdamaged := setByte_append init s p.rest (p.st.validOff + j) b
  rw [hinit, hset] at hdamaged
  rw [hdir, hdamaged, scanAll_append, hsealed]
  dsimp only
  rw [Nat.zero_add, hinit, scanAll_eq_readOn, readOn_accepts hacc rfl]
  by_cases hlt : j < 8
  · exact agrees_of_lt hdrop hp hlt
  · exact agrees_of_le hdrop hp hmeta (Nat.le_of_not_lt hlt) hj hsame

/-! ## Runs -/

/-- When everything that was written is on stable storage, the files are those of a layout. -/
theorem layout_of_synced (hmeta : MetadataFits metadata) {segmentSize : Nat} {s : Machine}
    (h : Reachable (Machine.step metadata) Machine.CrcDistinguishes
      (Machine.start metadata segmentSize) s) (hsynced : s.history.unsynced = []) :
    ∃ l : Layout, l.Valid ∧ s.dir = l.dir metadata := by
  have hallowed : Reachable (Machine.step metadata) (Allowed metadata False False)
      (Machine.start metadata segmentSize) s :=
    h.mono fun s op hok => ⟨hok, fun _ _ => id, False.elim⟩
  obtain ⟨l, hi, hat⟩ := holds_of_reachable hmeta hallowed
  have hdrop : l.unsynced = [] := by
    have hmap : ((l.pending metadata).map fun r => r.2.2) = l.unsynced := l.map_pending
    rw [← hmap, ← hi.unsynced, hsynced]
    rfl
  have hall : l.synced = l.tail.length := by
    have hle := hi.valid.synced_le
    have := congrArg List.length hdrop
    rw [Layout.unsynced, length_numbered, List.length_drop, List.length_nil] at this
    omega
  cases hat with
  | up => exact ⟨l, hi.valid, rfl⟩
  | down =>
    dsimp only
    rw [Layout.crash_of_synced hall]
    exact ⟨l, hi.valid, rfl⟩

theorem Layout.replays {l : Layout} (h : l.Valid) (hmeta : MetadataFits metadata) :
    Replays metadata (l.dir metadata) l.entries := by
  refine ⟨Layout.contiguous h, l.dir_ne_nil, (Layout.chain h hmeta).scan, fun e he => ?_⟩
  have hlt := h.nextSeq_lt
  have := (mem_numbered he).2
  rw [Layout.nextSeq] at hlt
  omega

end Damage

/-! ## Concrete runs -/

end P2P333.Substrate
