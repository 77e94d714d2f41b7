import P2P333.Substrate.Wal.Durability

/-!
# Reading on from a record of a log

`readOn` is the replay from a record of one file to the end of the log. What is left of a log has
numbers of its own: behind other entries than those that were there, the first number shows a gap,
or it is read as before.

Results:
1. `agrees_refused`, `agrees_record`, `agrees_zeroLen`, `agrees_frame`: one record more.
2. `Accepts.agrees`, `Chain.agrees`: the rest of a file and the files behind it, read with other
   entries in front of them.
3. `Layout.chain`: the files of a layout are a chain.
-/

namespace P2P333.Substrate

open Lib

/-- A replay that ends without an error finds these entries, and nothing torn. -/
def Agrees (log : List Entry) (out : Except WalError Replay) : Prop :=
  ∀ r, out = .ok r → r.entries = log ∧ r.torn = false

/-- The window from behind a length field on makes a failure look like a torn write: the file is the
last one, and a chunk of the window is all zero. -/
def TakenAsTorn (rest : List Segment) (file : Bytes) (off stop : Nat) : Prop :=
  rest = [] ∧ zeroSectorInWindow file (off + 8) (min stop file.length) = true

/-- The numbers go on from the entries to those behind them. -/
def Continues (es after : List Entry) : Prop := ∀ e ∈ after.head?, EndsBefore es e.seq

/-- Entries read behind others: their numbers show a gap, or the log is complete. -/
def GoesOn (log es after : List Entry) : Prop := ¬ Continues es after ∨ es ++ after = log

variable {log es : List Entry}

theorem agrees_error (e : WalError) : Agrees log (.error e) := nofun

theorem agrees_ok {r : Replay} : Agrees log (.ok r) ↔ r.entries = log ∧ r.torn = false :=
  ⟨fun h => h r rfl, fun h _ hr => Except.ok.inj hr ▸ h⟩

theorem gate_entry_eq_ok {metadata : Bytes} {i : Nat} {st : ScanState} {crc : UInt32}
    {data : Bytes} {entries : List Entry} :
    gate metadata i st ⟨.entry, crc, data⟩ = .ok entries ↔
      8 ≤ data.length ∧ EndsBefore st.entries (ofLeBytes (data.take 8)) ∧
        entries = st.entries ++ [⟨ofLeBytes (data.take 8), data.drop 8⟩] := by
  unfold gate
  dsimp only
  unfold decodeEntryData
  by_cases hlen : data.length < 8
  · rw [if_pos hlen]
    exact iff_of_false nofun fun h => absurd h.1 (Nat.not_le.mpr hlen)
  have hlt : ofLeBytes (data.take 8) < 2 ^ 64 := by
    have := ofLeBytes_lt (data.take 8)
    rwa [List.length_take_of_le (Nat.not_lt.mp hlen)] at this
  rw [if_neg hlen, and_iff_right (Nat.not_lt.mp hlen)]
  dsimp only
  cases hlast : st.entries.getLast? with
  | none =>
    have hends : EndsBefore st.entries (ofLeBytes (data.take 8)) := by
      intro e he
      rw [hlast] at he
      cases he
    dsimp only
    rw [and_iff_right hends, Except.ok.injEq, eq_comm]
  | some last =>
    have hends : EndsBefore st.entries (ofLeBytes (data.take 8)) ↔
        last.seq + 1 = ofLeBytes (data.take 8) :=
      ⟨fun h => h _ hlast, fun h e he => Option.some.inj (hlast.symm.trans he) ▸ h⟩
    dsimp only
    rw [hends]
    split_ifs with hmax hne
    · exact iff_of_false nofun fun h => by omega
    · exact iff_of_false nofun fun h => hne h.1.symm
    · rw [and_iff_right (not_not.mp hne).symm, Except.ok.injEq, eq_comm]

theorem endsBefore_append {added : List Entry} (hne : added ≠ []) {n : Nat} :
    EndsBefore (es ++ added) n ↔ EndsBefore added n := by
  rw [EndsBefore, EndsBefore, List.getLast?_append_of_ne_nil _ hne]

section Resume

variable [Crc32c] (metadata : Bytes)

/-- The replay from a record of file `i` on, with the files behind it. -/
def readOn (i : Nat) (rest : List Segment) (file : Bytes) (st : ScanState) :
    Except WalError Replay :=
  match scanFrom metadata i rest.isEmpty st (file.drop st.validOff) with
  | .error e => .error e
  | .ok (st', e) =>
    match classify file rest.isEmpty st'.validOff e with
    | .error e => .error e
    | .ok torn =>
      if rest.isEmpty then .ok ⟨st'.entries, st'.crc, st'.validOff, torn⟩
      else scanAll metadata (i + 1) st'.crc st'.entries rest

/-- Files that replay from file `i` on, each one from its header to its end. -/
inductive Chain : Nat → UInt32 → List Entry → List Segment → List Entry → Prop
  | nil {i : Nat} {c : UInt32} {es : List Entry} : Chain i c es [] es
  | cons {i : Nat} {c crc : UInt32} {es log : List Entry} {s : Segment} {rest : List Segment}
      {more : Bytes} {st : ScanState} : i = 0 ∨ c = crc → s.bytes = header metadata crc ++ more →
      Accepts metadata i ⟨c, es, 0, true⟩ s.bytes st →
      Chain (i + 1) st.crc st.entries rest log → Chain i c es (s :: rest) log

/-- A frame that ends at `stop`, with this kind, checksum and data, is refused for good, or reading
on behind it agrees. -/
def FrameAgrees (log : List Entry) (i : Nat) (rest : List Segment) (file : Bytes) (st : ScanState)
    (stop : Nat) (k : UInt8) (crc : UInt32) (data : Bytes) : Prop :=
  match RecordKind.fromU8 k with
  | none => ¬ TakenAsTorn rest file st.validOff stop
  | some kind =>
    if kind ≠ .crcSeed ∧ Crc32c.append st.crc data ≠ crc then
      ¬ TakenAsTorn rest file st.validOff stop
    else ∀ entries, gate metadata i st ⟨kind, crc, data⟩ = .ok entries →
      Agrees log (readOn metadata i rest file ⟨crc, entries, stop, false⟩)

variable {metadata} {i : Nat} {rest : List Segment} {file b : Bytes} {st st' : ScanState}
  {c : UInt32}

theorem scanAll_eq_readOn (s : Segment) :
    scanAll metadata i c es (s :: rest) = readOn metadata i rest s.bytes ⟨c, es, 0, true⟩ := by
  rw [scanAll_cons, readOn, scanSegment, List.drop_zero]
  rcases scanFrom metadata i rest.isEmpty ⟨c, es, 0, true⟩ s.bytes with e | ⟨st', e⟩
  · rfl
  · dsimp only
    cases classify s.bytes rest.isEmpty st'.validOff e <;> rfl

/-! ## One record -/

theorem agrees_refused {df : DecodeFailure}
    (h : decodeRecord st.crc (file.drop st.validOff) = .error df) :
    Agrees log (readOn metadata i rest file st) ↔
      ¬ (rest = [] ∧ repairable file st.validOff df = true) := by
  rw [readOn, scanFrom_eq, h]
  dsimp only [classify]
  cases rest with
  | nil =>
    by_cases hrepairable : repairable file st.validOff df = true
    · simp [hrepairable, agrees_ok]
    · simp [hrepairable, agrees_error]
  | cons s rest => simp [agrees_error]

theorem agrees_record {rec : Record} {n : Nat} {crc : UInt32}
    (h : decodeRecord st.crc (file.drop st.validOff) = .ok (.record rec n crc)) :
    Agrees log (readOn metadata i rest file st) ↔
      ∀ entries, gate metadata i st rec = .ok entries →
        Agrees log (readOn metadata i rest file ⟨crc, entries, st.validOff + n, false⟩) := by
  rw [readOn, scanFrom_eq, h]
  dsimp only [turn]
  cases hgate : gate metadata i st rec with
  | error e => exact iff_of_true (agrees_error e) nofun
  | ok entries =>
    simp only [Except.ok.injEq, forall_eq']
    rw [readOn, List.drop_drop]

theorem agrees_eof (h : file.length ≤ st.validOff) :
    Agrees log (readOn metadata i rest file st) ↔
      Agrees log (scanAll metadata (i + 1) st.crc st.entries rest) := by
  rw [readOn, List.drop_eq_nil_of_le h, scanFrom_nil]
  cases rest with
  | nil => simp [classify, scanAll, agrees_ok]
  | cons s rest => simp [classify]

theorem agrees_zeroLen (h : decodeRecord st.crc (file.drop st.validOff) = .ok .zeroLen) :
    Agrees log (readOn metadata i rest file st) ↔
      rest ≠ [] ∧ Agrees log (scanAll metadata (i + 1) st.crc st.entries rest) := by
  rw [readOn, scanFrom_eq, h]
  cases rest with
  | nil => simp [classify, agrees_ok]
  | cons s rest => simp [classify]

/-- A frame that lies in the file. -/
theorem agrees_frame {envLen pad : Nat} {env : Bytes}
    (hsplit : splitLenField (ofLeBytes ((file.drop st.validOff).take 8)) = some (envLen, pad))
    (hmin : envelopeHeader ≤ envLen) (hmax : envLen ≤ maxEnvelopeLen)
    (hstop : st.validOff + (8 + envLen + pad) ≤ file.length)
    (henv : ((file.drop st.validOff).drop 8).take envLen = env) :
    Agrees log (readOn metadata i rest file st) ↔
      FrameAgrees metadata log i rest file st (st.validOff + (8 + envLen + pad)) (env.getD 0 0)
        (storedCrc env) (env.drop envelopeHeader) := by
  have hdec := decodeRecord_of_split st.crc hsplit hmin hmax (by rw [List.length_drop]; omega)
  rw [if_neg (by rw [List.length_drop]; omega), henv, decodeEnvelope_eq] at hdec
  rw [FrameAgrees]
  cases hkind : RecordKind.fromU8 (env.getD 0 0) with
  | none =>
    rw [hkind] at hdec
    exact agrees_refused hdec
  | some kind =>
    rw [hkind] at hdec
    dsimp only at hdec ⊢
    by_cases hcrc : kind ≠ .crcSeed ∧
        Crc32c.append st.crc (env.drop envelopeHeader) ≠ storedCrc env
    · rw [if_pos hcrc] at hdec ⊢
      exact agrees_refused hdec
    · rw [if_neg hcrc] at hdec ⊢
      exact agrees_record hdec

/-! ## Other entries in front -/

/-- Accepted bytes behind other entries: their numbers show a gap, or they are accepted. -/
theorem Accepts.shift (h : Accepts metadata i st b st') : ∃ added,
    st'.entries = st.entries ++ added ∧ Continues st.entries added ∧ ∀ es,
      (Continues es added →
        Accepts metadata i { st with entries := es } b { st' with entries := es ++ added }) ∧
      (¬ Continues es added → ∀ isLast more, ∃ e,
        scanFrom metadata i isLast { st with entries := es } (b ++ more) = .error e) := by
  induction h with
  | nil st =>
    refine ⟨[], (List.append_nil _).symm, nofun, fun es => ⟨fun _ => ?_, fun h => absurd nofun h⟩⟩
    rw [List.append_nil]
    exact .nil _
  | @cons st st₁ st' b more rec crc hdec hturn _ ih =>
    obtain ⟨added, hadded, hcont, hshift⟩ := ih
    unfold turn at hturn
    split at hturn
    · cases hturn
    next entries hgate =>
    cases hturn
    obtain ⟨kind, crc', data⟩ := rec
    -- a seed or a metadata record passes whatever the entries are
    have hplain : kind ≠ .entry → entries = st.entries ∧ ∀ es,
        gate metadata i { st with entries := es } ⟨kind, crc', data⟩ = .ok es := by
      intro hkind
      cases kind with
      | entry => exact absurd rfl hkind
      | crcSeed =>
        unfold gate at hgate
        dsimp only at hgate
        split at hgate
        · cases hgate
        next hseed =>
        cases hgate
        exact ⟨rfl, fun es => if_neg hseed⟩
      | metadata =>
        unfold gate at hgate
        dsimp only at hgate
        split at hgate
        · cases hgate
        next hmeta =>
        cases hgate
        exact ⟨rfl, fun es => if_neg hmeta⟩
    have hpass : ∀ {es es₁ : List Entry}, gate metadata i { st with entries := es }
        ⟨kind, crc', data⟩ = .ok es₁ →
        turn metadata i { st with entries := es } ⟨kind, crc', data⟩ b.length crc =
          .ok ⟨crc, es₁, st.validOff + b.length, false⟩ := by
      intro es es₁ h
      rw [turn, h]
    have hread : ∀ {es es₁ : List Entry}, gate metadata i { st with entries := es }
        ⟨kind, crc', data⟩ = .ok es₁ → ∀ isLast rest,
        scanFrom metadata i isLast { st with entries := es } (b ++ more ++ rest) =
          scanFrom metadata i isLast ⟨crc, es₁, st.validOff + b.length, false⟩ (more ++ rest) := by
      intro es es₁ h isLast rest
      rw [List.append_assoc]
      have hone : Accepts metadata i { st with entries := es } _ _ :=
        (Accepts.nil _).snoc hdec (hpass h)
      exact scanFrom_accepts hone _
    by_cases hkind : kind = .entry
    · subst hkind
      obtain ⟨hlen, hends, rfl⟩ := gate_entry_eq_ok.mp hgate
      generalize he : (⟨ofLeBytes (data.take 8), data.drop 8⟩ : Entry) = e at *
      have hseq : ofLeBytes (data.take 8) = e.seq := by rw [← he]
      have hcont' : ∀ es, Continues (es ++ [e]) added := fun es e' he' =>
        (endsBefore_append (by simp)).mpr ((endsBefore_append (by simp)).mp (hcont e' he'))
      refine ⟨e :: added, hadded.trans (List.append_assoc ..), ?_, fun es => ⟨fun h => ?_, ?_⟩⟩
      · rintro _ ⟨⟩
        exact hseq ▸ hends
      · have hgate' : gate metadata i { st with entries := es } ⟨.entry, crc', data⟩ =
            .ok (es ++ [e]) :=
          gate_entry_eq_ok.mpr ⟨hlen, hseq ▸ h e rfl, by rw [he]⟩
        have hmore := (hshift (es ++ [e])).1 (hcont' es)
        rw [List.append_assoc] at hmore
        exact .cons hdec (hpass hgate') hmore
      · intro hgap isLast rest
        cases hgate' : gate metadata i { st with entries := es } ⟨.entry, crc', data⟩ with
        | ok es₁ =>
          obtain ⟨-, hends', -⟩ := gate_entry_eq_ok.mp hgate'
          refine absurd (fun e' he' => ?_) hgap
          cases he'
          exact hseq ▸ hends'
        | error err =>
          refine ⟨err, ?_⟩
          rw [List.append_assoc, scanFrom_eq, decodeRecord_append hdec]
          dsimp only
          rw [turn, hgate']
    · obtain ⟨rfl, hgate'⟩ := hplain hkind
      refine ⟨added, hadded, hcont, fun es => ⟨fun h => ?_, fun h isLast rest => ?_⟩⟩
      · exact .cons hdec (hpass (hgate' es)) ((hshift es).1 h)
      · rw [hread (hgate' es)]
        exact (hshift es).2 h isLast rest

theorem readOn_accepts {more : Bytes} (h : Accepts metadata i st b st')
    (hfile : file.drop st.validOff = b ++ more) :
    readOn metadata i rest file st = readOn metadata i rest file st' := by
  have hmore : file.drop st'.validOff = more := by
    rw [h.validOff, ← List.drop_drop, hfile, List.drop_left]
  rw [readOn, readOn, hfile, hmore, scanFrom_accepts h]

/-- The rest of a file and what is behind it, read with other entries in front. -/
theorem Accepts.agrees {more : List Entry} (h : Accepts metadata i st b st')
    (hmore : Continues st'.entries more)
    (hrest : ∀ log es, Agrees log (scanAll metadata (i + 1) st'.crc es rest) ↔ GoesOn log es more) :
    ∃ added, st'.entries = st.entries ++ added ∧ Continues st.entries (added ++ more) ∧
      ∀ log es file, file.drop st.validOff = b →
        (Agrees log (readOn metadata i rest file { st with entries := es }) ↔
          GoesOn log es (added ++ more)) := by
  obtain ⟨added, hadded, hcont, hshift⟩ := h.shift
  refine ⟨added, hadded, ?_, fun log es file hfile => ?_⟩
  · cases added with
    | nil =>
      rw [List.append_nil] at hadded
      exact hadded ▸ hmore
    | cons e added => exact hcont
  have hhead : Continues es (added ++ more) ↔
      if added = [] then Continues es more else Continues es added := by
    cases added with
    | nil => rfl
    | cons e added => rfl
  by_cases hes : Continues es added
  · have hacc := (hshift es).1 hes
    have hlen := congrArg List.length hfile
    rw [List.length_drop] at hlen
    rw [readOn_accepts hacc (hfile.trans (List.append_nil _).symm),
      agrees_eof (by dsimp only; rw [h.validOff]; omega), hrest, GoesOn, GoesOn, hhead,
      List.append_assoc]
    by_cases hnil : added = []
    · rw [if_pos hnil, hnil, List.append_nil]
    · have hends : Continues (es ++ added) more := fun e he =>
        (endsBefore_append hnil).mpr ((endsBefore_append hnil).mp (hadded ▸ hmore e he))
      rw [if_neg hnil, or_iff_right (not_not.mpr hends), or_iff_right (not_not.mpr hes)]
  · have hne : added ≠ [] := fun hnil => hes (hnil ▸ nofun)
    obtain ⟨e, he⟩ := (hshift es).2 hes rest.isEmpty []
    rw [List.append_nil, ← hfile] at he
    refine iff_of_true ?_ (.inl ?_)
    · rw [readOn, he]
      exact agrees_error e
    · rwa [hhead, if_neg hne]

theorem Chain.agrees {segs : List Segment} (h : Chain metadata i c es segs log) : ∃ added,
    log = es ++ added ∧ Continues es added ∧
      ∀ log' es', Agrees log' (scanAll metadata i c es' segs) ↔ GoesOn log' es' added := by
  induction h with
  | nil =>
    refine ⟨[], (List.append_nil _).symm, nofun, fun log' es' => ?_⟩
    have hcont : Continues es' [] := nofun
    rw [scanAll, agrees_ok, GoesOn, or_iff_right (not_not.mpr hcont), List.append_nil]
    exact and_iff_left rfl
  | @cons i c crc es log s rest more st hc hbytes hacc _ ih =>
    obtain ⟨behind, rfl, hcont, hbehind⟩ := ih
    obtain ⟨added, hadded, hcont, hagrees⟩ := hacc.agrees hcont hbehind
    refine ⟨added ++ behind, ?_, hcont, fun log' es' => ?_⟩
    · rw [hadded, List.append_assoc]
    · rw [scanAll_eq_readOn]
      exact hagrees log' es' s.bytes rfl

/-- A file that is not the oldest one is refused behind another checksum. -/
theorem Chain.agrees_of_ne {segs : List Segment} {c' : UInt32} {es' log' : List Entry}
    (h : Chain metadata i c es segs log) (hne : segs ≠ []) (hi : i ≠ 0) (hc : c ≠ c') :
    Agrees log' (scanAll metadata i c' es' segs) := by
  cases h with
  | nil => exact absurd rfl hne
  | @cons _ _ crc _ _ s rest more st hcrc hbytes _ _ =>
    obtain rfl := hcrc.resolve_left hi
    have hgate : gate metadata i ⟨c', es', 0, true⟩ ⟨.crcSeed, c, []⟩ =
        .error (.crcMismatch c c') := if_pos ⟨fun hfirst => hi hfirst.1, hc⟩
    have hdec : decodeRecord c' (encodeRecord c .crcSeed [] ++
        (encodeRecord c .metadata metadata ++ more)) = _ :=
      decodeRecord_encodeRecord (.inl rfl) (by decide) _
    rw [← List.append_assoc] at hdec
    have hdec : decodeRecord c' (s.bytes.drop 0) = _ := (congrArg _ hbytes).trans hdec
    rw [scanAll_eq_readOn, agrees_record hdec]
    intro entries h
    exact absurd (hgate.symm.trans h) nofun

theorem Chain.scan {segs : List Segment} (h : Chain metadata i c es segs log) :
    ∃ r, scanAll metadata i c es segs = .ok r ∧ r.entries = log ∧ r.torn = false := by
  induction h with
  | nil => exact ⟨_, rfl, rfl, rfl⟩
  | @cons i c crc es log s rest more st _ _ hacc hrest ih =>
    rw [scanAll_cons, scanSegment_accepts _ hacc]
    cases rest with
    | nil =>
      cases hrest
      exact ⟨_, rfl, rfl, rfl⟩
    | cons t rest => exact ih

/-- A chain, cut at one of its files. -/
theorem Chain.split {segs : List Segment} {k : Nat} {s : Segment}
    (h : Chain metadata i c es segs log) (hs : segs[k]? = some s) :
    ∃ init rest c' es', segs = init ++ s :: rest ∧ init.length = k ∧
      scanSealed metadata i c es init = .ok (c', es') ∧
      Chain metadata (i + k) c' es' (s :: rest) log := by
  induction h generalizing k with
  | nil => cases hs
  | @cons i c crc es log t rest more st hc hbytes hacc hrest ih =>
    cases k with
    | zero =>
      cases hs
      exact ⟨[], rest, c, es, rfl, rfl, rfl, .cons hc hbytes hacc hrest⟩
    | succ k =>
      obtain ⟨init, rest', c', es', rfl, rfl, hsealed, hchain⟩ := ih hs
      refine ⟨t :: init, rest', c', es', rfl, rfl, ?_, ?_⟩
      · rw [scanSealed, scanSegment_accepts _ hacc]
        exact hsealed
      · rwa [Nat.add_assoc, Nat.add_comm 1] at hchain

/-- Every byte lies in a record. -/
theorem Accepts.at {x : Nat} (h : Accepts metadata i st b st') (hx : x < b.length) :
    ∃ pre st₁ frame rec crc passed post, b = pre ++ (frame ++ post) ∧
      Accepts metadata i st pre st₁ ∧
      decodeRecord st₁.crc frame = .ok (.record rec frame.length crc) ∧
      gate metadata i st₁ rec = .ok passed ∧
      Accepts metadata i ⟨crc, passed, st₁.validOff + frame.length, false⟩ post st' ∧
      pre.length ≤ x ∧ x < pre.length + frame.length := by
  induction h generalizing x with
  | nil => cases hx
  | @cons st st₁ st' b more rec crc hdec hturn hmore ih =>
    have hgate := hturn
    unfold turn at hgate
    split at hgate
    · cases hgate
    next passed hgate' =>
    cases hgate
    by_cases hin : x < b.length
    · exact ⟨[], st, b, rec, crc, passed, more, rfl, .nil st, hdec, hgate', hmore, Nat.zero_le x,
        by rwa [List.length_nil, Nat.zero_add]⟩
    · rw [List.length_append] at hx
      obtain ⟨pre, st₁, frame, rec', crc', passed', post, rfl, hpre, hdec', hgate, hpost, hle,
        hlt⟩ := ih (x := x - b.length) (by omega)
      refine ⟨b ++ pre, st₁, frame, rec', crc', passed', post, (List.append_assoc ..).symm,
        .cons hdec hturn hpre, hdec', hgate, hpost, ?_, ?_⟩ <;>
      · rw [List.length_append]
        omega

/-- Nothing is in front of the first record. -/
theorem Accepts.eq_nil (h : Accepts metadata i st b st') (hfirst : st'.firstRecord = true) :
    b = [] ∧ st' = st := by
  induction h with
  | nil => exact ⟨rfl, rfl⟩
  | cons _ hturn _ ih =>
    obtain ⟨-, rfl⟩ := ih hfirst
    unfold turn at hturn
    split at hturn
    · cases hturn
    cases hturn
    cases hfirst

theorem Layout.chain {l : Layout} (h : l.Valid) (hmeta : MetadataFits metadata) :
    Chain metadata 0 0 [] (l.dir metadata) l.entries := by
  have hall := h.nextSeq_lt.le
  have hfits := h.fits
  obtain ⟨hd, sealed, tail, synced⟩ := l
  simp only [nextSeq, payloads] at hall hfits
  suffices hloop : ∀ (hd : Head) (i : Nat) (c : UInt32) (es : List Entry), (i = 0 ∨ c = hd.crc) →
      hd.first + (sealed.flatten ++ tail).length ≤ 2 ^ 64 → EndsBefore es hd.first →
      Chain metadata i c es (hd.sealedSegments metadata sealed ++
        [(hd.after metadata sealed).segment metadata tail synced])
        (es ++ numbered hd.first (sealed.flatten ++ tail)) from
    hloop hd 0 0 [] (.inl rfl) hall (endsBefore_nil _)
  clear h hall
  induction sealed with
  | nil =>
    intro hd i c es hc hle hends
    exact .cons hc rfl (accepts_head hmeta hc hle hfits hends) .nil
  | cons ps pss ih =>
    intro hd i c es hc hle hends
    rw [List.flatten_cons, List.append_assoc] at hle hfits ⊢
    rw [List.length_append] at hle
    have hacc := accepts_head hmeta hc (by omega)
      (fun p hp => hfits p (List.mem_append_left _ hp)) hends
    have hrest := ih (fun p hp => hfits p (List.mem_append_right _ hp)) (hd.next metadata ps)
      (i + 1) _ _ (.inr rfl) (by simp only [Head.next]; omega) (endsBefore_numbered hends ps)
    rw [numbered_append, ← List.append_assoc]
    exact .cons hc rfl hacc hrest

end Resume

end P2P333.Substrate
