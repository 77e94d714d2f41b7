import P2P333.Lib.Codec

/-!
# Record frames of the write-ahead log

`substrate/crates/wal/src/record.rs`: frames of a length field, an envelope and padding, with a
checksum that rolls over the data of all records.

Results:
1. `decodeRecord_encodeRecord`: a record that fits the envelope cap is read back, whatever follows.
2. `decodeRecord_append`, `decodeRecord_take`: the decoder looks at the bytes of the frame only.
3. `length_data_le`: nothing above the cap is ever decoded.
4. `instLawfulCastagnoli`: CRC-32C has the two properties that are asked of the checksum.
-/

namespace P2P333.Substrate

open Lib

/-- `crc32c_append` of the crate `crc32c`: the checksum `state`, continued over more bytes. -/
class Crc32c where
  append : UInt32 → Bytes → UInt32

/-- What holds of CRC-32C: it tells two registers apart that it starts from, and it tells data from
the same data with one byte changed. -/
class LawfulCrc32c [Crc32c] : Prop where
  append_inj {c c' : UInt32} {data : Bytes} :
    Crc32c.append c data = Crc32c.append c' data → c = c'
  append_set {c : UInt32} {data : Bytes} {i : Nat} {b : UInt8} :
    Crc32c.append c (data.set i b) = Crc32c.append c data → data.set i b = data

/-- One byte of CRC-32C, from the low bit on. -/
def castagnoliByte (crc : UInt32) (b : UInt8) : UInt32 :=
  (List.range 8).foldl
    (fun c _ => if c &&& 1 = 1 then (c >>> 1) ^^^ 0x82F63B78 else c >>> 1) (crc ^^^ b.toUInt32)

/-- CRC-32C itself, for concrete runs. -/
@[reducible] def castagnoli : Crc32c :=
  ⟨fun state data => ~~~(data.foldl castagnoliByte (~~~state))⟩

example : castagnoli.append 0 [0x31, 0x32, 0x33, 0x34, 0x35, 0x36, 0x37, 0x38, 0x39] =
    0xE3069283 := by decide +kernel

/-! ## Definitions -/

def maxEnvelopeLen : Nat := 16 * 1024 * 1024

/-- Kind, reserved bytes and checksum. -/
def envelopeHeader : Nat := 8

/-- `panic` is no error value of the source: it is checked arithmetic on sequence numbers that
overflows 64 bits. -/
inductive WalError where
  | segmentSeqGap (expected found : Nat)
  | entrySeqGap (expected found : Nat)
  | crcMismatch (expected actual : UInt32)
  | tornRecord
  | corruptFrame
  | recordTooLarge (len max : Nat)
  | notAWal
  | metadataConflict
  | panic
deriving DecidableEq

/-- The kinds of records. -/
inductive RecordKind where
  | crcSeed
  | metadata
  | entry
deriving DecidableEq

def RecordKind.toU8 : RecordKind → UInt8
  | .crcSeed => 1
  | .metadata => 2
  | .entry => 3

def RecordKind.fromU8 (v : UInt8) : Option RecordKind :=
  if v = 1 then some .crcSeed
  else if v = 2 then some .metadata
  else if v = 3 then some .entry
  else none

structure Record where
  kind : RecordKind
  crc : UInt32
  data : Bytes
deriving DecidableEq

/-- `frameLen` is there only if the length field could be trusted. -/
structure DecodeFailure where
  error : WalError
  frameLen : Option Nat
deriving DecidableEq

/-- `record` carries the number of bytes consumed and the rolling checksum behind the record. -/
inductive Decoded where
  | record (rec : Record) (consumed : Nat) (state : UInt32)
  | zeroLen
  | eof
deriving DecidableEq

/-- The padding that takes an envelope to the next multiple of eight. -/
def padOf (envLen : Nat) : Nat := (8 - envLen % 8) % 8

def lenFieldOf (envLen : Nat) : Nat :=
  if padOf envLen ≠ 0 then envLen ||| ((0x80 ||| padOf envLen) <<< 56) else envLen

section Codec

variable [Crc32c]

/-- The checksum stored in a record, which is also the rolling one behind it. A seed carries the
rolling checksum on and does not update it. -/
def nextCrc (state : UInt32) (kind : RecordKind) (data : Bytes) : UInt32 :=
  match kind with
  | .crcSeed => state
  | _ => Crc32c.append state data

def envelope (state : UInt32) (kind : RecordKind) (data : Bytes) : Bytes :=
  (kind.toU8 :: [0, 0, 0]) ++ leBytes 4 (nextCrc state kind data).toNat ++ data

/-- The checksum stored in an envelope. -/
def storedCrc (env : Bytes) : UInt32 := UInt32.ofNat (ofLeBytes ((env.drop 4).take 4))

/-- The bytes of the frame; the rolling checksum goes on from `nextCrc`. -/
def encodeRecord (state : UInt32) (kind : RecordKind) (data : Bytes) : Bytes :=
  leBytes 8 (lenFieldOf (envelopeHeader + data.length)) ++ envelope state kind data ++
    List.replicate (padOf (envelopeHeader + data.length)) 0

/-- Envelope length and padding, or `none` if bits are set that the writer never sets. -/
def splitLenField (lenField : Nat) : Option (Nat × Nat) :=
  let top := lenField >>> 56
  if top = 0 then some (lenField, 0)
  else if top &&& 0x80 = 0 then none
  else
    let pad := top &&& 0x7
    if pad = 0 ∨ top ≠ 0x80 ||| pad then none
    else some (lenField &&& 0x00FFFFFFFFFFFFFF, pad)

/-- A complete envelope: its kind must be known, and its data must continue the rolling checksum. -/
def decodeEnvelope (state : UInt32) (frameLen : Nat) (env : Bytes) :
    Except DecodeFailure (Record × UInt32) :=
  match RecordKind.fromU8 (env.getD 0 0) with
  | none => .error ⟨.corruptFrame, some frameLen⟩
  | some kind =>
    let crc := UInt32.ofNat (ofLeBytes ((env.drop 4).take 4))
    let data := env.drop envelopeHeader
    match kind with
    | .crcSeed => .ok (⟨kind, crc, data⟩, crc)
    | _ =>
      if Crc32c.append state data ≠ crc then
        .error ⟨.crcMismatch crc (Crc32c.append state data), some frameLen⟩
      else .ok (⟨kind, crc, data⟩, crc)

def decodeRecord (state : UInt32) (r : Bytes) : Except DecodeFailure Decoded :=
  if r = [] then .ok .eof
  else if r.length < 8 then .error ⟨.tornRecord, none⟩
  else
    let lenField := ofLeBytes (r.take 8)
    if lenField = 0 then .ok .zeroLen
    else
      match splitLenField lenField with
      | none => .error ⟨.corruptFrame, none⟩
      | some (envLen, pad) =>
        -- a garbage length must not drive an allocation, and its extent cannot be trusted
        if envLen < envelopeHeader ∨ envLen > maxEnvelopeLen then .error ⟨.corruptFrame, none⟩
        else
          let frameLen := 8 + envLen + pad
          if r.length < frameLen then .error ⟨.tornRecord, some frameLen⟩
          else
            match decodeEnvelope state frameLen ((r.drop 8).take envLen) with
            | .error df => .error df
            | .ok (rec, state) => .ok (.record rec frameLen state)

end Codec

def encodeEntryData (seq : Nat) (payload : Bytes) : Bytes := leBytes 8 seq ++ payload

def decodeEntryData (data : Bytes) : Except WalError (Nat × Bytes) :=
  if data.length < 8 then .error .corruptFrame
  else .ok (ofLeBytes (data.take 8), data.drop 8)

/-! ## The checksum -/

/-- One shift of the register. -/
def crcShift (c : UInt32) : UInt32 :=
  if c &&& 1 = 1 then (c >>> 1) ^^^ 0x82F63B78 else c >>> 1

theorem toNat_crcShift (c : UInt32) : (crcShift c).toNat =
    if c.toNat % 2 = 1 then (c.toNat / 2) ^^^ 0x82F63B78 else c.toNat / 2 := by
  have hodd : c &&& 1 = 1 ↔ c.toNat % 2 = 1 := by
    rw [← UInt32.toNat_inj, UInt32.toNat_and]
    show c.toNat &&& 1 = 1 ↔ _
    rw [Nat.and_one_is_mod]
  have hshift : (c >>> 1).toNat = c.toNat / 2 := by
    rw [UInt32.toNat_shiftRight]
    show c.toNat >>> 1 = _
    rw [Nat.shiftRight_eq_div_pow, pow_one]
  unfold crcShift
  simp only [hodd]
  split_ifs
  · rw [UInt32.toNat_xor, hshift]
    rfl
  · exact hshift

theorem crcShift_injective : Function.Injective crcShift := by
  intro a b h
  have h := congrArg UInt32.toNat h
  rw [toNat_crcShift, toNat_crcShift] at h
  have ha := a.toNat_lt
  have hb := b.toNat_lt
  -- The polynomial has the top bit, which a shifted register does not have.
  have htop : ∀ m n : Nat, m < 2 ^ 31 → n < 2 ^ 31 → m ^^^ 0x82F63B78 ≠ n := by
    intro m n hm hn heq
    have hp : m ^^^ n = 0x82F63B78 := by
      rw [← heq, ← Nat.xor_assoc, Nat.xor_self, Nat.zero_xor]
    have hlt := Nat.xor_lt_two_pow hm hn
    rw [hp] at hlt
    exact absurd hlt (by decide)
  refine UInt32.toNat_inj.mp ?_
  split_ifs at h with hoa hob hob
  · have hhalf : a.toNat / 2 = b.toNat / 2 := Nat.xor_left_injective h
    omega
  · exact absurd h (htop _ _ (by omega) (by omega))
  · exact absurd h.symm (htop _ _ (by omega) (by omega))
  · omega

theorem castagnoliByte_eq (c : UInt32) (b : UInt8) :
    castagnoliByte c b = crcShift^[8] (c ^^^ b.toUInt32) := rfl

theorem foldl_castagnoliByte_injective (data : Bytes) :
    Function.Injective fun c => data.foldl castagnoliByte c := by
  induction data with
  | nil => exact Function.injective_id
  | cons b data ih =>
    intro c c' h
    have hbyte := ih h
    rw [castagnoliByte_eq, castagnoliByte_eq] at hbyte
    exact (UInt32.xor_left_inj _).mp (crcShift_injective.iterate 8 hbyte)

/-- CRC-32C tells registers apart, and it tells a changed byte from the old one. -/
instance instLawfulCastagnoli : @LawfulCrc32c castagnoli :=
  let _ := castagnoli
  { append_inj := fun h =>
      UInt32.not_inj.mp (foldl_castagnoliByte_injective _ (UInt32.not_inj.mp h))
    append_set := by
      intro c data i b h
      have hfold : (data.set i b).foldl castagnoliByte (~~~c) = data.foldl castagnoliByte (~~~c) :=
        UInt32.not_inj.mp h
      by_cases hi : i < data.length
      · have hsplit : data = data.take i ++ data[i] :: data.drop (i + 1) := by
          rw [← List.drop_eq_getElem_cons hi, List.take_append_drop]
        have hset : data.set i b = data.take i ++ b :: data.drop (i + 1) :=
          List.set_eq_take_append_cons_drop.trans (if_pos hi)
        have hbyte : castagnoliByte ((data.take i).foldl castagnoliByte (~~~c)) b =
            castagnoliByte ((data.take i).foldl castagnoliByte (~~~c)) data[i] := by
          rw [hset, List.foldl_append, List.foldl_cons] at hfold
          nth_rewrite 3 [hsplit] at hfold
          rw [List.foldl_append, List.foldl_cons] at hfold
          exact foldl_castagnoliByte_injective _ hfold
        rw [castagnoliByte_eq, castagnoliByte_eq] at hbyte
        have hxor := (UInt32.xor_right_inj _).mp (crcShift_injective.iterate 8 hbyte)
        have hb : b = data[i] := UInt8.toUInt32_inj.mp hxor
        rw [hb, List.set_getElem_self]
      · exact List.set_eq_of_length_le (Nat.not_lt.mp hi) }

/-! ## Length fields -/

theorem padOf_lt (n : Nat) : padOf n < 8 := Nat.mod_lt _ (by decide)

theorem dvd_add_padOf (n : Nat) : 8 ∣ n + padOf n := by
  unfold padOf
  omega

variable {n : Nat}

theorem lenFieldOf_eq (hn : n < 2 ^ 56) :
    lenFieldOf n = if padOf n = 0 then n else n + (0x80 + padOf n) * 2 ^ 56 := by
  unfold lenFieldOf
  by_cases hpad : padOf n = 0
  · rw [if_neg (not_not.mpr hpad), if_pos hpad]
  · have hor : 0x80 ||| padOf n = 0x80 + padOf n := by
      have := padOf_lt n
      interval_cases padOf n <;> rfl
    rw [if_pos hpad, if_neg hpad, hor, Nat.or_comm, ← Nat.shiftLeft_add_eq_or_of_lt hn,
      Nat.shiftLeft_eq, Nat.add_comm]

theorem lenFieldOf_lt (hn : n < 2 ^ 56) : lenFieldOf n < 256 ^ 8 := by
  have := padOf_lt n
  rw [lenFieldOf_eq hn]
  split <;> omega

theorem splitLenField_lenFieldOf (hn : n < 2 ^ 56) :
    splitLenField (lenFieldOf n) = some (n, padOf n) := by
  rw [lenFieldOf_eq hn]
  unfold splitLenField
  by_cases hpad : padOf n = 0
  · have htop : n >>> 56 = 0 := by rw [Nat.shiftRight_eq_div_pow]; exact Nat.div_eq_of_lt hn
    simp [hpad, htop]
  · have htop : (n + (0x80 + padOf n) * 2 ^ 56) >>> 56 = 0x80 + padOf n := by
      rw [Nat.shiftRight_eq_div_pow]
      omega
    have hlow : (n + (0x80 + padOf n) * 2 ^ 56) &&& 0x00FFFFFFFFFFFFFF = n := by
      rw [show (0x00FFFFFFFFFFFFFF : Nat) = 2 ^ 56 - 1 by rfl, Nat.and_two_pow_sub_one_eq_mod]
      omega
    simp only [hpad, if_false, htop, hlow]
    have hlt := padOf_lt n
    generalize padOf n = p at hpad hlt
    interval_cases p
    · exact absurd rfl hpad
    all_goals rfl

variable {data r : Bytes}

/-- The length field of a record that fits. -/
theorem splitLenField_encode (h : envelopeHeader + data.length ≤ maxEnvelopeLen) :
    splitLenField (ofLeBytes (leBytes 8 (lenFieldOf (envelopeHeader + data.length)))) =
      some (envelopeHeader + data.length, padOf (envelopeHeader + data.length)) := by
  have hlt : envelopeHeader + data.length < 2 ^ 56 := lt_of_le_of_lt h (by decide)
  rw [ofLeBytes_leBytes (lenFieldOf_lt hlt), splitLenField_lenFieldOf hlt]

/-! ## Frames -/

theorem RecordKind.fromU8_toU8 (kind : RecordKind) : fromU8 kind.toU8 = some kind := by
  cases kind <;> rfl

theorem decodeEntryData_encodeEntryData {seq : Nat} (h : seq < 2 ^ 64) (payload : Bytes) :
    decodeEntryData (encodeEntryData seq payload) = .ok (seq, payload) := by
  unfold decodeEntryData encodeEntryData
  rw [if_neg (by simp), List.take_left' (by simp), List.drop_left' (by simp),
    ofLeBytes_leBytes (by simpa using h)]

variable [Crc32c]

section

variable (state : UInt32)

@[simp] theorem nextCrc_crcSeed (data : Bytes) : nextCrc state .crcSeed data = state := rfl

@[simp] theorem length_envelope (kind : RecordKind) (data : Bytes) :
    (envelope state kind data).length = envelopeHeader + data.length := by
  simp only [envelope, List.length_append, length_leBytes, List.length_cons, List.length_nil,
    envelopeHeader]

@[simp] theorem length_encodeRecord (kind : RecordKind) (data : Bytes) :
    (encodeRecord state kind data).length =
      8 + (envelopeHeader + data.length) + padOf (envelopeHeader + data.length) := by
  simp only [encodeRecord, List.length_append, length_leBytes, length_envelope,
    List.length_replicate]

theorem dvd_length_encodeRecord (kind : RecordKind) (data : Bytes) :
    8 ∣ (encodeRecord state kind data).length := by
  rw [length_encodeRecord, Nat.add_assoc]
  exact (Nat.dvd_add_right (Nat.dvd_refl 8)).mpr (dvd_add_padOf _)

theorem decodeRecord_short (hpos : 0 < r.length)
    (hlen : r.length < 8) : decodeRecord state r = .error ⟨.tornRecord, none⟩ := by
  unfold decodeRecord
  rw [if_neg (List.length_pos_iff.mp hpos), if_pos hlen]

theorem decodeRecord_zeroLen (hlen : 8 ≤ r.length)
    (hzero : ofLeBytes (r.take 8) = 0) : decodeRecord state r = .ok .zeroLen := by
  unfold decodeRecord
  rw [if_neg (List.length_pos_iff.mp (by omega)), if_neg (by omega)]
  dsimp only
  rw [if_pos hzero]

/-- With a sane length field, only completeness and the envelope are left to check. -/
theorem decodeRecord_of_split {envLen pad : Nat}
    (hsplit : splitLenField (ofLeBytes (r.take 8)) = some (envLen, pad))
    (hmin : envelopeHeader ≤ envLen) (hmax : envLen ≤ maxEnvelopeLen) (hlen : 8 ≤ r.length) :
    decodeRecord state r =
      if r.length < 8 + envLen + pad then .error ⟨.tornRecord, some (8 + envLen + pad)⟩
      else
        match decodeEnvelope state (8 + envLen + pad) ((r.drop 8).take envLen) with
        | .error df => .error df
        | .ok (rec, state) => .ok (.record rec (8 + envLen + pad) state) := by
  have hzero : ofLeBytes (r.take 8) ≠ 0 := by
    intro h
    rw [h] at hsplit
    cases hsplit
    exact absurd hmin (by decide)
  unfold decodeRecord
  rw [if_neg (List.length_pos_iff.mp (by omega)), if_neg (by omega)]
  dsimp only
  rw [if_neg hzero, hsplit]
  dsimp only
  rw [if_neg (by omega)]

end

/-- A frame is accepted exactly if its length field is sane, it is complete, and its envelope is
accepted. -/
theorem decodeRecord_eq_record {state state' : UInt32} {r : Bytes} {rec : Record} {n : Nat} :
    decodeRecord state r = .ok (.record rec n state') ↔
      ∃ envLen pad, splitLenField (ofLeBytes (r.take 8)) = some (envLen, pad) ∧
        envelopeHeader ≤ envLen ∧ envLen ≤ maxEnvelopeLen ∧ n = 8 + envLen + pad ∧ n ≤ r.length ∧
        decodeEnvelope state n ((r.drop 8).take envLen) = .ok (rec, state') := by
  constructor
  · intro h
    unfold decodeRecord at h
    split at h
    · cases h
    split at h
    · cases h
    dsimp only at h
    split at h
    · cases h
    split at h
    · cases h
    next envLen pad hsplit =>
    split at h
    · cases h
    next hcap =>
    split at h
    · cases h
    next hlen =>
    split at h
    · cases h
    next henv =>
    cases h
    exact ⟨envLen, pad, hsplit, by omega, by omega, rfl, by omega, henv⟩
  · rintro ⟨envLen, pad, hsplit, hmin, hmax, rfl, hlen, henv⟩
    rw [decodeRecord_of_split state hsplit hmin hmax (by omega), if_neg (by omega), henv]

/-- A complete envelope, by its kind, its checksum and its data. -/
theorem decodeEnvelope_eq (state : UInt32) (n : Nat) (env : Bytes) :
    decodeEnvelope state n env =
      match RecordKind.fromU8 (env.getD 0 0) with
      | none => .error ⟨.corruptFrame, some n⟩
      | some kind =>
        if kind ≠ .crcSeed ∧ Crc32c.append state (env.drop envelopeHeader) ≠ storedCrc env then
          .error ⟨.crcMismatch (storedCrc env) (Crc32c.append state (env.drop envelopeHeader)),
            some n⟩
        else .ok (⟨kind, storedCrc env, env.drop envelopeHeader⟩, storedCrc env) := by
  unfold decodeEnvelope
  cases RecordKind.fromU8 (env.getD 0 0) with
  | none => rfl
  | some kind => cases kind <;> simp [storedCrc]

theorem decodeEnvelope_parts (reader : UInt32) (n : Nat) (kind : RecordKind) (crc : UInt32)
    (data : Bytes) :
    decodeEnvelope reader n ((kind.toU8 :: [0, 0, 0]) ++ leBytes 4 crc.toNat ++ data) =
      if kind ≠ .crcSeed ∧ Crc32c.append reader data ≠ crc then
        .error ⟨.crcMismatch crc (Crc32c.append reader data), some n⟩
      else .ok (⟨kind, crc, data⟩, crc) := by
  have hcrc : storedCrc ((kind.toU8 :: [0, 0, 0]) ++ leBytes 4 crc.toNat ++ data) = crc := by
    rw [storedCrc, List.append_assoc, List.drop_left' (by simp), List.take_left' (by simp),
      ofLeBytes_leBytes (by exact crc.toNat_lt), UInt32.ofNat_toNat]
  have hdata : ((kind.toU8 :: [0, 0, 0]) ++ leBytes 4 crc.toNat ++ data).drop envelopeHeader =
      data := List.drop_left' (by simp [envelopeHeader])
  rw [decodeEnvelope_eq, hcrc, hdata]
  show (match RecordKind.fromU8 kind.toU8 with | none => _ | some kind => _) = _
  rw [RecordKind.fromU8_toU8]

variable {state reader state' : UInt32} {kind : RecordKind}

/-- The envelope of a record that was written. A seed is accepted whatever the reader's checksum
is. -/
theorem decodeEnvelope_envelope (h : kind = .crcSeed ∨ reader = state) (data : Bytes) (n : Nat) :
    decodeEnvelope reader n (envelope state kind data) =
      .ok (⟨kind, nextCrc state kind data, data⟩, nextCrc state kind data) := by
  rw [envelope, decodeEnvelope_parts, if_neg]
  rintro ⟨hseed, hne⟩
  obtain rfl := h.resolve_left hseed
  cases kind with
  | crcSeed => exact hseed rfl
  | metadata => exact hne rfl
  | entry => exact hne rfl

theorem take_encodeRecord (state : UInt32) (kind : RecordKind) (data rest : Bytes) :
    (encodeRecord state kind data ++ rest).take 8 =
      leBytes 8 (lenFieldOf (envelopeHeader + data.length)) := by
  simp only [encodeRecord, List.append_assoc]
  exact List.take_left' (by simp)

theorem drop_encodeRecord (state : UInt32) (kind : RecordKind) (data rest : Bytes) :
    (encodeRecord state kind data ++ rest).drop 8 = envelope state kind data ++
      (List.replicate (padOf (envelopeHeader + data.length)) 0 ++ rest) := by
  simp only [encodeRecord, List.append_assoc]
  exact List.drop_left' (by simp)

theorem decodeRecord_encodeRecord (hreader : kind = .crcSeed ∨ reader = state)
    (h : envelopeHeader + data.length ≤ maxEnvelopeLen) (rest : Bytes) :
    decodeRecord reader (encodeRecord state kind data ++ rest) =
      .ok (.record ⟨kind, nextCrc state kind data, data⟩ (encodeRecord state kind data).length
        (nextCrc state kind data)) := by
  rw [decodeRecord_eq_record]
  refine ⟨_, _, ?_, Nat.le_add_right .., h, length_encodeRecord state kind data, ?_, ?_⟩
  · rw [take_encodeRecord, splitLenField_encode h]
  · rw [List.length_append]
    exact Nat.le_add_right ..
  · rw [drop_encodeRecord, List.take_left' (length_envelope state kind data)]
    exact decodeEnvelope_envelope hreader ..

variable {rec : Record}

/-- What follows a frame does not matter. -/
theorem decodeRecord_append (h : decodeRecord state r = .ok (.record rec n state')) (more : Bytes) :
    decodeRecord state (r ++ more) = .ok (.record rec n state') := by
  obtain ⟨envLen, pad, hsplit, hmin, hmax, hn, hlen, henv⟩ := decodeRecord_eq_record.mp h
  refine decodeRecord_eq_record.mpr ⟨envLen, pad, ?_, hmin, hmax, hn, ?_, ?_⟩
  · rw [List.take_append_of_le_length (by omega)]
    exact hsplit
  · rw [List.length_append]
    omega
  · rw [List.drop_append_of_le_length (by omega), List.take_append_of_le_length]
    · exact henv
    · rw [List.length_drop]
      omega

/-- A frame that was accepted is accepted without what followed it. -/
theorem decodeRecord_take (h : decodeRecord state r = .ok (.record rec n state')) :
    decodeRecord state (r.take n) = .ok (.record rec n state') := by
  obtain ⟨envLen, pad, hsplit, hmin, hmax, hn, hlen, henv⟩ := decodeRecord_eq_record.mp h
  refine decodeRecord_eq_record.mpr ⟨envLen, pad, ?_, hmin, hmax, hn, ?_, ?_⟩
  · rw [List.take_take, Nat.min_eq_left (by omega)]
    exact hsplit
  · rw [List.length_take]
    omega
  · rw [List.drop_take, List.take_take, Nat.min_eq_left (by omega)]
    exact henv

theorem decodeEnvelope_eq_ok {env : Bytes} (h : decodeEnvelope state n env = .ok (rec, state')) :
    RecordKind.fromU8 (env.getD 0 0) = some rec.kind ∧ rec.data = env.drop envelopeHeader ∧
      state' = rec.crc ∧ rec.crc = storedCrc env ∧
        (rec.kind ≠ .crcSeed → Crc32c.append state rec.data = rec.crc) := by
  rw [decodeEnvelope_eq] at h
  split at h
  · cases h
  next kind hkind =>
  split at h
  · cases h
  next hcrc =>
  cases h
  exact ⟨hkind, rfl, rfl, rfl, fun hseed => not_not.mp fun hne => hcrc ⟨hseed, hne⟩⟩

theorem length_data_le (h : decodeRecord state r = .ok (.record rec n state')) :
    envelopeHeader + rec.data.length ≤ maxEnvelopeLen := by
  obtain ⟨envLen, pad, -, hmin, hmax, -, -, henv⟩ := decodeRecord_eq_record.mp h
  rw [(decodeEnvelope_eq_ok henv).2.1, List.length_drop, List.length_take]
  omega

/-- Whatever its length field says, a frame is read as a record of the kind that was written. -/
theorem decodeRecord_kind {rest : Bytes}
    (h : decodeRecord reader (encodeRecord state kind data ++ rest) = .ok (.record rec n state')) :
    rec.kind = kind := by
  obtain ⟨envLen, pad, -, hmin, -, -, -, henv⟩ := decodeRecord_eq_record.mp h
  have hkind := (decodeEnvelope_eq_ok henv).1
  obtain ⟨m, rfl⟩ : ∃ m, envLen = m + 1 := ⟨envLen - 1, by unfold envelopeHeader at hmin; omega⟩
  rw [drop_encodeRecord] at hkind
  simpa [envelope, RecordKind.fromU8_toU8] using hkind.symm

theorem decodeRecord_pos
    (h : decodeRecord state r = .ok (.record rec n state')) : 0 < n ∧ n ≤ r.length := by
  obtain ⟨envLen, pad, -, -, -, hn, hlen, -⟩ := decodeRecord_eq_record.mp h
  exact ⟨by omega, hlen⟩

end P2P333.Substrate
