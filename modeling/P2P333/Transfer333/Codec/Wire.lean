import P2P333.Lib.Codec
import P2P333.Transfer333.Effect

/-!
# The wire format

`333-transfer/src/wire.rs`: the domain-tagged, length-prefixed encoding of the seven messages of the
authority mesh, and its decoder.

Results:
1. `exact_*`: every `take_*` reads back exactly what the `put_*` beside it writes, for values within
   the declared bounds, and accepts nothing else.
2. `wire_exact`: messages within the bounds survive the round trip, and the decoder accepts no byte
   string other than the encoding of what it returns.
-/

namespace P2P333.Transfer333

open Std Lib

/-! ## Strings and keys -/

/-- `from_utf8`. No Rust slice is longer than `isize::MAX` bytes. -/
def Str.fromUtf8 (bs : Bytes) : Option Str :=
  if h : (ByteArray.mk bs.toArray).IsValidUTF8 ∧ bs.length < 2 ^ 63 then
    some ⟨String.fromUTF8 (ByteArray.mk bs.toArray) h.1, h.2⟩
  else none

theorem Str.fromUtf8_eq_some {bs : Bytes} {s : Str} : Str.fromUtf8 bs = some s ↔ s.bytes = bs := by
  unfold Str.fromUtf8
  constructor
  · intro h
    split at h
    · cases h
      rfl
    · cases h
  · rintro rfl
    have hbytes : ByteArray.mk s.bytes.toArray = s.text.toByteArray := rfl
    rw [dif_pos ⟨hbytes ▸ s.text.isValidUTF8, s.fits⟩]
    rfl

theorem NetworkId.new_toOption {s : Str} {n : NetworkId} :
    (NetworkId.new s).toOption = some n ↔ n.value = s := by
  unfold NetworkId.new
  constructor
  · intro h
    split at h
    · cases h
    · split at h
      · cases h
      · cases h
        rfl
  · rintro rfl
    rw [dif_neg n.nonempty, dif_neg (Nat.not_lt.mpr n.bounded)]
    rfl

/-- Which 32-byte strings `VerifyingKey::from_bytes` accepts. A key keeps its encoding, so reading
the bytes of a key gives the key back. -/
class KeyFormat where
  isKey : List.Vector UInt8 32 → Bool

def VerifyingKey.fromBytes [KeyFormat] (b : List.Vector UInt8 32) : Option VerifyingKey :=
  if KeyFormat.isKey b then some b else none

/-! ## Errors and messages -/

/-- Why bytes could not be decoded. `lengthOverflow` needs a `usize` of less than 64 bits. -/
inductive WireError where
  | truncated
  | badDomain
  | badUtf8
  | badNetworkId
  | badSignature
  | lengthOverflow (field : String) (length : U64)
  | fieldTooLong (field : String) (length : U64) (max : Nat)
  | tooManyVotes (count : U64) (max : Nat)
  | unknownTag (tag : UInt8)
deriving DecidableEq

/-- What authorities and clients send one another. -/
inductive AuthorityMsg where
  | order (o : SignedTransfer)
  | vote (v : Vote)
  | cert (c : Certificate)
  | attestation (a : EffectAttestation)
  | epochProposal (p : EpochProposal)
  | epochVote (v : EpochVote)
  | epochCert (c : EpochCert)
deriving DecidableEq

def domainTransfer : Bytes := tag "transfer333/wire-signed-order/v3\x00"
def domainVote : Bytes := tag "transfer333/wire-vote/v3\x00"
def domainCert : Bytes := tag "transfer333/wire-cert/v3\x00"
def domainAttestation : Bytes := tag "transfer333/wire-effect-attestation/v1\x00"
def domainEpochProposal : Bytes := tag "transfer333/wire-epoch-proposal/v1\x00"
def domainEpochVote : Bytes := tag "transfer333/wire-epoch-vote/v1\x00"
def domainEpochCert : Bytes := tag "transfer333/wire-epoch-cert/v1\x00"

def maxCertificateVotes : Nat := maxCommitteeMembers
def maxFrontierAccounts : Nat := 4096

/-! ## Bounds

What the decoder lets through: ids, rosters, frontiers and vote lists within the `MAX_*` constants,
and keys that are keys. -/

def Transfer.Fits (t : Transfer) : Prop :=
  t.sender.len ≤ maxAccountIdBytes ∧ t.recipient.len ≤ maxAccountIdBytes

def SignedTransfer.Fits (o : SignedTransfer) : Prop := o.transfer.Fits

def Vote.Fits (v : Vote) : Prop := v.authority.len ≤ maxAuthorityIdBytes ∧ v.transfer.Fits

def Certificate.Fits (c : Certificate) : Prop :=
  c.order.Fits ∧ c.votes.length ≤ maxCertificateVotes ∧ ∀ v ∈ c.votes, v.Fits

def EffectAttestation.Fits (a : EffectAttestation) : Prop :=
  a.authority.len ≤ maxAuthorityIdBytes ∧ a.account.len ≤ maxAccountIdBytes

def RosterFits [KeyFormat] (roster : List (AuthorityId × VerifyingKey)) : Prop :=
  roster.length ≤ maxCommitteeMembers ∧
    ∀ e ∈ roster, e.1.len ≤ maxAuthorityIdBytes ∧ KeyFormat.isKey e.2 = true

def FrontierFits (frontier : Frontier) : Prop :=
  frontier.length ≤ maxFrontierAccounts ∧ ∀ e ∈ frontier, e.1.len ≤ maxAccountIdBytes

def EpochProposal.Fits [KeyFormat] (p : EpochProposal) : Prop := RosterFits p.nextRoster

def EpochVote.Fits (v : EpochVote) : Prop :=
  v.authority.len ≤ maxAuthorityIdBytes ∧ FrontierFits v.frontier

def EpochCert.Fits [KeyFormat] (c : EpochCert) : Prop :=
  RosterFits c.nextRoster ∧ FrontierFits c.frontier ∧ c.votes.length ≤ maxCommitteeMembers ∧
    ∀ v ∈ c.votes, v.Fits

def AuthorityMsg.Fits [KeyFormat] : AuthorityMsg → Prop
  | .order o => o.Fits
  | .vote v => v.Fits
  | .cert c => c.Fits
  | .attestation a => a.Fits
  | .epochProposal p => p.Fits
  | .epochVote v => v.Fits
  | .epochCert c => c.Fits

instance (t : Transfer) : Decidable t.Fits := inferInstanceAs (Decidable (_ ∧ _))
instance (o : SignedTransfer) : Decidable o.Fits := inferInstanceAs (Decidable o.transfer.Fits)
instance (v : Vote) : Decidable v.Fits := inferInstanceAs (Decidable (_ ∧ _))
instance (c : Certificate) : Decidable c.Fits := inferInstanceAs (Decidable (_ ∧ _ ∧ _))
instance (a : EffectAttestation) : Decidable a.Fits := inferInstanceAs (Decidable (_ ∧ _))
instance [KeyFormat] (r : List (AuthorityId × VerifyingKey)) : Decidable (RosterFits r) :=
  inferInstanceAs (Decidable (_ ∧ _))
instance (f : Frontier) : Decidable (FrontierFits f) := inferInstanceAs (Decidable (_ ∧ _))
instance [KeyFormat] (p : EpochProposal) : Decidable p.Fits :=
  inferInstanceAs (Decidable (RosterFits p.nextRoster))
instance (v : EpochVote) : Decidable v.Fits := inferInstanceAs (Decidable (_ ∧ _))
instance [KeyFormat] (c : EpochCert) : Decidable c.Fits :=
  inferInstanceAs (Decidable (_ ∧ _ ∧ _ ∧ _))

instance [KeyFormat] : (m : AuthorityMsg) → Decidable m.Fits
  | .order o => inferInstanceAs (Decidable o.Fits)
  | .vote v => inferInstanceAs (Decidable v.Fits)
  | .cert c => inferInstanceAs (Decidable c.Fits)
  | .attestation a => inferInstanceAs (Decidable a.Fits)
  | .epochProposal p => inferInstanceAs (Decidable p.Fits)
  | .epochVote v => inferInstanceAs (Decidable v.Fits)
  | .epochCert c => inferInstanceAs (Decidable c.Fits)

/-! ## Fields -/

namespace Wire

abbrev Take (α : Type) := Decoder WireError α

def take (n : Nat) : Take Bytes := Decoder.take .truncated n

def takeArray (n : Nat) : Take (List.Vector UInt8 n) := Decoder.takeVector .truncated n

def takeU64 : Take U64 := Decoder.takeLe .truncated 8

def takeU128 : Take U128 := Decoder.takeLe .truncated 16

def takeLenBytes (field : String) (max : Nat) : Take Bytes := do
  let length ← takeU64
  if length.toNat > max then throw (.fieldTooLong field length max) else take length.toNat

def takeStr (field : String) (max : Nat) : Take Str := do
  let b ← takeLenBytes field max
  Decoder.ofOption .badUtf8 (Str.fromUtf8 b)

def takeNetworkId : Take NetworkId := do
  let s ← takeStr "network_id" maxNetworkIdBytes
  Decoder.ofOption .badNetworkId (NetworkId.new s).toOption

def expectDomain (domain : Bytes) : Take Unit := do
  let got ← take domain.length
  if got ≠ domain then throw .badDomain else pure ()

theorem exact_takeU64 : Exact takeU64 (putLe 8) (fun _ => True) := exact_takeLe _ rfl

theorem exact_takeU128 : Exact takeU128 (putLe 16) (fun _ => True) := exact_takeLe _ rfl

theorem exact_takeArray (n : Nat) : Exact (takeArray n) List.Vector.toList (fun _ => True) :=
  exact_takeVector _ n

theorem toNat_ofNat_length {b : Bytes} (h : b.length < 2 ^ 64) :
    (BitVec.ofNat 64 b.length).toNat = b.length := by
  rw [BitVec.toNat_ofNat, Nat.mod_eq_of_lt h]

theorem exact_takeLenBytes (field : String) {max : Nat} (hmax : max < 2 ^ 64) :
    Exact (takeLenBytes field max) putBytes (fun b => b.length ≤ max) := by
  refine Exact.congr (Exact.bind (fun b => BitVec.ofNat 64 b.length) ?_ exact_takeU64
    (fun length => (exact_take _ length.toNat).guard)) (fun b => ?_) (fun b hb => ?_)
  · rintro length b - ⟨-, hb⟩
    rw [hb, BitVec.ofNat_toNat, BitVec.setWidth_eq]
  · constructor
    · rintro ⟨-, hle, hb⟩
      omega
    · intro hle
      rw [toNat_ofNat_length (Nat.lt_of_le_of_lt hle hmax)]
      exact ⟨trivial, Nat.not_lt.mpr hle, rfl⟩
  · obtain ⟨-, -, hlen⟩ := hb
    rw [putBytes, putLe, ← hlen]

theorem exact_takeStr (field : String) {max : Nat} (hmax : max < 2 ^ 64) :
    Exact (takeStr field max) putStr (fun s => s.len ≤ max) := by
  refine Exact.congr (Exact.bind Str.bytes ?_ (exact_takeLenBytes field hmax)
    (fun b => exact_ofOption _ (Str.fromUtf8 b))) (fun s => ?_)
    (fun s _ => List.append_nil _)
  · intro b s _ hs
    exact Str.fromUtf8_eq_some.mp hs
  · rw [Str.fromUtf8_eq_some, Str.length_bytes]
    simp

theorem exact_takeNetworkId :
    Exact takeNetworkId (fun n => putStr n.value) (fun _ => True) := by
  refine Exact.congr (Exact.bind NetworkId.value ?_ (exact_takeStr "network_id" (by decide))
    (fun s => exact_ofOption _ (NetworkId.new s).toOption)) (fun n => ?_)
    (fun n _ => List.append_nil _)
  · intro s n _ hn
    exact NetworkId.new_toOption.mp hn
  · rw [NetworkId.new_toOption]
    simpa using n.bounded

theorem exact_expectDomain (domain : Bytes) :
    Exact (expectDomain domain) (fun _ => domain) (fun _ => True) := by
  refine Exact.congr (Exact.bind (fun _ => domain) ?_ (exact_take _ domain.length)
    (fun got => (Exact.pure ()).guard)) (fun _ => ?_) (fun _ _ => List.append_nil _)
  · rintro got - - ⟨hgot, -⟩
    exact (not_not.mp hgot).symm
  · simp

/-! ## Transfers and orders -/

/-- The transfer without a domain tag. The round follows the sequence number, as in the signed
bytes. -/
def putTransferBody (t : Transfer) (round : U64) : Bytes :=
  putStr t.sender ++ (putLe 8 t.fromSeq ++
    (putLe 8 round ++ (putStr t.recipient ++ putLe 16 t.amount)))

def takeTransferBody : Take (Transfer × U64) := do
  let sender ← takeStr "transfer.from" maxAccountIdBytes
  let fromSeq ← takeU64
  let round ← takeU64
  let recipient ← takeStr "transfer.to" maxAccountIdBytes
  let amount ← takeU128
  pure (⟨sender, fromSeq, recipient, amount⟩, round)

theorem exact_takeTransferBody :
    Exact takeTransferBody (fun p => putTransferBody p.1 p.2) (fun p => p.1.Fits) := by
  refine Exact.congr
    (Exact.bind (fun p : Transfer × U64 => p.1.sender) (by grind) (exact_takeStr _ (by decide))
      fun sender =>
      Exact.bind (fun p : Transfer × U64 => p.1.fromSeq) (by grind) exact_takeU64 fun fromSeq =>
      Exact.bind (fun p : Transfer × U64 => p.2) (by grind) exact_takeU64 fun round =>
      Exact.bind (fun p : Transfer × U64 => p.1.recipient) (by grind) (exact_takeStr _ (by decide))
        fun recipient =>
      Exact.bind (fun p : Transfer × U64 => p.1.amount) (by grind) exact_takeU128 fun amount =>
      Exact.pure (Transfer.mk sender fromSeq recipient amount, round)) (fun p => ?_) (fun p _ => ?_)
  · unfold Transfer.Fits
    simp
  · unfold putTransferBody
    simp

def putSignedTransferBody (o : SignedTransfer) : Bytes :=
  o.policyId.toList ++ (putStr o.networkId.value ++
    (putTransferBody o.transfer o.round ++ o.ownerSignature.toList))

def takeSignedTransferBody : Take SignedTransfer := do
  let policyId ← takeArray 32
  let networkId ← takeNetworkId
  let (transfer, round) ← takeTransferBody
  let ownerSignature ← takeArray 64
  pure ⟨networkId, policyId, transfer, round, ownerSignature⟩

theorem exact_takeSignedTransferBody :
    Exact takeSignedTransferBody putSignedTransferBody SignedTransfer.Fits := by
  refine Exact.congr
    (Exact.bind SignedTransfer.policyId (by grind) (exact_takeArray 32) fun policyId =>
      Exact.bind SignedTransfer.networkId (by grind) exact_takeNetworkId fun networkId =>
      Exact.bind (fun o : SignedTransfer => (o.transfer, o.round)) (by grind) exact_takeTransferBody
        fun body =>
      Exact.bind SignedTransfer.ownerSignature (by grind) (exact_takeArray 64) fun ownerSignature =>
      Exact.pure (SignedTransfer.mk networkId policyId body.1 body.2 ownerSignature))
    (fun o => ?_) (fun o _ => ?_)
  · unfold SignedTransfer.Fits
    simp
  · unfold putSignedTransferBody
    simp

/-! ## Votes and certificates -/

def putVoteBody (v : Vote) : Bytes :=
  putStr v.authority ++ (v.committeeId.toList ++ (v.policyId.toList ++
    (putStr v.networkId.value ++ (putTransferBody v.transfer v.round ++ v.signature.toList))))

def takeVoteBody : Take Vote := do
  let authority ← takeStr "vote.authority" maxAuthorityIdBytes
  let committeeId ← takeArray 32
  let policyId ← takeArray 32
  let networkId ← takeNetworkId
  let (transfer, round) ← takeTransferBody
  let signature ← takeArray 64
  pure ⟨authority, committeeId, policyId, networkId, transfer, round, signature⟩

theorem exact_takeVoteBody : Exact takeVoteBody putVoteBody Vote.Fits := by
  refine Exact.congr
    (Exact.bind Vote.authority (by grind) (exact_takeStr _ (by decide)) fun authority =>
      Exact.bind Vote.committeeId (by grind) (exact_takeArray 32) fun committeeId =>
      Exact.bind Vote.policyId (by grind) (exact_takeArray 32) fun policyId =>
      Exact.bind Vote.networkId (by grind) exact_takeNetworkId fun networkId =>
      Exact.bind (fun v : Vote => (v.transfer, v.round)) (by grind) exact_takeTransferBody
        fun body =>
      Exact.bind Vote.signature (by grind) (exact_takeArray 64) fun signature =>
      Exact.pure
        (Vote.mk authority committeeId policyId networkId body.1 body.2 signature))
    (fun v => ?_) (fun v _ => ?_)
  · unfold Vote.Fits
    simp
  · unfold putVoteBody
    simp

/-- A list behind its length; `e` for a count above the cap. The checks on rosters, frontiers and
vote lists differ in the cap and in the error only. -/
def takeList {α : Type} (max : Nat) (e : U64 → WireError) (item : Take α) : Take (List α) := do
  let count ← takeU64
  if count.toNat > max then throw (e count) else item.many count.toNat

def putList {α : Type} (put : α → Bytes) (l : List α) : Bytes :=
  leBytes 8 l.length ++ l.flatMap put

theorem exact_takeList {α : Type} {max : Nat} (hmax : max < 2 ^ 64) (e : U64 → WireError)
    {item : Take α} {put : α → Bytes} {dom : α → Prop} (h : Exact item put dom) :
    Exact (takeList max e item) (putList put) (fun l => l.length ≤ max ∧ ∀ a ∈ l, dom a) := by
  refine Exact.congr (Exact.bind (fun l : List α => BitVec.ofNat 64 l.length) ?_ exact_takeU64
    (fun count => (h.many count.toNat).guard)) (fun l => ?_) (fun l hl => ?_)
  · rintro count l - ⟨-, hl, -⟩
    rw [hl, BitVec.ofNat_toNat, BitVec.setWidth_eq]
  · constructor
    · rintro ⟨-, hle, hl, hdom⟩
      exact ⟨by omega, hdom⟩
    · rintro ⟨hle, hdom⟩
      have hnat : (BitVec.ofNat 64 l.length).toNat = l.length := by
        rw [BitVec.toNat_ofNat, Nat.mod_eq_of_lt (Nat.lt_of_le_of_lt hle hmax)]
      rw [hnat]
      exact ⟨trivial, Nat.not_lt.mpr hle, rfl, hdom⟩
  · obtain ⟨-, -, hlen, -⟩ := hl
    rw [putList, putLe, ← hlen]

def putCertificateBody (c : Certificate) : Bytes :=
  putSignedTransferBody c.order ++ putList putVoteBody c.votes

def takeCertificateBody : Take Certificate := do
  let order ← takeSignedTransferBody
  let votes ← takeList maxCertificateVotes (.tooManyVotes · maxCertificateVotes) takeVoteBody
  pure ⟨order, votes⟩

theorem exact_takeCertificateBody :
    Exact takeCertificateBody putCertificateBody Certificate.Fits := by
  refine Exact.congr
    (Exact.bind Certificate.order (by grind) exact_takeSignedTransferBody fun order =>
      Exact.bind Certificate.votes (by grind) (exact_takeList (by decide) _ exact_takeVoteBody)
        fun votes =>
      Exact.pure (Certificate.mk order votes)) (fun c => ?_) (fun c _ => ?_)
  · unfold Certificate.Fits
    simp
  · unfold putCertificateBody
    simp

/-! ## Attestations -/

def putAttestationBody (a : EffectAttestation) : Bytes :=
  putStr a.authority ++ (a.committeeId.toList ++ (putStr a.account ++ (putLe 8 a.seq ++
    (a.orderId.toList ++ a.signature.toList))))

def takeAttestationBody : Take EffectAttestation := do
  let authority ← takeStr "attestation.authority" maxAuthorityIdBytes
  let committeeId ← takeArray 32
  let account ← takeStr "attestation.account" maxAccountIdBytes
  let seq ← takeU64
  let orderId ← takeArray 32
  let signature ← takeArray 64
  pure ⟨authority, committeeId, account, seq, orderId, signature⟩

theorem exact_takeAttestationBody :
    Exact takeAttestationBody putAttestationBody EffectAttestation.Fits := by
  refine Exact.congr
    (Exact.bind EffectAttestation.authority (by grind) (exact_takeStr _ (by decide))
      fun authority =>
      Exact.bind EffectAttestation.committeeId (by grind) (exact_takeArray 32) fun committeeId =>
      Exact.bind EffectAttestation.account (by grind) (exact_takeStr _ (by decide)) fun account =>
      Exact.bind EffectAttestation.seq (by grind) exact_takeU64 fun seq =>
      Exact.bind EffectAttestation.orderId (by grind) (exact_takeArray 32) fun orderId =>
      Exact.bind EffectAttestation.signature (by grind) (exact_takeArray 64) fun signature =>
      Exact.pure (EffectAttestation.mk authority committeeId account seq orderId signature))
    (fun a => ?_) (fun a _ => ?_)
  · unfold EffectAttestation.Fits
    simp
  · unfold putAttestationBody
    simp

/-! ## Epoch changes -/

def putFrontierEntry (e : AccountId × U64) : Bytes := putStr e.1 ++ putLe 8 e.2

def takeFrontierEntry : Take (AccountId × U64) := do
  let account ← takeStr "epoch.frontier.account" maxAccountIdBytes
  let nextSeq ← takeU64
  pure (account, nextSeq)

theorem exact_takeFrontierEntry :
    Exact takeFrontierEntry putFrontierEntry (fun e => e.1.len ≤ maxAccountIdBytes) := by
  refine Exact.congr
    (Exact.bind (fun e : AccountId × U64 => e.1) (by grind) (exact_takeStr _ (by decide))
      fun account =>
      Exact.bind (fun e : AccountId × U64 => e.2) (by grind) exact_takeU64 fun nextSeq =>
      Exact.pure (account, nextSeq)) (fun e => ?_) (fun e _ => ?_)
  · simp
  · unfold putFrontierEntry
    simp

def putFrontier (frontier : Frontier) : Bytes := putList putFrontierEntry frontier

def takeFrontier : Take Frontier :=
  takeList maxFrontierAccounts (.fieldTooLong "epoch.frontier" · maxFrontierAccounts)
    takeFrontierEntry

theorem exact_takeFrontier : Exact takeFrontier putFrontier FrontierFits :=
  exact_takeList (by decide) _ exact_takeFrontierEntry

def putEpochVoteBody (v : EpochVote) : Bytes :=
  putStr v.authority ++ (v.committeeId.toList ++ (putLe 8 v.epoch ++ (v.nextCommitteeId.toList ++
    (putFrontier v.frontier ++ (v.frontierDigest.toList ++ v.signature.toList)))))

def takeEpochVoteBody : Take EpochVote := do
  let authority ← takeStr "epoch_vote.authority" maxAuthorityIdBytes
  let committeeId ← takeArray 32
  let epoch ← takeU64
  let nextCommitteeId ← takeArray 32
  let frontier ← takeFrontier
  let frontierDigest ← takeArray 32
  let signature ← takeArray 64
  pure ⟨authority, committeeId, epoch, nextCommitteeId, frontier, frontierDigest, signature⟩

theorem exact_takeEpochVoteBody : Exact takeEpochVoteBody putEpochVoteBody EpochVote.Fits := by
  refine Exact.congr
    (Exact.bind EpochVote.authority (by grind) (exact_takeStr _ (by decide)) fun authority =>
      Exact.bind EpochVote.committeeId (by grind) (exact_takeArray 32) fun committeeId =>
      Exact.bind EpochVote.epoch (by grind) exact_takeU64 fun epoch =>
      Exact.bind EpochVote.nextCommitteeId (by grind) (exact_takeArray 32) fun nextCommitteeId =>
      Exact.bind EpochVote.frontier (by grind) exact_takeFrontier fun frontier =>
      Exact.bind EpochVote.frontierDigest (by grind) (exact_takeArray 32) fun frontierDigest =>
      Exact.bind EpochVote.signature (by grind) (exact_takeArray 64) fun signature =>
      Exact.pure (EpochVote.mk authority committeeId epoch nextCommitteeId frontier frontierDigest
        signature)) (fun v => ?_) (fun v _ => ?_)
  · unfold EpochVote.Fits
    simp
  · unfold putEpochVoteBody
    simp

section Rosters

variable [KeyFormat]

def putMember (e : AuthorityId × VerifyingKey) : Bytes := putStr e.1 ++ e.2.toList

def takeMember : Take (AuthorityId × VerifyingKey) := do
  let authority ← takeStr "epoch.authority" maxAuthorityIdBytes
  let keyBytes ← takeArray 32
  let key ← Decoder.ofOption .badSignature (VerifyingKey.fromBytes keyBytes)
  pure (authority, key)

theorem exact_takeMember : Exact takeMember putMember
    (fun e => e.1.len ≤ maxAuthorityIdBytes ∧ KeyFormat.isKey e.2 = true) := by
  have hkey : ∀ b k : List.Vector UInt8 32,
      VerifyingKey.fromBytes b = some k ↔ KeyFormat.isKey b = true ∧ b = k := by
    intro b k
    unfold VerifyingKey.fromBytes
    simp
  refine Exact.congr
    (Exact.bind (fun e : AuthorityId × VerifyingKey => e.1) (by grind) (exact_takeStr _ (by decide))
      fun authority =>
      Exact.bind (fun e : AuthorityId × VerifyingKey => e.2) (by grind) (exact_takeArray 32)
        fun keyBytes =>
      Exact.bind (fun e : AuthorityId × VerifyingKey => e.2) (by grind)
        (exact_ofOption _ (VerifyingKey.fromBytes keyBytes)) fun key =>
      Exact.pure (authority, key)) (fun e => ?_) (fun e _ => ?_)
  · simp [hkey]
  · unfold putMember
    simp

def putRoster (roster : List (AuthorityId × VerifyingKey)) : Bytes := putList putMember roster

def takeRoster : Take (List (AuthorityId × VerifyingKey)) :=
  takeList maxCommitteeMembers (.tooManyVotes · maxCommitteeMembers) takeMember

theorem exact_takeRoster : Exact takeRoster putRoster RosterFits :=
  exact_takeList (by decide) _ exact_takeMember

def putEpochProposalBody (p : EpochProposal) : Bytes :=
  p.policyId.toList ++ (putStr p.networkId.value ++ (putLe 8 p.epoch ++ putRoster p.nextRoster))

def takeEpochProposalBody : Take EpochProposal := do
  let policyId ← takeArray 32
  let networkId ← takeNetworkId
  let epoch ← takeU64
  let nextRoster ← takeRoster
  pure ⟨networkId, policyId, epoch, nextRoster⟩

theorem exact_takeEpochProposalBody :
    Exact takeEpochProposalBody putEpochProposalBody EpochProposal.Fits := by
  refine Exact.congr
    (Exact.bind EpochProposal.policyId (by grind) (exact_takeArray 32) fun policyId =>
      Exact.bind EpochProposal.networkId (by grind) exact_takeNetworkId fun networkId =>
      Exact.bind EpochProposal.epoch (by grind) exact_takeU64 fun epoch =>
      Exact.bind EpochProposal.nextRoster (by grind) exact_takeRoster fun nextRoster =>
      Exact.pure (EpochProposal.mk networkId policyId epoch nextRoster))
    (fun p => ?_) (fun p _ => ?_)
  · unfold EpochProposal.Fits
    simp
  · unfold putEpochProposalBody
    simp

def putEpochCertBody (c : EpochCert) : Bytes :=
  putLe 8 c.epoch ++ (putRoster c.nextRoster ++ (putFrontier c.frontier ++
    putList putEpochVoteBody c.votes))

def takeEpochCertBody : Take EpochCert := do
  let epoch ← takeU64
  let nextRoster ← takeRoster
  let frontier ← takeFrontier
  let votes ← takeList maxCommitteeMembers (.tooManyVotes · maxCommitteeMembers) takeEpochVoteBody
  pure ⟨epoch, nextRoster, frontier, votes⟩

theorem exact_takeEpochCertBody : Exact takeEpochCertBody putEpochCertBody EpochCert.Fits := by
  refine Exact.congr
    (Exact.bind EpochCert.epoch (by grind) exact_takeU64 fun epoch =>
      Exact.bind EpochCert.nextRoster (by grind) exact_takeRoster fun nextRoster =>
      Exact.bind EpochCert.frontier (by grind) exact_takeFrontier fun frontier =>
      Exact.bind EpochCert.votes (by grind) (exact_takeList (by decide) _ exact_takeEpochVoteBody)
        fun votes =>
      Exact.pure (EpochCert.mk epoch nextRoster frontier votes)) (fun c => ?_) (fun c _ => ?_)
  · unfold EpochCert.Fits
    simp
  · unfold putEpochCertBody
    simp

end Rosters

/-! ## Domain-tagged bodies -/

/-- `encode_*`: the domain, then the body. -/
def encode {α : Type} (domain : Bytes) (put : α → Bytes) (a : α) : Bytes := domain ++ put a

/-- `decode_*`: the domain, the body, and nothing after it. -/
def decode {α : Type} (domain : Bytes) (body : Take α) : Bytes → Except WireError α :=
  Decoder.all (do expectDomain domain; body) .truncated

theorem exact_tagged {α : Type} (domain : Bytes) {body : Take α} {put : α → Bytes}
    {dom : α → Prop} (h : Exact body put dom) :
    Exact (do expectDomain domain; body) (encode domain put) dom := by
  refine Exact.congr
    (Exact.bind (fun _ : α => ()) (by grind) (exact_expectDomain domain) fun _ => h)
    (fun a => ?_) (fun a _ => rfl)
  simp

theorem map_eq_ok {α β ε : Type} {x : Except ε α} {f : α → β} {b : β} (h : x.map f = .ok b) :
    ∃ a, x = .ok a ∧ b = f a := by
  cases x with
  | error e => cases h
  | ok a =>
    cases h
    exact ⟨a, rfl, rfl⟩

theorem decode_eq_ok {α : Type} {domain : Bytes} {body : Take α} {put : α → Bytes}
    {dom : α → Prop} (h : Exact body put dom) {bs : Bytes} {a : α} :
    decode domain body bs = .ok a ↔ dom a ∧ bs = encode domain put a :=
  ⟨(exact_tagged domain h).all_eq_ok,
    fun ⟨ha, hbs⟩ => hbs ▸ (exact_tagged domain h).all_encode _ ha⟩

/-- A body, wrapped as a message. -/
theorem map_decode_eq_ok {α β : Type} {domain : Bytes} {body : Take α} {put : α → Bytes}
    {dom : α → Prop} (h : Exact body put dom) {f : α → β} {bs : Bytes} {b : β} :
    (decode domain body bs).map f = .ok b ↔ ∃ a, dom a ∧ bs = encode domain put a ∧ b = f a := by
  constructor
  · intro hd
    obtain ⟨a, ha, rfl⟩ := map_eq_ok hd
    obtain ⟨hdom, rfl⟩ := (decode_eq_ok h).mp ha
    exact ⟨a, hdom, rfl, rfl⟩
  · rintro ⟨a, ha, rfl, rfl⟩
    rw [(decode_eq_ok h).mpr ⟨ha, rfl⟩]
    rfl

end Wire

section Messages

open Wire

variable [KeyFormat]

def encodeTransfer : SignedTransfer → Bytes := encode domainTransfer putSignedTransferBody
def encodeVote : Vote → Bytes := encode domainVote putVoteBody
def encodeCertificate : Certificate → Bytes := encode domainCert putCertificateBody
def encodeAttestation : EffectAttestation → Bytes := encode domainAttestation putAttestationBody
def encodeEpochProposal : EpochProposal → Bytes := encode domainEpochProposal putEpochProposalBody
def encodeEpochVote : EpochVote → Bytes := encode domainEpochVote putEpochVoteBody
def encodeEpochCert : EpochCert → Bytes := encode domainEpochCert putEpochCertBody

def decodeTransfer : Bytes → Except WireError SignedTransfer :=
  decode domainTransfer takeSignedTransferBody
def decodeVote : Bytes → Except WireError Vote := decode domainVote takeVoteBody
def decodeCertificate : Bytes → Except WireError Certificate :=
  decode domainCert takeCertificateBody
def decodeAttestation : Bytes → Except WireError EffectAttestation :=
  decode domainAttestation takeAttestationBody
def decodeEpochProposal : Bytes → Except WireError EpochProposal :=
  decode domainEpochProposal takeEpochProposalBody
def decodeEpochVote : Bytes → Except WireError EpochVote := decode domainEpochVote takeEpochVoteBody
def decodeEpochCert : Bytes → Except WireError EpochCert := decode domainEpochCert takeEpochCertBody

/-- `tag || domain-tagged body`. -/
def encodeAuthorityMsg : AuthorityMsg → Bytes
  | .order o => 0 :: encodeTransfer o
  | .vote v => 1 :: encodeVote v
  | .cert c => 2 :: encodeCertificate c
  | .attestation a => 3 :: encodeAttestation a
  | .epochProposal p => 4 :: encodeEpochProposal p
  | .epochVote v => 5 :: encodeEpochVote v
  | .epochCert c => 6 :: encodeEpochCert c

def decodeAuthorityMsg : Bytes → Except WireError AuthorityMsg
  | [] => .error .truncated
  | tag :: body =>
    match tag with
    | 0 => (decodeTransfer body).map .order
    | 1 => (decodeVote body).map .vote
    | 2 => (decodeCertificate body).map .cert
    | 3 => (decodeAttestation body).map .attestation
    | 4 => (decodeEpochProposal body).map .epochProposal
    | 5 => (decodeEpochVote body).map .epochVote
    | 6 => (decodeEpochCert body).map .epochCert
    | other => .error (.unknownTag other)

/-- The seven kinds, with the exactness of the body of each. -/
theorem decodeAuthorityMsg_encode {m : AuthorityMsg} (h : m.Fits) :
    decodeAuthorityMsg (encodeAuthorityMsg m) = .ok m := by
  cases m <;> simp only [encodeAuthorityMsg, decodeAuthorityMsg]
  case order o => exact (map_decode_eq_ok exact_takeSignedTransferBody).mpr ⟨o, h, rfl, rfl⟩
  case vote v => exact (map_decode_eq_ok exact_takeVoteBody).mpr ⟨v, h, rfl, rfl⟩
  case cert c => exact (map_decode_eq_ok exact_takeCertificateBody).mpr ⟨c, h, rfl, rfl⟩
  case attestation a => exact (map_decode_eq_ok exact_takeAttestationBody).mpr ⟨a, h, rfl, rfl⟩
  case epochProposal p => exact (map_decode_eq_ok exact_takeEpochProposalBody).mpr ⟨p, h, rfl, rfl⟩
  case epochVote v => exact (map_decode_eq_ok exact_takeEpochVoteBody).mpr ⟨v, h, rfl, rfl⟩
  case epochCert c => exact (map_decode_eq_ok exact_takeEpochCertBody).mpr ⟨c, h, rfl, rfl⟩

theorem decodeAuthorityMsg_eq_ok {bs : Bytes} {m : AuthorityMsg}
    (h : decodeAuthorityMsg bs = .ok m) : m.Fits ∧ encodeAuthorityMsg m = bs := by
  unfold decodeAuthorityMsg at h
  split at h
  · cases h
  · split at h
    · obtain ⟨o, hfits, rfl, rfl⟩ := (map_decode_eq_ok exact_takeSignedTransferBody).mp h
      exact ⟨hfits, rfl⟩
    · obtain ⟨v, hfits, rfl, rfl⟩ := (map_decode_eq_ok exact_takeVoteBody).mp h
      exact ⟨hfits, rfl⟩
    · obtain ⟨c, hfits, rfl, rfl⟩ := (map_decode_eq_ok exact_takeCertificateBody).mp h
      exact ⟨hfits, rfl⟩
    · obtain ⟨a, hfits, rfl, rfl⟩ := (map_decode_eq_ok exact_takeAttestationBody).mp h
      exact ⟨hfits, rfl⟩
    · obtain ⟨p, hfits, rfl, rfl⟩ := (map_decode_eq_ok exact_takeEpochProposalBody).mp h
      exact ⟨hfits, rfl⟩
    · obtain ⟨v, hfits, rfl, rfl⟩ := (map_decode_eq_ok exact_takeEpochVoteBody).mp h
      exact ⟨hfits, rfl⟩
    · obtain ⟨c, hfits, rfl, rfl⟩ := (map_decode_eq_ok exact_takeEpochCertBody).mp h
      exact ⟨hfits, rfl⟩
    · cases h

end Messages

/-- The codec is exact: every message within the bounds is read back, and whatever is read is the
one encoding of the message it is read as. -/
theorem wire_exact [KeyFormat] (m : AuthorityMsg) (bs : Bytes) :
    (m.Fits → decodeAuthorityMsg (encodeAuthorityMsg m) = .ok m) ∧
    (decodeAuthorityMsg bs = .ok m → encodeAuthorityMsg m = bs) :=
  ⟨decodeAuthorityMsg_encode, fun h => (decodeAuthorityMsg_eq_ok h).2⟩

namespace Demo

/-- A toy format in which every array of 32 bytes is a key. -/
scoped instance toyKeys : KeyFormat := ⟨fun _ => true⟩

def bytes32 (b : UInt8) : List.Vector UInt8 32 := List.Vector.replicate 32 b

/-- A certificate for epoch 1 with a roster of one, a frontier of two accounts and one vote. -/
def wireCert : EpochCert :=
  { epoch := 1
    nextRoster := [(⟨"a0", Str.fits_a0⟩, bytes32 7)]
    frontier := [(⟨"alice", Str.fits_alice⟩, 3), (⟨"bob", Str.fits_bob⟩, 0)]
    votes := [
      { authority := ⟨"a1", Str.fits_a1⟩
        committeeId := bytes32 1
        epoch := 1
        nextCommitteeId := bytes32 2
        frontier := [(⟨"alice", Str.fits_alice⟩, 3), (⟨"bob", Str.fits_bob⟩, 0)]
        frontierDigest := bytes32 3
        signature := List.Vector.replicate 64 4 }] }

end Demo

open Demo in
theorem wire_exact_demo :
    decodeAuthorityMsg (encodeAuthorityMsg (.epochCert wireCert)) = .ok (.epochCert wireCert) :=
  (wire_exact (.epochCert wireCert) []).1 (by decide +kernel)

end P2P333.Transfer333
