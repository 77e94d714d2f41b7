import P2P333.Transfer333.Epoch

/-!
# Effect attestations and client finality

`333-transfer/src/effect.rs`: the signed statement "I applied this order at this slot", and the
certificate over a quorum of distinct authorities that make it.

Results:
1. `effectMessage_inj`: the bytes of an attestation determine everything it says.
2. The three kinds of bytes an authority signs start with three different tags, so no signature of
   one kind passes for another.
3. `EffectCert.assemble_eq_some`: an assembled certificate has a quorum of valid attestations by
   distinct members.
-/

namespace P2P333.Transfer333

open Std Lib

def effectAttestationDomain : Bytes := tag "transfer333/effect-attestation/v1\x00"

/-- The bytes an authority signs to attest that it applied `orderId` at `(account, seq)`. -/
def effectMessage (committeeId : CommitteeId) (account : AccountId) (seq : U64)
    (orderId : Digest) : Bytes :=
  effectAttestationDomain ++ committeeId.toList ++ putStr account ++ putLe 8 seq ++ orderId.toList

theorem effectMessage_inj {c c' : CommitteeId} {a a' : AccountId} {s s' : U64} {o o' : Digest}
    (h : effectMessage c a s o = effectMessage c' a' s' o') :
    c = c' ∧ a = a' ∧ s = s' ∧ o = o' := by
  simp only [effectMessage, List.append_assoc] at h
  obtain ⟨hc, h⟩ := selfDelimiting_vector 32 _ _ _ _ (List.append_cancel_left h)
  obtain ⟨ha, h⟩ := selfDelimiting_putStr _ _ _ _ h
  obtain ⟨hs, h⟩ := selfDelimiting_putLe rfl _ _ _ _ h
  exact ⟨hc, ha, hs, (selfDelimiting_vector 32).injective h⟩

/-- One authority's signed attestation that it applied `orderId` at the slot. -/
structure EffectAttestation where
  authority : AuthorityId
  committeeId : CommitteeId
  account : AccountId
  seq : U64
  orderId : Digest
  signature : Signature
deriving DecidableEq

/-- The bytes that an attestation's signature has to cover. -/
def EffectAttestation.message (a : EffectAttestation) : Bytes :=
  effectMessage a.committeeId a.account a.seq a.orderId

/-! ## Domain separation -/

/-- Bytes behind tags that differ within the first `k` bytes are different. -/
theorem ne_of_take_ne {x y : Bytes} {k : Nat} (h : x.take k ≠ y.take k) : x ≠ y :=
  fun hxy => h (by rw [hxy])

theorem take_append_tag {t : Bytes} {k : Nat} (hk : k ≤ t.length) (x : Bytes) :
    (t ++ x).take k = t.take k := List.take_append_of_le_length hk

theorem authoritySigningMessage_ne_effectMessage {a : AuthorityId} {c c' : CommitteeId}
    {p : PolicyId} {n : NetworkId} {t : Transfer} {r s : U64} {acc : AccountId} {o : Digest} :
    authoritySigningMessage a c p n t r ≠ effectMessage c' acc s o := by
  refine ne_of_take_ne (k := 13) ?_
  simp only [authoritySigningMessage, effectMessage, List.append_assoc]
  rw [take_append_tag (by decide), take_append_tag (by decide)]
  decide

theorem epochVoteSigningMessage_ne_effectMessage {a : AuthorityId} {c c' n : CommitteeId}
    {e s : U64} {d o : Digest} {acc : AccountId} :
    epochVoteSigningMessage a c e n d ≠ effectMessage c' acc s o := by
  refine ne_of_take_ne (k := 14) ?_
  simp only [epochVoteSigningMessage, effectMessage, List.append_assoc]
  rw [take_append_tag (by decide), take_append_tag (by decide)]
  decide

theorem authoritySigningMessage_ne_epochVoteSigningMessage {a a' : AuthorityId}
    {c c' n' : CommitteeId} {p : PolicyId} {n : NetworkId} {t : Transfer} {r e : U64} {d : Digest} :
    authoritySigningMessage a c p n t r ≠ epochVoteSigningMessage a' c' e n' d := by
  refine ne_of_take_ne (k := 13) ?_
  simp only [authoritySigningMessage, epochVoteSigningMessage, List.append_assoc]
  rw [take_append_tag (by decide), take_append_tag (by decide)]
  decide

/-! ## Certificates of effect -/

variable [Crypto]

def EffectAttestation.isValid (a : EffectAttestation) (c : Committee) : Bool :=
  if a.committeeId ≠ c.id then false
  else match c.keyOf a.authority with
    | none => false
    | some key => Crypto.verifyStrict key a.message a.signature

/-- A quorum of distinct authorities attesting the same order at the same slot. Its fields are
private: only `assemble` makes one. -/
structure EffectCert where
  account : AccountId
  seq : U64
  orderId : Digest
deriving DecidableEq

/-- The attestations that count towards `orderId` at `(account, seq)`. -/
def EffectCert.counted (account : AccountId) (seq : U64) (orderId : Digest)
    (attestations : List EffectAttestation) (c : Committee) : List EffectAttestation :=
  attestations.filter fun a =>
    decide (a.account = account) && decide (a.seq = seq) && decide (a.orderId = orderId) &&
      a.isValid c

def EffectCert.assemble (account : AccountId) (seq : U64) (orderId : Digest)
    (attestations : List EffectAttestation) (c : Committee) : Option EffectCert :=
  let distinct := ((counted account seq orderId attestations c).map (·.authority)).dedup
  if c.quorum ≤ distinct.length then some ⟨account, seq, orderId⟩ else none

theorem EffectAttestation.isValid_iff {a : EffectAttestation} {c : Committee} :
    a.isValid c = true ↔ a.committeeId = c.id ∧
      ∃ key, c.keyOf a.authority = some key ∧
        Crypto.verifyStrict key a.message a.signature = true := by
  unfold isValid
  split
  · next h => exact ⟨fun h' => (by cases h'), fun h' => absurd h'.1 h⟩
  · next h =>
    rw [not_not] at h
    cases c.keyOf a.authority with
    | none =>
      refine ⟨fun h' => (by cases h'), ?_⟩
      rintro ⟨-, key, hkey, -⟩
      cases hkey
    | some key =>
      exact ⟨fun h' => ⟨h, key, rfl, h'⟩, fun ⟨_, key', hkey, h'⟩ => by cases hkey; exact h'⟩

/-- The facts behind an assembled effect certificate: a list of distinct members of quorum size,
each with a valid attestation for the slot and the order. -/
theorem EffectCert.assemble_eq_some {account : AccountId} {seq : U64} {orderId : Digest}
    {attestations : List EffectAttestation} {c : Committee} {cert : EffectCert}
    (h : assemble account seq orderId attestations c = some cert) :
    cert = ⟨account, seq, orderId⟩ ∧
    ∃ signers : List AuthorityId, signers.Nodup ∧ c.quorum ≤ signers.length ∧
      (∀ s ∈ signers, s ∈ c.seats) ∧
      ∀ s ∈ signers, ∃ a ∈ attestations, a.authority = s ∧ a.account = account ∧ a.seq = seq ∧
        a.orderId = orderId ∧ a.isValid c = true := by
  simp only [assemble] at h
  split at h
  · next hq =>
    cases h
    have hsigner : ∀ s ∈ ((counted account seq orderId attestations c).map (·.authority)).dedup,
        ∃ a ∈ attestations, a.authority = s ∧ a.account = account ∧ a.seq = seq ∧
          a.orderId = orderId ∧ a.isValid c = true := by
      intro s hs
      obtain ⟨a, ha, rfl⟩ := List.mem_map.mp (List.mem_dedup.mp hs)
      obtain ⟨hmem, hcond⟩ := List.mem_filter.mp ha
      simp only [Bool.and_eq_true, decide_eq_true_eq] at hcond
      obtain ⟨⟨⟨hacc, hseq⟩, horder⟩, hvalid⟩ := hcond
      exact ⟨a, hmem, rfl, hacc, hseq, horder, hvalid⟩
    refine ⟨rfl, _, List.nodup_dedup _, hq, ?_, hsigner⟩
    intro s hs
    obtain ⟨a, -, rfl, -, -, -, hvalid⟩ := hsigner s hs
    obtain ⟨-, key, hkey, -⟩ := EffectAttestation.isValid_iff.mp hvalid
    exact Committee.mem_seats hkey
  · cases h

end P2P333.Transfer333
