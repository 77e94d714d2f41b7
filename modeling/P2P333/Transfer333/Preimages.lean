import P2P333.Transfer333.Effect

/-!
# Signed and hashed bytes

Every string of bytes that the transfer crate signs or hashes into an identity, side by side:
the owner's intent, the authority's vote, the effect attestation and the epoch vote are signed;
the owner policy, the roster and the order are hashed.

Results:
1. `SigningInput.message_injective`: the four kinds of signed bytes never coincide, neither for two
   inputs of one kind nor for inputs of two kinds.
2. `policyIdPreimage_inj`, `orderIdPreimage_inj` and `committeeIdPreimage_inj`: hashed bytes
   determine what they identify.
-/

namespace P2P333.Transfer333

open Std Lib Function

/-! ## Hashed bytes -/

/-- The bytes that a policy id digests. The entries have no count in front of them. -/
def policyIdPreimage (networkId : NetworkId) (owners : OwnerRegistry) : Bytes :=
  policyIdDomain ++ putStr networkId.value ++
    owners.keys.toList.flatMap fun e => putStr e.1 ++ e.2.toList

/-- The bytes that an order id digests. -/
def orderIdPreimage (o : SignedTransfer) : Bytes :=
  orderIdDomain ++ o.policyId.toList ++ putNetworkTransferBody o.networkId o.transfer o.round ++
    o.ownerSignature.toList

theorem TransferPolicy.id_eq [Crypto] (p : TransferPolicy) :
    p.id = Crypto.sha256 (policyIdPreimage p.networkId p.owners) := rfl

theorem SignedTransfer.orderId_eq [Crypto] (o : SignedTransfer) :
    o.orderId = Crypto.sha256 (orderIdPreimage o) := rfl

theorem Committee.id_eq [Crypto] (c : Committee) :
    c.id = Crypto.sha256 (committeeIdPreimage c.policy.id c.members) := rfl

theorem policyIdPreimage_inj {n n' : NetworkId} {o o' : OwnerRegistry}
    (h : policyIdPreimage n o = policyIdPreimage n' o') : n = n' ∧ o = o' := by
  simp only [policyIdPreimage, List.append_assoc] at h
  obtain ⟨hn, h⟩ := selfDelimiting_putStr _ _ _ _ (List.append_cancel_left h)
  have hlist : o.keys.toList = o'.keys.toList := selfDelimiting_member.flatMap_injective
    (fun e => List.append_ne_nil_of_left_ne_nil (putBytes_ne_nil _) _) h
  refine ⟨NetworkId.value_injective hn, ?_⟩
  have hkeys : o.keys = o'.keys := by
    rw [← OrdMap.ofEntries_of_perm (List.Perm.of_eq hlist), OrdMap.ofEntries_of_perm (.refl _)]
  cases o
  cases o'
  rw [OwnerRegistry.mk.injEq]
  exact hkeys

theorem orderIdPreimage_inj {o o' : SignedTransfer} (h : orderIdPreimage o = orderIdPreimage o') :
    o = o' := by
  simp only [orderIdPreimage, List.append_assoc] at h
  obtain ⟨hp, h⟩ := selfDelimiting_vector 32 _ _ _ _ (List.append_cancel_left h)
  obtain ⟨hn, ht, hr, h⟩ := putNetworkTransferBody_inj h
  have hs := (selfDelimiting_vector 64).injective h
  cases o
  cases o'
  simp only [SignedTransfer.mk.injEq]
  exact ⟨hn, hp, ht, hr, hs⟩

/-! ## Signed bytes -/

theorem ownerSigningMessage_inj {p p' : PolicyId} {n n' : NetworkId} {t t' : Transfer} {r r' : U64}
    (h : ownerSigningMessage p n t r = ownerSigningMessage p' n' t' r') :
    p = p' ∧ n = n' ∧ t = t' ∧ r = r' := by
  simp only [ownerSigningMessage, List.append_assoc] at h
  obtain ⟨hp, h⟩ := selfDelimiting_vector 32 _ _ _ _ (List.append_cancel_left h)
  obtain ⟨hn, ht, hr, -⟩ := putNetworkTransferBody_inj (x := []) (y := []) (by simpa using h)
  exact ⟨hp, hn, ht, hr⟩

/-- The arguments of one of the four functions that produce bytes to sign. -/
inductive SigningInput where
  | owner (policyId : PolicyId) (networkId : NetworkId) (t : Transfer) (round : U64)
  | authority (authority : AuthorityId) (committeeId : CommitteeId) (policyId : PolicyId)
      (networkId : NetworkId) (t : Transfer) (round : U64)
  | effect (committeeId : CommitteeId) (account : AccountId) (seq : U64) (orderId : Digest)
  | epochVote (authority : AuthorityId) (committeeId : CommitteeId) (epoch : U64)
      (nextCommitteeId : CommitteeId) (frontierDigest : Digest)
deriving DecidableEq

namespace SigningInput

def message : SigningInput → Bytes
  | owner policyId networkId t round => ownerSigningMessage policyId networkId t round
  | authority id committeeId policyId networkId t round =>
    authoritySigningMessage id committeeId policyId networkId t round
  | effect committeeId account seq orderId => effectMessage committeeId account seq orderId
  | epochVote id committeeId epoch nextCommitteeId frontierDigest =>
    epochVoteSigningMessage id committeeId epoch nextCommitteeId frontierDigest

/-- The tag in front of the message. -/
def domain : SigningInput → Bytes
  | owner .. => ownerIntentDomain
  | authority .. => authorityVoteDomain
  | effect .. => effectAttestationDomain
  | epochVote .. => epochVoteSigningDomain

/-- Fourteen bytes of the tag are enough to tell the four kinds apart. -/
theorem take_message (x : SigningInput) : x.message.take 14 = x.domain.take 14 := by
  cases x with
  | owner =>
    simp only [message, ownerSigningMessage, List.append_assoc]
    exact take_append_tag (by decide) _
  | authority =>
    simp only [message, authoritySigningMessage, List.append_assoc]
    exact take_append_tag (by decide) _
  | effect =>
    simp only [message, effectMessage, List.append_assoc]
    exact take_append_tag (by decide) _
  | epochVote =>
    simp only [message, epochVoteSigningMessage, List.append_assoc]
    exact take_append_tag (by decide) _

theorem domain_take_eq {x y : SigningInput} (h : x.message = y.message) :
    x.domain.take 14 = y.domain.take 14 := by
  rw [← take_message, ← take_message, h]

/-- No signature over bytes of one kind is a signature over bytes of another kind or over other
arguments of the same kind. -/
theorem message_injective : Injective message := by
  intro x y h
  have htag := domain_take_eq h
  -- off the diagonal the two tags already differ
  cases x <;> cases y <;> try exact absurd htag (by simp only [domain]; decide)
  case owner.owner =>
    obtain ⟨rfl, rfl, rfl, rfl⟩ := ownerSigningMessage_inj h
    rfl
  case authority.authority =>
    obtain ⟨rfl, rfl, rfl, rfl, rfl, rfl⟩ := authoritySigningMessage_inj h
    rfl
  case effect.effect =>
    obtain ⟨rfl, rfl, rfl, rfl⟩ := effectMessage_inj h
    rfl
  case epochVote.epochVote =>
    obtain ⟨rfl, rfl, rfl, rfl, rfl⟩ := epochVoteSigningMessage_inj h
    rfl

end SigningInput

/-- Signed bytes are injective and separated by kind, and the bytes that the three identities
digest determine what was hashed. -/
theorem preimages_determine_inputs [Crypto] :
    Injective SigningInput.message ∧
    ((∀ p : TransferPolicy, p.id = Crypto.sha256 (policyIdPreimage p.networkId p.owners)) ∧
      Injective fun x : NetworkId × OwnerRegistry => policyIdPreimage x.1 x.2) ∧
    ((∀ c : Committee, c.id = Crypto.sha256 (committeeIdPreimage c.policy.id c.members)) ∧
      Injective fun x : PolicyId × Members => committeeIdPreimage x.1 x.2) ∧
    ((∀ o : SignedTransfer, o.orderId = Crypto.sha256 (orderIdPreimage o)) ∧
      Injective orderIdPreimage) := by
  refine ⟨SigningInput.message_injective, ⟨TransferPolicy.id_eq, ?_⟩, ⟨Committee.id_eq, ?_⟩,
    SignedTransfer.orderId_eq, fun _ _ => orderIdPreimage_inj⟩
  · rintro ⟨n, o⟩ ⟨n', o'⟩ h
    obtain ⟨rfl, rfl⟩ := policyIdPreimage_inj h
    rfl
  · rintro ⟨p, m⟩ ⟨p', m'⟩ h
    obtain ⟨rfl, rfl⟩ := committeeIdPreimage_inj h
    rfl

end P2P333.Transfer333
