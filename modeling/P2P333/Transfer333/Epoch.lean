import P2P333.Transfer333.Committee

/-!
# Epoch-change values

`333-transfer/src/epoch.rs`: the frontier digest, the proposal, the signed assent of one authority
and the certificate over a quorum of them.

Results:
1. `frontierPreimage_perm`: frontiers with the same preimage have the same entries.
2. `epochVoteSigningMessage_inj`: the bytes of an epoch vote determine everything it says.
-/

namespace P2P333.Transfer333

open Std Lib

/-! ## Frontiers -/

/-- Per-account next sequence numbers. -/
abbrev Frontier := List (AccountId × U64)

def frontierDigestDomain : Bytes := tag "transfer333/epoch-frontier/v1\x00"
def epochVoteSigningDomain : Bytes := tag "transfer333/epoch-vote-signing/v1\x00"

/-- The order that `sort` puts the entries in. -/
def frontierLe (x y : AccountId × U64) : Prop := compare x y ≠ .gt

instance : DecidableRel frontierLe := fun x y => inferInstanceAs (Decidable (compare x y ≠ .gt))

/-- The bytes that a frontier digest covers. Accounts are sorted first, so that the order of
collection does not matter. -/
def frontierPreimage (frontier : Frontier) : Bytes :=
  let sorted := frontier.insertionSort frontierLe
  frontierDigestDomain ++ leBytes 8 sorted.length ++
    sorted.flatMap fun e => putStr e.1 ++ putLe 8 e.2

theorem selfDelimiting_frontierEntry :
    SelfDelimiting fun e : AccountId × U64 => putStr e.1 ++ putLe 8 e.2 :=
  selfDelimiting_putStr.append (selfDelimiting_putLe rfl)

/-- Equal preimages come from the same entries, in whatever order. -/
theorem frontierPreimage_perm {f f' : Frontier} (h : frontierPreimage f = frontierPreimage f') :
    f.Perm f' := by
  simp only [frontierPreimage, List.append_assoc] at h
  obtain ⟨-, hentries⟩ := List.append_inj (List.append_cancel_left h) (by simp)
  have hsorted := selfDelimiting_frontierEntry.flatMap_injective
    (fun e => List.append_ne_nil_of_left_ne_nil (putBytes_ne_nil _) _) hentries
  exact (List.perm_insertionSort frontierLe f).symm.trans
    (hsorted ▸ List.perm_insertionSort frontierLe f')

/-! ## Proposals, votes and certificates -/

/-- The exact preimage an epoch vote signs. -/
def epochVoteSigningMessage (authority : AuthorityId) (committeeId : CommitteeId) (epoch : U64)
    (nextCommitteeId : CommitteeId) (frontierDigest : Digest) : Bytes :=
  epochVoteSigningDomain ++ putStr authority ++ committeeId.toList ++ putLe 8 epoch ++
    nextCommitteeId.toList ++ frontierDigest.toList

theorem epochVoteSigningMessage_inj {a a' : AuthorityId} {c c' : CommitteeId} {e e' : U64}
    {n n' : CommitteeId} {d d' : Digest}
    (h : epochVoteSigningMessage a c e n d = epochVoteSigningMessage a' c' e' n' d') :
    a = a' ∧ c = c' ∧ e = e' ∧ n = n' ∧ d = d' := by
  simp only [epochVoteSigningMessage, List.append_assoc] at h
  obtain ⟨ha, h⟩ := selfDelimiting_putStr _ _ _ _ (List.append_cancel_left h)
  obtain ⟨hc, h⟩ := selfDelimiting_vector 32 _ _ _ _ h
  obtain ⟨he, h⟩ := selfDelimiting_putLe rfl _ _ _ _ h
  obtain ⟨hn, h⟩ := selfDelimiting_vector 32 _ _ _ _ h
  exact ⟨ha, hc, he, hn, (selfDelimiting_vector 32).injective h⟩

/-- Operator-proposed next committee. It is unsigned: all safety is in the votes. -/
structure EpochProposal where
  networkId : NetworkId
  policyId : PolicyId
  epoch : U64
  nextRoster : List (AuthorityId × VerifyingKey)
deriving DecidableEq

/-- One authority's signed assent to an epoch change. `committeeId` is the old committee. -/
structure EpochVote where
  authority : AuthorityId
  committeeId : CommitteeId
  epoch : U64
  nextCommitteeId : CommitteeId
  frontier : Frontier
  frontierDigest : Digest
  signature : Signature
deriving DecidableEq

/-- Why an epoch vote does not count. -/
inductive EpochVoteError where
  | badSignature
  | frontierMismatch
deriving DecidableEq

/-- Quorum evidence for an epoch change. -/
structure EpochCert where
  epoch : U64
  nextRoster : List (AuthorityId × VerifyingKey)
  frontier : Frontier
  votes : List EpochVote
deriving DecidableEq

/-- The bytes that an epoch vote's signature has to cover. -/
def EpochVote.message (v : EpochVote) : Bytes :=
  epochVoteSigningMessage v.authority v.committeeId v.epoch v.nextCommitteeId v.frontierDigest

def EpochCert.signers (cert : EpochCert) : List AuthorityId := cert.votes.map (·.authority)

variable [Crypto]

def frontierDigest (frontier : Frontier) : Digest := Crypto.sha256 (frontierPreimage frontier)

def EpochVote.sign (authority : AuthorityId) (committeeId : CommitteeId) (epoch : U64)
    (nextCommitteeId : CommitteeId) (frontier : Frontier) (signing : SigningKey) : EpochVote :=
  { authority
    committeeId
    epoch
    nextCommitteeId
    frontier
    frontierDigest := Transfer333.frontierDigest frontier
    signature := Crypto.sign signing
      (epochVoteSigningMessage authority committeeId epoch nextCommitteeId
        (Transfer333.frontierDigest frontier)) }

/-- The check is not strict here, unlike for votes on transfers. -/
def EpochVote.verifySignature (v : EpochVote) (key : VerifyingKey) : Except EpochVoteError Unit :=
  if Transfer333.frontierDigest v.frontier ≠ v.frontierDigest then .error .frontierMismatch
  else if Crypto.verify key v.message v.signature = false then .error .badSignature
  else .ok ()

theorem EpochVote.verifySignature_ok {v : EpochVote} {key : VerifyingKey}
    (h : v.verifySignature key = .ok ()) :
    v.frontierDigest = Transfer333.frontierDigest v.frontier ∧
      Crypto.verify key v.message v.signature = true := by
  unfold verifySignature at h
  split at h
  · cases h
  · next hdigest =>
    split at h
    · cases h
    · next hsig => exact ⟨(not_not.mp hdigest).symm, Bool.eq_true_of_not_eq_false hsig⟩

end P2P333.Transfer333
