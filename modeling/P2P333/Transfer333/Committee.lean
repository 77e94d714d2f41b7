import P2P333.Lib.Quorum
import P2P333.Transfer333.Owner

/-!
# Committees, votes and certificates

The value types of `333-transfer/src/authority.rs`: the committee roster and its digest, the vote
of one authority, and the quorum certificate over the votes.

Results:
1. `quorum_overlap`: two quorums of `n` overlap in more than `(n - 1) / 3` members, for every `n`.
2. `committeeIdPreimage_inj`: the bytes behind a committee id determine policy and roster.
3. `authoritySigningMessage_inj`: the bytes of a vote determine everything the vote says.
4. `Certificate.validate_ok`: an accepted certificate has a quorum of valid votes by distinct
   members.
-/

namespace P2P333.Transfer333

open Std Lib

/-! ## Quorums -/

/-- Byzantine quorum size for `n` authorities. -/
def quorum (n : Nat) : Nat := if n = 0 then 1 else n - (n - 1) / 3

theorem quorum_overlap (n : Nat) : n + (n - 1) / 3 < quorum n + quorum n := by
  unfold quorum
  split <;> omega

/-! ## Committees -/

abbrev CommitteeId := Digest
abbrev Members := OrdMap AuthorityId VerifyingKey

def maxCommitteeMembers : Nat := 1024
def maxAuthorityIdBytes : Nat := 256

def committeeIdDomain : Bytes := tag "transfer333/committee-id/v1\x00"

/-- The bytes that a committee id digests. -/
def committeeIdPreimage (policyId : PolicyId) (members : Members) : Bytes :=
  committeeIdDomain ++ policyId.toList ++ leBytes 8 members.size ++
    members.toList.flatMap fun e => putStr e.1 ++ e.2.toList

def committeeId [Crypto] (policyId : PolicyId) (members : Members) : CommitteeId :=
  Crypto.sha256 (committeeIdPreimage policyId members)

/-- What the constructor checks about a roster: some member, not too many, no malformed alias and
no key under two aliases. -/
structure RosterOk (members : Members) : Prop where
  nonempty : members.isEmpty = false
  bounded : members.size ≤ maxCommitteeMembers
  aliases : ∀ a : AuthorityId, a ∈ members → a.len ≠ 0 ∧ a.len ≤ maxAuthorityIdBytes
  keys : ∀ (a b : AuthorityId) (k : VerifyingKey),
    members[a]? = some k → members[b]? = some k → a = b

/-- The roster a verifier owns, under the owner policy of the network. `epoch` is a generation
marker and not part of the digest: the same roster has the same id at any epoch. -/
structure Committee where
  members : Members
  policy : TransferPolicy
  epoch : U64
  roster : RosterOk members
deriving DecidableEq

/-- The loop of `with_epoch`: the roster and the public keys so far. -/
def rosterLoop : List (AuthorityId × VerifyingKey) → Members → List VerifyingKey → Option Members
  | [], roster, _ => some roster
  | (authority, key) :: members, roster, publicKeys =>
    if authority.len = 0 ∨ authority.len > maxAuthorityIdBytes then none
    else if roster.size = maxCommitteeMembers then none
    else if key ∈ publicKeys then none
    else if roster.contains authority then none
    else rosterLoop members (roster.insert authority key) (key :: publicKeys)

/-- The checks of the loop, as an invariant of its two accumulators. -/
structure RosterInv (roster : Members) (publicKeys : List VerifyingKey) : Prop where
  bounded : roster.size ≤ maxCommitteeMembers
  aliases : ∀ a : AuthorityId, a ∈ roster → a.len ≠ 0 ∧ a.len ≤ maxAuthorityIdBytes
  seen : ∀ (a : AuthorityId) (k : VerifyingKey), roster[a]? = some k → k ∈ publicKeys
  keys : ∀ (a b : AuthorityId) (k : VerifyingKey),
    roster[a]? = some k → roster[b]? = some k → a = b

theorem RosterInv.insert {roster : Members} {publicKeys : List VerifyingKey}
    (h : RosterInv roster publicKeys) {a : AuthorityId} {k : VerifyingKey}
    (halias : ¬ (a.len = 0 ∨ a.len > maxAuthorityIdBytes))
    (hsize : roster.size ≠ maxCommitteeMembers) (hkey : k ∉ publicKeys) :
    RosterInv (roster.insert a k) (k :: publicKeys) where
  bounded := by
    have hle := h.bounded
    rw [ExtTreeMap.size_insert]
    split <;> omega
  aliases b hb := by
    rw [ExtTreeMap.mem_insert] at hb
    rcases hb with hb | hb
    · rw [← LawfulEqCmp.eq_of_compare hb]
      omega
    · exact h.aliases b hb
  seen b k' hb := by
    by_cases hab : a = b
    · subst hab
      rw [ExtTreeMap.getElem?_insert_self, Option.some.injEq] at hb
      exact hb ▸ List.mem_cons_self
    · rw [OrdMap.getElem?_insert_of_ne _ hab] at hb
      exact List.mem_cons_of_mem _ (h.seen b k' hb)
  keys b c k' hb hc := by
    -- the new key was not among the old ones, so it sits under the new alias only
    by_cases hab : a = b <;> by_cases hac : a = c
    · exact hab.symm.trans hac
    · subst hab
      rw [ExtTreeMap.getElem?_insert_self, Option.some.injEq] at hb
      rw [OrdMap.getElem?_insert_of_ne _ hac] at hc
      exact absurd (hb ▸ h.seen c k' hc) hkey
    · subst hac
      rw [ExtTreeMap.getElem?_insert_self, Option.some.injEq] at hc
      rw [OrdMap.getElem?_insert_of_ne _ hab] at hb
      exact absurd (hc ▸ h.seen b k' hb) hkey
    · rw [OrdMap.getElem?_insert_of_ne _ hab] at hb
      rw [OrdMap.getElem?_insert_of_ne _ hac] at hc
      exact h.keys b c k' hb hc

theorem rosterLoop_inv {members : List (AuthorityId × VerifyingKey)} {roster : Members}
    {publicKeys : List VerifyingKey} {result : Members} (hinv : RosterInv roster publicKeys)
    (h : rosterLoop members roster publicKeys = some result) :
    ∃ publicKeys', RosterInv result publicKeys' := by
  induction members generalizing roster publicKeys with
  | nil =>
    cases h
    exact ⟨publicKeys, hinv⟩
  | cons e members ih =>
    simp only [rosterLoop] at h
    split at h
    · cases h
    · next halias =>
      split at h
      · cases h
      · next hsize =>
        split at h
        · cases h
        · next hkey =>
          split at h
          · cases h
          · exact ih (hinv.insert halias hsize hkey) h

theorem rosterInv_empty : RosterInv ∅ [] where
  bounded := Nat.zero_le _
  aliases a ha := absurd ha ExtTreeMap.not_mem_empty
  seen a k ha := by cases ha
  keys a b k ha := by cases ha

theorem rosterLoop_ok {members : List (AuthorityId × VerifyingKey)} {result : Members}
    (h : rosterLoop members ∅ [] = some result) (hne : ¬ result.isEmpty = true) :
    RosterOk result := by
  obtain ⟨_, hinv⟩ := rosterLoop_inv rosterInv_empty h
  exact ⟨Bool.eq_false_iff.mpr hne, hinv.bounded, hinv.aliases, hinv.keys⟩

namespace Committee

/-- Committee at an explicit generation; `none` for an empty, oversized or malformed roster. -/
def withEpoch (members : List (AuthorityId × VerifyingKey)) (policy : TransferPolicy)
    (epoch : U64) : Option Committee :=
  match h : rosterLoop members ∅ [] with
  | none => none
  | some roster =>
    if hne : roster.isEmpty = true then none else some ⟨roster, policy, epoch, rosterLoop_ok h hne⟩

/-- Epoch-0 committee: the static deployment roster. -/
def new (members : List (AuthorityId × VerifyingKey)) (policy : TransferPolicy) :
    Option Committee := withEpoch members policy 0

def id [Crypto] (c : Committee) : CommitteeId := committeeId c.policy.id c.members

def size (c : Committee) : Nat := c.members.size

def quorum (c : Committee) : Nat := Transfer333.quorum c.size

def keyOf (c : Committee) (authority : AuthorityId) : Option VerifyingKey := c.members[authority]?

section WithEpoch

variable {members : List (AuthorityId × VerifyingKey)} {policy policy' : TransferPolicy}
  {epoch : U64} {c : Committee}

theorem withEpoch_eq_some : withEpoch members policy epoch = some c ↔
    rosterLoop members ∅ [] = some c.members ∧ c.policy = policy ∧ c.epoch = epoch := by
  unfold withEpoch
  constructor
  · intro h
    split at h
    · cases h
    · next roster hloop =>
      split at h
      · cases h
      · cases h
        exact ⟨hloop, rfl, rfl⟩
  · rintro ⟨hloop, rfl, rfl⟩
    split
    · next hnone =>
      rw [hloop] at hnone
      cases hnone
    · next roster hloop' =>
      obtain rfl : c.members = roster := Option.some.inj (hloop.symm.trans hloop')
      exact dif_neg (Bool.eq_false_iff.mp c.roster.nonempty)

theorem withEpoch_policy (h : withEpoch members policy epoch = some c) : c.policy = policy :=
  (withEpoch_eq_some.mp h).2.1

/-- A roster that forms a committee under one policy forms it under every policy. -/
theorem withEpoch_members (h : withEpoch members policy epoch = some c) :
    ∃ c', withEpoch members policy' epoch = some c' ∧ c'.members = c.members := by
  obtain ⟨hloop, -, -⟩ := withEpoch_eq_some.mp h
  exact ⟨⟨c.members, policy', epoch, c.roster⟩, withEpoch_eq_some.mpr ⟨hloop, rfl, rfl⟩, rfl⟩

end WithEpoch

/-- The members as a finite set. -/
def seats (c : Committee) : Finset AuthorityId := c.members.keys.toFinset

theorem mem_seats {c : Committee} {a : AuthorityId} {k : VerifyingKey} (h : c.keyOf a = some k) :
    a ∈ c.seats := by
  rw [seats, List.mem_toFinset, ExtTreeMap.mem_keys]
  exact (ExtTreeMap.isSome_getElem?_iff_mem ..).mp (Option.isSome_of_eq_some h)

theorem card_seats_le (c : Committee) : c.seats.card ≤ c.size :=
  (List.toFinset_card_le _).trans ExtTreeMap.length_keys.le

/-- Two quorums of distinct members share a member outside any set within the fault budget. -/
theorem exists_common_seat {c : Committee} {S S' : List AuthorityId}
    {byzantine : Finset AuthorityId}
    (hS : S.Nodup) (hS' : S'.Nodup) (hmem : ∀ a ∈ S, a ∈ c.seats) (hmem' : ∀ a ∈ S', a ∈ c.seats)
    (hq : c.quorum ≤ S.length) (hq' : c.quorum ≤ S'.length)
    (hf : byzantine.card ≤ (c.size - 1) / 3) : ∃ a, a ∈ S ∧ a ∈ S' ∧ a ∉ byzantine := by
  have hsub : S.toFinset ⊆ c.seats := fun a ha => hmem a (List.mem_toFinset.mp ha)
  have hsub' : S'.toFinset ⊆ c.seats := fun a ha => hmem' a (List.mem_toFinset.mp ha)
  have hoverlap := quorum_overlap c.size
  have hcard := c.card_seats_le
  unfold quorum at hq hq'
  obtain ⟨a, ha, ha', hb⟩ := exists_mem_inter_notMem (B := byzantine) hsub hsub' (by
    rw [List.toFinset_card_of_nodup hS, List.toFinset_card_of_nodup hS']
    omega)
  exact ⟨a, List.mem_toFinset.mp ha, List.mem_toFinset.mp ha', hb⟩

theorem size_ne_zero (c : Committee) : c.size ≠ 0 := by
  intro hzero
  have hnonempty := c.roster.nonempty
  rw [ExtTreeMap.isEmpty_eq_size_beq_zero, show c.members.size = 0 from hzero] at hnonempty
  cases hnonempty

theorem quorum_pos (c : Committee) : 0 < c.quorum := by
  unfold quorum Transfer333.quorum
  split_ifs
  · exact Nat.one_pos
  · omega

end Committee

/-! ## The digest determines the roster -/

theorem selfDelimiting_member :
    SelfDelimiting fun e : AuthorityId × VerifyingKey => putStr e.1 ++ e.2.toList :=
  selfDelimiting_putStr.append (selfDelimiting_vector 32)

theorem committeeIdPreimage_inj {p p' : PolicyId} {m m' : Members}
    (h : committeeIdPreimage p m = committeeIdPreimage p' m') : p = p' ∧ m = m' := by
  simp only [committeeIdPreimage, List.append_assoc] at h
  obtain ⟨hp, h⟩ := selfDelimiting_vector 32 _ _ _ _ (List.append_cancel_left h)
  obtain ⟨-, hmembers⟩ := List.append_inj h (by simp)
  have hlist : m.toList = m'.toList := selfDelimiting_member.flatMap_injective
    (fun e => List.append_ne_nil_of_left_ne_nil (putBytes_ne_nil _) _) hmembers
  refine ⟨hp, ?_⟩
  rw [← OrdMap.ofEntries_of_perm (List.Perm.of_eq hlist), OrdMap.ofEntries_of_perm (.refl _)]

/-! ## Votes -/

def authorityVoteDomain : Bytes := tag "transfer333/authority-vote/v5\x00"

/-- The bytes one authority vote signs. -/
def authoritySigningMessage (authority : AuthorityId) (committeeId : CommitteeId)
    (policyId : PolicyId) (networkId : NetworkId) (t : Transfer) (round : U64) : Bytes :=
  authorityVoteDomain ++ committeeId.toList ++ putStr authority ++ policyId.toList ++
    putNetworkTransferBody networkId t round

theorem authoritySigningMessage_inj {a a' : AuthorityId} {c c' : CommitteeId} {p p' : PolicyId}
    {n n' : NetworkId} {t t' : Transfer} {r r' : U64}
    (h : authoritySigningMessage a c p n t r = authoritySigningMessage a' c' p' n' t' r') :
    a = a' ∧ c = c' ∧ p = p' ∧ n = n' ∧ t = t' ∧ r = r' := by
  simp only [authoritySigningMessage, List.append_assoc] at h
  obtain ⟨hc, h⟩ := selfDelimiting_vector 32 _ _ _ _ (List.append_cancel_left h)
  obtain ⟨ha, h⟩ := selfDelimiting_putStr _ _ _ _ h
  obtain ⟨hp, h⟩ := selfDelimiting_vector 32 _ _ _ _ h
  obtain ⟨hn, ht, hr, -⟩ := putNetworkTransferBody_inj (x := []) (y := []) (by simpa using h)
  exact ⟨ha, hc, hp, hn, ht, hr⟩

/-- One authority's vote for one exact order in one exact trust domain. -/
structure Vote where
  authority : AuthorityId
  committeeId : CommitteeId
  policyId : PolicyId
  networkId : NetworkId
  transfer : Transfer
  round : U64
  signature : Signature
deriving DecidableEq

/-- Why a vote does not count. -/
inductive VoteError where
  | wrongCommittee (expected got : CommitteeId)
  | wrongPolicy (expected got : PolicyId)
  | wrongNetwork (expected got : NetworkId)
  | wrongTransfer
  | wrongRound (expected got : U64)
  | unknownAuthority (authority : AuthorityId)
  | invalidAuthoritySignature (authority : AuthorityId)
deriving DecidableEq

/-- The bytes that a vote's signature has to cover. -/
def Vote.message (v : Vote) : Bytes :=
  authoritySigningMessage v.authority v.committeeId v.policyId v.networkId v.transfer v.round

variable [Crypto]

def Vote.validateFor (v : Vote) (order : SignedTransfer) (c : Committee) : Except VoteError Unit :=
  if v.committeeId ≠ c.id then .error (.wrongCommittee c.id v.committeeId)
  else if order.policyId ≠ c.policy.id then .error (.wrongPolicy c.policy.id order.policyId)
  else if v.policyId ≠ order.policyId then .error (.wrongPolicy order.policyId v.policyId)
  else if v.networkId ≠ order.networkId then .error (.wrongNetwork order.networkId v.networkId)
  else if v.transfer ≠ order.transfer then .error .wrongTransfer
  else if v.round ≠ order.round then .error (.wrongRound order.round v.round)
  else match c.keyOf v.authority with
    | none => .error (.unknownAuthority v.authority)
    | some key =>
      if Crypto.verifyStrict key v.message v.signature = false then
        .error (.invalidAuthoritySignature v.authority)
      else .ok ()

/-- The facts behind an accepted vote. -/
structure Vote.ValidFor (v : Vote) (order : SignedTransfer) (c : Committee) : Prop where
  committee : v.committeeId = c.id
  transfer : v.transfer = order.transfer
  round : v.round = order.round
  signed : ∃ key, c.keyOf v.authority = some key ∧
    Crypto.verifyStrict key v.message v.signature = true

theorem Vote.validateFor_ok {v : Vote} {order : SignedTransfer} {c : Committee}
    (h : v.validateFor order c = .ok ()) : v.ValidFor order c := by
  unfold validateFor at h
  split at h
  · cases h
  · next hcommittee =>
    split at h
    · cases h
    · split at h
      · cases h
      · split at h
        · cases h
        · split at h
          · cases h
          · next htransfer =>
            split at h
            · cases h
            · next hround =>
              split at h
              · cases h
              · next key hkey =>
                split at h
                · cases h
                · next hsig =>
                  exact ⟨not_not.mp hcommittee, not_not.mp htransfer, not_not.mp hround,
                    key, hkey, Bool.eq_true_of_not_eq_false hsig⟩

/-! ## Certificates -/

/-- Quorum certificate for one owner-signed order. -/
structure Certificate where
  order : SignedTransfer
  votes : List Vote
deriving DecidableEq

/-- Why a certificate does not verify. -/
inductive CertificateError where
  | ownerAuth (e : OwnerAuthError)
  | emptyVotes
  | invalidVote (authority : AuthorityId) (source : VoteError)
  | duplicateAuthority (authority : AuthorityId)
  | insufficientQuorum (have_ need : Nat)
deriving DecidableEq

namespace Certificate

/-- The loop of `validate`: the distinct authorities so far. -/
def validateLoop (order : SignedTransfer) (c : Committee) :
    List Vote → List AuthorityId → Except CertificateError (List AuthorityId)
  | [], distinct => .ok distinct
  | v :: votes, distinct =>
    match v.validateFor order c with
    | .error source => .error (.invalidVote v.authority source)
    | .ok () =>
      if v.authority ∈ distinct then .error (.duplicateAuthority v.authority)
      else validateLoop order c votes (v.authority :: distinct)

def validate (cert : Certificate) (c : Committee) : Except CertificateError Unit :=
  match cert.order.verify c.policy with
  | .error e => .error (.ownerAuth e)
  | .ok () =>
    if cert.votes.isEmpty then .error .emptyVotes
    else match validateLoop cert.order c cert.votes [] with
      | .error e => .error e
      | .ok distinct =>
        if distinct.length < c.quorum then .error (.insufficientQuorum distinct.length c.quorum)
        else .ok ()

def isValid (cert : Certificate) (c : Committee) : Bool := cert.validate c matches .ok ()

def assemble (order : SignedTransfer) (votes : List Vote) (c : Committee) : Option Certificate :=
  if isValid ⟨order, votes⟩ c then some ⟨order, votes⟩ else none

def signers (cert : Certificate) : List AuthorityId := cert.votes.map (·.authority)

variable {c : Committee}

theorem validateLoop_ok {order : SignedTransfer} {votes : List Vote}
    {distinct result : List AuthorityId} (hnodup : distinct.Nodup)
    (h : validateLoop order c votes distinct = .ok result) :
    (∀ v ∈ votes, v.ValidFor order c) ∧ result.Nodup ∧
      result = (votes.map (·.authority)).reverse ++ distinct := by
  induction votes generalizing distinct with
  | nil =>
    cases h
    exact ⟨fun v hv => (by cases hv), hnodup, rfl⟩
  | cons v votes ih =>
    simp only [validateLoop] at h
    split at h
    · cases h
    · next hv =>
      split at h
      · cases h
      · next hfresh =>
        obtain ⟨hvalid, hresult, heq⟩ := ih (List.nodup_cons.mpr ⟨hfresh, hnodup⟩) h
        refine ⟨?_, hresult, by simp [heq]⟩
        intro w hw
        rcases List.mem_cons.mp hw with rfl | hw
        · exact Vote.validateFor_ok hv
        · exact hvalid w hw

/-- What an accepted certificate carries. -/
structure Valid (cert : Certificate) (c : Committee) : Prop where
  owner : cert.order.verify c.policy = .ok ()
  votes : ∀ v ∈ cert.votes, v.ValidFor cert.order c
  distinct : cert.signers.Nodup
  quorate : c.quorum ≤ cert.signers.length

variable {cert : Certificate}

theorem validate_ok (h : cert.validate c = .ok ()) : cert.Valid c := by
  unfold validate at h
  split at h
  · cases h
  · next howner =>
    split at h
    · cases h
    · split at h
      · cases h
      · next distinct hloop =>
        split at h
        · cases h
        · next hq =>
          obtain ⟨hvotes, hnodup, heq⟩ := validateLoop_ok List.nodup_nil hloop
          rw [List.append_nil] at heq
          refine ⟨howner, hvotes, ?_, ?_⟩
          · rw [heq] at hnodup
            exact List.nodup_reverse.mp hnodup
          · rw [heq, List.length_reverse] at hq
            exact Nat.not_lt.mp hq

theorem isValid_iff : cert.isValid c = true ↔ cert.validate c = .ok () := by
  unfold isValid
  cases cert.validate c with
  | error e => exact ⟨fun h => (by cases h), fun h => (by cases h)⟩
  | ok _ => exact ⟨fun _ => rfl, fun _ => rfl⟩

theorem Valid.signers_subset (h : cert.Valid c) : ∀ a ∈ cert.signers, a ∈ c.seats := by
  intro a ha
  obtain ⟨v, hv, rfl⟩ := List.mem_map.mp ha
  obtain ⟨key, hkey, -⟩ := (h.votes v hv).signed
  exact Committee.mem_seats hkey

end Certificate

/-- The proof that a certificate was verified, and under which committee. Only
`Certificate.verify` makes one. -/
structure Verified where
  order : SignedTransfer
  committeeId : CommitteeId
  minted : ∃ (cert : Certificate) (c : Committee),
    cert.validate c = .ok () ∧ cert.order = order ∧ c.id = committeeId

def Certificate.verify (cert : Certificate) (c : Committee) : Option Verified :=
  if h : cert.isValid c = true then
    some ⟨cert.order, c.id, cert, c, Certificate.isValid_iff.mp h, rfl, rfl⟩
  else none

theorem Certificate.verify_eq_some {cert : Certificate} {c : Committee} {v : Verified}
    (h : cert.verify c = some v) :
    cert.validate c = .ok () ∧ v.order = cert.order ∧ v.committeeId = c.id := by
  unfold verify at h
  split at h
  · next hv =>
    cases h
    exact ⟨isValid_iff.mp hv, rfl, rfl⟩
  · cases h

end P2P333.Transfer333
