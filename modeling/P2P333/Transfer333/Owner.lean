import P2P333.Transfer333.Basic

/-!
# Owner authentication

`333-transfer/src/owner.rs`: the network id, the registry of owner keys, the transfer policy and
the owner-signed order. An order is accepted only under the exact network and policy it was signed
for, between two registered accounts, with a signature by the registered key of the sender.
-/

namespace P2P333.Transfer333

open Std Lib

abbrev PolicyId := Digest

/-! ## Network ids -/

def maxNetworkIdBytes : Nat := 128
def maxAccountIdBytes : Nat := 256

/-- Why a string is no network id. -/
inductive NetworkIdError where
  | empty
  | tooLong (bytes max : Nat)
deriving DecidableEq

/-- A deployment domain: a non-empty string of at most 128 bytes. -/
structure NetworkId where
  value : Str
  nonempty : value.len ≠ 0
  bounded : value.len ≤ maxNetworkIdBytes
deriving DecidableEq

def NetworkId.new (value : Str) : Except NetworkIdError NetworkId :=
  if h : value.len = 0 then .error .empty
  else if h' : value.len > maxNetworkIdBytes then .error (.tooLong value.len maxNetworkIdBytes)
  else .ok ⟨value, h, Nat.not_lt.mp h'⟩

theorem NetworkId.value_injective : Function.Injective NetworkId.value := by
  intro n m h
  cases n
  cases m
  simpa using h

/-! ## Owner keys -/

/-- Why bindings are no registry. -/
inductive OwnerRegistryError where
  | empty
  | emptyAccount
  | accountTooLong (account : AccountId) (bytes max : Nat)
  | duplicateAccount (account : AccountId)
deriving DecidableEq

/-- The alias-to-key binding that the verifier owns. -/
structure OwnerRegistry where
  keys : OrdMap AccountId VerifyingKey
deriving DecidableEq

namespace OwnerRegistry

def newLoop : List (AccountId × VerifyingKey) → OrdMap AccountId VerifyingKey →
    Except OwnerRegistryError (OrdMap AccountId VerifyingKey)
  | [], keys => .ok keys
  | (account, key) :: bindings, keys =>
    if account.len = 0 then .error .emptyAccount
    else if account.len > maxAccountIdBytes then
      .error (.accountTooLong account account.len maxAccountIdBytes)
    else if keys.contains account then .error (.duplicateAccount account)
    else newLoop bindings (keys.insert account key)

def new (bindings : List (AccountId × VerifyingKey)) : Except OwnerRegistryError OwnerRegistry :=
  match newLoop bindings ∅ with
  | .error e => .error e
  | .ok keys => if keys.isEmpty then .error .empty else .ok ⟨keys⟩

def contains (r : OwnerRegistry) (account : AccountId) : Bool := r.keys.contains account

def keyOf (r : OwnerRegistry) (account : AccountId) : Option VerifyingKey := r.keys[account]?

end OwnerRegistry

/-! ## Signed bytes -/

def ownerIntentDomain : Bytes := tag "transfer333/owner-intent/v2\x00"
def policyIdDomain : Bytes := tag "transfer333/owner-policy-id/v1\x00"
def orderIdDomain : Bytes := tag "transfer333/order-id/v2\x00"

/-- The network and transfer bytes that every signature over a transfer covers. -/
def putNetworkTransferBody (networkId : NetworkId) (t : Transfer) (round : U64) : Bytes :=
  putStr networkId.value ++ putStr t.sender ++ putLe 8 t.fromSeq ++ putLe 8 round ++
    putStr t.recipient ++ putLe 16 t.amount

/-- The body determines the network, the transfer and the round, whatever follows it. -/
theorem putNetworkTransferBody_inj {n n' : NetworkId} {t t' : Transfer} {r r' : U64} {x y : Bytes}
    (h : putNetworkTransferBody n t r ++ x = putNetworkTransferBody n' t' r' ++ y) :
    n = n' ∧ t = t' ∧ r = r' ∧ x = y := by
  simp only [putNetworkTransferBody, List.append_assoc] at h
  obtain ⟨hn, h⟩ := selfDelimiting_putStr _ _ _ _ h
  obtain ⟨hsender, h⟩ := selfDelimiting_putStr _ _ _ _ h
  obtain ⟨hseq, h⟩ := selfDelimiting_putLe rfl _ _ _ _ h
  obtain ⟨hround, h⟩ := selfDelimiting_putLe rfl _ _ _ _ h
  obtain ⟨hrecipient, h⟩ := selfDelimiting_putStr _ _ _ _ h
  obtain ⟨hamount, hxy⟩ := selfDelimiting_putLe rfl _ _ _ _ h
  refine ⟨NetworkId.value_injective hn, ?_, hround, hxy⟩
  cases t
  cases t'
  simp only [Transfer.mk.injEq]
  exact ⟨hsender, hseq, hrecipient, hamount⟩

def ownerSigningMessage (policyId : PolicyId) (networkId : NetworkId) (t : Transfer)
    (round : U64) : Bytes :=
  ownerIntentDomain ++ policyId.toList ++ putNetworkTransferBody networkId t round

/-! ## Policies and orders -/

/-- The verification policy that authorities, collectors and ledgers share. -/
structure TransferPolicy where
  networkId : NetworkId
  owners : OwnerRegistry
deriving DecidableEq

/-- A transfer bound to a network and a policy, with the owner's proof. The round is part of the
order: the same transfer at another round is another order. -/
structure SignedTransfer where
  networkId : NetworkId
  policyId : PolicyId
  transfer : Transfer
  round : U64
  ownerSignature : Signature
deriving DecidableEq

/-- Why an order is not authorized by its sender. -/
inductive OwnerAuthError where
  | wrongNetwork (expected got : NetworkId)
  | wrongPolicy (expected got : PolicyId)
  | unknownSender (account : AccountId)
  | unknownRecipient (account : AccountId)
  | invalidOwnerSignature (account : AccountId)
deriving DecidableEq

variable [Crypto]

/-- Digest of the network and the sorted owner registry. -/
def TransferPolicy.id (p : TransferPolicy) : PolicyId :=
  Crypto.sha256 (policyIdDomain ++ putStr p.networkId.value ++
    p.owners.keys.toList.flatMap fun e => putStr e.1 ++ e.2.toList)

def TransferPolicy.validate (p : TransferPolicy) (order : SignedTransfer) :
    Except OwnerAuthError Unit :=
  if order.networkId ≠ p.networkId then .error (.wrongNetwork p.networkId order.networkId)
  else if order.policyId ≠ p.id then .error (.wrongPolicy p.id order.policyId)
  else match p.owners.keyOf order.transfer.sender with
    | none => .error (.unknownSender order.transfer.sender)
    | some ownerKey =>
      if p.owners.contains order.transfer.recipient = false then
        .error (.unknownRecipient order.transfer.recipient)
      else if Crypto.verifyStrict ownerKey
          (ownerSigningMessage order.policyId order.networkId order.transfer order.round)
          order.ownerSignature = false then
        .error (.invalidOwnerSignature order.transfer.sender)
      else .ok ()

namespace SignedTransfer

def signAtRound (p : TransferPolicy) (t : Transfer) (round : U64) (key : SigningKey) :
    SignedTransfer :=
  { networkId := p.networkId
    policyId := p.id
    transfer := t
    round
    ownerSignature := Crypto.sign key (ownerSigningMessage p.id p.networkId t round) }

/-- Identity of one exact signed order, owner signature included. -/
def orderId (o : SignedTransfer) : Digest :=
  Crypto.sha256 (orderIdDomain ++ o.policyId.toList ++
    putNetworkTransferBody o.networkId o.transfer o.round ++ o.ownerSignature.toList)

def verify (o : SignedTransfer) (p : TransferPolicy) : Except OwnerAuthError Unit := p.validate o

end SignedTransfer

end P2P333.Transfer333
