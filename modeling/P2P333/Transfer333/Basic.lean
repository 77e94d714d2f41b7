import P2P333.Lib.Bytes
import P2P333.Lib.OrdMap

/-!
# Strings, numbers and cryptography of the transfer crate

The data types shared by every module of `333-transfer`: Rust strings, the fixed-width integers
`u64` and `u128`, and the two external primitives, SHA-256 and Ed25519.

Strings carry the bound that Rust puts on them, so every length fits its eight-byte prefix.
SHA-256 and Ed25519 are parameters (`Crypto`). What the proofs rely on (no collision among the
strings that were hashed, no forged signature under an honest key) is a hypothesis of the theorems
that need it.
-/

namespace P2P333.Transfer333

open Std Lib

/-! ## Integers -/

abbrev U64 := BitVec 64
abbrev U128 := BitVec 128

/-- `checked_add`: `none` when the sum does not fit. -/
def checkedAdd {w : Nat} (x y : BitVec w) : Option (BitVec w) :=
  if x.toNat + y.toNat < 2 ^ w then some (x + y) else none

theorem checkedAdd_of_lt {w : Nat} {x y : BitVec w} (h : x.toNat + y.toNat < 2 ^ w) :
    checkedAdd x y = some (x + y) := if_pos h

theorem checkedAdd_eq_some {w : Nat} {x y z : BitVec w} :
    checkedAdd x y = some z ↔ z.toNat = x.toNat + y.toNat := by
  unfold checkedAdd
  split
  · next h =>
    rw [Option.some.injEq, ← BitVec.toNat_inj, BitVec.toNat_add, Nat.mod_eq_of_lt h, eq_comm]
  · next h =>
    have := z.isLt
    constructor
    · intro h'; cases h'
    · intro h'; omega

theorem checkedAdd_eq_none {w : Nat} {x y : BitVec w} :
    checkedAdd x y = none ↔ 2 ^ w ≤ x.toNat + y.toNat := by
  unfold checkedAdd
  split
  · next h => exact ⟨fun h' => (by cases h'), fun h' => absurd h (Nat.not_lt.mpr h')⟩
  · next h => exact ⟨fun _ => Nat.not_lt.mp h, fun _ => rfl⟩

/-! ## Strings -/

/-- A Rust `String`: text of at most `isize::MAX` bytes. -/
structure Str where
  text : String
  fits : text.utf8ByteSize < 2 ^ 63
deriving DecidableEq

namespace Str

/-! The names in examples of several modules. -/

theorem fits_A : "A".utf8ByteSize < 2 ^ 63 := by decide

theorem fits_B : "B".utf8ByteSize < 2 ^ 63 := by decide

theorem fits_a0 : "a0".utf8ByteSize < 2 ^ 63 := by decide

theorem fits_a1 : "a1".utf8ByteSize < 2 ^ 63 := by decide

theorem fits_alice : "alice".utf8ByteSize < 2 ^ 63 := by decide

theorem fits_bob : "bob".utf8ByteSize < 2 ^ 63 := by decide

/-- `as_bytes`. -/
def bytes (s : Str) : Bytes := s.text.toByteArray.data.toList

/-- `len`, in bytes. -/
def len (s : Str) : Nat := s.text.utf8ByteSize

/-- Rust compares strings byte by byte, which for UTF-8 is the order of the code points. -/
instance : Ord Str := ⟨fun s t => compare s.text t.text⟩

theorem compare_eq (s t : Str) : compare s t = compare s.text t.text := rfl

instance : TransOrd Str where
  eq_swap {s t} := by rw [compare_eq, compare_eq, OrientedOrd.eq_swap]
  isLE_trans {s t u} hst htu := by
    rw [compare_eq] at hst htu ⊢
    exact TransCmp.isLE_trans hst htu

instance : LawfulEqOrd Str where
  compare_self {s} := by rw [compare_eq, ReflOrd.compare_self]
  eq_of_compare {s t} h := by
    rw [compare_eq] at h
    cases s
    cases t
    simpa using LawfulEqOrd.eq_of_compare h

theorem bytes_injective : Function.Injective bytes := by
  intro s t h
  cases s
  cases t
  simp only [bytes, Array.toList_inj] at h
  simp only [mk.injEq]
  exact String.toByteArray_inj.mp (ByteArray.ext h)

theorem length_bytes (s : Str) : s.bytes.length = s.len := rfl

theorem length_bytes_lt (s : Str) : s.bytes.length < 2 ^ 64 := by
  rw [length_bytes]
  have := s.fits
  unfold len
  omega

end Str

/-- `put_bytes` of a string: its bytes behind their length. -/
def putStr (s : Str) : Bytes := putBytes s.bytes

theorem selfDelimiting_putStr : SelfDelimiting putStr :=
  selfDelimiting_putBytes Str.length_bytes_lt Str.bytes_injective

/-- The bytes of a domain tag. -/
def tag (s : String) : Bytes := s.toByteArray.data.toList

/-! ## Cryptography -/

abbrev Digest := List.Vector UInt8 32
abbrev VerifyingKey := List.Vector UInt8 32
abbrev SigningKey := List.Vector UInt8 32
abbrev Signature := List.Vector UInt8 64

/-- SHA-256 and Ed25519, as the crates `sha2` and `ed25519_dalek` provide them. -/
class Crypto where
  sha256 : Bytes → Digest
  verifyingKey : SigningKey → VerifyingKey
  sign : SigningKey → Bytes → Signature
  verifyStrict : VerifyingKey → Bytes → Signature → Bool
  verify : VerifyingKey → Bytes → Signature → Bool

/-- No two of the listed strings collide under SHA-256. -/
def CollisionFree [Crypto] (hashed : List Bytes) : Prop :=
  ∀ x ∈ hashed, ∀ y ∈ hashed, Crypto.sha256 x = Crypto.sha256 y → x = y

instance [Crypto] (hashed : List Bytes) : Decidable (CollisionFree hashed) :=
  inferInstanceAs (Decidable (∀ x ∈ hashed, ∀ y ∈ hashed, _ → _))

/-! ## Identifiers -/

/-- An account is named by its owning replica. -/
abbrev AccountId := Str

/-- An account and a sequence number, and the round that the locks add. -/
instance instTransOrdAccountSeq : TransOrd (AccountId × U64) := inferInstance

instance instLawfulEqOrdAccountSeq : LawfulEqOrd (AccountId × U64) := inferInstance

instance instTransOrdSlot : TransOrd (AccountId × U64 × U64) := inferInstance

instance instLawfulEqOrdSlot : LawfulEqOrd (AccountId × U64 × U64) := inferInstance
abbrev AuthorityId := Str
abbrev Amount := U128

/-- An unsigned payload, `from` to `to`. `fromSeq` is the owner's own counter for the account. -/
structure Transfer where
  sender : AccountId
  fromSeq : U64
  recipient : AccountId
  amount : Amount
deriving DecidableEq

end P2P333.Transfer333
