import P2P333.Lib.BigEndian
import P2P333.Lib.OrdMap

/-!
# Distances

`333-kademlia/src/distance.rs`: the exclusive or of two ids as their distance, ordered by its bytes,
and the zero bits in front of it.

Results:
1. `compare_between`: distances are ordered like the numbers that they stand for.
2. `leadingZeros_eq_iff`: the zero bits in front are the bits that two ids share.
-/

namespace P2P333.Kademlia333

open Std Lib

abbrev NodeId := List.Vector UInt8 32

structure Distance where
  bytes : List.Vector UInt8 32
deriving DecidableEq

namespace Distance

def between (a b : NodeId) : Distance := ⟨a.zipWith (· ^^^ ·) b⟩

/-- All of the bits if the ids are the same. -/
def leadingZeros (d : Distance) : Nat := Lib.leadingZeros d.bytes.toList

instance : Ord Distance := ⟨fun d d' => compare d.bytes d'.bytes⟩

end Distance

/-! ## Ids as numbers -/

/-- The number that an id stands for, the first byte being the highest. -/
def number (n : NodeId) : Nat := ofBeBytes n.toList

/-- The XOR metric. -/
def xorDistance (a b : NodeId) : Nat := number a ^^^ number b

/-- A bit of an id, counted from the front. -/
def bit (n : NodeId) (i : Nat) : Bool := (number n).testBit (255 - i)

/-- The first `i` bits are the same, and the next one is not. -/
def SharesExactly (i : Nat) (a b : NodeId) : Prop :=
  (∀ j < i, bit a j = bit b j) ∧ bit a i ≠ bit b i

instance (i : Nat) (a b : NodeId) : Decidable (SharesExactly i a b) :=
  inferInstanceAs (Decidable ((∀ j < i, bit a j = bit b j) ∧ bit a i ≠ bit b i))

section Numbers

variable {a b : NodeId}

theorem number_inj (h : number a = number b) : a = b := by
  have hbytes (n : NodeId) : beBytes 32 (number n) = n.toList := by
    have h := beBytes_ofBeBytes n.toList
    rwa [List.Vector.toList_length] at h
  refine List.Vector.toList_injective ?_
  rw [← hbytes a, ← hbytes b, h]

theorem number_between (a b : NodeId) : ofBeBytes (Distance.between a b).bytes.toList =
    xorDistance a b := by
  have hlength : a.toList.length = b.toList.length := by
    rw [List.Vector.toList_length, List.Vector.toList_length]
  rw [xorDistance, number, number, ← ofBeBytes_xor hlength]
  rfl

theorem compare_between (a b c d : NodeId) :
    compare (Distance.between a b) (Distance.between c d) =
      compare (xorDistance a b) (xorDistance c d) := by
  rw [← number_between, ← number_between]
  refine compare_ofBeBytes ?_
  rw [List.Vector.toList_length, List.Vector.toList_length]

/-- From one place no two ids are equally far. -/
theorem xorDistance_inj {t : NodeId} (h : xorDistance a t = xorDistance b t) : a = b :=
  number_inj (Nat.xor_left_injective h)

theorem xorDistance_eq_zero : xorDistance a b = 0 ↔ a = b := by
  rw [xorDistance, Nat.xor_eq_zero_iff]
  exact ⟨number_inj, fun h => by rw [h]⟩

end Numbers

/-! ## Bits in front -/

section Bits

variable {a b : NodeId} {i j : Nat}

theorem not_sharesExactly_self (i : Nat) (a : NodeId) : ¬ SharesExactly i a a := fun h => h.2 rfl

theorem SharesExactly.unique (hi : SharesExactly i a b) (hj : SharesExactly j a b) : i = j := by
  rcases Nat.lt_trichotomy i j with hlt | heq | hgt
  · exact absurd (hj.1 i hlt) hi.2
  · exact heq
  · exact absurd (hi.1 j hgt) hj.2

theorem leadingZeros_spec (a b : NodeId) :
    xorDistance a b < 2 ^ (256 - (Distance.between a b).leadingZeros) ∧
      ((Distance.between a b).leadingZeros < 256 →
        2 ^ (255 - (Distance.between a b).leadingZeros) ≤ xorDistance a b) := by
  have h := Lib.leadingZeros_spec (Distance.between a b).bytes.toList
  rw [number_between, List.Vector.toList_length] at h
  have hsub : 255 - (Distance.between a b).leadingZeros =
      256 - (Distance.between a b).leadingZeros - 1 := by omega
  rw [hsub]
  exact h

theorem leadingZeros_lt_iff : (Distance.between a b).leadingZeros < 256 ↔ a ≠ b := by
  obtain ⟨hlt, hle⟩ := leadingZeros_spec a b
  rw [ne_eq, ← xorDistance_eq_zero]
  constructor
  · intro h hzero
    have hpos := (Nat.two_pow_pos _).trans_le (hle h)
    omega
  · intro h
    by_contra hall
    rw [Nat.sub_eq_zero_of_le (Nat.not_lt.mp hall)] at hlt
    omega

theorem sharesExactly_leadingZeros (h : a ≠ b) :
    SharesExactly (Distance.between a b).leadingZeros a b := by
  have hz := leadingZeros_lt_iff.mpr h
  obtain ⟨hlt, hle⟩ := leadingZeros_spec a b
  have hle := hle hz
  have hbits (j : Nat) : (bit a j ^^ bit b j) = (xorDistance a b).testBit (255 - j) :=
    (Nat.testBit_xor ..).symm
  constructor
  · intro j hj
    have hzero : (xorDistance a b).testBit (255 - j) = false := by
      refine Nat.testBit_lt_two_pow (hlt.trans_le (Nat.pow_le_pow_right Nat.two_pos ?_))
      omega
    rw [← hbits] at hzero
    exact bne_eq_false_iff_eq.mp hzero
  · have hone : (xorDistance a b).testBit (255 - (Distance.between a b).leadingZeros) = true := by
      have hdouble : 2 ^ (256 - (Distance.between a b).leadingZeros) =
          2 ^ (255 - (Distance.between a b).leadingZeros) * 2 := by
        rw [← pow_succ]
        congr 1
        omega
      rw [hdouble] at hlt
      have hquotient : xorDistance a b / 2 ^ (255 - (Distance.between a b).leadingZeros) = 1 :=
        Nat.div_eq_of_lt_le (by omega) (by omega)
      rw [Nat.testBit_eq_decide_div_mod_eq, hquotient]
      rfl
    rw [← hbits] at hone
    intro heq
    rw [heq, Bool.xor_self] at hone
    cases hone

/-- The zero bits in front of a distance are those that the ids share. -/
theorem leadingZeros_eq_iff (hi : i < 256) :
    (Distance.between a b).leadingZeros = i ↔ SharesExactly i a b := by
  constructor
  · rintro rfl
    exact sharesExactly_leadingZeros (leadingZeros_lt_iff.mp hi)
  · intro h
    have hne : a ≠ b := fun heq => not_sharesExactly_self i a (heq ▸ h)
    exact (sharesExactly_leadingZeros hne).unique h

end Bits

end P2P333.Kademlia333
