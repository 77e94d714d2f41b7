import P2P333.Lib.Codec

/-!
# Bytes as big-endian numbers

Byte strings of one length are ordered like the numbers that they stand for, an exclusive or of
bytes is one of numbers, and the zero bits in front are those that the number does not reach.
-/

namespace P2P333.Lib

open Std

theorem ofLeBytes_concat (bs : Bytes) (b : UInt8) :
    ofLeBytes (bs ++ [b]) = 256 ^ bs.length * b.toNat + ofLeBytes bs := by
  induction bs with
  | nil => simp [ofLeBytes]
  | cons c bs ih =>
    rw [List.cons_append, ofLeBytes, ofLeBytes, ih, List.length_cons, pow_succ]
    ring

theorem ofBeBytes_cons (b : UInt8) (bs : Bytes) :
    ofBeBytes (b :: bs) = 2 ^ (8 * bs.length) * b.toNat + ofBeBytes bs := by
  rw [ofBeBytes, List.reverse_cons, ofLeBytes_concat, List.length_reverse, pow_mul]
  rfl

theorem ofBeBytes_lt_two_pow (bs : Bytes) : ofBeBytes bs < 2 ^ (8 * bs.length) := by
  have h := ofBeBytes_lt bs
  rwa [pow_mul]

/-! ## Order -/

/-- The first byte that differs decides, and it is the highest. -/
theorem compare_ofBeBytes {bs cs : Bytes} (h : bs.length = cs.length) :
    compare bs cs = compare (ofBeBytes bs) (ofBeBytes cs) := by
  induction bs generalizing cs with
  | nil =>
    rw [List.length_nil, eq_comm, List.length_eq_zero_iff] at h
    rw [h]
    rfl
  | cons b bs ih =>
    cases cs with
    | nil => cases h
    | cons c cs =>
      rw [List.length_cons, List.length_cons, Nat.add_right_cancel_iff] at h
      rw [List.compare_cons_cons, ofBeBytes_cons, ofBeBytes_cons, h, ih h]
      have hb := ofBeBytes_lt_two_pow bs
      have hc := ofBeBytes_lt_two_pow cs
      rw [h] at hb
      rcases Nat.lt_trichotomy b.toNat c.toNat with hlt | heq | hgt
      · have hword : compare b c = .lt := Std.compare_eq_lt.mpr (UInt8.lt_iff_toNat_lt.mpr hlt)
        have hstep := Nat.mul_le_mul_left (2 ^ (8 * cs.length)) hlt
        rw [Nat.mul_succ] at hstep
        have hnumber : compare (2 ^ (8 * cs.length) * b.toNat + ofBeBytes bs)
            (2 ^ (8 * cs.length) * c.toNat + ofBeBytes cs) = .lt :=
          Nat.compare_eq_lt.mpr (by omega)
        rw [hword, hnumber]
        rfl
      · have hbc : b = c := UInt8.toNat_inj.mp heq
        rw [hbc, ReflOrd.compare_self, Nat.compare_eq_ite_lt, Nat.compare_eq_ite_lt]
        simp only [Nat.add_lt_add_iff_left]
        rfl
      · have hword : compare b c = .gt := Std.compare_eq_gt.mpr (UInt8.lt_iff_toNat_lt.mpr hgt)
        have hstep := Nat.mul_le_mul_left (2 ^ (8 * cs.length)) hgt
        rw [Nat.mul_succ] at hstep
        have hnumber : compare (2 ^ (8 * cs.length) * b.toNat + ofBeBytes bs)
            (2 ^ (8 * cs.length) * c.toNat + ofBeBytes cs) = .gt :=
          Nat.compare_eq_gt.mpr (by omega)
        rw [hword, hnumber]
        rfl

/-! ## Exclusive or -/

theorem ofBeBytes_xor {bs cs : Bytes} (h : bs.length = cs.length) :
    ofBeBytes (List.zipWith (· ^^^ ·) bs cs) = ofBeBytes bs ^^^ ofBeBytes cs := by
  induction bs generalizing cs with
  | nil =>
    rw [List.length_nil, eq_comm, List.length_eq_zero_iff] at h
    rw [h]
    rfl
  | cons b bs ih =>
    cases cs with
    | nil => cases h
    | cons c cs =>
      rw [List.length_cons, List.length_cons, Nat.add_right_cancel_iff] at h
      have hlength : (List.zipWith (· ^^^ ·) bs cs).length = cs.length := by
        rw [List.length_zipWith, h, Nat.min_self]
      have hbs := ofBeBytes_lt_two_pow bs
      have hcs := ofBeBytes_lt_two_pow cs
      rw [h] at hbs
      rw [List.zipWith_cons_cons, ofBeBytes_cons, ofBeBytes_cons, ofBeBytes_cons, hlength, ih h, h,
        UInt8.toNat_xor]
      refine Nat.eq_of_testBit_eq fun i => ?_
      simp only [Nat.testBit_two_pow_mul_add _ (Nat.xor_lt_two_pow hbs hcs), Nat.testBit_xor,
        Nat.testBit_two_pow_mul_add _ hbs, Nat.testBit_two_pow_mul_add _ hcs]
      split <;> rfl

/-! ## Zero bits in front -/

/-- `u8::leading_zeros`. -/
def leadingZerosU8 (b : UInt8) : Nat := if b = 0 then 8 else 7 - b.toNat.log2

/-- The bytes that are zero, and the bits in front of the first that is not. -/
def leadingZeros : Bytes → Nat
  | [] => 0
  | b :: bs => if b = 0 then 8 + leadingZeros bs else leadingZerosU8 b

/-- The number needs just the bits that are left. -/
theorem leadingZeros_spec (bs : Bytes) :
    ofBeBytes bs < 2 ^ (8 * bs.length - leadingZeros bs) ∧
      (leadingZeros bs < 8 * bs.length →
        2 ^ (8 * bs.length - leadingZeros bs - 1) ≤ ofBeBytes bs) := by
  induction bs with
  | nil => exact ⟨Nat.one_pos, fun h => absurd h (Nat.lt_irrefl 0)⟩
  | cons b bs ih =>
    rw [ofBeBytes_cons, leadingZeros, List.length_cons]
    have hbs := ofBeBytes_lt_two_pow bs
    split
    · next hb =>
      have hrest : 8 * (bs.length + 1) - (8 + leadingZeros bs) =
          8 * bs.length - leadingZeros bs := by omega
      rw [hb, UInt8.toNat_zero, Nat.mul_zero, Nat.zero_add, hrest]
      exact ⟨ih.1, fun h => ih.2 (by omega)⟩
    · next hb =>
      have hpos : b.toNat ≠ 0 := fun h => hb (UInt8.toNat_inj.mp h)
      have hlog : b.toNat.log2 < 8 := (Nat.log2_lt hpos).mpr b.toNat_lt
      rw [leadingZerosU8, if_neg hb]
      have htop : 8 * (bs.length + 1) - (7 - b.toNat.log2) =
          8 * bs.length + (b.toNat.log2 + 1) := by omega
      rw [htop, Nat.add_sub_assoc (Nat.le_add_left 1 _), Nat.add_sub_cancel, pow_add,
        pow_add 2 (8 * bs.length) b.toNat.log2]
      have hlow : 2 ^ b.toNat.log2 ≤ b.toNat := Nat.log2_self_le hpos
      have hhigh : b.toNat + 1 ≤ 2 ^ (b.toNat.log2 + 1) := Nat.lt_log2_self
      refine ⟨?_, fun _ => ?_⟩
      · calc 2 ^ (8 * bs.length) * b.toNat + ofBeBytes bs
            < 2 ^ (8 * bs.length) * b.toNat + 2 ^ (8 * bs.length) := by omega
          _ = 2 ^ (8 * bs.length) * (b.toNat + 1) := (Nat.mul_succ _ _).symm
          _ ≤ 2 ^ (8 * bs.length) * 2 ^ (b.toNat.log2 + 1) := Nat.mul_le_mul_left _ hhigh
      · exact (Nat.mul_le_mul_left _ hlow).trans (Nat.le_add_right _ _)

end P2P333.Lib
