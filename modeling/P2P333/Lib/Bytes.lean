import Mathlib

/-!
# Byte encodings

Little- and big-endian fixed-width numbers, length-prefixed byte strings, and self-delimiting
encoders. An encoder is self-delimiting when an encoding followed by anything determines the value
and the rest. Self-delimiting encoders compose by concatenation, and so do their injectivity
proofs.
-/

namespace P2P333.Lib

open Function

abbrev Bytes := List UInt8

/-- The arrays that are names and digests. -/
instance instLawfulBEqBytes32 : LawfulBEq (List.Vector UInt8 32) := inferInstance

/-! ## Fixed-width numbers -/

/-- The `k` low bytes of `n`, least significant first. -/
def leBytes : Nat → Nat → Bytes
  | 0, _ => []
  | k + 1, n => UInt8.ofNat n :: leBytes k (n / 256)

/-- The `k` low bytes of `n`, most significant first. -/
def beBytes (k n : Nat) : Bytes := (leBytes k n).reverse

@[simp] theorem length_leBytes (k n : Nat) : (leBytes k n).length = k := by
  induction k generalizing n with
  | zero => rfl
  | succ k ih => simp [leBytes, ih]

/-- Numbers below `256 ^ k` are determined by their `k` bytes. -/
theorem leBytes_inj {k n m : Nat} (hn : n < 256 ^ k) (hm : m < 256 ^ k)
    (h : leBytes k n = leBytes k m) : n = m := by
  induction k generalizing n m with
  | zero => simp at hn hm; omega
  | succ k ih =>
    simp only [leBytes, List.cons.injEq] at h
    have hlow : n % 256 = m % 256 := by simpa using congrArg UInt8.toNat h.1
    have hhigh : n / 256 = m / 256 :=
      ih (by rw [pow_succ] at hn; omega) (by rw [pow_succ] at hm; omega) h.2
    omega

/-! ## Self-delimiting encoders -/

variable {α β : Type*}

/-- `enc a` followed by any bytes determines `a` and those bytes. -/
def SelfDelimiting (enc : α → Bytes) : Prop :=
  ∀ a b x y, enc a ++ x = enc b ++ y → a = b ∧ x = y

theorem SelfDelimiting.injective {enc : α → Bytes} (h : SelfDelimiting enc) :
    Injective enc := by
  intro a b hab
  exact (h a b [] [] (by rw [hab])).1

/-- An injective encoder of constant width is self-delimiting. -/
theorem SelfDelimiting.of_length {enc : α → Bytes} {k : Nat} (hk : ∀ a, (enc a).length = k)
    (hinj : Injective enc) : SelfDelimiting enc := by
  intro a b x y h
  obtain ⟨hab, hxy⟩ := List.append_inj h (by rw [hk, hk])
  exact ⟨hinj hab, hxy⟩

/-- Concatenation of two self-delimiting fields. -/
theorem SelfDelimiting.append {f : α → Bytes} {g : β → Bytes} (hf : SelfDelimiting f)
    (hg : SelfDelimiting g) : SelfDelimiting fun p : α × β => f p.1 ++ g p.2 := by
  rintro ⟨a, b⟩ ⟨a', b'⟩ x y h
  simp only [List.append_assoc] at h
  obtain ⟨rfl, h'⟩ := hf _ _ _ _ h
  obtain ⟨rfl, hxy⟩ := hg _ _ _ _ h'
  exact ⟨rfl, hxy⟩

/-- A list of self-delimiting, non-empty items is determined by its concatenation. -/
theorem SelfDelimiting.flatMap_injective {enc : α → Bytes} (h : SelfDelimiting enc)
    (hne : ∀ a, enc a ≠ []) : Injective fun l : List α => l.flatMap enc := by
  intro l
  induction l with
  | nil =>
    intro l' hl
    cases l' with
    | nil => rfl
    | cons b l' => simp [hne b] at hl
  | cons a l ih =>
    intro l' hl
    cases l' with
    | nil => simp [hne a] at hl
    | cons b l' =>
      simp only [List.flatMap_cons] at hl
      obtain ⟨rfl, hrest⟩ := h _ _ _ _ hl
      rw [ih hrest]

/-! ## Numbers, vectors and length-prefixed strings as fields -/

/-- A `w`-bit number as `k` little-endian bytes. -/
def putLe (k : Nat) {w : Nat} (x : BitVec w) : Bytes := leBytes k x.toNat

theorem selfDelimiting_putLe {k w : Nat} (hw : w = 8 * k) :
    SelfDelimiting (putLe k : BitVec w → Bytes) := by
  refine .of_length (k := k) (by simp [putLe]) ?_
  have hpow : 2 ^ w = 256 ^ k := by rw [hw, pow_mul]; norm_num
  intro x y h
  exact BitVec.eq_of_toNat_eq (leBytes_inj (hpow ▸ x.isLt) (hpow ▸ y.isLt) h)

theorem selfDelimiting_vector (n : Nat) :
    SelfDelimiting (List.Vector.toList : List.Vector UInt8 n → Bytes) :=
  .of_length (k := n) (fun v => v.toList_length) Subtype.val_injective

/-- A byte string behind its length as eight little-endian bytes. -/
def putBytes (bs : Bytes) : Bytes := leBytes 8 bs.length ++ bs

theorem putBytes_ne_nil (bs : Bytes) : putBytes bs ≠ [] := by
  intro h
  have := congrArg List.length h
  simp [putBytes] at this

/-- Length-prefixed strings are self-delimiting as long as the length fits its eight bytes. -/
theorem selfDelimiting_putBytes {enc : α → Bytes} (hlen : ∀ a, (enc a).length < 2 ^ 64)
    (hinj : Injective enc) : SelfDelimiting fun a => putBytes (enc a) := by
  intro a b x y h
  simp only [putBytes, List.append_assoc] at h
  obtain ⟨hlenEq, hrest⟩ := List.append_inj h (by simp)
  have hl : (enc a).length = (enc b).length :=
    leBytes_inj (by simpa using hlen a) (by simpa using hlen b) hlenEq
  obtain ⟨hab, hxy⟩ := List.append_inj hrest hl
  exact ⟨hinj hab, hxy⟩

end P2P333.Lib
