import P2P333.Lib.Text

/-!
# Variable-width numbers

Numbers as bytes of seven bits each, lowest first, where every byte but the last has its high bit
set; and lists and texts behind their lengths. All of these encodings are self-delimiting.
-/

namespace P2P333.Lib

variable {α β : Type*}

def varint (n : Nat) : Bytes :=
  if n < 128 then [UInt8.ofNat n] else UInt8.ofNat (n % 128 + 128) :: varint (n / 128)
termination_by n
decreasing_by omega

theorem toNat_ofNat_byte {n : Nat} (h : n < 256) : (UInt8.ofNat n).toNat = n := by
  rw [UInt8.toNat_ofNat']
  exact Nat.mod_eq_of_lt h

theorem selfDelimiting_varint : SelfDelimiting varint := by
  intro n
  induction n using Nat.strongRecOn with
  | ind n ih =>
    intro m x y h
    rw [varint.eq_def n, varint.eq_def m] at h
    split_ifs at h with hn hm hm
    · obtain ⟨hbyte, hrest⟩ := List.cons.inj h
      have hnat := congrArg UInt8.toNat hbyte
      rw [toNat_ofNat_byte (by omega), toNat_ofNat_byte (by omega)] at hnat
      exact ⟨hnat, hrest⟩
    · have hnat := congrArg UInt8.toNat (List.cons.inj h).1
      rw [toNat_ofNat_byte (by omega), toNat_ofNat_byte (by omega)] at hnat
      omega
    · have hnat := congrArg UInt8.toNat (List.cons.inj h).1
      rw [toNat_ofNat_byte (by omega), toNat_ofNat_byte (by omega)] at hnat
      omega
    · obtain ⟨hbyte, hrest⟩ := List.cons.inj h
      have hnat := congrArg UInt8.toNat hbyte
      rw [toNat_ofNat_byte (by omega), toNat_ofNat_byte (by omega)] at hnat
      obtain ⟨hdiv, hxy⟩ := ih (n / 128) (by omega) _ x y hrest
      exact ⟨by omega, hxy⟩

/-- The value is read off another one that is encoded. -/
theorem SelfDelimiting.comap {enc : β → Bytes} (h : SelfDelimiting enc) {f : α → β}
    (hf : Function.Injective f) : SelfDelimiting fun a => enc (f a) := by
  intro a b x y hab
  obtain ⟨heq, hxy⟩ := h _ _ _ _ hab
  exact ⟨hf heq, hxy⟩

/-- Items behind their number. -/
def counted (enc : α → Bytes) (l : List α) : Bytes := varint l.length ++ l.flatMap enc

theorem SelfDelimiting.counted {enc : α → Bytes} (h : SelfDelimiting enc) :
    SelfDelimiting (counted enc) := by
  have hitems : ∀ (l l' : List α) (x y : Bytes), l.length = l'.length →
      l.flatMap enc ++ x = l'.flatMap enc ++ y → l = l' ∧ x = y := by
    intro l
    induction l with
    | nil =>
      intro l' x y hlen heq
      rw [List.eq_nil_of_length_eq_zero hlen.symm] at heq ⊢
      exact ⟨rfl, heq⟩
    | cons a l ih =>
      intro l' x y hlen heq
      cases l' with
      | nil => cases hlen
      | cons b l' =>
        rw [List.flatMap_cons, List.flatMap_cons, List.append_assoc, List.append_assoc] at heq
        obtain ⟨rfl, hrest⟩ := h _ _ _ _ heq
        obtain ⟨rfl, hxy⟩ := ih l' x y (Nat.succ.inj hlen) hrest
        exact ⟨rfl, hxy⟩
  intro l l' x y heq
  rw [Lib.counted, Lib.counted, List.append_assoc, List.append_assoc] at heq
  obtain ⟨hlen, hrest⟩ := selfDelimiting_varint _ _ _ _ heq
  exact hitems l l' x y hlen hrest

/-- A text behind its length. -/
def countedText (s : String) : Bytes := counted (fun b => [b]) (utf8 s)

theorem selfDelimiting_countedText : SelfDelimiting countedText :=
  SelfDelimiting.comap (SelfDelimiting.counted fun _ _ _ _ h => List.cons.inj h) utf8_injective

/-- A value that may be missing, behind a byte that says so. -/
def optional (enc : α → Bytes) : Option α → Bytes
  | none => [0]
  | some a => 1 :: enc a

theorem SelfDelimiting.optional {enc : α → Bytes} (h : SelfDelimiting enc) :
    SelfDelimiting (optional enc) := by
  intro a b x y hab
  cases a with
  | none =>
    cases b with
    | none => exact ⟨rfl, (List.cons.inj hab).2⟩
    | some b => cases (List.cons.inj hab).1
  | some a =>
    cases b with
    | none => cases (List.cons.inj hab).1
    | some b =>
      obtain ⟨rfl, hxy⟩ := h _ _ _ _ (List.cons.inj hab).2
      exact ⟨rfl, hxy⟩

end P2P333.Lib
