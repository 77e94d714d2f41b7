import P2P333.Lib.Codec

/-!
# Text as bytes

The bytes of a string in UTF-8, and the decoder of them.
-/

namespace P2P333.Lib

/-- `as_bytes`. -/
def utf8 (s : String) : Bytes := s.toByteArray.data.toList

/-- `String::from_utf8`. -/
def ofUtf8 (bs : Bytes) : Option String :=
  if h : (ByteArray.mk bs.toArray).IsValidUTF8 then
    some (String.fromUTF8 (ByteArray.mk bs.toArray) h)
  else none

theorem utf8_injective : Function.Injective utf8 := by
  intro s t h
  exact String.toByteArray_inj.mp (ByteArray.ext (Array.toList_inj.mp h))

theorem ofUtf8_eq_some {bs : Bytes} {s : String} : ofUtf8 bs = some s ↔ utf8 s = bs := by
  unfold ofUtf8
  constructor
  · intro h
    split at h
    · cases h
      rfl
    · cases h
  · rintro rfl
    have hbytes : ByteArray.mk (utf8 s).toArray = s.toByteArray := rfl
    rw [dif_pos (hbytes ▸ s.isValidUTF8)]
    rfl

theorem utf8_append (s t : String) : utf8 (s ++ t) = utf8 s ++ utf8 t := by
  simp [utf8]

end P2P333.Lib
