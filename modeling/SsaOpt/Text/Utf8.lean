/-!
# Text as bytes

The bytes of a text in UTF-8 and back. Not every list of bytes is the list of a text, but a text is
determined by its bytes: `utf8Text?_eq_some_iff`.
-/

namespace SsaOpt.Text

/-- The bytes of a text in UTF-8. -/
def utf8Bytes (s : String) : List UInt8 := s.toByteArray.data.toList

/-- The text that has the given bytes, if there is one. -/
def utf8Text? (bytes : List UInt8) : Option String := String.fromUTF8? ⟨bytes.toArray⟩

/-- Reading bytes as text is the converse of taking the bytes of a text. -/
theorem utf8Text?_eq_some_iff {bytes : List UInt8} {s : String} :
    utf8Text? bytes = some s ↔ bytes = utf8Bytes s := by
  have bytes_eq : bytes = utf8Bytes s ↔ (⟨bytes.toArray⟩ : ByteArray) = s.toByteArray := by
    rw [utf8Bytes, ByteArray.ext_iff]
    constructor
    · rintro rfl
      simp
    · intro h
      rw [← h]
  rw [bytes_eq, utf8Text?, String.fromUTF8?]
  split
  · simp only [Option.some.injEq, String.fromUTF8]
    constructor
    · rintro rfl
      rfl
    · intro h
      exact String.toByteArray_inj.1 h
  · rename_i invalid
    simp only [reduceCtorEq, false_iff]
    intro h
    exact invalid (h ▸ s.isValidUTF8)

end SsaOpt.Text
