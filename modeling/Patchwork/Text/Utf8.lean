/-!
# Reading bytes as text

A file's bytes are text when they are UTF-8. `decode` gives the text, or the number of bytes
before the first that no character can account for; encoding the text gives the bytes back
(`toByteArray_of_decode`). Bytes that are no text are `NotText` in section 4.1 of the specification.
-/

namespace Patchwork.Text

/-- From offset `start` on, the offset where the run of whole characters in `bytes` ends. -/
def validEnd (bytes : ByteArray) (start : Nat) : Nat :=
  match _h : bytes.utf8DecodeChar? start with
  | some c => validEnd bytes (start + c.utf8Size)
  | none => start
termination_by bytes.size - start
decreasing_by
  have hle := ByteArray.le_size_of_utf8DecodeChar?_eq_some ‹_›
  have hpos := c.utf8Size_pos
  omega

/-- The text whose UTF-8 form is `bytes`, or the length of their longest prefix that is text. -/
def decode (bytes : ByteArray) : Except Nat String :=
  if h : bytes.validateUTF8 = true then
    .ok (.ofByteArray bytes (ByteArray.validateUTF8_eq_true_iff.1 h))
  else
    .error (validEnd bytes 0)

/-- Encoding a decoded text gives the bytes back. -/
theorem toByteArray_of_decode {bytes : ByteArray} {text : String} (h : decode bytes = .ok text) :
    text.toByteArray = bytes := by
  unfold decode at h
  split at h
  · cases h; rfl
  · cases h

/-- Every text is read back from its UTF-8 form. -/
@[simp] theorem decode_toByteArray (text : String) : decode text.toByteArray = .ok text := by
  simp [decode, ByteArray.validateUTF8_eq_true_iff, text.isValidUTF8]

end Patchwork.Text
