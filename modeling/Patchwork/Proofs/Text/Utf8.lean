import Mathlib.Order.Bounds.Basic
import Patchwork.Text.Utf8

/-!
# How far bytes are text

Bytes are decoded character by character, and no character's bytes begin with those of another. So
where decoding stops is the end of the longest prefix that is text (`validEnd_isGreatest`).
-/

namespace Patchwork.Text

variable {bytes : ByteArray} {start stop : Nat}

/-- The bytes of a decoded character are its encoding. -/
private theorem extract_of_decodeChar {c : Char} (h : bytes.utf8DecodeChar? start = some c) :
    bytes.extract start (start + c.utf8Size) = [c].utf8Encode := by
  have hle := ByteArray.le_size_of_utf8DecodeChar?_eq_some h
  rw [ByteArray.utf8DecodeChar?_eq_utf8DecodeChar?_extract] at h
  rw [List.utf8Encode_singleton, String.toByteArray_utf8EncodeChar_of_utf8DecodeChar?_eq_some h,
    ByteArray.extract_extract, Nat.min_eq_left hle, Nat.add_zero]

/-- Behind a decoded character, bytes are text when they are text from the character on. -/
private theorem isValidUTF8_extract_iff {c : Char} (h : bytes.utf8DecodeChar? start = some c)
    (hstop : start + c.utf8Size ≤ stop) :
    (bytes.extract start stop).IsValidUTF8 ↔
      (bytes.extract (start + c.utf8Size) stop).IsValidUTF8 := by
  rw [ByteArray.extract_eq_extract_append_extract (start + c.utf8Size) (Nat.le_add_right _ _) hstop,
    extract_of_decodeChar h, ByteArray.isValidUTF8_utf8Encode_singleton_append_iff]

/-- Text begins with a character that can be decoded. -/
private theorem exists_decodeChar (hlt : start < stop) (hstop : stop ≤ bytes.size)
    (h : (bytes.extract start stop).IsValidUTF8) :
    ∃ c, bytes.utf8DecodeChar? start = some c ∧ start + c.utf8Size ≤ stop := by
  have hsize : (bytes.extract start stop).size = stop - start := by
    rw [ByteArray.size_extract, Nat.min_eq_left hstop]
  obtain ⟨chars, hchars⟩ := h
  cases chars with
  | nil =>
    rw [hchars, List.utf8Encode_nil, ByteArray.size_empty] at hsize
    omega
  | cons c chars =>
    have hdecode : (bytes.extract start stop).utf8DecodeChar? 0 = some c := by
      rw [hchars, List.utf8DecodeChar?_utf8Encode_cons]
    have hle := ByteArray.le_size_of_utf8DecodeChar?_eq_some hdecode
    refine ⟨c, ?_, by omega⟩
    rw [ByteArray.utf8DecodeChar?_eq_utf8DecodeChar?_extract,
      ByteArray.extract_eq_extract_append_extract stop (Nat.le_of_lt hlt) hstop]
    exact ByteArray.utf8DecodeChar?_append_eq_some hdecode _

/-- Decoding passes over bytes that are text. -/
private theorem isValidUTF8_extract_validEnd (hstart : start ≤ bytes.size) :
    start ≤ validEnd bytes start ∧ validEnd bytes start ≤ bytes.size ∧
      (bytes.extract start (validEnd bytes start)).IsValidUTF8 := by
  fun_induction validEnd bytes start with
  | case1 start c hdecode ih =>
    obtain ⟨hle, hsize, hvalid⟩ := ih (ByteArray.le_size_of_utf8DecodeChar?_eq_some hdecode)
    exact ⟨by omega, hsize, (isValidUTF8_extract_iff hdecode hle).2 hvalid⟩
  | case2 start hdecode =>
    rw [ByteArray.extract_same]
    exact ⟨Nat.le_refl start, hstart, ByteArray.isValidUTF8_empty⟩

/-- Decoding does not stop in the middle of text. -/
private theorem le_validEnd (hstart : start ≤ stop) (hstop : stop ≤ bytes.size)
    (h : (bytes.extract start stop).IsValidUTF8) : stop ≤ validEnd bytes start := by
  fun_induction validEnd bytes start with
  | case1 start c hdecode ih =>
    obtain rfl | hlt := Nat.eq_or_lt_of_le hstart
    · exact Nat.le_trans (Nat.le_add_right _ _)
        (isValidUTF8_extract_validEnd (ByteArray.le_size_of_utf8DecodeChar?_eq_some hdecode)).1
    · obtain ⟨c', hdecode', hle⟩ := exists_decodeChar hlt hstop h
      rw [hdecode] at hdecode'
      cases hdecode'
      exact ih hle ((isValidUTF8_extract_iff hdecode hle).1 h)
  | case2 start hdecode =>
    by_contra hlt
    obtain ⟨c, hdecode', _⟩ := exists_decodeChar (Nat.lt_of_not_le hlt) hstop h
    rw [hdecode] at hdecode'
    cases hdecode'

/-- Decoding from the front stops at the end of the longest prefix that is text. -/
theorem validEnd_isGreatest (bytes : ByteArray) :
    IsGreatest {n | n ≤ bytes.size ∧ (bytes.extract 0 n).IsValidUTF8} (validEnd bytes 0) := by
  obtain ⟨_, hsize, hvalid⟩ := isValidUTF8_extract_validEnd (Nat.zero_le bytes.size)
  exact ⟨⟨hsize, hvalid⟩, fun stop hstop ↦ le_validEnd (Nat.zero_le stop) hstop.1 hstop.2⟩

/-- Bytes are decoded exactly when they are text. -/
theorem exists_decode_eq_ok_iff : (∃ text, decode bytes = .ok text) ↔ bytes.IsValidUTF8 := by
  rw [← ByteArray.validateUTF8_eq_true_iff]
  constructor
  · rintro ⟨text, h⟩
    rw [decode] at h
    split at h
    · assumption
    · cases h
  · intro h
    exact ⟨_, dif_pos h⟩

/-- Bytes that are not text are refused with the length of their longest prefix that is. -/
theorem isGreatest_of_decode_eq_error {offset : Nat} (h : decode bytes = .error offset) :
    IsGreatest {n | n ≤ bytes.size ∧ (bytes.extract 0 n).IsValidUTF8} offset := by
  rw [decode] at h
  split at h
  · cases h
  · cases h
    exact validEnd_isGreatest bytes

end Patchwork.Text
