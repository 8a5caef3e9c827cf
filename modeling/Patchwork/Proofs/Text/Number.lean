import Patchwork.Text.Number

/-!
# Reading the digits of a number

The decimal digits of a number are read as the number again, on their own (`natural?_toDigits`) or
as a word that can hold it (`word?_toDigits`). What else is read as a word is a `Numeral`.
-/

namespace Patchwork.Text

/-- How a word may be spelled: by at least one decimal digit, and as many zeros in front as there
may be, with or without a plus sign. -/
structure Numeral where
  plus : Bool
  digits : List Char
  digits_ne_nil : digits ≠ []
  isDigit_of_mem : ∀ c ∈ digits, c.isDigit = true
  lt_size : Nat.ofDigitChars 10 digits 0 < UInt32.size

namespace Numeral

/-- The numeral as it is spelled. -/
def chars (n : Numeral) : List Char := if n.plus then '+' :: n.digits else n.digits

/-- The number that the digits stand for. -/
def value (n : Numeral) : Nat := Nat.ofDigitChars 10 n.digits 0

theorem mem_chars {n : Numeral} {c : Char} (h : c ∈ n.chars) : c.isDigit = true ∨ c = '+' := by
  rw [chars] at h
  split at h
  · obtain rfl | h := List.mem_cons.1 h
    · exact .inr rfl
    · exact .inl (n.isDigit_of_mem c h)
  · exact .inl (n.isDigit_of_mem c h)

theorem plus_notMem {n : Numeral} (h : n.plus = false) : '+' ∉ n.chars := by
  rw [chars, h]
  exact fun hmem ↦ absurd (n.isDigit_of_mem '+' hmem) (by decide)

end Numeral

private theorem digitsValue?_eq (text : List Char) (sofar : Nat)
    (h : ∀ c ∈ text, c.isDigit = true) :
    digitsValue? sofar text = some (Nat.ofDigitChars 10 text sofar) := by
  induction text generalizing sofar with
  | nil => simp [digitsValue?]
  | cons c text ih =>
    rw [digitsValue?, if_pos (h c List.mem_cons_self), Nat.ofDigitChars_cons]
    exact ih _ fun d hd ↦ h d (List.mem_cons_of_mem c hd)

theorem isDigit_of_mem_toDigits {n : Nat} {c : Char} (h : c ∈ Nat.toDigits 10 n) :
    c.isDigit = true :=
  Nat.isDigit_of_mem_toDigits (by decide) (by decide) h

/-- A number has at least one digit. -/
theorem exists_toDigits_eq_cons (n : Nat) :
    ∃ c digits, Nat.toDigits 10 n = c :: digits ∧ c.isDigit = true := by
  obtain ⟨c, digits, h⟩ := List.exists_cons_of_ne_nil (Nat.toDigits_ne_nil : Nat.toDigits 10 n ≠ [])
  exact ⟨c, digits, h, isDigit_of_mem_toDigits (h ▸ List.mem_cons_self)⟩

/-- A number's digits are read as the number. -/
theorem natural?_toDigits (n : Nat) : natural? (Nat.toDigits 10 n) = some n := by
  have hvalue : digitsValue? 0 (Nat.toDigits 10 n) = some n := by
    rw [digitsValue?_eq _ _ fun c hc ↦ isDigit_of_mem_toDigits hc, Nat.ofDigitChars_ten_toDigits]
  rwa [natural?]
  exact fun h ↦ Nat.toDigits_ne_nil h

/-- A number's digits are read as the number, if a word can hold it. -/
theorem word?_toDigits (n : Nat) : word? (Nat.toDigits 10 n) = wordOfNat? n := by
  rw [word?, natural?_toDigits, Option.bind_some]
  intro rest h
  have hplus : '+'.isDigit = true := isDigit_of_mem_toDigits (h ▸ List.mem_cons_self)
  contradiction

private theorem digitsValue?_eq_some_iff {text : List Char} {sofar n : Nat} :
    digitsValue? sofar text = some n ↔
      (∀ c ∈ text, c.isDigit = true) ∧ Nat.ofDigitChars 10 text sofar = n := by
  by_cases h : ∀ c ∈ text, c.isDigit = true
  · rw [digitsValue?_eq text sofar h, Option.some_inj, and_iff_right h]
  · refine iff_of_false (fun hsome ↦ h ?_) fun hand ↦ h hand.1
    clear h
    induction text generalizing sofar with
    | nil => exact fun c hc ↦ absurd hc List.not_mem_nil
    | cons c text ih =>
      rw [digitsValue?] at hsome
      split at hsome
      · next hc => exact List.forall_mem_cons.2 ⟨hc, ih hsome⟩
      · cases hsome

/-- Rows of digits are read as numbers, and nothing else is. -/
theorem natural?_eq_some_iff {text : List Char} {n : Nat} :
    natural? text = some n ↔
      text ≠ [] ∧ (∀ c ∈ text, c.isDigit = true) ∧ Nat.ofDigitChars 10 text 0 = n := by
  rw [← digitsValue?_eq_some_iff]
  cases text with
  | nil => simp [natural?]
  | cons c text => simp [natural?]

/-- The texts that are read as words are numerals. -/
theorem word?_eq_some_iff {text : List Char} {w : UInt32} :
    word? text = some w ↔ ∃ n : Numeral, n.chars = text ∧ n.value = w.toNat := by
  have hword (digits : List Char) : (natural? digits).bind wordOfNat? = some w ↔
      digits ≠ [] ∧ (∀ c ∈ digits, c.isDigit = true) ∧
        Nat.ofDigitChars 10 digits 0 = w.toNat := by
    simp only [Option.bind_eq_some_iff, wordOfNat?_eq_some_iff, exists_eq_right,
      natural?_eq_some_iff]
  constructor
  · intro h
    rw [word?.eq_def] at h
    split at h
    · next digits =>
      obtain ⟨hne, hdigits, hvalue⟩ := (hword digits).1 h
      exact ⟨⟨true, digits, hne, hdigits, hvalue ▸ w.toNat_lt⟩, rfl, hvalue⟩
    · obtain ⟨hne, hdigits, hvalue⟩ := (hword text).1 h
      exact ⟨⟨false, text, hne, hdigits, hvalue ▸ w.toNat_lt⟩, rfl, hvalue⟩
  · rintro ⟨⟨plus, digits, hne, hdigits, hlt⟩, rfl, hvalue⟩
    have hread := (hword digits).2 ⟨hne, hdigits, hvalue⟩
    cases plus with
    | true => exact hread
    | false =>
      rw [Numeral.chars, if_neg Bool.false_ne_true, word?]
      · exact hread
      · rintro rest rfl
        exact absurd (hdigits '+' List.mem_cons_self) (by decide)

/-- Only zero has a zero as its first digit. -/
theorem eq_zero_of_toDigits_eq_cons {n : Nat} {rest : List Char}
    (h : Nat.toDigits 10 n = '0' :: rest) : n = 0 := by
  induction n using Nat.strongRecOn generalizing rest with
  | ind n ih =>
    by_cases hlt : n < 10
    · rw [Nat.toDigits_of_lt_base hlt, List.cons.injEq] at h
      have hzero : ∀ n < 10, Nat.digitChar n = '0' → n = 0 := by decide
      exact hzero n hlt h.1
    · rw [Nat.toDigits_of_base_le (by decide) (Nat.not_lt.1 hlt)] at h
      obtain ⟨c, digits, hdigits, -⟩ := exists_toDigits_eq_cons (n / 10)
      rw [hdigits, List.cons_append, List.cons.injEq] at h
      have := ih (n / 10) (by omega) (h.1 ▸ hdigits)
      omega

end Patchwork.Text
