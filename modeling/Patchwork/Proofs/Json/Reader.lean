import Patchwork.Json.Reader
import Patchwork.Proofs.Text.Number

/-!
# Reading what was written

A text that was escaped is read back (`unescape?_escape`). So is a value without blanks when its
numbers are natural and its strings are escaped texts (`Plain`), whatever may follow it inside of
another value (`Plain.scans`). Main statement: `Plain.read?_compact`.
-/

namespace Patchwork.Json

section Escape

private theorem hexValue?_hexDigit : ∀ n < 16, hexValue? (hexDigit n) = some n := by decide

/-- The code of a control character is what its escape spells. -/
private theorem hexValues?_hexDigit {n : Nat} (h : n < 32) :
    hexValues? '0' '0' (hexDigit (n / 16)) (hexDigit (n % 16)) = some n := by
  have hzero : hexValue? '0' = some 0 := by decide
  simp only [hexValues?, hzero, hexValue?_hexDigit (n / 16) (by omega),
    hexValue?_hexDigit (n % 16) (by omega)]
  change some _ = _
  rw [Option.some.injEq]
  omega

/-- A character is spelled by a letter, by its code, or by itself. -/
private theorem escapeChar_cases (c : Char) :
    (∃ letter, letter ≠ 'u' ∧ shortEscape? letter = some c ∧ escapeChar c = ['\\', letter]) ∨
      (c.toNat < 32 ∧ escapeChar c =
        ['\\', 'u', '0', '0', hexDigit (c.toNat / 16), hexDigit (c.toNat % 16)]) ∨
      (c ≠ '"' ∧ c ≠ '\\' ∧ 32 ≤ c.toNat ∧ escapeChar c = [c]) := by
  by_cases hshort : c ∈ ['"', '\\', '\x08', '\x0c', '\n', '\r', '\t']
  · left
    simp only [List.mem_cons, List.not_mem_nil, or_false] at hshort
    obtain rfl | rfl | rfl | rfl | rfl | rfl | rfl := hshort <;>
      exact ⟨_, by decide, by rfl, rfl⟩
  · right
    simp only [List.mem_cons, List.not_mem_nil, or_false, not_or] at hshort
    obtain ⟨hquote, hslash, hb, hf, hn, hr, ht⟩ := hshort
    simp only [escapeChar, if_neg hquote, if_neg hslash, if_neg hb, if_neg hf, if_neg hn, if_neg hr,
      if_neg ht]
    by_cases hcontrol : c.toNat < 32
    · exact .inl ⟨hcontrol, if_pos hcontrol⟩
    · exact .inr ⟨hquote, hslash, Nat.not_lt.1 hcontrol, if_neg hcontrol⟩

/-- An escaped character is a part of the string that goes on behind it. -/
theorem scanString_escapeChar_append (c : Char) (text : List Char) :
    scanString (escapeChar c ++ text) =
      (scanString text).map fun scanned ↦ (escapeChar c ++ scanned.1, scanned.2) := by
  obtain ⟨letter, hu, hletter, h⟩ | ⟨hcontrol, h⟩ | ⟨hquote, hslash, hcontrol, h⟩ :=
    escapeChar_cases c
  · simp [h, scanString, hu, hletter]
  · simp [h, scanString, hexValues?_hexDigit hcontrol]
  · simp [h, scanString, hslash, Nat.not_lt.2 hcontrol]

theorem unescapeAfter?_escapeChar_append (c : Char) (text : List Char) :
    unescapeAfter? none (escapeChar c ++ text) =
      (unescapeAfter? none text).map (c :: ·) := by
  obtain ⟨letter, hu, hletter, h⟩ | ⟨hcontrol, h⟩ | ⟨hquote, hslash, hcontrol, h⟩ :=
    escapeChar_cases c
  · simp [h, unescapeAfter?, hu, hletter]
  · have hhigh : isHighSurrogate c.toNat = false := by simp [isHighSurrogate]; omega
    have hlow : isLowSurrogate c.toNat = false := by simp [isLowSurrogate]; omega
    simp [h, unescapeAfter?, hexValues?_hexDigit hcontrol, hhigh, hlow]
  · simp [h, unescapeAfter?, hslash]

/-- An escaped text is scanned up to the quote behind it. -/
theorem scanString_escape (text rest : List Char) :
    scanString (escape text ++ '"' :: rest) = some (escape text, rest) := by
  induction text with
  | nil => rw [escape, List.flatMap_nil, List.nil_append, scanString]
  | cons c text ih =>
    rw [escape, List.flatMap_cons, List.append_assoc, scanString_escapeChar_append, ← escape, ih]
    rfl

/-- An escaped text is read back. -/
theorem unescape?_escape (text : List Char) : unescape? (escape text) = some text := by
  rw [unescape?]
  induction text with
  | nil => rfl
  | cons c text ih =>
    rw [escape, List.flatMap_cons, unescapeAfter?_escapeChar_append, ← escape, ih]
    rfl

@[simp] theorem text?_ofText (text : String) : (ofText text).text? = some text := by
  rw [ofText, text?, unescape?_escape, Option.map_some, String.ofList_toList]

end Escape

/-- Nothing stands behind a value, or what goes on with the value around it. -/
def Ends (rest : List Char) : Prop := ∀ c ∈ rest.head?, c = ',' ∨ c = ']' ∨ c = '}'

theorem ends_nil : Ends [] := by simp [Ends]

section Number

variable {rest : List Char}

private theorem scanDigits?_append {digits : List Char} (hne : digits ≠ [])
    (hdigits : ∀ c ∈ digits, c.isDigit = true) (hrest : Ends rest) :
    scanDigits? (digits ++ rest) = some (digits, rest) := by
  have hhead : rest.takeWhile Char.isDigit = [] ∧ rest.dropWhile Char.isDigit = rest := by
    cases rest with
    | nil => exact ⟨rfl, rfl⟩
    | cons c rest =>
      have hc : c.isDigit = false := by
        obtain rfl | rfl | rfl := hrest c rfl <;> decide
      simp [hc]
  simp [scanDigits?, scanDigits, List.takeWhile_append_of_pos hdigits,
    List.dropWhile_append_of_pos hdigits, hhead, hne]

private theorem scanFraction?_of_ends (hrest : Ends rest) :
    scanFraction? rest = some ([], rest) := by
  rw [scanFraction?.eq_def]
  split
  · obtain h | h | h := hrest '.' rfl <;> cases h
  · rfl

private theorem scanExponent?_of_ends (hrest : Ends rest) :
    scanExponent? rest = some ([], rest) := by
  have hhead : ∀ c ∈ rest.head?, ¬(c = 'e' ∨ c = 'E') := by
    intro c hc
    obtain rfl | rfl | rfl := hrest c hc <;> decide
  rw [scanExponent?.eq_def]
  split
  · next e sign rest => rw [if_neg (hhead e rfl)]
  · next e => rw [if_neg (hhead e rfl)]
  · rfl

private theorem scanWhole?_toDigits_append (n : Nat) (hrest : Ends rest) :
    scanWhole? (Nat.toDigits 10 n ++ rest) = some (Nat.toDigits 10 n, rest) := by
  by_cases hzero : n = 0
  · subst hzero
    rfl
  · rw [scanWhole?]
    · exact scanDigits?_append Nat.toDigits_ne_nil (fun c ↦ Text.isDigit_of_mem_toDigits) hrest
    · intro text htext
      obtain ⟨c, digits, hdigits, -⟩ := Text.exists_toDigits_eq_cons n
      rw [hdigits, List.cons_append, List.cons.injEq] at htext
      exact hzero (Text.eq_zero_of_toDigits_eq_cons (htext.1 ▸ hdigits))

/-- The digits of a number are scanned up to what ends the value. -/
theorem scanNumber?_toDigits_append (n : Nat) (hrest : Ends rest) :
    scanNumber? (Nat.toDigits 10 n ++ rest) = some (Nat.toDigits 10 n, rest) := by
  rw [scanNumber?]
  · simp [scanUnsigned?, scanWhole?_toDigits_append n hrest, scanFraction?_of_ends hrest,
      scanExponent?_of_ends hrest]
  · intro text htext
    obtain ⟨c, digits, hdigits, hc⟩ := Text.exists_toDigits_eq_cons n
    rw [hdigits, List.cons_append, List.cons.injEq] at htext
    rw [htext.1] at hc
    contradiction

end Number

/-- A value whose numbers are natural and whose strings are escaped texts. -/
inductive Plain : Json → Prop where
  | null : Plain null
  | bool (value : Bool) : Plain (bool value)
  | ofNat (n : Nat) : Plain (ofNat n)
  | ofText (text : String) : Plain (ofText text)
  | array {items : List Json} (hitems : ∀ item ∈ items, Plain item) : Plain (array items)
  | ofFields {fields : List (String × Json)} (hfields : ∀ field ∈ fields, Plain field.2) :
    Plain (ofFields fields)

/-- The value is found at the front of its text. Of two steps down at least one passes a character,
so the descent need not be deeper than twice the length of the text. -/
def Scans (value : Json) : Prop :=
  ∀ depth rest, 2 * value.compactChars.length ≤ depth + 1 → Ends rest →
    scanValue (depth + 1) (value.compactChars ++ rest) = some (value, rest)

private theorem skipBlanks_cons {c : Char} (h : isBlank c = false) (text : List Char) :
    skipBlanks (c :: text) = c :: text := by
  simp [skipBlanks, h]

theorem compactChars_ofNat (n : Nat) : (ofNat n).compactChars = Nat.toDigits 10 n := by
  rw [ofNat, compactChars, Nat.toString_eq_ofList_toDigits, String.toList_ofList]

private theorem isBlank_of_isDigit {c : Char} (h : c.isDigit = true) : isBlank c = false := by
  rw [Bool.eq_false_iff]
  intro hblank
  simp only [isBlank, Bool.or_eq_true, decide_eq_true_eq] at hblank
  obtain ((rfl | rfl) | rfl) | rfl := hblank <;> contradiction

/-- The text of a plain value begins with a character that is no blank and ends no array. -/
theorem Plain.exists_compactChars_eq_cons {value : Json} (h : value.Plain) :
    ∃ c text, value.compactChars = c :: text ∧ isBlank c = false ∧ c ≠ ']' := by
  cases h with
  | null => exact ⟨_, _, rfl, by decide⟩
  | bool value => cases value <;> exact ⟨_, _, rfl, by decide⟩
  | ofNat n =>
    obtain ⟨c, digits, hdigits, hc⟩ := Text.exists_toDigits_eq_cons n
    refine ⟨c, digits, (compactChars_ofNat n).trans hdigits, isBlank_of_isDigit hc, ?_⟩
    rintro rfl
    contradiction
  | ofText text => exact ⟨_, _, by rw [Json.ofText, compactChars]; rfl, by decide⟩
  | array => exact ⟨_, _, by rw [compactChars], by decide⟩
  | ofFields => exact ⟨_, _, by rw [Json.ofFields, compactChars], by decide⟩

private theorem scans_ofNat (n : Nat) : (ofNat n).Scans := by
  intro depth rest _ hrest
  obtain ⟨c, digits, hdigits, hc⟩ := Text.exists_toDigits_eq_cons n
  have hnumber := scanNumber?_toDigits_append n hrest
  rw [compactChars_ofNat]
  rw [hdigits, List.cons_append] at hnumber ⊢
  rw [scanValue, skipBlanks_cons (isBlank_of_isDigit hc)]
  -- No other kind of value begins with a digit.
  split
  case h_7 =>
    rw [hnumber, ← hdigits, ← compactChars_ofNat]
    rfl
  all_goals
    next htext =>
      rw [(List.cons.inj htext).1] at hc
      contradiction

private theorem scans_ofText (text : String) : (ofText text).Scans := by
  intro depth rest _ _
  have hstring := scanString_escape text.toList rest
  rw [ofText, compactChars, quoted, List.cons_append, List.cons_append, List.append_assoc,
    scanValue, skipBlanks_cons (by decide)]
  simp [hstring]

section Parts

variable {depth : Nat} {text others rest : List Char} {value : Json}

private theorem scanItems_last (hvalue : scanValue depth text = some (value, ']' :: rest)) :
    scanItems (depth + 1) text = some ([value], rest) := by
  rw [scanItems, hvalue]
  simp [skipBlanks, isBlank]

private theorem scanItems_next {items : List Json}
    (hvalue : scanValue depth text = some (value, ',' :: others))
    (hothers : scanItems depth others = some (items, rest)) :
    scanItems (depth + 1) text = some (value :: items, rest) := by
  rw [scanItems, hvalue]
  simp [skipBlanks, isBlank, hothers]

private theorem scanMembers_last (key : List Char)
    (hvalue : scanValue depth text = some (value, '}' :: rest)) :
    scanMembers (depth + 1) (quoted (escape key) ++ ':' :: text) =
      some ([(escape key, value)], rest) := by
  rw [scanMembers, quoted, List.cons_append, List.cons_append, List.append_assoc,
    skipBlanks_cons (by decide)]
  simp [scanString_escape, hvalue, skipBlanks, isBlank]

private theorem scanMembers_next (key : List Char) {members : List (List Char × Json)}
    (hvalue : scanValue depth text = some (value, ',' :: others))
    (hothers : scanMembers depth others = some (members, rest)) :
    scanMembers (depth + 1) (quoted (escape key) ++ ':' :: text) =
      some ((escape key, value) :: members, rest) := by
  rw [scanMembers, quoted, List.cons_append, List.cons_append, List.append_assoc,
    skipBlanks_cons (by decide)]
  simp [scanString_escape, hvalue, skipBlanks, isBlank, hothers]

end Parts

/-- Items are found up to the bracket that ends them. -/
private theorem scanItems_compactItems {items : List Json} (hne : items ≠ [])
    (hitems : ∀ item ∈ items, item.Scans) (depth : Nat) (rest : List Char)
    (hdepth : 2 * (compactItems items).length ≤ depth + 1) :
    scanItems (depth + 1) (compactItems items ++ rest) = some (items, rest) := by
  induction items generalizing depth with
  | nil => exact absurd rfl hne
  | cons item items ih =>
    rw [List.forall_mem_cons] at hitems
    cases items with
    | nil =>
      rw [compactItems, List.length_append, List.length_singleton] at hdepth
      obtain ⟨depth, rfl⟩ : ∃ d, depth = d + 1 := ⟨depth - 1, by omega⟩
      rw [compactItems, List.append_assoc]
      exact scanItems_last (hitems.1 depth _ (by omega) (by simp [Ends]))
    | cons next items =>
      rw [compactItems, List.length_append, List.length_cons] at hdepth
      obtain ⟨depth, rfl⟩ : ∃ d, depth = d + 1 := ⟨depth - 1, by omega⟩
      rw [compactItems, List.append_assoc]
      exact scanItems_next (hitems.1 depth _ (by omega) (by simp [Ends]))
        (ih (List.cons_ne_nil next items) hitems.2 depth (by omega))

private theorem scans_array {items : List Json} (hplain : ∀ item ∈ items, item.Plain)
    (hitems : ∀ item ∈ items, item.Scans) : (array items).Scans := by
  intro depth rest hdepth _
  cases items with
  | nil => rfl
  | cons item items =>
    rw [compactChars, List.length_cons] at hdepth
    obtain ⟨depth, rfl⟩ : ∃ d, depth = d + 1 := ⟨depth - 1, by omega⟩
    have hscan := scanItems_compactItems (List.cons_ne_nil item items) hitems depth rest (by omega)
    obtain ⟨c, text, htext, hblank, hbracket⟩ :=
      (hplain item List.mem_cons_self).exists_compactChars_eq_cons
    obtain ⟨text, hitems⟩ : ∃ text, compactItems (item :: items) = c :: text := by
      cases items <;> rw [compactItems, htext] <;> exact ⟨_, List.cons_append⟩
    rw [compactChars, hitems, List.cons_append, scanValue, skipBlanks_cons (by decide)]
    rw [hitems] at hscan
    simp only [List.cons_append] at hscan ⊢
    rw [skipBlanks_cons hblank]
    simp [hbracket, hscan]

/-- The members of an object as they are kept. -/
private def spelled (fields : List (String × Json)) : List (List Char × Json) :=
  fields.map fun field ↦ (escape field.1.toList, field.2)

/-- Members are found up to the brace that ends them. -/
private theorem scanMembers_compactMembers {fields : List (String × Json)} (hne : fields ≠ [])
    (hfields : ∀ field ∈ fields, field.2.Scans) (depth : Nat) (rest : List Char)
    (hdepth : 2 * (compactMembers (spelled fields)).length ≤ depth + 1) :
    scanMembers (depth + 1) (compactMembers (spelled fields) ++ rest) =
      some (spelled fields, rest) := by
  induction fields generalizing depth with
  | nil => exact absurd rfl hne
  | cons field fields ih =>
    rw [List.forall_mem_cons] at hfields
    cases fields with
    | nil =>
      simp only [spelled, List.map_cons, List.map_nil, compactMembers, List.length_append,
        List.length_cons] at hdepth ⊢
      obtain ⟨depth, rfl⟩ : ∃ d, depth = d + 1 := ⟨depth - 1, by omega⟩
      simp only [List.append_assoc, List.cons_append]
      exact scanMembers_last _ (hfields.1 depth _ (by omega) (by simp [Ends]))
    | cons next fields =>
      simp only [spelled, List.map_cons, compactMembers, List.length_append,
        List.length_cons] at hdepth ih ⊢
      obtain ⟨depth, rfl⟩ : ∃ d, depth = d + 1 := ⟨depth - 1, by omega⟩
      simp only [List.append_assoc, List.cons_append]
      exact scanMembers_next _ (hfields.1 depth _ (by omega) (by simp [Ends]))
        (ih (List.cons_ne_nil next fields) hfields.2 depth (by omega))

private theorem scans_ofFields {fields : List (String × Json)}
    (hfields : ∀ field ∈ fields, field.2.Scans) : (ofFields fields).Scans := by
  intro depth rest hdepth _
  change 2 * (compactChars (.object (spelled fields))).length ≤ _ at hdepth
  change scanValue _ (compactChars (.object (spelled fields)) ++ rest) =
    some (.object (spelled fields), rest)
  cases fields with
  | nil => rfl
  | cons field fields =>
    rw [compactChars, List.length_cons] at hdepth
    obtain ⟨depth, rfl⟩ : ∃ d, depth = d + 1 := ⟨depth - 1, by omega⟩
    have hscan :=
      scanMembers_compactMembers (List.cons_ne_nil field fields) hfields depth rest (by omega)
    obtain ⟨text, hmembers⟩ : ∃ text, compactMembers (spelled (field :: fields)) = '"' :: text := by
      cases fields <;> exact ⟨_, rfl⟩
    rw [compactChars, List.cons_append, scanValue, skipBlanks_cons (by decide)]
    rw [hmembers] at hscan ⊢
    simp only [List.cons_append] at hscan ⊢
    rw [skipBlanks_cons (by decide)]
    simp [hscan]

/-- A plain value is found at the front of its text. -/
theorem Plain.scans {value : Json} (h : value.Plain) : value.Scans := by
  induction h with
  | null => exact fun depth rest _ _ ↦ rfl
  | bool value => cases value <;> exact fun depth rest _ _ ↦ rfl
  | ofNat n => exact scans_ofNat n
  | ofText text => exact scans_ofText text
  | array hitems ih => exact scans_array hitems ih
  | ofFields _ ih => exact scans_ofFields ih

/-- A plain value is read back from its text. -/
theorem Plain.read?_compact {value : Json} (h : value.Plain) :
    read? value.compact = some value := by
  have hscan := h.scans (2 * value.compactChars.length + 1) [] (by omega) ends_nil
  rw [List.append_nil] at hscan
  simp [read?, compact, hscan, skipBlanks]

end Patchwork.Json
