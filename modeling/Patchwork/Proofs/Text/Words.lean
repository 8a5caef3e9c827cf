import Mathlib.Data.List.TakeWhile
import Patchwork.Text.Blank

/-!
# The words of a text

The words of a text are the runs of characters between its blanks. A text without words is blank
(`words_eq_nil_iff`), and any other is its first word, with blanks in front of it, and what the
other words are the words of (`words_eq_cons_iff`).
-/

namespace Patchwork.Text

/-- Every character of the text is blank. -/
def Blank (text : List Char) : Prop := ∀ c ∈ text, isBlank c = true

instance (text : List Char) : Decidable (Blank text) :=
  decidable_of_iff (text.all isBlank = true) List.all_eq_true

/-- The text is a run of characters that are not blank. -/
def Word (text : List Char) : Prop := text ≠ [] ∧ ∀ c ∈ text, isBlank c = false

variable {c : Char} {text word lead rest : List Char} {others : List (List Char)}

private theorem words_cons_of_isBlank (hc : isBlank c = true) (text : List Char) :
    words (c :: text) = words text := by
  have hsplit : (c :: text).splitOnP isBlank = [] :: text.splitOnP isBlank :=
    List.splitOnP_append_cons_of_forall_mem (fun _ h ↦ absurd h List.not_mem_nil) c hc text
  rw [words, hsplit]
  rfl

/-- Blanks in front of a text are not among its words. -/
theorem words_append_of_blank (hlead : Blank lead) (text : List Char) :
    words (lead ++ text) = words text := by
  induction lead with
  | nil => rfl
  | cons c lead ih =>
    rw [Blank, List.forall_mem_cons] at hlead
    rw [List.cons_append, words_cons_of_isBlank hlead.1, ih hlead.2]

/-- A word at the front of a text is its first, where a blank or nothing comes behind it. -/
theorem words_append_of_word (hword : Word word) (hrest : ∀ c ∈ rest.head?, isBlank c = true) :
    words (word ++ rest) = word :: words rest := by
  cases rest with
  | nil =>
    rw [List.append_nil, words, List.splitOnP_eq_singleton hword.2]
    simp [words, hword.1]
  | cons c rest =>
    have hc : isBlank c = true := hrest c rfl
    rw [words_cons_of_isBlank hc, words, List.splitOnP_append_cons_of_forall_mem hword.2 c hc]
    simp [words, hword.1]

theorem words_of_blank (h : Blank text) : words text = [] := by
  have happend := words_append_of_blank h []
  rwa [List.append_nil] at happend

private theorem head?_dropWhile {p : Char → Bool} (text : List Char) :
    ∀ c ∈ (text.dropWhile p).head?, p c = false := by
  intro c hc
  have hhead := List.head?_dropWhile_not p text
  rwa [Option.mem_def.1 hc] at hhead

/-- A text is blank, or it has a first word. -/
private theorem blank_or_exists_word (text : List Char) :
    Blank text ∨ ∃ lead word rest, text = lead ++ (word ++ rest) ∧ Blank lead ∧ Word word ∧
      ∀ c ∈ rest.head?, isBlank c = true := by
  have hlead : Blank (text.takeWhile isBlank) := fun c hc ↦ List.mem_takeWhile_imp hc
  have htext := List.takeWhile_append_dropWhile (p := isBlank) (l := text)
  have hhead := head?_dropWhile (p := isBlank) text
  generalize text.dropWhile isBlank = behind at htext hhead
  cases behind with
  | nil =>
    rw [List.append_nil] at htext
    exact .inl (htext ▸ hlead)
  | cons d behind =>
    have hd : isBlank d = false := hhead d rfl
    refine .inr ⟨_, (d :: behind).takeWhile fun c ↦ !isBlank c,
      (d :: behind).dropWhile fun c ↦ !isBlank c, ?_, hlead, ⟨?_, fun c hc ↦ ?_⟩, fun c hc ↦ ?_⟩
    · rw [List.takeWhile_append_dropWhile, htext]
    · simp [hd]
    · simpa using List.mem_takeWhile_imp hc
    · simpa using head?_dropWhile _ c hc

theorem words_eq_nil_iff : words text = [] ↔ Blank text := by
  refine ⟨fun h ↦ (blank_or_exists_word text).resolve_right ?_, words_of_blank⟩
  rintro ⟨lead, word, rest, rfl, hlead, hword, hrest⟩
  rw [words_append_of_blank hlead, words_append_of_word hword hrest] at h
  exact List.cons_ne_nil _ _ h

/-- A text has a first word when it begins with that word, but for blanks, and the word ends
there. -/
theorem words_eq_cons_iff :
    words text = word :: others ↔
      ∃ lead rest, text = lead ++ (word ++ rest) ∧ Blank lead ∧ Word word ∧
        (∀ c ∈ rest.head?, isBlank c = true) ∧ words rest = others := by
  constructor
  · intro h
    obtain hblank | ⟨lead, first, rest, rfl, hlead, hfirst, hrest⟩ := blank_or_exists_word text
    · rw [words_of_blank hblank] at h
      cases h
    · rw [words_append_of_blank hlead, words_append_of_word hfirst hrest] at h
      cases h
      exact ⟨lead, rest, rfl, hlead, hfirst, hrest, rfl⟩
  · rintro ⟨lead, rest, rfl, hlead, hword, hrest, rfl⟩
    rw [words_append_of_blank hlead, words_append_of_word hword hrest]

/-- A text has two words when blanks stand between them, and otherwise nothing but blanks around
them. -/
theorem words_eq_pair_iff {first second : List Char} :
    words text = [first, second] ↔
      ∃ lead gap trail, text = lead ++ (first ++ (gap ++ (second ++ trail))) ∧ Blank lead ∧
        Blank gap ∧ gap ≠ [] ∧ Blank trail ∧ Word first ∧ Word second := by
  constructor
  · intro h
    obtain ⟨lead, rest, rfl, hlead, hfirst, hend, hwords⟩ := words_eq_cons_iff.1 h
    obtain ⟨gap, trail, rfl, hgap, hsecond, -, htrail⟩ := words_eq_cons_iff.1 hwords
    refine ⟨lead, gap, trail, rfl, hlead, hgap, ?_, words_eq_nil_iff.1 htrail, hfirst, hsecond⟩
    rintro rfl
    obtain ⟨c, others, rfl⟩ := List.exists_cons_of_ne_nil hsecond.1
    exact absurd (hend c rfl) (by simp [hsecond.2 c List.mem_cons_self])
  · rintro ⟨lead, gap, trail, rfl, hlead, hgap, hne, htrail, hfirst, hsecond⟩
    have hblank : ∀ c ∈ trail.head?, isBlank c = true := fun c hc ↦
      htrail c (List.mem_of_head? hc)
    refine words_eq_cons_iff.2 ⟨lead, _, rfl, hlead, hfirst, fun c hc ↦ ?_, ?_⟩
    · obtain ⟨d, gap, rfl⟩ := List.exists_cons_of_ne_nil hne
      cases hc
      exact hgap _ List.mem_cons_self
    · exact words_eq_cons_iff.2 ⟨gap, trail, rfl, hgap, hsecond, hblank, words_of_blank htrail⟩

/-- No digit is blank. -/
theorem isBlank_of_isDigit (h : c.isDigit = true) : isBlank c = false := by
  simp only [Char.isDigit, Bool.and_eq_true, decide_eq_true_eq, ge_iff_le,
    UInt32.le_iff_toNat_le] at h
  have hnat : c.toNat = c.val.toNat := rfl
  have h0 : '0'.val.toNat = 48 := rfl
  have h9 : '9'.val.toNat = 57 := rfl
  simp only [isBlank, blankRuns, List.any_cons, List.any_nil, Bool.or_false, Bool.or_eq_false_iff,
    Bool.and_eq_false_iff, decide_eq_false_iff_not]
  omega

end Patchwork.Text
