import Patchwork.Lines

/-!
# Cutting joined lines

Joining lines and cutting the text again gives the lines back, as long as none of them holds a
newline. A text whose first line does not end with a carriage return is not of `crlf` style, so
its lines come back with every carriage return they had.
-/

namespace Patchwork.Lines

/-- What holds no newline goes to the front of the first line, or of the unended rest. -/
theorem cut_append_of_notMem {lead : List Char} (h : '\n' ∉ lead) (text : List Char) :
    cut (lead ++ text) =
      match cut text with
      | ([], rest) => ([], lead ++ rest)
      | (line :: lines, rest) => ((lead ++ line) :: lines, rest) := by
  induction lead with
  | nil =>
    rw [List.nil_append]
    rcases cut text with ⟨_ | ⟨line, lines⟩, rest⟩ <;> rfl
  | cons c lead ih =>
    rw [List.mem_cons, not_or] at h
    rw [List.cons_append, cut_cons (Ne.symm h.1), ih h.2]
    rcases cut text with ⟨_ | ⟨line, lines⟩, rest⟩ <;> rfl

/-- A text without newlines is one line that nothing ends. -/
theorem cut_of_notMem {text : List Char} (h : '\n' ∉ text) : cut text = ([], text) := by
  simpa using cut_append_of_notMem h []

/-- The first newline ends the first line. -/
theorem cut_append_newline_cons {line : List Char} (h : '\n' ∉ line) (text : List Char) :
    cut (line ++ '\n' :: text) = (line :: (cut text).1, (cut text).2) := by
  simpa using cut_append_of_notMem h ('\n' :: text)

/-- Lines that were joined are cut apart again. -/
theorem cut_join {lines : List (List Char)} {rest : List Char}
    (hlines : ∀ line ∈ lines, '\n' ∉ line) (hrest : '\n' ∉ rest) :
    cut (join lines rest) = (lines, rest) := by
  induction lines with
  | nil => exact cut_of_notMem hrest
  | cons line lines ih =>
    rw [join, cut_append_newline_cons (hlines line List.mem_cons_self),
      ih fun other h ↦ hlines other (List.mem_cons_of_mem line h)]

/-- Joining lines of two lists is joining the second list after the first. -/
theorem join_append (lines others : List (List Char)) (rest : List Char) :
    join (lines ++ others) rest = join lines (join others rest) := by
  induction lines with
  | nil => rfl
  | cons line lines ih => rw [List.cons_append, join, join, ih]

/-- What follows the last newline comes after all lines. -/
theorem join_eq_append (lines : List (List Char)) (rest : List Char) :
    join lines rest = join lines [] ++ rest := by
  induction lines with
  | nil => rfl
  | cons line lines ih => rw [join, join, ih, List.append_assoc, List.cons_append]

/-- Joining what several lists hold is joining them one by one. -/
theorem join_flatMap {α : Type} (f : α → List (List Char)) (xs : List α) :
    join (xs.flatMap f) [] = xs.flatMap fun x ↦ join (f x) [] := by
  induction xs with
  | nil => rfl
  | cons x xs ih => rw [List.flatMap_cons, List.flatMap_cons, join_append, join_eq_append, ih]

/-- Lines with a newline between any two and one behind the last are joined. -/
theorem intercalate_append_newline {lines : List (List Char)} (h : lines ≠ []) :
    ['\n'].intercalate lines ++ ['\n'] = join lines [] := by
  induction lines with
  | nil => exact absurd rfl h
  | cons line lines ih =>
    cases lines with
    | nil => simp [join]
    | cons next lines =>
      rw [List.intercalate_cons_cons, join, ← ih (List.cons_ne_nil next lines)]
      simp only [List.append_assoc, List.cons_append, List.nil_append]

/-- Lines with a newline between any two, the last of which is not ended. -/
theorem intercalate_concat (lines : List (List Char)) (rest : List Char) :
    ['\n'].intercalate (lines ++ [rest]) = join lines rest := by
  have hended : ['\n'].intercalate (lines ++ [rest]) ++ ['\n'] = join lines rest ++ ['\n'] := by
    rw [intercalate_append_newline (by simp), join_append, join_eq_append lines (join [rest] []),
      join_eq_append lines rest, List.append_assoc]
    rfl
  exact List.append_cancel_right hended

/-- A joined text ends as what follows its last newline, or else with that newline. -/
theorem getLast?_join (lines : List (List Char)) (rest : List Char) :
    (join lines rest).getLast? = rest.getLast?.or (if lines = [] then none else some '\n') := by
  induction lines with
  | nil => simp [join]
  | cons line lines ih =>
    rw [join, List.getLast?_append, List.getLast?_cons, ih]
    cases rest.getLast? <;> by_cases h : lines = [] <;> simp [h]

/-- A text ends with a newline when it has lines and nothing follows the last of them. -/
theorem getLast?_eq_newline_iff (text : List Char) :
    text.getLast? = some '\n' ↔ (cut text).1 ≠ [] ∧ (cut text).2 = [] := by
  have hrest := (newline_notMem_cut text).2
  conv => lhs; rw [← join_cut text, getLast?_join]
  cases h : (cut text).2.getLast? with
  | none => by_cases hlines : (cut text).1 = [] <;> simp_all
  | some c =>
    have hmem := List.mem_of_getLast? h
    have hne : (cut text).2 ≠ [] := List.ne_nil_of_mem hmem
    simp only [Option.some_or, Option.some.injEq, hne, and_false, iff_false]
    rintro rfl
    exact hrest hmem

/-- The lines hold no characters but those of the text. -/
theorem mem_join {lines : List (List Char)} {line : List Char} {c : Char} (hline : line ∈ lines)
    (hc : c ∈ line) (rest : List Char) : c ∈ join lines rest := by
  induction lines with
  | nil => cases hline
  | cons first lines ih =>
    rw [join, List.mem_append, List.mem_cons]
    obtain rfl | hline := List.mem_cons.1 hline
    · exact .inl hc
    · exact .inr (.inr (ih hline))

/-- A text that ends with a newline is cut on its own. -/
theorem cut_append {text : List Char} (h : (cut text).2 = []) (other : List Char) :
    cut (text ++ other) = ((cut text).1 ++ (cut other).1, (cut other).2) := by
  obtain ⟨hlines, -⟩ := newline_notMem_cut text
  obtain ⟨hothers, hrest⟩ := newline_notMem_cut other
  have hjoin : text ++ other = join ((cut text).1 ++ (cut other).1) (cut other).2 := by
    rw [join_append, join_cut other, join_eq_append, ← h, join_cut text]
  rw [hjoin, cut_join (List.forall_mem_append.2 ⟨hlines, hothers⟩) hrest]

/-- The style is not `crlf` exactly when the first line keeps its carriage return, or has none. -/
theorem style_cons_ne_crlf {line : List Char} {lines : List (List Char)} :
    style (line :: lines) ≠ .crlf ↔ line.getLast? ≠ some '\r' := by
  unfold style
  split <;> simp_all

/-- Outside the `crlf` style a line is whole when its newline is gone. -/
theorem part_of_ne_crlf {s : LineEnding} (h : s ≠ .crlf) (line : List Char) :
    part s line = (.ofList line, .lf) := by
  simp [part, h]

end Patchwork.Lines
