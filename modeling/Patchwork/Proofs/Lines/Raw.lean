import Patchwork.LineSet
import Patchwork.Proofs.Lines.Cut

/-!
# The raw lines of a text

A raw line keeps the newline that ends it. The raw lines of a text make up the text
(`flatten_raw`), and at most the last of them is without a newline (`Proper`).
-/

namespace Patchwork

namespace Lines

/-- Whether a newline ends the raw line. -/
def isEnded (line : List Char) : Bool := line.getLast? == some '\n'

/-- The raw line without the newline that ends it. -/
def body (line : List Char) : List Char := if isEnded line then line.dropLast else line

/-- The raw lines of a text. -/
def raw (text : List Char) : List (List Char) :=
  (cut text).1.map (· ++ ['\n']) ++ if (cut text).2 = [] then [] else [(cut text).2]

/-- Raw lines as a text has them: a newline stands at the end of a line and nowhere else, and only
the last line can be without one. -/
structure Proper (lines : List (List Char)) : Prop where
  newline_notMem_body : ∀ line ∈ lines, '\n' ∉ body line
  isEnded_of_mem_dropLast : ∀ line ∈ lines.dropLast, isEnded line = true

/-- A carriage return stands before the newline that ends the line, and at the end of no other. -/
def EndsInCrlf (line : List Char) : Prop := (body line).getLast? = some '\r' ↔ isEnded line = true

instance (line : List Char) : Decidable (EndsInCrlf line) := inferInstanceAs (Decidable (_ ↔ _))

@[simp] theorem isEnded_append_newline (line : List Char) : isEnded (line ++ ['\n']) = true := by
  simp [isEnded]

@[simp] theorem body_append_newline (line : List Char) : body (line ++ ['\n']) = line := by
  simp [body]

/-- A line without newlines is not ended. -/
theorem isEnded_of_notMem {line : List Char} (h : '\n' ∉ line) : isEnded line = false := by
  rw [isEnded, beq_eq_false_iff_ne]
  exact fun hlast ↦ h (List.mem_of_getLast? hlast)

theorem body_of_notMem {line : List Char} (h : '\n' ∉ line) : body line = line := by
  simp [body, isEnded_of_notMem h]

/-- A raw line is its body and the newline, if it has one. -/
theorem body_append (line : List Char) :
    body line ++ (if isEnded line then ['\n'] else []) = line := by
  cases h : isEnded line with
  | false => simp [body, h]
  | true =>
    rw [isEnded, beq_iff_eq] at h
    obtain ⟨front, rfl⟩ := List.getLast?_eq_some_iff.1 h
    simp

/-- The raw lines make up the text. -/
theorem flatten_raw (text : List Char) : (raw text).flatten = text := by
  have hflatten (lines : List (List Char)) (rest : List Char) :
      (lines.map (· ++ ['\n']) ++ if rest = [] then [] else [rest]).flatten = join lines rest := by
    induction lines with
    | nil => by_cases h : rest = [] <;> simp [h, join]
    | cons line lines ih => simp_all [join]
  exact (hflatten _ _).trans (join_cut text)

/-- A text has its raw lines as they should be. -/
theorem proper_raw (text : List Char) : Proper (raw text) := by
  obtain ⟨hlines, hrest⟩ := newline_notMem_cut text
  constructor
  · intro line hline
    rcases List.mem_append.1 hline with hline | hline
    · obtain ⟨front, hfront, rfl⟩ := List.mem_map.1 hline
      rw [body_append_newline]
      exact hlines front hfront
    · split at hline
      · exact absurd hline List.not_mem_nil
      · rw [List.mem_singleton.1 hline, body_of_notMem hrest]
        exact hrest
  · intro line hline
    have hmem : line ∈ (cut text).1.map (· ++ ['\n']) := by
      rw [raw] at hline
      split at hline
      · exact List.dropLast_subset _ (by simpa using hline)
      · simpa using hline
    obtain ⟨front, _, rfl⟩ := List.mem_map.1 hmem
    exact isEnded_append_newline front

/-- A text ends with a newline exactly when its last raw line does. -/
theorem isEnded_getLast_raw {text : List Char} (h : raw text ≠ []) :
    isEnded ((raw text).getLast h) = (text.getLast? == some '\n') := by
  have hne : ∀ line ∈ raw text, line ≠ [] := by
    intro line hline
    rcases List.mem_append.1 hline with hline | hline
    · obtain ⟨front, _, rfl⟩ := List.mem_map.1 hline
      simp
    · split at hline
      · exact absurd hline List.not_mem_nil
      · next hrest => rwa [List.mem_singleton.1 hline]
  have hlast := hne _ (List.getLast_mem h)
  have htext : text = (raw text).dropLast.flatten ++ (raw text).getLast h := by
    conv => lhs; rw [← flatten_raw text, ← List.dropLast_concat_getLast h]
    simp
  rw [isEnded]
  conv => rhs; rw [htext, List.getLast?_append, List.getLast?_eq_some_getLast hlast]
  rw [List.getLast?_eq_some_getLast hlast]
  rfl

namespace Proper

variable {lines others : List (List Char)}

theorem of_append_left (h : Proper (lines ++ others)) : Proper lines := by
  refine ⟨fun line hline ↦ h.newline_notMem_body line (List.mem_append_left others hline), ?_⟩
  intro line hline
  refine h.isEnded_of_mem_dropLast line ?_
  by_cases hne : others = []
  · rwa [hne, List.append_nil]
  · rw [List.dropLast_append_of_ne_nil hne]
    exact List.mem_append_left _ (List.dropLast_subset _ hline)

theorem of_append_right (h : Proper (lines ++ others)) : Proper others := by
  refine ⟨fun line hline ↦ h.newline_notMem_body line (List.mem_append_right lines hline), ?_⟩
  intro line hline
  have hne : others ≠ [] := by rintro rfl; exact absurd hline (by simp)
  refine h.isEnded_of_mem_dropLast line ?_
  rw [List.dropLast_append_of_ne_nil hne]
  exact List.mem_append_right lines hline

/-- Lines that others follow are ended. -/
theorem isEnded_of_append (h : Proper (lines ++ others)) (hne : others ≠ []) :
    ∀ line ∈ lines, isEnded line = true := by
  intro line hline
  refine h.isEnded_of_mem_dropLast line ?_
  rw [List.dropLast_append_of_ne_nil hne]
  exact List.mem_append_left _ hline

/-- Some line is not ended exactly when the last is not. -/
theorem any_not_isEnded (h : Proper lines) (hne : lines ≠ []) :
    lines.any (fun line ↦ !isEnded line) = !isEnded (lines.getLast hne) := by
  obtain ⟨front, last, rfl⟩ : ∃ front last, lines = front ++ [last] :=
    ⟨_, _, (List.dropLast_concat_getLast hne).symm⟩
  have hfront := h.isEnded_of_append (List.cons_ne_nil last [])
  have hany : front.any (fun line ↦ !isEnded line) = false := by
    rw [List.any_eq_false]
    intro line hline
    simp [hfront line hline]
  simp [List.any_append, hany]

end Proper

end Lines

end Patchwork
