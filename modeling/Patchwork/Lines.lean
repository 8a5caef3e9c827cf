/-!
# Lines and their endings

A text is cut after every newline. The first newline decides the style of the whole text: when
a carriage return stands before it, the carriage return in front of any newline belongs to the
line's ending, and otherwise it belongs to the line. Main statement: `join_cut`, nothing is lost.
Specification: section 4.1, how `decompose` and the reader of diffs split a text.
-/

namespace Patchwork

/-- How a line ends; `undetermined` where no newline has been seen. -/
inductive LineEnding where
  | undetermined
  | lf
  | crlf
  deriving DecidableEq, Repr, Inhabited

namespace LineEnding

/-- What is written at the end of a line; a newline where the ending is undetermined. -/
def chars : LineEnding → List Char
  | undetermined | lf => ['\n']
  | crlf => ['\r', '\n']

end LineEnding

namespace Lines

/-- The lines that a newline ends, without it, and what follows the last newline. -/
def cut (text : List Char) : List (List Char) × List Char :=
  ((text.splitOn '\n').dropLast, (text.splitOn '\n').getLastD [])

/-- The text whose newline-ended lines are `lines` and that goes on with `rest`. -/
def join : (lines : List (List Char)) → (rest : List Char) → List Char
  | [], rest => rest
  | line :: lines, rest => line ++ '\n' :: join lines rest

/-- The style that the first of the newline-ended lines sets. -/
def style : List (List Char) → LineEnding
  | [] => .undetermined
  | line :: _ => if line.getLast? = some '\r' then .crlf else .lf

/-- A newline-ended line parted from its ending, in a text of the given style. -/
def part (style : LineEnding) (line : List Char) : String × LineEnding :=
  if style = .crlf ∧ line.getLast? = some '\r' then (.ofList line.dropLast, .crlf)
  else (.ofList line, .lf)

/-- Every line of a text with its ending; a last line that no newline ends has the style's. -/
def ofChars (text : List Char) : List (String × LineEnding) :=
  let lines := (cut text).1
  let rest := (cut text).2
  lines.map (part (style lines)) ++
    if rest = [] then [] else [(.ofList rest, style lines)]

/-- An empty text has no lines. -/
@[simp] theorem cut_nil : cut [] = ([], []) := rfl

/-- A newline at the front ends an empty line. -/
@[simp] theorem cut_newline_cons (text : List Char) :
    cut ('\n' :: text) = ([] :: (cut text).1, (cut text).2) := by
  have hne : text.splitOn '\n' ≠ [] := List.splitOnP_ne_nil _ _
  simp [cut, List.splitOn_eq_splitOnP, List.splitOnP_cons_eq_if_modifyHead] at hne ⊢
  cases h : text.splitOnP (· == '\n') <;> simp_all

/-- Any other character goes to the front of the first line, or to the unended rest. -/
theorem cut_cons {c : Char} (hc : c ≠ '\n') (text : List Char) :
    cut (c :: text) =
      match cut text with
      | ([], rest) => ([], c :: rest)
      | (line :: lines, rest) => ((c :: line) :: lines, rest) := by
  have hne : text.splitOn '\n' ≠ [] := List.splitOnP_ne_nil _ _
  simp only [cut, List.splitOn_eq_splitOnP, List.splitOnP_cons_eq_if_modifyHead, beq_iff_eq, hc]
    at hne ⊢
  rcases h : text.splitOnP (· == '\n') with _ | ⟨piece, _ | ⟨next, pieces⟩⟩ <;> simp_all

/-- Cutting loses nothing. -/
theorem join_cut (text : List Char) : join (cut text).1 (cut text).2 = text := by
  induction text with
  | nil => rfl
  | cons c text ih =>
    by_cases hc : c = '\n'
    · simp [hc, join, ih]
    · rw [cut_cons hc]
      rcases h : cut text with ⟨_ | ⟨line, lines⟩, rest⟩ <;> simpa [h, join] using ih

/-- No line holds a newline, and neither does what follows the last one. -/
theorem newline_notMem_cut (text : List Char) :
    (∀ line ∈ (cut text).1, '\n' ∉ line) ∧ '\n' ∉ (cut text).2 := by
  induction text with
  | nil => simp
  | cons c text ih =>
    by_cases hc : c = '\n'
    · simpa [hc] using ih
    · rw [cut_cons hc]
      rcases h : cut text with ⟨_ | ⟨line, lines⟩, rest⟩ <;> simpa [h, Ne.symm hc] using ih

end Lines

end Patchwork
