import Patchwork.Proofs.Diff.Hunk
import Patchwork.Proofs.Lines.Raw

/-!
# The raw lines on the sides of a hunk

`Sides` says that the lines of a hunk stand for raw lines of the old and of the new file: a line's
text is the raw line without its newline, and a marker follows where there is none. What the hunk
says about its sides is then read off the raw lines, and the hunk can be printed.
-/

namespace Patchwork

/-- A raw line as the lines of a hunk have it, with the sign of its sides. -/
def HunkLine.spelled (sign : String → HunkLine) (line : List Char) : List HunkLine :=
  sign (.ofList (Lines.body line)) :: if Lines.isEnded line then [] else [.noNewline]

/-- The raw lines that hunk lines stand for on the old and on the new side. -/
inductive Sides : List HunkLine → (old new : List (List Char)) → Prop where
  | nil : Sides [] [] []
  | context {lines : List HunkLine} {old new : List (List Char)} (line : List Char)
      (h : Sides lines old new) :
      Sides (HunkLine.spelled .context line ++ lines) (line :: old) (line :: new)
  | remove {lines : List HunkLine} {old new : List (List Char)} (line : List Char)
      (h : Sides lines old new) : Sides (HunkLine.spelled .remove line ++ lines) (line :: old) new
  | add {lines : List HunkLine} {old new : List (List Char)} (line : List Char)
      (h : Sides lines old new) : Sides (HunkLine.spelled .add line ++ lines) old (line :: new)

namespace Sides

variable {lines : List HunkLine} {old new : List (List Char)}

/-- Undoing the lines swaps the sides. -/
theorem inverse (h : Sides lines old new) : Sides (lines.map HunkLine.inverse) new old := by
  have hspelled (sign : String → HunkLine) (line : List Char) :
      (HunkLine.spelled sign line).map HunkLine.inverse =
        HunkLine.spelled (fun text ↦ (sign text).inverse) line := by
    cases hended : Lines.isEnded line <;> simp [HunkLine.spelled, hended, HunkLine.inverse]
  induction h with
  | nil => exact .nil
  | context line _ ih =>
    rw [List.map_append, hspelled]
    exact .context line ih
  | remove line _ ih =>
    rw [List.map_append, hspelled]
    exact .add line ih
  | add line _ ih =>
    rw [List.map_append, hspelled]
    exact .remove line ih

/-- A marker is about a line, so it is never the first. -/
theorem head?_ne (h : Sides lines old new) : lines.head? ≠ some .noNewline := by
  cases h <;> simp [HunkLine.spelled]

/-- Hunk lines have as many lines on the old side as there are raw lines. -/
theorem length_filter_isOld (h : Sides lines old new) :
    (lines.filter HunkLine.isOld).length = old.length := by
  induction h with
  | nil => rfl
  | context line _ ih | remove line _ ih | add line _ ih =>
    cases hended : Lines.isEnded line <;>
      simp [HunkLine.spelled, hended, List.filter_cons, HunkLine.isOld, ih]

/-- Where there are hunk lines, there are raw lines on one of the sides. -/
theorem ne_nil_or_ne_nil (h : Sides lines old new) (hne : lines ≠ []) : old ≠ [] ∨ new ≠ [] := by
  cases h with
  | nil => exact absurd rfl hne
  | context line _ | remove line _ => exact .inl (List.cons_ne_nil _ _)
  | add line _ => exact .inr (List.cons_ne_nil _ _)

private def marks (lines : List HunkLine) : List HunkLine :=
  ((lines.zip lines.tail).filter fun pair ↦ pair.2 = .noNewline).map Prod.fst

/-- A line is marked when a marker comes next. -/
private theorem marks_cons (line : HunkLine) (lines : List HunkLine) :
    marks (line :: lines) =
      (if lines.head? = some .noNewline then [line] else []) ++ marks lines := by
  cases lines with
  | nil => rfl
  | cons next lines => by_cases h : next = .noNewline <;> simp [marks, h]

private theorem marks_spelled (sign : String → HunkLine) (line : List Char)
    (hlines : lines.head? ≠ some .noNewline) :
    marks (HunkLine.spelled sign line ++ lines) =
      (if Lines.isEnded line then [] else [sign (.ofList (Lines.body line))]) ++ marks lines := by
  cases hended : Lines.isEnded line <;>
    simp [HunkLine.spelled, hended, marks_cons, hlines]

/-- The old side lacks a newline when one of its raw lines does. -/
theorem oldMissingNewline_eq {h : Hunk} (hsides : Sides h.lines old new) :
    h.oldMissingNewline = old.any fun line ↦ !Lines.isEnded line := by
  have hmarks {lines : List HunkLine} {old new : List (List Char)} (h : Sides lines old new) :
      (marks lines).any HunkLine.isOld = old.any fun line ↦ !Lines.isEnded line := by
    induction h with
    | nil => rfl
    | context line hrest ih | remove line hrest ih | add line hrest ih =>
      rw [marks_spelled _ _ hrest.head?_ne, List.any_append, ih]
      cases hended : Lines.isEnded line <;> simp [HunkLine.isOld, hended]
  exact hmarks hsides

/-- The new side lacks a newline when one of its raw lines does. -/
theorem newMissingNewline_eq {h : Hunk} (hsides : Sides h.lines old new) :
    h.newMissingNewline = new.any fun line ↦ !Lines.isEnded line := by
  rw [← h.oldMissingNewline_inverse]
  exact oldMissingNewline_eq (h := h.inverse) hsides.inverse

/-- A hunk has lines on its old side when there are raw lines. -/
theorem hasOld_eq {h : Hunk} (hsides : Sides h.lines old new) : h.hasOld = !old.isEmpty := by
  have hlength := hsides.length_filter_isOld
  cases hany : h.hasOld with
  | false =>
    have hnone : h.lines.filter HunkLine.isOld = [] := by
      simpa [Hunk.hasOld, List.filter_eq_nil_iff] using hany
    rw [hnone, List.length_nil, eq_comm, List.length_eq_zero_iff] at hlength
    simp [hlength]
  | true =>
    cases old with
    | nil =>
      rw [List.length_nil, List.length_eq_zero_iff, List.filter_eq_nil_iff] at hlength
      obtain ⟨line, hline, hold⟩ := List.any_eq_true.1 hany
      exact absurd hold (hlength line hline)
    | cons line old => rfl

/-- No marker follows another. -/
private theorem not_infix (h : Sides lines old new) :
    ¬ [.noNewline, .noNewline] <:+: lines := by
  induction h with
  | nil => simp
  | context line hrest ih | remove line hrest ih | add line hrest ih =>
    have hprefix (l : List HunkLine) (hl : l.head? ≠ some .noNewline) :
        ¬ [.noNewline] <+: l := by
      rintro ⟨rest, rfl⟩
      exact hl rfl
    have hhead := hprefix _ hrest.head?_ne
    cases hended : Lines.isEnded line <;>
      simp [HunkLine.spelled, hended, List.infix_cons_iff, List.cons_prefix_cons, hhead, ih]

private theorem newline_notMem (h : Sides lines old new)
    (hold : ∀ line ∈ old, '\n' ∉ Lines.body line) (hnew : ∀ line ∈ new, '\n' ∉ Lines.body line) :
    ∀ line ∈ lines, ∀ text ∈ line.text?, '\n' ∉ text.toList := by
  have hspelled {sign : String → HunkLine} (hsign : ∀ text, (sign text).text? = some text)
      {line : List Char} (hline : '\n' ∉ Lines.body line) :
      ∀ other ∈ HunkLine.spelled sign line, ∀ text ∈ other.text?, '\n' ∉ text.toList := by
    have hmarker : HunkLine.noNewline.text? = none := rfl
    cases hended : Lines.isEnded line <;>
      simp [HunkLine.spelled, hended, hsign, hline, hmarker]
  induction h with
  | nil => exact fun _ h ↦ absurd h List.not_mem_nil
  | context line _ ih =>
    rw [List.forall_mem_cons] at hold hnew
    exact List.forall_mem_append.2 ⟨hspelled (fun _ ↦ rfl) hold.1, ih hold.2 hnew.2⟩
  | remove line _ ih =>
    rw [List.forall_mem_cons] at hold
    exact List.forall_mem_append.2 ⟨hspelled (fun _ ↦ rfl) hold.1, ih hold.2 hnew⟩
  | add line _ ih =>
    rw [List.forall_mem_cons] at hnew
    exact List.forall_mem_append.2 ⟨hspelled (fun _ ↦ rfl) hnew.1, ih hold hnew.2⟩

/-- A hunk that stands for raw lines can be printed, if it is not too long for its numbers. -/
theorem printable {h : Hunk} (hsides : Sides h.lines old new)
    (hold : ∀ line ∈ old, '\n' ∉ Lines.body line) (hnew : ∀ line ∈ new, '\n' ∉ Lines.body line)
    (holdStart : 0 < h.oldStart.toNat) (hnewStart : 0 < h.newStart.toNat)
    (holdLength : h.oldLines.length < UInt32.size) (hnewLength : h.newLines.length < UInt32.size) :
    h.Printable :=
  ⟨hsides.newline_notMem hold hnew, hsides.head?_ne, hsides.not_infix, fun _ ↦ holdStart,
    fun _ ↦ hnewStart, holdLength, hnewLength⟩

end Sides

end Patchwork
