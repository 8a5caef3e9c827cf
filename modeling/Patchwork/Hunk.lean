/-!
# Hunks

A hunk is a block of lines with a place for it in the old and in the new file. Each line stands
on the old side, on the new side, or on both; a marker says that the line before it has no
newline. `Hunk.inverse` undoes a hunk by swapping the sides. Specification: `Hunk` and Inversion in
section 3.
-/

namespace Patchwork

/-- One line of a hunk's body. -/
inductive HunkLine where
  | context (text : String)
  | remove (text : String)
  | add (text : String)
  | noNewline
  deriving DecidableEq, Repr, Inhabited

namespace HunkLine

/-- The line's text; the marker has none. -/
def text? : HunkLine → Option String
  | context text | remove text | add text => some text
  | noNewline => none

/-- Lines that the file holds before the hunk is applied. -/
def isOld : HunkLine → Bool
  | context _ | remove _ => true
  | add _ | noNewline => false

/-- Lines that the file holds after the hunk is applied. -/
def isNew : HunkLine → Bool
  | context _ | add _ => true
  | remove _ | noNewline => false

/-- Added and removed lines trade places. -/
def inverse : HunkLine → HunkLine
  | add text => remove text
  | remove text => add text
  | line => line

/-- The line as a diff shows it. -/
def format : HunkLine → String
  | context text => " " ++ text
  | remove text => "-" ++ text
  | add text => "+" ++ text
  | noNewline => "\\ No newline at end of file"

@[simp] theorem inverse_inverse (line : HunkLine) : line.inverse.inverse = line := by
  cases line <;> rfl

@[simp] theorem isOld_inverse (line : HunkLine) : line.inverse.isOld = line.isNew := by
  cases line <;> rfl

@[simp] theorem isNew_inverse (line : HunkLine) : line.inverse.isNew = line.isOld := by
  cases line <;> rfl

@[simp] theorem inverse_eq_noNewline_iff (line : HunkLine) :
    line.inverse = noNewline ↔ line = noNewline := by
  cases line <;> simp [inverse]

end HunkLine

/-- A block of lines and the numbers of its first line on either side, counted from one. The
number on the new side counts the file as the hunks before it leave it. -/
structure Hunk where
  oldStart : UInt32
  newStart : UInt32
  lines : List HunkLine
  deriving DecidableEq, Repr, Inhabited

namespace Hunk

/-- The lines of the old side. -/
def oldLines (h : Hunk) : List HunkLine := h.lines.filter HunkLine.isOld

/-- The lines of the new side. -/
def newLines (h : Hunk) : List HunkLine := h.lines.filter HunkLine.isNew

/-- Whether some line stands on the old side. -/
def hasOld (h : Hunk) : Bool := h.lines.any HunkLine.isOld

/-- Whether some line stands on the new side. -/
def hasNew (h : Hunk) : Bool := h.lines.any HunkLine.isNew

/-- The lines that a marker follows. -/
def marked (h : Hunk) : List HunkLine :=
  ((h.lines.zip h.lines.tail).filter fun pair ↦ pair.2 = .noNewline).map Prod.fst

/-- Whether the old side ends without a newline. -/
def oldMissingNewline (h : Hunk) : Bool := h.marked.any HunkLine.isOld

/-- Whether the new side ends without a newline. -/
def newMissingNewline (h : Hunk) : Bool := h.marked.any HunkLine.isNew

/-- The index at which the hunk's first line sits in the file it is applied to. -/
def anchor (h : Hunk) : Nat := h.newStart.toNat - 1

/-- The hunk that undoes this one. Markers keep following the line they are about. Models
`inverted` of section 3. -/
def inverse (h : Hunk) : Hunk :=
  ⟨h.newStart, h.oldStart, h.lines.map HunkLine.inverse⟩

/-- The number printed for a side's start: a side without lines is named by the line before. -/
def printedStart (start : UInt32) (count : Nat) : Nat :=
  if count = 0 then start.toNat - 1 else start.toNat

/-- The line that opens the hunk in a diff. -/
def header (h : Hunk) : String :=
  let old := h.oldLines.length
  let new := h.newLines.length
  s!"@@ -{printedStart h.oldStart old},{old} +{printedStart h.newStart new},{new} @@"

/-- The hunk as a diff shows it. -/
def format (h : Hunk) : String :=
  h.header ++ "\n" ++ "\n".intercalate (h.lines.map HunkLine.format)

@[simp] theorem inverse_inverse (h : Hunk) : h.inverse.inverse = h := by
  simp [inverse, Function.comp_def]

@[simp] theorem hasNew_inverse (h : Hunk) : h.inverse.hasNew = h.hasOld := by
  simp [hasOld, hasNew, inverse, Function.comp_def]

/-- The inverse marks the inverses of the lines that were marked. -/
theorem marked_inverse (h : Hunk) : h.inverse.marked = h.marked.map HunkLine.inverse := by
  simp [marked, inverse, ← List.map_tail, List.zip_map, List.filter_map, Function.comp_def]

@[simp] theorem oldMissingNewline_inverse (h : Hunk) :
    h.inverse.oldMissingNewline = h.newMissingNewline := by
  simp [oldMissingNewline, newMissingNewline, marked_inverse, Function.comp_def]

@[simp] theorem newMissingNewline_inverse (h : Hunk) :
    h.inverse.newMissingNewline = h.oldMissingNewline := by
  simp [oldMissingNewline, newMissingNewline, marked_inverse, Function.comp_def]

end Hunk

end Patchwork
