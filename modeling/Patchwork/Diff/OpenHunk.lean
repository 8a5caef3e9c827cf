import Patchwork.Diff.Error
import Patchwork.Hunk
import Patchwork.Text.Blank
import Patchwork.Text.Cut
import Patchwork.Text.Number

/-!
# A hunk that is being read

A hunk's header says how many lines each side has. The lines after it are the hunk's until both
numbers are used up; a marker may follow any line of the body. Specification: hunk headers and body
lines in section 6.1, the starts of empty sides in section 4.2.
-/

namespace Patchwork.Diff

/-- The lines of a hunk read so far, and the numbers of lines still to come on either side. -/
structure OpenHunk where
  oldStart : UInt32
  newStart : UInt32
  oldLeft : Nat
  newLeft : Nat
  lines : List HunkLine
  deriving DecidableEq, Repr

/-- The start and the length of a range; the length is one when it is left out. -/
def range? (text : List Char) : Option (UInt32 × UInt32) :=
  match Text.cut? [','] text with
  | some (start, count) =>
    match Text.word? start, Text.word? count with
    | some start, some count => some (start, count)
    | _, _ => none
  | none => (Text.word? text).map (·, 1)

/-- The number of a side's first line. A side without lines is named by the line before it; the
greatest number stays as it is. -/
def firstLine (range : UInt32 × UInt32) : UInt32 :=
  if range.2 = 0 ∧ range.1.toNat + 1 < UInt32.size then range.1 + 1 else range.1

namespace OpenHunk

/-- The ranges in a header, still as they are spelled, signs taken off. -/
def spelledRanges? (line : List Char) : Option (List Char × List Char) :=
  match (Text.after? "@@ ".toList line).map fun rest ↦
      Text.words (Text.before " @@".toList rest) with
  | some ['-' :: old, '+' :: new] => some (old, new)
  | _ => none

/-- The hunk that a header opens. -/
def ofHeader (line : List Char) : Except Problem OpenHunk :=
  match spelledRanges? line with
  | none => .error (.malformedHeader (.ofList line))
  | some (old, new) =>
    match range? old with
    | none => .error (.malformedHeader (.ofList old))
    | some oldRange =>
      match range? new with
      | none => .error (.malformedHeader (.ofList new))
      | some newRange =>
        .ok ⟨firstLine oldRange, firstLine newRange, oldRange.2.toNat, newRange.2.toNat, []⟩

/-- Whether both sides have all their lines. -/
def isComplete (h : OpenHunk) : Bool := h.oldLeft = 0 && h.newLeft = 0

/-- Adds a line of the body, if its sides still want lines. -/
def add? (h : OpenHunk) (line : HunkLine) : Option OpenHunk :=
  if line.isOld && h.oldLeft = 0 || line.isNew && h.newLeft = 0 then none
  else
    some { h with
      oldLeft := if line.isOld then h.oldLeft - 1 else h.oldLeft
      newLeft := if line.isNew then h.newLeft - 1 else h.newLeft
      lines := h.lines ++ [line] }

/-- The line of a body as its first character tells it. An empty line is a context line whose
blank got lost. -/
def bodyLine? : List Char → Option HunkLine
  | [] => some (.context "")
  | ' ' :: text => some (.context (.ofList text))
  | '-' :: text => some (.remove (.ofList text))
  | '+' :: text => some (.add (.ofList text))
  | _ => none

/-- Adds a line of the body as it is spelled. -/
def push? (h : OpenHunk) (line : List Char) : Option OpenHunk :=
  (bodyLine? line).bind h.add?

/-- Marks the last line of the body, unless there is none or it is a marker. -/
def mark? (h : OpenHunk) : Option OpenHunk :=
  match h.lines.getLast? with
  | none | some .noNewline => none
  | some _ => some { h with lines := h.lines ++ [.noNewline] }

/-- The hunk as it has been read. -/
def hunk (h : OpenHunk) : Hunk := ⟨h.oldStart, h.newStart, h.lines⟩

end OpenHunk

end Patchwork.Diff
