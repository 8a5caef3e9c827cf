import Patchwork.Diff.Notation
import Patchwork.Diff.OpenHunk
import Patchwork.Diff.Section
import Patchwork.Lines

/-!
# Reading a unified diff

A diff is read line by line. `Reader` is what has been understood so far: finished sections, the
section and the hunk that are open. `Diff.parse` gives the document that a text stands for, and
`Diff.events` what there is to report about it, whether or not it could be read to its end.
Specification: section 6.1 (Patch Parser).
-/

namespace Patchwork.Diff

/-- What has been understood of a diff so far. -/
structure Reader where
  finished : List Reading
  current : Option Section
  hunk : Option OpenHunk
  deriving DecidableEq, Repr

namespace Reader

/-- Nothing has been read. -/
def start : Reader := ⟨[], none, none⟩

/-- The changes of the finished sections. -/
def changes (r : Reader) : List FileChange := r.finished.filterMap Reading.change?

/-- What there is to report of the finished sections. -/
def events (r : Reader) : List Event := r.finished.filterMap Reading.event?

/-- Changes the open section, if there is one. -/
def note (r : Reader) (f : Section → Section) : Reader :=
  { r with current := r.current.map f }

/-- Puts the open hunk into its section. -/
def closeHunk (r : Reader) : Reader :=
  match r.hunk with
  | none => r
  | some h => { r.note fun s ↦ { s with hunks := s.hunks ++ [h.hunk] } with hunk := none }

/-- Finishes the open section. -/
def closeSection (r : Reader) : Except Problem Reader :=
  match r.current with
  | none => .ok r
  | some s => s.reading.map fun reading ↦ ⟨r.finished ++ [reading], none, r.hunk⟩

/-- Opens a section after finishing the one before. -/
def openSection (r : Reader) (header : Option (Path × Path)) : Except Problem Reader :=
  r.closeSection.map fun r ↦ { r with current := some (.opened header) }

/-- Reads a line outside the hunks. -/
def readNotation (r : Reader) : Notation → Except Problem Reader
  | .section files => r.openSection files
  | .hunk line =>
    if r.current.isNone then .error .headerOutsideSection
    else (OpenHunk.ofHeader line).map fun h ↦ { r with hunk := some h }
  | .oldFile path =>
    let r :=
      if r.current.all Section.hasBegun then r.openSection none else .ok r
    r.map (·.note fun s ↦ { s with oldFile := .of path })
  | .newFile path => .ok (r.note fun s ↦ { s with newFile := .of path })
  | .created => .ok (r.note fun s ↦ { s with created := true })
  | .deleted => .ok (r.note fun s ↦ { s with deleted := true })
  | .renameFrom path => .ok (r.note fun s ↦ { s with renameFrom := some path })
  | .renameTo path => .ok (r.note fun s ↦ { s with renameTo := some path })
  | .copyFrom path => .ok (r.note fun s ↦ { s with copyFrom := some path })
  | .copyTo path => .ok (r.note fun s ↦ { s with copyTo := some path })
  | .binary line =>
    let subject := (r.current.bind Section.anyPath).map Path.spelling
    .error (.binary (subject.getD (.ofList line)))
  | .other => .ok r

/-- Reads one line. -/
def step (r : Reader) (line : List Char) : Except Problem Reader :=
  match r.hunk with
  | none => r.readNotation (.ofLine line)
  | some h =>
    if line.head? = some '\\' then
      match h.mark? with
      | none => .error .misplacedMarker
      | some h => .ok { r with hunk := some h }
    else if h.isComplete then r.closeHunk.readNotation (.ofLine line)
    else
      match h.push? line with
      | none => .error (.unfittingLine (.ofList line))
      | some h => .ok { r with hunk := some h }

/-- Finishes what is open at the end of the diff. -/
def finish (r : Reader) : Except Problem Reader :=
  if r.hunk.all OpenHunk.isComplete then r.closeHunk.closeSection else .error .unfinishedHunk

/-- Reads lines to the end of the diff, `count` lines having been read before. Gives what has
been understood when the end or an error is reached. -/
def run (r : Reader) (count : Nat) : List (List Char) → Reader × Option DiffError
  | [] =>
    match r.finish with
    | .ok r => (r, none)
    | .error problem => (r, some ⟨count, problem⟩)
  | line :: lines =>
    match r.step line with
    | .ok r => r.run (count + 1) lines
    | .error problem => (r, some ⟨count + 1, problem⟩)

end Reader

/-- The lines of a diff. -/
def linesOf (text : String) : List (List Char) :=
  (Lines.ofChars text.toList).map fun line ↦ line.1.toList

/-- Reads a text. -/
def read (text : String) : Reader × Option DiffError := Reader.start.run 0 (linesOf text)

/-- The document that a diff stands for. Models `parse` of section 6.1. -/
def parse (text : String) : Except DiffError Document :=
  match read text with
  | (r, none) => .ok ⟨r.changes⟩
  | (_, some e) => .error e

/-- What there is to report of a diff, up to the first error. -/
def events (text : String) : List Event := (read text).1.events

end Patchwork.Diff
