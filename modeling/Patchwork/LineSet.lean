import Patchwork.Lines
import Patchwork.Text.Utf8

/-!
# The lines of one file

A `LineSet` holds a file's lines, the ending read after each of them, the style that inserted
lines take, and whether the last line lacks its ending. Endings are kept in a list of their own;
a line beyond the end of that list has the style's ending, so the set is read through `pairs`.
Specification: `LineSet` in section 3, and section 4.1 (Line Model).
-/

namespace Patchwork

/-- A file's lines, their endings, the style of lines to come, and the state of the last line. -/
structure LineSet where
  lines : List String
  endings : List LineEnding
  style : LineEnding
  missingFinalNewline : Bool
  deriving DecidableEq, Repr

namespace LineSet

/-- Lines that all end alike. -/
def uniform (lines : List String) (style : LineEnding) (missingFinalNewline : Bool) : LineSet :=
  ⟨lines, List.replicate lines.length style, style, missingFinalNewline⟩

/-- The lines of an empty file. -/
def empty : LineSet := uniform [] .undetermined true

/-- The ending of the line at `i`. -/
def ending (s : LineSet) (i : Nat) : LineEnding := s.endings[i]?.getD s.style

/-- Lines with endings; where the endings run out, a line has the style's. -/
def pairWith (style : LineEnding) : List String → List LineEnding → List (String × LineEnding)
  | [], _ => []
  | line :: lines, [] => (line, style) :: pairWith style lines []
  | line :: lines, ending :: endings => (line, ending) :: pairWith style lines endings

/-- Each line with its ending. -/
def pairs (s : LineSet) : List (String × LineEnding) := pairWith s.style s.lines s.endings

/-- The lines of a text. The last of them lacks its ending when the text does not end with a
newline. -/
def ofText (text : String) : LineSet :=
  let pieces := Lines.ofChars text.toList
  { lines := pieces.map Prod.fst
    endings := pieces.map Prod.snd
    style := Lines.style (Lines.cut text.toList).1
    missingFinalNewline := text.toList.getLast? != some '\n' }

/-- The lines of a file's bytes, or the offset at which the bytes stop being text. Models
`decompose` of section 4.1. -/
def ofBytes (bytes : ByteArray) : Except Nat LineSet :=
  (Text.decode bytes).map ofText

/-- Lines written one after another, the last without its ending when `missing` is set. -/
def joinPairs (missing : Bool) : List (String × LineEnding) → List Char
  | [] => []
  | [(line, ending)] => line.toList ++ if missing then [] else ending.chars
  | (line, ending) :: pair :: rest =>
    line.toList ++ ending.chars ++ joinPairs missing (pair :: rest)

/-- The text that the lines make up. -/
def text (s : LineSet) : String := .ofList (joinPairs s.missingFinalNewline s.pairs)

/-- The bytes to write to the file. Models `recompose` of section 4.1. -/
def bytes (s : LineSet) : ByteArray := s.text.toUTF8

/-- Two sets have the same content when their lines and the state of their last lines agree;
endings do not count. Models the content-equality of section 3. -/
def SameContent (s t : LineSet) : Prop :=
  s.lines = t.lines ∧ s.missingFinalNewline = t.missingFinalNewline

instance (s t : LineSet) : Decidable (s.SameContent t) :=
  inferInstanceAs (Decidable (_ ∧ _))

/-- A hunk's text as it compares with the lines. In a set of `crlf` style a carriage return at
its end belongs to the ending (section 4.1). -/
def comparable (s : LineSet) (text : String) : String :=
  if s.style = .crlf ∧ text.toList.getLast? = some '\r' then .ofList text.toList.dropLast else text

/-- The set with a line put in at `i`, which takes the set's style. -/
def insert (s : LineSet) (i : Nat) (line : String) : LineSet :=
  { s with lines := s.lines.insertIdx i line, endings := s.endings.insertIdx i s.style }

/-- The set without the line at `i`. -/
def erase (s : LineSet) (i : Nat) : LineSet :=
  { s with lines := s.lines.eraseIdx i, endings := s.endings.eraseIdx i }

/-- Inserts at a position among the lines or right after them. -/
def insert? (s : LineSet) (i : Nat) (line : String) : Option LineSet :=
  if i ≤ s.lines.length then some (s.insert i line) else none

/-- Erases a line that is there. -/
def erase? (s : LineSet) (i : Nat) : Option LineSet :=
  if i < s.lines.length then some (s.erase i) else none

/-- Puts a line after the others without recording an ending for it. -/
def pushBare (s : LineSet) (line : String) : LineSet :=
  { s with lines := s.lines ++ [line] }

/-- Takes the last line off and leaves the endings as they are. -/
def popBare (s : LineSet) : Option String × LineSet :=
  (s.lines.getLast?, { s with lines := s.lines.dropLast })

private theorem map_fst_pairWith (style : LineEnding) (lines : List String)
    (endings : List LineEnding) : (pairWith style lines endings).map Prod.fst = lines := by
  fun_induction pairWith style lines endings <;> simp_all

private theorem getElem?_pairWith (style : LineEnding) (lines : List String)
    (endings : List LineEnding) (i : Nat) :
    (pairWith style lines endings)[i]? =
      lines[i]?.map fun line ↦ (line, endings[i]?.getD style) := by
  fun_induction pairWith style lines endings generalizing i with
  | case1 => simp
  | case2 line lines ih => cases i <;> simp_all
  | case3 line lines ending endings ih => cases i <;> simp_all

/-- The pairs name the lines in order. -/
@[simp] theorem map_fst_pairs (s : LineSet) : s.pairs.map Prod.fst = s.lines :=
  map_fst_pairWith s.style s.lines s.endings

/-- There is one pair for each line. -/
@[simp] theorem length_pairs (s : LineSet) : s.pairs.length = s.lines.length := by
  rw [← s.map_fst_pairs, List.length_map]

/-- A pair is a line with its ending. -/
theorem getElem?_pairs (s : LineSet) (i : Nat) :
    s.pairs[i]? = s.lines[i]?.map fun line ↦ (line, s.ending i) :=
  getElem?_pairWith s.style s.lines s.endings i

end LineSet

end Patchwork
