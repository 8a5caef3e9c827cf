/-!
# Blank characters

The characters with the Unicode property `White_Space`, and the cuts that depend on them:
trimming a text and taking its words. Every cut works on the list of characters. The reader of
diffs (specification, section 6.1) cuts its lines this way.
-/

namespace Patchwork.Text

/-- First and last code point of each run of blank characters, in increasing order. -/
def blankRuns : List (Nat × Nat) :=
  [(0x09, 0x0d), (0x20, 0x20), (0x85, 0x85), (0xa0, 0xa0), (0x1680, 0x1680), (0x2000, 0x200a),
   (0x2028, 0x2029), (0x202f, 0x202f), (0x205f, 0x205f), (0x3000, 0x3000)]

/-- A blank character lies in one of the runs. -/
def isBlank (c : Char) : Bool :=
  blankRuns.any fun run ↦ decide (run.1 ≤ c.toNat) && decide (c.toNat ≤ run.2)

/-- The text without the blanks at its end. -/
def trimEnd (text : List Char) : List Char :=
  (text.reverse.dropWhile isBlank).reverse

/-- The text without the blanks at either end. -/
def trim (text : List Char) : List Char :=
  trimEnd (text.dropWhile isBlank)

/-- The maximal runs of characters that are not blank, in order. -/
def words (text : List Char) : List (List Char) :=
  (text.splitOnP isBlank).filter fun word ↦ !word.isEmpty

/-- A text whose last character is not blank has nothing to trim at its end. -/
theorem trimEnd_concat {c : Char} (text : List Char) (h : isBlank c = false) :
    trimEnd (text ++ [c]) = text ++ [c] := by
  simp [trimEnd, h]

end Patchwork.Text
