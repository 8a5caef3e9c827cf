import Patchwork.Hunk
import Patchwork.LineSet

/-!
# Applying a hunk

A cursor starts at the hunk's anchor and moves past every line that stays in the file or was
just put in; a removed line leaves it where it is. Each line of the old side has to be there.
When the hunk reaches the end of the file it also has to agree with the file about the final
newline, and its new side then decides it. Specification: section 4.2 (Hunk Applier).
-/

namespace Patchwork

/-- Why a hunk does not fit. -/
inductive HunkError where
  /-- The file has another line where the hunk expects one. -/
  | mismatch (number : Nat) (expected : HunkLine) (actual : String)
  /-- The hunk has a line beyond the end of the file. -/
  | pastEnd (number : Nat) (expected : HunkLine) (length : Nat)
  /-- The file disagrees with the hunk about the final newline. -/
  | newline (expectedMissing : Bool)
  deriving DecidableEq, Repr

namespace HunkError

/-- What a hunk expects of the end of the file. -/
def newlineExpectation (expectedMissing : Bool) : String :=
  if expectedMissing then "lack a trailing newline" else "end with a newline"

/-- The error in words. -/
def message : HunkError → String
  | mismatch number expected actual =>
    s!"line {number}: expected `{expected.format}`, found `{actual}`"
  | pastEnd number expected length =>
    s!"line {number} (`{expected.format}`) is past the end of the file ({length} lines)"
  | newline expectedMissing =>
    s!"hunk expects the file to {newlineExpectation expectedMissing}"

end HunkError

namespace LineSet

/-- Whether the line at `i` is the one that a hunk line with this text expects. -/
def expect (s : LineSet) (i : Nat) (line : HunkLine) (text : String) : Except HunkError Unit :=
  match s.lines[i]? with
  | none => .error (.pastEnd (i + 1) line s.lines.length)
  | some actual =>
    if actual = s.comparable text then .ok () else .error (.mismatch (i + 1) line actual)

/-- Applies hunk lines from the cursor `i` on; gives the new lines and the cursor's last place. -/
def applyLines (s : LineSet) (i : Nat) : List HunkLine → Except HunkError (LineSet × Nat)
  | [] => .ok (s, i)
  | .context text :: rest =>
    match s.expect i (.context text) text with
    | .error e => .error e
    | .ok () => s.applyLines (i + 1) rest
  | .remove text :: rest =>
    match s.expect i (.remove text) text with
    | .error e => .error e
    | .ok () => (s.erase i).applyLines i rest
  | .add text :: rest =>
    if s.lines.length < i then .error (.pastEnd (i + 1) (.add text) s.lines.length)
    else (s.insert i (s.comparable text)).applyLines (i + 1) rest
  | .noNewline :: rest => s.applyLines i rest

/-- Applies the lines of a hunk; gives the new lines and the index right after the hunk. Models
`apply_hunk` of section 4.2. -/
def splice (s : LineSet) (h : Hunk) : Except HunkError (LineSet × Nat) :=
  s.applyLines h.anchor h.lines

/-- Applies a hunk to the whole file, final newline included. Models the newline-flag fidelity of
section 4.2. -/
def patch (s : LineSet) (h : Hunk) : Except HunkError LineSet :=
  match s.splice h with
  | .error e => .error e
  | .ok (t, after) =>
    if after < t.lines.length then .ok t
    else if h.hasOld && h.oldMissingNewline != t.missingFinalNewline then
      .error (.newline h.oldMissingNewline)
    else .ok { t with missingFinalNewline := h.newMissingNewline }

/-- Applies hunks one after another; an error comes with the index of the hunk that failed. -/
def patchAll (s : LineSet) (first : Nat) : List Hunk → Except (Nat × HunkError) LineSet
  | [] => .ok s
  | h :: hunks =>
    match s.patch h with
    | .error e => .error (first, e)
    | .ok t => t.patchAll (first + 1) hunks

/-- Lines of no particular style, with no file around them. -/
def ofLines (lines : List String) : LineSet := uniform lines .undetermined true

end LineSet

end Patchwork
