/-!
# Why a diff cannot be read

A `Problem` is what is wrong with a diff, and a `DiffError` is a problem at a line. Lines are
counted from one. Specification: `ParseError` in sections 6.1 and 7.
-/

namespace Patchwork.Diff

/-- What is wrong with a diff. -/
inductive Problem where
  /-- A hunk header, or one of its ranges, does not follow the format. -/
  | malformedHeader (text : String)
  /-- The diff changes a file that is not text. -/
  | binary (subject : String)
  | misplacedMarker
  | unfittingLine (line : String)
  | headerOutsideSection
  | unfinishedHunk
  | moveWithoutSource
  | moveWithoutDestination
  | createdAndDeleted
  | createdWithoutPath
  | deletedWithoutPath
  | hunksWithoutPath
  deriving DecidableEq, Repr

/-- A problem and the line at which it shows. -/
structure DiffError where
  line : Nat
  problem : Problem
  deriving DecidableEq, Repr

/-- A message about what stands at a line. -/
def unexpectedMessage (line : Nat) (what : String) : String :=
  s!"Unexpected diff format: line {line}: {what}"

/-- The error in words. -/
def DiffError.message (e : DiffError) : String :=
  match e.problem with
  | .malformedHeader text => s!"Invalid hunk header: {text}"
  | .binary subject => s!"Binary patches are not supported: {subject}"
  | .misplacedMarker => unexpectedMessage e.line "misplaced no-newline marker"
  | .unfittingLine line =>
    unexpectedMessage e.line s!"hunk line `{line}` does not fit its header"
  | .headerOutsideSection => unexpectedMessage e.line "hunk header outside a file section"
  | .unfinishedHunk => unexpectedMessage e.line "patch ends in the middle of a hunk"
  | .moveWithoutSource => unexpectedMessage e.line "move has no source path"
  | .moveWithoutDestination => unexpectedMessage e.line "move has no destination path"
  | .createdAndDeleted => unexpectedMessage e.line "section both creates and deletes a file"
  | .createdWithoutPath => unexpectedMessage e.line "new file has no path"
  | .deletedWithoutPath => unexpectedMessage e.line "deleted file has no path"
  | .hunksWithoutPath => unexpectedMessage e.line "hunks have no file path"

end Patchwork.Diff
