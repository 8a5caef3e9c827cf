import Patchwork.Path
import Patchwork.Text.Blank
import Patchwork.Text.Cut

/-!
# The lines of a diff outside hunks

`Notation` is what a line outside the hunks says, read off its first words. Lines that say
nothing about files are `other`. Specification: headers and markers in section 6.1.
-/

namespace Patchwork.Diff

/-- What a line outside the hunks says. -/
inductive Notation where
  /-- A new section begins; its header may name both files. -/
  | section (files : Option (Path × Path))
  /-- A hunk begins. -/
  | hunk (line : List Char)
  /-- The old file, or that there is none. -/
  | oldFile (path : Option Path)
  /-- The new file, or that there is none. -/
  | newFile (path : Option Path)
  | created
  | deleted
  | renameFrom (path : Path)
  | renameTo (path : Path)
  | copyFrom (path : Path)
  | copyTo (path : Path)
  /-- The file is not text. -/
  | binary (line : List Char)
  | other
  deriving DecidableEq, Repr

namespace Notation

/-- The files that a section's header names: the old one without its lead, and what follows the
first lead of the new one. -/
def headerFiles (text : List Char) : Option (Path × Path) :=
  (Text.cut? " b/".toList text).map fun files ↦
    (.ofChars (Text.dropLead "a/".toList files.1), .ofChars files.2)

/-- The file named after the sign of a side: what comes before the first tab, without the blanks
at its end and without the side's lead. No file stands on the side of the null device. -/
def file (lead text : List Char) : Option Path :=
  let path := Text.trimEnd (Text.before ['\t'] text)
  if path = "/dev/null".toList then none else some (.ofChars (Text.dropLead lead path))

/-- The readings of a line by the words it begins with. -/
def leads : List (String × (List Char → Notation)) :=
  [("diff --git ", fun rest ↦ .section (headerFiles rest)),
   ("@@", fun rest ↦ .hunk ("@@".toList ++ rest)),
   ("--- ", fun rest ↦ .oldFile (file "a/".toList rest)),
   ("+++ ", fun rest ↦ .newFile (file "b/".toList rest)),
   ("new file mode", fun _ ↦ .created),
   ("deleted file mode", fun _ ↦ .deleted),
   ("rename from ", fun rest ↦ .renameFrom (.ofChars rest)),
   ("rename to ", fun rest ↦ .renameTo (.ofChars rest)),
   ("copy from ", fun rest ↦ .copyFrom (.ofChars rest)),
   ("copy to ", fun rest ↦ .copyTo (.ofChars rest)),
   ("Binary files ", fun rest ↦ .binary ("Binary files ".toList ++ rest))]

/-- The first reading whose lead the line begins with. -/
def read (line : List Char) : List (String × (List Char → Notation)) → Notation
  | [] => if line = "GIT binary patch".toList then .binary line else .other
  | (lead, reading) :: rest =>
    match Text.after? lead.toList line with
    | some text => reading text
    | none => read line rest

/-- The line without one carriage return at its end. -/
def dropReturn (line : List Char) : List Char :=
  if line.getLast? = some '\r' then line.dropLast else line

/-- What a line says; a carriage return at its end does not count. -/
def ofLine (line : List Char) : Notation := read (dropReturn line) leads

end Notation

end Patchwork.Diff
