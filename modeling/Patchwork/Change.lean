import Patchwork.Hunk
import Patchwork.Path

/-!
# File changes and patch documents

A file change says what happens to one file: it is added, modified, deleted, renamed or copied,
with hunks for its content. A document is a list of changes, made front to back. Specification:
`FileChange`, `PatchDocument` and Inversion in section 3.
-/

namespace Patchwork

/-- What happens to a file. -/
inductive ChangeKind where
  | add
  | modify
  | delete
  | rename
  | copy
  deriving DecidableEq, Repr, Inhabited

namespace ChangeKind

/-- The kind's name. -/
def name : ChangeKind → String
  | add => "add"
  | modify => "modify"
  | delete => "delete"
  | rename => "rename"
  | copy => "copy"

/-- Every kind, in the order in which they are declared. -/
def all : List ChangeKind := [add, modify, delete, rename, copy]

/-- The kind with the given name. -/
def ofName? (name : String) : Option ChangeKind :=
  all.find? fun kind ↦ kind.name = name

@[simp] theorem ofName?_name (kind : ChangeKind) : ofName? kind.name = some kind := by
  cases kind <;> decide

end ChangeKind

/-- What happens to one file. Which of the paths a change needs depends on its kind. -/
structure FileChange where
  kind : ChangeKind
  oldPath : Option Path
  newPath : Option Path
  hunks : List Hunk
  deriving DecidableEq, Repr, Inhabited

namespace FileChange

/-- The path under which the change is reported. -/
def reportedPath (c : FileChange) : Path :=
  (c.newPath <|> c.oldPath).getD ⟨"<unnamed>"⟩

/-- The change that undoes this one. A copy is undone by deleting what it made, and a deletion
by an empty new file, since nothing tells what was deleted. Models `inverted` of section 3. -/
def inverse (c : FileChange) : FileChange :=
  match c.kind with
  | .add | .copy => ⟨.delete, c.newPath, none, []⟩
  | .delete => ⟨.add, none, c.oldPath, []⟩
  | .modify | .rename => ⟨c.kind, c.newPath, c.oldPath, c.hunks.map Hunk.inverse⟩

end FileChange

/-- File changes in the order in which they are made. -/
structure Document where
  changes : List FileChange
  deriving DecidableEq, Repr, Inhabited

namespace Document

/-- The document that undoes this one: the changes undone from the last to the first. Models
`reversed` of section 3. -/
def reverse (d : Document) : Document := ⟨d.changes.reverse.map FileChange.inverse⟩

@[simp] theorem length_reverse (d : Document) :
    d.reverse.changes.length = d.changes.length := by
  simp [reverse]

end Document

end Patchwork
