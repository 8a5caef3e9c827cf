import Patchwork.Change
import Patchwork.Diff.Error
import Patchwork.Log

/-!
# The sections of a diff

A section collects what a diff says about one file between two headers. `Section.reading` makes a
file change of it. Specification: sections in section 6.1.
-/

namespace Patchwork.Diff

/-- What a section says about one of its files. -/
inductive FileLine where
  /-- Nothing so far. -/
  | unseen
  /-- There is no such file. -/
  | absent
  | named (path : Path)
  deriving DecidableEq, Repr, Inhabited

namespace FileLine

/-- What a line about a file says. -/
def of : Option Path → FileLine
  | some path => named path
  | none => absent

/-- The file's path; where nothing has been said, the one that the header names. -/
def pathOr (header : Option Path) : FileLine → Option Path
  | unseen => header
  | absent => none
  | named path => some path

end FileLine

/-- Everything that has been said about one file. -/
structure Section where
  header : Option (Path × Path)
  oldFile : FileLine
  newFile : FileLine
  created : Bool
  deleted : Bool
  renameFrom : Option Path
  renameTo : Option Path
  copyFrom : Option Path
  copyTo : Option Path
  hunks : List Hunk
  deriving DecidableEq, Repr

/-- What a finished section comes to. -/
inductive Reading where
  | change (change : FileChange)
  /-- A file goes away, and its hunks are not needed for that. -/
  | deletion (path : Path) (dropped : Nat)
  | nothing
  deriving DecidableEq, Repr

namespace Reading

/-- The change to make. -/
def change? : Reading → Option FileChange
  | change c => some c
  | deletion path _ => some ⟨.delete, some path, none, []⟩
  | nothing => none

/-- What there is to report. -/
def event? : Reading → Option Event
  | change _ => none
  | deletion path dropped => if dropped = 0 then none else some (.droppedHunks dropped path)
  | nothing => some .emptySection

end Reading

namespace Section

/-- A section of which only the header has been read. -/
def opened (header : Option (Path × Path)) : Section :=
  ⟨header, .unseen, .unseen, false, false, none, none, none, none, []⟩

/-- The path of the old file. -/
def oldPath (s : Section) : Option Path := s.oldFile.pathOr (s.header.map Prod.fst)

/-- The path of the new file. -/
def newPath (s : Section) : Option Path := s.newFile.pathOr (s.header.map Prod.snd)

/-- The path of the new file, or else of the old one. -/
def anyPath (s : Section) : Option Path := s.newPath <|> s.oldPath

/-- Whether the section has come as far as its old file or its hunks. -/
def hasBegun (s : Section) : Bool := s.oldFile ≠ .unseen || !s.hunks.isEmpty

/-- The change that moves or copies the file. -/
def move (s : Section) (kind : ChangeKind) (source target : Option Path) :
    Except Problem Reading :=
  match source <|> s.oldPath with
  | none => .error .moveWithoutSource
  | some source =>
    match target <|> s.newPath with
    | none => .error .moveWithoutDestination
    | some target => .ok (.change ⟨kind, some source, some target, s.hunks⟩)

/-- The change that a section without moves stands for. -/
def edit (s : Section) : Except Problem Reading :=
  let added := s.created || s.oldFile = .absent
  let removed := s.deleted || s.newFile = .absent
  if added && removed then .error .createdAndDeleted
  else if added then
    match s.newPath with
    | none => .error .createdWithoutPath
    | some path => .ok (.change ⟨.add, none, some path, s.hunks⟩)
  else if removed then
    match s.oldPath with
    | none => .error .deletedWithoutPath
    | some path => .ok (.deletion path s.hunks.length)
  else if s.hunks.isEmpty then .ok .nothing
  else
    match s.anyPath with
    | none => .error .hunksWithoutPath
    | some path => .ok (.change ⟨.modify, some path, some path, s.hunks⟩)

/-- What the finished section comes to. A copy counts before a rename. -/
def reading (s : Section) : Except Problem Reading :=
  if s.copyFrom.isSome || s.copyTo.isSome then s.move .copy s.copyFrom s.copyTo
  else if s.renameFrom.isSome || s.renameTo.isSome then s.move .rename s.renameFrom s.renameTo
  else s.edit

end Section

end Patchwork.Diff
