import Patchwork.Change

/-!
# What a file change asks for

A `Task` is a file change with the paths that its kind needs. `FileChange.task` reads it off the
change, or names the first defect in the change's own structure. No file has to be looked at for
that, so a whole document can be checked before any file is touched. Specification: the up-front
validation of section 4.3, and `PatchFormatError` in section 7.
-/

namespace Patchwork

/-- A structural defect of a file change. Hunks are named by their index. -/
inductive Defect where
  | noSource (kind : ChangeKind)
  | noDestination (kind : ChangeKind)
  /-- A file would be moved or copied onto itself. -/
  | samePath (path : Path)
  /-- A new file comes with more than one hunk. -/
  | severalAddHunks (count : Nat)
  /-- A new file's hunk keeps or removes lines. -/
  | addExpectsContent (hunk : Nat)
  /-- A hunk that keeps or adds lines starts at line zero. -/
  | zeroStart (hunk : Nat)
  /-- A deletion comes with hunks. -/
  | hunksOnDelete (count : Nat)
  deriving DecidableEq, Repr

namespace Defect

/-- The hunk that has the defect. -/
def hunk? : Defect → Option Nat
  | addExpectsContent hunk | zeroStart hunk => some hunk
  | _ => none

/-- The defect in words. -/
def message : Defect → String
  | noSource kind => s!"{kind.name} change has no source path"
  | noDestination kind => s!"{kind.name} change has no destination path"
  | samePath path => s!"source and destination are both {path.spelling}"
  | severalAddHunks count => s!"add carries {count} hunks; a new file takes at most one"
  | addExpectsContent hunk => s!"add hunk #{hunk + 1} expects existing content"
  | zeroStart hunk => s!"hunk #{hunk + 1} starts at line 0 but keeps or adds lines"
  | hunksOnDelete count => s!"delete carries {count} unexpected hunk(s)"

end Defect

/-- A file change with the paths that its kind needs. -/
inductive Task where
  | add (path : Path) (hunks : List Hunk)
  | modify (path : Path) (hunks : List Hunk)
  | delete (path : Path)
  | rename (source target : Path) (hunks : List Hunk)
  | copy (source target : Path) (hunks : List Hunk)
  deriving DecidableEq, Repr

/-- The path that a task touches. -/
def Task.path : Task → Path
  | .add path _ | .modify path _ | .delete path | .rename _ path _ | .copy _ path _ => path

namespace Hunk

/-- Whether the hunk keeps or adds lines before the first line. -/
def startsAtZero (h : Hunk) : Bool := h.newStart = 0 && h.hasNew

end Hunk

namespace FileChange

/-- The path of the old file. -/
def source (c : FileChange) : Except Defect Path :=
  match c.oldPath with
  | some path => .ok path
  | none => .error (.noSource c.kind)

/-- The path of the new file. -/
def target (c : FileChange) : Except Defect Path :=
  match c.newPath with
  | some path => .ok path
  | none => .error (.noDestination c.kind)

/-- The old and the new path, which have to differ. -/
def move (c : FileChange) : Except Defect (Path × Path) := do
  let source ← c.source
  let target ← c.target
  if source.Same target then .error (.samePath target) else .ok (source, target)

/-- The task as the change's kind has it, before its hunks' starts are checked. -/
def taskOfKind (c : FileChange) : Except Defect Task :=
  match c.kind with
  | .add => do
    let path ← c.target
    if 1 < c.hunks.length then .error (.severalAddHunks c.hunks.length)
    else
      match c.hunks.findIdx? Hunk.hasOld with
      | some hunk => .error (.addExpectsContent hunk)
      | none => .ok (.add path c.hunks)
  | .modify => do return .modify (← c.target) c.hunks
  | .delete => do
    let path ← c.source
    if c.hunks.isEmpty then .ok (.delete path) else .error (.hunksOnDelete c.hunks.length)
  | .rename => do
    let paths ← c.move
    return .rename paths.1 paths.2 c.hunks
  | .copy => do
    let paths ← c.move
    return .copy paths.1 paths.2 c.hunks

/-- What the change asks for, or the first defect in its structure. Models what `validate` of
section 4.3 does with one change. -/
def task (c : FileChange) : Except Defect Task := do
  let task ← c.taskOfKind
  match c.hunks.findIdx? Hunk.startsAtZero with
  | some hunk => .error (.zeroStart hunk)
  | none => .ok task

end FileChange

end Patchwork
