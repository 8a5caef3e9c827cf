import Patchwork.Store.Disk

/-!
# The difference between two disks

What has to be done to a file system that looks like one disk so that it looks like another:
files are taken away first, then directories are made and files written, each directory before
what lies in it. Directories are never taken away.
-/

namespace Patchwork

/-- One step that makes a file system look like another disk. -/
inductive Update where
  | remove (place : List String)
  | makeDirectory (place : List String)
  | write (place : List String) (content : ByteArray)
  deriving DecidableEq

namespace Disk

/-- What is no directory, and is gone or becomes one. -/
def removals (old new : Disk) : List Update :=
  old.entries.toList.filterMap fun item ↦
    if item.2.isDirectory then none
    else
      match new.get? item.1 with
      | none | some .directory => some (.remove item.1)
      | some _ => none

/-- The entries that are new or have a new content. -/
def additions (old new : Disk) : List Update :=
  new.entries.toList.filterMap fun item ↦
    if old.get? item.1 = some item.2 then none
    else
      match item.2 with
      | .directory => some (.makeDirectory item.1)
      | .file content => some (.write item.1 content)
      | .device _ => none

/-- Everything that has to be done, in order. -/
def updates (old new : Disk) : List Update := removals old new ++ additions old new

end Disk

end Patchwork
