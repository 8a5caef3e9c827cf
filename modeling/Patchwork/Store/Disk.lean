import Patchwork.Store
import Std.Data.ExtTreeMap

/-!
# Files and directories on a disk

A disk holds files, directories and devices under lists of names, counted from a root directory
that is always there. Looking a place up goes through its directories one by one, and each kind
of refusal is told apart: something is missing, something is in the way, or the disk cannot do
what is asked. Names and paths have limits; a path beyond them is refused unread.

There are no symbolic links on a disk, and no mounts: what names lead to below a directory lies
there. Nor are there permissions, and a disk is never full.
-/

namespace Patchwork

/-- What stands at a place of a disk. A device can be read like a file but is none. Symbolic links
are assumed away: a name leads to the entry that stands under it. -/
inductive Entry where
  | directory
  | file (content : ByteArray)
  | device (content : ByteArray)
  deriving DecidableEq

namespace Entry

/-- Whether the entry is a directory. -/
def isDirectory : Entry → Bool
  | directory => true
  | file _ | device _ => false

/-- What reading the entry gives. -/
def content? : Entry → Option ByteArray
  | directory => none
  | file content | device content => some content

end Entry

/-- Files and directories by the names that lead to them. There are no symbolic links among them. -/
structure Disk where
  entries : Std.ExtTreeMap (List String) Entry

namespace Path

/-- The number of bytes that a path may have, with one for its end. -/
def limit : Nat := 4096

/-- Whether the path is longer than any disk takes. -/
def isTooLong (p : Path) : Bool := limit ≤ p.spelling.utf8ByteSize

/-- The path from the root of a disk to a place. -/
def ofPlace (place : List String) : Path := ⟨"/" ++ "/".intercalate place⟩

end Path

namespace Disk

/-- The disk with nothing below its root. -/
def empty : Disk := ⟨∅⟩

instance : Inhabited Disk := ⟨empty⟩

/-- What stands at a place, whatever stands above it. -/
def get? (d : Disk) (place : List String) : Option Entry :=
  if place.isEmpty then some .directory else d.entries[place]?

/-- Puts an entry at a place. -/
def put (d : Disk) (place : List String) (entry : Entry) : Disk :=
  ⟨d.entries.insert place entry⟩

/-- Takes the entry at a place away. -/
def remove (d : Disk) (place : List String) : Disk := ⟨d.entries.erase place⟩

/-- The number of bytes that a name may have. -/
def nameLimit : Nat := 255

/-- Whether a name is longer than the disk takes. -/
def isTooLong (name : String) : Bool := nameLimit < name.utf8ByteSize

/-- Whether a name holds the character that no name may hold. -/
def hasNul (name : String) : Bool := name.toList.contains '\x00'

/-- Goes from one place down through names; every place on the way has to be a directory. -/
def walk (d : Disk) (here : List String) : List String → Except StoreErrorKind Entry
  | [] =>
    match d.get? here with
    | some entry => .ok entry
    | none => .error .notFound
  | name :: names =>
    match d.get? here with
    | none => .error .notFound
    | some .directory => if isTooLong name then .error .io else d.walk (here ++ [name]) names
    | some _ => .error .io

/-- Makes the directories that names lead through, down from a directory. Those made before a
refusal stay. -/
def makeDirectories (d : Disk) (here : List String) :
    List String → Except StoreErrorKind Unit × Disk
  | [] => (.ok (), d)
  | name :: names =>
    if isTooLong name then (.error .io, d)
    else
      let next := here ++ [name]
      match d.get? next with
      | none => (d.put next .directory).makeDirectories next names
      | some .directory => d.makeDirectories next names
      | some _ => (.error (if names.isEmpty then .alreadyExists else .io), d)

/-- A place as a listing names it: a directory's name ends with a slash. -/
def listedName (place : List String) (entry : Entry) : String :=
  "/".intercalate place ++ if entry.isDirectory then "/" else ""

/-- Everything below a place, in the order of the listed names, with what reading it gives. -/
def listing (d : Disk) (place : List String) : List (String × Option ByteArray) :=
  let below := d.entries.toList.filter fun item ↦ place.isPrefixOf item.1 && place ≠ item.1
  (below.map fun item ↦
      (listedName (item.1.drop place.length) item.2, item.2.content?)).mergeSort
    fun a b ↦ decide (a.1 ≤ b.1)

/-- Where components lead to from a place. The root lies in itself. -/
def follow? (d : Disk) (here : List String) : List Component → Option (List String)
  | [] => some here
  | component :: components =>
    match d.get? here with
    | some .directory =>
      match component with
      | .root => d.follow? [] components
      | .current => d.follow? here components
      | .parent => d.follow? here.dropLast components
      | .name name => d.follow? (here ++ [name]) components
    | _ => none

/-- Where a path leads to from a place. -/
def resolve? (d : Disk) (here : List String) (p : Path) : Option (List String) :=
  if p.isTooLong then none else d.follow? here p.components

/-- Everything on a disk that has just been put there is found again. -/
theorem get?_put (d : Disk) (place other : List String) (entry : Entry)
    (hplace : place ≠ []) :
    (d.put place entry).get? other = if place = other then some entry else d.get? other := by
  by_cases h : place = other
  · subst h
    simp [get?, put, hplace]
  · simp [get?, put, Std.ExtTreeMap.getElem?_insert, h]

end Disk

end Patchwork
