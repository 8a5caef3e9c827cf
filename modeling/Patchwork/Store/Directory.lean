import Patchwork.Store.Disk

/-!
# Files below a directory

A store that keeps its files below one directory of a disk. A path is refused when it is empty,
when it starts at a root, or when it goes up anywhere. How a path ends matters to the disk: one
that ends with a slash or with `.` asks for a directory. So does how long it is when it is put
behind the path by which the directory itself is named. Specification: `FsWorkTree` in sections 5
and 6.
-/

namespace Patchwork

/-- How a path ends. -/
inductive PathEnd where
  | plain
  | slash
  | dot
  deriving DecidableEq, Repr

/-- Where a path leads to below a directory, how it ends, and how it is spelled when it starts
where the directory's own path does. -/
structure Location where
  names : List String
  ending : PathEnd
  full : Path
  deriving DecidableEq, Repr

namespace Location

/-- The names of the directories that the location lies in. -/
def parents (l : Location) : List String := l.names.dropLast

/-- Whether no disk takes the location's path: it is too long, or one of its names holds the
character that no name may hold. -/
def isUnfit (l : Location) : Bool := l.full.isTooLong || l.names.any Disk.hasNul

/-- Whether no disk takes the path of the directory that the location lies in. -/
def isParentUnfit (l : Location) : Bool :=
  l.full.parent.isTooLong || l.parents.any Disk.hasNul

end Location

namespace Path

/-- The names among the components. -/
def names (p : Path) : List String :=
  p.components.filterMap fun
    | .name text => some text
    | _ => none

/-- How the path ends. -/
def ending (p : Path) : PathEnd :=
  match p.segments.reverse with
  | [] :: before => if (before.dropWhile List.isEmpty).head? = some ['.'] then .dot else .slash
  | ['.'] :: _ => .dot
  | _ => .plain

/-- Whether the path stays below the directory it starts from. -/
def staysBelow (p : Path) : Bool :=
  !p.spelling.isEmpty && p.components.all fun
    | .root | .parent => false
    | .current | .name _ => true

end Path

/-- A disk and the directory of it whose files are meant: the directory's place, the path by
which it is named, and the path of the working directory, where that path starts. The directory is
taken to be there. -/
structure Directory where
  disk : Disk
  root : List String
  path : Path
  working : Path

namespace Directory

/-- The directory that a path leads to from a working directory. -/
def ofPath? (disk : Disk) (working : List String) (path : Path) : Option Directory :=
  match disk.resolve? working path with
  | some root =>
    if disk.get? root = some .directory then some ⟨disk, root, path, .ofPlace working⟩ else none
  | none => none

/-- Where a path leads to, if it stays below the directory. -/
def location? (d : Directory) (p : Path) : Option Location :=
  if p.staysBelow then some ⟨p.names, p.ending, d.path.join p⟩ else none

/-- The place on the disk that names lead to. -/
def place (d : Directory) (names : List String) : List String := d.root ++ names

/-- What stands at a location. A file is not to be had by a path that asks for a directory. -/
def find (d : Directory) (l : Location) : Except StoreErrorKind Entry :=
  if l.isUnfit then .error .io
  else
    match d.disk.walk d.root l.names with
    | .ok entry => if entry.isDirectory ∨ l.ending = .plain then .ok entry else .error .io
    | .error kind => .error kind

/-- Whether there is a file at the path. -/
def holds (d : Directory) (p : Path) : Bool :=
  match (d.location? p).map d.find with
  | some (.ok (.file _)) => true
  | _ => false

/-- What reading at the path gives. -/
def read (d : Directory) (p : Path) : Except StoreError ByteArray :=
  match d.location? p with
  | none => .error ⟨.outsideRoot, p⟩
  | some l =>
    match d.find l with
    | .ok (.file content) | .ok (.device content) => .ok content
    | .ok .directory => .error ⟨.io, p⟩
    | .error kind => .error ⟨kind, p⟩

/-- What would keep a file from being put at a location whose directories are there, where
`occupied` says what an entry at the location means. -/
def refusal? (d : Directory) (l : Location) (occupied : Entry → Option StoreErrorKind) :
    Option StoreErrorKind :=
  if l.isUnfit then some .io
  else
    match l.ending with
    | .slash => some .io
    | .dot =>
      match d.disk.walk d.root l.names with
      | .ok .directory => some ((occupied .directory).getD .io)
      | .ok _ => some .io
      | .error kind => some kind
    | .plain =>
      match d.disk.walk d.root l.names with
      | .ok entry => occupied entry
      | .error .notFound => none
      | .error kind => some kind

/-- Makes the directories that a location lies in. -/
def makeParents (d : Directory) (l : Location) : Except StoreErrorKind Unit × Directory :=
  if l.isParentUnfit then (.error .io, d)
  else
    let made := d.disk.makeDirectories d.root l.parents
    (made.1, { d with disk := made.2 })

/-- Makes the directories that a location lies in and puts a file there, unless `refused` gives a
reason against it once they are made. -/
def place? (d : Directory) (l : Location) (content : ByteArray)
    (refused : Directory → Option StoreErrorKind) : Except StoreErrorKind Unit × Directory :=
  match d.makeParents l with
  | (.error kind, made) => (.error kind, made)
  | (.ok (), made) =>
    match refused made with
    | some kind => (.error kind, made)
    | none => (.ok (), { made with disk := made.disk.put (made.place l.names) (.file content) })

/-- A file may be moved over anything but a directory. -/
def overwritten (entry : Entry) : Option StoreErrorKind :=
  if entry.isDirectory then some .io else none

/-- A file may be created only where nothing stands. -/
def created : Entry → Option StoreErrorKind := fun _ ↦ some .alreadyExists

/-- The name under which a file is written before it is moved to its place. -/
def draftName : String := ".patch-in-progress"

/-- The path under which a file is written before it is moved to its location: beside the
location, and from the root of the disk. -/
def draft (d : Directory) (l : Location) : Path :=
  d.working.join (l.full.parent.join ⟨draftName⟩)

/-- What would keep a file from being written and then moved to a location whose directories are
there. -/
def writeRefusal? (l : Location) (d : Directory) : Option StoreErrorKind :=
  if (d.draft l).isTooLong then some .io else d.refusal? l overwritten

/-- What would keep a file from being created at a location whose directories are there. -/
def createRefusal? (l : Location) (d : Directory) : Option StoreErrorKind :=
  d.refusal? l created

/-- An error that is about a path. -/
def about (p : Path) : Except StoreErrorKind Unit × Directory → Except StoreError Unit × Directory
  | (.ok (), d) => (.ok (), d)
  | (.error kind, d) => (.error ⟨kind, p⟩, d)

/-- Takes what stands at a location away, unless it is a directory. -/
def deleteAt (d : Directory) (l : Location) : Except StoreErrorKind Unit × Directory :=
  match d.find l with
  | .error kind => (.error kind, d)
  | .ok .directory => (.error .io, d)
  | .ok _ => (.ok (), { d with disk := d.disk.remove (d.place l.names) })

/-- Moves the file at one location to another. The source is looked at first, then the target;
the directories of the target are made, and an error in making them is about the target. -/
def renameAt (d : Directory) (source target : Path) (sourceAt targetAt : Location) :
    Except StoreError Unit × Directory :=
  match d.find sourceAt, d.find targetAt with
  | .ok (.file _), .ok _ => (.error ⟨.alreadyExists, target⟩, d)
  | .ok (.file content), .error _ =>
    match d.makeParents targetAt with
    | (.error kind, made) => (.error ⟨kind, target⟩, made)
    | (.ok (), made) =>
      match made.refusal? targetAt overwritten with
      | some kind => (.error ⟨kind, source⟩, made)
      | none =>
        (.ok (), { made with
          disk := (made.disk.remove (made.place sourceAt.names)).put (made.place targetAt.names)
            (.file content) })
  | _, _ => (.error ⟨.notFound, source⟩, d)

/-- Performs an edit. Directories made on the way stay, also when the edit fails.

This is what an edit comes to in the end. A write goes through a file of another name, the draft
(section 5), which is gone when the edit has ended, and so is not on a disk here; only the length of
its path counts. `Directory.attempt` makes an edit call by call with the draft on the disk, and
`Directory.passed` gives the disks in between. -/
def perform (d : Directory) : Edit → Except StoreError Unit × Directory
  | .write p content =>
    match d.location? p with
    | none => (.error ⟨.outsideRoot, p⟩, d)
    | some l => about p (d.place? l content (writeRefusal? l))
  | .create p =>
    match d.location? p with
    | none => (.error ⟨.outsideRoot, p⟩, d)
    | some l => about p (d.place? l .empty (createRefusal? l))
  | .delete p =>
    match d.location? p with
    | none => (.error ⟨.outsideRoot, p⟩, d)
    | some l => about p (d.deleteAt l)
  | .rename source target =>
    match d.location? source with
    | none => (.error ⟨.outsideRoot, source⟩, d)
    | some sourceAt =>
      match d.location? target with
      | none => (.error ⟨.outsideRoot, target⟩, d)
      | some targetAt => d.renameAt source target sourceAt targetAt

instance : Store Directory where
  holds := holds
  read := read
  perform := perform

/-- The root of a disk with nothing below it. -/
def empty : Directory := ⟨.empty, [], ⟨"/"⟩, ⟨"/"⟩⟩

/-- Everything below the directory, in the order of the listed names. -/
def listing (d : Directory) : List (String × Option ByteArray) := d.disk.listing d.root

end Directory

end Patchwork
