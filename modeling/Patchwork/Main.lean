import Patchwork.Session
import Patchwork.Store.Update

/-!
# The program

Reads what an invocation needs from the file system, lets `Session.run` decide, and carries the
difference back. All that is looked at are the paths that the patch names.
-/

namespace Patchwork.Main

/-- What stands at a path of the file system. A device is not read. -/
def entryAt (path : String) : IO (Option Entry) := do
  try
    let real ← IO.FS.realPath path
    match (← real.metadata).type with
    | .dir => return some .directory
    | .file => return some (.file (← IO.FS.readBinFile path))
    | _ => return some (.device .empty)
  catch _ => return none

/-- The path of a place below a directory. -/
def pathOf (directory : String) (place : List String) : String :=
  directory ++ "/" ++ "/".intercalate place

/-- Puts what stands on the way down through names on a disk. -/
def survey (directory : String) (disk : Disk) (here : List String) : List String → IO Disk
  | [] => return disk
  | name :: names => do
    let place := here ++ [name]
    match ← entryAt (pathOf directory place) with
    | none => return disk
    | some entry => survey directory (disk.put place entry) place names

/-- The paths that a document names. -/
def pathsOf (d : Document) : List Path :=
  d.changes.flatMap fun c ↦ c.oldPath.toList ++ c.newPath.toList

/-- The part of a directory that a document is about. -/
def surveyAll (directory : String) (d : Document) : IO Disk :=
  (pathsOf d).foldlM (fun disk path ↦ survey directory disk [] path.names) .empty

/-- Carries out one step on the file system. A file is written beside its place and then moved
there, so that nobody sees half of it. -/
def carryOut (directory : String) : Update → IO Unit
  | .remove place => IO.FS.removeFile (pathOf directory place)
  | .makeDirectory place => IO.FS.createDir (pathOf directory place)
  | .write place content => do
    let target := pathOf directory place
    let beside := pathOf directory (place.dropLast ++ [Directory.draftName])
    IO.FS.writeBinFile beside content
    IO.FS.rename beside target

/-- Everything that a stream still holds. -/
partial def readAll (input : IO.FS.Stream) (sofar : ByteArray) : IO ByteArray := do
  let bytes ← input.read 65536
  if bytes.isEmpty then return sofar
  readAll input (sofar ++ bytes)

/-- The bytes of the patch, if they can be read. -/
def readPatch (arguments : Arguments) : IO (Option ByteArray) := do
  if arguments.readsInput then return some (← readAll (← IO.getStdin) .empty)
  try
    return some (← IO.FS.readBinFile arguments.patch)
  catch _ => return none

/-- The document that the bytes of a patch stand for, or an empty one. -/
def documentOf (arguments : Arguments) (bytes : Option ByteArray) : Document :=
  match bytes.map Text.decode with
  | some (.ok text) =>
    match Document.load arguments.input arguments.reverse text with
    | .ok d => d
    | .error _ => ⟨[]⟩
  | _ => ⟨[]⟩

/-- How the program is called. -/
def usage : String :=
  "Usage: [-C DIR] [--check] [-R] [--input diff|json] [--json] [--features LIST] [-v|-q] PATCH"

/-- Runs one invocation and gives the program's exit code. -/
def invoke (arguments : Arguments) : IO UInt32 := do
  let listed ← IO.getEnv "TREE_PATCH_FEATURES"
  let isDirectory := (← entryAt arguments.directory) matches some .directory
  let bytes ← if isDirectory then readPatch arguments else pure none
  let before ←
    if isDirectory then surveyAll arguments.directory (documentOf arguments bytes)
    else pure .empty
  let working : Path := ⟨(← IO.currentDir).toString⟩
  let directory :=
    if isDirectory then some (Directory.mk before [] ⟨arguments.directory⟩ working) else none
  let done := Session.run arguments listed Document.never bytes directory
  for line in logEntries arguments.severity done.log do
    IO.eprintln line
  if let some after := done.store then
    for update in before.updates after.disk do
      carryOut arguments.directory update
  match done.result with
  | .ok output =>
    if !output.isEmpty then IO.println output
    return 0
  | .error e =>
    IO.eprintln ("ERROR " ++ e.message)
    return 1

end Patchwork.Main

/-- Reads the arguments and runs the invocation. -/
def main (arguments : List String) : IO UInt32 := do
  match Patchwork.Arguments.parse arguments with
  | .ok parsed => Patchwork.Main.invoke parsed
  | .error .help | .error .version =>
    IO.println Patchwork.Main.usage
    return 0
  | .error _ =>
    IO.eprintln Patchwork.Main.usage
    return 2
