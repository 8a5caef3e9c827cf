import Patchwork.Change.Json
import Patchwork.CommandLine
import Patchwork.Diff
import Patchwork.Report
import Patchwork.Store.Directory
import Patchwork.Store.Overlay
import Patchwork.Text.Utf8

/-!
# One invocation

An invocation finds its directory, reads and loads the patch, applies it to the directory or, in
a trial run, to an overlay of it, and shows the paths that were touched. `Session.run` gives what
it prints, what the directory is afterwards, and everything there is to report. Specification:
section 10.
-/

namespace Patchwork

/-- Why an invocation fails. -/
inductive SessionError where
  /-- The patch cannot be read. -/
  | unreadable (patch : String)
  | diff (error : Diff.DiffError)
  /-- The patch is no document in JSON. -/
  | json
  | apply (error : ApplyError)
  | notDirectory (directory : String)
  deriving DecidableEq, Repr

namespace SessionError

/-- The error in words. -/
def message : SessionError → String
  | unreadable patch => s!"Failed to read {patch}"
  | diff error => error.message
  | json => "Invalid patch document"
  | apply error => error.message
  | notDirectory directory => s!"{directory} is not a directory"

end SessionError

namespace Document

/-- Reads a document in a format. -/
def decode (format : InputFormat) (text : String) : Except SessionError Document :=
  match format with
  | .diff =>
    match Diff.parse text with
    | .ok d => .ok d
    | .error e => .error (.diff e)
  | .json =>
    match ofJsonText? text with
    | some d => .ok d
    | none => .error .json

/-- Reads a document in a format, and turns it round if asked to. -/
def load (format : InputFormat) (reverse : Bool) (text : String) :
    Except SessionError Document :=
  (decode format text).map fun d ↦ if reverse then d.reverse else d

/-- What there is to report of reading a document. -/
def decodeEvents (format : InputFormat) (text : String) : List Event :=
  let reading :=
    match format with
    | .diff => Diff.events text
    | .json => []
  match decode format text with
  | .ok d => reading ++ [.loaded d.changes.length]
  | .error _ => reading

variable {σ : Type} [Store σ]

/-- Applies a document unless it is empty, and reports the hunk that fails. -/
def applyReporting (features : Features) (stop : Nat → Bool) (d : Document) (s : σ) :
    Outcome ApplyError PathSet σ :=
  if d.changes.isEmpty then ⟨.ok .empty, s, [.nothingToDo]⟩
  else
    let done := d.apply features stop s
    match done.result with
    | .ok paths => ⟨.ok paths, done.store, done.log⟩
    | .error e =>
      ⟨.error e, done.store, done.log ++ (e.hunk?.map Event.failingHunk).toList⟩

end Document

namespace Session

/-- Applies a document to a directory. -/
def patch (features : Features) (stop : Nat → Bool) (d : Document) (directory : Directory) :
    Outcome ApplyError PathSet Directory :=
  let done := d.applyReporting features stop directory
  match done.result with
  | .ok paths => ⟨.ok paths, done.store, done.log ++ [.patched paths.size]⟩
  | .error e =>
    ⟨.error e, done.store, done.log ++ if e.index = 0 then [] else [.partlyApplied e.index]⟩

/-- Applies a document to an overlay of a directory, which itself stays as it is. -/
def check (features : Features) (stop : Nat → Bool) (d : Document) (directory : Directory) :
    Outcome ApplyError PathSet Directory :=
  let done := d.applyReporting features stop (Overlay.fresh directory)
  match done.result with
  | .ok paths => ⟨.ok paths, directory, done.log ++ [.wouldChange paths.size]⟩
  | .error e => ⟨.error e, directory, done.log⟩

/-- The features that are on: those in the environment's list and those in the arguments. -/
def features (listed : Option String) (arguments : Arguments) : Features :=
  ((listed.map Features.ofList).getD .none).enable (arguments.features.getD [])

/-- What there is to report of the environment's list. -/
def listedEvents (listed : Option String) : List Event :=
  (listed.map fun text ↦ (Features.unknownInList text).map Event.unknownFeature).getD []

/-- Loads a patch and applies it to a directory. -/
def applyPatch (arguments : Arguments) (features : Features) (stop : Nat → Bool) (text : String)
    (directory : Directory) : Outcome SessionError String Directory :=
  let loading := Document.decodeEvents arguments.input text
  match Document.load arguments.input arguments.reverse text with
  | .error e => ⟨.error e, directory, loading⟩
  | .ok d =>
    let done :=
      if arguments.check then check features stop d directory
      else patch features stop d directory
    ⟨(done.result.map (·.render arguments.json)).mapError .apply, done.store,
      loading ++ .features features :: done.log⟩

/-- Runs an invocation in a directory, if there is one, with the bytes of the patch, if they can
be read. The result is what is printed. -/
def run (arguments : Arguments) (listed : Option String) (stop : Nat → Bool)
    (patchBytes : Option ByteArray) (directory : Option Directory) :
    Outcome SessionError String (Option Directory) :=
  let log := listedEvents listed
  match directory with
  | none => ⟨.error (.notDirectory arguments.directory), none, log⟩
  | some directory =>
    match patchBytes.map Text.decode with
    | some (.ok text) =>
      let done := applyPatch arguments (features listed arguments) stop text directory
      ⟨done.result, some done.store, log ++ done.log⟩
    | _ => ⟨.error (.unreadable arguments.patch), some directory, log⟩

/-- The bytes of the patch that the arguments name, from a disk or from standard input. -/
def patch? (disk : Disk) (working : List String) (input : ByteArray) (arguments : Arguments) :
    Option ByteArray :=
  if arguments.readsInput then some input
  else
    let path : Path := ⟨arguments.patch⟩
    match (disk.resolve? working path).bind disk.get? with
    | some entry => if path.ending = .plain then entry.content? else none
    | none => none

/-- Runs an invocation in a working directory of a disk. -/
def runOn (disk : Disk) (working : List String) (input : ByteArray) (arguments : Arguments)
    (listed : Option String) (stop : Nat → Bool) : Outcome SessionError String Disk :=
  let done :=
    run arguments listed stop (patch? disk working input arguments)
      (Directory.ofPath? disk working ⟨arguments.directory⟩)
  ⟨done.result, (done.store.map Directory.disk).getD disk, done.log⟩

end Session

end Patchwork
