import Patchwork.Change
import Patchwork.Feature

/-!
# What a run reports

An `Event` is something that happened during a run, `Event.message` puts it in words, and
`Event.severity` says who wants to know. Specification: Logging in section 7.
-/

namespace Patchwork

/-- How much a report matters, the most important first. -/
inductive Severity where
  | error
  | warn
  | info
  | debug
  | trace
  deriving DecidableEq, Repr, Inhabited

namespace Severity

/-- The severity's name. -/
def name : Severity → String
  | error => "ERROR"
  | warn => "WARN"
  | info => "INFO"
  | debug => "DEBUG"
  | trace => "TRACE"

/-- The place among the severities, the most important first. -/
def rank : Severity → Nat
  | error => 0
  | warn => 1
  | info => 2
  | debug => 3
  | trace => 4

end Severity

/-- Something that happened during a run. -/
inductive Event where
  /-- A feature list names a feature that does not exist. -/
  | unknownFeature (name : String)
  /-- A section of a diff changes nothing. -/
  | emptySection
  /-- The hunks of a deleted file do not matter. -/
  | droppedHunks (count : Nat) (path : Path)
  | loaded (changes : Nat)
  | features (enabled : Features)
  | nothingToDo
  | applying (kind : ChangeKind) (path : Path) (index total : Nat)
  | hunk (index lines : Nat) (start : UInt32)
  | unchanged (path : Path)
  /-- A rename or a copy leaves its hunks aside. -/
  | ignoredHunks (count : Nat) (path : Path)
  | applied (changes : Nat)
  | failingHunk (hunk : Hunk)
  /-- Changes were made before one failed. -/
  | partlyApplied (changes : Nat)
  /-- A trial run met no failure. -/
  | wouldChange (paths : Nat)
  | patched (paths : Nat)
  deriving DecidableEq, Repr

namespace Event

/-- How much the event matters. -/
def severity : Event → Severity
  | partlyApplied _ => .error
  | unknownFeature _ | ignoredHunks .. => .warn
  | nothingToDo | applied _ | wouldChange _ | patched _ => .info
  | emptySection | droppedHunks .. | loaded _ | features _ | applying .. | hunk .. | unchanged _
  | failingHunk _ => .debug

/-- The event in words. -/
def message : Event → String
  | unknownFeature name => s!"Unknown feature '{name}' in TREE_PATCH_FEATURES"
  | emptySection => "Skipping section with no content change"
  | droppedHunks count path => s!"Dropping {count} hunk(s) of deleted file {path.spelling}"
  | loaded changes => s!"Loaded {changes} file change(s)"
  | features enabled =>
    "Enabled features: [" ++ ", ".intercalate (enabled.toList.map Feature.logName) ++ "]"
  | nothingToDo => "Patch contains no file changes"
  | applying kind path index total =>
    s!"Applying {kind.name} {path.spelling} ({index + 1}/{total})"
  | hunk index lines start => s!"Hunk #{index + 1}: {lines} line(s) at line {start}"
  | unchanged path => s!"{path.spelling} unchanged, skipping write"
  | ignoredHunks count path =>
    s!"Ignoring {count} hunk(s) on {path.spelling}; content is carried over unchanged"
  | applied changes => s!"Applied {changes} file change(s)"
  | failingHunk h => "Failing hunk:\n" ++ h.format
  | partlyApplied changes =>
    s!"{changes} earlier file change(s) were applied before the failure"
  | wouldChange paths => s!"Patch applies cleanly ({paths} path(s) would change)"
  | patched paths => s!"Patched {paths} path(s)"

/-- The event as one entry of a log. -/
def entry (e : Event) : String := e.severity.name ++ " " ++ e.message

end Event

/-- The entries of a log that shows events down to a severity. -/
def logEntries (least : Severity) (events : List Event) : List String :=
  (events.filter fun e ↦ e.severity.rank ≤ least.rank).map Event.entry

end Patchwork
