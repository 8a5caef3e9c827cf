import Patchwork.Hunk.Apply
import Patchwork.Store
import Patchwork.Task

/-!
# Why a patch could not be applied

A `Fault` is what went wrong with one file change, and an `ApplyError` says which change of the
document it was. `message` puts them in words. Specification: `ApplyError` in sections 3 and 4.4,
and section 7.
-/

namespace Patchwork

/-- What went wrong with one file change. -/
inductive Fault where
  /-- The change is not well formed. -/
  | defect (defect : Defect)
  /-- A hunk does not fit the file. -/
  | hunk (index : Nat) (error : HunkError)
  /-- There is a file where the change makes one. -/
  | destinationExists (path : Path)
  /-- There is no file where the change needs one. -/
  | notFound (path : Path)
  /-- The file stops being text at an offset. -/
  | notText (offset : Nat)
  /-- The run was stopped before the change was made. -/
  | interrupted
  /-- The store failed. -/
  | store (error : StoreError)
  deriving DecidableEq, Repr

namespace Fault

/-- The index of the hunk that the fault is about. -/
def hunk? : Fault → Option Nat
  | .defect d => d.hunk?
  | hunk index _ => some index
  | _ => none

/-- Whether a line of the file differs from what a hunk expects. -/
def isMismatch : Fault → Bool
  | hunk _ (.mismatch ..) => true
  | _ => false

/-- Why a hunk does not fit, in words that name the hunk. -/
def hunkMessage (index : Nat) : HunkError → String
  | .mismatch number expected actual =>
    s!"hunk #{index + 1} does not apply at line {number}: " ++
      s!"expected `{expected.format}`, found `{actual}`"
  | .pastEnd number expected length =>
    s!"hunk #{index + 1} line {number} (`{expected.format}`) is outside the file ({length} lines)"
  | .newline expectedMissing =>
    s!"hunk #{index + 1} expects the file to {HunkError.newlineExpectation expectedMissing}"

/-- That bytes are not text, in words. -/
def notTextMessage (offset : Nat) : String :=
  s!"content is not UTF-8 text (invalid byte at offset {offset})"

/-- The fault in words. -/
def message : Fault → String
  | .defect d => d.message
  | hunk index error => hunkMessage index error
  | destinationExists path => s!"{path.spelling} already exists"
  | notFound path => s!"{path.spelling} does not exist"
  | notText offset => notTextMessage offset
  | interrupted => "interrupted before this change was applied"
  | store error => error.message

end Fault

/-- A change that could not be made, and its place in the document. -/
structure ApplyError where
  index : Nat
  change : FileChange
  fault : Fault
  deriving DecidableEq, Repr

namespace ApplyError

/-- The hunk that the fault is about. -/
def hunk? (e : ApplyError) : Option Hunk := e.fault.hunk?.bind (e.change.hunks[·]?)

/-- The error in words. -/
def message (e : ApplyError) : String :=
  s!"{e.change.kind.name} {e.change.reportedPath.spelling} (change #{e.index + 1}): " ++
    e.fault.message

end ApplyError

end Patchwork
