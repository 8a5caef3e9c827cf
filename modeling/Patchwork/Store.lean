import Patchwork.Path

/-!
# Stores of files

A store holds files under paths. It can be asked whether it holds a file and what is in it, and
it performs edits. An edit that fails may still leave something behind, so performing one always
gives a store. Specification: Working-Tree Store in section 6.
-/

namespace Patchwork

/-- Contents are compared in one way, whatever other instances there may be. -/
instance decidableEqContent : DecidableEq ByteArray := ByteArray.decEq

/-- How an operation on a store fails. -/
inductive StoreErrorKind where
  | notFound
  | alreadyExists
  | outsideRoot
  | io
  deriving DecidableEq, Repr, Inhabited

/-- An operation on the file at `path` failed. -/
structure StoreError where
  kind : StoreErrorKind
  path : Path
  deriving DecidableEq, Repr, Inhabited

namespace StoreError

/-- The error in words. -/
def message (e : StoreError) : String :=
  match e.kind with
  | .notFound => s!"{e.path.spelling} does not exist"
  | .alreadyExists => s!"{e.path.spelling} already exists"
  | .outsideRoot => s!"{e.path.spelling} is outside the working tree"
  | .io => s!"I/O error on {e.path.spelling}"

end StoreError

/-- A change to the files of a store. -/
inductive Edit where
  /-- Sets a file's content, whether or not the file is there (`write_bytes`). -/
  | write (path : Path) (content : ByteArray)
  /-- Makes an empty file where there is none (`create_empty`). -/
  | create (path : Path)
  /-- Takes a file away. -/
  | delete (path : Path)
  /-- Moves a file to a path where there is none. -/
  | rename (source target : Path)
  deriving DecidableEq

/-- Files under paths, with the edits that change them. -/
class Store (σ : Type) where
  /-- Whether there is a file at the path (`exists`). -/
  holds : σ → Path → Bool
  /-- The content of the file at the path (`read_bytes`). -/
  read : σ → Path → Except StoreError ByteArray
  /-- The edit's result and what the store is after it. -/
  perform : σ → Edit → Except StoreError Unit × σ

end Patchwork
