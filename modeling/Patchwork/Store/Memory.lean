import Patchwork.PathMap
import Patchwork.Store

/-!
# Files in memory

A store that is a map from paths to contents. It counts how often each path was written, so that
one can tell a file that was left alone from one that was written with the content it had.
Specification: `MemoryWorkTree` in section 6.
-/

namespace Patchwork

/-- Contents by path, and how often each path was written. -/
structure Memory where
  files : PathMap ByteArray
  writes : PathMap Nat

namespace Memory

/-- The store without files. -/
def empty : Memory := ⟨.empty, .empty⟩

instance : Inhabited Memory := ⟨empty⟩

/-- The content at a path. -/
def get? (m : Memory) (p : Path) : Option ByteArray := m.files.get? p

/-- How often a path was written. -/
def writeCount (m : Memory) (p : Path) : Nat := (m.writes.get? p).getD 0

/-- Puts a file there without counting it as written. -/
def seed (m : Memory) (p : Path) (content : ByteArray) : Memory :=
  { m with files := m.files.insert p content }

/-- The store that holds the given files and has written none of them. -/
def ofList (files : List (Path × ByteArray)) : Memory :=
  files.foldl (fun m file ↦ m.seed file.1 file.2) empty

/-- The content at a path. -/
def read (m : Memory) (p : Path) : Except StoreError ByteArray :=
  match m.get? p with
  | some content => .ok content
  | none => .error ⟨.notFound, p⟩

/-- Performs an edit; one that fails leaves the store as it was. -/
def perform (m : Memory) : Edit → Except StoreError Unit × Memory
  | .write p content =>
    (.ok (), ⟨m.files.insert p content, m.writes.insert p (m.writeCount p + 1)⟩)
  | .create p =>
    if m.files.contains p then (.error ⟨.alreadyExists, p⟩, m)
    else (.ok (), m.seed p .empty)
  | .delete p =>
    if m.files.contains p then (.ok (), { m with files := m.files.erase p })
    else (.error ⟨.notFound, p⟩, m)
  | .rename source target =>
    if m.files.contains target then (.error ⟨.alreadyExists, target⟩, m)
    else
      match m.get? source with
      | none => (.error ⟨.notFound, source⟩, m)
      | some content =>
        (.ok (), { m with files := (m.files.erase source).insert target content })

instance : Store Memory where
  holds m p := m.files.contains p
  read := read
  perform := perform

end Memory

end Patchwork
