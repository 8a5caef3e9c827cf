import Patchwork.Path
import Std.Data.ExtTreeMap

/-!
# Maps from paths

A map that looks paths up by their components and lists them in the order of paths. A path that
is already there keeps the spelling it was first inserted under.
-/

namespace Patchwork

/-- A finite map from paths to values, with one spelling for each path. -/
structure PathMap (V : Type) where
  entries : Std.ExtTreeMap (List Component) (Path × V)

namespace PathMap

variable {V : Type}

/-- The map without paths. -/
def empty : PathMap V := ⟨∅⟩

instance : Inhabited (PathMap V) := ⟨empty⟩

/-- The value at a path. -/
def get? (m : PathMap V) (p : Path) : Option V := m.entries[p.components]?.map Prod.snd

/-- Whether the map has the path. -/
def contains (m : PathMap V) (p : Path) : Bool := (m.get? p).isSome

/-- Sets the value at a path; one that is there already keeps its spelling. -/
def insert (m : PathMap V) (p : Path) (v : V) : PathMap V :=
  ⟨m.entries.alter p.components fun found ↦ some ((found.map Prod.fst).getD p, v)⟩

/-- Takes a path out. -/
def erase (m : PathMap V) (p : Path) : PathMap V := ⟨m.entries.erase p.components⟩

/-- Spelled paths with their values, in the order of paths. -/
def toList (m : PathMap V) : List (Path × V) := m.entries.toList.map Prod.snd

/-- The number of paths. -/
def size (m : PathMap V) : Nat := m.entries.size

/-- The map that comes from inserting the items one after another. -/
def ofList (items : List (Path × V)) : PathMap V :=
  items.foldl (fun m item ↦ m.insert item.1 item.2) empty

@[simp] theorem get?_empty (p : Path) : (empty : PathMap V).get? p = none := by
  simp [empty, get?]

/-- A path just set has its new value, and every other path has the value it had. -/
theorem get?_insert (m : PathMap V) (p q : Path) (v : V) :
    (m.insert p v).get? q = if p.Same q then some v else m.get? q := by
  by_cases h : p.Same q
  · simp [insert, get?, h, show p.components = q.components from h]
  · simp [insert, get?, Std.ExtTreeMap.getElem?_alter, h,
      show ¬ p.components = q.components from h]

/-- A path just taken out has no value, and every other path has the value it had. -/
theorem get?_erase (m : PathMap V) (p q : Path) :
    (m.erase p).get? q = if p.Same q then none else m.get? q := by
  by_cases h : p.Same q
  · simp [erase, get?, h, show p.components = q.components from h]
  · simp [erase, get?, Std.ExtTreeMap.getElem?_erase, h,
      show ¬ p.components = q.components from h]

/-- Spellings of one path have one value. -/
theorem get?_congr (m : PathMap V) {p q : Path} (h : p.Same q) : m.get? p = m.get? q := by
  rw [get?, get?, h]

end PathMap

end Patchwork
