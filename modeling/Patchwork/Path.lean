/-!
# Paths

A path keeps its spelling, and stands for the list of its components: two paths are the same
when their components are. Repeated and trailing slashes and inner `.` segments make no
component; a leading `.` does, and `..` always does. Paths are ordered component by component,
the root first, then `.`, then `..`, then names by their characters.

A spelling is a text of Unicode characters. A system may have paths that are none; they come from
no diff and no JSON, and are left out.
-/

namespace Patchwork

/-- One step of a path. -/
inductive Component where
  | root
  | current
  | parent
  | name (text : String)
  deriving DecidableEq, Repr, Inhabited

namespace Component

/-- The component as it is written. -/
def text : Component → String
  | root => "/"
  | current => "."
  | parent => ".."
  | name text => text

/-- The place of the component's kind in the order of kinds. -/
def rank : Component → Nat
  | root => 0
  | current => 1
  | parent => 2
  | name _ => 3

/-- Components are ordered by kind, and names by their text. -/
instance : Ord Component where
  compare := compareLex (compareOn rank) (compareOn text)

instance : Std.TransOrd Component :=
  inferInstanceAs (Std.TransCmp (compareLex (compareOn rank) (compareOn text)))

/-- Components that compare as equal are equal. -/
instance : Std.LawfulEqOrd Component where
  eq_of_compare {a b} h := by
    have h : compareLex (compareOn rank) (compareOn text) a b = .eq := h
    rw [compareLex_eq_eq] at h
    obtain ⟨hrank, htext⟩ := h
    have hrank : a.rank = b.rank := Std.LawfulEqOrd.eq_of_compare hrank
    have htext : a.text = b.text := Std.LawfulEqOrd.eq_of_compare htext
    cases a <;> cases b <;> simp_all [rank, text]

/-- The component that a segment after the first stands for, if it stands for one. -/
def ofSegment? : List Char → Option Component
  | [] => none
  | ['.'] => none
  | ['.', '.'] => some parent
  | segment => some (name (.ofList segment))

end Component

/-- A path as it was spelled, in Unicode characters. -/
structure Path where
  spelling : String
  deriving DecidableEq, Repr, Inhabited

namespace Path

/-- The path spelled by a list of characters. -/
def ofChars (spelling : List Char) : Path := ⟨.ofList spelling⟩

/-- The spelling between slashes. -/
def segments (p : Path) : List (List Char) := p.spelling.toList.splitOn '/'

/-- The components of a spelling. -/
def componentsOf (spelling : List Char) : List Component :=
  match spelling with
  | '/' :: rest => .root :: (rest.splitOn '/').filterMap Component.ofSegment?
  | _ =>
    match spelling.splitOn '/' with
    | ['.'] :: rest => .current :: rest.filterMap Component.ofSegment?
    | segments => segments.filterMap Component.ofSegment?

/-- Whether the path starts from a root. -/
def isAbsolute (p : Path) : Bool := p.spelling.toList.head? = some '/'

/-- The path that starts where `base` leads to, unless `p` starts from a root itself. -/
def join (base p : Path) : Path :=
  if p.isAbsolute then p
  else if base.spelling.isEmpty ∨ base.spelling.toList.getLast? = some '/' then
    ⟨base.spelling ++ p.spelling⟩
  else ⟨base.spelling ++ "/" ++ p.spelling⟩

/-- The path without its last component. The segments around it that stand for no component go
with it. Of a path with one component nothing is left, but a root stays. -/
def parent (p : Path) : Path :=
  match p.segments with
  | [] => p
  | first :: rest =>
    let isIdle (segment : List Char) : Bool := (Component.ofSegment? segment).isNone
    match rest.reverse.dropWhile isIdle with
    | [] => if p.isAbsolute then ⟨"/"⟩ else ⟨""⟩
    | _ :: before =>
      let kept := before.dropWhile isIdle
      if first.isEmpty ∧ kept.isEmpty then ⟨"/"⟩
      else ofChars (['/'].intercalate (first :: kept.reverse))

/-- The components that the path stands for. -/
def components (p : Path) : List Component := componentsOf p.spelling.toList

/-- Whether two spellings stand for one path. -/
def Same (p q : Path) : Prop := p.components = q.components

instance (p q : Path) : Decidable (p.Same q) := inferInstanceAs (Decidable (_ = _))

theorem Same.refl (p : Path) : p.Same p := Eq.refl p.components

theorem Same.symm {p q : Path} (h : p.Same q) : q.Same p := Eq.symm h

theorem Same.trans {p q r : Path} (h : p.Same q) (h' : q.Same r) : p.Same r := Eq.trans h h'

/-- The path as it is shown: its components with a slash between any two. Since a spelling is text,
no character has to be replaced for that. -/
def display (p : Path) : String := "/".intercalate (p.components.map Component.text)

end Path

end Patchwork
