import Patchwork.Apply
import Patchwork.Json

/-!
# Showing the paths that were touched

The result of a run as text, one path on a line, or as JSON. Text shows paths by their
components, JSON as they were spelled. Specification: `ApplyResult` in section 4.4, and section 10.
-/

namespace Patchwork.PathSet

/-- One path on a line. -/
def text (s : PathSet) : String := "\n".intercalate (s.paths.map Path.display)

/-- The set as a JSON value. -/
def toJson (s : PathSet) : Json :=
  .ofFields [("touched_paths", .array (s.paths.map fun p ↦ .ofText p.spelling))]

/-- The set as indented JSON. -/
def jsonText (s : PathSet) : String := s.toJson.pretty

/-- The set as it is printed. -/
def render (json : Bool) (s : PathSet) : String := if json then s.jsonText else s.text

end Patchwork.PathSet
