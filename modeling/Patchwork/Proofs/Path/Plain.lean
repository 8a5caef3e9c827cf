import Mathlib.Data.List.Basic
import Patchwork.Store.Directory

/-!
# Paths of plain names

A path of plain names has no other segments than its names. It is known by them: it stays below the
directory that it starts from, it does not ask for a directory, and two such paths are the same when
their names are.
-/

namespace Patchwork.Path

/-- Every segment of the path is a name: it is not empty, and it is neither `.` nor `..`. -/
def Plain (p : Path) : Prop :=
  ∀ segment ∈ p.segments, segment ≠ [] ∧ segment ≠ ['.'] ∧ segment ≠ ['.', '.']

instance (p : Path) : Decidable p.Plain :=
  inferInstanceAs (Decidable (∀ segment ∈ p.segments, _))

variable {p q : Path}

theorem segments_ne_nil (p : Path) : p.segments ≠ [] := List.splitOnP_ne_nil _ _

/-- Of a path that starts from a root the first segment is empty. -/
private theorem segments_of_root {rest : List Char} (h : p.spelling.toList = '/' :: rest) :
    [] ∈ p.segments := by
  rw [segments, h, List.splitOn_eq_splitOnP, List.splitOnP_cons_eq_if_modifyHead]
  simp

private theorem ofSegment?_of_name {segment : List Char}
    (h : segment ≠ [] ∧ segment ≠ ['.'] ∧ segment ≠ ['.', '.']) :
    Component.ofSegment? segment = some (.name (.ofList segment)) := by
  obtain ⟨hempty, hcurrent, hparent⟩ := h
  rw [Component.ofSegment?]
  · exact hempty
  · exact hcurrent
  · exact hparent

namespace Plain

/-- The components of a plain path are its segments. -/
theorem components_eq (h : p.Plain) :
    p.components = p.segments.map fun segment ↦ .name (.ofList segment) := by
  have hsegments : p.segments.filterMap Component.ofSegment? =
      p.segments.map fun segment ↦ .name (.ofList segment) :=
    List.filterMap_eq_map_iff_forall_eq_some.2 fun segment hsegment ↦
      ofSegment?_of_name (h segment hsegment)
  have hfirst (rest : List (List Char)) : p.spelling.toList.splitOn '/' ≠ ['.'] :: rest := by
    intro hsplit
    exact (h ['.'] (by rw [segments, hsplit]; exact List.mem_cons_self)).2.1 rfl
  rw [← hsegments, components, componentsOf]
  · split
    · next rest hsplit => exact absurd hsplit (hfirst rest)
    · rfl
  · intro rest hroot
    exact (h [] (segments_of_root hroot)).1 rfl

theorem names_eq (h : p.Plain) : p.names = p.segments.map String.ofList := by
  rw [names, h.components_eq, List.filterMap_map]
  exact List.filterMap_eq_map_iff_forall_eq_some.2 fun _ _ ↦ rfl

/-- The components of a plain path are its names. -/
theorem components_eq_names (h : p.Plain) : p.components = p.names.map .name := by
  rw [h.components_eq, h.names_eq, List.map_map]
  rfl

theorem names_ne_nil (h : p.Plain) : p.names ≠ [] := by
  rw [h.names_eq]
  exact fun hnil ↦ p.segments_ne_nil (List.map_eq_nil_iff.1 hnil)

theorem same_iff (hp : p.Plain) (hq : q.Plain) : p.Same q ↔ p.names = q.names := by
  constructor
  · intro h
    rw [names, names, show p.components = q.components from h]
  · intro h
    show p.components = q.components
    rw [hp.components_eq_names, hq.components_eq_names, h]

theorem staysBelow (h : p.Plain) : p.staysBelow = true := by
  have hspelling : p.spelling.isEmpty = false := by
    rw [Bool.eq_false_iff]
    intro hempty
    refine (h [] ?_).1 rfl
    rw [segments, String.isEmpty_iff.1 hempty]
    exact List.mem_cons_self
  rw [Path.staysBelow, hspelling, h.components_eq_names]
  simp

theorem ending (h : p.Plain) : p.ending = .plain := by
  rw [Path.ending]
  split
  · next before hlast =>
    exact absurd rfl (h [] (List.mem_reverse.1 (hlast ▸ List.mem_cons_self))).1
  · next before hlast =>
    exact absurd rfl (h ['.'] (List.mem_reverse.1 (hlast ▸ List.mem_cons_self))).2.1
  · rfl

end Plain

end Patchwork.Path
