import Mathlib.Data.List.Forall2
import Patchwork.Proofs.Apply.Touched
import Patchwork.Report

/-!
# Reading a shown path back

A path is shown with a slash between any two components, the root being a slash itself, and the
components of such a text are those that it was made of (`Path.components_display`). So two paths
are shown alike only when they are the same, and the text of a set of paths has a line of its own
for each of them. Main statement: `PathSet.display_faithful`.
-/

namespace Patchwork

namespace Component

/-- The component is one that a segment behind the first can stand for: it is spelled as a segment,
and is neither a root nor a leading `.`. -/
def IsSegment (c : Component) : Prop :=
  ofSegment? c.text.toList = some c ∧ '/' ∉ c.text.toList

variable {c : Component} {segment : List Char}

/-- A component is written as the segment that stands for it. -/
theorem toList_text_of_ofSegment? (h : ofSegment? segment = some c) : c.text.toList = segment := by
  rw [ofSegment?.eq_def] at h
  split at h
  · cases h
  · cases h
  · cases h
    rfl
  · cases h
    exact String.toList_ofList

theorem isSegment_of_ofSegment? (h : ofSegment? segment = some c) (hslash : '/' ∉ segment) :
    c.IsSegment := by
  rw [IsSegment, toList_text_of_ofSegment? h]
  exact ⟨h, hslash⟩

theorem IsSegment.toList_text_ne_nil (h : c.IsSegment) : c.text.toList ≠ [] := by
  intro hnil
  have hsome := h.1
  rw [hnil] at hsome
  cases hsome

theorem IsSegment.toList_text_ne_current (h : c.IsSegment) : c.text.toList ≠ ['.'] := by
  intro hcurrent
  have hsome := h.1
  rw [hcurrent] at hsome
  cases hsome

/-- Components are read back from the segments that they are written as. -/
theorem filterMap_ofSegment? {components : List Component} (h : ∀ c ∈ components, c.IsSegment) :
    (components.map (·.text.toList)).filterMap ofSegment? = components := by
  have hread : ∀ c ∈ components, ofSegment? c.text.toList = some (id c) := fun c hc ↦ (h c hc).1
  rw [List.filterMap_map]
  calc components.filterMap (ofSegment? ∘ fun c ↦ c.text.toList)
    _ = components.map id := List.filterMap_eq_map_iff_forall_eq_some.2 hread
    _ = components := List.map_id components

end Component

namespace Path

open Component (ofSegment? IsSegment filterMap_ofSegment?)

variable {p q : Path} {rest : List Component}

/-- How the components of a path are arranged: a root or a `.` comes first or not at all. -/
inductive Arranged : List Component → Prop
  | absolute {rest : List Component} (h : ∀ c ∈ rest, c.IsSegment) : Arranged (.root :: rest)
  | current {rest : List Component} (h : ∀ c ∈ rest, c.IsSegment) : Arranged (.current :: rest)
  | relative {rest : List Component} (h : ∀ c ∈ rest, c.IsSegment) : Arranged rest

/-- What stands between slashes holds none. -/
private theorem slash_notMem_of_mem_splitOn (spelling : List Char) :
    ∀ segment ∈ spelling.splitOn '/', '/' ∉ segment := by
  induction spelling with
  | nil => simp
  | cons c spelling ih =>
    rw [List.splitOn_cons_eq_if_modifyHead]
    split
    · exact List.forall_mem_cons.2 ⟨List.not_mem_nil, ih⟩
    · next hc =>
      cases hsplit : spelling.splitOn '/' with
      | nil => exact absurd hsplit (List.splitOn_ne_nil _ _)
      | cons first others =>
        rw [hsplit, List.forall_mem_cons] at ih
        rw [List.modifyHead_cons, List.forall_mem_cons, List.mem_cons, not_or]
        exact ⟨⟨fun heq ↦ hc (beq_iff_eq.2 heq.symm), ih.1⟩, ih.2⟩

/-- The components of every spelling are arranged so. -/
theorem arranged_components (p : Path) : Arranged p.components := by
  have hsegments {segments : List (List Char)} (h : ∀ segment ∈ segments, '/' ∉ segment) :
      ∀ c ∈ segments.filterMap ofSegment?, c.IsSegment := by
    intro c hc
    obtain ⟨segment, hmem, hsegment⟩ := List.mem_filterMap.1 hc
    exact Component.isSegment_of_ofSegment? hsegment (h segment hmem)
  rw [components, componentsOf.eq_def]
  split
  · exact .absolute (hsegments (slash_notMem_of_mem_splitOn _))
  · have hslash := slash_notMem_of_mem_splitOn p.spelling.toList
    split
    · next rest hsplit =>
      rw [hsplit, List.forall_mem_cons] at hslash
      exact .current (hsegments hslash.2)
    · exact .relative (hsegments hslash)

/-- The texts of the components with slashes between them. -/
private theorem toList_display (p : Path) :
    p.display.toList = ['/'].intercalate (p.components.map (·.text.toList)) := by
  rw [display, String.toList_intercalate, List.map_map]
  rfl

private theorem slash_notMem_of_mem_map (h : ∀ c ∈ rest, c.IsSegment) :
    ∀ segment ∈ rest.map (·.text.toList), '/' ∉ segment := by
  intro segment hmem
  obtain ⟨c, hc, rfl⟩ := List.mem_map.1 hmem
  exact (h c hc).2

/-- Behind the slash of the root an empty segment is read, and then the others. -/
private theorem componentsOf_absolute (h : ∀ c ∈ rest, c.IsSegment) :
    componentsOf (['/'].intercalate (['/'] :: rest.map (·.text.toList))) = .root :: rest := by
  have hspelling : ['/'].intercalate (['/'] :: rest.map (·.text.toList)) =
      '/' :: ['/'].intercalate ([] :: rest.map (·.text.toList)) := by
    cases rest <;> simp [List.intercalate_cons_cons]
  have hslash : ∀ segment ∈ [] :: rest.map (·.text.toList), '/' ∉ segment :=
    List.forall_mem_cons.2 ⟨List.not_mem_nil, slash_notMem_of_mem_map h⟩
  rw [hspelling, componentsOf, List.splitOn_intercalate '/' hslash (List.cons_ne_nil _ _)]
  exact congrArg _ (filterMap_ofSegment? h)

/-- A text that begins with no slash is read segment by segment. -/
private theorem componentsOf_intercalate {first : List Char} {segments : List (List Char)}
    (hfirst : first ≠ []) (hslash : ∀ segment ∈ first :: segments, '/' ∉ segment) :
    componentsOf (['/'].intercalate (first :: segments)) =
      if first = ['.'] then .current :: segments.filterMap ofSegment?
      else (first :: segments).filterMap ofSegment? := by
  have hsplit : (['/'].intercalate (first :: segments)).splitOn '/' = first :: segments :=
    List.splitOn_intercalate '/' hslash (List.cons_ne_nil _ _)
  rw [componentsOf.eq_def, hsplit]
  split
  · next spelling hspelling =>
    cases first with
    | nil => exact absurd rfl hfirst
    | cons c first =>
      have hc : c = '/' := by cases segments <;> simp_all [List.intercalate_cons_cons]
      exact absurd (hc ▸ List.mem_cons_self) (hslash _ List.mem_cons_self)
  · by_cases hcurrent : first = ['.']
    · subst hcurrent
      rfl
    · rw [if_neg hcurrent]
      split
      · next heq => exact absurd (List.cons.inj heq).1 hcurrent
      · rfl

/-- Components that are arranged like those of a path are read back from their texts. -/
theorem Arranged.componentsOf_eq {components : List Component} (h : Arranged components) :
    componentsOf (['/'].intercalate (components.map (·.text.toList))) = components := by
  cases h with
  | absolute h => exact componentsOf_absolute h
  | @current rest h =>
    have hslash : ∀ segment ∈ ['.'] :: rest.map (·.text.toList), '/' ∉ segment :=
      List.forall_mem_cons.2 ⟨by decide, slash_notMem_of_mem_map h⟩
    have hread := componentsOf_intercalate (List.cons_ne_nil _ _) hslash
    rw [if_pos rfl, filterMap_ofSegment? h] at hread
    exact hread
  | relative h =>
    cases components with
    | nil => rfl
    | cons c rest =>
      have hc := h c List.mem_cons_self
      have hread := componentsOf_intercalate hc.toList_text_ne_nil (slash_notMem_of_mem_map h)
      rw [if_neg hc.toList_text_ne_current] at hread
      rw [List.map_cons, hread]
      exact filterMap_ofSegment? h

/-- A path that is read back where it is shown has the components that it had. -/
theorem components_display (p : Path) : (⟨p.display⟩ : Path).components = p.components := by
  rw [components, toList_display]
  exact (arranged_components p).componentsOf_eq

/-- Two paths are shown alike when they are the same. -/
theorem display_eq_iff : p.display = q.display ↔ p.Same q := by
  constructor
  · intro h
    calc p.components
      _ = (⟨p.display⟩ : Path).components := (components_display p).symm
      _ = (⟨q.display⟩ : Path).components := by rw [h]
      _ = q.components := components_display q
  · intro h
    rw [display, display, show p.components = q.components from h]

end Path

namespace PathSet

/-- A set has no path twice, under whatever spellings. -/
theorem pairwise_paths_ofPaths (paths : List Path) :
    (ofPaths paths).paths.Pairwise (¬ ·.Same ·) := by
  have hkey : ∀ entry ∈ (ofPaths paths).entries.toList, entry.2.1.components = entry.1 := by
    intro entry hentry
    have hfound := Std.ExtTreeMap.mem_toList_iff_getElem?_eq_some.1 hentry
    rw [getElem?_ofPaths, Option.map_eq_some_iff] at hfound
    obtain ⟨p, hfind, hp⟩ := hfound
    rw [← hp]
    simpa using List.find?_some hfind
  rw [PathSet.paths, PathMap.toList, List.map_map, List.pairwise_map]
  refine List.Pairwise.imp_of_mem ?_ (ofPaths paths).entries.distinct_keys_toList
  intro a b ha hb hdistinct hsame
  refine hdistinct ?_
  rw [← hkey a ha, ← hkey b hb, show a.2.1.components = b.2.1.components from hsame]
  exact Std.ReflCmp.compare_self

/-- What is shown of a path is read back as that path, so two paths are shown alike only when they
are the same. The text of a set of paths has one line for each, no two of which are alike, and each
of them is read back as its path. -/
theorem display_faithful (p q : Path) (paths : List Path) :
    (⟨p.display⟩ : Path).Same p ∧ (p.display = q.display ↔ p.Same q) ∧
      ∃ shown : List String, (ofPaths paths).text = "\n".intercalate shown ∧ shown.Nodup ∧
        List.Forall₂ (fun path line ↦ Path.Same ⟨line⟩ path) (ofPaths paths).paths shown := by
  refine ⟨Path.components_display p, Path.display_eq_iff,
    (ofPaths paths).paths.map Path.display, rfl, ?_, ?_⟩
  · rw [List.Nodup, List.pairwise_map]
    exact (pairwise_paths_ofPaths paths).imp fun hne heq ↦ hne (Path.display_eq_iff.1 heq)
  · rw [List.forall₂_map_right_iff, List.forall₂_same]
    exact fun path _ ↦ Path.components_display path

/-- The root and the slash behind it are both shown, and what makes no component is not. -/
example : (⟨"/a/./b//"⟩ : Path).display = "//a/b" := by decide

end PathSet

end Patchwork
