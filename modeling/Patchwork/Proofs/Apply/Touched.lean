import Patchwork.Proofs.Apply.Congruence
import Patchwork.Proofs.Apply.Decision
import Patchwork.Proofs.Apply.Run
import Patchwork.Proofs.Change.Task

/-!
# The paths that a run touches

A run that comes out well touches one path for each change of the document
(`Document.touched_of_apply`), so the set of touched paths is made of paths of the document, as they
are spelled there (`Document.mem_paths_of_touched`).
-/

namespace Patchwork

namespace PathMap

variable {V : Type} {m m' : PathMap V} {item : Path × V}

theorem ext (h : ∀ key : List Component, m.entries[key]? = m'.entries[key]?) : m = m' := by
  obtain ⟨entries⟩ := m
  obtain ⟨entries'⟩ := m'
  exact congrArg mk (Std.ExtTreeMap.ext_getElem? h)

theorem mem_toList_iff : item ∈ m.toList ↔ ∃ key : List Component, m.entries[key]? = some item := by
  rw [toList, List.mem_map]
  constructor
  · rintro ⟨⟨key, found⟩, hmem, rfl⟩
    exact ⟨key, Std.ExtTreeMap.mem_toList_iff_getElem?_eq_some.1 hmem⟩
  · rintro ⟨key, hkey⟩
    exact ⟨(key, item), Std.ExtTreeMap.mem_toList_iff_getElem?_eq_some.2 hkey, rfl⟩

end PathMap

namespace PathSet

/-- A set has each path as it is first spelled. -/
theorem getElem?_ofPaths (paths : List Path) (key : List Component) :
    (ofPaths paths).entries[key]? = (paths.find? (·.components = key)).map (·, ()) := by
  have hfoldl (s : PathSet) :
      ((paths.map (·, ())).foldl (fun m item ↦ m.insert item.1 item.2) s).entries[key]? =
        (s.entries[key]?).or ((paths.find? (·.components = key)).map (·, ())) := by
    induction paths generalizing s with
    | nil => simp
    | cons p paths ih =>
      rw [List.map_cons, List.foldl_cons, ih, PathMap.insert, Std.ExtTreeMap.getElem?_alter,
        List.find?_cons]
      by_cases h : p.components = key
      · subst h
        cases s.entries[p.components]? <;> simp
      · simp [h]
  rw [ofPaths, PathMap.ofList, hfoldl]
  simp [PathMap.empty]

/-- The set of some paths has no others. -/
theorem mem_of_mem_paths_ofPaths {p : Path} {paths : List Path} (h : p ∈ (ofPaths paths).paths) :
    p ∈ paths := by
  obtain ⟨item, hitem, rfl⟩ := List.mem_map.1 h
  obtain ⟨key, hkey⟩ := PathMap.mem_toList_iff.1 hitem
  rw [getElem?_ofPaths, Option.map_eq_some_iff] at hkey
  obtain ⟨p, hfind, rfl⟩ := hkey
  exact List.mem_of_find?_eq_some hfind

/-- The set of some paths has these, under whatever spelling. -/
theorem contains_ofPaths_iff {p : Path} {paths : List Path} :
    (ofPaths paths).contains p = true ↔ ∃ q ∈ paths, q.Same p := by
  rw [PathMap.contains, PathMap.get?, getElem?_ofPaths, Option.isSome_map, Option.isSome_map,
    List.find?_isSome]
  simp only [decide_eq_true_eq, Path.Same]

end PathSet

namespace FileChange

/-- The path under which a change counts as touched. -/
def touchedPath (c : FileChange) : Option Path :=
  match c.kind with
  | .delete => c.oldPath
  | .add | .modify | .rename | .copy => c.newPath

theorem touchedPath_of_task {c : FileChange} {task : Task} (h : c.task = .ok task) :
    c.touchedPath = some task.path := by
  obtain ⟨hasks, -⟩ := task_eq_ok_iff.1 h
  cases task <;> simp_all [Asks, touchedPath, Task.path]

variable {σ : Type} [Store σ] {features : Features} {c : FileChange} {s : σ} {p : Path}

/-- A change that is made touches the path of its task. -/
theorem exists_task_of_apply (h : (c.apply features s).result = .ok p) :
    ∃ task, c.task = .ok task ∧ p = task.path := by
  rw [apply] at h
  split at h
  · cases h
  · next task htask =>
    refine ⟨task, htask, ?_⟩
    simp only [] at h
    cases hresult : (Stage.runAll s (task.stages features)).result <;> rw [hresult] at h <;> cases h
    rfl

end FileChange

/-- Each change touches its path. -/
theorem Steps.map_touchedPath {σ : Type} [Store σ] {features : Features}
    {changes : List FileChange} {s s' : σ} {paths : List Path}
    (h : Steps features changes s paths s') :
    changes.map FileChange.touchedPath = paths.map some := by
  induction h with
  | nil => rfl
  | cons hc _ ih =>
    obtain ⟨task, htask, rfl⟩ := FileChange.exists_task_of_apply hc
    rw [List.map_cons, List.map_cons, FileChange.touchedPath_of_task htask, ih]

namespace Document

/-- The paths that applying the document looks at. -/
def paths (features : Features) (d : Document) : List Path :=
  (d.stages features).flatMap Stage.paths

private theorem path_mem_stages (features : Features) (task : Task) :
    task.path ∈ (task.stages features).flatMap Stage.paths := by
  cases task <;> simp [Task.stages, Task.path, Stage.paths]

variable {σ : Type} [Store σ] {features : Features} {stop : Nat → Bool} {d : Document} {s : σ}
  {touched : PathSet}

/-- The touched paths are those of the document's changes, one for each. -/
theorem touched_of_apply (h : (d.apply features stop s).result = .ok touched) :
    ∃ paths, d.changes.map FileChange.touchedPath = paths.map some ∧ touched = .ofPaths paths := by
  obtain ⟨-, -, paths, htouched, hsteps⟩ := steps_of_apply h
  exact ⟨paths, hsteps.map_touchedPath, htouched⟩

/-- The path of each change counts as touched, under whatever spelling, and no other path does. -/
theorem contains_of_apply (h : (d.apply features stop s).result = .ok touched) (p : Path) :
    touched.contains p = true ↔ ∃ c ∈ d.changes, ∃ q ∈ c.touchedPath, q.Same p := by
  obtain ⟨paths, hpaths, rfl⟩ := touched_of_apply h
  have hmem (q : Path) : q ∈ paths ↔ ∃ c ∈ d.changes, c.touchedPath = some q := by
    rw [← List.mem_map, hpaths]
    simp
  rw [PathSet.contains_ofPaths_iff]
  constructor
  · rintro ⟨q, hq, hsame⟩
    obtain ⟨c, hc, hpath⟩ := (hmem q).1 hq
    exact ⟨c, hc, q, hpath, hsame⟩
  · rintro ⟨c, hc, q, hpath, hsame⟩
    exact ⟨q, (hmem q).2 ⟨c, hc, hpath⟩, hsame⟩

/-- Every touched path is one that applying the document looks at. -/
theorem mem_paths_of_touched (h : (d.apply features stop s).result = .ok touched) {p : Path}
    (hp : p ∈ touched.paths) : p ∈ d.paths features := by
  obtain ⟨paths, hpaths, rfl⟩ := touched_of_apply h
  have hmem : some p ∈ d.changes.map FileChange.touchedPath :=
    hpaths ▸ List.mem_map_of_mem (PathSet.mem_of_mem_paths_ofPaths hp)
  obtain ⟨c, hc, hpath⟩ := List.mem_map.1 hmem
  obtain ⟨task, htask⟩ := check_eq_ok_iff.1 (steps_of_apply h).1 c hc
  rw [FileChange.touchedPath_of_task htask, Option.some.injEq] at hpath
  have hstages : c.stages features = task.stages features := by rw [FileChange.stages, htask]
  rw [Document.paths, Document.stages, List.flatMap_assoc, List.mem_flatMap]
  exact ⟨c, hc, hstages ▸ hpath ▸ path_mem_stages features task⟩

end Document

end Patchwork
