import Patchwork.Proofs.Except
import Patchwork.Task

/-!
# When a change asks for a task

A change asks for a task when it has the task's kind, paths and hunks and nothing about them is
amiss (`FileChange.task_eq_ok_iff`).
-/

namespace Patchwork

namespace FileChange

/-- The change has the kind, the paths and the hunks that the task has, and they go together. -/
def Asks (c : FileChange) : Task → Prop
  | .add path hunks =>
    c.kind = .add ∧ c.newPath = some path ∧ c.hunks = hunks ∧
      hunks.length ≤ 1 ∧ ∀ h ∈ hunks, h.hasOld = false
  | .modify path hunks => c.kind = .modify ∧ c.newPath = some path ∧ c.hunks = hunks
  | .delete path => c.kind = .delete ∧ c.oldPath = some path ∧ c.hunks = []
  | .rename source target hunks =>
    c.kind = .rename ∧ c.oldPath = some source ∧ c.newPath = some target ∧ c.hunks = hunks ∧
      ¬ source.Same target
  | .copy source target hunks =>
    c.kind = .copy ∧ c.oldPath = some source ∧ c.newPath = some target ∧ c.hunks = hunks ∧
      ¬ source.Same target

variable {c : FileChange} {task : Task}

private theorem source_eq_ok_iff {path : Path} : c.source = .ok path ↔ c.oldPath = some path := by
  rw [source]
  cases c.oldPath <;> simp

private theorem target_eq_ok_iff {path : Path} : c.target = .ok path ↔ c.newPath = some path := by
  rw [target]
  cases c.newPath <;> simp

private theorem move_eq_ok_iff {paths : Path × Path} :
    c.move = .ok paths ↔
      c.oldPath = some paths.1 ∧ c.newPath = some paths.2 ∧ ¬ paths.1.Same paths.2 := by
  simp only [move, Except.bind_eq_ok_iff, source_eq_ok_iff, target_eq_ok_iff]
  constructor
  · rintro ⟨source, hsource, target, htarget, h⟩
    split at h
    · cases h
    · next hsame =>
      cases h
      exact ⟨hsource, htarget, hsame⟩
  · rintro ⟨hsource, htarget, hsame⟩
    exact ⟨paths.1, hsource, paths.2, htarget, if_neg hsame⟩

private theorem asks_of_taskOfKind (h : c.taskOfKind = .ok task) : c.Asks task := by
  rw [taskOfKind] at h
  cases hkind : c.kind with
  | add =>
    simp only [hkind, Except.bind_eq_ok_iff, target_eq_ok_iff] at h
    obtain ⟨path, hpath, h⟩ := h
    split at h
    · cases h
    · next hlength =>
      split at h
      · cases h
      · next hold =>
        cases h
        exact ⟨hkind, hpath, rfl, Nat.le_of_not_lt hlength, List.findIdx?_eq_none_iff.1 hold⟩
  | modify =>
    simp only [hkind, Except.bind_eq_ok_iff, target_eq_ok_iff] at h
    obtain ⟨path, hpath, h⟩ := h
    cases h
    exact ⟨hkind, hpath, rfl⟩
  | delete =>
    simp only [hkind, Except.bind_eq_ok_iff, source_eq_ok_iff] at h
    obtain ⟨path, hpath, h⟩ := h
    split at h
    · next hhunks =>
      cases h
      exact ⟨hkind, hpath, List.isEmpty_iff.1 hhunks⟩
    · cases h
  | rename | copy =>
    simp only [hkind, Except.bind_eq_ok_iff, move_eq_ok_iff] at h
    obtain ⟨paths, ⟨hsource, htarget, hsame⟩, h⟩ := h
    cases h
    exact ⟨hkind, hsource, htarget, rfl, hsame⟩

private theorem taskOfKind_of_asks (h : c.Asks task) : c.taskOfKind = .ok task := by
  cases task with
  | add path hunks =>
    obtain ⟨hkind, hpath, rfl, hlength, hold⟩ := h
    simp only [taskOfKind, hkind, Except.bind_eq_ok_iff, target_eq_ok_iff]
    refine ⟨path, hpath, ?_⟩
    rw [if_neg (Nat.not_lt_of_le hlength), List.findIdx?_eq_none_iff.2 hold]
  | modify path hunks =>
    obtain ⟨hkind, hpath, rfl⟩ := h
    simp only [taskOfKind, hkind, Except.bind_eq_ok_iff, target_eq_ok_iff]
    exact ⟨path, hpath, rfl⟩
  | delete path =>
    obtain ⟨hkind, hpath, hhunks⟩ := h
    simp only [taskOfKind, hkind, Except.bind_eq_ok_iff, source_eq_ok_iff]
    exact ⟨path, hpath, by simp [hhunks]⟩
  | rename source target hunks | copy source target hunks =>
    obtain ⟨hkind, hsource, htarget, rfl, hsame⟩ := h
    simp only [taskOfKind, hkind, Except.bind_eq_ok_iff, move_eq_ok_iff]
    exact ⟨(source, target), ⟨hsource, htarget, hsame⟩, rfl⟩

theorem task_eq_ok_iff :
    c.task = .ok task ↔ c.Asks task ∧ ∀ h ∈ c.hunks, h.startsAtZero = false := by
  have hkind : c.taskOfKind = .ok task ↔ c.Asks task := ⟨asks_of_taskOfKind, taskOfKind_of_asks⟩
  rw [FileChange.task, Except.bind_eq_ok_iff, ← List.findIdx?_eq_none_iff, ← hkind]
  cases c.hunks.findIdx? Hunk.startsAtZero <;> simp

section Defects

variable {defect : Defect} {i : Nat}

private theorem hunk?_of_source (h : c.source = .error defect) : defect.hunk? = none := by
  rw [source] at h
  cases hpath : c.oldPath <;> rw [hpath] at h <;> cases h
  rfl

private theorem hunk?_of_target (h : c.target = .error defect) : defect.hunk? = none := by
  rw [target] at h
  cases hpath : c.newPath <;> rw [hpath] at h <;> cases h
  rfl

private theorem hunk?_of_move (h : c.move = .error defect) : defect.hunk? = none := by
  simp only [move, Except.bind_eq_error_iff] at h
  obtain hsource | ⟨source, -, htarget | ⟨target, -, h⟩⟩ := h
  · exact hunk?_of_source hsource
  · exact hunk?_of_target htarget
  · split at h <;> cases h
    rfl

private theorem lt_length_of_findIdx? {p : Hunk → Bool} {hunks : List Hunk}
    (h : hunks.findIdx? p = some i) : i < hunks.length :=
  (List.findIdx?_eq_some_iff_getElem.1 h).1

private theorem lt_length_of_taskOfKind_eq_error (h : c.taskOfKind = .error defect)
    (hi : defect.hunk? = some i) : i < c.hunks.length := by
  have of_none (hnone : defect.hunk? = none) : i < c.hunks.length := by simp [hnone] at hi
  rw [taskOfKind] at h
  cases hkind : c.kind with
  | add =>
    simp only [hkind, Except.bind_eq_error_iff] at h
    obtain htarget | ⟨path, -, h⟩ := h
    · exact of_none (hunk?_of_target htarget)
    · split at h
      · cases h
        exact of_none rfl
      · split at h
        · next hfind =>
          cases h
          cases hi
          exact lt_length_of_findIdx? hfind
        · cases h
  | modify =>
    simp only [hkind, Except.bind_eq_error_iff] at h
    obtain htarget | ⟨path, -, h⟩ := h
    · exact of_none (hunk?_of_target htarget)
    · cases h
  | delete =>
    simp only [hkind, Except.bind_eq_error_iff] at h
    obtain hsource | ⟨path, -, h⟩ := h
    · exact of_none (hunk?_of_source hsource)
    · split at h <;> cases h
      exact of_none rfl
  | rename | copy =>
    simp only [hkind, Except.bind_eq_error_iff] at h
    obtain hmove | ⟨paths, -, h⟩ := h
    · exact of_none (hunk?_of_move hmove)
    · cases h

/-- A defect that is about a hunk is about one that the change has. -/
theorem lt_length_of_task_eq_error (h : c.task = .error defect) (hi : defect.hunk? = some i) :
    i < c.hunks.length := by
  rw [FileChange.task, Except.bind_eq_error_iff] at h
  obtain hkind | ⟨task, -, h⟩ := h
  · exact lt_length_of_taskOfKind_eq_error hkind hi
  · split at h
    · next hfind =>
      cases h
      cases hi
      exact lt_length_of_findIdx? hfind
    · cases h

end Defects

end FileChange

end Patchwork
