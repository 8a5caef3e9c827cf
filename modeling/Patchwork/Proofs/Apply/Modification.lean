import Patchwork.Apply
import Patchwork.Proofs.Apply.Decision
import Patchwork.Proofs.Change.Task
import Patchwork.Store.Memory

/-!
# What a modification does to its file

A modification reads the lines of its file and applies its hunks to them. It writes what comes of
this unless the file keeps its lines and its end (`FileChange.store_apply_modify`).
-/

namespace Patchwork

namespace Stage

variable {σ : Type} [Store σ]

/-- One stage alone is all that is run. -/
theorem runAll_singleton (s : σ) (stage : Stage) : runAll s [stage] = stage.run s := by
  rw [runAll]
  obtain ⟨result, store, log⟩ := stage.run s
  cases result with
  | error f => rfl
  | ok _ => exact congrArg (Outcome.mk _ _) (List.append_nil log)

end Stage

namespace FileChange

variable {σ : Type} [Store σ] {s : σ} {features : Features} {c : FileChange} {p : Path}

/-- A modification that is made has edited the file at its new path. -/
private theorem run_of_apply_modify (hkind : c.kind = .modify)
    (hok : (c.apply features s).result = .ok p) :
    c.newPath = some p ∧ ((Stage.edit p c.hunks).run s).result = .ok () ∧
      (c.apply features s).store = ((Stage.edit p c.hunks).run s).store := by
  rw [apply] at hok ⊢
  cases htask : c.task with
  | error d =>
    rw [htask] at hok
    cases hok
  | ok task =>
    obtain ⟨hasks, -⟩ := task_eq_ok_iff.1 htask
    cases task with
    | modify path hunks =>
      obtain ⟨-, hpath, rfl⟩ := hasks
      simp only [htask, Task.stages, Stage.runAll_singleton] at hok ⊢
      cases hrun : ((Stage.edit path c.hunks).run s).result with
      | error f =>
        rw [hrun] at hok
        cases hok
      | ok _ =>
        rw [hrun] at hok
        cases hok
        exact ⟨hpath, hrun, rfl⟩
    | add | delete | rename | copy => exact absurd (hasks.1.symm.trans hkind) (by decide)

/-- A modification that is made has applied its hunks to the lines of the file, and has written what
came of it unless the content was the same. -/
theorem store_apply_modify (hkind : c.kind = .modify) (hok : (c.apply features s).result = .ok p) :
    c.newPath = some p ∧ ∃ old new, Stage.fileLines s p = .ok old ∧
      old.patchAll 0 c.hunks = .ok new ∧
      (c.apply features s).store =
        if new.SameContent old then s else (Store.perform s (.write p new.bytes)).2 := by
  obtain ⟨hpath, hrun, hstore⟩ := run_of_apply_modify hkind hok
  rw [Stage.run] at hrun hstore
  cases hdecide : Stage.decide s (.edit p c.hunks) with
  | error f =>
    rw [hdecide] at hrun
    cases hrun
  | ok edit? =>
    obtain ⟨-, old, new, hlines, hpatch, rfl⟩ := Stage.exists_of_decideEdit hdecide
    refine ⟨hpath, old, new, hlines, hpatch, ?_⟩
    rw [hstore, hdecide]
    split
    · rfl
    · rw [Stage.carryOut_some]

section Instance

/-- A store with one file. -/
def holding (text : String) : Memory := .ofList [(⟨"f"⟩, text.toUTF8)]

/-- The modification of that file with the given hunks. -/
def modifying (hunks : List Hunk) : FileChange := ⟨.modify, none, some ⟨"f"⟩, hunks⟩

end Instance

end FileChange

end Patchwork
