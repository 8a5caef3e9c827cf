import Patchwork.Proofs.Apply.Touched
import Patchwork.Proofs.Store.Memory

/-!
# What a run leaves alone

A stage edits the files that it may change, and they are among those that its file change affects
(`FileChange.written_subset_affected`). A file at any other path keeps its content and is not
written, whether or not the run comes out well (`Document.sameAt_apply`). Main statement:
`Document.apply_frame`.
-/

namespace Patchwork

namespace FileChange

/-- The paths whose files a change may change. The source of a copy is not among them. -/
def affected (c : FileChange) : List Path :=
  match c.kind with
  | .add | .modify | .copy => c.newPath.toList
  | .delete => c.oldPath.toList
  | .rename => c.oldPath.toList ++ c.newPath.toList

/-- The paths that a change names. -/
def named (c : FileChange) : List Path := c.oldPath.toList ++ c.newPath.toList

theorem mem_named_of_touchedPath {c : FileChange} {p : Path} (h : c.touchedPath = some p) :
    p ∈ c.named := by
  rw [touchedPath] at h
  rw [named, List.mem_append, Option.mem_toList, Option.mem_toList]
  cases hkind : c.kind with
  | delete =>
    rw [hkind] at h
    exact .inl h
  | add | modify | rename | copy =>
    rw [hkind] at h
    exact .inr h

/-- An affected path counts as touched, or a file is moved away from it. -/
theorem touchedPath_of_mem_affected {c : FileChange} {p : Path} (h : p ∈ c.affected) :
    c.touchedPath = some p ∨ c.kind = .rename ∧ c.oldPath = some p := by
  rw [affected] at h
  rw [touchedPath]
  cases hkind : c.kind with
  | add | modify | copy | delete =>
    rw [hkind, Option.mem_toList] at h
    exact .inl h
  | rename =>
    simp only [hkind, List.mem_append, Option.mem_toList] at h
    exact h.elim (fun hsource ↦ .inr ⟨rfl, hsource⟩) .inl

private theorem paths_of_mem_followUp {enabled : Bool} {p : Path} {hunks : List Hunk}
    {stage : Stage} (h : stage ∈ Task.followUp enabled p hunks) : stage.paths ⊆ [p] := by
  rw [Task.followUp] at h
  split at h
  · cases h
  · split at h <;> rw [List.mem_singleton.1 h]
    · exact List.Subset.refl _
    · exact List.nil_subset _

private theorem written_of_mem_followUp {enabled : Bool} {p : Path} {hunks : List Hunk}
    {stage : Stage} (h : stage ∈ Task.followUp enabled p hunks) : stage.written ⊆ [p] :=
  List.Subset.trans stage.written_subset_paths (paths_of_mem_followUp h)

/-- A change is made in stages that may change what the change affects, and nothing else. -/
theorem written_subset_affected {features : Features} {c : FileChange} {stage : Stage}
    (h : stage ∈ c.stages features) : stage.written ⊆ c.affected := by
  rw [stages] at h
  split at h
  · cases h
  · next task htask =>
    obtain ⟨hasks, -⟩ := task_eq_ok_iff.1 htask
    cases task with
    | add path hunks | modify path hunks =>
      obtain ⟨hkind, hpath, -⟩ := hasks
      rw [List.mem_singleton.1 h, affected, hkind, hpath]
      exact List.Subset.refl [path]
    | delete path =>
      obtain ⟨hkind, hpath, -⟩ := hasks
      rw [List.mem_singleton.1 h, affected, hkind, hpath]
      exact List.Subset.refl [path]
    | rename source target hunks =>
      obtain ⟨hkind, hsource, htarget, -⟩ := hasks
      rw [affected, hkind, hsource, htarget]
      obtain rfl | hfollow := List.mem_cons.1 h
      · exact List.Subset.refl [source, target]
      · exact List.Subset.trans (written_of_mem_followUp hfollow)
          (List.subset_cons_self source [target])
    | copy source target hunks =>
      obtain ⟨hkind, hsource, htarget, -⟩ := hasks
      rw [affected, hkind, htarget]
      obtain rfl | hfollow := List.mem_cons.1 h
      · exact List.Subset.refl [target]
      · exact written_of_mem_followUp hfollow

/-- A change is made in stages that look at paths that the change names, and at no others. -/
theorem paths_subset_named {features : Features} {c : FileChange} {stage : Stage}
    (h : stage ∈ c.stages features) : stage.paths ⊆ c.named := by
  rw [stages] at h
  split at h
  · cases h
  · next task htask =>
    obtain ⟨hasks, -⟩ := task_eq_ok_iff.1 htask
    cases task with
    | add path hunks | modify path hunks =>
      obtain ⟨-, hpath, -⟩ := hasks
      rw [List.mem_singleton.1 h, named, hpath]
      exact List.subset_append_right _ [path]
    | delete path =>
      obtain ⟨-, hpath, -⟩ := hasks
      rw [List.mem_singleton.1 h, named, hpath]
      exact List.subset_append_left [path] _
    | rename source target hunks | copy source target hunks =>
      obtain ⟨-, hsource, htarget, -⟩ := hasks
      rw [named, hsource, htarget]
      obtain rfl | hfollow := List.mem_cons.1 h
      · exact List.Subset.refl [source, target]
      · exact List.Subset.trans (paths_of_mem_followUp hfollow)
          (List.subset_cons_self source [target])

end FileChange

namespace Memory

/-- Two stores have the same content at a path, and have written it equally often. -/
structure SameAt (p : Path) (m m' : Memory) : Prop where
  content : m'.get? p = m.get? p
  writes : m'.writeCount p = m.writeCount p

namespace SameAt

variable {p : Path} {m m' m'' : Memory}

theorem refl (p : Path) (m : Memory) : SameAt p m m := ⟨rfl, rfl⟩

theorem symm (h : SameAt p m m') : SameAt p m' m := ⟨h.content.symm, h.writes.symm⟩

theorem trans (h : SameAt p m m') (h' : SameAt p m' m'') : SameAt p m m'' :=
  ⟨h'.content.trans h.content, h'.writes.trans h.writes⟩

end SameAt

/-- A stage leaves the files alone that it may not change. -/
theorem sameAt_run {stage : Stage} {p : Path} (h : ∀ q ∈ stage.written, ¬ q.Same p) (m : Memory) :
    SameAt p m (stage.run m).store := by
  change SameAt p m (Stage.carryOut m (stage.decide m)).2
  match hdecision : stage.decide m with
  | .error _ | .ok none => exact .refl p m
  | .ok (some e) =>
    obtain ⟨-, hwritten⟩ := Stage.effect_of_decide m.honest hdecision
    rw [Stage.carryOut_some]
    obtain ⟨hcontent, hwrites⟩ := perform_of_not_same (m := m) (hwritten ▸ h)
    exact ⟨hcontent, hwrites⟩

end Memory

namespace Document

variable {features : Features} {stop : Nat → Bool} {d : Document} {m : Memory} {p : Path}

/-- A run leaves the files alone that no change of the document affects. -/
theorem sameAt_apply (h : ∀ c ∈ d.changes, ∀ q ∈ c.affected, ¬ q.Same p) (stop : Nat → Bool)
    (m : Memory) : Memory.SameAt p m (d.apply features stop m).store := by
  refine keeps_apply (.refl p) .trans (fun stage hstage m ↦ ?_) stop m
  obtain ⟨c, hc, hstage⟩ := List.mem_flatMap.1 hstage
  exact Memory.sameAt_run (fun q hq ↦ h c hc q (FileChange.written_subset_affected hstage hq)) m

/-- A file with another content than before the run is at a path that some change affects. -/
private theorem exists_affected_of_ne (h : (d.apply features stop m).store.get? p ≠ m.get? p) :
    ∃ c ∈ d.changes, ∃ q ∈ c.affected, q.Same p := by
  refine Classical.byContradiction fun hnone ↦ h (sameAt_apply ?_ stop m).content
  exact fun c hc q hq hsame ↦ hnone ⟨c, hc, q, hq, hsame⟩

/-- A run, however it comes out, leaves the files alone that no change affects: they keep their
content, and are not written either. Where it comes out well, the touched paths are those of the
changes, and a file with another content than before is at one of them or was moved away. -/
theorem apply_frame (features : Features) (stop : Nat → Bool) (d : Document) (m : Memory) :
    (∀ p, (∀ c ∈ d.changes, ∀ q ∈ c.affected, ¬ q.Same p) →
      Memory.SameAt p m (d.apply features stop m).store) ∧
    ∀ touched, (d.apply features stop m).result = .ok touched →
      (∃ paths, d.changes.map FileChange.touchedPath = paths.map some ∧
        touched = .ofPaths paths) ∧
      (∀ p, touched.contains p = true ↔ ∃ c ∈ d.changes, ∃ q ∈ c.touchedPath, q.Same p) ∧
      ∀ p, (d.apply features stop m).store.get? p ≠ m.get? p →
        touched.contains p = true ∨
          ∃ c ∈ d.changes, c.kind = .rename ∧ ∃ q ∈ c.oldPath, q.Same p := by
  refine ⟨fun p hp ↦ sameAt_apply hp stop m, fun touched h ↦ ?_⟩
  refine ⟨touched_of_apply h, contains_of_apply h, fun p hp ↦ ?_⟩
  obtain ⟨c, hc, q, hq, hsame⟩ := exists_affected_of_ne hp
  obtain hpath | ⟨hkind, hsource⟩ := FileChange.touchedPath_of_mem_affected hq
  · exact .inl ((contains_of_apply h p).2 ⟨c, hc, q, hpath, hsame⟩)
  · exact .inr ⟨c, hc, hkind, q, hsource, hsame⟩

section Instance

/-- A store with two files. -/
def twoFiles : Memory :=
  (Memory.empty.seed ⟨"a"⟩ "x\n".toUTF8).seed ⟨"b"⟩ "y\n".toUTF8

/-- One file is moved, and the other is copied under two spellings of its path. -/
def moveAndCopy : Document :=
  ⟨[⟨.rename, some ⟨"a"⟩, some ⟨"c"⟩, []⟩, ⟨.copy, some ⟨"b"⟩, some ⟨"d"⟩, []⟩,
    ⟨.copy, some ⟨"b/"⟩, some ⟨"e"⟩, []⟩]⟩

theorem apply_frame_moveAndCopy :
    Memory.SameAt ⟨"b"⟩ twoFiles (moveAndCopy.apply .none never twoFiles).store ∧
      ∃ touched, (moveAndCopy.apply .none never twoFiles).result = .ok touched ∧
        touched = .ofPaths [⟨"c"⟩, ⟨"d"⟩, ⟨"e"⟩] ∧
        (touched.contains ⟨"c/"⟩ = true ↔
          ∃ c ∈ moveAndCopy.changes, ∃ q ∈ c.touchedPath, q.Same ⟨"c/"⟩) ∧
        (moveAndCopy.apply .none never twoFiles).store.get? ⟨"a"⟩ ≠ twoFiles.get? ⟨"a"⟩ ∧
        (touched.contains ⟨"a"⟩ = true ∨
          ∃ c ∈ moveAndCopy.changes, c.kind = .rename ∧ ∃ q ∈ c.oldPath, q.Same ⟨"a"⟩) := by
  obtain ⟨hframe, htouched⟩ := apply_frame .none never moveAndCopy twoFiles
  have hok : (moveAndCopy.apply .none never twoFiles).result =
      .ok (.ofPaths [⟨"c"⟩, ⟨"d"⟩, ⟨"e"⟩]) := rfl
  have hb : ∀ c ∈ moveAndCopy.changes, ∀ q ∈ c.affected, ¬ q.Same ⟨"b"⟩ := by decide
  have ha : (moveAndCopy.apply .none never twoFiles).store.get? ⟨"a"⟩ ≠ twoFiles.get? ⟨"a"⟩ := by
    decide +kernel
  obtain ⟨-, hcontains, hchanged⟩ := htouched _ hok
  exact ⟨hframe ⟨"b"⟩ hb, _, hok, rfl, hcontains ⟨"c/"⟩, ha, hchanged ⟨"a"⟩ ha⟩

end Instance

end Document

end Patchwork
