import Patchwork.Proofs.Apply.Effect
import Patchwork.Proofs.Apply.Run
import Patchwork.Proofs.Change.Task

/-!
# Undoing a run

The inverse of a change that was made leads back from the contents that it left to those that it
found, if a deleted file was empty and the inverse of its hunks gives the file's content back
(`FileChange.effect_inverse`). So the reverse of a document undoes a run, change by change from the
last to the first (`Document.reverse_undoes`). Specification: Inversion in section 3.
-/

namespace Patchwork

namespace Contents

/-- A file moved away and back again, with another content. -/
theorem Proper.set_move_back {f : Contents} (hf : f.Proper) {source target : Path}
    (hne : ¬ source.Same target) (htarget : f target = none) (content other : Option ByteArray) :
    (((f.set target content).set source none).set source other).set target none =
      f.set source other := by
  calc (((f.set target content).set source none).set source other).set target none
    _ = ((f.set target content).set source other).set target none := by
      rw [set_set _ (Path.Same.refl source)]
    _ = ((f.set target content).set target none).set source other := by rw [set_set_comm hne]
    _ = (f.set target none).set source other := by rw [set_set _ (Path.Same.refl target)]
    _ = f.set source other := by rw [hf.set_eq_self htarget]

/-- One file and no other. -/
def only (p : Path) (content : ByteArray) : Contents :=
  Contents.set (fun _ ↦ none) p (some content)

theorem only_eq_some_iff {p q : Path} {content found : ByteArray} :
    only p content q = some found ↔ p.Same q ∧ content = found := by
  rw [only, set]
  split
  · next h => simp [h]
  · next h => simp [h]

end Contents

namespace FileChange

variable {features : Features} {c : FileChange} {task : Task} {f g : Contents}
  {p source target : Path} {hunks : List Hunk} {old new : ByteArray}

/-- The old and the new path of a file that the change edits and keeps. -/
def revision? (features : Features) (c : FileChange) : Option (Path × Path) :=
  match c.task with
  | .ok (.modify path _) => some (path, path)
  | .ok (.rename source target hunks) =>
    if features.renameHunks ∧ hunks ≠ [] then some (source, target) else none
  | _ => none

/-- The inverse of the change leads back from one content to another, where there is no other
file. -/
def LeadsBack (features : Features) (c : FileChange) (source target : Path)
    (old new : ByteArray) : Prop :=
  ∃ g, c.inverse.effect features (.only target new) = .ok g ∧ g source = some old

private theorem task_of_modify (hkind : c.kind = .modify) (h : c.inverse.task = .ok task) :
    ∃ path, task = .modify path (c.hunks.map Hunk.inverse) := by
  obtain ⟨hasks, -⟩ := task_eq_ok_iff.1 h
  simp only [inverse, hkind] at hasks
  cases task with
  | modify path hunks =>
    obtain ⟨-, -, rfl⟩ := hasks
    exact ⟨path, rfl⟩
  | add | delete | rename | copy => cases hasks.1

private theorem task_of_rename (hkind : c.kind = .rename) (hold : c.oldPath = some source)
    (hnew : c.newPath = some target) (h : c.inverse.task = .ok task) :
    task = .rename target source (c.hunks.map Hunk.inverse) := by
  obtain ⟨hasks, -⟩ := task_eq_ok_iff.1 h
  simp only [inverse, hkind, hold, hnew] at hasks
  cases task with
  | rename target' source' hunks =>
    obtain ⟨-, htarget, hsource, rfl, -⟩ := hasks
    rw [Option.some.inj htarget, Option.some.inj hsource]
  | add | modify | delete | copy => cases hasks.1

/-- A file that was not there is deleted again. -/
private theorem effect_delete (hinv : c.inverse = ⟨.delete, some p, none, []⟩) (hf : f.Proper)
    (hp : f p = none) : c.inverse.effect features (f.set p (some new)) = .ok f := by
  have htask : c.inverse.task = .ok (.delete p) := by
    rw [task_eq_ok_iff, hinv]
    exact ⟨⟨rfl, rfl, rfl⟩, by simp⟩
  rw [effect_of_task htask, Task.stages, Stage.effectAll_singleton, Stage.effect_delete_eq_ok_iff]
  refine ⟨⟨new, Contents.set_self ..⟩, ?_⟩
  rw [Contents.set_set _ (Path.Same.refl p), hf.set_eq_self hp]

private theorem effect_inverse_add (htask : c.task = .ok (.add p hunks)) (hf : f.Proper)
    (hc : c.effect features f = .ok g) : c.inverse.effect features g = .ok f := by
  obtain ⟨⟨hkind, hpath, -⟩, -⟩ := task_eq_ok_iff.1 htask
  rw [effect_of_task htask, Task.stages, Stage.effectAll_singleton] at hc
  obtain ⟨hfree, content, rfl⟩ := Stage.effect_create_eq_ok hc
  exact effect_delete (by simp [inverse, hkind, hpath]) hf hfree

private theorem effect_inverse_copy (htask : c.task = .ok (.copy source target hunks))
    (hf : f.Proper) (hc : c.effect features f = .ok g) : c.inverse.effect features g = .ok f := by
  obtain ⟨⟨hkind, -, hpath, -⟩, -⟩ := task_eq_ok_iff.1 htask
  have hinv : c.inverse = ⟨.delete, some target, none, []⟩ := by simp [inverse, hkind, hpath]
  rw [effect_of_task htask, Task.stages, Stage.effectAll_cons_eq_ok_iff] at hc
  obtain ⟨copied, hcopy, hrest⟩ := hc
  obtain ⟨content, -, hfree, rfl⟩ := Stage.effect_duplicate_eq_ok_iff.1 hcopy
  rw [Stage.effectAll_followUp] at hrest
  split at hrest
  · obtain ⟨_, edited, -, -, rfl⟩ := Stage.effect_edit_eq_ok_iff.1 hrest
    rw [Contents.set_set _ (Path.Same.refl target)]
    exact effect_delete hinv hf hfree
  · cases hrest
    exact effect_delete hinv hf hfree

private theorem effect_inverse_deletion (htask : c.task = .ok (.delete p)) (hf : f.Proper)
    (hc : c.effect features f = .ok g) (hempty : f p = some .empty) :
    c.inverse.effect features g = .ok f := by
  obtain ⟨⟨hkind, hpath, -⟩, -⟩ := task_eq_ok_iff.1 htask
  have hinv : c.inverse.task = .ok (.add p []) := by
    rw [task_eq_ok_iff, show c.inverse = ⟨.add, none, some p, []⟩ by simp [inverse, hkind, hpath]]
    exact ⟨⟨rfl, rfl, rfl, Nat.zero_le 1, by simp⟩, by simp⟩
  rw [effect_of_task htask, Task.stages, Stage.effectAll_singleton,
    Stage.effect_delete_eq_ok_iff] at hc
  obtain ⟨-, rfl⟩ := hc
  rw [effect_of_task hinv, Task.stages, Stage.effectAll_singleton, Stage.effect,
    Contents.set_self, Contents.set_set _ (Path.Same.refl p), hf.set_eq_self hempty]
  rfl

/-- The inverse of a modification does to the file, among others, what it does to it alone. -/
private theorem effect_modify (htask : c.inverse.task = .ok (.modify p hunks)) (hf : f.Proper)
    (htarget : f target = some old) (hback : c.LeadsBack features target target old new) :
    c.inverse.effect features (f.set target (some new)) = .ok f := by
  obtain ⟨g, hg, hold⟩ := hback
  rw [effect_of_task htask, Task.stages, Stage.effectAll_singleton,
    Stage.effect_edit_eq_ok_iff] at hg ⊢
  obtain ⟨found, made, hfound, hmade, rfl⟩ := hg
  -- There is no other file, so the path that the inverse edits is the one that was edited.
  obtain ⟨hsame, rfl⟩ := Contents.only_eq_some_iff.1 hfound
  rw [Contents.set_of_same _ hsame.symm, Option.some.injEq] at hold
  subst hold
  refine ⟨new, made, Contents.set_of_same _ hsame _, hmade, ?_⟩
  rw [Contents.set_set _ hsame, hf.set_eq_self]
  rw [← hf target p hsame, htarget]

private theorem effect_inverse_modify (htask : c.task = .ok (.modify p hunks)) (hf : f.Proper)
    (hc : c.effect features f = .ok g) (hinverse : ∃ task, c.inverse.task = .ok task)
    (hback : ∀ old new, f p = some old → g p = some new → c.LeadsBack features p p old new) :
    c.inverse.effect features g = .ok f := by
  obtain ⟨⟨hkind, -⟩, -⟩ := task_eq_ok_iff.1 htask
  obtain ⟨task, hinv⟩ := hinverse
  obtain ⟨path, rfl⟩ := task_of_modify hkind hinv
  rw [effect_of_task htask, Task.stages, Stage.effectAll_singleton,
    Stage.effect_edit_eq_ok_iff] at hc
  obtain ⟨old, new, hold, -, rfl⟩ := hc
  exact effect_modify hinv hf hold (hback old new hold (Contents.set_self ..))

/-- The inverse of a move, when the hunks that come with it lead back. -/
private theorem effect_rename (htask : c.inverse.task = .ok (.rename target source hunks))
    (hne : ¬ source.Same target) (hf : f.Proper) (htarget : f target = none)
    (hrest : Stage.effectAll (f.set source (some new))
      (Task.followUp features.renameHunks source hunks) = .ok f) :
    c.inverse.effect features ((f.set target (some new)).set source none) = .ok f := by
  rw [effect_of_task htask, Task.stages, Stage.effectAll_cons_eq_ok_iff]
  refine ⟨f.set source (some new), Stage.effect_move_eq_ok_iff.2 ⟨new, ?_, ?_, ?_⟩, hrest⟩
  · rw [Contents.set_of_not_same _ hne, Contents.set_self]
  · exact Contents.set_self ..
  · exact hf.set_move_back hne htarget _ _

/-- What the hunks of a move's inverse make of a file is told by what the inverse does to it
alone. -/
private theorem revise_of_leadsBack (htask : c.inverse.task = .ok (.rename target source hunks))
    (hne : ¬ source.Same target) (happlied : features.renameHunks ∧ hunks ≠ [])
    (hback : c.LeadsBack features source target old new) : Stage.revise new hunks = .ok old := by
  obtain ⟨g, hg, hold⟩ := hback
  rw [effect_of_task htask, Task.stages, Stage.effectAll_cons_eq_ok_iff] at hg
  obtain ⟨moved, hmove, hedit⟩ := hg
  rw [Stage.effect_move_eq_ok_iff] at hmove
  rw [Stage.effectAll_followUp, if_pos happlied, Stage.effect_edit_eq_ok_iff] at hedit
  obtain ⟨content, hcontent, -, rfl⟩ := hmove
  obtain ⟨-, rfl⟩ := Contents.only_eq_some_iff.1 hcontent
  obtain ⟨found, made, hfound, hmade, rfl⟩ := hedit
  rw [Contents.set_of_not_same _ fun h ↦ hne h.symm, Contents.set_self, Option.some.injEq] at hfound
  rw [Contents.set_self, Option.some.injEq] at hold
  rw [hfound, hmade, hold]

private theorem effect_inverse_rename (htask : c.task = .ok (.rename source target hunks))
    (hf : f.Proper) (hc : c.effect features f = .ok g)
    (hinverse : ∃ task, c.inverse.task = .ok task)
    (hback : features.renameHunks ∧ hunks ≠ [] → ∀ old new, f source = some old →
      g target = some new → c.LeadsBack features source target old new) :
    c.inverse.effect features g = .ok f := by
  obtain ⟨⟨hkind, holdPath, hnewPath, rfl, hne⟩, -⟩ := task_eq_ok_iff.1 htask
  obtain ⟨task, hinv⟩ := hinverse
  obtain rfl := task_of_rename hkind holdPath hnewPath hinv
  rw [effect_of_task htask, Task.stages, Stage.effectAll_cons_eq_ok_iff] at hc
  obtain ⟨moved, hmove, hrest⟩ := hc
  obtain ⟨old, hold, hfree, rfl⟩ := Stage.effect_move_eq_ok_iff.1 hmove
  have hinverses : features.renameHunks ∧ c.hunks.map Hunk.inverse ≠ [] ↔
      features.renameHunks ∧ c.hunks ≠ [] := by simp
  rw [Stage.effectAll_followUp] at hrest
  split at hrest
  · next happlied =>
    obtain ⟨_, new, -, -, rfl⟩ := Stage.effect_edit_eq_ok_iff.1 hrest
    have hrevise := revise_of_leadsBack hinv hne (hinverses.2 happlied)
      (hback happlied old new hold (Contents.set_self ..))
    rw [Contents.set_set_comm hne, Contents.set_set _ (Path.Same.refl target)]
    refine effect_rename hinv hne hf hfree ?_
    rw [Stage.effectAll_followUp, if_pos (hinverses.2 happlied), Stage.effect_edit_eq_ok_iff]
    refine ⟨new, old, Contents.set_self .., hrevise, ?_⟩
    rw [Contents.set_set _ (Path.Same.refl source), hf.set_eq_self hold]
  · next hleft =>
    cases hrest
    refine effect_rename hinv hne hf hfree ?_
    rw [Stage.effectAll_followUp, if_neg ((not_congr hinverses).2 hleft), hf.set_eq_self hold]

/-- The inverse of a change leads back to the contents that the change found, if a deleted file was
empty and a file that was edited gets its content back. -/
theorem effect_inverse (hf : f.Proper) (hc : c.effect features f = .ok g)
    (hinverse : ∃ task, c.inverse.task = .ok task)
    (hdeleted : ∀ path, c.task = .ok (.delete path) → f path = some .empty)
    (hedited : ∀ source target, c.revision? features = some (source, target) →
      ∀ old new, f source = some old → g target = some new →
        c.LeadsBack features source target old new) :
    c.inverse.effect features g = .ok f := by
  cases htask : c.task with
  | error defect =>
    rw [effect, htask] at hc
    cases hc
  | ok task =>
    cases task with
    | add path hunks => exact effect_inverse_add htask hf hc
    | modify path hunks =>
      have hrevision : c.revision? features = some (path, path) := by rw [revision?, htask]
      exact effect_inverse_modify htask hf hc hinverse (hedited path path hrevision)
    | delete path => exact effect_inverse_deletion htask hf hc (hdeleted path htask)
    | rename source target hunks =>
      refine effect_inverse_rename htask hf hc hinverse fun happlied ↦ hedited source target ?_
      rw [revision?, htask]
      exact if_pos happlied
    | copy source target hunks => exact effect_inverse_copy htask hf hc

/-- The inverse of the change, run alone on a store that has no file but the one at `target`, gives
the old content back at `source`. -/
def GivesBack (features : Features) (c : FileChange) (source target : Path)
    (old new : ByteArray) : Prop :=
  let alone := Memory.empty.seed target new
  let undone := (Document.mk [c]).reverse.apply features Document.never alone
  (∃ touched, undone.result = .ok touched) ∧ undone.store.get? source = some old

theorem GivesBack.leadsBack (h : c.GivesBack features source target old new) :
    c.LeadsBack features source target old new := by
  obtain ⟨⟨touched, hresult⟩, hold⟩ := h
  obtain ⟨-, -, paths, -, hsteps⟩ := Document.steps_of_apply hresult
  obtain ⟨path, hc, -, hstore⟩ := Steps.singleton_iff.1 hsteps
  rw [hstore] at hold
  refine ⟨_, ?_, hold⟩
  have hcontents := Outcome.contents_eq_ok_iff.2 ⟨⟨path, hc⟩, rfl⟩
  rw [Memory.contents_apply, Memory.get?_seed, Memory.get?_empty] at hcontents
  exact hcontents

/-- What it takes for a change of a store to be undone by its inverse: a file that it deletes is
empty, and a file that it edits and keeps gets its content back from the inverse alone. So a
modification has to name one path on both sides, or its inverse finds no file. -/
structure Revocable (features : Features) (c : FileChange) (m : Memory) : Prop where
  deleted : ∀ path, c.task = .ok (.delete path) → m.get? path = some .empty
  edited : ∀ source target, c.revision? features = some (source, target) →
    ∀ old new, m.get? source = some old → (c.apply features m).store.get? target = some new →
      c.GivesBack features source target old new

namespace Revocable

variable {m n : Memory} {path : Path}

/-- An addition or a copy, or a move that leaves the content alone. -/
theorem of_revision?_eq_none (hdelete : ∀ path, c.task ≠ .ok (.delete path))
    (hrevision : c.revision? features = none) : c.Revocable features m :=
  ⟨fun path htask ↦ absurd htask (hdelete path), fun _ _ h ↦ by rw [hrevision] at h; cases h⟩

theorem of_task_eq_delete (htask : c.task = .ok (.delete path))
    (hempty : m.get? path = some .empty) : c.Revocable features m := by
  refine ⟨fun other h ↦ ?_, fun source target h ↦ ?_⟩
  · rw [htask] at h
    cases h
    exact hempty
  · rw [revision?, htask] at h
    cases h

theorem of_givesBack (hrevision : c.revision? features = some (source, target))
    (hold : m.get? source = some old) (hnew : (c.apply features m).store.get? target = some new)
    (hback : c.GivesBack features source target old new) : c.Revocable features m := by
  refine ⟨fun path htask ↦ ?_, fun source' target' h old' new' hold' hnew' ↦ ?_⟩
  · rw [revision?, htask] at hrevision
    cases hrevision
  · rw [hrevision] at h
    cases h
    rw [hold] at hold'
    rw [hnew] at hnew'
    cases hold'
    cases hnew'
    exact hback

/-- A change is undone by its inverse, in any store with the contents that it left. -/
theorem undone (h : c.Revocable features m)
    (hc : (c.apply features m).result = .ok path) (hinverse : ∃ task, c.inverse.task = .ok task)
    (hn : n.get? = (c.apply features m).store.get?) :
    (∃ path', (c.inverse.apply features n).result = .ok path') ∧
      (c.inverse.apply features n).store.get? = m.get? := by
  have heffect := Outcome.contents_eq_ok_iff.2 ⟨⟨path, hc⟩, rfl⟩
  rw [Memory.contents_apply, ← hn] at heffect
  rw [← Outcome.contents_eq_ok_iff, Memory.contents_apply]
  refine effect_inverse m.proper_get? heffect hinverse h.deleted ?_
  intro source target hrevision old new hold hnew
  exact (h.edited source target hrevision old new hold (hn ▸ hnew)).leadsBack

end Revocable

/-- Changes made one after another, each of which can be undone. -/
def RevocableAll (features : Features) : List FileChange → Memory → Prop
  | [], _ => True
  | c :: changes, m =>
    c.Revocable features m ∧ RevocableAll features changes (c.apply features m).store

end FileChange

/-- Changes that were made can be undone from the last to the first. -/
theorem Steps.undone {features : Features} {changes : List FileChange} {m m' n : Memory}
    {paths : List Path} (h : Steps features changes m paths m')
    (hrevocable : FileChange.RevocableAll features changes m)
    (hinverse : ∀ c ∈ changes, ∃ task, c.inverse.task = .ok task) (hn : n.get? = m'.get?) :
    ∃ paths' n', Steps features (changes.reverse.map FileChange.inverse) n paths' n' ∧
      n'.get? = m.get? := by
  induction h with
  | nil m => exact ⟨[], n, .nil n, hn⟩
  | @cons c changes m m' path paths hc hrest ih =>
    rw [List.forall_mem_cons] at hinverse
    -- The later changes are undone first, which leads back to what this one left.
    obtain ⟨others, n', hsteps, hn'⟩ := ih hrevocable.2 hinverse.2 hn
    obtain ⟨⟨path', hpath'⟩, hcontents⟩ := hrevocable.1.undone hc hinverse.1 hn'
    rw [List.reverse_cons, List.map_append, List.map_singleton]
    exact ⟨_, _, hsteps.append (singleton_iff.2 ⟨path', hpath', rfl, rfl⟩), hcontents⟩

namespace Document

variable {features : Features} {stop : Nat → Bool} {d : Document} {m : Memory}

/-- The changes of the document can each be undone, when they are made in order. -/
def Revocable (features : Features) (d : Document) (m : Memory) : Prop :=
  FileChange.RevocableAll features d.changes m

/-- The reverse of a document that was applied can be applied to what it left, and restores the
content at every path. -/
theorem reverse_undoes {touched : PathSet} (h : (d.apply features stop m).result = .ok touched)
    (hcheck : d.reverse.check = .ok ()) (hrevocable : d.Revocable features m) :
    let undone := d.reverse.apply features stop (d.apply features stop m).store
    (∃ touched', undone.result = .ok touched') ∧ undone.store.get? = m.get? := by
  obtain ⟨-, hstop, paths, -, hsteps⟩ := steps_of_apply h
  have hinverse : ∀ c ∈ d.changes, ∃ task, c.inverse.task = .ok task := fun c hc ↦
    check_eq_ok_iff.1 hcheck c.inverse (by simpa [reverse] using ⟨c, hc, rfl⟩)
  obtain ⟨paths', n, hundone, hn⟩ := hsteps.undone hrevocable hinverse rfl
  rw [← length_reverse] at hstop
  obtain ⟨hresult, hstore⟩ := apply_of_steps hcheck hstop hundone
  exact ⟨⟨_, hresult⟩, hstore ▸ hn⟩

section Instance

/-- A file of one line and an empty one. -/
def lineAndEmpty : Memory := (Memory.empty.seed ⟨"a"⟩ "x\n".toUTF8).seed ⟨"e"⟩ .empty

/-- Hunks that put one line in another's place. -/
private def replacing (old new : String) : List Hunk := [⟨1, 1, [.remove old, .add new]⟩]

/-- A change of each kind, some of them of files that others made or made way for. -/
def everyKind : Document :=
  ⟨[⟨.copy, some ⟨"a"⟩, some ⟨"c"⟩, []⟩,
    ⟨.modify, some ⟨"c"⟩, some ⟨"c"⟩, replacing "x" "y"⟩,
    ⟨.rename, some ⟨"c"⟩, some ⟨"d"⟩, replacing "y" "z"⟩,
    ⟨.delete, some ⟨"e"⟩, none, []⟩,
    ⟨.add, none, some ⟨"c"⟩, [⟨1, 1, [.add "w"]⟩]⟩]⟩

private theorem revocable_everyKind : everyKind.Revocable ⟨true, true⟩ lineAndEmpty := by
  refine ⟨.of_revision?_eq_none (fun _ h ↦ by cases h) rfl, ?_, ?_, .of_task_eq_delete rfl rfl,
    .of_revision?_eq_none (fun _ h ↦ by cases h) rfl, trivial⟩
  · exact .of_givesBack rfl rfl rfl ⟨⟨_, rfl⟩, rfl⟩
  · exact .of_givesBack rfl rfl rfl ⟨⟨_, rfl⟩, rfl⟩

theorem reverse_undoes_everyKind :
    let applied := everyKind.apply ⟨true, true⟩ never lineAndEmpty
    let undone := everyKind.reverse.apply ⟨true, true⟩ never applied.store
    (∃ touched, applied.result = .ok touched) ∧ everyKind.reverse.check = .ok () ∧
      everyKind.Revocable ⟨true, true⟩ lineAndEmpty ∧
        (∃ touched, undone.result = .ok touched) ∧ undone.store.get? = lineAndEmpty.get? := by
  have happlied : ∃ touched,
      (everyKind.apply ⟨true, true⟩ never lineAndEmpty).result = .ok touched := ⟨_, rfl⟩
  obtain ⟨touched, h⟩ := happlied
  have hcheck : everyKind.reverse.check = .ok () := rfl
  exact ⟨⟨touched, h⟩, hcheck, revocable_everyKind, reverse_undoes h hcheck revocable_everyKind⟩

end Instance

end Document

end Patchwork
