import Mathlib.Data.List.Forall2
import Patchwork.Proofs.Apply.Run
import Patchwork.Proofs.Change.Task

/-!
# Which documents can be reversed, and which come back

The inverse of a change is checked on the sides that the change itself is not checked on, so the
reverse of a valid document need not be valid, and since inverses drop paths and hunks, reversing
twice need not give the document back. `FileChange.Reversible` and `FileChange.Recoverable` say of
one change when it does. Main statement: `Document.check_reverse_iff`.
-/

namespace Patchwork

namespace Hunk

variable {h : Hunk}

/-- The inverse keeps or adds lines before the first line when the old side has lines there. -/
theorem startsAtZero_inverse_eq_false_iff :
    h.inverse.startsAtZero = false ↔ (h.hasOld = true → 1 ≤ h.oldStart) := by
  have hstart : 1 ≤ h.oldStart ↔ h.oldStart ≠ 0 := by
    rw [UInt32.le_iff_toNat_le, Ne, ← UInt32.toNat_inj]
    exact Nat.one_le_iff_ne_zero
  rw [startsAtZero, hasNew_inverse, hstart, Bool.and_eq_false_iff, decide_eq_false_iff_not, inverse]
  cases h.hasOld <;> simp

end Hunk

namespace FileChange

variable {c : FileChange}

/-- The change has the paths that its kind needs, and no hunks that go against its kind. -/
def Complete (c : FileChange) : Prop :=
  match c.kind with
  | .add => c.newPath.isSome = true ∧ c.hunks.length ≤ 1 ∧ ∀ h ∈ c.hunks, h.hasOld = false
  | .modify => c.newPath.isSome = true
  | .delete => c.oldPath.isSome = true ∧ c.hunks = []
  | .rename | .copy =>
    ∃ source target, c.oldPath = some source ∧ c.newPath = some target ∧ ¬ source.Same target

private theorem exists_asks_iff : (∃ task, c.Asks task) ↔ c.Complete := by
  constructor
  · rintro ⟨task, h⟩
    cases task with
    | add path hunks =>
      obtain ⟨hkind, hpath, rfl, hlength, hold⟩ := h
      simpa [Complete, hkind, hpath, hlength] using hold
    | modify path hunks =>
      obtain ⟨hkind, hpath, -⟩ := h
      simp [Complete, hkind, hpath]
    | delete path =>
      obtain ⟨hkind, hpath, hhunks⟩ := h
      simp [Complete, hkind, hpath, hhunks]
    | rename source target hunks | copy source target hunks =>
      obtain ⟨hkind, hsource, htarget, -, hsame⟩ := h
      simp [Complete, hkind, hsource, htarget, hsame]
  · intro h
    cases hkind : c.kind with
    | add =>
      simp only [Complete, hkind] at h
      obtain ⟨hpath, hlength, hold⟩ := h
      obtain ⟨path, hpath⟩ := Option.isSome_iff_exists.1 hpath
      exact ⟨.add path c.hunks, hkind, hpath, rfl, hlength, hold⟩
    | modify =>
      simp only [Complete, hkind] at h
      obtain ⟨path, hpath⟩ := Option.isSome_iff_exists.1 h
      exact ⟨.modify path c.hunks, hkind, hpath, rfl⟩
    | delete =>
      simp only [Complete, hkind] at h
      obtain ⟨path, hpath⟩ := Option.isSome_iff_exists.1 h.1
      exact ⟨.delete path, hkind, hpath, h.2⟩
    | rename =>
      simp only [Complete, hkind] at h
      obtain ⟨source, target, hsource, htarget, hsame⟩ := h
      exact ⟨.rename source target c.hunks, hkind, hsource, htarget, rfl, hsame⟩
    | copy =>
      simp only [Complete, hkind] at h
      obtain ⟨source, target, hsource, htarget, hsame⟩ := h
      exact ⟨.copy source target c.hunks, hkind, hsource, htarget, rfl, hsame⟩

/-- A change asks for some task when it is complete and no hunk of its starts too early. -/
theorem exists_task_iff :
    (∃ task, c.task = .ok task) ↔ c.Complete ∧ ∀ h ∈ c.hunks, h.startsAtZero = false := by
  simp only [task_eq_ok_iff, exists_and_right, exists_asks_iff]

/-- What the inverse of a valid change needs: a modified file has an old path, and where hunks are
inverted, one that keeps or removes lines does not start at line zero of the old side. -/
def Reversible (c : FileChange) : Prop :=
  (c.kind = .modify → c.oldPath.isSome = true) ∧
    (c.kind = .modify ∨ c.kind = .rename → ∀ h ∈ c.hunks, h.hasOld = true → 1 ≤ h.oldStart)

instance (c : FileChange) : Decidable c.Reversible := inferInstanceAs (Decidable (_ ∧ _))

/-- What no inverse drops: a copy is not taken for a deletion, a new file has no old path and no
hunks, and a deleted one no new path. -/
def Recoverable (c : FileChange) : Prop :=
  c.kind ≠ .copy ∧ (c.kind = .add → c.oldPath = none ∧ c.hunks = []) ∧
    (c.kind = .delete → c.newPath = none)

instance (c : FileChange) : Decidable c.Recoverable := inferInstanceAs (Decidable (_ ∧ _))

/-- The hunks of the inverse start late enough when those of the change do on the old side. -/
private theorem forall_startsAtZero_inverse_iff {hunks : List Hunk} :
    (∀ h ∈ hunks.map Hunk.inverse, h.startsAtZero = false) ↔
      ∀ h ∈ hunks, h.hasOld = true → 1 ≤ h.oldStart := by
  simp only [List.forall_mem_map, Hunk.startsAtZero_inverse_eq_false_iff]

/-- The inverse of a valid change is valid when the change is reversible. -/
theorem exists_task_inverse_iff (h : ∃ task, c.task = .ok task) :
    (∃ task, c.inverse.task = .ok task) ↔ c.Reversible := by
  obtain ⟨hcomplete, -⟩ := exists_task_iff.1 h
  rw [exists_task_iff]
  cases hkind : c.kind with
  | add =>
    simp only [Complete, hkind] at hcomplete
    simp [Complete, Reversible, inverse, hkind, hcomplete.1]
  | copy =>
    simp only [Complete, hkind] at hcomplete
    obtain ⟨source, target, hsource, htarget, hsame⟩ := hcomplete
    simp [Complete, Reversible, inverse, hkind, htarget]
  | delete =>
    simp only [Complete, hkind] at hcomplete
    simp [Complete, Reversible, inverse, hkind, hcomplete.1]
  | modify =>
    simp only [Complete, inverse, hkind, forall_startsAtZero_inverse_iff]
    simp [Reversible, hkind]
  | rename =>
    simp only [Complete, hkind] at hcomplete
    obtain ⟨source, target, hsource, htarget, hsame⟩ := hcomplete
    have hback : ¬ target.Same source := fun hback ↦ hsame hback.symm
    simp only [Complete, inverse, hkind, forall_startsAtZero_inverse_iff]
    simp [Reversible, hkind, hsource, htarget, hback]

/-- A valid change that is recoverable is the inverse of its inverse. -/
theorem inverse_inverse (h : ∃ task, c.task = .ok task) (hrecoverable : c.Recoverable) :
    c.inverse.inverse = c := by
  obtain ⟨hcomplete, -⟩ := exists_task_iff.1 h
  obtain ⟨hcopy, hadd, hdelete⟩ := hrecoverable
  obtain ⟨kind, oldPath, newPath, hunks⟩ := c
  cases kind with
  | add =>
    obtain ⟨hold, hhunks⟩ := hadd rfl
    simp_all [inverse]
  | delete =>
    have hnew := hdelete rfl
    simp only [Complete] at hcomplete
    simp_all [inverse]
  | modify | rename => simp [inverse, Function.comp_def]
  | copy => exact absurd rfl hcopy

/-- The changes are the same when their paths are compared by components. -/
def Same (c c' : FileChange) : Prop :=
  c.kind = c'.kind ∧ Option.Rel Path.Same c.oldPath c'.oldPath ∧
    Option.Rel Path.Same c.newPath c'.newPath ∧ c.hunks = c'.hunks

theorem Same.refl (c : FileChange) : c.Same c := by
  have hpath (path : Option Path) : Option.Rel Path.Same path path := by
    cases path with
    | none => exact .none
    | some path => exact .some (Path.Same.refl path)
  exact ⟨rfl, hpath c.oldPath, hpath c.newPath, rfl⟩

/-- Nothing that an inverse drops is brought back by its own inverse. -/
theorem recoverable_of_same (h : c.inverse.inverse.Same c) : c.Recoverable := by
  obtain ⟨kind, oldPath, newPath, hunks⟩ := c
  obtain ⟨hkind, hold, hnew, hhunks⟩ := h
  cases kind with
  | add =>
    refine ⟨ChangeKind.noConfusion, fun _ ↦ ?_, ChangeKind.noConfusion⟩
    cases hold
    exact ⟨rfl, hhunks.symm⟩
  | delete =>
    refine ⟨ChangeKind.noConfusion, ChangeKind.noConfusion, fun _ ↦ ?_⟩
    cases hnew
    rfl
  | modify | rename =>
    exact ⟨ChangeKind.noConfusion, ChangeKind.noConfusion, ChangeKind.noConfusion⟩
  | copy => cases hkind

end FileChange

namespace Document

variable {d : Document}

/-- The documents are the same when their paths are compared by components. -/
def Same (d d' : Document) : Prop := List.Forall₂ FileChange.Same d.changes d'.changes

/-- Reversed twice, a document has the inverses of inverses in its own order. -/
theorem changes_reverse_reverse (d : Document) :
    d.reverse.reverse.changes = d.changes.map fun c ↦ c.inverse.inverse := by
  simp [reverse, List.map_reverse]

/-- The reverse of a valid document is valid exactly when each modified file has an old path and no
inverted hunk with lines on the old side starts there at line zero. Reversed twice, it is the same
document exactly when it copies nothing, its new files come without old paths and hunks, and its
deletions without new paths, whether paths are compared by their spelling or by components. -/
theorem check_reverse_iff (h : d.check = .ok ()) :
    (d.reverse.check = .ok () ↔ ∀ c ∈ d.changes, c.Reversible) ∧
      (d.reverse.reverse = d ↔ ∀ c ∈ d.changes, c.Recoverable) ∧
      (d.reverse.reverse.Same d ↔ ∀ c ∈ d.changes, c.Recoverable) := by
  have hvalid := check_eq_ok_iff.1 h
  have hsame : d.reverse.reverse.Same d → ∀ c ∈ d.changes, c.Recoverable := by
    intro hsame c hc
    rw [Same, changes_reverse_reverse, List.forall₂_map_left_iff, List.forall₂_same] at hsame
    exact FileChange.recoverable_of_same (hsame c hc)
  have heq : (∀ c ∈ d.changes, c.Recoverable) → d.reverse.reverse = d := by
    intro hrecoverable
    have hchanges : d.reverse.reverse.changes = d.changes := by
      rw [changes_reverse_reverse, List.map_congr_left fun c hc ↦
        FileChange.inverse_inverse (hvalid c hc) (hrecoverable c hc), List.map_id']
    exact congrArg mk hchanges
  have hrefl : d.Same d := List.forall₂_same.2 fun c _ ↦ FileChange.Same.refl c
  constructor
  · rw [check_eq_ok_iff, reverse, List.forall_mem_map]
    simp only [List.mem_reverse]
    exact forall₂_congr fun c hc ↦ FileChange.exists_task_inverse_iff (hvalid c hc)
  constructor
  · constructor
    · intro hd
      exact hsame (hd.symm ▸ hrefl)
    · exact heq
  · constructor
    · exact hsame
    · intro hrecoverable
      exact (heq hrecoverable).symm ▸ hrefl

section Instance

/-- Changes of every kind but a copy. The hunk at line zero of the old side only adds a line. -/
def tidyChanges : Document :=
  ⟨[⟨.add, none, some ⟨"n"⟩, []⟩, ⟨.delete, some ⟨"e"⟩, none, []⟩,
    ⟨.modify, some ⟨"a"⟩, some ⟨"a"⟩, [⟨1, 1, [.remove "x", .add "y"]⟩]⟩,
    ⟨.rename, some ⟨"b"⟩, some ⟨"c"⟩, [⟨0, 1, [.add "z"]⟩]⟩]⟩

/-- A copy, and a move with a hunk that removes a line at line zero of the old side. -/
def looseChanges : Document :=
  ⟨[⟨.copy, some ⟨"a"⟩, some ⟨"c"⟩, []⟩,
    ⟨.rename, some ⟨"a"⟩, some ⟨"b"⟩, [⟨0, 1, [.remove "x", .add "y"]⟩]⟩]⟩

theorem check_reverse_iff_tidy_loose :
    tidyChanges.check = .ok () ∧ tidyChanges.reverse.check = .ok () ∧
      tidyChanges.reverse.reverse = tidyChanges ∧
      looseChanges.check = .ok () ∧ looseChanges.reverse.check ≠ .ok () ∧
      ¬ looseChanges.reverse.reverse.Same looseChanges := by
  have htidy : tidyChanges.check = .ok () := rfl
  have hloose : looseChanges.check = .ok () := rfl
  obtain ⟨htidyCheck, htidyEq, -⟩ := check_reverse_iff htidy
  obtain ⟨hlooseCheck, -, hlooseSame⟩ := check_reverse_iff hloose
  refine ⟨htidy, htidyCheck.2 ?_, htidyEq.2 ?_, hloose, fun h ↦ ?_, fun h ↦ ?_⟩
  · decide
  · decide
  · exact absurd (hlooseCheck.1 h) (by decide)
  · exact absurd (hlooseSame.1 h) (by decide)

end Instance

end Document

end Patchwork
