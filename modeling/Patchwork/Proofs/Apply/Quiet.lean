import Mathlib.Logic.Function.Iterate
import Patchwork.Proofs.Apply.Modification
import Patchwork.Proofs.Hunk.Rewriting
import Patchwork.Proofs.Store.Memory

/-!
# Changes that neither add nor remove

A quiet hunk holds context and markers only. Where it is applied it leaves every line as it is, and
the final newline too if it has a line on its old side, for then the file has agreed with it about
that. A hunk without any text agrees with every file: at the end of one without a final newline it
puts that newline there. Main statement: `apply_quiet`. Specification: No-touch idempotence in
section 8, and the newline flag in section 4.2.
-/

namespace Patchwork

namespace Hunk

/-- The hunk neither adds nor removes lines. -/
def Quiet (h : Hunk) : Prop := ∀ line ∈ h.lines, line.isOld = line.isNew

instance (h : Hunk) : Decidable h.Quiet :=
  inferInstanceAs (Decidable (∀ line ∈ h.lines, line.isOld = line.isNew))

/-- The hunk has no text, and its place is behind all lines of the file. -/
def BlankAtEnd (h : Hunk) (length : Nat) : Prop :=
  (∀ line ∈ h.lines, line = .noNewline) ∧ length ≤ h.anchor

instance (h : Hunk) (length : Nat) : Decidable (h.BlankAtEnd length) :=
  inferInstanceAs (Decidable (_ ∧ _))

/-- The lines of a quiet hunk are those of its context, and markers. -/
theorem quiet_iff {h : Hunk} :
    h.Quiet ↔ ∀ line ∈ h.lines, line = .noNewline ∨ ∃ text, line = .context text := by
  refine forall₂_congr fun line _ ↦ ?_
  cases line <;> simp [HunkLine.isOld, HunkLine.isNew]

variable {h : Hunk} (hquiet : h.Quiet)

include hquiet

/-- A quiet hunk says the same of the final newline on either side. -/
theorem Quiet.missingNewline_eq : h.newMissingNewline = h.oldMissingNewline := by
  have hmarked : ∀ line ∈ h.marked, line.isOld = line.isNew := by
    intro line hline
    obtain ⟨pair, hpair, rfl⟩ := List.mem_map.1 hline
    exact hquiet _ (List.of_mem_zip (List.mem_filter.1 hpair).1).1
  rw [newMissingNewline, oldMissingNewline, Bool.eq_iff_iff, List.any_eq_true, List.any_eq_true]
  constructor
  · rintro ⟨line, hline, hnew⟩
    exact ⟨line, hline, (hmarked line hline).trans hnew⟩
  · rintro ⟨line, hline, hold⟩
    exact ⟨line, hline, (hmarked line hline).symm.trans hold⟩

/-- Without a line on its old side a quiet hunk has no text at all. -/
theorem Quiet.blankAtEnd_iff {length : Nat} :
    h.BlankAtEnd length ↔ h.hasOld = false ∧ length ≤ h.anchor := by
  rw [hasOld, List.any_eq_false]
  refine and_congr_left' (forall₂_congr fun line hline ↦ ?_)
  obtain rfl | ⟨text, rfl⟩ := quiet_iff.1 hquiet line hline <;> simp [HunkLine.isOld]

end Hunk

namespace LineSet

variable {s t : LineSet} {h : Hunk} {hunks : List Hunk}

/-- The set with a newline behind its last line. -/
def terminate (s : LineSet) : LineSet := { s with missingFinalNewline := false }

/-- The cursor passes quiet hunk lines without changing anything. -/
private theorem applyLines_quiet {i j : Nat} {lines : List HunkLine}
    (hquiet : ∀ line ∈ lines, line.isOld = line.isNew)
    (happly : s.applyLines i lines = .ok (t, j)) :
    t = s ∧ j = i + lines.countP HunkLine.isOld := by
  induction lines generalizing i with
  | nil =>
    cases happly
    exact ⟨rfl, rfl⟩
  | cons line lines ih =>
    rw [List.forall_mem_cons] at hquiet
    cases line with
    | context text =>
      rw [applyLines] at happly
      split at happly
      · cases happly
      · obtain ⟨ht, hj⟩ := ih hquiet.2 happly
        refine ⟨ht, ?_⟩
        rw [hj, List.countP_cons_of_pos rfl, Nat.add_assoc, Nat.add_comm 1]
    | remove text | add text => simp [HunkLine.isOld, HunkLine.isNew] at hquiet
    | noNewline => exact ih hquiet.2 happly

/-- A quiet hunk that is applied does nothing, or it puts a newline behind the last line. -/
theorem eq_of_patch_quiet (hquiet : h.Quiet) (hpatch : s.patch h = .ok t) :
    t = if h.BlankAtEnd s.lines.length then s.terminate else s := by
  obtain ⟨t', hsplice, ht⟩ := exists_splice_of_patch hpatch
  obtain ⟨rfl, hafter⟩ := applyLines_quiet hquiet hsplice
  rw [hquiet.missingNewline_eq, hafter] at ht
  simp only [hquiet.blankAtEnd_iff]
  cases hold : h.hasOld with
  | true =>
    -- Both sides of the hunk say of the final newline what is true.
    rw [if_neg fun hblank ↦ Bool.noConfusion hblank.1]
    split at ht
    · exact ht
    · rw [ht.2, ht.1 hold]
  | false =>
    have hnone : h.lines.countP HunkLine.isOld = 0 := by
      rw [List.countP_eq_zero]
      exact List.any_eq_false.1 hold
    rw [hnone, Nat.add_zero, Hunk.oldMissingNewline_of_hasOld hold] at ht
    split at ht
    · next hlt => rw [if_neg fun hblank ↦ Nat.not_lt_of_le hblank.2 hlt, ht]
    · next hge => rw [if_pos ⟨rfl, Nat.le_of_not_lt hge⟩, ht.2, terminate]

/-- Quiet hunks that are applied do nothing, or one of them puts a newline behind the last line. -/
theorem eq_of_patchAll_quiet {first : Nat} (hquiet : ∀ h ∈ hunks, h.Quiet)
    (hpatch : s.patchAll first hunks = .ok t) :
    t = if ∃ h ∈ hunks, h.BlankAtEnd s.lines.length then s.terminate else s := by
  induction hunks generalizing s first with
  | nil =>
    cases hpatch
    simp
  | cons h hunks ih =>
    rw [List.forall_mem_cons] at hquiet
    rw [patchAll] at hpatch
    split at hpatch
    · cases hpatch
    · next s' hfirst =>
      have hs' := eq_of_patch_quiet hquiet.1 hfirst
      have ht := ih hquiet.2 hpatch
      have hlines : s'.lines = s.lines := by
        rw [hs']
        split <;> rfl
      rw [hlines] at ht
      simp only [List.exists_mem_cons_iff]
      by_cases hblank : h.BlankAtEnd s.lines.length
      · rw [if_pos hblank] at hs'
        rw [if_pos (.inl hblank), ht, hs']
        split <;> rfl
      · rw [if_neg hblank] at hs'
        rw [ht, hs']
        simp only [hblank, false_or]

end LineSet

/-- The file's last line is without a newline, and a hunk that has no text is behind it. -/
def FileChange.EndsLine (c : FileChange) (s : LineSet) : Prop :=
  s.missingFinalNewline = true ∧ ∃ h ∈ c.hunks, h.BlankAtEnd s.lines.length

instance (c : FileChange) (s : LineSet) : Decidable (c.EndsLine s) :=
  inferInstanceAs (Decidable (_ ∧ _))

/-- The file keeps its content and is not written, however often the change is made. -/
def FileChange.LeavesAlone (features : Features) (c : FileChange) (m : Memory) (p : Path) : Prop :=
  ∀ n, ((fun m ↦ (c.apply features m).store)^[n] m).get? p = m.get? p ∧
    ((fun m ↦ (c.apply features m).store)^[n] m).writeCount p = m.writeCount p

namespace FileChange

variable {features : Features} {c : FileChange} {m : Memory} {p : Path}

/-- A modification with quiet hunks writes the file only to put a newline behind its last line. -/
private theorem store_apply_quiet (hkind : c.kind = .modify) (hquiet : ∀ h ∈ c.hunks, h.Quiet)
    (hok : (c.apply features m).result = .ok p) :
    c.newPath = some p ∧ ∃ s, Stage.fileLines m p = .ok s ∧
      (c.apply features m).store =
        if c.EndsLine s then (m.perform (.write p s.terminate.bytes)).2 else m := by
  obtain ⟨hpath, s, t, hlines, hpatch, hstore⟩ := store_apply_modify hkind hok
  have ht := LineSet.eq_of_patchAll_quiet hquiet hpatch
  have hsame : t.SameContent s ↔ ¬ c.EndsLine s := by
    rw [ht, EndsLine, LineSet.SameContent]
    split
    · next hblank => cases s.missingFinalNewline <;> simp [LineSet.terminate, hblank]
    · next hblank => simp [hblank]
  refine ⟨hpath, s, hlines, ?_⟩
  rw [hstore]
  by_cases hends : c.EndsLine s
  · rw [if_neg fun h ↦ hsame.1 h hends, if_pos hends, ht, if_pos hends.2]
    rfl
  · rw [if_pos (hsame.2 hends), if_neg hends]

/-- A modification whose hunks neither add nor remove lines leaves its file alone, however often it
is made, unless the last line is without a newline and a hunk that has no text is behind it. Then
the file is written, with a newline at its end. -/
theorem apply_quiet (hkind : c.kind = .modify) (hquiet : ∀ h ∈ c.hunks, h.Quiet)
    (hok : (c.apply features m).result = .ok p) :
    c.newPath = some p ∧ ∃ s, Stage.fileLines m p = .ok s ∧
      (c.LeavesAlone features m p ↔ ¬ c.EndsLine s) ∧
      (¬ c.EndsLine s → ∀ n, (fun m ↦ (c.apply features m).store)^[n] m = m) ∧
      (c.EndsLine s →
        (c.apply features m).store = (m.perform (.write p s.terminate.bytes)).2) := by
  obtain ⟨hpath, s, hlines, hstore⟩ := store_apply_quiet hkind hquiet hok
  have hrests (hends : ¬ c.EndsLine s) (n : Nat) :
      (fun m ↦ (c.apply features m).store)^[n] m = m := by
    rw [if_neg hends] at hstore
    exact Function.iterate_fixed hstore n
  refine ⟨hpath, s, hlines, ⟨fun hleaves hends ↦ ?_, fun hends n ↦ ?_⟩, hrests, fun hends ↦ ?_⟩
  · have hcount := (hleaves 1).2
    rw [Function.iterate_one, hstore, if_pos hends, Memory.writeCount_perform] at hcount
    simp only [if_pos (Path.Same.refl p)] at hcount
    exact Nat.succ_ne_self _ hcount
  · rw [hrests hends n]
    exact ⟨rfl, rfl⟩
  · rw [hstore, if_pos hends]

section Instance

/-- Quiet hunks for a file of two lines without a final newline; the one without a text is in front
of its last line. -/
def calm : FileChange :=
  modifying [⟨1, 1, [.context "a"]⟩, ⟨1, 2, []⟩, ⟨2, 2, [.context "b", .noNewline]⟩]

theorem apply_quiet_calm :
    calm.kind = .modify ∧ (∀ h ∈ calm.hunks, h.Quiet) ∧
      (calm.apply .none (holding "a\nb")).result = .ok ⟨"f"⟩ ∧
      calm.LeavesAlone .none (holding "a\nb") ⟨"f"⟩ := by
  have hquiet : ∀ h ∈ calm.hunks, h.Quiet := by decide
  have hok : (calm.apply .none (holding "a\nb")).result = .ok ⟨"f"⟩ := rfl
  obtain ⟨-, s, hlines, hiff, -⟩ := apply_quiet rfl hquiet hok
  have hs : Stage.fileLines (holding "a\nb") ⟨"f"⟩ = .ok ⟨["a", "b"], [.lf, .lf], .lf, true⟩ := rfl
  rw [hs] at hlines
  cases hlines
  exact ⟨rfl, hquiet, hok, hiff.2 (by decide)⟩

/-- A hunk without lines ends the only line of a file, and writes an empty file once more. -/
theorem exists_quiet_not_leavesAlone :
    ∃ h : Hunk, h.lines = [] ∧
      ((modifying [h]).apply .none (holding "x")).result = .ok ⟨"f"⟩ ∧
      ¬ (modifying [h]).LeavesAlone .none (holding "x") ⟨"f"⟩ ∧
      ((modifying [h]).apply .none (holding "")).result = .ok ⟨"f"⟩ ∧
      ¬ (modifying [h]).LeavesAlone .none (holding "") ⟨"f"⟩ := by
  refine ⟨⟨1, 2, []⟩, rfl, rfl, fun h ↦ ?_, rfl, fun h ↦ ?_⟩
  · exact absurd (h 1).1 (by decide)
  · exact absurd (h 1).2 (by decide)

end Instance

end FileChange

end Patchwork
