import Patchwork.Proofs.Hunk.Splice

/-!
# Hunks that turn one text into another

`Difference` says that hunks are about the places at which two lists of raw lines differ, and that
their numbers are right. Such hunks fit one after another (`patchAll_of_difference`): in front of
a hunk the set holds the new lines, behind it the old ones. The final newline needs care, since
only a hunk with nothing behind it decides about it.
-/

namespace Patchwork

/-- Hunks that turn old raw lines into new ones, `i` and `j` lines being in front of these on the
old and on the new side. Between the hunks the lines are kept. -/
inductive Difference : (i j : Nat) → List Hunk → (olds news : List (List Char)) → Prop where
  | nil {i j : Nat} (kept : List (List Char)) : Difference i j [] kept kept
  | cons {i j : Nat} {h : Hunk} {hunks : List Hunk} {kept old new olds news : List (List Char)}
      (hsides : Sides h.lines old new) (hne : h.lines ≠ [])
      (holdStart : h.oldStart.toNat = i + kept.length + 1)
      (hnewStart : h.newStart.toNat = j + kept.length + 1)
      (hrest : Difference (i + kept.length + old.length) (j + kept.length + new.length) hunks
        olds news) :
      Difference i j (h :: hunks) (kept ++ old ++ olds) (kept ++ new ++ news)

namespace Difference

variable {i j : Nat} {hunks : List Hunk} {olds news : List (List Char)}

/-- The hunks can be printed, if they are not too long for their numbers. -/
theorem printable (h : Difference i j hunks olds news)
    (hold : ∀ line ∈ olds, '\n' ∉ Lines.body line) (hnew : ∀ line ∈ news, '\n' ∉ Lines.body line)
    (hlength : ∀ h ∈ hunks,
      h.oldLines.length < UInt32.size ∧ h.newLines.length < UInt32.size) :
    ∀ h ∈ hunks, h.Printable := by
  induction h with
  | nil kept => exact fun h hh ↦ absurd hh List.not_mem_nil
  | @cons i j h hunks kept old new olds news hsides _ holdStart hnewStart _ ih =>
    rw [List.forall_mem_append, List.forall_mem_append] at hold hnew
    rw [List.forall_mem_cons] at hlength
    rw [List.forall_mem_cons]
    refine ⟨?_, ih hold.2 hnew.2 hlength.2⟩
    exact hsides.printable hold.1.2 hnew.1.2 (by omega) (by omega) hlength.1.1 hlength.1.2

/-- Hunks start behind the lines in front of them. -/
theorem newStart_ne_zero (h : Difference i j hunks olds news) : ∀ h ∈ hunks, h.newStart ≠ 0 := by
  induction h with
  | nil kept => exact fun h hh ↦ absurd hh List.not_mem_nil
  | cons _ _ _ hnewStart _ ih =>
    rw [List.forall_mem_cons]
    refine ⟨?_, ih⟩
    intro hzero
    rw [hzero, UInt32.toNat_zero] at hnewStart
    omega

end Difference

namespace LineSet

open Lines (isEnded Proper)

variable {s : LineSet}

/-- A hunk leaves lines behind it that are flagged as before; otherwise its own last line is. -/
private theorem flags_after {t : LineSet} {front new back : List (List Char)}
    (hproper : Proper (front ++ new)) (hfront : new = [] → ∀ line ∈ front, isEnded line = true)
    (hflags : back ≠ [] → s.Flags back)
    (ht : t.missingFinalNewline =
      if back = [] then new.any fun line ↦ !isEnded line else s.missingFinalNewline) :
    t.Flags (front ++ new ++ back) := by
  intro hne
  by_cases hback : back = []
  · subst hback
    rw [if_pos rfl] at ht
    by_cases hnew : new = []
    · subst hnew
      rw [ht, List.any_nil, hfront rfl _ ?_]
      · rfl
      · simp
    · rw [ht, Proper.any_not_isEnded hproper.of_append_right hnew]
      simp [List.getLast_append_of_ne_nil, hnew]
  · rw [ht, if_neg hback, hflags hback hback, List.getLast_append_of_ne_nil _ hback]

/-- Hunks that turn old raw lines into new ones do so in a set that holds the old ones. In front
of the last hunk every new line is ended, so no hunk before it may say otherwise. -/
theorem patchAll_of_difference {i : Nat} (done : List (List Char)) {hunks : List Hunk}
    {olds news : List (List Char)} (h : Difference i done.length hunks olds news) (first : Nat)
    (hs : s.Holds (done ++ olds)) (hold : Proper olds) (hnew : Proper (done ++ news))
    (hflags : s.Flags olds) (hdone : hunks ≠ [] → ∀ line ∈ done, isEnded line = true)
    (hend : hunks = [] → s.Flags (done ++ news))
    (hmarkers : ∀ h ∈ hunks.dropLast, h.newMissingNewline = false) :
    ∃ t, s.patchAll first hunks = .ok t ∧ t.Holds (done ++ news) ∧ t.style = s.style ∧
      t.Flags (done ++ news) := by
  generalize hj : done.length = j at h
  induction h generalizing s done first with
  | nil kept => exact ⟨s, rfl, hs, rfl, hend rfl⟩
  | @cons i j h hunks kept old new olds news hsides hne _ hnewStart hrest ih =>
    have hstart : h.newStart.toNat = (done ++ kept).length + 1 := by
      rw [List.length_append, hj, hnewStart]
    rw [List.append_assoc] at hold hflags
    have hnew' : Proper (done ++ kept ++ (new ++ news)) := by simpa using hnew
    -- A line in front of the hunk has another behind it, in one text or in the other.
    have hfront : ∀ line ∈ done ++ kept, isEnded line = true := by
      rcases hsides.ne_nil_or_ne_nil hne with hside | hside
      · have hkept := hold.isEnded_of_append (List.append_ne_nil_of_left_ne_nil hside olds)
        exact List.forall_mem_append.2 ⟨hdone (List.cons_ne_nil h hunks), hkept⟩
      · exact hnew'.isEnded_of_append (List.append_ne_nil_of_left_ne_nil hside news)
    obtain ⟨t, hpatch, ht, hstyle, hmissing⟩ :=
      patch_of_sides hsides hstart (by simpa using hs) hold.of_append_right hflags.of_append_right
    rw [← List.append_assoc] at hnew'
    have hbehind : t.Flags olds := by
      intro hne
      rw [hmissing, if_neg hne]
      exact hflags.of_append_right.of_append_right hne
    have hmarker : hunks ≠ [] → ∀ line ∈ done ++ kept ++ new, isEnded line = true := by
      intro hhunks
      have hmem : h ∈ (h :: hunks).dropLast := by
        rw [List.dropLast_cons_of_ne_nil hhunks]
        exact List.mem_cons_self
      have hlast := hmarkers h hmem
      rw [hsides.newMissingNewline_eq, List.any_eq_false] at hlast
      refine List.forall_mem_append.2 ⟨hfront, fun line hline ↦ ?_⟩
      simpa using hlast line hline
    have hlast : hunks = [] → t.Flags (done ++ kept ++ new ++ news) := by
      intro hhunks
      subst hhunks
      cases hrest
      exact flags_after hnew'.of_append_left (fun _ ↦ hfront)
        (fun _ ↦ hflags.of_append_right.of_append_right) hmissing
    have hmarkers' : ∀ h ∈ hunks.dropLast, h.newMissingNewline = false := by
      intro other hother
      have hne : hunks ≠ [] := by
        rintro rfl
        exact absurd hother List.not_mem_nil
      refine hmarkers other ?_
      rw [List.dropLast_cons_of_ne_nil hne]
      exact List.mem_cons_of_mem h hother
    obtain ⟨t', hpatchAll, ht', hstyle', hflags'⟩ :=
      ih (done ++ kept ++ new) (first + 1) ht hold.of_append_right.of_append_right hnew' hbehind
        hmarker hlast hmarkers' (by rw [List.length_append, List.length_append, hj])
    refine ⟨t', ?_, by simpa using ht', hstyle'.trans hstyle, by simpa using hflags'⟩
    rw [patchAll, hpatch]
    exact hpatchAll

end LineSet

end Patchwork
