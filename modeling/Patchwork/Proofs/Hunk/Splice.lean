import Mathlib.Data.List.InsertIdx
import Patchwork.Hunk.Apply
import Patchwork.Proofs.Hunk.Sides
import Patchwork.Proofs.Lines.Held

/-!
# Splicing a hunk into the lines it is about

A hunk whose sides are raw lines puts the new lines where the old ones are held. The cursor stands
right after the lines that the hunk has dealt with, so the lines in front of it are a part of the
new file and the lines behind it a part of the old one. Main statement: `splice_of_sides`.
-/

namespace Patchwork

namespace LineSet

variable {s : LineSet} {front back : List (List Char)} {line : List Char}

/-- Two sets have the same style, and their last lines are alike. -/
structure SameShape (s t : LineSet) : Prop where
  style : t.style = s.style
  missingFinalNewline : t.missingFinalNewline = s.missingFinalNewline

/-- A line is expected where it is held. -/
private theorem expect_of_holds (hs : s.Holds (front ++ line :: back)) (h : HunkLine) :
    s.expect front.length h (.ofList (Lines.body line)) = .ok () := by
  have hget : s.lines[front.length]? = some (s.held line) := by
    rw [hs.lines_eq, List.map_append, List.getElem?_append_right (by simp)]
    simp
  rw [expect, hget]
  exact if_pos rfl

/-- Erasing a held line leaves the others. -/
private theorem holds_erase (hs : s.Holds (front ++ line :: back)) :
    (s.erase front.length).Holds (front ++ back) := by
  have hheld : (s.erase front.length).held = s.held := held_congr rfl
  constructor
  · rw [hheld, erase, hs.lines_eq, List.map_append, List.map_cons,
      List.eraseIdx_append_of_length_le (by simp)]
    simp
  · intro ending hending
    exact hs.chars_eq ending (List.eraseIdx_subset hending)

private theorem insertIdx_length_append {α : Type} (front back : List α) (x : α) :
    (front ++ back).insertIdx front.length x = front ++ x :: back := by
  induction front with
  | nil => rw [List.nil_append, List.length_nil, List.insertIdx_zero, List.nil_append]
  | cons y front ih =>
    rw [List.cons_append, List.length_cons, List.insertIdx_succ_cons, ih, List.cons_append]

/-- A line put in among held lines is held. -/
private theorem holds_insert (line : List Char) (hs : s.Holds (front ++ back)) :
    (s.insert front.length (s.held line)).Holds (front ++ line :: back) := by
  have hheld : (s.insert front.length (s.held line)).held = s.held := held_congr rfl
  constructor
  · have hlength : front.length = (front.map s.held).length := List.length_map s.held |>.symm
    rw [hheld, insert, hs.lines_eq, List.map_append, hlength, insertIdx_length_append,
      List.map_append, List.map_cons]
  · intro ending hending
    rcases List.eq_or_mem_of_mem_insertIdx hending with rfl | hending
    · rfl
    · exact hs.chars_eq ending hending

/-- A marker says nothing to the cursor. -/
theorem applyLines_marker (i : Nat) (ended : Bool) (rest : List HunkLine) :
    s.applyLines i ((if ended then [] else [.noNewline]) ++ rest) = s.applyLines i rest := by
  cases ended <;> rfl

/-- Hunk lines put the new raw lines where the old ones are held. -/
private theorem applyLines_of_sides {lines : List HunkLine} {old new : List (List Char)}
    (h : Sides lines old new) (hs : s.Holds (front ++ old ++ back)) :
    ∃ t, s.applyLines front.length lines = .ok (t, front.length + new.length) ∧
      t.Holds (front ++ new ++ back) ∧ s.SameShape t := by
  induction h generalizing s front with
  | nil => exact ⟨s, rfl, hs, rfl, rfl⟩
  | @context lines old new line h ih =>
    rw [List.append_assoc, List.cons_append] at hs
    have hnext : s.Holds (front ++ [line] ++ old ++ back) := by simpa using hs
    obtain ⟨t, happly, ht, hshape⟩ := ih hnext
    refine ⟨t, ?_, by simpa using ht, hshape⟩
    rw [HunkLine.spelled, List.cons_append, applyLines, expect_of_holds hs]
    rw [List.length_append, List.length_singleton] at happly
    simp only [applyLines_marker, happly, List.length_cons, Nat.add_assoc, Nat.add_comm 1]
  | @remove lines old new line h ih =>
    rw [List.append_assoc, List.cons_append] at hs
    have hnext := holds_erase hs
    rw [← List.append_assoc] at hnext
    obtain ⟨t, happly, ht, hshape⟩ := ih hnext
    refine ⟨t, ?_, ht, hshape.style, hshape.missingFinalNewline⟩
    rw [HunkLine.spelled, List.cons_append, applyLines, expect_of_holds hs]
    simp only [applyLines_marker, happly]
  | @add lines old new line h ih =>
    rw [List.append_assoc] at hs
    have hnext := holds_insert line hs
    have hroom : ¬ s.lines.length < front.length := by
      simp [hs.lines_eq]
    have hnext : (s.insert front.length (s.held line)).Holds (front ++ [line] ++ old ++ back) := by
      simpa using hnext
    obtain ⟨t, happly, ht, hshape⟩ := ih hnext
    refine ⟨t, ?_, by simpa using ht, hshape.style, hshape.missingFinalNewline⟩
    rw [HunkLine.spelled, List.cons_append, applyLines, if_neg hroom, applyLines_marker]
    rw [List.length_append, List.length_singleton] at happly
    simp only [held] at happly
    simp only [happly, List.length_cons, Nat.add_assoc, Nat.add_comm 1]

/-- A hunk puts the new raw lines where the old ones are held, and ends right behind them. -/
theorem splice_of_sides {h : Hunk} {old new : List (List Char)} (hsides : Sides h.lines old new)
    (hstart : h.newStart.toNat = front.length + 1) (hs : s.Holds (front ++ old ++ back)) :
    ∃ t, s.splice h = .ok (t, front.length + new.length) ∧ t.Holds (front ++ new ++ back) ∧
      s.SameShape t := by
  have hanchor : h.anchor = front.length := by
    rw [Hunk.anchor]
    omega
  rw [splice, hanchor]
  exact applyLines_of_sides hsides hs

/-- The set lacks the final newline when the last of the raw lines does. -/
def Flags (s : LineSet) (raws : List (List Char)) : Prop :=
  ∀ h : raws ≠ [], s.missingFinalNewline = !Lines.isEnded (raws.getLast h)

/-- Lines further in front do not matter. -/
theorem Flags.of_append_right {raws others : List (List Char)} (h : s.Flags (raws ++ others)) :
    s.Flags others := by
  intro hne
  rw [h (List.append_ne_nil_of_right_ne_nil raws hne), List.getLast_append_of_ne_nil _ hne]

/-- A hunk fits where its old side is held. It decides about the final newline when nothing is
left behind it. -/
theorem patch_of_sides {h : Hunk} {old new : List (List Char)} (hsides : Sides h.lines old new)
    (hstart : h.newStart.toNat = front.length + 1) (hs : s.Holds (front ++ old ++ back))
    (hproper : Lines.Proper (old ++ back)) (hflags : s.Flags (old ++ back)) :
    ∃ t, s.patch h = .ok t ∧ t.Holds (front ++ new ++ back) ∧ t.style = s.style ∧
      t.missingFinalNewline =
        if back = [] then new.any fun line ↦ !Lines.isEnded line else s.missingFinalNewline := by
  obtain ⟨t, hsplice, ht, hshape⟩ := splice_of_sides hsides hstart hs
  have hlength : t.lines.length = front.length + new.length + back.length := by
    rw [ht.lines_eq, List.length_map, List.length_append, List.length_append]
  rw [patch, hsplice]
  cases back with
  | cons line back =>
    have hafter : front.length + new.length < t.lines.length := by
      rw [hlength, List.length_cons]
      omega
    refine ⟨t, if_pos hafter, ht, hshape.style, ?_⟩
    rw [if_neg (List.cons_ne_nil line back)]
    exact hshape.missingFinalNewline
  | nil =>
    have hafter : ¬ front.length + new.length < t.lines.length := by
      rw [hlength, List.length_nil]
      omega
    have hagree : (h.hasOld && h.oldMissingNewline != t.missingFinalNewline) = false := by
      rw [hsides.hasOld_eq, hsides.oldMissingNewline_eq, hshape.missingFinalNewline]
      rw [List.append_nil] at hproper hflags
      cases old with
      | nil => rfl
      | cons line old =>
        rw [hflags (List.cons_ne_nil line old), hproper.any_not_isEnded (List.cons_ne_nil line old)]
        simp
    refine ⟨{ t with missingFinalNewline := h.newMissingNewline }, ?_,
      ⟨ht.lines_eq, ht.chars_eq⟩, hshape.style, ?_⟩
    · simp only [hafter, if_false, hagree, Bool.false_eq_true]
    · rw [if_pos rfl]
      exact hsides.newMissingNewline_eq

end LineSet

end Patchwork
