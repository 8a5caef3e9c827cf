import Mathlib.Data.List.InsertIdx
import Patchwork.Hunk.Apply

/-!
# The cursor and the lines it was given

While a hunk is applied, lines are put in and taken out in front of the cursor, so what is behind it
keeps moving. All the same, how it ends can be told from the lines as they were at first: a hunk
line is about the line that lies as far behind the anchor as there are lines of the old side in
front of it (`LineSet.FitsAt`). Either every hunk line fits, and the hunk is one splice, or the
first that does not is named (`LineSet.verdict_applyLines`). Main statement:
`LineSet.splice_exact`.
-/

namespace Patchwork

/-- The number of lines of the old side in front of the hunk line at `j`. -/
def HunkLine.oldBefore (lines : List HunkLine) (j : Nat) : Nat := (lines.take j).countP isOld

/-- The number of lines of the new side in front of the hunk line at `j`. -/
def HunkLine.newBefore (lines : List HunkLine) (j : Nat) : Nat := (lines.take j).countP isNew

/-- The texts of the lines on the old side. -/
def HunkLine.oldTexts (lines : List HunkLine) : List String := (lines.filter isOld).filterMap text?

/-- The texts of the lines on the new side. -/
def HunkLine.newTexts (lines : List HunkLine) : List String := (lines.filter isNew).filterMap text?

theorem HunkLine.oldTexts_append (lines others : List HunkLine) :
    oldTexts (lines ++ others) = oldTexts lines ++ oldTexts others := by
  rw [oldTexts, List.filter_append, List.filterMap_append, ← oldTexts, ← oldTexts]

theorem HunkLine.newTexts_append (lines others : List HunkLine) :
    newTexts (lines ++ others) = newTexts lines ++ newTexts others := by
  rw [newTexts, List.filter_append, List.filterMap_append, ← newTexts, ← newTexts]

namespace LineSet

open HunkLine

/-- Whether a hunk line fits the line at `i`: a line of the old side has to be there, and a line to
add must leave no gap. -/
def Takes (s : LineSet) (i : Nat) : HunkLine → Prop
  | .context text | .remove text => s.lines[i]? = some (s.comparable text)
  | .add _ => i ≤ s.lines.length
  | .noNewline => True

instance (s : LineSet) (i : Nat) : (line : HunkLine) → Decidable (s.Takes i line)
  | .context _ | .remove _ => inferInstanceAs (Decidable (_ = _))
  | .add _ => inferInstanceAs (Decidable (_ ≤ _))
  | .noNewline => inferInstanceAs (Decidable True)

/-- Whether the hunk line at `j` fits, if there is one, when the first of them is at `i`. -/
def FitsAt (s : LineSet) (i : Nat) (lines : List HunkLine) (j : Nat) : Prop :=
  ∀ line ∈ lines[j]?, s.Takes (i + oldBefore lines j) line

instance (s : LineSet) (i : Nat) (lines : List HunkLine) (j : Nat) :
    Decidable (s.FitsAt i lines j) :=
  inferInstanceAs (Decidable (∀ line ∈ lines[j]?, s.Takes (i + oldBefore lines j) line))

/-- What is wrong with the hunk line at `j` if it does not fit. The number of the line and the
length are those at the time when the cursor comes to it. -/
def misfit (s : LineSet) (i : Nat) (lines : List HunkLine) (j : Nat) (line : HunkLine) :
    HunkError :=
  let number := i + newBefore lines j + 1
  match s.lines[i + oldBefore lines j]? with
  | some actual => .mismatch number line actual
  | none => .pastEnd number line (s.lines.length + newBefore lines j - oldBefore lines j)

/-- Lines in which those of the new side stand where those of the old side were. Endings that were
not there before are of the set's style. -/
structure Spliced (s : LineSet) (i : Nat) (lines : List HunkLine) (t : LineSet) : Prop where
  lines : t.lines =
    s.lines.take i ++ (newTexts lines).map s.comparable ++ s.lines.drop (i + lines.countP isOld)
  style : t.style = s.style
  missingFinalNewline : t.missingFinalNewline = s.missingFinalNewline
  endings : ∀ ending ∈ t.endings, ending = s.style ∨ ending ∈ s.endings

/-- How applying hunk lines from the cursor `i` on can come out. -/
inductive Verdict (s : LineSet) (i : Nat) (lines : List HunkLine) :
    Except HunkError (LineSet × Nat) → Prop where
  | spliced {t : LineSet} (hfits : ∀ j, s.FitsAt i lines j) (h : s.Spliced i lines t) :
      Verdict s i lines (.ok (t, i + lines.countP isNew))
  | refused {j : Nat} {line : HunkLine} (hline : lines[j]? = some line)
      (hfits : ∀ k < j, s.FitsAt i lines k) (hmisfit : ¬ s.FitsAt i lines j) :
      Verdict s i lines (.error (s.misfit i lines j line))

variable {s t : LineSet} {i : Nat} {line : HunkLine} {lines : List HunkLine} {text : String}

theorem comparable_congr (h : s.style = t.style) (text : String) :
    s.comparable text = t.comparable text := by
  simp only [comparable, h]

/-- What is left when the cursor has gone past a hunk line that fits: in front of it the line is
dealt with, and behind it nothing has changed. -/
structure Passes (s : LineSet) (i : Nat) (line : HunkLine) (s' : LineSet) (i' : Nat) : Prop where
  front : s'.lines.take i' = s.lines.take i ++ (newTexts [line]).map s.comparable
  behind : s'.lines.drop i' = s.lines.drop (i + [line].countP isOld)
  cursor : i' = i + [line].countP isNew
  length : s'.lines.length + [line].countP isOld = s.lines.length + [line].countP isNew
  style : s'.style = s.style
  missingFinalNewline : s'.missingFinalNewline = s.missingFinalNewline
  endings : ∀ ending ∈ s'.endings, ending = s.style ∨ ending ∈ s.endings

private theorem lt_of_getElem? (h : s.lines[i]? = some text) : i < s.lines.length :=
  (List.getElem?_eq_some_iff.1 h).1

private theorem passes_context (h : s.Takes i (.context text)) :
    s.Passes i (.context text) s (i + 1) where
  front := by
    have hget : s.lines[i]? = some (s.comparable text) := h
    rw [List.take_add_one, hget]
    rfl
  behind := rfl
  cursor := rfl
  length := rfl
  style := rfl
  missingFinalNewline := rfl
  endings _ := .inr

private theorem passes_remove (h : s.Takes i (.remove text)) :
    s.Passes i (.remove text) (s.erase i) i where
  front := by
    rw [erase, List.take_eraseIdx_eq_take_of_le _ _ _ (Nat.le_refl i)]
    exact (List.append_nil _).symm
  behind := by
    refine List.ext_getElem? fun k ↦ ?_
    rw [erase, List.getElem?_drop, List.getElem?_drop,
      List.getElem?_eraseIdx_of_ge (Nat.le_add_right i k), Nat.add_right_comm]
    rfl
  cursor := rfl
  length := by
    have hlt : i < s.lines.length := lt_of_getElem? h
    have hlength : (s.erase i).lines.length = s.lines.length - 1 := List.length_eraseIdx_of_lt hlt
    rw [hlength]
    exact Nat.sub_add_cancel (Nat.zero_lt_of_lt hlt)
  style := rfl
  missingFinalNewline := rfl
  endings _ h := .inr (List.eraseIdx_subset h)

private theorem passes_add (h : s.Takes i (.add text)) :
    s.Passes i (.add text) (s.insert i (s.comparable text)) (i + 1) where
  front := by
    have hle : i ≤ s.lines.length := h
    rw [insert, List.take_add_one, List.getElem?_insertIdx_self, if_pos hle,
      List.take_insertIdx_eq_take_of_le _ _ _ _ (Nat.le_refl i)]
    rfl
  behind := by
    refine List.ext_getElem? fun k ↦ ?_
    rw [insert, List.getElem?_drop, List.getElem?_drop,
      List.getElem?_insertIdx_of_gt (by omega), Nat.add_right_comm]
    rfl
  cursor := rfl
  length := List.length_insertIdx_of_le_length h _
  style := rfl
  missingFinalNewline := rfl
  endings _ h := List.eq_or_mem_of_mem_insertIdx h

private theorem passes_noNewline : s.Passes i .noNewline s i :=
  ⟨by simp [newTexts, isNew], rfl, rfl, rfl, rfl, rfl, fun _ ↦ .inr⟩

private theorem countP_cons_eq (side : HunkLine → Bool) (line : HunkLine) (lines : List HunkLine) :
    (line :: lines).countP side = [line].countP side + lines.countP side :=
  @List.countP_append _ side [line] lines

private theorem oldBefore_succ (line : HunkLine) (lines : List HunkLine) (j : Nat) :
    oldBefore (line :: lines) (j + 1) = [line].countP isOld + oldBefore lines j :=
  countP_cons_eq isOld line (lines.take j)

private theorem newBefore_succ (line : HunkLine) (lines : List HunkLine) (j : Nat) :
    newBefore (line :: lines) (j + 1) = [line].countP isNew + newBefore lines j :=
  countP_cons_eq isNew line (lines.take j)

private theorem newTexts_cons (line : HunkLine) (lines : List HunkLine) :
    newTexts (line :: lines) = newTexts [line] ++ newTexts lines :=
  newTexts_append [line] lines

private theorem fitsAt_zero_iff : s.FitsAt i (line :: lines) 0 ↔ s.Takes i line := by
  simp [FitsAt, oldBefore]

namespace Passes

variable {s' : LineSet} {i' : Nat} (h : s.Passes i line s' i')

include h

private theorem getElem?_eq (k : Nat) :
    s'.lines[i' + k]? = s.lines[i + ([line].countP isOld + k)]? := by
  rw [← List.getElem?_drop, h.behind, List.getElem?_drop, Nat.add_assoc]

private theorem takes_iff (k : Nat) (other : HunkLine) :
    s'.Takes (i' + k) other ↔ s.Takes (i + ([line].countP isOld + k)) other := by
  have hlength := h.length
  have hcursor := h.cursor
  cases other with
  | context text | remove text => rw [Takes, Takes, h.getElem?_eq, comparable_congr h.style]
  | add text =>
    rw [Takes, Takes]
    omega
  | noNewline => exact Iff.rfl

private theorem fitsAt_iff (j : Nat) :
    s'.FitsAt i' lines j ↔ s.FitsAt i (line :: lines) (j + 1) := by
  simp only [FitsAt, h.takes_iff, oldBefore_succ, List.getElem?_cons_succ]

private theorem misfit_eq (j : Nat) (other : HunkLine) :
    s'.misfit i' lines j other = s.misfit i (line :: lines) (j + 1) other := by
  have hlength := h.length
  have hnumber : i' + newBefore lines j = i + newBefore (line :: lines) (j + 1) := by
    rw [h.cursor, newBefore_succ, Nat.add_assoc]
  have hleft : s'.lines.length + newBefore lines j - oldBefore lines j =
      s.lines.length + newBefore (line :: lines) (j + 1) - oldBefore (line :: lines) (j + 1) := by
    rw [newBefore_succ, oldBefore_succ]
    omega
  simp only [misfit, hnumber, hleft, h.getElem?_eq, oldBefore_succ]

private theorem spliced (ht : s'.Spliced i' lines t) : s.Spliced i (line :: lines) t where
  lines := by
    have hdrop : s'.lines.drop (i' + lines.countP isOld) =
        s.lines.drop (i + (line :: lines).countP isOld) := by
      rw [← List.drop_drop, h.behind, List.drop_drop, Nat.add_assoc, ← countP_cons_eq]
    have htexts : s'.comparable = s.comparable := funext (comparable_congr h.style)
    rw [ht.lines, h.front, hdrop, htexts, List.append_assoc (s.lines.take i), ← List.map_append,
      ← newTexts_cons]
  style := ht.style.trans h.style
  missingFinalNewline := ht.missingFinalNewline.trans h.missingFinalNewline
  endings ending hending := by
    obtain rfl | hbefore := ht.endings ending hending
    · exact .inl h.style
    · exact h.endings ending hbefore

/-- How it comes out is decided behind a line that fits. -/
private theorem verdict (htakes : s.Takes i line) {result : Except HunkError (LineSet × Nat)}
    (hresult : s'.Verdict i' lines result) : s.Verdict i (line :: lines) result := by
  have hfirst : s.FitsAt i (line :: lines) 0 := fitsAt_zero_iff.2 htakes
  cases hresult with
  | @spliced t hfits ht =>
    have hcursor : i' + lines.countP isNew = i + (line :: lines).countP isNew := by
      rw [h.cursor, Nat.add_assoc, ← countP_cons_eq]
    rw [hcursor]
    refine .spliced (fun j ↦ ?_) (h.spliced ht)
    cases j with
    | zero => exact hfirst
    | succ j => exact h.fitsAt_iff j |>.1 (hfits j)
  | @refused j other hother hfits hmisfit =>
    rw [h.misfit_eq]
    refine .refused (by simpa using hother) (fun k hk ↦ ?_) fun hfit ↦
      hmisfit ((h.fitsAt_iff j).2 hfit)
    cases k with
    | zero => exact hfirst
    | succ k => exact (h.fitsAt_iff k).1 (hfits k (Nat.lt_of_succ_lt_succ hk))

end Passes

/-- A line that does not fit is the first. -/
private theorem verdict_of_not_takes (h : ¬ s.Takes i line) :
    s.Verdict i (line :: lines) (.error (s.misfit i (line :: lines) 0 line)) :=
  .refused rfl (fun _ hk ↦ absurd hk (Nat.not_lt_zero _)) (mt fitsAt_zero_iff.1 h)

/-- A line of the old side is expected where it fits. -/
private theorem expect_of_fits (line : HunkLine) (h : s.lines[i]? = some (s.comparable text)) :
    s.expect i line text = .ok () := by
  simp only [expect, h, if_true]

/-- A line of the old side is at fault where it does not fit. -/
private theorem expect_of_misfit (line : HunkLine) (lines : List HunkLine)
    (h : s.lines[i]? ≠ some (s.comparable text)) :
    s.expect i line text = .error (s.misfit i (line :: lines) 0 line) := by
  have hfirst : oldBefore (line :: lines) 0 = 0 ∧ newBefore (line :: lines) 0 = 0 := ⟨rfl, rfl⟩
  simp only [misfit, expect, hfirst, Nat.add_zero, Nat.sub_zero]
  cases hget : s.lines[i]? with
  | none => rfl
  | some actual =>
    have hactual : actual ≠ s.comparable text := fun heq ↦ h (hget.trans (congrArg some heq))
    simp only [if_neg hactual]

/-- Applying hunk lines comes out as the lines that were there at first have it. -/
theorem verdict_applyLines (s : LineSet) (i : Nat) (lines : List HunkLine) :
    s.Verdict i lines (s.applyLines i lines) := by
  induction lines generalizing s i with
  | nil =>
    refine .spliced (fun j ↦ ?_) ⟨?_, rfl, rfl, fun _ ↦ .inr⟩
    · simp [FitsAt]
    · simp [newTexts]
  | cons line lines ih =>
    cases line with
    | context text =>
      rw [applyLines]
      by_cases htakes : s.Takes i (.context text)
      · rw [expect_of_fits _ htakes]
        exact (passes_context htakes).verdict htakes (ih s (i + 1))
      · rw [expect_of_misfit _ lines htakes]
        exact verdict_of_not_takes htakes
    | remove text =>
      rw [applyLines]
      by_cases htakes : s.Takes i (.remove text)
      · rw [expect_of_fits _ htakes]
        exact (passes_remove htakes).verdict htakes (ih (s.erase i) i)
      · rw [expect_of_misfit _ lines htakes]
        exact verdict_of_not_takes htakes
    | add text =>
      rw [applyLines]
      by_cases htakes : s.Takes i (.add text)
      · rw [if_neg (Nat.not_lt_of_le htakes)]
        exact (passes_add htakes).verdict htakes (ih (s.insert i (s.comparable text)) (i + 1))
      · have hbeyond : s.lines.length < i := Nat.lt_of_not_le htakes
        have hmisfit : s.misfit i (.add text :: lines) 0 (.add text) =
            .pastEnd (i + 1) (.add text) s.lines.length := by
          simp [misfit, newBefore, oldBefore, Nat.le_of_lt hbeyond]
        rw [if_pos hbeyond, ← hmisfit]
        exact verdict_of_not_takes htakes
    | noNewline =>
      rw [applyLines]
      exact passes_noNewline.verdict trivial (ih s i)

section Fits

private theorem fitsAt_succ_iff (j : Nat) :
    s.FitsAt i (line :: lines) (j + 1) ↔ s.FitsAt (i + [line].countP isOld) lines j := by
  simp only [FitsAt, oldBefore_succ, List.getElem?_cons_succ, Nat.add_assoc]

/-- A hunk that has lines at all and fits lies within the lines it is about. -/
theorem le_length_of_fits (hfits : ∀ j, s.FitsAt i lines j)
    (htext : ∃ line ∈ lines, line ≠ .noNewline) : i + lines.countP isOld ≤ s.lines.length := by
  induction lines generalizing i with
  | nil => simp at htext
  | cons line lines ih =>
    have hrest (j : Nat) : s.FitsAt (i + [line].countP isOld) lines j :=
      (fitsAt_succ_iff j).1 (hfits (j + 1))
    rw [countP_cons_eq, ← Nat.add_assoc]
    by_cases hmore : ∃ line ∈ lines, line ≠ .noNewline
    · exact ih hrest hmore
    · have hnone : lines.countP isOld = 0 := by
        refine List.countP_eq_zero.2 fun other hother ↦ ?_
        rw [Classical.not_not.1 fun hne ↦ hmore ⟨other, hother, hne⟩]
        exact Bool.false_ne_true
      have htakes : s.Takes i line := fitsAt_zero_iff.1 (hfits 0)
      rw [hnone]
      cases line with
      | context text | remove text => exact lt_of_getElem? htakes
      | add text => exact htakes
      | noNewline => exact absurd (by simpa using htext) hmore

private theorem oldTexts_cons (line : HunkLine) (lines : List HunkLine) :
    oldTexts (line :: lines) = oldTexts [line] ++ oldTexts lines :=
  oldTexts_append [line] lines

private theorem length_oldTexts_singleton (line : HunkLine) :
    (oldTexts [line]).length = [line].countP isOld := by
  cases line <;> rfl

/-- A hunk fits where the lines of its old side are. -/
theorem fits_of_lines_eq {front back : List String}
    (hlines : s.lines = front ++ (oldTexts lines).map s.comparable ++ back) (j : Nat) :
    s.FitsAt front.length lines j := by
  induction lines generalizing front j with
  | nil => simp [FitsAt]
  | cons line lines ih =>
    rw [oldTexts_cons, List.map_append] at hlines
    cases j with
    | zero =>
      rw [fitsAt_zero_iff]
      cases line with
      | context text | remove text =>
        have hget : s.lines[front.length]? = some (s.comparable text) := by
          rw [hlines, List.append_assoc, List.getElem?_append_right (Nat.le_refl _), Nat.sub_self]
          rfl
        exact hget
      | add text =>
        have hle : front.length ≤ s.lines.length := by
          rw [hlines, List.append_assoc, List.length_append]
          exact Nat.le_add_right _ _
        exact hle
      | noNewline => trivial
    | succ j =>
      rw [← List.append_assoc front] at hlines
      have hrest := ih hlines j
      rw [List.length_append, List.length_map, length_oldTexts_singleton] at hrest
      exact (fitsAt_succ_iff j).2 hrest

/-- The lines that a hunk fits hold those of its old side. -/
theorem lines_eq_of_fits (hfits : ∀ j, s.FitsAt i lines j) :
    s.lines = s.lines.take i ++ (oldTexts lines).map s.comparable ++
      s.lines.drop (i + lines.countP isOld) := by
  suffices hdrop : s.lines.drop i =
      (oldTexts lines).map s.comparable ++ s.lines.drop (i + lines.countP isOld) by
    rw [List.append_assoc, ← hdrop, List.take_append_drop]
  induction lines generalizing i with
  | nil => rfl
  | cons line lines ih =>
    have hrest := ih fun j ↦ (fitsAt_succ_iff j).1 (hfits (j + 1))
    have htakes : s.Takes i line := fitsAt_zero_iff.1 (hfits 0)
    rw [countP_cons_eq, ← Nat.add_assoc]
    cases line with
    | context text | remove text =>
      obtain ⟨hlt, hget⟩ := List.getElem?_eq_some_iff.1 htakes
      rw [List.drop_eq_getElem_cons hlt, hget]
      exact congrArg (s.comparable text :: ·) hrest
    | add text | noNewline => exact hrest

end Fits

/-- Applying a hunk is one splice. If every line of the hunk fits, those of its old side give way to
those of its new side, and the index right behind these is given. Otherwise the first line that does
not fit is at fault: for the line that is there in its place, or for lying beyond the end. Lines
with no file around them are compared with the texts as they are. -/
theorem splice_exact (s : LineSet) (h : Hunk) :
    ((∀ j < h.lines.length, s.FitsAt h.anchor h.lines j) →
      (∃ t, s.splice h = .ok (t, h.anchor + h.newLines.length) ∧
        t.lines = s.lines.take h.anchor ++ (newTexts h.lines).map s.comparable ++
          s.lines.drop (h.anchor + h.oldLines.length) ∧
        ((∀ line ∈ h.lines, line = .noNewline) → t.lines = s.lines)) ∧
      ((∃ line ∈ h.lines, line ≠ .noNewline) →
        h.anchor + h.oldLines.length ≤ s.lines.length)) ∧
    (∀ j line, h.lines[j]? = some line → (∀ k < j, s.FitsAt h.anchor h.lines k) →
      ¬ s.FitsAt h.anchor h.lines j →
        s.splice h = .error (s.misfit h.anchor h.lines j line)) ∧
    ∀ lines text, (ofLines lines).comparable text = text := by
  have hverdict := s.verdict_applyLines h.anchor h.lines
  rw [Hunk.oldLines, Hunk.newLines, ← List.countP_eq_length_filter,
    ← List.countP_eq_length_filter, splice]
  refine ⟨fun hfits ↦ ?_, fun j line hline hbefore hmisfit ↦ ?_, fun lines text ↦ rfl⟩
  · have hall (j : Nat) : s.FitsAt h.anchor h.lines j := by
      intro line hline
      exact hfits j (List.getElem?_eq_some_iff.1 hline).1 line hline
    refine ⟨?_, le_length_of_fits hall⟩
    generalize s.applyLines h.anchor h.lines = result at hverdict
    cases hverdict with
    | @spliced t _ ht =>
      refine ⟨t, rfl, ht.lines, fun hmarkers ↦ ?_⟩
      have hside (side : HunkLine → Bool) (hside : side .noNewline = false) :
          h.lines.filter side = [] := by
        refine List.filter_eq_nil_iff.2 fun line hline ↦ ?_
        rw [hmarkers line hline, hside]
        exact Bool.false_ne_true
      rw [ht.lines, newTexts, hside isNew rfl, List.countP_eq_length_filter, hside isOld rfl]
      simp
    | refused _ _ hmisfit => exact absurd (hall _) hmisfit
  · generalize s.applyLines h.anchor h.lines = result at hverdict
    cases hverdict with
    | spliced hfits _ => exact absurd (hfits j) hmisfit
    | @refused k other hother hfits hfirst =>
      -- Both are the first line that does not fit.
      obtain hlt | rfl | hlt := Nat.lt_trichotomy j k
      · exact absurd (hfits j hlt) hmisfit
      · rw [hline] at hother
        cases hother
        rfl
      · exact absurd (hbefore k hlt) hfirst

section Instance

/-- Three lines. -/
def three : LineSet := ofLines ["a", "b", "c"]

/-- A hunk that fits these. -/
def fitting : Hunk := ⟨2, 2, [.context "b", .add "x", .remove "c", .noNewline]⟩

/-- A hunk that expects another line at their end. -/
def mistaken : Hunk := ⟨2, 2, [.context "b", .add "x", .remove "y"]⟩

/-- A hunk that goes on beyond their end. -/
def overlong : Hunk := ⟨3, 3, [.remove "c", .add "x", .add "y", .context "d"]⟩

theorem splice_exact_three :
    (∀ j < fitting.lines.length, three.FitsAt fitting.anchor fitting.lines j) ∧
      (∃ t, three.splice fitting = .ok (t, 3) ∧ t.lines = ["a", "b", "x"]) ∧
      ¬ three.FitsAt mistaken.anchor mistaken.lines 2 ∧
      three.splice mistaken = .error (.mismatch 4 (.remove "y") "c") ∧
      ¬ three.FitsAt overlong.anchor overlong.lines 3 ∧
      three.splice overlong = .error (.pastEnd 5 (.context "d") 4) := by
  have hfits : ∀ j < fitting.lines.length, three.FitsAt fitting.anchor fitting.lines j := by decide
  have hmistaken : ¬ three.FitsAt mistaken.anchor mistaken.lines 2 := by decide
  have hoverlong : ¬ three.FitsAt overlong.anchor overlong.lines 3 := by decide
  obtain ⟨⟨t, hsplice, hlines, -⟩, -⟩ := (splice_exact three fitting).1 hfits
  refine ⟨hfits, ⟨t, hsplice, hlines⟩, hmistaken, ?_, hoverlong, ?_⟩
  · exact (splice_exact three mistaken).2.1 2 _ rfl (by decide) hmistaken
  · exact (splice_exact three overlong).2.1 3 _ rfl (by decide) hoverlong

end Instance

end LineSet

end Patchwork
