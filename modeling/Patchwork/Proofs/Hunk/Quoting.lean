import Patchwork.Proofs.Hunk.Splice
import Patchwork.Proofs.Lines.Terminators

/-!
# Hunks that quote a file

A hunk that shows lines of a file as its context says nothing that is not so, and applying it should
leave the file as it is. But a file whose newlines have carriage returns takes the one at the end of
any hunk line for a part of the ending, while a last line that nothing ends is kept with its own
(`held_eq_iff`). Such a line is refused when it is quoted, and the error shows the same text as
expected and as found. All other quotations are accepted. Main statement: `patch_quoting`.
-/

namespace Patchwork

namespace Lines

/-- A raw line that ends with a carriage return where nothing ends it, in a text whose newlines have
them. -/
def LosesReturn (style : LineEnding) (line : List Char) : Prop :=
  style = .crlf ∧ isEnded line = false ∧ line.getLast? = some '\r'

instance (style : LineEnding) (line : List Char) : Decidable (LosesReturn style line) :=
  inferInstanceAs (Decidable (_ ∧ _ ∧ _))

/-- Of the raw lines of a text only the last can be without a newline. -/
theorem eq_concat_of_not_isEnded {front run back : List (List Char)} {line : List Char}
    (hproper : Proper (front ++ run ++ back)) (hline : line ∈ run)
    (hended : isEnded line = false) : back = [] ∧ ∃ before, run = before ++ [line] := by
  have hback : back = [] := by
    by_contra hne
    have hall := hproper.isEnded_of_append hne line (List.mem_append_right front hline)
    exact Bool.false_ne_true (hended.symm.trans hall)
  obtain ⟨before, after, rfl⟩ := List.append_of_mem hline
  have hafter : after = [] := by
    by_contra hne
    have hrun : Proper (before ++ [line] ++ after) := by
      simpa using hproper.of_append_left.of_append_right
    have hall := hrun.isEnded_of_append hne line List.mem_concat_self
    exact Bool.false_ne_true (hended.symm.trans hall)
  exact ⟨hback, before, by rw [hafter]⟩

end Lines

/-- The hunk shows a run of the raw lines of a text as its context, in their place. -/
structure Hunk.Quotes (h : Hunk) (text : String) (run : List (List Char)) : Prop where
  ne_nil : run ≠ []
  lines : h.lines = run.flatMap (HunkLine.spelled .context)
  place : ∃ front back, Lines.raw text.toList = front ++ run ++ back ∧
    h.newStart.toNat = front.length + 1

/-- Context stands for the same raw lines on both sides. -/
theorem Sides.quoting (run : List (List Char)) :
    Sides (run.flatMap (HunkLine.spelled .context)) run run := by
  induction run with
  | nil => exact .nil
  | cons line run ih => exact .context line ih

namespace LineSet

open Lines (LosesReturn bare isEnded)

variable {s : LineSet} {text : String} {h : Hunk} {run : List (List Char)} {line : List Char}

/-- A hunk shows a raw line as the set has it, unless the line loses its carriage return. -/
theorem held_eq_iff : s.held line = .ofList (bare s.style line) ↔ ¬ LosesReturn s.style line := by
  rw [held, comparable, LosesReturn, bare, Lines.body, String.toList_ofList]
  cases hended : isEnded line with
  | true =>
    simp only [if_true, Lines.part]
    split <;> simp
  | false =>
    -- The set has the line as it is, while a hunk's text is cut as if there were an ending.
    simp only [Bool.false_eq_true, if_false, true_and]
    split
    · next hreturn =>
      refine iff_of_false (fun heq ↦ ?_) fun hkept ↦ hkept hreturn
      obtain ⟨front, rfl⟩ := List.getLast?_eq_some_iff.1 hreturn.2
      simpa using String.ofList_injective heq
    · next hreturn => exact iff_of_true rfl hreturn

/-- The lines of a text are its raw lines without their terminators. -/
theorem lines_ofText (text : String) :
    (ofText text).lines =
      (Lines.raw text.toList).map fun line ↦ .ofList (bare (ofText text).style line) := by
  have hspells := Lines.spells_ofChars text.toList
  rw [← pairs_ofText] at hspells
  rw [← map_fst_pairs, ← List.forall₂_eq_eq_eq, List.forall₂_map_left_iff,
    List.forall₂_map_right_iff]
  refine hspells.flip.imp fun pair line hpair ↦ ?_
  have hbare : bare (ofText text).style line = pair.1.toList := hpair.bare
  rw [hbare, String.ofList_toList]

/-- The cursor passes context that is held as the set has it. -/
private theorem applyLines_quoting {i : Nat} {rest : List HunkLine} {back : List String}
    (hlines : s.lines.drop i = run.map s.held ++ back) :
    s.applyLines i (run.flatMap (HunkLine.spelled .context) ++ rest) =
      s.applyLines (i + run.length) rest := by
  induction run generalizing i with
  | nil => rfl
  | cons line run ih =>
    have hget : s.lines[i]? = some (s.held line) := by
      rw [← Nat.add_zero i, ← List.getElem?_drop, hlines]
      rfl
    have hnext : s.lines.drop (i + 1) = run.map s.held ++ back := by
      rw [← List.drop_drop, hlines]
      rfl
    have hexpect : s.expect i (.context (.ofList (Lines.body line))) (.ofList (Lines.body line)) =
        .ok () := by
      rw [expect, hget]
      exact if_pos rfl
    rw [List.flatMap_cons, List.append_assoc, HunkLine.spelled, List.cons_append, applyLines,
      hexpect]
    simp only [applyLines_marker, ih hnext, List.length_cons, Nat.add_assoc, Nat.add_comm 1]

section Text

variable {front back : List (List Char)} (hraw : Lines.raw text.toList = front ++ run ++ back)

include hraw

private theorem drop_lines_ofText :
    (ofText text).lines.drop front.length =
      (run ++ back).map fun line ↦ .ofList (bare (ofText text).style line) := by
  rw [lines_ofText, hraw, List.append_assoc, List.map_append, List.drop_left' (List.length_map _)]

/-- A quotation of lines that keep their carriage returns is passed, and it is right about the final
newline. -/
private theorem patch_eq_ok (hne : run ≠ [])
    (hlines : h.lines = run.flatMap (HunkLine.spelled .context)) (hanchor : h.anchor = front.length)
    (hkept : ∀ line ∈ run, ¬ LosesReturn (ofText text).style line) :
    (ofText text).patch h = .ok (ofText text) := by
  have hsides : Sides h.lines run run := hlines ▸ Sides.quoting run
  have hsplice : (ofText text).splice h = .ok (ofText text, front.length + run.length) := by
    have hdrop := drop_lines_ofText hraw
    rw [List.map_append, ← List.map_congr_left fun line hline ↦ held_eq_iff.2 (hkept line hline)]
      at hdrop
    rw [splice, hlines, hanchor, ← List.append_nil (run.flatMap _), applyLines_quoting hdrop]
    rfl
  have hlength : (ofText text).lines.length = front.length + run.length + back.length := by
    rw [lines_ofText, hraw, List.length_map, List.length_append, List.length_append]
  rw [patch, hsplice]
  by_cases hback : back = []
  · -- The last line that is quoted is the file's own last line, and a marker follows both or none.
    have hmissing : (ofText text).missingFinalNewline = run.any fun line ↦ !isEnded line := by
      have hflags : (ofText text).Flags (Lines.raw text.toList) := missingFinalNewline_ofText
      have hproper := Lines.proper_raw text.toList
      rw [hraw, hback, List.append_nil] at hflags hproper
      rw [hproper.of_append_right.any_not_isEnded hne, hflags.of_append_right hne]
    have hend : ¬ front.length + run.length < (ofText text).lines.length := by
      rw [hlength, hback]
      exact Nat.lt_irrefl _
    simp only [hend, if_false, hsides.oldMissingNewline_eq, hsides.newMissingNewline_eq, ← hmissing,
      bne_self_eq_false, Bool.and_false, Bool.false_eq_true]
  · have hbehind : front.length + run.length < (ofText text).lines.length := by
      rw [hlength]
      exact Nat.lt_add_of_pos_right (List.length_pos_iff.2 hback)
    simp only [hbehind, if_true]

/-- A quotation is passed up to a line that loses its carriage return, which is the last of all. -/
private theorem patch_eq_error (hlines : h.lines = run.flatMap (HunkLine.spelled .context))
    (hanchor : h.anchor = front.length) (hline : line ∈ run)
    (hloses : LosesReturn (ofText text).style line) :
    (ofText text).patch h =
      .error (.mismatch (h.anchor + run.length) (.context (.ofList line)) (.ofList line)) := by
  have hended : isEnded line = false := hloses.2.1
  have hproper := Lines.proper_raw text.toList
  rw [hraw] at hproper
  obtain ⟨rfl, before, rfl⟩ := Lines.eq_concat_of_not_isEnded hproper hline hended
  have hkept : ∀ other ∈ before, (ofText text).held other =
      .ofList (bare (ofText text).style other) := by
    intro other hother
    have hrun := hproper.of_append_left.of_append_right
    have hother := hrun.isEnded_of_append (List.cons_ne_nil line []) other hother
    exact held_eq_iff.2 fun hloses ↦ Bool.false_ne_true (hloses.2.1.symm.trans hother)
  have hdrop := drop_lines_ofText hraw
  rw [List.append_nil, List.map_append, ← List.map_congr_left hkept] at hdrop
  have hbare : bare (ofText text).style line = line := by simp [bare, hended]
  have hbody : Lines.body line = line := by simp [Lines.body, hended]
  have hget : (ofText text).lines[front.length + before.length]? = some (.ofList line) := by
    rw [← List.getElem?_drop, hdrop, List.getElem?_append_right (Nat.le_of_eq (List.length_map _)),
      List.length_map, Nat.sub_self, List.map_singleton, hbare]
    rfl
  have hheld : ¬ String.ofList line = (ofText text).comparable (.ofList line) := by
    have hdiffers := mt held_eq_iff.1 (Classical.not_not.2 hloses)
    rw [held, hbody, hbare] at hdiffers
    exact Ne.symm hdiffers
  rw [patch, splice, hlines, hanchor, List.flatMap_append, applyLines_quoting hdrop,
    List.flatMap_singleton, HunkLine.spelled, hbody, applyLines, expect, hget]
  simp only [if_neg hheld, List.length_append, List.length_singleton, Nat.add_assoc]

end Text

/-- A hunk that quotes lines of a file is accepted and leaves the file as it is, unless it quotes a
line that loses its carriage return. Then it is refused for that line, and the error shows the same
text as expected and as found. -/
theorem patch_quoting (hread : ofBytes text.toUTF8 = .ok s) (hquotes : h.Quotes text run) :
    ((∃ t, s.patch h = .ok t ∧ t.bytes = text.toUTF8) ↔
        ∀ line ∈ run, ¬ LosesReturn s.style line) ∧
      ∀ line ∈ run, LosesReturn s.style line →
        s.patch h =
          .error (.mismatch (h.anchor + run.length) (.context (.ofList line)) (.ofList line)) := by
  rw [ofBytes_toUTF8] at hread
  cases hread
  obtain ⟨hne, hlines, front, back, hraw, hstart⟩ := hquotes
  have hanchor : h.anchor = front.length := by
    rw [Hunk.anchor, hstart, Nat.add_sub_cancel]
  refine ⟨⟨fun hpatch line hline hloses ↦ ?_, fun hkept ↦ ?_⟩, fun line hline hloses ↦ ?_⟩
  · obtain ⟨t, hpatch, -⟩ := hpatch
    rw [patch_eq_error hraw hlines hanchor hline hloses] at hpatch
    cases hpatch
  · exact ⟨_, patch_eq_ok hraw hne hlines hanchor hkept, congrArg String.toUTF8 (text_ofText text)⟩
  · exact patch_eq_error hraw hlines hanchor hline hloses

section Instance

/-- A file whose lines end in several ways, the last of them in none. -/
def motley : String := "a\r\nb\nc\r\r\nd"

/-- A hunk that quotes all lines but the first. -/
def quotation : Hunk := ⟨2, 2, [.context "b", .context "c\r\r", .context "d", .noNewline]⟩

theorem patch_quoting_motley :
    ∃ s t, ofBytes motley.toUTF8 = .ok s ∧
      quotation.Quotes motley ["b\n".toList, "c\r\r\n".toList, "d".toList] ∧
      s.patch quotation = .ok t ∧ t.bytes = motley.toUTF8 := by
  have hread := ofBytes_toUTF8 motley
  have hquotes : quotation.Quotes motley ["b\n".toList, "c\r\r\n".toList, "d".toList] :=
    ⟨by decide, by decide, ["a\r\n".toList], [], by decide, rfl⟩
  obtain ⟨t, hpatch, hbytes⟩ := (patch_quoting hread hquotes).1.2 (by decide)
  exact ⟨_, t, hread, hquotes, hpatch, hbytes⟩

/-- A last line with a carriage return and no newline is refused when it is quoted as it is. -/
theorem exists_quotes_not_accepted :
    ∃ (s : LineSet) (h : Hunk), ofBytes "a\r\nb\r".toUTF8 = .ok s ∧ s.style = .crlf ∧
      h.Quotes "a\r\nb\r" ["b\r".toList] ∧
      s.patch h = .error (.mismatch 2 (.context "b\r") "b\r") :=
  ⟨_, ⟨2, 2, [.context "b\r", .noNewline]⟩, ofBytes_toUTF8 _, by decide,
    ⟨by decide, by decide, ["a\r\n".toList], [], by decide, rfl⟩, by decide⟩

end Instance

end LineSet

end Patchwork
