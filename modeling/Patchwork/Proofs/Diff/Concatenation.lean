import Mathlib.Control.Monad.Basic
import Patchwork.Proofs.Diff.Reader
import Patchwork.Proofs.Except

/-!
# Diffs one after another

A line that opens a section finishes what came before it as the end of the diff would
(`Reader.step_eq_ok_iff_of_section`), and sections that are finished do not matter to the lines
behind them (`Reader.readLines_behind`). So where a diff begins with such a line, it can be put
behind another one, and both are read as they are alone. Main statement: `parse_append_eq_ok_iff`.
-/

namespace Patchwork.Diff

namespace Reader

/-- The reader with other sections finished in front of its own. -/
def behind (front : List Reading) (r : Reader) : Reader :=
  { r with finished := front ++ r.finished }

section Behind

variable (front : List Reading) (r : Reader)

theorem changes_behind :
    (r.behind front).changes = front.filterMap Reading.change? ++ r.changes :=
  List.filterMap_append

theorem closeHunk_behind : (r.behind front).closeHunk = r.closeHunk.behind front := by
  obtain ⟨finished, current, _ | h⟩ := r <;> rfl

theorem closeSection_behind :
    (r.behind front).closeSection = r.closeSection.map (behind front) := by
  obtain ⟨finished, _ | s, hunk⟩ := r
  · rfl
  · simp only [closeSection, behind]
    cases s.reading with
    | error problem => rfl
    | ok reading => simp [Except.map, behind]

theorem openSection_behind (header : Option (Path × Path)) :
    (r.behind front).openSection header = (r.openSection header).map (behind front) := by
  rw [openSection, openSection, closeSection_behind]
  cases r.closeSection <;> rfl

theorem readNotation_behind (line : Notation) :
    (r.behind front).readNotation line = (r.readNotation line).map (behind front) := by
  match line with
  | .section files => exact openSection_behind front r files
  | .hunk text =>
    obtain ⟨finished, _ | s, hunk⟩ := r
    · rfl
    · simp only [readNotation, behind]
      cases OpenHunk.ofHeader text <;> rfl
  | .oldFile path =>
    simp only [readNotation, openSection_behind]
    change Except.map _ (if r.current.all _ then _ else _) = _
    split
    · cases r.openSection none <;> rfl
    · rfl
  | .newFile _ | .created | .deleted | .renameFrom _ | .renameTo _ | .copyFrom _ | .copyTo _
  | .binary _ | .other => rfl

/-- Sections that are finished do not matter to a line behind them. -/
theorem step_behind (line : List Char) :
    (r.behind front).step line = (r.step line).map (behind front) := by
  have hnotation := readNotation_behind front
  obtain ⟨finished, current, _ | h⟩ := r
  · exact hnotation ⟨finished, current, none⟩ _
  · simp only [step, behind]
    split
    · cases h.mark? <;> rfl
    · split
      · exact hnotation (closeHunk ⟨finished, current, some h⟩) _
      · cases h.push? line <;> rfl

/-- Sections that are finished do not matter to the lines behind them. -/
theorem readLines_behind (lines : List (List Char)) :
    (r.behind front).readLines lines = (r.readLines lines).map (behind front) := by
  induction lines generalizing r with
  | nil => rfl
  | cons line lines ih =>
    rw [readLines, readLines, step_behind]
    cases r.step line with
    | error problem => rfl
    | ok r' => exact ih r'

theorem finish_behind : (r.behind front).finish = r.finish.map (behind front) := by
  rw [finish, finish, closeHunk_behind, closeSection_behind]
  change (if r.hunk.all _ = true then _ else _) = _
  split <;> rfl

variable {front r} {r' : Reader}

theorem readLines_behind_eq_ok_iff {lines : List (List Char)} :
    (r.behind front).readLines lines = .ok r' ↔
      ∃ s, r.readLines lines = .ok s ∧ s.behind front = r' := by
  rw [readLines_behind, Except.map_eq_ok_iff]

theorem finish_behind_eq_ok_iff :
    (r.behind front).finish = .ok r' ↔ ∃ s, r.finish = .ok s ∧ s.behind front = r' := by
  rw [finish_behind, Except.map_eq_ok_iff]

end Behind

/-- A line that opens a section cannot be read while a hunk wants lines, and else it closes what is
open. -/
theorem step_of_section {r : Reader} {line : List Char} {files : Option (Path × Path)}
    (hline : Notation.ofLine line = .section files) (hbody : OpenHunk.bodyLine? line = none)
    (hhead : line.head? ≠ some '\\') :
    r.step line =
      if r.hunk.all OpenHunk.isComplete then r.closeHunk.openSection files
      else .error (.unfittingLine (.ofList line)) := by
  cases hr : r.hunk with
  | none =>
    have hclose : r.closeHunk = r := by rw [closeHunk, hr]
    rw [hclose, step, hr, hline]
    rfl
  | some h =>
    have hpush : h.push? line = none := by rw [OpenHunk.push?, hbody, Option.bind_none]
    simp only [step, hr, hhead, if_false, hline, hpush, Option.all_some]
    rfl

/-- A line that opens a section finishes what came before it as the end of the diff would. -/
theorem step_eq_ok_iff_of_section {r r' : Reader} {line : List Char} {files : Option (Path × Path)}
    (hline : Notation.ofLine line = .section files) (hbody : OpenHunk.bodyLine? line = none)
    (hhead : line.head? ≠ some '\\') :
    r.step line = .ok r' ↔
      ∃ r₁, r.finish = .ok r₁ ∧ behind r₁.finished ⟨[], some (.opened files), none⟩ = r' := by
  rw [step_of_section hline hbody hhead, finish]
  split
  · rw [openSection_eq_ok_iff]
    refine exists_congr fun closed ↦ and_congr_right fun hclose ↦ ?_
    have hnone : closed.hunk = none := (hunk_of_closeSection hclose).trans r.closeHunk_hunk
    rw [behind, hnone, List.append_nil]
  · simp

end Reader

/-- A text without carriage returns is cut into lines after its newlines. -/
theorem linesOf_of_return_notMem {text : String} (h : '\r' ∉ text.toList) :
    linesOf text = (Lines.cut text.toList).1 ++
      if (Lines.cut text.toList).2 = [] then [] else [(Lines.cut text.toList).2] := by
  obtain ⟨hlines, hrest⟩ := Lines.newline_notMem_cut text.toList
  have hfirst : ∀ line ∈ (Lines.cut text.toList).1.head?, line.getLast? ≠ some '\r' := by
    intro line hline hlast
    have hmem := Lines.mem_join (List.mem_of_mem_head? hline) (List.mem_of_getLast? hlast)
      (Lines.cut text.toList).2
    rw [Lines.join_cut] at hmem
    exact h hmem
  have hjoin := linesOf_join_append hlines hrest hfirst
  rwa [Lines.join_cut, String.ofList_toList] at hjoin

/-- Behind a text that is empty or ends with a newline, lines are what they are alone. -/
theorem linesOf_append {t₁ t₂ : String} (h₁ : '\r' ∉ t₁.toList) (h₂ : '\r' ∉ t₂.toList)
    (hend : t₁ = "" ∨ t₁.toList.getLast? = some '\n') :
    linesOf (t₁ ++ t₂) = linesOf t₁ ++ linesOf t₂ := by
  have hrest : (Lines.cut t₁.toList).2 = [] := by
    obtain rfl | hlast := hend
    · rfl
    · exact ((Lines.getLast?_eq_newline_iff _).1 hlast).2
  have h : '\r' ∉ (t₁ ++ t₂).toList := by
    rw [String.toList_append, List.mem_append]
    exact not_or.2 ⟨h₁, h₂⟩
  rw [linesOf_of_return_notMem h, linesOf_of_return_notMem h₁, linesOf_of_return_notMem h₂,
    String.toList_append, Lines.cut_append hrest, hrest, if_pos rfl, List.append_nil,
    List.append_assoc]

/-- A text that begins with the words of a line has a first line that begins with them. -/
theorem exists_linesOf_eq_cons {lead : List Char} {text : String} (hreturn : '\r' ∉ text.toList)
    (hlead : '\n' ∉ lead) (hne : lead ≠ []) (h : lead <+: text.toList) :
    ∃ rest lines, linesOf text = (lead ++ rest) :: lines := by
  obtain ⟨others, hothers⟩ := h
  rw [linesOf_of_return_notMem hreturn, ← hothers, Lines.cut_append_of_notMem hlead]
  rcases Lines.cut others with ⟨_ | ⟨line, lines⟩, rest⟩
  · exact ⟨rest, [], by simp [hne]⟩
  · exact ⟨line, _, List.cons_append⟩

/-- A carriage return at the end of a line is not one of the words that the line begins with. -/
theorem exists_dropReturn_append {lead : List Char} (hlead : lead.getLast? ≠ some '\r')
    (rest : List Char) : ∃ kept, Notation.dropReturn (lead ++ rest) = lead ++ kept := by
  rw [Notation.dropReturn]
  split
  · next hlast =>
    have hne : rest ≠ [] := by
      rintro rfl
      rw [List.append_nil] at hlast
      exact hlead hlast
    exact ⟨rest.dropLast, List.dropLast_append_of_ne_nil hne⟩
  · exact ⟨rest, rfl⟩

/-- A line that begins with the words of a section's header opens a section. -/
theorem exists_ofLine_eq_section (rest : List Char) :
    ∃ files, Notation.ofLine ("diff --git ".toList ++ rest) = .section files := by
  obtain ⟨kept, hkept⟩ :=
    exists_dropReturn_append (show "diff --git ".toList.getLast? ≠ some '\r' by decide) rest
  refine ⟨Notation.headerFiles kept, ?_⟩
  rw [Notation.ofLine, hkept, Notation.leads, Notation.read, Text.after?_append]

/-- Where a diff begins with a line that opens a section, it can be put behind another one, and both
say together what they say alone: no section takes anything from the one before it, and none is
lost. -/
theorem parse_append_eq_ok_iff {t₁ t₂ : String} {d : Document} (h₁ : '\r' ∉ t₁.toList)
    (h₂ : '\r' ∉ t₂.toList) (hend : t₁ = "" ∨ t₁.toList.getLast? = some '\n')
    (hopen : "diff --git ".toList <+: t₂.toList) :
    parse (t₁ ++ t₂) = .ok d ↔
      ∃ d₁ d₂, parse t₁ = .ok d₁ ∧ parse t₂ = .ok d₂ ∧ d = ⟨d₁.changes ++ d₂.changes⟩ := by
  obtain ⟨rest, lines, hlines⟩ := exists_linesOf_eq_cons h₂ (by decide) (by decide) hopen
  obtain ⟨files, hfiles⟩ := exists_ofLine_eq_section rest
  let opened : Reader := ⟨[], some (.opened files), none⟩
  have hstep (r r' : Reader) : r.step ("diff --git ".toList ++ rest) = .ok r' ↔
      ∃ closed, r.finish = .ok closed ∧ opened.behind closed.finished = r' :=
    Reader.step_eq_ok_iff_of_section hfiles rfl (by simp)
  have hstart : Reader.start.step ("diff --git ".toList ++ rest) = .ok opened :=
    (hstep _ _).2 ⟨.start, rfl, rfl⟩
  simp only [parse_eq_ok_iff, linesOf_append h₁ h₂ hend, hlines,
    Reader.readLines_append_eq_ok_iff, Reader.readLines_cons_eq_ok_iff]
  constructor
  · rintro ⟨r, r', ⟨r₁, hr₁, q, hq, hr⟩, hr', rfl⟩
    obtain ⟨closed, hclosed, rfl⟩ := (hstep r₁ q).1 hq
    obtain ⟨s, hs, rfl⟩ := Reader.readLines_behind_eq_ok_iff.1 hr
    obtain ⟨s', hs', rfl⟩ := Reader.finish_behind_eq_ok_iff.1 hr'
    exact ⟨⟨closed.changes⟩, ⟨s'.changes⟩, ⟨r₁, closed, hr₁, hclosed, rfl⟩,
      ⟨s, s', ⟨opened, hstart, hs⟩, hs', rfl⟩, by rw [Reader.changes_behind]; rfl⟩
  · rintro ⟨_, _, ⟨r₁, closed, hr₁, hclosed, rfl⟩, ⟨s, s', ⟨q, hq, hs⟩, hs', rfl⟩, rfl⟩
    cases hstart.symm.trans hq
    exact ⟨s.behind closed.finished, s'.behind closed.finished,
      ⟨r₁, hr₁, _, (hstep _ _).2 ⟨closed, hclosed, rfl⟩,
        Reader.readLines_behind_eq_ok_iff.2 ⟨s, hs, rfl⟩⟩,
      Reader.finish_behind_eq_ok_iff.2 ⟨s', hs', rfl⟩, by rw [Reader.changes_behind]; rfl⟩

section Instance

/-- A diff whose last line is the last of a hunk. -/
def editText : String := "diff --git a/f b/f\n--- a/f\n+++ b/f\n@@ -1 +1 @@\n-a\n+b\n"

/-- A diff that names no files but in its header and its notes. -/
def moveText : String := "diff --git a/f b/g\nrename from f\nrename to g\n"

theorem parse_append_eq_ok_iff_editText_moveText :
    '\r' ∉ editText.toList ∧ '\r' ∉ moveText.toList ∧ editText.toList.getLast? = some '\n' ∧
      "diff --git ".toList <+: moveText.toList ∧
      parse (editText ++ moveText) =
        .ok ⟨[⟨.modify, some ⟨"f"⟩, some ⟨"f"⟩, [⟨1, 1, [.remove "a", .add "b"]⟩]⟩,
          ⟨.rename, some ⟨"f"⟩, some ⟨"g"⟩, []⟩]⟩ := by
  have h₁ : '\r' ∉ editText.toList := by decide
  have h₂ : '\r' ∉ moveText.toList := by decide
  have hend : editText.toList.getLast? = some '\n' := by decide
  have hopen : "diff --git ".toList <+: moveText.toList := by decide
  refine ⟨h₁, h₂, hend, hopen, (parse_append_eq_ok_iff h₁ h₂ (.inr hend) hopen).2
    ⟨⟨[⟨.modify, some ⟨"f"⟩, some ⟨"f"⟩, [⟨1, 1, [.remove "a", .add "b"]⟩]⟩]⟩,
      ⟨[⟨.rename, some ⟨"f"⟩, some ⟨"g"⟩, []⟩]⟩, ?_, ?_, rfl⟩⟩
  · decide +kernel
  · decide +kernel

end Instance

end Patchwork.Diff
