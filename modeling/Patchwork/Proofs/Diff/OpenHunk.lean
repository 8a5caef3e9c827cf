import Mathlib.Data.List.Forall2
import Patchwork.Proofs.Diff.Hunk

/-!
# Hunks that stand in a text

A hunk stands among the lines of a diff (`Hunk.StandsIn`) when a header says how long its sides are
and a line follows for every line of the hunk. That is so of a hunk that is being read
(`Diff.OpenHunk.EndsIn`), as far as it goes, and each line that it takes keeps it so. Main
statement: `Hunk.ReadFrom.printable`, a hunk that was read can be printed.
-/

namespace Patchwork

namespace HunkLine

/-- The lines of a diff that stand for a line of a hunk. What a marker says does not count. -/
inductive SpelledBy : HunkLine → List Char → Prop where
  | blank : SpelledBy (.context "") []
  | context (text : List Char) : SpelledBy (.context (.ofList text)) (' ' :: text)
  | remove (text : List Char) : SpelledBy (.remove (.ofList text)) ('-' :: text)
  | add (text : List Char) : SpelledBy (.add (.ofList text)) ('+' :: text)
  | noNewline (text : List Char) : SpelledBy .noNewline ('\\' :: text)

/-- The lines of a hunk hold no newline when the lines that spell them hold none. -/
theorem newline_notMem_of_spelledBy {body : List HunkLine} {lines : List (List Char)}
    (h : List.Forall₂ SpelledBy body lines) (hlines : ∀ line ∈ lines, '\n' ∉ line) :
    ∀ line ∈ body, ∀ text ∈ line.text?, '\n' ∉ text.toList := by
  induction h with
  | nil => simp
  | cons hspelled _ ih =>
    rw [List.forall_mem_cons] at hlines ⊢
    refine ⟨?_, ih hlines.2⟩
    cases hspelled <;> simp_all [text?]

/-- Every marker is about the line in front of it, which is no marker. -/
def MarksFollow (lines : List HunkLine) : Prop :=
  ∀ before rest, lines = before ++ .noNewline :: rest →
    ∃ last ∈ before.getLast?, last ≠ .noNewline

theorem marksFollow_nil : MarksFollow [] := fun before rest h ↦ by simp at h

/-- A line may come last when it is no marker, or when it marks one. -/
theorem MarksFollow.concat {lines : List HunkLine} (h : MarksFollow lines) {line : HunkLine}
    (hline : line = .noNewline → ∃ last ∈ lines.getLast?, last ≠ .noNewline) :
    MarksFollow (lines ++ [line]) := by
  intro before rest hsplit
  rcases List.eq_nil_or_concat rest with rfl | ⟨front, last, rfl⟩
  · obtain ⟨rfl, hlast⟩ := List.append_inj' hsplit rfl
    exact hline (by simpa using hlast)
  · have hsplit : lines ++ [line] = (before ++ .noNewline :: front) ++ [last] := by
      simpa using hsplit
    exact h before front (List.append_inj' hsplit rfl).1

end HunkLine

/-- The hunk stands among the lines of a diff: a header that gives its starts and the lengths of its
sides, and right behind it a line for every line of the hunk. -/
def Hunk.StandsIn (h : Hunk) (lines : List (List Char)) : Prop :=
  ∃ before header body after, lines = before ++ header :: body ++ after ∧
    Diff.OpenHunk.ofHeader (Diff.Notation.dropReturn header) =
      .ok ⟨h.oldStart, h.newStart, h.oldLines.length, h.newLines.length, []⟩ ∧
    List.Forall₂ HunkLine.SpelledBy h.lines body

/-- What is known of a hunk that has been read from the lines of a diff. -/
structure Hunk.ReadFrom (h : Hunk) (lines : List (List Char)) : Prop where
  marks : HunkLine.MarksFollow h.lines
  stands : h.StandsIn lines

namespace Diff

open HunkLine (SpelledBy MarksFollow)

namespace OpenHunk

/-- A header gives the starts of the hunk and the numbers of lines to come. -/
theorem exists_ranges_of_ofHeader {line : List Char} {h : OpenHunk}
    (hline : ofHeader line = .ok h) :
    ∃ old new, h = ⟨firstLine old, firstLine new, old.2.toNat, new.2.toNat, []⟩ := by
  rw [ofHeader] at hline
  split at hline
  · cases hline
  · split at hline
    · cases hline
    · next oldRange _ =>
      split at hline
      · cases hline
      · next newRange _ =>
        cases hline
        exact ⟨oldRange, newRange, rfl⟩

/-- A side without lines does not start at line zero. -/
theorem firstLine_pos {range : UInt32 × UInt32} (h : range.2.toNat = 0) :
    0 < (firstLine range).toNat := by
  have hzero : range.2 = 0 := UInt32.toNat_inj.1 h
  have hsize : UInt32.size = 2 ^ 32 := rfl
  rw [firstLine]
  split
  · rw [UInt32.toNat_add, UInt32.toNat_one]
    omega
  · next hlt =>
    simp only [hzero, true_and, Nat.not_lt] at hlt
    omega

/-- Where the lines read so far end, the hunk is being read: its header says how many lines its
sides will have, and right behind it stands a line for every line of the hunk so far. -/
structure EndsIn (h : OpenHunk) (lines : List (List Char)) : Prop where
  marks : MarksFollow h.lines
  stands : ∃ before header body, lines = before ++ header :: body ∧
    ofHeader (Notation.dropReturn header) =
      .ok ⟨h.oldStart, h.newStart, h.hunk.oldLines.length + h.oldLeft,
        h.hunk.newLines.length + h.newLeft, []⟩ ∧
    List.Forall₂ SpelledBy h.lines body

variable {h h' : OpenHunk} {lines : List (List Char)} {line : List Char}

theorem endsIn_of_ofHeader (hline : ofHeader (Notation.dropReturn line) = .ok h) :
    h.EndsIn (lines ++ [line]) := by
  obtain ⟨old, new, rfl⟩ := exists_ranges_of_ofHeader hline
  refine ⟨HunkLine.marksFollow_nil, lines, line, [], rfl, ?_, .nil⟩
  simpa [hunk, Hunk.oldLines, Hunk.newLines] using hline

theorem EndsIn.mark (hh : h.EndsIn lines) (hline : line.head? = some '\\')
    (hmark : h.mark? = some h') : h'.EndsIn (lines ++ [line]) := by
  obtain ⟨text, rfl⟩ : ∃ text, line = '\\' :: text := by
    cases line <;> simp_all
  obtain ⟨before, header, body, rfl, hheader, hbody⟩ := hh.stands
  rw [mark?] at hmark
  split at hmark
  · cases hmark
  · cases hmark
  · next last hne hlast =>
    cases hmark
    refine ⟨hh.marks.concat fun _ ↦ ⟨last, hlast, hne⟩, before, header, body ++ ['\\' :: text],
      by simp, ?_, List.rel_append hbody (.cons (.noNewline text) .nil)⟩
    simpa [hunk, Hunk.oldLines, Hunk.newLines, HunkLine.isOld, HunkLine.isNew] using hheader

private theorem spelledBy_of_bodyLine? {body : HunkLine} (h : bodyLine? line = some body) :
    body.SpelledBy line ∧ body ≠ .noNewline := by
  rw [bodyLine?.eq_def] at h
  split at h <;> cases h <;> exact ⟨by constructor, by simp⟩

theorem EndsIn.push (hh : h.EndsIn lines) (hpush : h.push? line = some h') :
    h'.EndsIn (lines ++ [line]) := by
  obtain ⟨body, hbody, hadd⟩ := Option.bind_eq_some_iff.1 hpush
  obtain ⟨hspelled, hne⟩ := spelledBy_of_bodyLine? hbody
  obtain ⟨before, header, lines, rfl, hheader, hlines⟩ := hh.stands
  rw [add?] at hadd
  split at hadd
  · cases hadd
  · next hwants =>
    cases hadd
    refine ⟨hh.marks.concat fun h ↦ absurd h hne, before, header, lines ++ [line], by simp, ?_,
      List.rel_append hlines (.cons hspelled .nil)⟩
    have hcount (side : HunkLine → Bool) : ((h.lines ++ [body]).filter side).length =
        (h.lines.filter side).length + if side body then 1 else 0 := by
      cases hside : side body <;> simp [hside]
    -- The sides on which the line stands have one line more, and one line less is to come.
    rw [hheader]
    simp only [hunk, Hunk.oldLines, Hunk.newLines, hcount, Except.ok.injEq, OpenHunk.mk.injEq,
      true_and, and_true]
    cases hold : body.isOld <;> cases hnew : body.isNew <;> simp_all <;> omega

/-- A hunk that is read to its end has been read from the lines. -/
theorem EndsIn.readFrom (hh : h.EndsIn lines) (hcomplete : h.isComplete = true) :
    h.hunk.ReadFrom lines := by
  obtain ⟨before, header, body, rfl, hheader, hbody⟩ := hh.stands
  simp only [isComplete, Bool.and_eq_true, decide_eq_true_eq] at hcomplete
  rw [hcomplete.1, hcomplete.2] at hheader
  exact ⟨hh.marks, before, header, body, [], by simp, hheader, hbody⟩

end OpenHunk

end Diff

section Hunk

variable {h : Hunk} {lines : List (List Char)}

theorem Hunk.ReadFrom.append (hh : h.ReadFrom lines) (others : List (List Char)) :
    h.ReadFrom (lines ++ others) := by
  obtain ⟨hmarks, before, header, body, after, rfl, hheader, hbody⟩ := hh
  exact ⟨hmarks, before, header, body, after ++ others, by simp, hheader, hbody⟩

/-- A hunk that was read can be printed. -/
theorem Hunk.ReadFrom.printable (hh : h.ReadFrom lines) (hlines : ∀ line ∈ lines, '\n' ∉ line) :
    h.Printable := by
  obtain ⟨hmarks, before, header, body, after, rfl, hheader, hbody⟩ := hh
  obtain ⟨old, new, hranges⟩ := Diff.OpenHunk.exists_ranges_of_ofHeader hheader
  simp only [Diff.OpenHunk.mk.injEq] at hranges
  obtain ⟨hold, hnew, holdLength, hnewLength, -⟩ := hranges
  constructor
  · exact HunkLine.newline_notMem_of_spelledBy hbody fun line hline ↦ hlines line (by simp [hline])
  · intro hhead
    obtain ⟨rest, hrest⟩ := List.head?_eq_some_iff.1 hhead
    obtain ⟨last, hlast, -⟩ := hmarks [] rest hrest
    cases hlast
  · rintro ⟨front, rest, hsplit⟩
    obtain ⟨last, hlast, hne⟩ := hmarks (front ++ [.noNewline]) rest (by simp [← hsplit])
    exact hne (by simpa using hlast.symm)
  · intro hnone
    rw [hold]
    exact Diff.OpenHunk.firstLine_pos (by simpa [hnone] using holdLength.symm)
  · intro hnone
    rw [hnew]
    exact Diff.OpenHunk.firstLine_pos (by simpa [hnone] using hnewLength.symm)
  · rw [holdLength]
    exact old.2.toNat_lt
  · rw [hnewLength]
    exact new.2.toNat_lt

end Hunk

end Patchwork
