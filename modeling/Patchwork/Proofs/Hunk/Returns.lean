import Mathlib.Data.List.InsertIdx
import Patchwork.Proofs.Hunk.Resuming
import Patchwork.Proofs.Lines.Returns

/-!
# Hunks on a text with carriage returns in its newlines

A text that gets a carriage return in every newline is patched as it was without: each step leads
from `withReturns` of a set to `withReturns` of what it led to before (`applyLines_withReturns`),
and so does a run (`patchAll_withReturns`). The hunks may be the same or have carriage returns at
the ends of their texts, since either way a text compares as it did (`Respells`); an error shows the
hunk's line as it is then spelled. Main statement: `patchAll_twins`.
-/

namespace Patchwork

/-- The hunk line with its text spelled in another way. -/
def HunkLine.respelled (f : String → String) : HunkLine → HunkLine
  | context text => context (f text)
  | remove text => remove (f text)
  | add text => add (f text)
  | noNewline => noNewline

/-- The hunk with its texts spelled in another way. -/
def Hunk.respelled (f : String → String) (h : Hunk) : Hunk :=
  { h with lines := h.lines.map (HunkLine.respelled f) }

/-- The error about a hunk line whose text is spelled in another way. -/
def HunkError.respelled (f : String → String) : HunkError → HunkError
  | mismatch number expected actual => mismatch number (expected.respelled f) actual
  | pastEnd number expected length => pastEnd number (expected.respelled f) length
  | newline expectedMissing => newline expectedMissing

theorem HunkLine.respelled_id (line : HunkLine) : line.respelled id = line := by
  cases line <;> rfl

theorem Hunk.respelled_id (h : Hunk) : h.respelled id = h := by
  rw [respelled, List.map_id'' HunkLine.respelled_id]

theorem HunkError.respelled_id (e : HunkError) : e.respelled id = e := by
  cases e <;> simp only [respelled, HunkLine.respelled_id]

namespace Hunk

variable (f : String → String) (h : Hunk)

private theorem isOld_respelled (line : HunkLine) : (line.respelled f).isOld = line.isOld := by
  cases line <;> rfl

private theorem isNew_respelled (line : HunkLine) : (line.respelled f).isNew = line.isNew := by
  cases line <;> rfl

private theorem respelled_eq_noNewline_iff (line : HunkLine) :
    line.respelled f = .noNewline ↔ line = .noNewline := by
  cases line <;> simp [HunkLine.respelled]

theorem hasOld_respelled : (h.respelled f).hasOld = h.hasOld := by
  simp [hasOld, respelled, Function.comp_def, isOld_respelled]

/-- Markers follow the same lines. -/
private theorem marked_respelled :
    (h.respelled f).marked = h.marked.map (HunkLine.respelled f) := by
  simp [marked, respelled, ← List.map_tail, List.zip_map, List.filter_map, Function.comp_def,
    respelled_eq_noNewline_iff]

theorem oldMissingNewline_respelled :
    (h.respelled f).oldMissingNewline = h.oldMissingNewline := by
  simp [oldMissingNewline, marked_respelled, Function.comp_def, isOld_respelled]

theorem newMissingNewline_respelled :
    (h.respelled f).newMissingNewline = h.newMissingNewline := by
  simp [newMissingNewline, marked_respelled, Function.comp_def, isNew_respelled]

end Hunk

namespace LineSet

variable {s : LineSet} {f : String → String} {h : Hunk} {hunks : List Hunk} {text : String}

/-- A text without carriage returns compares as it is, however it is now spelled, where carriage
returns belong to the endings. -/
def Respells (f : String → String) : Prop :=
  ∀ (s : LineSet) (text : String), s.style = .crlf → '\r' ∉ text.toList →
    s.comparable (f text) = text

theorem respells_id : Respells id := by
  intro s text _ hreturn
  exact if_neg fun hlast ↦ hreturn (List.mem_of_getLast? hlast.2)

theorem respells_withReturn : Respells Lines.withReturn := by
  intro s text hstyle _
  have htext : (Lines.withReturn text).toList = text.toList ++ ['\r'] := String.toList_append
  rw [comparable, htext, if_pos ⟨hstyle, List.getLast?_concat⟩, List.dropLast_concat,
    String.ofList_toList]

private theorem insert_withReturns (s : LineSet) (i : Nat) (line : String) :
    s.withReturns.insert i line = (s.insert i line).withReturns := by
  simp only [insert, withReturns, List.map_insertIdx]

private theorem erase_withReturns (s : LineSet) (i : Nat) :
    s.withReturns.erase i = (s.erase i).withReturns := by
  simp only [erase, withReturns, List.eraseIdx_map]

section Run

variable (hf : Respells f)

include hf

private theorem comparable_withReturns (hs : s.style ≠ .crlf) (htext : '\r' ∉ text.toList) :
    s.withReturns.comparable (f text) = s.comparable text := by
  rw [hf s.withReturns text rfl htext, comparable, if_neg fun hstyle ↦ hs hstyle.1]

/-- The same line is expected and the same line is found. -/
private theorem expect_withReturns (hs : s.style ≠ .crlf) (htext : '\r' ∉ text.toList) (i : Nat)
    (line : HunkLine) :
    s.withReturns.expect i (line.respelled f) (f text) =
      (s.expect i line text).mapError (HunkError.respelled f) := by
  have hlines : s.withReturns.lines = s.lines := rfl
  rw [expect, expect, comparable_withReturns hf hs htext, hlines]
  cases s.lines[i]? with
  | none => rfl
  | some actual =>
    by_cases hactual : actual = s.comparable text <;>
      simp [hactual, Except.mapError, HunkError.respelled]

/-- The cursor goes the same way. -/
theorem applyLines_withReturns (hs : s.style ≠ .crlf) (i : Nat) {lines : List HunkLine}
    (htexts : ∀ line ∈ lines, ∀ text ∈ line.text?, '\r' ∉ text.toList) :
    s.withReturns.applyLines i (lines.map (HunkLine.respelled f)) =
      ((s.applyLines i lines).map fun done ↦ (done.1.withReturns, done.2)).mapError
        (HunkError.respelled f) := by
  induction lines generalizing s i with
  | nil => rfl
  | cons line lines ih =>
    rw [List.forall_mem_cons] at htexts
    obtain ⟨htext, htexts⟩ := htexts
    rw [List.map_cons]
    cases line with
    | context text =>
      have hexpect := expect_withReturns hf hs (htext text rfl) i (.context text)
      rw [HunkLine.respelled] at hexpect ⊢
      rw [applyLines, applyLines, hexpect]
      cases s.expect i (.context text) text with
      | error e => rfl
      | ok _ => exact ih hs (i + 1) htexts
    | remove text =>
      have hexpect := expect_withReturns hf hs (htext text rfl) i (.remove text)
      rw [HunkLine.respelled] at hexpect ⊢
      rw [applyLines, applyLines, hexpect, erase_withReturns]
      cases s.expect i (.remove text) text with
      | error e => rfl
      | ok _ => exact ih (s := s.erase i) hs i htexts
    | add text =>
      have hlines : s.withReturns.lines = s.lines := rfl
      rw [HunkLine.respelled, applyLines, applyLines, comparable_withReturns hf hs (htext text rfl),
        insert_withReturns, hlines]
      split
      · rfl
      · exact ih (s := s.insert i (s.comparable text)) hs (i + 1) htexts
    | noNewline => exact ih hs i htexts

/-- A hunk makes the same of the lines, or fails in the same way. -/
theorem patch_withReturns (hs : s.style ≠ .crlf) (hh : h.Bare) :
    s.withReturns.patch (h.respelled f) =
      ((s.patch h).map withReturns).mapError (HunkError.respelled f) := by
  have htexts : ∀ line ∈ h.lines, ∀ text ∈ line.text?, '\r' ∉ text.toList := by
    intro line hline text htext
    exact (hh text (List.mem_filterMap.2 ⟨line, hline, htext⟩)).2
  have hsplice : s.withReturns.splice (h.respelled f) =
      ((s.splice h).map fun done ↦ (done.1.withReturns, done.2)).mapError
        (HunkError.respelled f) := applyLines_withReturns hf hs h.anchor htexts
  rw [patch, patch, hsplice, Hunk.hasOld_respelled, Hunk.oldMissingNewline_respelled,
    Hunk.newMissingNewline_respelled]
  cases s.splice h with
  | error e => rfl
  | ok done =>
    obtain ⟨t, after⟩ := done
    have hlines : t.withReturns.lines = t.lines := rfl
    have hmissing : t.withReturns.missingFinalNewline = t.missingFinalNewline := rfl
    simp only [Except.map, Except.mapError, hlines, hmissing]
    by_cases hbehind : after < t.lines.length
    · rw [if_pos hbehind, if_pos hbehind]
    · rw [if_neg hbehind, if_neg hbehind]
      split <;> rfl

/-- Hunks make the same of the lines, or the same hunk fails in the same way. -/
theorem patchAll_withReturns (hs : s.Bare) (hhunks : ∀ h ∈ hunks, h.Bare) (first : Nat) :
    s.withReturns.patchAll first (hunks.map (Hunk.respelled f)) =
      ((s.patchAll first hunks).map withReturns).mapError fun e ↦ (e.1, e.2.respelled f) := by
  induction hunks generalizing s first with
  | nil => rfl
  | cons h hunks ih =>
    obtain ⟨hh, hhunks⟩ := List.forall_mem_cons.1 hhunks
    rw [List.map_cons, patchAll, patchAll, patch_withReturns hf hs.style hh]
    cases hpatch : s.patch h with
    | error e => rfl
    | ok t => exact ih (hs.patch hh hpatch) hhunks (first + 1)

end Run

/-- A text without carriage returns and the one that has them in its newlines are patched alike. The
same hunk fails on both with the same error, or both are patched, and what is written of the second
is what is written of the first with carriage returns in its newlines. So it is also when the texts
of the hunks get carriage returns at their ends for the second, except that an error then shows the
one of its hunk line. -/
theorem patchAll_twins (hreturn : '\r' ∉ text.toList) (hnewline : '\n' ∈ text.toList)
    (hhunks : ∀ h ∈ hunks, h.Bare) (first : Nat) :
    ∃ s s', ofBytes text.toUTF8 = .ok s ∧ ofBytes (Lines.withReturns text).toUTF8 = .ok s' ∧
      (∀ e, s.patchAll first hunks = .error e →
        s'.patchAll first hunks = .error e ∧
          s'.patchAll first (hunks.map (Hunk.respelled Lines.withReturn)) =
            .error (e.1, e.2.respelled Lines.withReturn)) ∧
      ∀ t, s.patchAll first hunks = .ok t → ∃ t' written,
        s'.patchAll first hunks = .ok t' ∧
          s'.patchAll first (hunks.map (Hunk.respelled Lines.withReturn)) = .ok t' ∧
          t.bytes = written.toUTF8 ∧ t'.bytes = (Lines.withReturns written).toUTF8 := by
  have hs : (ofText text).Bare := .ofText hreturn
  have hread : ofText (Lines.withReturns text) = (ofText text).withReturns :=
    ofText_withReturns hnewline hs.style
  have hsame := patchAll_withReturns respells_id hs hhunks first
  have hreturned := patchAll_withReturns respells_withReturn hs hhunks first
  rw [List.map_id'' Hunk.respelled_id] at hsame
  simp only [HunkError.respelled_id] at hsame
  rw [← hread] at hsame hreturned
  refine ⟨_, _, ofBytes_toUTF8 _, ofBytes_toUTF8 _, fun e herror ↦ ?_, fun t hpatch ↦ ?_⟩
  · rw [herror] at hsame hreturned
    exact ⟨hsame, hreturned⟩
  · rw [hpatch] at hsame hreturned
    have ht : t.Bare := hs.patchAll hhunks hpatch
    have htext : t.withReturns.text = Lines.withReturns t.text :=
      text_withReturns ht.endsAlike ht.style fun line hline ↦ (ht.line line hline).1
    exact ⟨t.withReturns, t.text, hsame, hreturned, rfl, congrArg String.toUTF8 htext⟩

section Instance

/-- Lines of which the last has no newline. -/
def unreturned : String := "a\nb\nc"

/-- Changes at either end of them. -/
def renewing : List Hunk :=
  [⟨1, 1, [.add "x", .context "a"]⟩, ⟨3, 4, [.remove "c", .noNewline, .add "y", .add ""]⟩]

/-- Changes of which the second expects another line. -/
def failing : List Hunk := [⟨1, 1, [.remove "a"]⟩, ⟨2, 1, [.context "b", .remove "d"]⟩]

theorem patchAll_twins_unreturned :
    '\r' ∉ unreturned.toList ∧ '\n' ∈ unreturned.toList ∧ (∀ h ∈ renewing, h.Bare) ∧
      (∀ h ∈ failing, h.Bare) ∧
      ∃ s, ofBytes "a\r\nb\r\nc".toUTF8 = .ok s ∧
        (∃ t, s.patchAll 0 (renewing.map (Hunk.respelled Lines.withReturn)) = .ok t ∧
          t.bytes = "x\r\na\r\nb\r\ny\r\n\r\n".toUTF8) ∧
        s.patchAll 0 (failing.map (Hunk.respelled Lines.withReturn)) =
          .error (1, .mismatch 2 (.remove "d\r") "c") := by
  have hreturn : '\r' ∉ unreturned.toList := by decide
  have hnewline : '\n' ∈ unreturned.toList := by decide
  have hrenewing : ∀ h ∈ renewing, h.Bare := by decide
  have hfailing : ∀ h ∈ failing, h.Bare := by decide
  refine ⟨hreturn, hnewline, hrenewing, hfailing, _, ofBytes_toUTF8 _, ?_, ?_⟩
  · obtain ⟨s, s', hread, hread', -, hok⟩ := patchAll_twins hreturn hnewline hrenewing 0
    cases (ofBytes_toUTF8 _).symm.trans hread
    cases (ofBytes_toUTF8 _).symm.trans hread'
    obtain ⟨t', written, -, hpatch, hbytes, hbytes'⟩ := hok _ rfl
    refine ⟨t', hpatch, ?_⟩
    have hwritten : written = "x\na\nb\ny\n\n" :=
      String.toByteArray_inj.1 (hbytes.symm.trans (by decide))
    rw [hbytes', hwritten]
    decide
  · obtain ⟨s, s', hread, hread', herror, -⟩ := patchAll_twins hreturn hnewline hfailing 0
    cases (ofBytes_toUTF8 _).symm.trans hread
    cases (ofBytes_toUTF8 _).symm.trans hread'
    exact (herror _ rfl).2

end Instance

end LineSet

end Patchwork
