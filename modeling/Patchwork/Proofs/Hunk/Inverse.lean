import Patchwork.Proofs.Hunk.Rewriting

/-!
# Undoing hunks on the bytes of a file

Hunks are undone on what has been written, so the lines that they have put in have to be read back
as the same lines, and the file has to show how they end. `Hunk.Undoable` collects what is needed
for this. Main statement: `LineSet.patchAll_inverse`. Specification: Round-trip in section 8.
-/

namespace Patchwork

open HunkLine (oldTexts newTexts)

/-- None of the lines behind it is on a side that the line is on. -/
def HunkLine.IsLast (line : HunkLine) (behind : List HunkLine) : Prop :=
  (line.isOld = true → ∀ other ∈ behind, other.isOld = false) ∧
    (line.isNew = true → ∀ other ∈ behind, other.isNew = false)

instance (line : HunkLine) (behind : List HunkLine) : Decidable (line.IsLast behind) :=
  inferInstanceAs (Decidable (_ ∧ _))

namespace Hunk

variable {h : Hunk} {text : String}

/-- The texts of the hunk's lines. -/
def texts (h : Hunk) : List String := h.lines.filterMap HunkLine.text?

/-- A marker comes behind no line but the last on a side, on each of the sides that the line is on,
and such a line is not written as nothing. -/
def MarksEnds (h : Hunk) : Prop :=
  ∀ i < h.lines.length, h.lines[i + 1]? = some .noNewline → ∀ line ∈ h.lines[i]?,
    line.IsLast (h.lines.drop (i + 1)) ∧ line.text? ≠ some "" ∧ line.text? ≠ some "\r"

instance (h : Hunk) : Decidable h.MarksEnds :=
  inferInstanceAs (Decidable (∀ i < h.lines.length, _ → ∀ line ∈ h.lines[i]?, _))

theorem mem_texts_of_mem_newTexts (htext : text ∈ newTexts h.lines) : text ∈ h.texts := by
  obtain ⟨line, hline, hsome⟩ := List.mem_filterMap.1 htext
  exact List.mem_filterMap.2 ⟨line, (List.mem_filter.1 hline).1, hsome⟩

/-- If the new side ends without a newline, it ends with the line that is marked. -/
theorem MarksEnds.exists_getLast? (hmarks : h.MarksEnds) (hmissing : h.newMissingNewline = true) :
    ∃ text, (newTexts h.lines).getLast? = some text ∧ text ≠ "" ∧ text ≠ "\r" := by
  obtain ⟨line, hline, hnew⟩ := List.any_eq_true.1 hmissing
  obtain ⟨pair, hpair, rfl⟩ := List.mem_map.1 hline
  obtain ⟨hzip, hmarker⟩ := List.mem_filter.1 hpair
  obtain ⟨i, hi⟩ := List.mem_iff_getElem?.1 hzip
  rw [List.getElem?_zip_eq_some, List.getElem?_tail, of_decide_eq_true hmarker] at hi
  obtain ⟨hlt, hget⟩ := List.getElem?_eq_some_iff.1 hi.1
  obtain ⟨⟨-, hbehind⟩, hempty, hreturn⟩ := hmarks i hlt hi.2 pair.1 hi.1
  have hsplit : h.lines = h.lines.take i ++ [pair.1] ++ h.lines.drop (i + 1) := by
    rw [← hget, List.take_append_getElem hlt, List.take_append_drop]
  have hnone : newTexts (h.lines.drop (i + 1)) = [] := by
    rw [newTexts, List.filter_eq_nil_iff.2, List.filterMap_nil]
    intro other hother
    rw [hbehind hnew other hother]
    exact Bool.false_ne_true
  rw [hsplit, HunkLine.newTexts_append, HunkLine.newTexts_append, hnone, List.append_nil]
  cases hthis : pair.1 with
  | context text | add text =>
    rw [hthis] at hempty hreturn
    exact ⟨text, List.getLast?_concat, fun heq ↦ hempty (congrArg some heq),
      fun heq ↦ hreturn (congrArg some heq)⟩
  | remove text | noNewline =>
    rw [hthis] at hnew
    cases hnew

/-- What has to hold of hunks that turn a text into the lines of a set, so that their inverses undo
them in the same order. -/
structure Undoable (text : String) (hunks : List Hunk) (t : LineSet) : Prop where
  hasText : ∀ h ∈ hunks, ∃ line ∈ h.lines, line ≠ .noNewline
  /-- Some line is left between a hunk and the next. -/
  apart : hunks.IsChain fun h next ↦ h.after < next.anchor
  /-- The numbers on the old side count the lines as they are without the hunks before. -/
  oldAnchor : ∀ k (hk : k < hunks.length),
    (hunks[k].inverse.anchor : Int) = hunks[k].anchor - ((hunks.take k).map growth).sum
  newline_notMem : ∀ h ∈ hunks, ∀ text ∈ h.texts, '\n' ∉ text.toList
  marksEnds : ∀ h ∈ hunks, h.MarksEnds
  /-- Lines are only added to the end of a text if the last line there has its newline. -/
  adds : ∀ last ∈ hunks.getLast?, last.hasOld = false → t.lines.length ≤ last.after →
    text = "" ∨ text.toList.getLast? = some '\n'
  /-- Either there are no carriage returns, or one is in front of each newline, of which there is
  one both before and after. -/
  returns : '\r' ∉ text.toList ∧ (∀ h ∈ hunks, ∀ text ∈ h.texts, '\r' ∉ text.toList) ∨
    '\n' ∈ text.toList ∧ Lines.EachReturned text.toList ∧ '\n' ∈ t.text.toList

theorem Undoable.placed {hunks : List Hunk} {t : LineSet} (h : Undoable text hunks t) :
    Placed 0 0 hunks where
  apart := h.apart
  first _ _ := Nat.zero_le _
  oldAnchor := by simpa using h.oldAnchor

end Hunk

namespace LineSet

variable {s t : LineSet} {text line : String} {c : Char}

/-- Which text a line compares with depends on whether carriage returns belong to the endings. -/
theorem comparable_eq_of_iff (h : s.style = .crlf ↔ t.style = .crlf) :
    s.comparable = t.comparable := by
  funext text
  simp only [comparable, h]

theorem mem_of_mem_comparable (hc : c ∈ (s.comparable text).toList) : c ∈ text.toList := by
  rw [comparable] at hc
  split at hc
  · rw [String.toList_ofList] at hc
    exact List.dropLast_subset _ hc
  · exact hc

/-- A text that is not written as nothing is put in as a line that is not empty. -/
private theorem comparable_ne_empty (hempty : text ≠ "") (hreturn : text ≠ "\r") :
    s.comparable text ≠ "" := by
  rw [comparable]
  split
  · next hcrlf =>
    obtain ⟨front, hfront⟩ := List.getLast?_eq_some_iff.1 hcrlf.2
    rw [hfront, List.dropLast_concat]
    intro hnil
    have hfront' : front = [] := by simpa using hnil
    rw [hfront'] at hfront
    exact hreturn (String.toList_inj.1 hfront)
  · exact hempty

/-- A last line without its newline is not empty. -/
private theorem last_ne_empty_ofText (hmissing : (ofText text).missingFinalNewline = true) :
    ∀ last ∈ (ofText text).lines.getLast?, last ≠ "" := by
  intro last hlast
  rw [← map_fst_pairs, List.getLast?_map, Option.mem_def, Option.map_eq_some_iff] at hlast
  obtain ⟨pair, hpair, rfl⟩ := hlast
  exact ((canonical_ofText text).last hmissing pair hpair).1

section Undoable

variable {hunks : List Hunk}

private theorem endsAlike_of_undoable (h : Hunk.Undoable text hunks t) :
    (ofText text).EndsAlike := by
  refine endsAlike_ofText fun hstyle ↦ ?_
  obtain ⟨hnone, -⟩ | ⟨-, hreturned, -⟩ := h.returns
  · exact absurd hstyle (style_ofText_ne_crlf hnone)
  · exact hreturned

/-- A character that neither the old lines nor the hunks hold is in no new line. -/
private theorem notMem_of_rewrites {i j : Nat} {olds news : List String}
    {oldMissing newMissing : Bool}
    (h : Rewrites s.comparable i j hunks olds oldMissing news newMissing)
    (hold : ∀ line ∈ olds, c ∉ line.toList)
    (hnew : ∀ h ∈ hunks, ∀ text ∈ h.texts, c ∉ text.toList) : ∀ line ∈ news, c ∉ line.toList := by
  intro line hline
  obtain hline | ⟨other, hother, text, htext, rfl⟩ := h.mem_olds_or line hline
  · exact hold line hline
  · have hmem := Hunk.mem_texts_of_mem_newTexts htext
    exact fun hc ↦ hnew other hother text hmem (mem_of_mem_comparable hc)

/-- What the hunks have made of a text is read back from what is written. -/
private theorem reread_of_undoable {i j : Nat} (h : Hunk.Undoable text hunks t)
    (hrewrites : Rewrites (ofText text).comparable i j hunks (ofText text).lines
      (ofText text).missingFinalNewline t.lines t.missingFinalNewline)
    (hstyle : t.style = (ofText text).style) (ht : t.EndsAlike) :
    ∃ style missing, ofText t.text = uniform t.lines style missing ∧
      (t.style = .crlf ↔ style = .crlf) ∧ (t.lines ≠ [] → t.missingFinalNewline = missing) := by
  have htext : (ofText text).text.toList = text.toList := by rw [text_ofText]
  rw [toList_text (endsAlike_of_undoable h)] at htext
  refine ofText_text_eq_uniform ht ?_ ?_ ?_ ?_
  · exact notMem_of_rewrites hrewrites (canonical_ofText text).newline_notMem h.newline_notMem
  · refine hrewrites.last_ne_empty (fun other hother hmissing ↦ ?_) last_ne_empty_ofText
    obtain ⟨last, hlast, hempty, hreturn⟩ := (h.marksEnds other hother).exists_getLast? hmissing
    exact ⟨last, hlast, comparable_ne_empty hempty hreturn⟩
  · intro hcrlf
    obtain ⟨hnone, -⟩ | ⟨-, -, hnewline⟩ := h.returns
    · exact absurd (hstyle.symm.trans hcrlf) (style_ofText_ne_crlf hnone)
    · exact hnewline
  · intro hother line hline hlast
    obtain ⟨hnone, htexts⟩ | ⟨hnewline, hreturned, -⟩ := h.returns
    · refine notMem_of_rewrites hrewrites (fun old hold hc ↦ hnone ?_) htexts line hline
        (List.mem_of_getLast? hlast)
      rw [← htext]
      exact mem_joinWith (List.mem_map_of_mem hold) hc
    · exact hother (hstyle.trans (style_ofText_eq_crlf hnewline hreturned))

/-- Hunks with a text each, that lie apart, are undone on the bytes that have been written: their
inverses, in the same order, apply to what is read there, and give the bytes that the hunks were
applied to. -/
theorem patchAll_inverse (hread : ofBytes text.toUTF8 = .ok s) (hpatch : s.patchAll 0 hunks = .ok t)
    (h : Hunk.Undoable text hunks t) :
    ∃ s' u, ofBytes t.bytes = .ok s' ∧ s'.patchAll 0 (hunks.map Hunk.inverse) = .ok u ∧
      u.bytes = text.toUTF8 := by
  rw [ofBytes_toUTF8, Except.ok.injEq] at hread
  subst hread
  have hends := endsAlike_of_undoable h
  have hadds (last : Hunk) (hlast : last ∈ hunks.getLast?) (hold : last.hasOld = false)
      (hle : t.lines.length ≤ last.after) :
      (ofText text).missingFinalNewline = false ∨ 0 + (ofText text).lines.length = 0 := by
    obtain rfl | hnewline := h.adds last hlast hold hle
    · exact .inr rfl
    · exact .inl (by simp [ofText, hnewline])
  obtain ⟨news, rfl, hrewrites, hstyle, ht, -⟩ :=
    rewrites_of_patchAll [] hpatch rfl hends h.hasText h.placed hadds
  obtain ⟨style, missing, hreread, hiff, hmissing⟩ := reread_of_undoable h hrewrites hstyle ht
  have hcomparable : (ofText text).comparable = (uniform t.lines style missing).comparable :=
    comparable_eq_of_iff (hstyle ▸ hiff)
  rw [hcomparable] at hrewrites
  obtain ⟨u, hinverse, hlines, hstyle', hu, hlast⟩ := patchAll_of_rewrites [] hrewrites.inverse 0
    rfl endsAlike_uniform fun hne ↦ (hmissing hne).symm
  refine ⟨_, u, (ofBytes_toUTF8 t.text).trans (congrArg Except.ok hreread), hinverse, ?_⟩
  have htext : u.text = (ofText text).text := by
    refine text_congr hu hends hlines ?_ hlast
    rw [hstyle', ← hstyle]
    exact hiff.symm
  rw [bytes, htext, text_ofText]

end Undoable

section Instance

/-- Lines with carriage returns, the last of which has no newline. -/
def returning : String := "a\r\nb\r\nc\r\nd"

/-- Two changes to them. The last line gets a newline, and the one in front of it goes. -/
def changes : List Hunk :=
  [⟨1, 1, [.add "x\r", .context "a\r"]⟩,
    ⟨3, 4, [.remove "c\r", .remove "d", .noNewline, .add "d\r"]⟩]

/-- What they come to. -/
def changed : LineSet := ⟨["x", "a", "b", "d"], [.crlf, .crlf, .crlf, .crlf], .crlf, false⟩

theorem undoable_changes : Hunk.Undoable returning changes changed where
  hasText := by decide
  apart := by decide
  oldAnchor := by decide
  newline_notMem := by decide
  marksEnds := by decide
  adds := by decide
  returns := by decide

theorem patchAll_inverse_changes :
    ofBytes returning.toUTF8 = .ok (ofText returning) ∧
      (ofText returning).patchAll 0 changes = .ok changed ∧
      Hunk.Undoable returning changes changed ∧
      ∃ s u, ofBytes changed.bytes = .ok s ∧ s.patchAll 0 (changes.map Hunk.inverse) = .ok u ∧
        u.bytes = returning.toUTF8 := by
  have hread := ofBytes_toUTF8 returning
  have hpatch : (ofText returning).patchAll 0 changes = .ok changed := by decide
  exact ⟨hread, hpatch, undoable_changes, patchAll_inverse hread hpatch undoable_changes⟩

end Instance

end LineSet

end Patchwork
