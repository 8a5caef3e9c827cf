import Patchwork.Apply
import Patchwork.Proofs.Diff.Document
import Patchwork.Proofs.Hunk.Difference
import Patchwork.Proofs.Store.Memory

/-!
# Applying the diff of two texts

The hunks between two texts are printed, read back and applied to a store in memory that holds the
first text, which then holds the second one and is otherwise as it was. Main statement:
`makes_of_diffOf`. The final newline is decided by the hunk behind which nothing is left, so a hunk
with a marker on its new side has to be the last.
-/

namespace Patchwork

/-- The document that modifies one file. -/
def Document.modifying (p : Path) (hunks : List Hunk) : Document :=
  ⟨[⟨.modify, some p, some p, hunks⟩]⟩

namespace LineSet

/-- The style of a text fits its carriage returns: either none of them belongs to an ending, or
all endings have one and no line ends with another. -/
def StyleFits (old new : String) : Prop :=
  Lines.style (Lines.cut old.toList).1 ≠ .crlf ∨
    (∀ line ∈ Lines.raw old.toList, Lines.EndsInCrlf line) ∧
      ∀ line ∈ Lines.raw new.toList, Lines.EndsInCrlf line

/-- The hunks between two texts make the second of the first. -/
theorem text_patchAll {old new : String} {hunks : List Hunk} (hne : hunks ≠ [])
    (hdiff : Difference 0 0 hunks (Lines.raw old.toList) (Lines.raw new.toList))
    (hmarkers : ∀ h ∈ hunks.dropLast, h.newMissingNewline = false) (hstyle : StyleFits old new) :
    ∃ t, (ofText old).patchAll 0 hunks = .ok t ∧ t.text = new ∧
      (t.SameContent (ofText old) → old = new) := by
  have hfits : (ofText old).Fits (Lines.raw old.toList) := fun hcrlf ↦
    (hstyle.resolve_left fun hne ↦ hne hcrlf).1
  have hholds := holds_ofText hfits
  have hflags : (ofText old).Flags (Lines.raw old.toList) := missingFinalNewline_ofText
  obtain ⟨t, hpatch, ht, hstyle', hflags'⟩ :=
    patchAll_of_difference [] hdiff 0 hholds (Lines.proper_raw old.toList)
      (Lines.proper_raw new.toList) hflags (fun _ _ h ↦ absurd h List.not_mem_nil)
      (fun hnil ↦ absurd hnil hne) hmarkers
  rw [List.nil_append] at ht hflags'
  have hfits' : t.Fits (Lines.raw new.toList) := fun hcrlf ↦
    (hstyle.resolve_left fun hne ↦ hne (hstyle'.symm.trans hcrlf)).2
  have hnew : t.text.toList = new.toList := by
    rw [toList_text_of_holds ht (Lines.proper_raw _) hfits' hflags', Lines.flatten_raw]
  have hold : (ofText old).text.toList = old.toList := by
    rw [toList_text_of_holds hholds (Lines.proper_raw _) hfits hflags, Lines.flatten_raw]
  refine ⟨t, hpatch, String.toList_inj.1 hnew, ?_⟩
  rintro ⟨hlines, hmissing⟩
  rw [← String.toList_inj, ← hold, ← hnew, toList_text hholds.chars_eq, toList_text ht.chars_eq,
    hlines, hmissing, hstyle']

end LineSet

section Memory

variable {m : Memory} {p : Path} {text : String} {hunks : List Hunk}

/-- A stage whose hunks fit decides to write what they make, unless the file has that content. -/
private theorem decide_edit (hm : m.get? p = some text.toUTF8) {t : LineSet}
    (hpatch : (LineSet.ofText text).patchAll 0 hunks = .ok t) :
    Stage.decide m (.edit p hunks) =
      .ok (if t.SameContent (LineSet.ofText text) then none else some (.write p t.bytes)) := by
  have hholds : Store.holds m p = true := by
    show (m.get? p).isSome = true
    rw [hm]
    rfl
  have hread : Store.read m p = .ok text.toUTF8 := by
    show m.read p = .ok text.toUTF8
    rw [Memory.read, hm]
  have hlines : Stage.fileLines m p = .ok (LineSet.ofText text) := by
    have hdecode : LineSet.ofBytes text.toUTF8 = .ok (LineSet.ofText text) := by
      have hutf8 : Text.decode text.toUTF8 = .ok text := Text.decode_toByteArray text
      rw [LineSet.ofBytes, hutf8]
      rfl
    rw [Stage.fileLines, Stage.fileBytes, hread]
    simp only [hdecode]
  rw [Stage.decide, Stage.decideEdit, hholds, hlines]
  simp only [Stage.patchLines, hpatch]
  rfl

/-- Modifying one file with hunks that fit writes what they make, unless the file has that content
already. -/
theorem Memory.apply_modifying (hm : m.get? p = some text.toUTF8)
    (hstart : ∀ h ∈ hunks, h.newStart ≠ 0) {t : LineSet}
    (hpatch : (LineSet.ofText text).patchAll 0 hunks = .ok t) (features : Features) :
    ((Document.modifying p hunks).apply features Document.never m).result = .ok (.ofPaths [p]) ∧
      ((Document.modifying p hunks).apply features Document.never m).store =
        if t.SameContent (LineSet.ofText text) then m else (m.perform (.write p t.bytes)).2 := by
  have htask : FileChange.task ⟨.modify, some p, some p, hunks⟩ = .ok (.modify p hunks) := by
    have hzero : hunks.findIdx? Hunk.startsAtZero = none := by
      rw [List.findIdx?_eq_none_iff]
      intro h hh
      simp [Hunk.startsAtZero, hstart h hh]
    simp only [FileChange.task, FileChange.taskOfKind, FileChange.target, hzero]
    rfl
  have hrun : ((Stage.edit p hunks).run m).result = .ok () ∧ ((Stage.edit p hunks).run m).store =
      if t.SameContent (LineSet.ofText text) then m else (m.perform (.write p t.bytes)).2 := by
    rw [Stage.run, decide_edit hm hpatch]
    split <;> exact ⟨rfl, rfl⟩
  have hall : (Stage.runAll m [.edit p hunks]).result = .ok () ∧
      (Stage.runAll m [.edit p hunks]).store = ((Stage.edit p hunks).run m).store := by
    constructor <;> simp only [Stage.runAll, hrun.1]
  have hchange : (FileChange.apply features ⟨.modify, some p, some p, hunks⟩ m).result = .ok p ∧
      (FileChange.apply features ⟨.modify, some p, some p, hunks⟩ m).store =
        ((Stage.edit p hunks).run m).store := by
    simp only [FileChange.apply, htask, Task.stages, hall]
    exact ⟨rfl, trivial⟩
  have hcheck : Document.check ⟨[⟨.modify, some p, some p, hunks⟩]⟩ = .ok () := by
    simp only [Document.check, Document.checkFrom, htask]
  rw [← hrun.2, ← hchange.2]
  simp only [Document.apply, Document.modifying, hcheck, Document.applyFrom, Document.never,
    hchange.1]
  exact ⟨rfl, rfl⟩

end Memory

/-- The hunks lead from the text of a file in the store to another text. -/
structure DiffOf (m : Memory) (p : Path) (hunks : List Hunk) (old new : String) : Prop where
  ne_nil : hunks ≠ []
  difference : Difference 0 0 hunks (Lines.raw old.toList) (Lines.raw new.toList)
  styleFits : LineSet.StyleFits old new
  get?_eq : m.get? p = some old.toUTF8

/-- The printed hunks are read and applied to the store. The file is all that is touched; it has
the new text then, and every other file is as it was. -/
def Makes (m : Memory) (p : Path) (hunks : List Hunk) (new : String) (features : Features) : Prop :=
  ∃ d, Diff.parse (Diff.fileDiff p hunks) = .ok d ∧
    (d.apply features Document.never m).result = .ok (.ofPaths [p]) ∧
    (d.apply features Document.never m).store.get? p = some new.toUTF8 ∧
    ∀ q, ¬ p.Same q → (d.apply features Document.never m).store.get? q = m.get? q

/-- The diff of two texts makes the second of the first, if the path and the lengths of the hunks'
sides can be printed and no hunk but the last ends its new side without a newline. -/
theorem makes_of_diffOf {m : Memory} {p : Path} {hunks : List Hunk} {old new : String}
    (hdiff : DiffOf m p hunks old new) (hp : p.Printable)
    (hlength : ∀ h ∈ hunks, h.oldLines.length < UInt32.size ∧ h.newLines.length < UInt32.size)
    (hmarkers : ∀ h ∈ hunks.dropLast, h.newMissingNewline = false) (features : Features) :
    Makes m p hunks new features := by
  have hprintable : ∀ h ∈ hunks, h.Printable :=
    hdiff.difference.printable (Lines.proper_raw _).newline_notMem_body
      (Lines.proper_raw _).newline_notMem_body hlength
  obtain ⟨t, hpatch, htext, hsame⟩ :=
    LineSet.text_patchAll hdiff.ne_nil hdiff.difference hmarkers hdiff.styleFits
  obtain ⟨hresult, hstore⟩ :=
    Memory.apply_modifying hdiff.get?_eq hdiff.difference.newStart_ne_zero hpatch features
  refine ⟨.modifying p hunks, Diff.parse_fileDiff hp hdiff.ne_nil hprintable, hresult, ?_⟩
  rw [hstore]
  by_cases hcontent : t.SameContent (LineSet.ofText old)
  · rw [if_pos hcontent, ← hsame hcontent]
    exact ⟨hdiff.get?_eq, fun _ _ ↦ rfl⟩
  · rw [if_neg hcontent, Memory.get?_perform_write]
    refine ⟨?_, fun q hq ↦ if_neg hq⟩
    rw [Contents.set, if_pos (Path.Same.refl p), LineSet.bytes, htext]

section Instances

/-- A store with one file. -/
def Memory.single (p : Path) (text : String) : Memory := Memory.empty.seed p text.toUTF8

private theorem get?_single (p q : Path) (text : String) :
    (Memory.single p text).get? q = if p.Same q then some text.toUTF8 else none := by
  rw [Memory.single, Memory.get?, Memory.seed, PathMap.get?_insert]
  simp only [Memory.empty, PathMap.get?_empty]

private theorem diffOf_single {p : Path} {hunks : List Hunk} {old new : String} (hne : hunks ≠ [])
    (hdiff : Difference 0 0 hunks (Lines.raw old.toList) (Lines.raw new.toList))
    (hstyle : LineSet.StyleFits old new) : DiffOf (.single p old) p hunks old new :=
  ⟨hne, hdiff, hstyle, by rw [get?_single, if_pos (Path.Same.refl p)]⟩

/-- Hunks at either end of a file, the last of which takes the final newline away. -/
def ends : List Hunk :=
  [⟨1, 1, [.remove "a", .add "A"]⟩, ⟨3, 3, [.remove "c", .add "C", .noNewline]⟩]

private theorem difference_ends :
    Difference 0 0 ends (Lines.raw "a\nb\nc\n".toList) (Lines.raw "A\nb\nC".toList) := by
  have hlast : Difference 1 1 ends.tail [['b', '\n'], ['c', '\n']] [['b', '\n'], ['C']] :=
    @Difference.cons 1 1 _ [] [['b', '\n']] [['c', '\n']] [['C']] [] []
      (.remove ['c', '\n'] (.add ['C'] .nil)) (by simp) (by decide) (by decide) (.nil [])
  exact @Difference.cons 0 0 _ ends.tail [] [['a', '\n']] [['A', '\n']] _ _
    (.remove ['a', '\n'] (.add ['A', '\n'] .nil)) (by simp) (by decide) (by decide) hlast

theorem makes_ends :
    DiffOf (.single ⟨"f"⟩ "a\nb\nc\n") ⟨"f"⟩ ends "a\nb\nc\n" "A\nb\nC" ∧
      Makes (.single ⟨"f"⟩ "a\nb\nc\n") ⟨"f"⟩ ends "A\nb\nC" .none := by
  have hdiff : DiffOf (.single ⟨"f"⟩ "a\nb\nc\n") ⟨"f"⟩ ends "a\nb\nc\n" "A\nb\nC" :=
    diffOf_single (by simp [ends]) difference_ends (.inl (by decide))
  exact ⟨hdiff, makes_of_diffOf hdiff (by decide) (by decide) (by decide) .none⟩

/-- Hunks of which the first ends the new text, and the second only takes lines away behind it. -/
def early : List Hunk :=
  [⟨1, 1, [.remove "a", .add "x", .noNewline]⟩, ⟨2, 2, [.remove "b", .remove "c"]⟩]

private theorem difference_early :
    Difference 0 0 early (Lines.raw "a\nb\nc\n".toList) (Lines.raw "x".toList) := by
  have hlast : Difference 1 1 early.tail [['b', '\n'], ['c', '\n']] [] :=
    @Difference.cons 1 1 _ [] [] [['b', '\n'], ['c', '\n']] [] [] []
      (.remove ['b', '\n'] (.remove ['c', '\n'] .nil)) (by simp) (by decide) (by decide) (.nil [])
  exact @Difference.cons 0 0 _ early.tail [] [['a', '\n']] [['x']] _ _
    (.remove ['a', '\n'] (.add ['x'] .nil)) (by simp) (by decide) (by decide) hlast

/-- The last hunk takes lines away at the end of the file and has no marker, so a newline is put
behind the line that the first hunk left without one. -/
private theorem not_makes_early : ¬ Makes (.single ⟨"f"⟩ "a\nb\nc\n") ⟨"f"⟩ early "x" .none := by
  rintro ⟨d, hparse, _, hget, _⟩
  have hf : Path.Printable ⟨"f"⟩ := by decide
  have hprintable : ∀ h ∈ early, h.Printable :=
    difference_early.printable (Lines.proper_raw _).newline_notMem_body
      (Lines.proper_raw _).newline_notMem_body (by decide)
  have hd : d = .modifying ⟨"f"⟩ early := by
    rw [Diff.parse_fileDiff hf (by simp [early]) hprintable] at hparse
    exact (Except.ok.inj hparse).symm
  have hpatch : (LineSet.ofText "a\nb\nc\n").patchAll 0 early =
      .ok ⟨["x"], [.lf], .lf, false⟩ := rfl
  have hfile : (Memory.single ⟨"f"⟩ "a\nb\nc\n").get? ⟨"f"⟩ = some "a\nb\nc\n".toUTF8 := by
    rw [get?_single, if_pos (Path.Same.refl _)]
  have hstore := (Memory.apply_modifying hfile difference_early.newStart_ne_zero hpatch .none).2
  rw [hd, hstore, if_neg (by decide), Memory.get?_perform_write, Contents.set,
    if_pos (Path.Same.refl _)] at hget
  exact absurd (Option.some.inj hget) (by decide)

/-- A tab ends the path that a line names. -/
private theorem not_makes_tab :
    ¬ Makes (.single ⟨"a\tb"⟩ "a\n") ⟨"a\tb"⟩ [⟨1, 1, [.remove "a", .add "b"]⟩] "b\n" .none := by
  rintro ⟨d, hparse, hresult, _, _⟩
  have hprintable : ∀ h ∈ [Hunk.mk 1 1 [.remove "a", .add "b"]], h.Printable := by
    intro h hh
    rw [List.mem_singleton.1 hh]
    exact ⟨by simp [HunkLine.text?], by decide, by decide, by decide, by decide, by decide,
      by decide⟩
  have hd : d = .modifying ⟨"a"⟩ [⟨1, 1, [.remove "a", .add "b"]⟩] := by
    rw [Diff.parse_fileDiff_of_ofLine (q := ⟨"a"⟩) rfl rfl (by decide) (by decide) (by simp)
      hprintable] at hparse
    exact (Except.ok.inj hparse).symm
  have hholds : Store.holds (Memory.single ⟨"a\tb"⟩ "a\n") ⟨"a"⟩ = false := by
    show ((Memory.single ⟨"a\tb"⟩ "a\n").get? ⟨"a"⟩).isSome = false
    rw [get?_single, if_neg (by decide)]
    rfl
  have htask :
      FileChange.task ⟨.modify, some ⟨"a"⟩, some ⟨"a"⟩, [⟨1, 1, [.remove "a", .add "b"]⟩]⟩ =
        .ok (.modify ⟨"a"⟩ [⟨1, 1, [.remove "a", .add "b"]⟩]) := rfl
  simp [hd, Document.apply, Document.modifying, Document.check, Document.checkFrom,
    Document.applyFrom, Document.never, FileChange.apply, htask, Task.stages, Stage.runAll,
    Stage.run, Stage.decide, Stage.decideEdit, hholds, Stage.carryOut, Except.map] at hresult

/-- A text of many equal lines. -/
def copies (count : Nat) : String := .ofList (Lines.join (.replicate count ['a']) [])

/-- A hunk that takes many equal lines away. -/
def removing (count : Nat) : Hunk := ⟨1, 1, .replicate count (.remove "a")⟩

private theorem cut_copies (count : Nat) :
    Lines.cut (copies count).toList = (.replicate count ['a'], []) := by
  rw [copies, String.toList_ofList]
  refine Lines.cut_join (fun line hline ↦ ?_) List.not_mem_nil
  rw [(List.mem_replicate.1 hline).2]
  decide

private theorem difference_copies (count : Nat) (hcount : count ≠ 0) :
    Difference 0 0 [removing count] (Lines.raw (copies count).toList) (Lines.raw "".toList) := by
  have hsides (count : Nat) :
      Sides (.replicate count (.remove "a")) (.replicate count ['a', '\n']) [] := by
    induction count with
    | zero => exact .nil
    | succ count ih =>
      rw [List.replicate_succ, List.replicate_succ]
      exact .remove ['a', '\n'] ih
  have hraw : Lines.raw (copies count).toList = .replicate count ['a', '\n'] := by
    simp [Lines.raw, cut_copies]
  have hnone : Lines.raw "".toList = [] := rfl
  have hdiff := @Difference.cons 0 0 (removing count) [] [] (.replicate count ['a', '\n']) [] [] []
    (hsides count) (by simp [removing, hcount]) rfl rfl (.nil [])
  rw [hraw, hnone]
  simpa using hdiff

/-- No header can say how many lines there are. -/
private theorem not_makes_copies {count : Nat} (hcount : UInt32.size ≤ count) :
    ¬ Makes (.single ⟨"f"⟩ (copies count)) ⟨"f"⟩ [removing count] "" .none := by
  rintro ⟨d, hparse, -⟩
  have hlength : UInt32.size ≤ (removing count).oldLines.length := by
    rw [removing, Hunk.oldLines, List.filter_replicate_of_pos rfl, List.length_replicate]
    exact hcount
  have hlines : ∀ h ∈ [removing count], ∀ line ∈ h.diffLines, '\n' ∉ line := by
    intro h hh
    rw [List.mem_singleton.1 hh]
    refine Hunk.newline_notMem_diffLines fun line hline ↦ ?_
    rw [(List.mem_replicate.1 hline).2]
    simp [HunkLine.text?]
  have hf : Path.Printable ⟨"f"⟩ := by decide
  obtain ⟨problem, herror⟩ := Diff.exists_parse_fileDiff_eq_error hf (.inl hlength) hlines
  rw [hparse] at herror
  cases herror

/-- Each of the conditions is needed: that no hunk but the last ends its new side without a
newline, that the path is printable, and that the numbers of lines are. -/
theorem exists_diffOf_not_makes :
    (DiffOf (.single ⟨"f"⟩ "a\nb\nc\n") ⟨"f"⟩ early "a\nb\nc\n" "x" ∧
      ¬ Makes (.single ⟨"f"⟩ "a\nb\nc\n") ⟨"f"⟩ early "x" .none) ∧
    (DiffOf (.single ⟨"a\tb"⟩ "a\n") ⟨"a\tb"⟩ [⟨1, 1, [.remove "a", .add "b"]⟩] "a\n" "b\n" ∧
      ¬ Makes (.single ⟨"a\tb"⟩ "a\n") ⟨"a\tb"⟩ [⟨1, 1, [.remove "a", .add "b"]⟩] "b\n" .none) ∧
    (DiffOf (.single ⟨"f"⟩ (copies UInt32.size)) ⟨"f"⟩ [removing UInt32.size]
        (copies UInt32.size) "" ∧
      ¬ Makes (.single ⟨"f"⟩ (copies UInt32.size)) ⟨"f"⟩ [removing UInt32.size] "" .none) := by
  refine ⟨⟨?_, not_makes_early⟩, ⟨?_, not_makes_tab⟩, ?_, not_makes_copies (Nat.le_refl _)⟩
  · exact diffOf_single (by simp [early]) difference_early (.inl (by decide))
  · refine diffOf_single (by simp) ?_ (.inl (by decide))
    exact @Difference.cons 0 0 _ [] [] [['a', '\n']] [['b', '\n']] [] []
      (.remove ['a', '\n'] (.add ['b', '\n'] .nil)) (by simp) (by decide) (by decide) (.nil [])
  · have hcount : UInt32.size ≠ 0 := by decide
    have hstyle (count : Nat) : Lines.style (.replicate count ['a']) ≠ .crlf := by
      cases count with
      | zero => decide
      | succ count => exact Lines.style_cons_ne_crlf.2 (by decide)
    refine diffOf_single (by simp) (difference_copies _ hcount) (.inl ?_)
    rw [cut_copies]
    exact hstyle _


end Instances

end Patchwork
