import Patchwork.Proofs.Diff.Heading
import Patchwork.Proofs.Diff.Hunk

/-!
# Printing a document and reading it back

A document is printed section by section: a heading that says what happens to the file, and the
hunks. Every line of a heading and every hunk is read for what it was printed for, so the reader
finishes each section as its change (`reads_diffLines_of_printable`). Main statement: `parse_diff`.
-/

namespace Patchwork

namespace FileChange

/-- The lines that move or copy a file. The files are named again where hunks follow. -/
def moveHeading (verb : String) (source target : Path) (hunks : List Hunk) : List String :=
  [Diff.openingLine source target, verb ++ " from " ++ source.spelling,
    verb ++ " to " ++ target.spelling] ++
    if hunks.isEmpty then [] else [Diff.oldLine source, Diff.newLine target]

/-- The lines of a diff before the hunks of a change. A change without the paths that its kind
needs has none. -/
def heading : FileChange → List String
  | ⟨.modify, some old, some new, _⟩ =>
    [Diff.openingLine old new, Diff.oldLine old, Diff.newLine new]
  | ⟨.add, _, some p, _⟩ =>
    [Diff.openingLine p p, "new file mode 100644", "--- /dev/null", Diff.newLine p]
  | ⟨.delete, some p, _, _⟩ =>
    [Diff.openingLine p p, "deleted file mode 100644", Diff.oldLine p, "+++ /dev/null"]
  | ⟨.rename, some source, some target, hunks⟩ => moveHeading "rename" source target hunks
  | ⟨.copy, some source, some target, hunks⟩ => moveHeading "copy" source target hunks
  | _ => []

/-- The change as a diff shows it. -/
def diff (c : FileChange) : String :=
  String.join (c.heading.map (· ++ "\n")) ++ String.join (c.hunks.map fun h ↦ h.format ++ "\n")

/-- The changes that a diff can tell apart: each kind has the paths it needs and no others, a
modification has hunks and a deletion has none. -/
inductive Printable : FileChange → Prop where
  | modify {p : Path} {hunks : List Hunk} (hp : p.Printable) (hne : hunks ≠ [])
      (hhunks : ∀ h ∈ hunks, h.Printable) : Printable ⟨.modify, some p, some p, hunks⟩
  | add {p : Path} {hunks : List Hunk} (hp : p.Printable) (hhunks : ∀ h ∈ hunks, h.Printable) :
      Printable ⟨.add, none, some p, hunks⟩
  | delete {p : Path} (hp : p.Printable) : Printable ⟨.delete, some p, none, []⟩
  | rename {source target : Path} {hunks : List Hunk} (hsource : source.Printable)
      (htarget : target.Printable) (hhunks : ∀ h ∈ hunks, h.Printable) :
      Printable ⟨.rename, some source, some target, hunks⟩
  | copy {source target : Path} {hunks : List Hunk} (hsource : source.Printable)
      (htarget : target.Printable) (hhunks : ∀ h ∈ hunks, h.Printable) :
      Printable ⟨.copy, some source, some target, hunks⟩

/-- The lines of a diff that a change takes up. -/
def diffLines (c : FileChange) : List (List Char) :=
  c.heading.map String.toList ++ c.hunks.flatMap Hunk.diffLines

/-- A printed change is made up of its lines. -/
theorem toList_diff (c : FileChange) : c.diff.toList = Lines.join c.diffLines [] := by
  have hheading (lines : List String) :
      (String.join (lines.map (· ++ "\n"))).toList = Lines.join (lines.map String.toList) [] := by
    induction lines with
    | nil => rfl
    | cons line lines ih => simp_all [Lines.join]
  rw [diff, diffLines, String.toList_append, hheading, Hunk.toList_join_format, Lines.join_append,
    Lines.join_eq_append _ (Lines.join _ _)]

theorem Printable.hunks {c : FileChange} (hc : c.Printable) : ∀ h ∈ c.hunks, h.Printable := by
  cases hc with
  | modify _ _ hhunks | add _ hhunks | rename _ _ hhunks | copy _ _ hhunks => exact hhunks
  | delete _ => exact fun h hh ↦ absurd hh List.not_mem_nil

/-- Every heading begins with an opening line. -/
theorem Printable.exists_heading_eq {c : FileChange} (hc : c.Printable) :
    ∃ old new lines, new.Printable ∧ c.heading = Diff.openingLine old new :: lines := by
  cases hc with
  | @modify p _ hp _ _ | @add p _ hp _ | @delete p hp => exact ⟨p, p, _, hp, rfl⟩
  | @rename source target _ _ htarget _ | @copy source target _ _ htarget _ =>
    exact ⟨source, target, _, htarget, rfl⟩

/-- The lines of a printed change take up one line of the diff each. -/
theorem Printable.newline_notMem_diffLines {c : FileChange} (hc : c.Printable) :
    ∀ line ∈ c.diffLines, '\n' ∉ line := by
  have hheading : ∀ line ∈ c.heading, '\n' ∉ line.toList := by
    cases hc with
    | modify hp _ _ | add hp _ | delete hp =>
      simp [heading, Diff.openingLine, Diff.oldLine, Diff.newLine, hp.newline_notMem]
    | rename hsource htarget _ | copy hsource htarget _ =>
      simp only [heading, moveHeading]
      split <;>
        simp [Diff.openingLine, Diff.oldLine, Diff.newLine, hsource.newline_notMem,
          htarget.newline_notMem]
  intro line hline
  rcases List.mem_append.1 hline with hline | hline
  · obtain ⟨text, htext, rfl⟩ := List.mem_map.1 hline
    exact hheading text htext
  · obtain ⟨h, hh, hline⟩ := List.mem_flatMap.1 hline
    exact Hunk.newline_notMem_diffLines (hc.hunks h hh).newline_notMem line hline

end FileChange

namespace Document

/-- The document as a diff. -/
def diff (d : Document) : String := String.join (d.changes.map FileChange.diff)

/-- A printed document is made up of the lines of its changes. -/
theorem toList_diff (d : Document) :
    d.diff.toList = Lines.join (d.changes.flatMap FileChange.diffLines) [] := by
  rw [diff, String.toList_join, List.flatMap_map, Lines.join_flatMap]
  simp only [FileChange.toList_diff]

/-- Every change can be printed. -/
def Printable (d : Document) : Prop := ∀ c ∈ d.changes, c.Printable

end Document

namespace Diff

open Reader (readLines)

/-- The heading opens a section, which is what the lines after the first make of it. -/
private theorem reads_openingLine (old : Path) {new : Path} (hnew : new.Printable)
    {a : List Reading × Option Section} {finished : List Reading} (ha : Closes a finished) :
    ∃ files, ∀ lines s,
      readLines ⟨finished, some (.opened files), none⟩ lines = .ok ⟨finished, some s, none⟩ →
        Reads ((openingLine old new).toList :: lines) a (finished, some s) := by
  obtain ⟨files, hfiles⟩ := ofLine_openingLine old hnew
  refine ⟨files, fun lines s hlines ↦ ?_⟩
  have hhead : (openingLine old new).toList.head? ≠ some '\\' := by simp [openingLine]
  have hopen : Reader.readNotation ⟨a.1, a.2, none⟩ (.ofLine (openingLine old new).toList) =
      .ok ⟨finished, some (.opened files), none⟩ := by
    rw [hfiles, Reader.readNotation, Reader.openSection, show Reader.closeSection _ = _ from ha]
    rfl
  intro r hr
  refine ⟨⟨finished, some s, none⟩, ?_, Reader.at_of_hunk_eq_none⟩
  rw [readLines, hr.step_eq hhead, hopen]
  exact hlines

/-- A line that only says something about the open section. -/
private theorem readLines_note {finished : List Reading} {s s' : Section} {line : String}
    {n : Notation} (hline : Notation.ofLine line.toList = n)
    (hn : Reader.readNotation ⟨finished, some s, none⟩ n = .ok ⟨finished, some s', none⟩)
    (lines : List (List Char)) :
    readLines ⟨finished, some s, none⟩ (line.toList :: lines) =
      readLines ⟨finished, some s', none⟩ lines := by
  simp only [readLines, Reader.step, hline, hn]

/-- The heading of a move names both files, and in front of hunks it names them twice. -/
private theorem reads_moveHeading (verb : String) {source target : Path} (hunks : List Hunk)
    (hsource : source.Printable) (htarget : target.Printable)
    {a : List Reading × Option Section} {finished : List Reading} (ha : Closes a finished)
    {fromNote toNote : Notation}
    (hfrom : Notation.ofLine (verb ++ " from " ++ source.spelling).toList = fromNote)
    (hto : Notation.ofLine (verb ++ " to " ++ target.spelling).toList = toNote)
    (moved : Option (Path × Path) → Section)
    (hmoved : ∀ files, ∃ s, (moved files).hasBegun = false ∧
      Reader.readNotation ⟨finished, some (.opened files), none⟩ fromNote =
        .ok ⟨finished, some s, none⟩ ∧
      Reader.readNotation ⟨finished, some s, none⟩ toNote =
        .ok ⟨finished, some (moved files), none⟩) :
    ∃ files oldFile newFile,
      Reads ((FileChange.moveHeading verb source target hunks).map String.toList) a
        (finished, some { moved files with oldFile := oldFile, newFile := newFile }) := by
  obtain ⟨files, hfiles⟩ := reads_openingLine source htarget ha
  obtain ⟨s, hbegun, hs, hs'⟩ := hmoved files
  have hmove (lines : List (List Char)) :
      readLines ⟨finished, some (.opened files), none⟩
          ((verb ++ " from " ++ source.spelling).toList ::
            (verb ++ " to " ++ target.spelling).toList :: lines) =
        readLines ⟨finished, some (moved files), none⟩ lines :=
    (readLines_note hfrom hs _).trans (readLines_note hto hs' _)
  by_cases hempty : hunks.isEmpty
  · refine ⟨files, (moved files).oldFile, (moved files).newFile, ?_⟩
    rw [FileChange.moveHeading, if_pos hempty]
    exact hfiles _ _ (hmove [])
  · have hold : Reader.readNotation ⟨finished, some (moved files), none⟩ (.oldFile (some source)) =
        .ok ⟨finished, some { moved files with oldFile := .named source }, none⟩ := by
      rw [Reader.readNotation, Option.all_some, hbegun]
      rfl
    refine ⟨files, .named source, .named target, ?_⟩
    rw [FileChange.moveHeading, if_neg hempty]
    exact hfiles _ _ ((hmove _).trans ((readLines_note (ofLine_oldLine hsource) hold _).trans
      (readLines_note (ofLine_newLine htarget) rfl [])))

/-- A heading opens the section of its change, and leaves the section's hunks to come. -/
theorem reads_heading {c : FileChange} (hc : c.Printable) {a : List Reading × Option Section}
    {finished : List Reading} (ha : Closes a finished) :
    ∃ s reading, Reads (c.heading.map String.toList) a (finished, some s) ∧ s.hunks = [] ∧
      { s with hunks := c.hunks }.reading = .ok reading ∧ reading.change? = some c := by
  cases hc with
  | @modify p hunks hp hne hhunks =>
    obtain ⟨files, hfiles⟩ := reads_openingLine p hp ha
    refine ⟨{ Section.opened files with oldFile := .named p, newFile := .named p },
      .change ⟨.modify, some p, some p, hunks⟩, hfiles _ _ ?_, rfl, ?_, rfl⟩
    · exact (readLines_note (ofLine_oldLine hp) rfl _).trans
        (readLines_note (ofLine_newLine hp) rfl [])
    · simp [Section.reading, Section.edit, Section.opened, Section.anyPath, Section.newPath,
        FileLine.pathOr, hne]
  | @add p hunks hp hhunks =>
    obtain ⟨files, hfiles⟩ := reads_openingLine p hp ha
    have hcreated : Notation.ofLine "new file mode 100644".toList = .created := rfl
    have habsent : Notation.ofLine "--- /dev/null".toList = .oldFile none := rfl
    refine ⟨{ Section.opened files with created := true, oldFile := .absent, newFile := .named p },
      .change ⟨.add, none, some p, hunks⟩, hfiles _ _ ?_, rfl, ?_, rfl⟩
    · exact (readLines_note hcreated rfl _).trans ((readLines_note habsent rfl _).trans
        (readLines_note (ofLine_newLine hp) rfl []))
    · simp [Section.reading, Section.edit, Section.opened, Section.newPath, FileLine.pathOr]
  | @delete p hp =>
    obtain ⟨files, hfiles⟩ := reads_openingLine p hp ha
    have hdeleted : Notation.ofLine "deleted file mode 100644".toList = .deleted := rfl
    have habsent : Notation.ofLine "+++ /dev/null".toList = .newFile none := rfl
    refine ⟨{ Section.opened files with deleted := true, oldFile := .named p, newFile := .absent },
      .deletion p 0, hfiles _ _ ?_, rfl, ?_, rfl⟩
    · exact (readLines_note hdeleted rfl _).trans ((readLines_note (ofLine_oldLine hp) rfl _).trans
        (readLines_note habsent rfl []))
    · simp [Section.reading, Section.edit, Section.opened, Section.oldPath, FileLine.pathOr]
  | @rename source target hunks hsource htarget hhunks =>
    obtain ⟨files, oldFile, newFile, hreads⟩ := reads_moveHeading "rename" hunks
      hsource htarget ha (ofLine_moveLines hsource).1 (ofLine_moveLines htarget).2.1
      (fun files ↦ { Section.opened files with
        renameFrom := some source, renameTo := some target })
      fun files ↦ ⟨_, rfl, rfl, rfl⟩
    exact ⟨_, .change ⟨.rename, some source, some target, hunks⟩, hreads, rfl, rfl, rfl⟩
  | @copy source target hunks hsource htarget hhunks =>
    obtain ⟨files, oldFile, newFile, hreads⟩ := reads_moveHeading "copy" hunks
      hsource htarget ha (ofLine_moveLines hsource).2.2.1 (ofLine_moveLines htarget).2.2.2
      (fun files ↦ { Section.opened files with
        copyFrom := some source, copyTo := some target })
      fun files ↦ ⟨_, rfl, rfl, rfl⟩
    exact ⟨_, .change ⟨.copy, some source, some target, hunks⟩, hreads, rfl, rfl, rfl⟩

/-- The reader finishes the section before a printed change and is left with that change. -/
theorem reads_diffLines_of_printable {c : FileChange} (hc : c.Printable)
    {a : List Reading × Option Section} {finished : List Reading} (ha : Closes a finished) :
    ∃ b reading, Reads c.diffLines a b ∧ Closes b (finished ++ [reading]) ∧
      reading.change? = some c := by
  obtain ⟨s, reading, hheading, hnone, hreading, hchange⟩ := reads_heading hc ha
  have hhunks := reads_flatMap_diffLines hc.hunks finished s
  rw [hnone, List.nil_append] at hhunks
  exact ⟨_, reading, hheading.append hhunks, closes_of_reading hreading, hchange⟩

/-- Printed changes are read in order. -/
theorem reads_flatMap_diffLines_of_printable {changes : List FileChange}
    (hchanges : ∀ c ∈ changes, c.Printable) {a : List Reading × Option Section}
    {finished : List Reading} (ha : Closes a finished) :
    ∃ b readings, Reads (changes.flatMap FileChange.diffLines) a b ∧
      Closes b (finished ++ readings) ∧ readings.filterMap Reading.change? = changes := by
  induction changes generalizing a finished with
  | nil => exact ⟨a, [], Reads.nil a, by rwa [List.append_nil], rfl⟩
  | cons c changes ih =>
    obtain ⟨b, reading, hc, hb, hchange⟩ :=
      reads_diffLines_of_printable (hchanges c List.mem_cons_self) ha
    obtain ⟨b', readings, hrest, hb', hreadings⟩ :=
      ih (fun other hother ↦ hchanges other (List.mem_cons_of_mem c hother)) hb
    refine ⟨b', reading :: readings, hc.append hrest, ?_, ?_⟩
    · rwa [List.append_assoc, List.singleton_append] at hb'
    · rw [List.filterMap_cons_some hchange, hreadings]

/-- Parsing undoes printing. -/
theorem parse_diff {d : Document} (hd : d.Printable) : parse d.diff = .ok d := by
  have hstart : Closes ([], none) [] := rfl
  obtain ⟨b, readings, hreads, hclose, hchanges⟩ :=
    reads_flatMap_diffLines_of_printable hd hstart
  have hlines : ∀ line ∈ d.changes.flatMap FileChange.diffLines, '\n' ∉ line := by
    intro line hline
    obtain ⟨c, hc, hmem⟩ := List.mem_flatMap.1 hline
    exact (hd c hc).newline_notMem_diffLines line hmem
  have hfirst : ∀ line ∈ (d.changes.flatMap FileChange.diffLines).head?,
      line.getLast? ≠ some '\r' := by
    cases hd' : d.changes with
    | nil => simp
    | cons c changes =>
      obtain ⟨old, new, lines, hnew, hheading⟩ :=
        (hd c (by rw [hd']; exact List.mem_cons_self)).exists_heading_eq
      intro line hline
      have hline : (openingLine old new).toList = line := by
        simpa [FileChange.diffLines, hheading] using hline
      rw [← hline]
      exact getLast?_openingLine old hnew
  have htext : d.diff = .ofList (Lines.join (d.changes.flatMap FileChange.diffLines) []) := by
    rw [← d.toList_diff, String.ofList_toList]
  rw [htext, parse_of_reads hlines hfirst hreads hclose, List.nil_append, hchanges]

/-- A file that goes away and a file whose lines look like the lines around hunks. -/
def lookalike : Document :=
  ⟨[⟨.delete, some ⟨"a b/c"⟩, none, []⟩,
    ⟨.modify, some ⟨"d"⟩, some ⟨"d"⟩,
      [⟨3, 3, [.remove "- a/x", .add "++ b/x", .noNewline]⟩,
        ⟨9, 9, [.add "@@ -1 +1 @@", .context "iff --git a/x b/x\r"]⟩, ⟨1, 1, []⟩]⟩]⟩

theorem parse_diff_lookalike :
    Document.Printable lookalike ∧ parse lookalike.diff = .ok lookalike := by
  have hprintable : Document.Printable lookalike := by
    have hpath {p : Path} (h : p = ⟨"a b/c"⟩ ∨ p = ⟨"d"⟩) : p.Printable := by
      rcases h with rfl | rfl <;> decide
    intro c hc
    simp only [lookalike, List.mem_cons, List.not_mem_nil, or_false] at hc
    rcases hc with rfl | rfl
    · exact .delete (hpath (.inl rfl))
    · refine .modify (hpath (.inr rfl)) (by simp) fun h hh ↦ ?_
      simp only [List.mem_cons, List.not_mem_nil, or_false] at hh
      rcases hh with rfl | rfl | rfl <;>
        exact ⟨by simp [HunkLine.text?], by decide, by decide, by decide, by decide, by decide,
          by decide⟩
  exact ⟨hprintable, parse_diff hprintable⟩

/-- The diff of one file, without a line that opens a section. -/
def fileDiff (p : Path) (hunks : List Hunk) : String :=
  oldLine p ++ "\n" ++ newLine p ++ "\n" ++ String.join (hunks.map fun h ↦ h.format ++ "\n")

section FileDiff

variable {p q : Path} {hunks : List Hunk}

/-- The lines of the diff of one file. -/
private def fileDiffLines (p : Path) (hunks : List Hunk) : List (List Char) :=
  (oldLine p).toList :: (newLine p).toList :: hunks.flatMap Hunk.diffLines

private theorem fileDiff_eq (p : Path) (hunks : List Hunk) :
    fileDiff p hunks = .ofList (Lines.join (fileDiffLines p hunks) []) := by
  rw [← String.ofList_toList (s := fileDiff p hunks)]
  simp only [fileDiff, String.toList_append, Hunk.toList_join_format]
  simp [fileDiffLines, Lines.join]

private theorem newline_notMem_fileDiffLines (hp : '\n' ∉ p.spelling.toList)
    (hhunks : ∀ h ∈ hunks, ∀ line ∈ h.diffLines, '\n' ∉ line) :
    ∀ line ∈ fileDiffLines p hunks, '\n' ∉ line := by
  intro line hline
  simp only [fileDiffLines, List.mem_cons] at hline
  rcases hline with rfl | rfl | hline
  · simp [oldLine, hp]
  · simp [newLine, hp]
  · obtain ⟨h, hh, hline⟩ := List.mem_flatMap.1 hline
    exact hhunks h hh line hline

/-- The line of the old file opens a section where none is open. -/
private theorem reads_fileLines (hold : Notation.ofLine (oldLine p).toList = .oldFile (some q))
    (hnew : Notation.ofLine (newLine p).toList = .newFile (some q)) :
    Reads [(oldLine p).toList, (newLine p).toList] ([], none)
      ([], some { Section.opened none with oldFile := .named q, newFile := .named q }) := by
  intro r hr
  refine ⟨⟨[], _, none⟩, ?_, Reader.at_of_hunk_eq_none⟩
  rw [readLines, hr.step_eq (by simp [oldLine]), hold]
  exact readLines_note hnew rfl []

/-- The section that the lines of one file open is finished as a modification of the file. -/
private theorem closes_fileLines (q : Path) (hne : hunks ≠ []) :
    Closes ([], some { Section.opened none with
      oldFile := .named q, newFile := .named q, hunks := hunks })
      [.change ⟨.modify, some q, some q, hunks⟩] := by
  refine closes_of_reading ?_
  simp [Section.reading, Section.edit, Section.opened, Section.anyPath, Section.newPath,
    FileLine.pathOr, hne]

/-- The diff of one file modifies the file that its lines are read to name. -/
theorem parse_fileDiff_of_ofLine (hold : Notation.ofLine (oldLine p).toList = .oldFile (some q))
    (hnew : Notation.ofLine (newLine p).toList = .newFile (some q))
    (hnewline : '\n' ∉ p.spelling.toList) (hreturn : (oldLine p).toList.getLast? ≠ some '\r')
    (hne : hunks ≠ []) (hhunks : ∀ h ∈ hunks, h.Printable) :
    parse (fileDiff p hunks) = .ok ⟨[⟨.modify, some q, some q, hunks⟩]⟩ := by
  have hreads : Reads (fileDiffLines p hunks) ([], none)
      ([], some { Section.opened none with
        oldFile := .named q, newFile := .named q, hunks := hunks }) :=
    (reads_fileLines hold hnew).append (reads_flatMap_diffLines hhunks [] _)
  have hlines := newline_notMem_fileDiffLines hnewline fun h hh ↦
    Hunk.newline_notMem_diffLines (hhunks h hh).newline_notMem
  have hfirst : ∀ line ∈ (fileDiffLines p hunks).head?, line.getLast? ≠ some '\r' := by
    intro line hline
    have hline : (oldLine p).toList = line := by simpa [fileDiffLines] using hline
    rwa [← hline]
  rw [fileDiff_eq, parse_of_reads hlines hfirst hreads (closes_fileLines q hne)]
  rfl

/-- The diff of one file with a printable path modifies that file. -/
theorem parse_fileDiff (hp : p.Printable) (hne : hunks ≠ []) (hhunks : ∀ h ∈ hunks, h.Printable) :
    parse (fileDiff p hunks) = .ok ⟨[⟨.modify, some p, some p, hunks⟩]⟩ :=
  parse_fileDiff_of_ofLine (ofLine_oldLine hp) (ofLine_newLine hp) hp.newline_notMem
    (getLast?_oldLine hp) hne hhunks

/-- The lines of one file and of a hunk whose last line is not ended. -/
private theorem linesOf_unended (hp : p.Printable) {h : Hunk} (hh : h.Printable) :
    linesOf (oldLine p ++ "\n" ++ newLine p ++ "\n" ++ h.format) =
      (oldLine p).toList :: (newLine p).toList :: h.header.toList ::
        h.lines.map fun line ↦ line.format.toList := by
  have hheader := Hunk.newline_notMem_header h
  have hbody := Hunk.newline_notMem_format hh.newline_notMem
  have hlinesOf {lines : List (List Char)} {rest : List Char}
      (hformat : h.format.toList = Lines.join lines rest) (hlines : ∀ line ∈ lines, '\n' ∉ line)
      (hrest : '\n' ∉ rest) : linesOf (oldLine p ++ "\n" ++ newLine p ++ "\n" ++ h.format) =
        (oldLine p).toList :: (newLine p).toList :: lines ++ if rest = [] then [] else [rest] := by
    rw [← String.ofList_toList (s := _ ++ h.format), ← linesOf_join_append _ hrest]
    · simp [hformat, Lines.join]
    · simpa using getLast?_oldLine hp
    · simpa [oldLine, newLine, hp.newline_notMem] using hlines
  -- A hunk without lines ends with its header, and any other with the last of its lines.
  rcases List.eq_nil_or_concat h.lines with hnil | ⟨front, last, hconcat⟩
  · have hformat : h.format.toList = Lines.join [h.header.toList] [] := by
      rw [Hunk.toList_format, hnil]
      rfl
    rw [hlinesOf hformat (by simpa using hheader) (by simp), hnil]
    rfl
  · rw [List.concat_eq_append] at hconcat
    have hformat : h.format.toList = Lines.join
        (h.header.toList :: front.map fun line ↦ line.format.toList) last.format.toList := by
      rw [Hunk.toList_format, hconcat, List.map_append, List.map_singleton,
        Lines.intercalate_concat]
      rfl
    have hlast : last.format.toList ≠ [] := by cases last <;> simp [HunkLine.format]
    simp only [hconcat, List.forall_mem_append, List.forall_mem_singleton] at hbody
    rw [hlinesOf hformat _ hbody.2, if_neg hlast, hconcat, List.map_append]
    · rfl
    · rw [List.forall_mem_cons, List.forall_mem_map]
      exact ⟨hheader, hbody.1⟩

/-- The diff of one file with one hunk, whose last line need not be ended. -/
theorem parse_unended (hp : p.Printable) {h : Hunk} (hh : h.Printable) :
    parse (oldLine p ++ "\n" ++ newLine p ++ "\n" ++ h.format) =
      .ok ⟨[⟨.modify, some p, some p, [h]⟩]⟩ := by
  have hreads := (reads_fileLines (ofLine_oldLine hp) (ofLine_newLine hp)).append
    (reads_header_body hh [] _)
  rw [List.cons_append, List.singleton_append, ← linesOf_unended hp hh] at hreads
  exact parse_of_reads_linesOf hreads (closes_fileLines p (by simp))

/-- A diff is not read whose first hunk has a side that no word can count. -/
theorem exists_parse_fileDiff_eq_error (hp : p.Printable) {h : Hunk}
    (hlength : UInt32.size ≤ h.oldLines.length ∨ UInt32.size ≤ h.newLines.length)
    (hhunks : ∀ other ∈ h :: hunks, ∀ line ∈ other.diffLines, '\n' ∉ line) :
    ∃ problem, parse (fileDiff p (h :: hunks)) = .error ⟨3, problem⟩ := by
  obtain ⟨problem, hproblem⟩ := OpenHunk.exists_ofHeader_header_eq_error hlength
  obtain ⟨r, hr, hat⟩ := reads_fileLines (ofLine_oldLine hp) (ofLine_newLine hp) .start
    Reader.at_of_hunk_eq_none
  have hheader : r.step h.header.toList = .error problem := by
    rw [hat.step_eq (head?_header h), ofLine_header, Reader.readNotation, hproblem]
    rfl
  have hlines := newline_notMem_fileDiffLines hp.newline_notMem hhunks
  have hfirst : ∀ line ∈ (fileDiffLines p (h :: hunks)).head?, line.getLast? ≠ some '\r' := by
    intro line hline
    have hline : (oldLine p).toList = line := by simpa [fileDiffLines] using hline
    rw [← hline]
    exact getLast?_oldLine hp
  obtain ⟨rest, hrest⟩ : ∃ rest, fileDiffLines p (h :: hunks) =
      [(oldLine p).toList, (newLine p).toList] ++ h.header.toList :: rest :=
    ⟨_, rfl⟩
  have hrun := Reader.run_append_of_error hr hheader 0 rest
  refine ⟨problem, ?_⟩
  rw [fileDiff_eq, parse, read, linesOf_join hlines hfirst, hrest, hrun]
  rfl

end FileDiff

end Diff

end Patchwork
