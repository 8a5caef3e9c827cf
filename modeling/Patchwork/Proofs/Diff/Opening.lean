import Patchwork.Proofs.Diff.Heading

/-!
# Files that only an opening line names

An empty file that comes or goes has no lines and so no hunks: the line that opens its section
names it twice, and nothing else does. The line is cut at the first lead of a new file that it
holds. A path in which nothing looks like this lead is read as it was meant, and any other is not
(`parse_emptyFileDiff_iff`).
-/

namespace Patchwork

/-- Nothing in the path looks like the lead of a new file, with the blank in front of it. -/
def Path.Seamless (p : Path) : Prop := ¬ " b/".toList <:+: p.spelling.toList

instance (p : Path) : Decidable p.Seamless :=
  inferInstanceAs (Decidable (¬ " b/".toList <:+: p.spelling.toList))

namespace Diff

/-- What the opening line of a section says behind its first words when both files are `p`. -/
def openingText (p : Path) : List Char :=
  "a/".toList ++ p.spelling.toList ++ (" b/".toList ++ p.spelling.toList)

/-- The section of an empty file: the line that opens it and one that says what happens to the
file. The latter need not be ended. -/
def emptyFileDiff (p : Path) (line : String) (ended : Bool) : String :=
  openingLine p p ++ "\n" ++ line ++ if ended then "\n" else ""

/-- The line for a file that comes. -/
def createdLine : String := "new file mode 100644"

/-- The line for a file that goes. -/
def deletedLine : String := "deleted file mode 100644"

/-- A header is cut at the first lead of a new file. -/
private theorem headerFiles_append {front back : List Char} (hfront : ¬ " b/".toList <:+: front) :
    Notation.headerFiles ("a/".toList ++ front ++ (" b/".toList ++ back)) =
      some (.ofChars front, .ofChars back) := by
  have hlead : ¬ " b/".toList <:+: "a/".toList ++ front := by
    simpa [List.infix_cons_iff, List.cons_prefix_cons] using hfront
  have hcut : Text.cut? " b/".toList ("a/".toList ++ front ++ (" b/".toList ++ back)) =
      some ("a/".toList ++ front, back) :=
    (Text.cut?_eq_some_iff (by decide)).2 ⟨rfl, hlead⟩
  rw [Notation.headerFiles, hcut, Option.map_some, Text.dropLead, Text.after?_append]
  rfl

/-- Both files of a seamless path are the path. -/
private theorem headerFiles_of_seamless {p : Path} (hp : p.Seamless) :
    Notation.headerFiles (openingText p) = some (p, p) := by
  rw [openingText, headerFiles_append hp, Path.ofChars, String.ofList_toList]

/-- The first lead in a path parts what is said of it. -/
private theorem headerFiles_of_seam {p : Path} {front back : String}
    (hp : p.spelling = front ++ " b/" ++ back) (hfront : Path.Seamless ⟨front⟩) :
    Notation.headerFiles (openingText p) = some (⟨front⟩, ⟨back ++ " b/" ++ p.spelling⟩) := by
  have htext : openingText p = "a/".toList ++ front.toList ++
      (" b/".toList ++ (back ++ " b/" ++ p.spelling).toList) := by
    simp [openingText, hp]
  rw [htext, headerFiles_append hfront, Path.ofChars, Path.ofChars, String.ofList_toList,
    String.ofList_toList]

/-- In a path that is not seamless there is a first lead. -/
private theorem exists_seam {p : Path} (hp : ¬ p.Seamless) :
    ∃ front back : String, p.spelling = front ++ " b/" ++ back ∧ Path.Seamless ⟨front⟩ := by
  cases hcut : Text.cut? [' ', 'b', '/'] p.spelling.toList with
  | none => exact absurd (Text.cut?_eq_none_iff.1 hcut) hp
  | some parts =>
    obtain ⟨front, back⟩ := parts
    obtain ⟨hspelling, hfront⟩ := (Text.cut?_eq_some_iff (by decide)).1 hcut
    refine ⟨.ofList front, .ofList back, ?_, ?_⟩
    · rw [← String.toList_inj, hspelling]
      simp
    · simpa [Path.Seamless] using hfront

section Reading

variable {p : Path} (hnewline : '\n' ∉ p.spelling.toList) (hreturn : '\r' ∉ p.spelling.toList)

include hreturn

private theorem getLast?_openingLine_self : (openingLine p p).toList.getLast? ≠ some '\r' := by
  have hmem : '\r' ∉ (openingLine p p).toList := by simp [openingLine, hreturn]
  exact fun hlast ↦ hmem (List.mem_of_getLast? hlast)

/-- The line is read for the files that its header is cut into. -/
private theorem ofLine_openingLine_self :
    Notation.ofLine (openingLine p p).toList =
      .section (Notation.headerFiles (openingText p)) := by
  have hline : (openingLine p p).toList = "diff --git ".toList ++ openingText p := by
    simp [openingLine, openingText]
  rw [Notation.ofLine, Notation.dropReturn, if_neg (getLast?_openingLine_self hreturn), hline]
  rfl

include hnewline

/-- The section of an empty file has two lines, whether or not the second is ended. -/
private theorem linesOf_emptyFileDiff {line : String} (hline : '\n' ∉ line.toList)
    (hne : line ≠ "") (ended : Bool) :
    linesOf (emptyFileDiff p line ended) = [(openingLine p p).toList, line.toList] := by
  have hopening : '\n' ∉ (openingLine p p).toList := by simp [openingLine, hnewline]
  have hlast := getLast?_openingLine_self hreturn
  cases ended with
  | false =>
    have htext : emptyFileDiff p line false =
        .ofList (Lines.join [(openingLine p p).toList] line.toList) := by
      rw [← String.toList_inj]
      simp [emptyFileDiff, Lines.join]
    rw [htext, linesOf_join_append (by simpa using hopening) hline (by simpa using hlast),
      if_neg (by simpa using hne)]
    rfl
  | true =>
    have htext : emptyFileDiff p line true =
        .ofList (Lines.join [(openingLine p p).toList, line.toList] []) := by
      rw [← String.toList_inj]
      simp [emptyFileDiff, Lines.join]
    rw [htext, linesOf_join (by simpa using ⟨hopening, hline⟩) (by simpa using hlast)]

/-- The section of an empty file is what its second line makes of the files that are named. -/
private theorem parse_emptyFileDiff {line : String} {s : Section} {reading : Reading}
    (hline : '\n' ∉ line.toList) (hne : line ≠ "") (hhead : line.toList.head? ≠ some '\\')
    (hs : Reader.readNotation
      ⟨[], some (.opened (Notation.headerFiles (openingText p))), none⟩ (.ofLine line.toList) =
        .ok ⟨[], some s, none⟩)
    (hreading : s.reading = .ok reading) (ended : Bool) :
    parse (emptyFileDiff p line ended) = .ok ⟨[reading].filterMap Reading.change?⟩ := by
  have hopening : Reads [(openingLine p p).toList] ([], none)
      ([], some (.opened (Notation.headerFiles (openingText p)))) := by
    refine Reads.singleton (by simp [openingLine]) ?_
    rw [ofLine_openingLine_self hreturn]
    rfl
  have hreads := hopening.append (Reads.singleton hhead hs)
  rw [List.singleton_append, ← linesOf_emptyFileDiff hnewline hreturn hline hne ended] at hreads
  exact parse_of_reads_linesOf hreads (closes_of_reading hreading)

variable {old new : Path} (hfiles : Notation.headerFiles (openingText p) = some (old, new))

include hfiles

/-- An empty file that comes is the new one of those that are named. -/
private theorem parse_createdLine (ended : Bool) :
    parse (emptyFileDiff p createdLine ended) = .ok ⟨[⟨.add, none, some new, []⟩]⟩ := by
  have hnote : Reader.readNotation
      ⟨[], some (.opened (Notation.headerFiles (openingText p))), none⟩
        (.ofLine createdLine.toList) =
      .ok ⟨[], some { Section.opened (some (old, new)) with created := true }, none⟩ := by
    rw [hfiles]
    rfl
  exact parse_emptyFileDiff hnewline hreturn (by decide) (by decide) (by decide) hnote rfl ended

/-- An empty file that goes is the old one of those that are named. -/
private theorem parse_deletedLine (ended : Bool) :
    parse (emptyFileDiff p deletedLine ended) = .ok ⟨[⟨.delete, some old, none, []⟩]⟩ := by
  have hnote : Reader.readNotation
      ⟨[], some (.opened (Notation.headerFiles (openingText p))), none⟩
        (.ofLine deletedLine.toList) =
      .ok ⟨[], some { Section.opened (some (old, new)) with deleted := true }, none⟩ := by
    rw [hfiles]
    rfl
  exact parse_emptyFileDiff hnewline hreturn (by decide) (by decide) (by decide) hnote rfl ended

end Reading

/-- An empty file that comes or goes is the one that the opening line of its section names twice,
provided that nothing in its path looks like the lead of a new file. Otherwise the first such lead
in the path parts the line: what is in front of it is taken for the old file, which goes, and all
that is behind it for the new one, which comes. -/
theorem parse_emptyFileDiff_iff {p : Path} (hnewline : '\n' ∉ p.spelling.toList)
    (hreturn : '\r' ∉ p.spelling.toList) (ended : Bool) :
    (parse (emptyFileDiff p createdLine ended) = .ok ⟨[⟨.add, none, some p, []⟩]⟩ ↔ p.Seamless) ∧
    (parse (emptyFileDiff p deletedLine ended) = .ok ⟨[⟨.delete, some p, none, []⟩]⟩ ↔
      p.Seamless) ∧
    ∀ front back : String, p.spelling = front ++ " b/" ++ back → Path.Seamless ⟨front⟩ →
      parse (emptyFileDiff p createdLine ended) =
          .ok ⟨[⟨.add, none, some ⟨back ++ " b/" ++ p.spelling⟩, []⟩]⟩ ∧
        parse (emptyFileDiff p deletedLine ended) = .ok ⟨[⟨.delete, some ⟨front⟩, none, []⟩]⟩ := by
  have hseam (front back : String) (hspelling : p.spelling = front ++ " b/" ++ back)
      (hfront : Path.Seamless ⟨front⟩) :
      parse (emptyFileDiff p createdLine ended) =
          .ok ⟨[⟨.add, none, some ⟨back ++ " b/" ++ p.spelling⟩, []⟩]⟩ ∧
        parse (emptyFileDiff p deletedLine ended) = .ok ⟨[⟨.delete, some ⟨front⟩, none, []⟩]⟩ := by
    have hfiles := headerFiles_of_seam hspelling hfront
    exact ⟨parse_createdLine hnewline hreturn hfiles ended,
      parse_deletedLine hnewline hreturn hfiles ended⟩
  by_cases hp : p.Seamless
  · have hfiles := headerFiles_of_seamless hp
    exact ⟨iff_of_true (parse_createdLine hnewline hreturn hfiles ended) hp,
      iff_of_true (parse_deletedLine hnewline hreturn hfiles ended) hp, hseam⟩
  · obtain ⟨front, back, hspelling, hfront⟩ := exists_seam hp
    obtain ⟨hcreated, hdeleted⟩ := hseam front back hspelling hfront
    -- Either of the two has another length than the path.
    have hlength : p.spelling.length = front.length + 3 + back.length := by
      rw [hspelling, String.length_append, String.length_append]
      rfl
    have hnew : (⟨back ++ " b/" ++ p.spelling⟩ : Path) ≠ p := by
      intro heq
      have hsame := congrArg (fun q : Path ↦ q.spelling.length) heq
      have hlead : " b/".length = 3 := rfl
      simp only [String.length_append, hlead] at hsame
      omega
    have hold : (⟨front⟩ : Path) ≠ p := by
      rintro rfl
      dsimp only at hlength
      omega
    refine ⟨iff_of_false ?_ hp, iff_of_false ?_ hp, hseam⟩
    · rw [hcreated]
      simpa using hnew
    · rw [hdeleted]
      simpa using hold

section Instance

/-- A path with a blank at its end and a directory that is called as the lead. -/
def blankPath : Path := ⟨"b/ c /b "⟩

/-- A path in which something looks like the lead of a new file. -/
def seamyPath : Path := ⟨"x b/y"⟩

theorem parse_emptyFileDiff_iff_blankPath :
    '\n' ∉ blankPath.spelling.toList ∧ '\r' ∉ blankPath.spelling.toList ∧
      parse (emptyFileDiff blankPath createdLine true) =
        .ok ⟨[⟨.add, none, some blankPath, []⟩]⟩ ∧
      parse (emptyFileDiff blankPath deletedLine false) =
        .ok ⟨[⟨.delete, some blankPath, none, []⟩]⟩ ∧
      '\n' ∉ seamyPath.spelling.toList ∧ '\r' ∉ seamyPath.spelling.toList ∧
      seamyPath.spelling = "x" ++ " b/" ++ "y" ∧ Path.Seamless ⟨"x"⟩ ∧
      parse (emptyFileDiff seamyPath deletedLine true) =
        .ok ⟨[⟨.delete, some ⟨"x"⟩, none, []⟩]⟩ := by
  have hnewline : '\n' ∉ blankPath.spelling.toList := by decide
  have hreturn : '\r' ∉ blankPath.spelling.toList := by decide
  have hseamless : blankPath.Seamless := by decide
  have hnewline' : '\n' ∉ seamyPath.spelling.toList := by decide
  have hreturn' : '\r' ∉ seamyPath.spelling.toList := by decide
  have hx : Path.Seamless ⟨"x"⟩ := by decide
  exact ⟨hnewline, hreturn, (parse_emptyFileDiff_iff hnewline hreturn true).1.2 hseamless,
    (parse_emptyFileDiff_iff hnewline hreturn false).2.1.2 hseamless, hnewline', hreturn', rfl, hx,
    ((parse_emptyFileDiff_iff hnewline' hreturn' true).2.2 "x" "y" rfl hx).2⟩

/-- The diff of an empty file that goes is read as the deletion of another one, and that of an empty
file that comes makes another one. -/
theorem exists_emptyFileDiff_misread :
    ∃ p : Path, p.spelling ≠ "" ∧ '\n' ∉ p.spelling.toList ∧ '\r' ∉ p.spelling.toList ∧
      parse (emptyFileDiff p createdLine true) ≠ .ok ⟨[⟨.add, none, some p, []⟩]⟩ ∧
      parse (emptyFileDiff p createdLine true) =
        .ok ⟨[⟨.add, none, some ⟨"y b/x b/y"⟩, []⟩]⟩ ∧
      parse (emptyFileDiff p deletedLine true) ≠ .ok ⟨[⟨.delete, some p, none, []⟩]⟩ ∧
      parse (emptyFileDiff p deletedLine true) = .ok ⟨[⟨.delete, some ⟨"x"⟩, none, []⟩]⟩ := by
  have hcreated : parse (emptyFileDiff seamyPath createdLine true) =
      .ok ⟨[⟨.add, none, some ⟨"y b/x b/y"⟩, []⟩]⟩ := by
    decide +kernel
  have hdeleted : parse (emptyFileDiff seamyPath deletedLine true) =
      .ok ⟨[⟨.delete, some ⟨"x"⟩, none, []⟩]⟩ := by
    decide +kernel
  refine ⟨seamyPath, by decide, by decide, by decide, ?_, hcreated, ?_, hdeleted⟩
  · rw [hcreated]
    decide
  · rw [hdeleted]
    decide

end Instance

end Diff

end Patchwork
