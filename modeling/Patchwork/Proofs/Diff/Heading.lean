import Patchwork.Proofs.Diff.Reader
import Patchwork.Proofs.Text.Cut

/-!
# Reading the heading of a section

The lines before a section's hunks name files. A path is read back from such a line when it is
`Path.Printable`, whatever else it looks like: the readings go by the lead of the line alone.
-/

namespace Patchwork

/-- A path that a diff can name: it takes up one line, and neither a tab in it nor blanks at its
end would be cut off. -/
structure Path.Printable (p : Path) : Prop where
  newline_notMem : '\n' ∉ p.spelling.toList
  tab_notMem : '\t' ∉ p.spelling.toList
  isBlank_getLast? : ∀ c ∈ p.spelling.toList.getLast?, Text.isBlank c = false

instance (p : Path) : Decidable p.Printable :=
  decidable_of_iff
    ('\n' ∉ p.spelling.toList ∧ '\t' ∉ p.spelling.toList ∧
      p.spelling.toList.getLast?.all fun c ↦ !Text.isBlank c) <| by
    simp only [Option.all_eq_true, Bool.not_eq_true']
    exact ⟨fun ⟨hnewline, htab, hblank⟩ ↦ ⟨hnewline, htab, hblank⟩,
      fun ⟨hnewline, htab, hblank⟩ ↦ ⟨hnewline, htab, hblank⟩⟩

namespace Text

/-- A text that no blank ends has nothing to trim at its end. -/
theorem trimEnd_eq_self {text : List Char} (h : ∀ c ∈ text.getLast?, isBlank c = false) :
    trimEnd text = text := by
  rcases List.eq_nil_or_concat text with rfl | ⟨front, c, rfl⟩
  · rfl
  · rw [List.concat_eq_append] at h ⊢
    exact trimEnd_concat front (h c (by simp))

end Text

namespace Diff

/-- The line that opens the section about two paths. -/
def openingLine (old new : Path) : String :=
  "diff --git a/" ++ old.spelling ++ " b/" ++ new.spelling

/-- The line that names the old file. -/
def oldLine (p : Path) : String := "--- a/" ++ p.spelling

/-- The line that names the new file. -/
def newLine (p : Path) : String := "+++ b/" ++ p.spelling

variable {p : Path}

/-- A line that ends with a printable path keeps its end. -/
private theorem getLast?_ne_return (hp : p.Printable) {lead : List Char}
    (hlead : lead.getLast? ≠ some '\r') :
    (lead ++ p.spelling.toList).getLast? ≠ some '\r' := by
  rw [List.getLast?_append]
  cases hlast : p.spelling.toList.getLast? with
  | none => simpa using hlead
  | some c =>
    intro h
    have hc : c = '\r' := by simpa using h
    have hblank := hp.isBlank_getLast? c hlast
    rw [hc] at hblank
    exact absurd hblank (by decide)

private theorem ofLine_append (hp : p.Printable) {lead : List Char}
    (hlead : lead.getLast? ≠ some '\r') :
    Notation.ofLine (lead ++ p.spelling.toList) =
      Notation.read (lead ++ p.spelling.toList) Notation.leads := by
  rw [Notation.ofLine, Notation.dropReturn, if_neg (getLast?_ne_return hp hlead)]

/-- A path behind its side's lead is read back. The lead keeps it from naming the null device. -/
private theorem file_append (hp : p.Printable) {c : Char} (hc : c ≠ '/') (hblank : c ≠ '\t') :
    Notation.file [c, '/'] ([c, '/'] ++ p.spelling.toList) = some p := by
  have htab : '\t' ∉ [c, '/'] ++ p.spelling.toList := by
    simp [hp.tab_notMem, Ne.symm hblank]
  have hlast : ∀ d ∈ ([c, '/'] ++ p.spelling.toList).getLast?, Text.isBlank d = false := by
    rw [List.getLast?_append]
    cases hspelling : p.spelling.toList.getLast? with
    | none =>
      intro d hd
      have hd : '/' = d := by simpa using hd
      rw [← hd]
      decide
    | some last =>
      intro d hd
      have hd : last = d := by simpa using hd
      exact hp.isBlank_getLast? d (by rw [hspelling, hd]; rfl)
  have hnull : [c, '/'] ++ p.spelling.toList ≠ "/dev/null".toList := by simp [hc]
  have hbefore : Text.before ['\t'] ([c, '/'] ++ p.spelling.toList) =
      [c, '/'] ++ p.spelling.toList :=
    (Text.before_eq_iff List.not_mem_nil).2 ⟨fun h ↦ htab (h.subset List.mem_cons_self), .inl rfl⟩
  rw [Notation.file, hbefore, Text.trimEnd_eq_self hlast]
  simp only [if_neg hnull, Text.dropLead, Text.after?_append, Option.getD_some, Path.ofChars,
    String.ofList_toList]

/-- Nothing at the end of an opening line is a carriage return. -/
theorem getLast?_openingLine (old : Path) (hp : p.Printable) :
    (openingLine old p).toList.getLast? ≠ some '\r' := by
  rw [openingLine, String.toList_append]
  exact getLast?_ne_return hp (by simp [List.getLast?_cons, List.getLast?_append])

theorem getLast?_oldLine (hp : p.Printable) : (oldLine p).toList.getLast? ≠ some '\r' := by
  rw [oldLine, String.toList_append]
  exact getLast?_ne_return hp (by decide)

/-- The line that opens a section is read as such, whatever paths it is understood to name. -/
theorem ofLine_openingLine (old : Path) (hp : p.Printable) :
    ∃ files, Notation.ofLine (openingLine old p).toList = .section files := by
  refine ⟨Notation.headerFiles
    ("a/".toList ++ old.spelling.toList ++ " b/".toList ++ p.spelling.toList), ?_⟩
  have hlead : ("diff --git a/".toList ++ old.spelling.toList ++ " b/".toList).getLast? ≠
      some '\r' := by
    simp [List.getLast?_cons, List.getLast?_append]
  rw [openingLine, String.toList_append, String.toList_append, String.toList_append,
    ofLine_append hp hlead]
  rfl

/-- The line of the old file names it. -/
theorem ofLine_oldLine (hp : p.Printable) :
    Notation.ofLine (oldLine p).toList = .oldFile (some p) := by
  rw [oldLine, String.toList_append, ofLine_append hp (by decide),
    ← file_append hp (c := 'a') (by decide) (by decide)]
  rfl

/-- The line of the new file names it. -/
theorem ofLine_newLine (hp : p.Printable) :
    Notation.ofLine (newLine p).toList = .newFile (some p) := by
  rw [newLine, String.toList_append, ofLine_append hp (by decide),
    ← file_append hp (c := 'b') (by decide) (by decide)]
  rfl

/-- The lines of a move name the path as it stands there. -/
theorem ofLine_moveLines (hp : p.Printable) :
    Notation.ofLine ("rename from " ++ p.spelling).toList = .renameFrom p ∧
      Notation.ofLine ("rename to " ++ p.spelling).toList = .renameTo p ∧
      Notation.ofLine ("copy from " ++ p.spelling).toList = .copyFrom p ∧
      Notation.ofLine ("copy to " ++ p.spelling).toList = .copyTo p := by
  have hread : Path.ofChars p.spelling.toList = p := by rw [Path.ofChars, String.ofList_toList]
  refine ⟨?_, ?_, ?_, ?_⟩ <;>
  · rw [String.toList_append, ofLine_append hp (by decide)]
    conv => rhs; rw [← hread]
    rfl

end Diff

end Patchwork
