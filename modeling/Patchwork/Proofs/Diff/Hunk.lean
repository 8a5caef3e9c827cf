import Patchwork.Proofs.Diff.Header
import Patchwork.Proofs.Diff.Reader

/-!
# Reading a printed hunk

A printed hunk is a header with the sizes of its sides and then its lines. The header is read
back as the numbers that were printed (`ofHeader_header`), and every line of the body fits as long
as the sizes are right. Main statement: `reads_diffLines`, the hunk joins the open section.
-/

namespace Patchwork

/-- The number whose digits are the range's start, and the number that follows the comma. -/
private def rangeText (start count : Nat) : List Char :=
  Nat.toDigits 10 start ++ ',' :: Nat.toDigits 10 count

private theorem mem_rangeText {start count : Nat} {c : Char} (h : c ∈ rangeText start count) :
    c.isDigit = true ∨ c = ',' := by
  simp only [rangeText, List.mem_append, List.mem_cons] at h
  rcases h with h | rfl | h
  · exact .inl (Text.isDigit_of_mem_toDigits h)
  · exact .inr rfl
  · exact .inl (Text.isDigit_of_mem_toDigits h)

private theorem word_rangeText {sign : Char} (hsign : Text.isBlank sign = false)
    (start count : Nat) : Text.Word (sign :: rangeText start count) := by
  refine ⟨List.cons_ne_nil _ _, List.forall_mem_cons.2 ⟨hsign, fun c hc ↦ ?_⟩⟩
  obtain hdigit | rfl := mem_rangeText hc
  · exact Text.isBlank_of_isDigit hdigit
  · decide

/-- The ranges of a header, with the words and signs around them. -/
private def headerText (oldStart oldCount newStart newCount : Nat) : List Char :=
  "@@ ".toList ++ (('-' :: rangeText oldStart oldCount) ++ ' ' ::
    (('+' :: rangeText newStart newCount) ++ " @@".toList))

namespace Hunk

/-- The numbers that are printed for a hunk: where either side starts, and how long it is. -/
private theorem toList_header (h : Hunk) :
    h.header.toList =
      headerText (printedStart h.oldStart h.oldLines.length) h.oldLines.length
        (printedStart h.newStart h.newLines.length) h.newLines.length := by
  simp [header, headerText, rangeText]
  rfl

end Hunk

/-- What a diff can say of a hunk: a marker is about the line before it, and a side without lines
is named by the line before it, so that line has a number. -/
structure Hunk.Printable (h : Hunk) : Prop where
  newline_notMem : ∀ line ∈ h.lines, ∀ text ∈ line.text?, '\n' ∉ text.toList
  head?_ne : h.lines.head? ≠ some .noNewline
  not_infix : ¬ [.noNewline, .noNewline] <:+: h.lines
  oldStart_pos : h.oldLines = [] → 0 < h.oldStart.toNat
  newStart_pos : h.newLines = [] → 0 < h.newStart.toNat
  oldLength_lt : h.oldLines.length < UInt32.size
  newLength_lt : h.newLines.length < UInt32.size

/-- The lines of a diff that a hunk takes up. A hunk without lines leaves an empty one. -/
def Hunk.diffLines (h : Hunk) : List (List Char) :=
  h.header.toList :: if h.lines = [] then [[]] else h.lines.map fun line ↦ line.format.toList

/-- A printed hunk is its header and then its lines, the last of which is not ended. -/
theorem Hunk.toList_format (h : Hunk) :
    h.format.toList =
      Lines.join [h.header.toList] (['\n'].intercalate (h.lines.map (·.format.toList))) := by
  have hnewline : "\n".toList = ['\n'] := rfl
  simp only [format, String.toList_append, String.toList_intercalate, hnewline, List.map_map,
    List.append_assoc, List.cons_append, List.nil_append, Lines.join]
  rfl

/-- A printed hunk is made up of its lines. -/
theorem Hunk.toList_format_append (h : Hunk) :
    (h.format ++ "\n").toList = Lines.join h.diffLines [] := by
  have hnewline : "\n".toList = ['\n'] := rfl
  rw [String.toList_append, toList_format, hnewline, Lines.join, Lines.join, diffLines, Lines.join]
  by_cases hlines : h.lines = []
  · simp [hlines, Lines.join]
  · have hmap : h.lines.map (fun line ↦ line.format.toList) ≠ [] := by simpa using hlines
    rw [if_neg hlines, ← Lines.intercalate_append_newline hmap]
    simp

/-- Printed hunks are made up of their lines. -/
theorem Hunk.toList_join_format (hunks : List Hunk) :
    (String.join (hunks.map fun h ↦ h.format ++ "\n")).toList =
      Lines.join (hunks.flatMap Hunk.diffLines) [] := by
  rw [String.toList_join, List.flatMap_map, Lines.join_flatMap]
  simp only [toList_format_append]

theorem Hunk.newline_notMem_header (h : Hunk) : '\n' ∉ h.header.toList := by
  have hrange (start count : Nat) : '\n' ∉ rangeText start count := fun hmem ↦ by
    rcases mem_rangeText hmem with hmem | hmem <;> contradiction
  simp [toList_header, headerText, hrange]

theorem Hunk.newline_notMem_format {h : Hunk}
    (hh : ∀ line ∈ h.lines, ∀ text ∈ line.text?, '\n' ∉ text.toList) :
    ∀ line ∈ h.lines, '\n' ∉ line.format.toList := by
  intro line hline
  have htext := hh line hline
  cases line <;> simp_all [HunkLine.format, HunkLine.text?]

/-- The lines of a printed hunk take up one line of the diff each. -/
theorem Hunk.newline_notMem_diffLines {h : Hunk}
    (hh : ∀ line ∈ h.lines, ∀ text ∈ line.text?, '\n' ∉ text.toList) :
    ∀ line ∈ h.diffLines, '\n' ∉ line := by
  rw [diffLines, List.forall_mem_cons]
  refine ⟨h.newline_notMem_header, ?_⟩
  split
  · simp
  · rw [List.forall_mem_map]
    exact newline_notMem_format hh

namespace Diff

namespace OpenHunk

private theorem spelledRanges?_headerText (a b c d : Nat) :
    spelledRanges? (headerText a b c d) = some (rangeText a b, rangeText c d) := by
  have hrange (start count : Nat) : '@' ∉ rangeText start count := fun h ↦ by
    obtain h | h := mem_rangeText h <;> exact absurd h (by decide)
  have htext : headerText a b c d =
      "@@ ".toList ++
        ([] ++ ('-' :: rangeText a b ++ ([' '] ++ ('+' :: rangeText c d ++ []))) ++
          " @@".toList) := by
    simp [headerText]
  rw [htext]
  exact spelledRanges?_of_words (by decide) (by decide) (by decide) (by decide)
    (word_rangeText (by decide) a b) (word_rangeText (by decide) c d) (hrange a b) (hrange c d)
    (.inr ⟨[], rfl⟩)

private theorem range?_rangeText (start count : Nat) :
    range? (rangeText start count) =
      match Text.wordOfNat? start, Text.wordOfNat? count with
      | some start, some count => some (start, count)
      | _, _ => none := by
  have hcomma : ¬ [','] <:+: Nat.toDigits 10 start := fun h ↦ by
    have := Text.isDigit_of_mem_toDigits (h.subset List.mem_cons_self)
    contradiction
  have hcut : Text.cut? [','] (rangeText start count) =
      some (Nat.toDigits 10 start, Nat.toDigits 10 count) :=
    (Text.cut?_eq_some_iff List.not_mem_nil).2 ⟨rfl, hcomma⟩
  cases hstart : Text.wordOfNat? start <;> cases hcount : Text.wordOfNat? count <;>
    simp only [range?, hcut, Text.word?_toDigits, hstart, hcount]

private theorem printedStart_lt_size (start : UInt32) (count : Nat) :
    Hunk.printedStart start count < UInt32.size := by
  have hstart := start.toNat_lt
  have hsize : UInt32.size = 2 ^ 32 := rfl
  rw [Hunk.printedStart]
  split <;> omega

private theorem firstLine_printedStart (start : UInt32) {count : Nat} (hcount : count < UInt32.size)
    (h : count = 0 → 0 < start.toNat) :
    firstLine (.ofNat (Hunk.printedStart start count), .ofNat count) = start := by
  have hstart := start.toNat_lt
  have hsize : UInt32.size = 2 ^ 32 := rfl
  rw [← UInt32.toNat_inj, toNat_firstLine, UInt32.toNat_ofNat_of_lt' hcount,
    UInt32.toNat_ofNat_of_lt' (printedStart_lt_size start count), Hunk.printedStart]
  by_cases hzero : count = 0
  · have hpos := h hzero
    rw [if_pos hzero, if_pos hzero]
    omega
  · rw [if_neg hzero, if_neg hzero]

/-- A printed header opens the hunk that it was printed for. -/
theorem ofHeader_header {h : Hunk} (hOld : h.oldLines.length < UInt32.size)
    (hNew : h.newLines.length < UInt32.size) (hold : h.oldLines = [] → 0 < h.oldStart.toNat)
    (hnew : h.newLines = [] → 0 < h.newStart.toNat) :
    ofHeader h.header.toList =
      .ok ⟨h.oldStart, h.newStart, h.oldLines.length, h.newLines.length, []⟩ := by
  have hword {n : Nat} (hn : n < UInt32.size) : Text.wordOfNat? n = some (.ofNat n) := if_pos hn
  have hrange (start : UInt32) {count : Nat} (h : count < UInt32.size) :
      range? (rangeText (Hunk.printedStart start count) count) =
        some (.ofNat (Hunk.printedStart start count), .ofNat count) := by
    rw [range?_rangeText, hword (printedStart_lt_size start count), hword h]
  rw [Hunk.toList_header, ofHeader, spelledRanges?_headerText]
  simp only [hrange _ hOld, hrange _ hNew,
    UInt32.toNat_ofNat_of_lt' hOld, UInt32.toNat_ofNat_of_lt' hNew]
  rw [firstLine_printedStart _ hOld fun h ↦ hold (List.length_eq_zero_iff.1 h),
    firstLine_printedStart _ hNew fun h ↦ hnew (List.length_eq_zero_iff.1 h)]

/-- The header of a hunk with a side that no word can count is not read. -/
theorem exists_ofHeader_header_eq_error {h : Hunk}
    (hlength : UInt32.size ≤ h.oldLines.length ∨ UInt32.size ≤ h.newLines.length) :
    ∃ problem, ofHeader h.header.toList = .error problem := by
  have hnone (start : Nat) {count : Nat} (hcount : UInt32.size ≤ count) :
      range? (rangeText start count) = none := by
    have hword : Text.wordOfNat? count = none := if_neg (Nat.not_lt.2 hcount)
    rw [range?_rangeText, hword]
    cases Text.wordOfNat? start <;> rfl
  rw [Hunk.toList_header, ofHeader, spelledRanges?_headerText]
  rcases hlength with hlength | hlength
  · simp only [hnone _ hlength]
    exact ⟨_, rfl⟩
  · simp only [hnone _ hlength]
    split <;> exact ⟨_, rfl⟩

/-- A hunk of which the lines `done` have been read and the lines `rest` are still to come. -/
private def partway (h : Hunk) (done rest : List HunkLine) : OpenHunk :=
  ⟨h.oldStart, h.newStart, (rest.filter HunkLine.isOld).length,
    (rest.filter HunkLine.isNew).length, done⟩

end OpenHunk

namespace Reader

open OpenHunk (partway)

/-- A line that is no marker is read: its sides want it, and then one line less. -/
private theorem step_text {r : Reader} {h : Hunk} {done rest : List HunkLine} {line : HunkLine}
    (hr : r.hunk = some (partway h done (line :: rest))) (hline : line ≠ .noNewline) :
    r.step line.format.toList =
      .ok { r with hunk := some (partway h (done ++ [line]) rest) } := by
  have hhead : line.format.toList.head? ≠ some '\\' := by
    cases line <;> simp_all [HunkLine.format]
  have hcomplete : (partway h done (line :: rest)).isComplete = false := by
    cases line <;> simp_all [partway, OpenHunk.isComplete, List.filter_cons, HunkLine.isOld,
      HunkLine.isNew]
  have hbody : OpenHunk.bodyLine? line.format.toList = some line := by
    cases line <;> simp_all [OpenHunk.bodyLine?, HunkLine.format]
  have hadd : (partway h done (line :: rest)).add? line =
      some (partway h (done ++ [line]) rest) := by
    cases line <;> simp_all [partway, OpenHunk.add?, List.filter_cons, HunkLine.isOld,
      HunkLine.isNew]
  simp [step, hr, hhead, hcomplete, OpenHunk.push?, hbody, hadd]

private theorem step_marker {r : Reader} {h : Hunk} {done rest : List HunkLine} {last : HunkLine}
    (hr : r.hunk = some (partway h (done ++ [last]) (.noNewline :: rest)))
    (hlast : last ≠ .noNewline) :
    r.step HunkLine.noNewline.format.toList =
      .ok { r with hunk := some (partway h (done ++ [last] ++ [.noNewline]) rest) } := by
  have hmark : (partway h (done ++ [last]) (.noNewline :: rest)).mark? =
      some (partway h (done ++ [last] ++ [.noNewline]) rest) := by
    cases last with
    | noNewline => exact absurd rfl hlast
    | context text | remove text | add text => simp [OpenHunk.mark?, partway, HunkLine.isOld,
        HunkLine.isNew]
  simp [step, hr, HunkLine.format, hmark]

/-- The body of a hunk is read to its end. -/
private theorem readLines_body {h : Hunk} (hh : h.Printable) {done rest : List HunkLine}
    (hlines : h.lines = done ++ rest) {r : Reader} (hr : r.hunk = some (partway h done rest)) :
    r.readLines (rest.map fun line ↦ line.format.toList) =
      .ok { r with hunk := some (partway h h.lines []) } := by
  induction rest generalizing done r with
  | nil =>
    rw [List.append_nil] at hlines
    rw [List.map_nil, readLines, hlines, ← hr]
  | cons line rest ih =>
    have hstep : r.step line.format.toList =
        .ok { r with hunk := some (partway h (done ++ [line]) rest) } := by
      by_cases hline : line = .noNewline
      · subst hline
        -- Something comes before the marker, and that is no marker.
        rcases List.eq_nil_or_concat done with rfl | ⟨before, last, rfl⟩
        · exact absurd (by rw [hlines]; rfl) hh.head?_ne
        · rw [List.concat_eq_append] at hlines hr ⊢
          refine step_marker hr fun hlast ↦ hh.not_infix ⟨before, rest, ?_⟩
          simp [hlines, hlast]
      · exact step_text hr hline
    rw [List.map_cons, readLines, hstep]
    exact ih (by rw [hlines, List.append_assoc, List.singleton_append]) rfl

end Reader

theorem head?_header (h : Hunk) : h.header.toList.head? ≠ some '\\' := by
  simp [Hunk.toList_header, headerText]

theorem ofLine_header (h : Hunk) :
    Notation.ofLine h.header.toList = .hunk h.header.toList := by
  have hlast : h.header.toList.getLast? ≠ some '\r' := by
    simp [Hunk.toList_header, headerText, List.getLast?_cons, List.getLast?_append]
  rw [Notation.ofLine, Notation.dropReturn, if_neg hlast, Hunk.toList_header]
  rfl

/-- A printed hunk joins the open section, whether or not its last line is ended. -/
theorem reads_header_body {h : Hunk} (hh : h.Printable) (finished : List Reading) (s : Section) :
    Reads (h.header.toList :: h.lines.map fun line ↦ line.format.toList) (finished, some s)
      (finished, some { s with hunks := s.hunks ++ [h] }) := by
  intro r hr
  have hheader : r.step h.header.toList =
      .ok ⟨finished, some s, some (OpenHunk.partway h [] h.lines)⟩ := by
    rw [hr.step_eq (head?_header h), ofLine_header, Reader.readNotation,
      OpenHunk.ofHeader_header hh.oldLength_lt hh.newLength_lt hh.oldStart_pos hh.newStart_pos]
    rfl
  rw [Reader.readLines, hheader]
  exact ⟨_, Reader.readLines_body hh rfl rfl, rfl, rfl⟩

/-- A printed hunk joins the open section. -/
theorem reads_diffLines {h : Hunk} (hh : h.Printable) (finished : List Reading) (s : Section) :
    Reads h.diffLines (finished, some s)
      (finished, some { s with hunks := s.hunks ++ [h] }) := by
  have hbody := reads_header_body hh finished s
  rw [Hunk.diffLines]
  split
  · next hlines =>
    rw [hlines] at hbody
    exact hbody.append (Reads.singleton (by simp) rfl)
  · exact hbody

/-- Printed hunks join the open section in order. -/
theorem reads_flatMap_diffLines {hunks : List Hunk} (hhunks : ∀ h ∈ hunks, h.Printable)
    (finished : List Reading) (s : Section) :
    Reads (hunks.flatMap Hunk.diffLines) (finished, some s)
      (finished, some { s with hunks := s.hunks ++ hunks }) := by
  induction hunks generalizing s with
  | nil =>
    rw [List.append_nil]
    exact Reads.nil _
  | cons h hunks ih =>
    have hfirst := reads_diffLines (hhunks h List.mem_cons_self) finished s
    have hrest := ih (fun other hother ↦ hhunks other (List.mem_cons_of_mem h hother))
      { s with hunks := s.hunks ++ [h] }
    rw [List.append_assoc, List.singleton_append] at hrest
    exact hfirst.append hrest

end Diff

end Patchwork
