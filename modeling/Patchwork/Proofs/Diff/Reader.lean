import Patchwork.Diff
import Patchwork.Proofs.Lines.Cut

/-!
# Reading several lines of a diff

What a reader has understood is known up to a hunk that has all its lines and waits to be closed:
`Reader.At` names the finished sections and the open one as they will be when it is. `Reads`
says where some lines lead from there, and such statements compose (`Reads.append`).
-/

namespace Patchwork.Diff

/-- The lines of a text, the last of which need not be ended. A carriage return at the end of the
first line would be taken for a part of every line's end. -/
theorem linesOf_join_append {lines : List (List Char)} {rest : List Char}
    (hlines : ∀ line ∈ lines, '\n' ∉ line) (hrest : '\n' ∉ rest)
    (hfirst : ∀ line ∈ lines.head?, line.getLast? ≠ some '\r') :
    linesOf (.ofList (Lines.join lines rest)) = lines ++ if rest = [] then [] else [rest] := by
  have hstyle : Lines.style lines ≠ .crlf := by
    cases lines with
    | nil => simp [Lines.style]
    | cons line lines => exact Lines.style_cons_ne_crlf.2 (hfirst line rfl)
  have hpart (line : List Char) : (Lines.part (Lines.style lines) line).1.toList = line := by
    rw [Lines.part_of_ne_crlf hstyle, String.toList_ofList]
  have hmap : lines.map ((fun line ↦ line.1.toList) ∘ Lines.part (Lines.style lines)) = lines :=
    List.map_id'' hpart lines
  simp only [linesOf, Lines.ofChars, String.toList_ofList, Lines.cut_join hlines hrest,
    List.map_append, List.map_map, hmap]
  split <;> simp

/-- The lines of a text that a newline ends everywhere. -/
theorem linesOf_join {lines : List (List Char)} (hlines : ∀ line ∈ lines, '\n' ∉ line)
    (hfirst : ∀ line ∈ lines.head?, line.getLast? ≠ some '\r') :
    linesOf (.ofList (Lines.join lines [])) = lines := by
  rw [linesOf_join_append hlines (by simp) hfirst, if_pos rfl, List.append_nil]

/-- The lines of a text hold no newlines. -/
theorem newline_notMem_linesOf (text : String) : ∀ line ∈ linesOf text, '\n' ∉ line := by
  obtain ⟨hlines, hrest⟩ := Lines.newline_notMem_cut text.toList
  have hpart (style : LineEnding) (line : List Char) (hline : '\n' ∉ line) :
      '\n' ∉ (Lines.part style line).1.toList := by
    rw [Lines.part]
    split
    · exact fun hmem ↦ hline (List.dropLast_subset line (by simpa using hmem))
    · simpa using hline
  intro line hline
  rw [linesOf, Lines.ofChars, List.map_append, List.mem_append, List.map_map, List.mem_map] at hline
  obtain ⟨ended, hended, rfl⟩ | hlast := hline
  · exact hpart _ ended (hlines ended hended)
  · split at hlast
    · cases hlast
    · rw [List.map_singleton, List.mem_singleton, String.toList_ofList] at hlast
      rwa [hlast]

namespace Reader

/-- Reads lines and goes on. -/
def readLines (r : Reader) : List (List Char) → Except Problem Reader
  | [] => .ok r
  | line :: lines =>
    match r.step line with
    | .ok r => r.readLines lines
    | .error problem => .error problem

theorem readLines_append_of_ok {r r' : Reader} {lines : List (List Char)}
    (h : r.readLines lines = .ok r') (others : List (List Char)) :
    r.readLines (lines ++ others) = r'.readLines others := by
  induction lines generalizing r with
  | nil =>
    cases h
    rfl
  | cons line lines ih =>
    simp only [readLines, List.cons_append] at h ⊢
    split at h
    · next hstep => exact ih h
    · cases h

/-- A run reads on after lines that could be read. -/
theorem run_append_of_ok {r r' : Reader} {lines : List (List Char)}
    (h : r.readLines lines = .ok r') (count : Nat) (others : List (List Char)) :
    r.run count (lines ++ others) = r'.run (count + lines.length) others := by
  induction lines generalizing r count with
  | nil =>
    cases h
    rfl
  | cons line lines ih =>
    simp only [readLines] at h
    split at h
    · next r₁ hstep =>
      rw [List.cons_append, run, hstep, List.length_cons]
      simp only [ih h (count + 1), Nat.add_assoc, Nat.add_comm 1]
    · cases h

/-- A run ends at a line that cannot be read. -/
theorem run_append_of_error {r r' : Reader} {lines : List (List Char)} {line : List Char}
    {problem : Problem} (h : r.readLines lines = .ok r') (hline : r'.step line = .error problem)
    (count : Nat) (others : List (List Char)) :
    r.run count (lines ++ line :: others) =
      (r', some ⟨count + lines.length + 1, problem⟩) := by
  rw [run_append_of_ok h, run, hline]

/-- One line is read, and then the others. -/
theorem readLines_cons_eq_ok_iff {r r' : Reader} {line : List Char} {lines : List (List Char)} :
    r.readLines (line :: lines) = .ok r' ↔
      ∃ r₁, r.step line = .ok r₁ ∧ r₁.readLines lines = .ok r' := by
  rw [readLines]
  cases r.step line <;> simp

/-- Lines can be read in one go when they can be read one stretch after the other. -/
theorem readLines_append_eq_ok_iff {r r' : Reader} {lines others : List (List Char)} :
    r.readLines (lines ++ others) = .ok r' ↔
      ∃ r₁, r.readLines lines = .ok r₁ ∧ r₁.readLines others = .ok r' := by
  induction lines generalizing r with
  | nil => simp [readLines]
  | cons line lines ih =>
    rw [List.cons_append, readLines, readLines]
    cases r.step line with
    | error problem => simp
    | ok r₁ => exact ih

/-- A run comes to its end when every line can be read and what is open then can be finished. -/
theorem run_eq_none_iff {r r' : Reader} {count : Nat} {lines : List (List Char)} :
    r.run count lines = (r', none) ↔ ∃ r₁, r.readLines lines = .ok r₁ ∧ r₁.finish = .ok r' := by
  induction lines generalizing r count with
  | nil =>
    rw [run, readLines]
    cases hfinish : r.finish <;> simp [hfinish]
  | cons line lines ih =>
    rw [run, readLines]
    cases r.step line with
    | error problem => simp
    | ok r₁ => exact ih

/-- A section that is closed is finished as what it comes to; none may be open. -/
theorem closeSection_eq_ok_iff {r r' : Reader} :
    r.closeSection = .ok r' ↔
      r.current = none ∧ r = r' ∨
        ∃ s, r.current = some s ∧ ∃ reading, s.reading = .ok reading ∧
          ⟨r.finished ++ [reading], none, r.hunk⟩ = r' := by
  rw [closeSection]
  cases r.current with
  | none => simp
  | some s => cases hreading : s.reading <;> simp [hreading, Except.map]

/-- A section is opened where the one before can be closed. -/
theorem openSection_eq_ok_iff {r r' : Reader} {header : Option (Path × Path)} :
    r.openSection header = .ok r' ↔
      ∃ closed, r.closeSection = .ok closed ∧
        { closed with current := some (.opened header) } = r' := by
  rw [openSection]
  cases r.closeSection <;> simp [Except.map]

theorem closeHunk_hunk (r : Reader) : r.closeHunk.hunk = none := by
  rw [closeHunk]
  split
  · next hnone => exact hnone
  · rfl

/-- Closing a section leaves the open hunk alone. -/
theorem hunk_of_closeSection {r r' : Reader} (h : r.closeSection = .ok r') : r'.hunk = r.hunk := by
  obtain ⟨-, rfl⟩ | ⟨s, -, reading, -, rfl⟩ := closeSection_eq_ok_iff.1 h <;> rfl

/-- No open hunk wants lines, and closing it leaves these finished sections and this open one. -/
structure At (r : Reader) (finished : List Reading) (current : Option Section) : Prop where
  complete : r.hunk.all OpenHunk.isComplete = true
  closeHunk_eq : r.closeHunk = ⟨finished, current, none⟩

variable {r : Reader} {finished : List Reading} {current : Option Section}

/-- Closing the open hunk is all that the reader has left to do there. -/
theorem at_of_hunk_eq_none : (⟨finished, current, none⟩ : Reader).At finished current :=
  ⟨rfl, rfl⟩

/-- A reader whose hunk wants no lines is where closing that hunk leads to. -/
theorem at_of_complete (h : r.hunk.all OpenHunk.isComplete = true) :
    r.At r.closeHunk.finished r.closeHunk.current := by
  refine ⟨h, ?_⟩
  conv => rhs; rw [← r.closeHunk_hunk]

/-- Closing a hunk finishes no section. -/
theorem At.finished_eq (h : r.At finished current) : r.finished = finished := by
  have hclose := congrArg Reader.finished h.closeHunk_eq
  rw [closeHunk] at hclose
  split at hclose
  · exact hclose
  · exact hclose

/-- A line that is no marker closes the hunk and is read as one outside of hunks. -/
theorem At.step_eq (h : r.At finished current) {line : List Char} (hline : line.head? ≠ some '\\') :
    r.step line = readNotation ⟨finished, current, none⟩ (.ofLine line) := by
  rw [← h.closeHunk_eq]
  cases hr : r.hunk with
  | none => simp only [step, closeHunk, hr]
  | some hunk =>
    have hcomplete : hunk.isComplete = true := by simpa [hr] using h.complete
    simp only [step, hr, hline, if_false, hcomplete, if_true]

/-- At the end of the diff the open section is closed. -/
theorem At.finish_eq (h : r.At finished current) :
    r.finish = closeSection ⟨finished, current, none⟩ := by
  rw [finish, if_pos h.complete, h.closeHunk_eq]

end Reader

/-- Reading the lines leads from one place in a diff to another, whether or not the last hunk of
the first has been closed yet. -/
def Reads (lines : List (List Char)) (before after : List Reading × Option Section) : Prop :=
  ∀ r : Reader, r.At before.1 before.2 → ∃ r', r.readLines lines = .ok r' ∧ r'.At after.1 after.2

namespace Reads

variable {lines others : List (List Char)} {a b c : List Reading × Option Section}

theorem nil (a : List Reading × Option Section) : Reads [] a a := fun r h ↦ ⟨r, rfl, h⟩

/-- What two stretches of a diff say is said by both in a row. -/
theorem append (h : Reads lines a b) (h' : Reads others b c) : Reads (lines ++ others) a c := by
  intro r hr
  obtain ⟨r₁, hlines, h₁⟩ := h r hr
  obtain ⟨r₂, hothers, h₂⟩ := h' r₁ h₁
  exact ⟨r₂, (Reader.readLines_append_of_ok hlines others).trans hothers, h₂⟩

/-- One line outside of hunks. -/
theorem singleton {line : List Char} {finished : List Reading} {current : Option Section}
    (hline : line.head? ≠ some '\\')
    (h : Reader.readNotation ⟨a.1, a.2, none⟩ (.ofLine line) = .ok ⟨finished, current, none⟩) :
    Reads [line] a (finished, current) := by
  intro r hr
  refine ⟨⟨finished, current, none⟩, ?_, Reader.at_of_hunk_eq_none⟩
  rw [Reader.readLines, hr.step_eq hline, h]
  rfl

end Reads

/-- Closing the open section at a place in a diff leaves these sections finished. -/
def Closes (a : List Reading × Option Section) (finished : List Reading) : Prop :=
  Reader.closeSection ⟨a.1, a.2, none⟩ = .ok ⟨finished, none, none⟩

/-- An open section is finished as what it comes to. -/
theorem closes_of_reading {finished : List Reading} {s : Section} {reading : Reading}
    (h : s.reading = .ok reading) : Closes (finished, some s) (finished ++ [reading]) := by
  simp only [Closes, Reader.closeSection, h, Except.map]

/-- A diff stands for a document when its lines can be read to their end. -/
theorem parse_eq_ok_iff {text : String} {d : Document} :
    parse text = .ok d ↔
      ∃ r r', Reader.start.readLines (linesOf text) = .ok r ∧ r.finish = .ok r' ∧
        ⟨r'.changes⟩ = d := by
  rw [parse, read]
  rcases hrun : Reader.start.run 0 (linesOf text) with ⟨r', _ | e⟩
  · obtain ⟨r, hr, hfinish⟩ := Reader.run_eq_none_iff.1 hrun
    simp only [Except.ok.injEq, hr, exists_and_left, exists_eq_left', hfinish]
  · simp only [reduceCtorEq, false_iff, not_exists, not_and]
    intro r r'' hr hfinish
    have hnone : Reader.start.run 0 (linesOf text) = (r'', none) :=
      Reader.run_eq_none_iff.2 ⟨r, hr, hfinish⟩
    rw [hrun, Prod.mk.injEq] at hnone
    cases hnone.2

/-- A diff stands for its finished sections, the last of which its end closes. -/
theorem parse_of_reads_linesOf {text : String} {after : List Reading × Option Section}
    {finished : List Reading} (h : Reads (linesOf text) ([], none) after)
    (hclose : Closes after finished) : parse text = .ok ⟨finished.filterMap Reading.change?⟩ := by
  obtain ⟨r, hr, hat⟩ := h .start Reader.at_of_hunk_eq_none
  exact parse_eq_ok_iff.2 ⟨r, _, hr, hat.finish_eq.trans hclose, rfl⟩

/-- A diff in which a newline ends every line. -/
theorem parse_of_reads {lines : List (List Char)} {after : List Reading × Option Section}
    {finished : List Reading} (hlines : ∀ line ∈ lines, '\n' ∉ line)
    (hfirst : ∀ line ∈ lines.head?, line.getLast? ≠ some '\r')
    (h : Reads lines ([], none) after) (hclose : Closes after finished) :
    parse (.ofList (Lines.join lines [])) = .ok ⟨finished.filterMap Reading.change?⟩ :=
  parse_of_reads_linesOf ((linesOf_join hlines hfirst).symm ▸ h) hclose

end Patchwork.Diff
