import Patchwork.Proofs.Diff.Concatenation
import Patchwork.Proofs.Text.Cut

/-!
# Noise between hunks

A line that says nothing is skipped where no hunk wants lines: it closes the hunk that has all its
lines, as any line behind it would, unless that is a marker. So what follows is read as it is
without the line, one line further down. Main statement: `parse_insert_noise`.
-/

namespace Patchwork.Diff

/-- The words with which a line begins that says something outside of hunks, and the backslash with
which a marker does. -/
def tellingLeads : List String :=
  ["diff --git ", "@@", "--- ", "+++ ", "new file mode", "deleted file mode", "rename from ",
    "rename to ", "copy from ", "copy to ", "Binary files ", "\\"]

/-- A line that says nothing outside of hunks. -/
structure Noise (line : String) : Prop where
  newline_notMem : '\n' ∉ line.toList
  return_notMem : '\r' ∉ line.toList
  not_isPrefix : ∀ lead ∈ tellingLeads, ¬ lead.toList <+: line.toList
  ne_binary : line ≠ "GIT binary patch"

/-- The lines of the text can be read, and no hunk wants lines behind them. -/
def BetweenHunks (text : String) : Prop :=
  ∃ r, Reader.start.readLines (linesOf text) = .ok r ∧ r.hunk.all OpenHunk.isComplete = true

namespace Notation

/-- A line that begins with none of the leads says nothing. -/
theorem read_eq_other {line : List Char} (hbinary : line ≠ "GIT binary patch".toList)
    {readings : List (String × (List Char → Notation))}
    (h : ∀ entry ∈ readings, ¬ entry.1.toList <+: line) : read line readings = .other := by
  induction readings with
  | nil => exact if_neg hbinary
  | cons entry readings ih =>
    rw [List.forall_mem_cons] at h
    rw [read, Text.after?_eq_none_iff.2 h.1]
    exact ih h.2

end Notation

namespace Noise

variable {line : String} (h : Noise line)

include h

theorem ofLine_eq_other : Notation.ofLine line.toList = .other := by
  have hreturn : line.toList.getLast? ≠ some '\r' := fun hlast ↦
    h.return_notMem (List.mem_of_getLast? hlast)
  have hbinary : line.toList ≠ "GIT binary patch".toList := fun heq ↦
    h.ne_binary (String.toList_inj.1 heq)
  have htelling : ∀ entry ∈ Notation.leads, entry.1 ∈ tellingLeads := by
    simp [Notation.leads, tellingLeads]
  rw [Notation.ofLine, Notation.dropReturn, if_neg hreturn]
  exact Notation.read_eq_other hbinary fun entry hentry ↦ h.not_isPrefix _ (htelling entry hentry)

theorem head?_ne : line.toList.head? ≠ some '\\' := by
  intro hhead
  obtain ⟨rest, hrest⟩ := List.head?_eq_some_iff.1 hhead
  refine h.not_isPrefix "\\" (by simp [tellingLeads]) ?_
  rw [hrest]
  exact ⟨rest, rfl⟩

/-- The line is the only one of the text that it makes up with a newline. -/
theorem linesOf_append_newline : linesOf (line ++ "\n") = [line.toList] := by
  have hjoin : line ++ "\n" = .ofList (Lines.join [line.toList] []) := by
    rw [← String.toList_inj, String.toList_ofList, String.toList_append]
    rfl
  rw [hjoin]
  refine linesOf_join (by simpa using h.newline_notMem) ?_
  intro first hfirst hlast
  cases hfirst
  exact h.return_notMem (List.mem_of_getLast? hlast)

end Noise

/-- The first line of a text begins as the text does. -/
theorem head?_eq_of_head?_linesOf {text : String} (hreturn : '\r' ∉ text.toList) {line : List Char}
    (hline : line ∈ (linesOf text).head?) {c : Char} (hc : line.head? = some c) :
    text.toList.head? = some c := by
  obtain ⟨others, rfl⟩ := List.head?_eq_some_iff.1 hc
  have hjoin := Lines.join_cut text.toList
  rw [linesOf_of_return_notMem hreturn] at hline
  rcases hcut : Lines.cut text.toList with ⟨_ | ⟨first, lines⟩, rest⟩
  · rw [hcut] at hline hjoin
    rw [← hjoin]
    cases rest with
    | nil => cases hline
    | cons d rest =>
      cases hline
      rfl
  · rw [hcut] at hline hjoin
    rw [← hjoin]
    cases hline
    rfl

/-- A line between two texts is read between their lines. -/
theorem linesOf_insert {t₁ t₂ line : String} (h₁ : '\r' ∉ t₁.toList) (h₂ : '\r' ∉ t₂.toList)
    (hend : t₁ = "" ∨ t₁.toList.getLast? = some '\n') (hline : Noise line) :
    linesOf (t₁ ++ line ++ "\n" ++ t₂) = linesOf t₁ ++ line.toList :: linesOf t₂ := by
  have hreturn : '\r' ∉ (line ++ "\n").toList := by simpa using hline.return_notMem
  have hended : (line ++ "\n").toList.getLast? = some '\n' := by simp
  have hrest : '\r' ∉ (line ++ "\n" ++ t₂).toList := by
    rw [String.toList_append, List.mem_append]
    exact not_or.2 ⟨hreturn, h₂⟩
  have hassoc : t₁ ++ line ++ "\n" ++ t₂ = t₁ ++ (line ++ "\n" ++ t₂) := by
    simp only [String.append_assoc]
  rw [hassoc, linesOf_append h₁ hrest hend, linesOf_append hreturn h₂ (.inr hended),
    hline.linesOf_append_newline]
  rfl

/-- A document is read when no error is met. -/
theorem parse_eq_ok_iff_read {text : String} {d : Document} :
    parse text = .ok d ↔
      (read text).2 = none ∧ ⟨(read text).1.finished.filterMap Reading.change?⟩ = d := by
  rw [parse]
  rcases read text with ⟨r, _ | e⟩ <;> simp [Reader.changes]

theorem parse_eq_error_iff_read {text : String} {e : DiffError} :
    parse text = .error e ↔ (read text).2 = some e := by
  rw [parse]
  rcases read text with ⟨r, _ | e⟩ <;> simp

namespace Reader

variable {r : Reader} {finished : List Reading} {current : Option Section}

/-- A line that says nothing closes the hunk and does nothing else. -/
theorem At.step_noise (h : r.At finished current) {line : String} (hline : Noise line) :
    r.step line.toList = .ok ⟨finished, current, none⟩ := by
  rw [h.step_eq hline.head?_ne, hline.ofLine_eq_other]
  rfl

/-- Lines of which the first is no marker are read as if the hunk had been closed before. -/
theorem At.run_eq (h : r.At finished current) {lines : List (List Char)}
    (hfirst : ∀ line ∈ lines.head?, line.head? ≠ some '\\') (count : Nat) :
    (run ⟨finished, current, none⟩ count lines).1.finished = (r.run count lines).1.finished ∧
      (run ⟨finished, current, none⟩ count lines).2 = (r.run count lines).2 := by
  have hclosed : (⟨finished, current, none⟩ : Reader).At finished current := at_of_hunk_eq_none
  cases lines with
  | nil =>
    rw [run, run, h.finish_eq, hclosed.finish_eq]
    split
    · exact ⟨rfl, rfl⟩
    · exact ⟨h.finished_eq.symm, rfl⟩
  | cons line lines =>
    rw [run, run, h.step_eq (hfirst line rfl), hclosed.step_eq (hfirst line rfl)]
    split
    · exact ⟨rfl, rfl⟩
    · exact ⟨h.finished_eq.symm, rfl⟩

/-- Where more lines have been read before, an error is that many lines further down. -/
theorem run_add (r : Reader) (count more : Nat) (lines : List (List Char)) :
    r.run (count + more) lines =
      ((r.run count lines).1, (r.run count lines).2.map fun e ↦ ⟨e.line + more, e.problem⟩) := by
  induction lines generalizing r count with
  | nil =>
    rw [run, run]
    cases r.finish <;> rfl
  | cons line lines ih =>
    rw [run, run]
    cases r.step line with
    | error problem => simp [Nat.add_right_comm]
    | ok r' =>
      rw [Nat.add_right_comm]
      exact ih r' (count + 1)

/-- A line that says nothing does not matter to the lines behind it, but for their number. -/
theorem At.run_noise (h : r.At finished current) {line : String} (hline : Noise line)
    {lines : List (List Char)} (hfirst : ∀ line ∈ lines.head?, line.head? ≠ some '\\')
    (count : Nat) :
    (r.run count (line.toList :: lines)).1.finished = (r.run count lines).1.finished ∧
      (r.run count (line.toList :: lines)).2 =
        (r.run count lines).2.map fun e ↦ ⟨e.line + 1, e.problem⟩ := by
  obtain ⟨hfinished, herror⟩ := h.run_eq hfirst count
  rw [run, h.step_noise hline]
  simp only [run_add, hfinished, herror, and_self]

end Reader

/-- A line that says nothing can be put in between two hunks, or anywhere outside of hunks, if no
marker stands behind it: the diff stands for the same document and gives the same reports, and if it
cannot be read, it is for the same problem, one line further down. -/
theorem parse_insert_noise {t₁ t₂ line : String} (h₁ : '\r' ∉ t₁.toList) (h₂ : '\r' ∉ t₂.toList)
    (hend : t₁ = "" ∨ t₁.toList.getLast? = some '\n') (hbetween : BetweenHunks t₁)
    (hmarker : t₂.toList.head? ≠ some '\\') (hline : Noise line) :
    (∀ d, parse (t₁ ++ t₂) = .ok d → parse (t₁ ++ line ++ "\n" ++ t₂) = .ok d) ∧
      (∀ e, parse (t₁ ++ t₂) = .error e →
        parse (t₁ ++ line ++ "\n" ++ t₂) = .error ⟨e.line + 1, e.problem⟩) ∧
      events (t₁ ++ line ++ "\n" ++ t₂) = events (t₁ ++ t₂) := by
  obtain ⟨r, hread, hcomplete⟩ := hbetween
  have hfirst : ∀ first ∈ (linesOf t₂).head?, first.head? ≠ some '\\' := fun first hfirst hhead ↦
    hmarker (head?_eq_of_head?_linesOf h₂ hfirst hhead)
  obtain ⟨hfinished, herror⟩ :=
    (Reader.at_of_complete hcomplete).run_noise hline hfirst (0 + (linesOf t₁).length)
  rw [← Reader.run_append_of_ok hread, ← Reader.run_append_of_ok hread,
    ← linesOf_insert h₁ h₂ hend hline, ← linesOf_append h₁ h₂ hend] at hfinished herror
  constructor
  · intro d hd
    rw [parse_eq_ok_iff_read] at hd ⊢
    rw [read, hfinished, herror]
    exact ⟨Option.map_eq_none_iff.2 hd.1, hd.2⟩
  constructor
  · intro e he
    rw [parse_eq_error_iff_read] at he ⊢
    rw [read, herror]
    exact Option.map_eq_some_iff.2 ⟨e, he, rfl⟩
  · exact congrArg (List.filterMap Reading.event?) hfinished

section Instance

/-- A hunk without a section of its own. -/
def hunkText : String := "@@ -3 +3 @@\n-c\n+d\n"

/-- A line that looks like one of the hunk in front of it does not become one, nor does it part the
hunk behind it from the file. -/
theorem parse_insert_noise_lookalike :
    '\r' ∉ editText.toList ∧ '\r' ∉ hunkText.toList ∧ editText.toList.getLast? = some '\n' ∧
      BetweenHunks editText ∧ hunkText.toList.head? ≠ some '\\' ∧ Noise "+x" ∧
      parse (editText ++ "+x" ++ "\n" ++ hunkText) =
        .ok ⟨[⟨.modify, some ⟨"f"⟩, some ⟨"f"⟩,
          [⟨1, 1, [.remove "a", .add "b"]⟩, ⟨3, 3, [.remove "c", .add "d"]⟩]⟩]⟩ := by
  have h₁ : '\r' ∉ editText.toList := by decide
  have h₂ : '\r' ∉ hunkText.toList := by decide
  have hend : editText.toList.getLast? = some '\n' := by decide
  have hbetween : BetweenHunks editText := by
    let s := Section.opened (some (⟨"f"⟩, ⟨"f"⟩))
    refine ⟨⟨[], some { s with oldFile := .named ⟨"f"⟩, newFile := .named ⟨"f"⟩ },
      some ⟨1, 1, 0, 0, [.remove "a", .add "b"]⟩⟩, ?_, ?_⟩ <;> decide +kernel
  have hmarker : hunkText.toList.head? ≠ some '\\' := by decide
  have hnoise : Noise "+x" := ⟨by decide, by decide, by decide, by decide⟩
  refine ⟨h₁, h₂, hend, hbetween, hmarker, hnoise, ?_⟩
  refine (parse_insert_noise h₁ h₂ (.inr hend) hbetween hmarker hnoise).1 _ ?_
  decide +kernel

end Instance

end Patchwork.Diff
