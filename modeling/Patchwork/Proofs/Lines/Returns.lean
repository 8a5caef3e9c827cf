import Patchwork.Proofs.Lines.Reread

/-!
# Texts with carriage returns in their newlines

`Lines.returned` puts a carriage return in front of every newline of a text. Where no carriage
return of the text belonged to an ending, the new ones do, and the lines are what they were: the set
that is read is `LineSet.withReturns` of the one that was read before (`ofText_withReturns`). Such a
set is written with a carriage return in every newline (`text_withReturns`).
-/

namespace Patchwork

namespace Lines

/-- The text with a carriage return in front of every newline. -/
def returned (text : List Char) : List Char :=
  text.flatMap fun c ↦ if c = '\n' then ['\r', '\n'] else [c]

/-- The text with a carriage return in front of every newline. -/
def withReturns (text : String) : String := .ofList (returned text.toList)

/-- The text of a line with a carriage return at its end. -/
def withReturn (text : String) : String := text ++ "\r"

theorem returned_append (text other : List Char) :
    returned (text ++ other) = returned text ++ returned other := List.flatMap_append

theorem returned_of_notMem {text : List Char} (h : '\n' ∉ text) : returned text = text := by
  induction text with
  | nil => rfl
  | cons c text ih =>
    rw [List.mem_cons, not_or] at h
    rw [returned, List.flatMap_cons, if_neg (Ne.symm h.1), ← returned, ih h.2]
    rfl

/-- The lines of the text have a carriage return at their end, and what follows them is as it
was. -/
theorem cut_returned (text : List Char) :
    cut (returned text) = ((cut text).1.map (· ++ ['\r']), (cut text).2) := by
  obtain ⟨hlines, hrest⟩ := newline_notMem_cut text
  have hjoin (lines : List (List Char)) (rest : List Char) (hlines : ∀ line ∈ lines, '\n' ∉ line)
      (hrest : '\n' ∉ rest) :
      returned (join lines rest) = join (lines.map (· ++ ['\r'])) rest := by
    induction lines with
    | nil => exact returned_of_notMem hrest
    | cons line lines ih =>
      rw [List.forall_mem_cons] at hlines
      have hnewline : '\n' :: join lines rest = ['\n'] ++ join lines rest := rfl
      rw [join, hnewline, returned_append, returned_append, returned_of_notMem hlines.1,
        ih hlines.2, List.map_cons, join, List.append_assoc]
      rfl
  conv => lhs; rw [← join_cut text, hjoin _ _ hlines hrest]
  refine cut_join (List.forall_mem_map.2 fun line hline hmem ↦ ?_) hrest
  obtain hmem | hmem := List.mem_append.1 hmem
  · exact hlines line hline hmem
  · exact absurd hmem (by decide)

/-- A text that ends with a newline still does, and no other. -/
theorem getLast?_returned (text : List Char) :
    (returned text).getLast? = some '\n' ↔ text.getLast? = some '\n' := by
  rw [getLast?_eq_newline_iff, getLast?_eq_newline_iff, cut_returned, ne_eq, List.map_eq_nil_iff]

/-- The carriage returns that were put in belong to the endings. -/
theorem style_cut_returned {text : List Char} (h : (cut text).1 ≠ []) :
    style (cut (returned text)).1 = .crlf := by
  rw [cut_returned]
  cases hlines : (cut text).1 with
  | nil => exact absurd hlines h
  | cons line lines => exact if_pos List.getLast?_concat

/-- A text in which no carriage return belongs to an ending has the same lines when they all have
one. -/
theorem ofChars_returned {text : List Char} (hne : (cut text).1 ≠ [])
    (hstyle : style (cut text).1 ≠ .crlf) :
    ofChars (returned text) = (ofChars text).map fun pair ↦ (pair.1, .crlf) := by
  have hreturned := style_cut_returned hne
  rw [cut_returned] at hreturned
  have hpart (line : List Char) :
      part .crlf (line ++ ['\r']) = ((part (style (cut text).1) line).1, .crlf) := by
    rw [part, if_pos ⟨rfl, List.getLast?_concat⟩, List.dropLast_concat, part_of_ne_crlf hstyle]
  simp only [ofChars, cut_returned, hreturned, List.map_append, List.map_map, Function.comp_def,
    hpart]
  split <;> rfl

end Lines

namespace LineSet

variable {s : LineSet} {text : String}

/-- The set in which carriage returns belong to all endings. -/
def withReturns (s : LineSet) : LineSet :=
  { s with endings := s.endings.map fun _ ↦ .crlf, style := .crlf }

/-- A text that gets carriage returns in its newlines is read as the same lines. -/
theorem ofText_withReturns (hnewline : '\n' ∈ text.toList) (hstyle : (ofText text).style ≠ .crlf) :
    ofText (Lines.withReturns text) = (ofText text).withReturns := by
  have hne := Lines.cut_ne_nil hnewline
  have hpieces := Lines.ofChars_returned hne hstyle
  have hmissing : ((Lines.returned text.toList).getLast? != some '\n') =
      (text.toList.getLast? != some '\n') := by
    rw [Bool.eq_iff_iff, bne_iff_ne, bne_iff_ne]
    exact (Lines.getLast?_returned text.toList).not
  simp only [ofText, withReturns, Lines.withReturns, String.toList_ofList, hpieces, hmissing,
    Lines.style_cut_returned hne, List.map_map, Function.comp_def]

section Text

private theorem returned_joinWith {missing : Bool} {lines : List (List Char)}
    (h : ∀ line ∈ lines, '\n' ∉ line) :
    Lines.returned (joinWith missing ['\n'] lines) = joinWith missing ['\r', '\n'] lines := by
  induction lines with
  | nil => rfl
  | cons line lines ih =>
    rw [List.forall_mem_cons] at h
    have hline := Lines.returned_of_notMem h.1
    cases lines with
    | nil =>
      rw [joinWith, joinWith, Lines.returned_append, hline]
      cases missing <;> rfl
    | cons next lines =>
      rw [joinWith, joinWith, Lines.returned_append, Lines.returned_append, hline, ih h.2]
      rfl

/-- The same lines are written with a carriage return in every newline. -/
theorem text_withReturns (hends : s.EndsAlike) (hstyle : s.style ≠ .crlf)
    (hlines : ∀ line ∈ s.lines, '\n' ∉ line.toList) :
    s.withReturns.text = Lines.withReturns s.text := by
  have hends' : s.withReturns.EndsAlike := by
    intro ending hending
    obtain ⟨_, -, rfl⟩ := List.mem_map.1 hending
    rfl
  rw [← String.toList_inj, toList_text hends', Lines.withReturns, String.toList_ofList,
    toList_text hends, LineEnding.chars_of_ne_crlf hstyle,
    returned_joinWith (List.forall_mem_map.2 hlines)]
  rfl

end Text

end LineSet

end Patchwork
