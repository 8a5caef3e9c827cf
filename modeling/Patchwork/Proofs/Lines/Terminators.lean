import Mathlib.Data.List.Forall2
import Patchwork.Proofs.Lines.Canonical
import Patchwork.Proofs.Lines.Held

/-!
# Raw lines and the pairs of a set

A set keeps the text of a line apart from its ending, while a raw line is both in one. `Spells`
says that a pair is a raw line so taken apart; a raw line that nothing ends is about to be ended in
the style of its text. Pairs that spell raw lines are written as these lines, each with the
terminator that it had or is given (`joinPairs_of_spells`).
-/

namespace Patchwork

namespace Lines

/-- The raw line without what ends it in a text of the style. -/
def bare (style : LineEnding) (line : List Char) : List Char :=
  if isEnded line then (part style (body line)).1.toList else line

/-- The raw line with its own terminator, or with the style's when it has none. -/
def ended (style : LineEnding) (line : List Char) : List Char :=
  if isEnded line then line else line ++ style.chars

/-- Raw lines of which each has a terminator, the last only when it is not `missing`. -/
def finished (style : LineEnding) (missing : Bool) : List (List Char) → List (List Char)
  | [] => []
  | [line] => [if missing then bare style line else ended style line]
  | line :: next :: rest => ended style line :: finished style missing (next :: rest)

/-- The pair is the raw line without its terminator, and with it. -/
structure Spells (style : LineEnding) (line : List Char) (pair : String × LineEnding) : Prop where
  bare : bare style line = pair.1.toList
  ended : ended style line = pair.1.toList ++ pair.2.chars

variable {style : LineEnding}

theorem isEnded_append_chars (style : LineEnding) (line : List Char) :
    isEnded (line ++ style.chars) = true := by
  cases style <;> simp [isEnded, LineEnding.chars]

/-- A text ends in the style with the style's terminator. -/
theorem spells_append_chars (style : LineEnding) (text : String) :
    Spells style (text.toList ++ style.chars) (text, style) := by
  refine ⟨?_, by rw [ended, if_pos (isEnded_append_chars style _)]⟩
  rw [bare, if_pos (isEnded_append_chars style _)]
  cases style with
  | undetermined | lf => simp [LineEnding.chars, part]
  | crlf =>
    rw [LineEnding.chars, List.append_cons text.toList, body_append_newline, part,
      if_pos ⟨rfl, List.getLast?_concat⟩, List.dropLast_concat, String.toList_ofList]

/-- A line that a newline ends is parted from its ending. -/
private theorem spells_part (style : LineEnding) (line : List Char) :
    Spells style (line ++ ['\n']) (part style line) := by
  refine ⟨?_, ?_⟩
  · rw [bare, if_pos (isEnded_append_newline line), body_append_newline]
  · rw [ended, if_pos (isEnded_append_newline line), ← unpart_append_newline, unpart_part]

/-- A line that nothing ends has the style's ending. -/
private theorem spells_of_notMem {line : List Char} (h : '\n' ∉ line) :
    Spells style line (.ofList line, style) := by
  have hended : ¬ isEnded line = true := by
    rw [isEnded_of_notMem h]
    exact Bool.false_ne_true
  refine ⟨?_, ?_⟩
  · rw [bare, if_neg hended, String.toList_ofList]
  · rw [ended, if_neg hended, String.toList_ofList]

/-- The pairs of a text spell its raw lines. -/
theorem spells_ofChars (text : List Char) :
    List.Forall₂ (Spells (Lines.style (cut text).1)) (raw text) (ofChars text) := by
  refine List.rel_append ?_ ?_
  · rw [List.forall₂_map_left_iff, List.forall₂_map_right_iff, List.forall₂_same]
    exact fun line _ ↦ spells_part _ line
  · split
    · exact .nil
    · exact .cons (spells_of_notMem (newline_notMem_cut text).2) .nil

/-- Lines that are as they should be at the end are finished. -/
theorem finished_eq_self {missing : Bool} {lines : List (List Char)}
    (hended : ∀ line ∈ lines.dropLast, isEnded line = true)
    (hlast : ∀ h : lines ≠ [], missing = !isEnded (lines.getLast h)) :
    finished style missing lines = lines := by
  fun_induction finished style missing lines with
  | case1 => rfl
  | case2 line =>
    have hmissing : missing = !isEnded line := hlast (List.cons_ne_nil line [])
    cases hline : isEnded line <;> simp [hmissing, hline, bare, ended]
  | case3 line next rest ih =>
    rw [List.dropLast_cons_cons, List.forall_mem_cons] at hended
    have hrest := ih hended.2 fun h ↦ by rw [hlast (List.cons_ne_nil _ _), List.getLast_cons h]
    rw [hrest, ended, if_pos hended.1]

end Lines

namespace LineSet

/-- Pairs are written as the raw lines that they spell. -/
theorem joinPairs_of_spells {style : LineEnding} {missing : Bool} {lines : List (List Char)}
    {pairs : List (String × LineEnding)} (h : List.Forall₂ (Lines.Spells style) lines pairs) :
    joinPairs missing pairs = (Lines.finished style missing lines).flatten := by
  induction h with
  | nil => rfl
  | @cons line pair lines pairs hline hlines ih =>
    cases hlines with
    | nil =>
      cases missing with
      | false => simp [joinPairs, Lines.finished, hline.ended]
      | true => simp [joinPairs, Lines.finished, hline.bare]
    | cons hnext hrest =>
      rw [joinPairs, Lines.finished, List.flatten_cons, hline.ended, ih]

variable (s : LineSet) {i : Nat}

/-- Putting in a line puts in its pair. -/
theorem pairs_insert {line : String} (h : i ≤ s.lines.length) :
    (s.insert i line).pairs = s.pairs.insertIdx i (line, s.style) := by
  refine List.ext_getElem? fun j ↦ ?_
  rw [getElem?_pairs, insert, ending]
  obtain hlt | rfl | hgt := Nat.lt_trichotomy j i
  · rw [List.getElem?_insertIdx_of_lt hlt, List.getElem?_insertIdx_of_lt hlt,
      List.getElem?_insertIdx_of_lt hlt, getElem?_pairs, ending]
  · rw [List.getElem?_insertIdx_self, List.getElem?_insertIdx_self, List.getElem?_insertIdx_self,
      length_pairs, if_pos h]
    split <;> rfl
  · rw [List.getElem?_insertIdx_of_gt hgt, List.getElem?_insertIdx_of_gt hgt,
      List.getElem?_insertIdx_of_gt hgt, getElem?_pairs, ending]

/-- Taking out a line takes out its pair. -/
theorem pairs_erase (i : Nat) : (s.erase i).pairs = s.pairs.eraseIdx i := by
  refine List.ext_getElem? fun j ↦ ?_
  rw [getElem?_pairs, erase, ending]
  obtain hlt | hge := Nat.lt_or_ge j i
  · rw [List.getElem?_eraseIdx_of_lt hlt, List.getElem?_eraseIdx_of_lt hlt,
      List.getElem?_eraseIdx_of_lt hlt, getElem?_pairs, ending]
  · rw [List.getElem?_eraseIdx_of_ge hge, List.getElem?_eraseIdx_of_ge hge,
      List.getElem?_eraseIdx_of_ge hge, getElem?_pairs, ending]

end LineSet

end Patchwork
