import Patchwork.Proofs.Lines.Raw

/-!
# Raw lines in a line set

`LineSet.Holds` says which raw lines the lines of a set stand for; all endings of such a set are
written alike. The lines of a text are held where its carriage returns fit the style
(`holds_ofText`), and a set that holds raw lines is written as these lines (`toList_text_of_holds`).
-/

namespace Patchwork

namespace LineSet

/-- The line in the set that stands for a raw line. -/
def held (s : LineSet) (line : List Char) : String := s.comparable (.ofList (Lines.body line))

/-- The set's lines stand for raw lines, and they all end as the style says. -/
structure Holds (s : LineSet) (raws : List (List Char)) : Prop where
  lines_eq : s.lines = raws.map s.held
  chars_eq : ∀ ending ∈ s.endings, ending.chars = s.style.chars

/-- Carriage returns stand where a set of the style would put them. -/
def Fits (s : LineSet) (raws : List (List Char)) : Prop :=
  s.style = .crlf → ∀ line ∈ raws, Lines.EndsInCrlf line

/-- What stands for a raw line depends on the style alone. -/
theorem held_congr {s t : LineSet} (h : s.style = t.style) : s.held = t.held := by
  funext line
  simp only [held, comparable, h]

/-- Lines with one ending, which the last may lack. -/
def joinWith (missing : Bool) (ending : List Char) : List (List Char) → List Char
  | [] => []
  | [line] => line ++ if missing then [] else ending
  | line :: next :: lines => line ++ ending ++ joinWith missing ending (next :: lines)

section Characters

variable {missing : Bool} {ending line : List Char} {lines : List (List Char)} {c : Char}

theorem mem_joinWith (hline : line ∈ lines) (hc : c ∈ line) :
    c ∈ joinWith missing ending lines := by
  induction lines with
  | nil => cases hline
  | cons first lines ih =>
    cases lines with
    | nil =>
      rw [List.mem_singleton.1 hline] at hc
      exact List.mem_append_left _ hc
    | cons next lines =>
      rw [joinWith, List.append_assoc, List.mem_append, List.mem_append]
      obtain rfl | hline := List.mem_cons.1 hline
      · exact .inl hc
      · exact .inr (.inr (ih hline))

/-- All that is written is lines and the ending. -/
theorem mem_or_of_mem_joinWith (hc : c ∈ joinWith missing ending lines) :
    c ∈ ending ∨ ∃ line ∈ lines, c ∈ line := by
  induction lines with
  | nil => cases hc
  | cons first lines ih =>
    cases lines with
    | nil =>
      obtain hc | hc := List.mem_append.1 hc
      · exact .inr ⟨first, List.mem_cons_self, hc⟩
      · split at hc
        · cases hc
        · exact .inl hc
    | cons next lines =>
      rw [joinWith, List.append_assoc, List.mem_append, List.mem_append] at hc
      obtain hc | hc | hc := hc
      · exact .inr ⟨first, List.mem_cons_self, hc⟩
      · exact .inl hc
      · exact (ih hc).imp_right fun ⟨line, hline, hc⟩ ↦ ⟨line, List.mem_cons_of_mem _ hline, hc⟩

end Characters

private theorem joinPairs_eq {missing : Bool} {style : LineEnding} {lines : List String}
    {endings : List LineEnding} (h : ∀ ending ∈ endings, ending.chars = style.chars) :
    joinPairs missing (pairWith style lines endings) =
      joinWith missing style.chars (lines.map String.toList) := by
  induction lines generalizing endings with
  | nil => rfl
  | cons line lines ih =>
    obtain ⟨ending, rest, hending, hrest, hpair⟩ : ∃ ending rest, ending.chars = style.chars ∧
        (∀ other ∈ rest, LineEnding.chars other = style.chars) ∧
        pairWith style (line :: lines) endings = (line, ending) :: pairWith style lines rest := by
      cases endings with
      | nil => exact ⟨style, [], rfl, fun _ h ↦ absurd h List.not_mem_nil, rfl⟩
      | cons ending endings =>
        exact ⟨ending, endings, h ending List.mem_cons_self,
          fun other hother ↦ h other (List.mem_cons_of_mem ending hother), rfl⟩
    have hlines := ih hrest
    rw [hpair]
    cases lines with
    | nil => simp only [pairWith, joinPairs, List.map_cons, List.map_nil, joinWith, hending]
    | cons next lines =>
      rw [List.map_cons, List.map_cons, joinWith, ← List.map_cons, ← hlines]
      cases rest <;> simp only [pairWith, joinPairs, hending]

/-- A set whose endings are all alike is written with one ending. -/
theorem toList_text {s : LineSet} (h : ∀ ending ∈ s.endings, ending.chars = s.style.chars) :
    s.text.toList = joinWith s.missingFinalNewline s.style.chars (s.lines.map String.toList) := by
  rw [text, String.toList_ofList]
  exact joinPairs_eq h

/-- A raw line is what stands for it in the set, and the ending, if it has one. -/
private theorem held_append {s : LineSet} {line : List Char}
    (h : s.style = .crlf → Lines.EndsInCrlf line) :
    (s.held line).toList ++ (if Lines.isEnded line then s.style.chars else []) = line := by
  have hbody := Lines.body_append line
  by_cases hstyle : s.style = .crlf
  · have hcrlf : (Lines.body line).getLast? = some '\r' ↔ Lines.isEnded line = true := h hstyle
    simp only [held, comparable, String.toList_ofList, hstyle, true_and, hcrlf]
    by_cases hended : Lines.isEnded line = true
    · obtain ⟨front, hfront⟩ := List.getLast?_eq_some_iff.1 (hcrlf.2 hended)
      rw [hfront] at hbody
      simpa [hended, hfront, LineEnding.chars] using hbody
    · simpa [hended] using hbody
  · have hchars : s.style.chars = ['\n'] := by
      cases hs : s.style <;> simp_all [LineEnding.chars]
    simpa [held, comparable, hstyle, hchars] using hbody

/-- A set that holds raw lines, and lacks the last ending when they do, is written as the lines. -/
theorem toList_text_of_holds {s : LineSet} {raws : List (List Char)} (hs : s.Holds raws)
    (hproper : Lines.Proper raws) (hfits : s.Fits raws)
    (hmissing : ∀ h : raws ≠ [], s.missingFinalNewline = !Lines.isEnded (raws.getLast h)) :
    s.text.toList = raws.flatten := by
  rw [toList_text hs.chars_eq, hs.lines_eq, List.map_map]
  clear hs
  induction raws with
  | nil => rfl
  | cons line raws ih =>
    have hline := held_append fun hstyle ↦ hfits hstyle line List.mem_cons_self
    cases raws with
    | nil =>
      have hlast : s.missingFinalNewline = !Lines.isEnded line := hmissing (List.cons_ne_nil _ _)
      rw [List.flatten_singleton]
      conv => rhs; rw [← hline]
      cases hended : Lines.isEnded line <;> simp [joinWith, hlast, hended]
    | cons next raws =>
      have happend : Lines.Proper ([line] ++ next :: raws) := hproper
      have hended : Lines.isEnded line = true :=
        happend.isEnded_of_append (List.cons_ne_nil next raws) line List.mem_cons_self
      have hrest := ih happend.of_append_right
        (fun hstyle other hother ↦ hfits hstyle other (List.mem_cons_of_mem line hother))
        fun h ↦ by rw [hmissing (List.cons_ne_nil _ _), List.getLast_cons h]
      rw [hended, if_pos rfl] at hline
      rw [List.flatten_cons, ← hrest]
      conv => rhs; rw [← hline]
      rfl

/-- The lines of a text stand for its raw lines. -/
theorem holds_ofText {text : String} (hfits : (ofText text).Fits (Lines.raw text.toList)) :
    (ofText text).Holds (Lines.raw text.toList) := by
  have hline (line : List Char) : (ofText text).held (line ++ ['\n']) =
      (Lines.part (ofText text).style line).1 := by
    rw [held, Lines.body_append_newline, comparable, String.toList_ofList, Lines.part]
    split <;> rfl
  have hrest (h : (Lines.cut text.toList).2 ≠ []) : (ofText text).held (Lines.cut text.toList).2 =
      .ofList (Lines.cut text.toList).2 := by
    have hnewline := (Lines.newline_notMem_cut text.toList).2
    have hmem : (Lines.cut text.toList).2 ∈ Lines.raw text.toList := by simp [Lines.raw, h]
    have hreturn : ¬ ((ofText text).style = .crlf ∧
        (Lines.cut text.toList).2.getLast? = some '\r') := by
      rintro ⟨hstyle, hlast⟩
      have hcrlf := hfits hstyle _ hmem
      rw [Lines.EndsInCrlf, Lines.body_of_notMem hnewline,
        Lines.isEnded_of_notMem hnewline] at hcrlf
      exact absurd (hcrlf.1 hlast) (by simp)
    rw [held, Lines.body_of_notMem hnewline, comparable, String.toList_ofList, if_neg hreturn]
  have hchars (line : List Char) (h : line ∈ (Lines.cut text.toList).1) :
      (Lines.part (ofText text).style line).2.chars = (ofText text).style.chars := by
    have hmem : line ++ ['\n'] ∈ Lines.raw text.toList :=
      List.mem_append_left _ (List.mem_map_of_mem h)
    by_cases hstyle : (ofText text).style = .crlf
    · have hcrlf := hfits hstyle _ hmem
      rw [Lines.EndsInCrlf, Lines.body_append_newline, Lines.isEnded_append_newline] at hcrlf
      rw [hstyle, Lines.part, if_pos ⟨rfl, hcrlf.2 rfl⟩]
    · rw [Lines.part_of_ne_crlf hstyle]
      cases hs : (ofText text).style <;> simp_all [LineEnding.chars]
  constructor
  · simp only [ofText, Lines.ofChars, Lines.raw, List.map_append, List.map_map] at hline hrest ⊢
    congr 1
    · exact List.map_congr_left fun line _ ↦ (hline line).symm
    · split
      · rfl
      · next h => exact congrArg (· :: []) (hrest h).symm
  · intro ending hending
    obtain ⟨piece, hpiece, rfl⟩ := List.mem_map.1 hending
    rcases List.mem_append.1 hpiece with hpiece | hpiece
    · obtain ⟨line, hmem, rfl⟩ := List.mem_map.1 hpiece
      exact hchars line hmem
    · split at hpiece
      · exact absurd hpiece List.not_mem_nil
      · rw [List.mem_singleton.1 hpiece]
        rfl

/-- The lines of a text lack the final newline when its last raw line does. -/
theorem missingFinalNewline_ofText {text : String} (h : Lines.raw text.toList ≠ []) :
    (ofText text).missingFinalNewline = !Lines.isEnded ((Lines.raw text.toList).getLast h) := by
  rw [Lines.isEnded_getLast_raw]
  rfl

end LineSet

end Patchwork
