import Patchwork.LineSet
import Patchwork.Proofs.Lines.Cut
import Patchwork.Proofs.Text.Utf8

/-!
# Line sets as files have them

A line set is written as its terminated lines and what comes behind them (`toList_text_eq_join`),
so reading a file and writing it gives its bytes back. The other way round, a set is read back as it
was when it is one that a text can have (`Canonical`): its lines hold no newline, and its style and
endings are those that the lines themselves show.
-/

namespace Patchwork

namespace Lines

/-- A line with what stands between it and its newline. -/
def unpart (pair : String × LineEnding) : List Char :=
  pair.1.toList ++ if pair.2 = .crlf then ['\r'] else []

theorem unpart_append_newline (pair : String × LineEnding) :
    unpart pair ++ ['\n'] = pair.1.toList ++ pair.2.chars := by
  rcases pair with ⟨line, _ | _ | _⟩ <;> simp [unpart, LineEnding.chars]

/-- Parting a line loses nothing. -/
theorem unpart_part (style : LineEnding) (line : List Char) : unpart (part style line) = line := by
  rw [part]
  split
  · next h =>
    obtain ⟨front, rfl⟩ := List.getLast?_eq_some_iff.1 h.2
    simp [unpart]
  · simp [unpart]

theorem unpart_comp_part (style : LineEnding) : unpart ∘ part style = id :=
  funext (unpart_part style)

/-- The pairs that come from parting a line: under `crlf` an ending takes the carriage return. -/
theorem part_unpart_iff {style : LineEnding} {pair : String × LineEnding} :
    part style (unpart pair) = pair ↔
      style = .crlf ∧ pair.2 = .crlf ∨
        pair.2 = .lf ∧ (style = .crlf → pair.1.toList.getLast? ≠ some '\r') := by
  obtain ⟨line, ending⟩ := pair
  by_cases hstyle : style = .crlf
  · by_cases hline : line.toList.getLast? = some '\r' <;>
      cases ending <;> simp [part, unpart, hstyle, hline]
  · cases ending <;> simp [part, unpart, hstyle]

end Lines

namespace LineSet

variable {s : LineSet}

/-- The lines that are written with their endings. -/
def terminated (s : LineSet) : List (String × LineEnding) :=
  if s.missingFinalNewline then s.pairs.dropLast else s.pairs

theorem terminated_subset (s : LineSet) : s.terminated ⊆ s.pairs := by
  rw [terminated]
  split
  · exact List.dropLast_subset _
  · exact List.Subset.refl _

/-- What is written behind the last ending. -/
def rest (s : LineSet) : List Char :=
  if s.missingFinalNewline then (s.pairs.getLast?.map fun last ↦ last.1.toList).getD [] else []

/-- A set is written as its terminated lines and the rest. -/
theorem toList_text_eq_join (s : LineSet) :
    s.text.toList = Lines.join (s.terminated.map Lines.unpart) s.rest := by
  have hended (pair : String × LineEnding) (text : List Char) :
      pair.1.toList ++ (pair.2.chars ++ text) = Lines.unpart pair ++ '\n' :: text := by
    rw [← List.append_assoc, ← Lines.unpart_append_newline, List.append_assoc,
      List.singleton_append]
  rw [text, String.toList_ofList, terminated, rest]
  generalize s.pairs = pairs
  cases s.missingFinalNewline with
  | false =>
    induction pairs with
    | nil => rfl
    | cons pair pairs ih =>
      cases pairs with
      | nil => simpa [joinPairs, Lines.join] using hended pair []
      | cons next pairs =>
        rw [joinPairs, ih, List.append_assoc]
        exact hended pair _
  | true =>
    induction pairs with
    | nil => rfl
    | cons pair pairs ih =>
      cases pairs with
      | nil => simp [joinPairs, Lines.join]
      | cons next pairs =>
        rw [joinPairs, ih, List.append_assoc]
        exact hended pair _

private theorem pairWith_map (style : LineEnding) (pairs : List (String × LineEnding)) :
    pairWith style (pairs.map Prod.fst) (pairs.map Prod.snd) = pairs := by
  induction pairs with
  | nil => rfl
  | cons pair pairs ih => rw [List.map_cons, List.map_cons, pairWith, ih]

private theorem map_snd_pairWith (style : LineEnding) {lines : List String}
    {endings : List LineEnding} (h : endings.length = lines.length) :
    (pairWith style lines endings).map Prod.snd = endings := by
  induction lines generalizing endings with
  | nil => simpa [pairWith, eq_comm] using h
  | cons line lines ih =>
    cases endings with
    | nil => simp at h
    | cons ending endings => rw [pairWith, List.map_cons, ih (by simpa using h)]

section Text

variable (text : String)

/-- The bytes of a text are read as its lines. -/
theorem ofBytes_toUTF8 : ofBytes text.toUTF8 = .ok (ofText text) :=
  congrArg (Except.map ofText) (Text.decode_toByteArray text)

/-- The lines of a text come with the endings that they have there. -/
theorem pairs_ofText : (ofText text).pairs = Lines.ofChars text.toList := pairWith_map _ _

theorem missingFinalNewline_ofText_iff :
    (ofText text).missingFinalNewline = true ↔
      (Lines.cut text.toList).1 = [] ∨ (Lines.cut text.toList).2 ≠ [] := by
  have hiff := Lines.getLast?_eq_newline_iff text.toList
  rw [← not_iff_not] at hiff
  simpa [ofText, or_iff_not_imp_left] using hiff

/-- A text is taken apart into the lines that a newline ends and what follows the last newline. -/
theorem parts_ofText :
    (ofText text).terminated =
        (Lines.cut text.toList).1.map (Lines.part (ofText text).style) ∧
      (ofText text).rest = (Lines.cut text.toList).2 := by
  have hmissing := missingFinalNewline_ofText_iff text
  have hstyle : (ofText text).style = Lines.style (Lines.cut text.toList).1 := rfl
  rw [terminated, rest, pairs_ofText, Lines.ofChars, hstyle]
  by_cases hrest : (Lines.cut text.toList).2 = []
  · by_cases hlines : (Lines.cut text.toList).1 = []
    · simp [hrest, hlines]
    · have hended : (ofText text).missingFinalNewline = false := by simp_all
      simp [hrest, hended]
  · simp [hrest, hmissing.2 (.inr hrest)]

/-- A text is written as it was read. -/
theorem text_ofText : (ofText text).text = text := by
  obtain ⟨hterminated, hrest⟩ := parts_ofText text
  rw [← String.toList_inj, toList_text_eq_join, hterminated, hrest, List.map_map,
    Lines.unpart_comp_part, List.map_id, Lines.join_cut]

end Text

/-- A set whose lines, and whether the last of them is ended, can be told from what is written. No
line holds a newline, an empty last line is ended, and where there are no lines none is. -/
structure Legible (s : LineSet) : Prop where
  newline_notMem : ∀ line ∈ s.lines, '\n' ∉ line.toList
  of_nil : s.lines = [] → s.missingFinalNewline = true
  last : s.missingFinalNewline = true → s.lines.getLast? ≠ some ""

instance (s : LineSet) : Decidable s.Legible :=
  decidable_of_iff
    ((∀ line ∈ s.lines, '\n' ∉ line.toList) ∧ (s.lines = [] → s.missingFinalNewline = true) ∧
      (s.missingFinalNewline = true → s.lines.getLast? ≠ some ""))
    ⟨fun ⟨hnewline, hnil, hlast⟩ ↦ ⟨hnewline, hnil, hlast⟩,
      fun ⟨hnewline, hnil, hlast⟩ ↦ ⟨hnewline, hnil, hlast⟩⟩

section Legible

variable (h : s.Legible)

include h

/-- No newline stands in what is written but those that end lines. -/
theorem Legible.cut_text :
    Lines.cut s.text.toList = (s.terminated.map Lines.unpart, s.rest) := by
  have hpairs (pair : String × LineEnding) (hpair : pair ∈ s.pairs) : '\n' ∉ pair.1.toList :=
    h.newline_notMem _ (s.map_fst_pairs ▸ List.mem_map_of_mem hpair)
  rw [toList_text_eq_join]
  apply Lines.cut_join
  · intro line hline
    obtain ⟨pair, hpair, rfl⟩ := List.mem_map.1 hline
    rw [Lines.unpart, List.mem_append, not_or]
    refine ⟨hpairs pair (terminated_subset s hpair), ?_⟩
    split <;> simp
  · rw [rest]
    split
    · cases hlast : s.pairs.getLast? with
      | none => exact List.not_mem_nil
      | some last => exact hpairs last (List.mem_of_getLast? hlast)
    · exact List.not_mem_nil

/-- A last line without its ending is what is written behind the terminated lines. -/
theorem Legible.lines_eq :
    s.lines = s.terminated.map Prod.fst ++ if s.rest = [] then [] else [.ofList s.rest] := by
  have hlast := h.last
  rw [← map_fst_pairs, List.getLast?_map] at hlast
  rw [← map_fst_pairs, terminated, rest]
  cases hmissing : s.missingFinalNewline with
  | false => simp
  | true =>
    cases hpair : s.pairs.getLast? with
    | none =>
      rw [List.getLast?_eq_none_iff] at hpair
      simp [hpair]
    | some last =>
      obtain ⟨front, hfront⟩ := List.getLast?_eq_some_iff.1 hpair
      have hne : last.1.toList ≠ [] := by simpa [hpair] using hlast hmissing
      simp [hfront, hne]

/-- The last line is without its ending when the text shows it. -/
theorem Legible.missingFinalNewline_iff :
    s.terminated.map Lines.unpart = [] ∨ s.rest ≠ [] ↔ s.missingFinalNewline = true := by
  have hlast := h.last
  have hnil := h.of_nil
  rw [← map_fst_pairs, List.getLast?_map] at hlast
  rw [← map_fst_pairs, List.map_eq_nil_iff] at hnil
  rw [terminated, rest, List.map_eq_nil_iff]
  cases hmissing : s.missingFinalNewline with
  | false =>
    rw [hmissing] at hnil
    simp only [Bool.false_eq_true, if_false, ne_eq, not_true, or_false, iff_false]
    exact fun hpairs ↦ nomatch hnil hpairs
  | true =>
    simp only [if_true, iff_true]
    cases hpair : s.pairs.getLast? with
    | none =>
      rw [List.getLast?_eq_none_iff] at hpair
      exact .inl (by rw [hpair, List.dropLast_nil])
    | some last => exact .inr (by simpa [hpair] using hlast hmissing)

end Legible

/-- Terminated lines that show the style: there are none while it is undetermined, and otherwise
the first of them sets it. -/
def Shows (style : LineEnding) (terminated : List (String × LineEnding)) : Prop :=
  match style with
  | .undetermined => terminated = []
  | .lf =>
    terminated ≠ [] ∧ (∀ pair ∈ terminated, pair.2 = .lf) ∧
      ∀ first ∈ terminated.head?, first.1.toList.getLast? ≠ some '\r'
  | .crlf =>
    (∃ first ∈ terminated.head?, first.2 = .crlf) ∧
      ∀ pair ∈ terminated,
        pair.2 = .crlf ∨ pair.2 = .lf ∧ pair.1.toList.getLast? ≠ some '\r'

instance (style : LineEnding) (terminated : List (String × LineEnding)) :
    Decidable (Shows style terminated) :=
  match style with
  | .undetermined => inferInstanceAs (Decidable (_ = _))
  | .lf | .crlf => inferInstanceAs (Decidable (_ ∧ _))

/-- A set as a text has it. -/
structure Canonical (s : LineSet) : Prop where
  newline_notMem : ∀ line ∈ s.lines, '\n' ∉ line.toList
  of_nil : s.lines = [] → s.style = .undetermined ∧ s.missingFinalNewline = true
  last : s.missingFinalNewline = true →
    ∀ last ∈ s.pairs.getLast?, last.1 ≠ "" ∧ last.2 = s.style
  shows_style : Shows s.style s.terminated

instance (s : LineSet) : Decidable s.Canonical :=
  decidable_of_iff
    ((∀ line ∈ s.lines, '\n' ∉ line.toList) ∧
      (s.lines = [] → s.style = .undetermined ∧ s.missingFinalNewline = true) ∧
      (s.missingFinalNewline = true →
        ∀ last ∈ s.pairs.getLast?, last.1 ≠ "" ∧ last.2 = s.style) ∧
      Shows s.style s.terminated)
    ⟨fun ⟨hnewline, hnil, hlast, hstyle⟩ ↦ ⟨hnewline, hnil, hlast, hstyle⟩,
      fun ⟨hnewline, hnil, hlast, hstyle⟩ ↦ ⟨hnewline, hnil, hlast, hstyle⟩⟩

/-- Lines show a style when it is the style they set, and each is parted under it as it was. -/
theorem shows_iff {style : LineEnding} {terminated : List (String × LineEnding)} :
    Shows style terminated ↔
      Lines.style (terminated.map Lines.unpart) = style ∧
        ∀ pair ∈ terminated, Lines.part style (Lines.unpart pair) = pair := by
  simp only [Lines.part_unpart_iff]
  cases terminated with
  | nil => cases style <;> simp [Shows, Lines.style]
  | cons first terminated =>
    obtain ⟨line, ending⟩ := first
    cases style with
    | undetermined =>
      simp only [Shows, reduceCtorEq, List.map_cons, Lines.style, false_iff, not_and]
      intro hstyle
      split at hstyle <;> cases hstyle
    | lf => cases ending <;> simp [Shows, Lines.style, Lines.unpart, and_comm]
    | crlf =>
      by_cases hline : line.toList.getLast? = some '\r' <;>
        cases ending <;> simp [Shows, Lines.style, Lines.unpart, hline]

/-- The lines of a text make a set as a text has it. -/
theorem canonical_ofText (text : String) : (ofText text).Canonical := by
  obtain ⟨hnewline, hrest⟩ := Lines.newline_notMem_cut text.toList
  have hpairs := pairs_ofText text
  have hmissing := missingFinalNewline_ofText_iff text
  rw [Lines.ofChars] at hpairs
  constructor
  · intro line hline
    rw [← map_fst_pairs, hpairs, List.map_append, List.mem_append, List.map_map] at hline
    obtain hline | hline := hline
    · obtain ⟨whole, hwhole, rfl⟩ := List.mem_map.1 hline
      intro hmem
      apply hnewline whole hwhole
      rw [← Lines.unpart_part (Lines.style (Lines.cut text.toList).1) whole]
      exact List.mem_append_left _ hmem
    · split at hline
      · cases hline
      · rw [List.map_singleton, List.mem_singleton] at hline
        rw [hline, String.toList_ofList]
        exact hrest
  · intro hnil
    rw [← map_fst_pairs, hpairs, List.map_eq_nil_iff, List.append_eq_nil_iff,
      List.map_eq_nil_iff] at hnil
    exact ⟨congrArg Lines.style hnil.1, hmissing.2 (.inl hnil.1)⟩
  · intro hended last hlast
    rw [hpairs] at hlast
    by_cases hempty : (Lines.cut text.toList).2 = []
    · obtain hlines | hne := hmissing.1 hended
      · simp [hempty, hlines] at hlast
      · exact absurd hempty hne
    · rw [if_neg hempty, List.getLast?_concat, Option.mem_some_iff] at hlast
      rw [← hlast]
      exact ⟨by simpa using hempty, rfl⟩
  · obtain ⟨hterminated, _⟩ := parts_ofText text
    rw [shows_iff, hterminated, List.map_map, Lines.unpart_comp_part, List.map_id]
    refine ⟨rfl, fun pair hpair ↦ ?_⟩
    obtain ⟨line, _, rfl⟩ := List.mem_map.1 hpair
    rw [Lines.unpart_part]

section Canonical

variable (h : s.Canonical)

include h

theorem Canonical.legible : s.Legible where
  newline_notMem := h.newline_notMem
  of_nil hnil := (h.of_nil hnil).2
  last hmissing hlast := by
    rw [← map_fst_pairs, List.getLast?_map, Option.map_eq_some_iff] at hlast
    obtain ⟨last, hlast, hempty⟩ := hlast
    exact (h.last hmissing last hlast).1 hempty

/-- A last line without its ending is what is written behind the terminated lines. -/
private theorem Canonical.terminated_append :
    s.terminated ++ (if s.rest = [] then [] else [(.ofList s.rest, s.style)]) = s.pairs := by
  have hlast := h.last
  rw [terminated, rest]
  cases hmissing : s.missingFinalNewline with
  | false => simp
  | true =>
    cases hpair : s.pairs.getLast? with
    | none =>
      rw [List.getLast?_eq_none_iff] at hpair
      simp [hpair]
    | some last =>
      obtain ⟨front, hfront⟩ := List.getLast?_eq_some_iff.1 hpair
      obtain ⟨hne, hending⟩ := hlast hmissing last hpair
      have hne : last.1.toList ≠ [] := by simpa using hne
      simp [hfront, hne, ← hending]

/-- A set as a text has it is read back from what it is written as. -/
theorem Canonical.ofText_text (hlength : s.endings.length = s.lines.length) :
    ofText s.text = s := by
  obtain ⟨hstyle, hparts⟩ := shows_iff.1 h.shows_style
  have hcut := h.legible.cut_text
  have hpieces : Lines.ofChars s.text.toList = s.pairs := by
    -- The terminated lines show the set's own style, and parting them under it changes nothing.
    have hparted : (s.terminated.map Lines.unpart).map (Lines.part s.style) = s.terminated := by
      rw [List.map_map]
      exact (List.map_congr_left hparts).trans (List.map_id _)
    rw [Lines.ofChars, hcut]
    simp only [hstyle, hparted]
    exact h.terminated_append
  have hmissing : (ofText s.text).missingFinalNewline = s.missingFinalNewline := by
    rw [Bool.eq_iff_iff, missingFinalNewline_ofText_iff, hcut]
    exact h.legible.missingFinalNewline_iff
  have hlines : (ofText s.text).lines = s.lines := by
    rw [← map_fst_pairs, pairs_ofText, hpieces, map_fst_pairs]
  have hendings : (ofText s.text).endings = s.endings := by
    show (Lines.ofChars s.text.toList).map Prod.snd = s.endings
    rw [hpieces]
    exact map_snd_pairWith s.style hlength
  have hfirst : (ofText s.text).style = s.style := by
    show Lines.style (Lines.cut s.text.toList).1 = s.style
    rw [hcut, hstyle]
  obtain ⟨lines, endings, style, missing⟩ := s
  exact congr (congr (congr (congrArg LineSet.mk hlines) hendings) hfirst) hmissing

end Canonical

/-- Reading takes exactly the bytes that are text, and says of others how far they are; writing
gives the bytes of a file back. A set with an ending for each line is read back as it was exactly
when it is one that a text can have. -/
theorem ofBytes_inverse_bytes :
    (∀ content : ByteArray,
      ((∃ s, ofBytes content = .ok s) ↔ content.IsValidUTF8) ∧
      (∀ offset, ofBytes content = .error offset →
        IsGreatest {n | n ≤ content.size ∧ (content.extract 0 n).IsValidUTF8} offset) ∧
      ∀ s, ofBytes content = .ok s → s.bytes = content) ∧
    ∀ s : LineSet, s.endings.length = s.lines.length →
      (ofBytes s.bytes = .ok s ↔ s.Canonical) := by
  constructor
  · intro content
    rw [← Text.exists_decode_eq_ok_iff]
    cases hcontent : Text.decode content with
    | error offset =>
      simp only [ofBytes, hcontent, Except.map, reduceCtorEq, exists_false, Except.error.injEq,
        forall_eq', false_implies, implies_true, true_and, and_true]
      exact Text.isGreatest_of_decode_eq_error hcontent
    | ok text =>
      simp only [ofBytes, hcontent, Except.map, reduceCtorEq, Except.ok.injEq, exists_eq',
        false_implies, implies_true, true_and, forall_eq']
      rw [bytes, text_ofText]
      exact Text.toByteArray_of_decode hcontent
  · intro s hlength
    have hread : ofBytes s.bytes = .ok (ofText s.text) := by
      rw [ofBytes, bytes]
      exact congrArg (Except.map ofText) (Text.decode_toByteArray s.text)
    rw [hread, Except.ok.injEq]
    constructor
    · intro heq
      rw [← heq]
      exact canonical_ofText s.text
    · intro h
      exact h.ofText_text hlength

/-- Lines of a file with carriage returns, a bare newline among them, and a carriage return at the
very end. -/
def mixed : LineSet := ⟨["a\r", "b", "", "c\r"], [.crlf, .lf, .crlf, .crlf], .crlf, true⟩

/-- A carriage return that a bare newline would take along. -/
def stray : LineSet := ⟨["a", "b\r"], [.crlf, .lf], .crlf, false⟩

theorem ofBytes_bytes_mixed :
    mixed.endings.length = mixed.lines.length ∧ ofBytes mixed.bytes = .ok mixed ∧
      stray.endings.length = stray.lines.length ∧ ofBytes stray.bytes ≠ .ok stray :=
  ⟨rfl, (ofBytes_inverse_bytes.2 mixed rfl).2 (by decide), rfl,
    fun h ↦ absurd ((ofBytes_inverse_bytes.2 stray rfl).1 h) (by decide)⟩

end LineSet

end Patchwork
