import Patchwork.Diff.OpenHunk
import Patchwork.Proofs.Text.Cut
import Patchwork.Proofs.Text.Number
import Patchwork.Proofs.Text.Words

/-!
# The headers of hunks

The format asks for two signs, two ranges and two marks (`SpelledHeader.Strict`). What is read as a
header is a little more: a number may carry a plus sign of its own, and the closing mark may be
missing. Main statement: `ofHeader_iff`, the lines that are read and what they are read for.
Specification: hunk headers in section 6.1.
-/

namespace Patchwork.Diff

open Text (Blank Numeral Word)

/-- How a range may be spelled: by its start, and behind a comma by its length. The length is one
when it is left out. -/
structure SpelledRange where
  start : Numeral
  length? : Option Numeral

namespace SpelledRange

/-- The range as it is spelled. -/
def chars (r : SpelledRange) : List Char :=
  r.start.chars ++
    match r.length? with
    | none => []
    | some length => ',' :: length.chars

/-- The number of lines in the range. -/
def length (r : SpelledRange) : Nat :=
  match r.length? with
  | none => 1
  | some length => length.value

/-- The number of the range's first line. An empty range is named by the line in front of it, unless
that has the greatest number there is. -/
def first (r : SpelledRange) : Nat :=
  if r.length = 0 then min (r.start.value + 1) (UInt32.size - 1) else r.start.value

/-- No number of the range has a sign. -/
def Unsigned (r : SpelledRange) : Prop :=
  r.start.plus = false ∧ ∀ length ∈ r.length?, length.plus = false

theorem mem_chars {r : SpelledRange} {c : Char} (h : c ∈ r.chars) :
    c.isDigit = true ∨ c = '+' ∨ c = ',' := by
  rw [chars, List.mem_append] at h
  obtain h | h := h
  · exact (Numeral.mem_chars h).imp_right .inl
  · cases hlength : r.length? with
    | none => simp [hlength] at h
    | some length =>
      rw [hlength] at h
      obtain rfl | h := List.mem_cons.1 h
      · exact .inr (.inr rfl)
      · exact (Numeral.mem_chars h).imp_right .inl

theorem Unsigned.plus_notMem {r : SpelledRange} (h : r.Unsigned) : '+' ∉ r.chars := by
  have hstart := Numeral.plus_notMem h.1
  rw [chars, List.mem_append, not_or]
  refine ⟨hstart, ?_⟩
  cases hlength : r.length? with
  | none => exact List.not_mem_nil
  | some length => simpa using Numeral.plus_notMem (h.2 length hlength)

/-- A range with its sign is a word. -/
theorem word_cons (r : SpelledRange) {sign : Char} (hsign : Text.isBlank sign = false) :
    Word (sign :: r.chars) := by
  refine ⟨List.cons_ne_nil _ _, List.forall_mem_cons.2 ⟨hsign, fun c hc ↦ ?_⟩⟩
  obtain hdigit | rfl | rfl := mem_chars hc
  · exact Text.isBlank_of_isDigit hdigit
  · decide
  · decide

end SpelledRange

/-- The texts that are read as ranges are spelled ranges. -/
theorem range?_eq_some_iff {text : List Char} {start count : UInt32} :
    range? text = some (start, count) ↔
      ∃ r : SpelledRange, r.chars = text ∧ r.start.value = start.toNat ∧
        r.length = count.toNat := by
  rw [range?]
  constructor
  · intro h
    split at h
    · next first second hcut =>
      split at h
      · next start count hstart hcount =>
        cases h
        obtain ⟨n, rfl, hn⟩ := Text.word?_eq_some_iff.1 hstart
        obtain ⟨m, rfl, hm⟩ := Text.word?_eq_some_iff.1 hcount
        refine ⟨⟨n, some m⟩, ?_, hn, hm⟩
        rw [Text.append_of_cut? hcut, List.append_assoc]
        rfl
      · cases h
    · obtain ⟨w, hw, heq⟩ := Option.map_eq_some_iff.1 h
      cases heq
      obtain ⟨n, rfl, hn⟩ := Text.word?_eq_some_iff.1 hw
      exact ⟨⟨n, none⟩, List.append_nil _, hn, rfl⟩
  · rintro ⟨⟨n, length?⟩, rfl, hstart, hcount⟩
    have hcomma : ¬ [','] <:+: n.chars := by
      intro h
      obtain hdigit | hplus := Numeral.mem_chars (h.subset List.mem_cons_self)
      · exact absurd hdigit (by decide)
      · exact absurd hplus (by decide)
    have hread := Text.word?_eq_some_iff.2 ⟨n, rfl, hstart⟩
    cases length? with
    | none =>
      have htext : SpelledRange.chars ⟨n, none⟩ = n.chars := List.append_nil _
      rw [htext, Text.cut?_eq_none_iff.2 hcomma]
      simp only [hread, Option.map_some, Option.some_inj, Prod.mk.injEq, true_and]
      exact UInt32.toNat_inj.1 hcount
    | some m =>
      have hcut : Text.cut? [','] (SpelledRange.chars ⟨n, some m⟩) = some (n.chars, m.chars) :=
        (Text.cut?_eq_some_iff List.not_mem_nil).2 ⟨rfl, hcomma⟩
      simp only [hcut, hread, Text.word?_eq_some_iff.2 ⟨m, rfl, hcount⟩]

/-- The number of a range's first line is the one that it stands for. -/
theorem toNat_firstLine (range : UInt32 × UInt32) :
    (firstLine range).toNat =
      if range.2.toNat = 0 then min (range.1.toNat + 1) (UInt32.size - 1)
      else range.1.toNat := by
  have hsize : UInt32.size = 2 ^ 32 := rfl
  have hlt := range.1.toNat_lt
  have hzero : range.2 = 0 ↔ range.2.toNat = 0 := UInt32.toNat_inj.symm
  rw [firstLine]
  split
  · next h =>
    rw [if_pos (hzero.1 h.1), UInt32.toNat_add, UInt32.toNat_one]
    omega
  · next h =>
    rw [hzero] at h
    split <;> omega

/-- What a spelled range is read as. -/
theorem exists_range?_chars (r : SpelledRange) :
    ∃ range, range? r.chars = some range ∧ range.2.toNat = r.length ∧
      (firstLine range).toNat = r.first := by
  have hlength : r.length < UInt32.size := by
    rw [SpelledRange.length]
    split
    · decide
    · exact Numeral.lt_size _
  have hcount : (UInt32.ofNat r.length).toNat = r.length := UInt32.toNat_ofNat_of_lt' hlength
  have hstart : (UInt32.ofNat r.start.value).toNat = r.start.value :=
    UInt32.toNat_ofNat_of_lt' r.start.lt_size
  refine ⟨(.ofNat r.start.value, .ofNat r.length),
    range?_eq_some_iff.2 ⟨r, rfl, hstart.symm, hcount.symm⟩, hcount, ?_⟩
  rw [toNat_firstLine, hcount, hstart, SpelledRange.first]

/-- How a header may be spelled: blanks around the ranges and between them, and behind the closing
mark any remark. Without a remark there is no closing mark either. -/
structure SpelledHeader where
  lead : List Char
  old : SpelledRange
  gap : List Char
  new : SpelledRange
  trail : List Char
  remark? : Option (List Char)
  lead_blank : Blank lead
  gap_blank : Blank gap
  gap_ne_nil : gap ≠ []
  trail_blank : Blank trail

namespace SpelledHeader

/-- What stands in front of the closing mark, but for the opening one. -/
def ranges (s : SpelledHeader) : List Char :=
  s.lead ++ ('-' :: s.old.chars ++ (s.gap ++ ('+' :: s.new.chars ++ s.trail)))

/-- The closing mark and the remark. -/
def closing (s : SpelledHeader) : List Char :=
  match s.remark? with
  | none => []
  | some remark => " @@".toList ++ remark

/-- The header as it is spelled. -/
def chars (s : SpelledHeader) : List Char := "@@ ".toList ++ (s.ranges ++ s.closing)

/-- The header follows the format: there is a closing mark, and no number carries a sign. -/
structure Strict (s : SpelledHeader) : Prop where
  closed : s.remark?.isSome = true
  old_unsigned : s.old.Unsigned
  new_unsigned : s.new.Unsigned

end SpelledHeader

namespace OpenHunk

/-- Ranges are found in a line that has two words with the right signs between its marks. -/
theorem spelledRanges?_eq_some_iff {line old new : List Char} :
    spelledRanges? line = some (old, new) ↔
      ∃ rest, line = "@@ ".toList ++ rest ∧
        Text.words (Text.before " @@".toList rest) = ['-' :: old, '+' :: new] := by
  rw [spelledRanges?]
  simp only [← Text.after?_eq_some_iff]
  cases Text.after? "@@ ".toList line with
  | none => simp
  | some rest =>
    simp only [Option.map_some, Option.some_inj, exists_eq_left']
    split
    · next old' new' hwords =>
      rw [Option.some_inj] at hwords
      rw [hwords]
      simp
    · next hother =>
      refine iff_of_false (by simp) fun hwords ↦ ?_
      exact hother old new (congrArg some hwords)

/-- Ranges that are spelled without a mark's characters are found between the marks, and also where
the closing mark is missing. -/
theorem spelledRanges?_of_words {lead old gap new trail closing : List Char} (hlead : Blank lead)
    (hgap : Blank gap) (hne : gap ≠ []) (htrail : Blank trail) (hold : Word ('-' :: old))
    (hnew : Word ('+' :: new)) (holdAt : '@' ∉ old) (hnewAt : '@' ∉ new)
    (hclosing : closing = [] ∨ ∃ remark, closing = " @@".toList ++ remark) :
    spelledRanges?
        ("@@ ".toList ++ (lead ++ ('-' :: old ++ (gap ++ ('+' :: new ++ trail))) ++ closing)) =
      some (old, new) := by
  have hblank {text : List Char} (htext : Blank text) : '@' ∉ text := fun h ↦
    absurd (htext '@' h) (by decide)
  generalize hranges : lead ++ ('-' :: old ++ (gap ++ ('+' :: new ++ trail))) = ranges
  have hat : '@' ∉ ranges := by
    simp [← hranges, hblank hlead, hblank hgap, hblank htrail, holdAt, hnewAt]
  have hmark : ¬ [' ', '@', '@'] <:+: ranges := fun h ↦ hat (h.subset (by decide))
  have hbefore : Text.before [' ', '@', '@'] (ranges ++ closing) = ranges := by
    refine (Text.before_eq_iff (by decide)).2 ⟨hmark, ?_⟩
    obtain rfl | ⟨remark, rfl⟩ := hclosing
    · exact .inl (List.append_nil _)
    · exact .inr ⟨remark, rfl⟩
  refine spelledRanges?_eq_some_iff.2 ⟨_, rfl, (congrArg Text.words hbefore).trans ?_⟩
  exact Text.words_eq_pair_iff.2
    ⟨lead, gap, trail, hranges.symm, hlead, hgap, hne, htrail, hold, hnew⟩

/-- The ranges that are found in a spelled header are its own. -/
private theorem spelledRanges?_chars (s : SpelledHeader) :
    spelledRanges? s.chars = some (s.old.chars, s.new.chars) := by
  have hrange (r : SpelledRange) : '@' ∉ r.chars := fun h ↦ by
    obtain h | h | h := SpelledRange.mem_chars h <;> exact absurd h (by decide)
  refine spelledRanges?_of_words s.lead_blank s.gap_blank s.gap_ne_nil s.trail_blank
    (s.old.word_cons (by decide)) (s.new.word_cons (by decide)) (hrange s.old) (hrange s.new) ?_
  rw [SpelledHeader.closing]
  cases s.remark? with
  | none => exact .inl rfl
  | some remark => exact .inr ⟨remark, rfl⟩

/-- A line in which spelled ranges are found is a spelled header. -/
private theorem exists_chars_eq {line : List Char} {old new : SpelledRange}
    (h : spelledRanges? line = some (old.chars, new.chars)) :
    ∃ s : SpelledHeader, s.chars = line ∧ s.old = old ∧ s.new = new := by
  obtain ⟨rest, rfl, hwords⟩ := spelledRanges?_eq_some_iff.1 h
  obtain ⟨lead, gap, trail, hbody, hlead, hgap, hne, htrail, -, -⟩ :=
    Text.words_eq_pair_iff.1 hwords
  have hspace : ' ' ∉ ['@', '@'] := by decide
  obtain ⟨-, hrest⟩ := (Text.before_eq_iff hspace).1 hbody
  obtain ⟨remark?, hremark⟩ : ∃ remark? : Option (List Char), rest =
      lead ++ ('-' :: old.chars ++ (gap ++ ('+' :: new.chars ++ trail))) ++
        match remark? with
        | none => []
        | some remark => " @@".toList ++ remark := by
    obtain hrest | ⟨remark, hrest⟩ := hrest
    · exact ⟨none, hrest.trans (List.append_nil _).symm⟩
    · exact ⟨some remark, hrest⟩
  exact ⟨⟨lead, old, gap, new, trail, remark?, hlead, hgap, hne, htrail⟩,
    congrArg ("@@ ".toList ++ ·) hremark.symm, rfl, rfl⟩

private theorem ofHeader_eq_ok_iff {line : List Char} {h : OpenHunk} :
    ofHeader line = .ok h ↔
      ∃ old new oldRange newRange, spelledRanges? line = some (old, new) ∧
        range? old = some oldRange ∧ range? new = some newRange ∧
        h = ⟨firstLine oldRange, firstLine newRange, oldRange.2.toNat, newRange.2.toNat, []⟩ := by
  rw [ofHeader]
  cases spelledRanges? line with
  | none => simp
  | some ranges =>
    obtain ⟨old, new⟩ := ranges
    constructor
    · intro heq
      dsimp only at heq
      split at heq
      · cases heq
      · next oldRange hold =>
        split at heq
        · cases heq
        · next newRange hnew =>
          cases heq
          exact ⟨old, new, oldRange, newRange, rfl, hold, hnew, rfl⟩
    · rintro ⟨_, _, oldRange, newRange, hranges, hold, hnew, rfl⟩
      cases hranges
      simp only [hold, hnew]

private theorem ok_or_malformed (line : List Char) :
    (∃ h, ofHeader line = .ok h) ∨ ∃ text, ofHeader line = .error (.malformedHeader text) := by
  rw [ofHeader]
  split
  · exact .inr ⟨_, rfl⟩
  · split
    · exact .inr ⟨_, rfl⟩
    · split
      · exact .inr ⟨_, rfl⟩
      · exact .inl ⟨_, rfl⟩

/-- The lines that are read as headers are the spelled headers. The numbers of lines still to come
are the lengths of the ranges, the starts are the numbers of their first lines, and no line has been
read. Any other line is a malformed header. -/
theorem ofHeader_iff (line : List Char) :
    (∀ h : OpenHunk, ofHeader line = .ok h ↔
      ∃ s : SpelledHeader, s.chars = line ∧ h.oldLeft = s.old.length ∧ h.newLeft = s.new.length ∧
        h.oldStart.toNat = s.old.first ∧ h.newStart.toNat = s.new.first ∧ h.lines = []) ∧
    ((∃ h, ofHeader line = .ok h) ∨ ∃ text, ofHeader line = .error (.malformedHeader text)) := by
  refine ⟨fun h ↦ ofHeader_eq_ok_iff.trans ⟨?_, ?_⟩, ok_or_malformed line⟩
  · rintro ⟨_, _, oldRange, newRange, hranges, hold, hnew, rfl⟩
    obtain ⟨old, rfl, -⟩ := range?_eq_some_iff.1 hold
    obtain ⟨new, rfl, -⟩ := range?_eq_some_iff.1 hnew
    obtain ⟨s, rfl, rfl, rfl⟩ := exists_chars_eq hranges
    obtain ⟨range, hrange, holdLength, holdFirst⟩ := exists_range?_chars s.old
    cases hold.symm.trans hrange
    obtain ⟨range, hrange, hnewLength, hnewFirst⟩ := exists_range?_chars s.new
    cases hnew.symm.trans hrange
    exact ⟨s, rfl, holdLength, hnewLength, holdFirst, hnewFirst, rfl⟩
  · rintro ⟨s, rfl, hOld, hNew, hold, hnew, hlines⟩
    obtain ⟨oldRange, holdRange, holdLength, holdFirst⟩ := exists_range?_chars s.old
    obtain ⟨newRange, hnewRange, hnewLength, hnewFirst⟩ := exists_range?_chars s.new
    refine ⟨_, _, oldRange, newRange, spelledRanges?_chars s, holdRange, hnewRange, ?_⟩
    obtain ⟨oldStart, newStart, oldLeft, newLeft, lines⟩ := h
    rw [OpenHunk.mk.injEq]
    exact ⟨UInt32.toNat_inj.1 (hold.trans holdFirst.symm),
      UInt32.toNat_inj.1 (hnew.trans hnewFirst.symm), hOld.trans holdLength.symm,
      hNew.trans hnewLength.symm, hlines⟩

section Instance

/-- A header with a plus sign in front of a number. -/
def signedHeader : List Char := "@@ -+1 +1 @@".toList

/-- A header without its closing mark. -/
def openHeader : List Char := "@@ -1 +1".toList

/-- Two headers are read that do not follow the format. -/
theorem exists_ofHeader_not_strict :
    (∃ h, ofHeader signedHeader = .ok h) ∧ (∃ h, ofHeader openHeader = .ok h) ∧
      ∀ s : SpelledHeader, s.Strict → s.chars ≠ signedHeader ∧ s.chars ≠ openHeader := by
  refine ⟨⟨_, rfl⟩, ⟨_, rfl⟩, fun s hs ↦ ⟨fun heq ↦ ?_, fun heq ↦ ?_⟩⟩
  · have hranges := spelledRanges?_chars s
    have hsigned : spelledRanges? signedHeader = some (['+', '1'], ['1']) := rfl
    rw [heq, hsigned, Option.some_inj, Prod.mk.injEq] at hranges
    exact hs.old_unsigned.plus_notMem (hranges.1 ▸ List.mem_cons_self)
  · obtain ⟨remark, hremark⟩ := Option.isSome_iff_exists.1 hs.closed
    have hmark : [' ', '@', '@'] <:+: s.chars := by
      rw [SpelledHeader.chars, SpelledHeader.closing, hremark, ← List.append_assoc]
      exact ⟨_, remark, List.append_assoc _ _ _⟩
    rw [heq] at hmark
    exact absurd hmark (by decide)

end Instance

end OpenHunk

end Patchwork.Diff
