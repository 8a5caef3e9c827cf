import Patchwork.Proofs.Hunk.Inverse
import Patchwork.Proofs.Lines.Terminators

/-!
# What a hunk leaves of the bytes of a file

A hunk renews the lines at its place (`HunkLine.renewed`): it keeps those of its context, each with
its own terminator, and puts in others in the style of the file. Lines outside its place are
written as they were read. Only where the hunk reaches the end of the file are lines given a
terminator or relieved of it. Main statement: `bytes_of_patch`.
-/

namespace Patchwork

namespace HunkLine

variable {α β : Type}

/-- What hunk lines make of the lines at their place: those of the context are kept, and those that
are added are made of their text. -/
def renewed (fresh : String → α) : List α → List HunkLine → List α
  | _, [] => []
  | olds, .context _ :: lines => olds.take 1 ++ renewed fresh (olds.drop 1) lines
  | olds, .remove _ :: lines => renewed fresh (olds.drop 1) lines
  | olds, .add text :: lines => fresh text :: renewed fresh olds lines
  | olds, .noNewline :: lines => renewed fresh olds lines

/-- Lines that go together are renewed into lines that go together. -/
theorem forall₂_renewed {R : α → β → Prop} {fresh : String → α} {fresh' : String → β}
    (hfresh : ∀ text, R (fresh text) (fresh' text)) {olds : List α} {olds' : List β}
    (h : List.Forall₂ R olds olds') (lines : List HunkLine) :
    List.Forall₂ R (renewed fresh olds lines) (renewed fresh' olds' lines) := by
  induction lines generalizing olds olds' with
  | nil => exact .nil
  | cons line lines ih =>
    cases line with
    | context _ => exact List.rel_append (List.forall₂_take 1 h) (ih (List.forall₂_drop 1 h))
    | remove _ => exact ih (List.forall₂_drop 1 h)
    | add text => exact .cons (hfresh text) (ih h)
    | noNewline => exact ih h

/-- A renewed line is one of those that the old side is about, or it has been made. -/
theorem mem_renewed {fresh : String → α} {olds : List α} {lines : List HunkLine} {x : α}
    (h : x ∈ renewed fresh olds lines) :
    x ∈ olds.take (lines.countP isOld) ∨ ∃ text, x = fresh text := by
  induction lines generalizing olds with
  | nil => cases h
  | cons line lines ih =>
    have htake : olds.take 1 ++ (olds.drop 1).take (lines.countP isOld) =
        olds.take (lines.countP isOld + 1) := by
      rw [Nat.add_comm, List.take_add]
    cases line with
    | context _ =>
      rw [List.countP_cons_of_pos rfl, ← htake, List.mem_append, or_assoc]
      exact (List.mem_append.1 h).imp_right ih
    | remove _ =>
      rw [List.countP_cons_of_pos rfl, ← htake, List.mem_append, or_assoc]
      exact .inr (ih h)
    | add text =>
      obtain rfl | h := List.mem_cons.1 h
      · exact .inr ⟨text, rfl⟩
      · exact ih h
    | noNewline => exact ih h

end HunkLine

namespace Hunk

open HunkLine (isOld renewed)

variable {α β : Type}

/-- What becomes of items that go with the lines of a file when a hunk renews those at its place. -/
def renew (fresh : String → α) (h : Hunk) (items : List α) : List α :=
  items.take h.anchor ++ renewed fresh (items.drop h.anchor) h.lines ++
    items.drop (h.anchor + h.lines.countP isOld)

/-- Items that go together still do when a hunk has renewed them. -/
theorem forall₂_renew {R : α → β → Prop} {fresh : String → α} {fresh' : String → β}
    (hfresh : ∀ text, R (fresh text) (fresh' text)) {items : List α} {others : List β}
    (hitems : List.Forall₂ R items others) (h : Hunk) :
    List.Forall₂ R (h.renew fresh items) (h.renew fresh' others) := by
  have hplace := HunkLine.forall₂_renewed hfresh (List.forall₂_drop h.anchor hitems) h.lines
  exact List.rel_append (List.rel_append (List.forall₂_take _ hitems) hplace)
    (List.forall₂_drop _ hitems)

end Hunk

namespace LineSet

open HunkLine (isOld renewed)

variable {s t : LineSet} {h : Hunk} {text : String} {i : Nat}

/-- The pairs behind one that has been taken out. -/
private theorem drop_pairs_erase (n : Nat) :
    (s.erase i).pairs.drop (i + n) = s.pairs.drop (i + 1 + n) := by
  refine List.ext_getElem? fun k ↦ ?_
  rw [pairs_erase, List.getElem?_drop, List.getElem?_drop,
    List.getElem?_eraseIdx_of_ge (by omega)]
  congr 1
  omega

/-- The pairs behind one that has been put in. -/
private theorem drop_pairs_insert {line : String} (h : i ≤ s.lines.length) (n : Nat) :
    (s.insert i line).pairs.drop (i + 1 + n) = s.pairs.drop (i + n) := by
  refine List.ext_getElem? fun k ↦ ?_
  rw [pairs_insert s h, List.getElem?_drop, List.getElem?_drop,
    List.getElem?_insertIdx_of_gt (by omega)]
  congr 1
  omega

/-- Hunk lines renew the pairs behind the cursor. -/
theorem pairs_applyLines {j : Nat} {lines : List HunkLine}
    (happly : s.applyLines i lines = .ok (t, j)) :
    t.pairs = s.pairs.take i ++
      renewed (fun text ↦ (s.comparable text, s.style)) (s.pairs.drop i) lines ++
        s.pairs.drop (i + lines.countP isOld) := by
  induction lines generalizing s i with
  | nil =>
    cases happly
    simp [renewed]
  | cons line lines ih =>
    cases line with
    | context text =>
      rw [applyLines] at happly
      split at happly
      · cases happly
      · rw [ih happly, renewed, List.countP_cons_of_pos rfl, List.take_add, List.drop_drop,
          List.append_assoc (s.pairs.take i), Nat.add_assoc i 1, Nat.add_comm 1]
    | remove text =>
      rw [applyLines] at happly
      split at happly
      · cases happly
      · have hfront : (s.erase i).pairs.take i = s.pairs.take i := by
          rw [pairs_erase, List.take_eraseIdx_eq_take_of_le _ _ _ (Nat.le_refl i)]
        have hbehind : (s.erase i).pairs.drop i = s.pairs.drop (i + 1) := drop_pairs_erase 0
        rw [ih happly, renewed, hfront, hbehind, drop_pairs_erase, List.drop_drop,
          List.countP_cons_of_pos rfl, Nat.add_assoc i 1, Nat.add_comm 1]
        rfl
    | add text =>
      rw [applyLines] at happly
      split at happly
      · cases happly
      · next hle =>
        have hle : i ≤ s.lines.length := Nat.le_of_not_lt hle
        have hfront : (s.insert i (s.comparable text)).pairs.take (i + 1) =
            s.pairs.take i ++ [(s.comparable text, s.style)] := by
          rw [pairs_insert s hle, List.take_add_one, List.getElem?_insertIdx_self, length_pairs,
            if_pos hle, List.take_insertIdx_eq_take_of_le _ _ _ _ (Nat.le_refl i)]
          rfl
        have hbehind : (s.insert i (s.comparable text)).pairs.drop (i + 1) = s.pairs.drop i :=
          drop_pairs_insert hle 0
        rw [ih happly, renewed, hfront, hbehind, drop_pairs_insert hle,
          List.append_assoc (s.pairs.take i)]
        rfl
    | noNewline => exact ih happly

/-- A hunk that is spliced in renews the pairs at its place and leaves the style. -/
theorem pairs_of_splice {j : Nat} (hsplice : s.splice h = .ok (t, j)) :
    t.pairs = h.renew (fun text ↦ (s.comparable text, s.style)) s.pairs ∧ t.style = s.style :=
  ⟨pairs_applyLines hsplice, (fits_of_splice hsplice).2.1.style⟩

/-- What a hunk does to the final newline does not matter to the pairs. -/
theorem pairs_of_patch (hpatch : s.patch h = .ok t) :
    t.pairs = h.renew (fun text ↦ (s.comparable text, s.style)) s.pairs ∧ t.style = s.style := by
  obtain ⟨t', hsplice, ht⟩ := exists_splice_eq_of_patch hpatch
  obtain ⟨hpairs, hstyle⟩ := pairs_of_splice hsplice
  have hsame : t.pairs = t'.pairs ∧ t.style = t'.style := by
    rw [ht]
    exact ⟨rfl, rfl⟩
  exact ⟨hsame.1.trans hpairs, hsame.2.trans hstyle⟩

/-- A line that a hunk adds, as it compares with the others and with a terminator of their style. -/
def added (s : LineSet) (text : String) : List Char := (s.comparable text).toList ++ s.style.chars

/-- The raw lines that a hunk makes of those of a file: its own at its place, and the others as they
are. -/
def renewAt (s : LineSet) (h : Hunk) (lines : List (List Char)) : List (List Char) :=
  lines.take h.anchor ++ renewed s.added (lines.drop h.anchor) h.lines ++
    lines.drop (h.anchor + h.oldLines.length)

/-- A hunk renews the raw lines of a text. -/
private theorem spells_of_splice (hsplice : (ofText text).splice h = .ok (t, i)) :
    List.Forall₂ (Lines.Spells (ofText text).style)
      ((ofText text).renewAt h (Lines.raw text.toList)) t.pairs := by
  have hpairs : List.Forall₂ (Lines.Spells (ofText text).style) (Lines.raw text.toList)
      (ofText text).pairs := by
    rw [pairs_ofText]
    exact Lines.spells_ofChars text.toList
  have hcount : h.oldLines.length = h.lines.countP isOld := List.countP_eq_length_filter.symm
  rw [(pairs_of_splice hsplice).1, renewAt, hcount]
  exact Hunk.forall₂_renew (fun _ ↦ Lines.spells_append_chars _ _) hpairs h

/-- Lines are left behind a hunk when there are some behind its place. -/
private theorem after_lt_length_iff (ht : (ofText text).Spliced h.anchor h.lines t) :
    h.after < t.lines.length ↔
      h.anchor + h.oldLines.length < (Lines.raw text.toList).length := by
  have hlength := congrArg List.length ht.lines
  rw [List.length_append, List.length_append, List.length_map, List.length_take,
    List.length_drop, ← length_pairs (ofText text), pairs_ofText,
    ← (Lines.spells_ofChars text.toList).length_eq, Hunk.length_newTexts,
    List.countP_eq_length_filter] at hlength
  rw [Hunk.after, hlength, Hunk.oldLines]
  omega

/-- Where lines are left behind a hunk, all lines are as they should be at the end. -/
private theorem finished_renewAt
    (hbehind : h.anchor + h.oldLines.length < (Lines.raw text.toList).length) :
    Lines.finished (ofText text).style (ofText text).missingFinalNewline
      ((ofText text).renewAt h (Lines.raw text.toList)) =
        (ofText text).renewAt h (Lines.raw text.toList) := by
  have hne : (Lines.raw text.toList).drop (h.anchor + h.oldLines.length) ≠ [] := by
    rw [Ne, List.drop_eq_nil_iff]
    omega
  have hproper := Lines.proper_raw text.toList
  rw [← List.take_append_drop (h.anchor + h.oldLines.length) (Lines.raw text.toList)] at hproper
  have hfront := hproper.isEnded_of_append hne
  rw [List.take_add, List.forall_mem_append] at hfront
  refine Lines.finished_eq_self ?_ fun _ ↦ ?_
  · rw [renewAt, List.dropLast_append_of_ne_nil hne, List.forall_mem_append,
      List.forall_mem_append]
    refine ⟨⟨hfront.1, fun line hline ↦ ?_⟩, hproper.of_append_right.isEnded_of_mem_dropLast⟩
    obtain hold | ⟨text, rfl⟩ := HunkLine.mem_renewed hline
    · rw [List.countP_eq_length_filter] at hold
      exact hfront.2 line hold
    · exact Lines.isEnded_append_chars _ _
  · have hraw : Lines.raw text.toList ≠ [] := List.ne_nil_of_drop_ne_nil hne
    rw [missingFinalNewline_ofText hraw]
    simp only [renewAt]
    rw [List.getLast_append_of_ne_nil _ hne, List.getLast_drop]

/-- A hunk that is applied to a file leaves the lines in front of it and behind it as they were
read, and those of its context with their own terminators; a line that it adds has the terminator of
the file's style. Where it reaches the end of the file, the last line has a terminator exactly when
the hunk's new side says so, and a line that now needs one is given that of the style. -/
theorem bytes_of_patch (hread : ofBytes text.toUTF8 = .ok s) (hpatch : s.patch h = .ok t) :
    t.bytes = (String.ofList <| List.flatten <|
      let lines := s.renewAt h (Lines.raw text.toList)
      if h.anchor + h.oldLines.length < (Lines.raw text.toList).length then lines
      else Lines.finished s.style h.newMissingNewline lines).toUTF8 := by
  rw [ofBytes_toUTF8] at hread
  cases hread
  cases hsplice : (ofText text).splice h with
  | error e =>
    rw [patch, hsplice] at hpatch
    cases hpatch
  | ok done =>
    obtain ⟨t', i⟩ := done
    obtain ⟨-, ht, rfl⟩ := fits_of_splice hsplice
    have hspells := spells_of_splice hsplice
    rw [patch, hsplice] at hpatch
    simp only [after_lt_length_iff ht] at hpatch
    split at hpatch
    · next hlt =>
      cases hpatch
      rw [if_pos hlt, bytes, LineSet.text, joinPairs_of_spells hspells, ht.missingFinalNewline,
        finished_renewAt hlt]
    · next hge =>
      split at hpatch
      · cases hpatch
      · cases hpatch
        rw [if_neg hge, bytes, LineSet.text]
        exact congrArg (fun chars ↦ (String.ofList chars).toUTF8) (joinPairs_of_spells hspells)

section Instance

/-- A file with carriage returns, a bare newline among them, and no newline at the end. -/
def patchy : String := "a\r\nb\nc\r\nd"

/-- A hunk in the midst of the file. -/
def inner : Hunk := ⟨2, 2, [.context "b", .add "x"]⟩

/-- A hunk that goes on to the end of the file and adds a line there. -/
def closing : Hunk := ⟨3, 3, [.remove "c", .context "d", .noNewline, .add "x"]⟩

theorem bytes_of_patch_patchy :
    ∃ s t u, ofBytes patchy.toUTF8 = .ok s ∧
      s.patch inner = .ok t ∧ t.bytes = "a\r\nb\nx\r\nc\r\nd".toUTF8 ∧
      s.patch closing = .ok u ∧ u.bytes = "a\r\nb\nd\r\nx".toUTF8 := by
  have hread := ofBytes_toUTF8 patchy
  obtain ⟨t, ht⟩ : ∃ t, (ofText patchy).patch inner = .ok t := ⟨_, rfl⟩
  obtain ⟨u, hu⟩ : ∃ u, (ofText patchy).patch closing = .ok u := ⟨_, rfl⟩
  refine ⟨_, t, u, hread, ht, ?_, hu, ?_⟩
  · rw [bytes_of_patch hread ht]
    decide
  · rw [bytes_of_patch hread hu]
    decide

end Instance

end LineSet

end Patchwork
