import Mathlib.Control.Monad.Basic
import Patchwork.Proofs.Apply.Run
import Patchwork.Proofs.Diff.Document
import Patchwork.Proofs.Diff.OpenHunk

/-!
# What the reader accepts

A text that is read to its end gives changes with the paths that their kinds need
(`FileChange.Shaped`), and each of their hunks stands in the text. Each line that is read keeps this
of all that has been understood (`Reader.Sound.step`). Main statement: `wellFormed_of_parse`.
-/

namespace Patchwork

namespace FileChange

/-- The change has the paths that its kind needs and no others; a modification has hunks, and a
deletion has none. -/
inductive Shaped : FileChange → Prop where
  | modify {p : Path} {hunks : List Hunk} (hne : hunks ≠ []) :
      Shaped ⟨.modify, some p, some p, hunks⟩
  | add {p : Path} {hunks : List Hunk} : Shaped ⟨.add, none, some p, hunks⟩
  | delete {p : Path} : Shaped ⟨.delete, some p, none, []⟩
  | rename {source target : Path} {hunks : List Hunk} :
      Shaped ⟨.rename, some source, some target, hunks⟩
  | copy {source target : Path} {hunks : List Hunk} :
      Shaped ⟨.copy, some source, some target, hunks⟩

/-- What can still be wrong with a change that has its paths: a move goes nowhere, an addition has
several hunks or expects content, or a hunk starts at line zero. -/
theorem Shaped.defect {c : FileChange} (hc : c.Shaped) {defect : Defect}
    (h : c.task = .error defect) :
    (∃ path, defect = .samePath path) ∨ (∃ count, defect = .severalAddHunks count) ∨
      (∃ hunk, defect = .addExpectsContent hunk) ∨ ∃ hunk, defect = .zeroStart hunk := by
  rw [task] at h
  cases hkind : c.taskOfKind with
  | ok task =>
    simp only [hkind, bind, Except.bind] at h
    split at h
    · cases h
      exact .inr (.inr (.inr ⟨_, rfl⟩))
    · cases h
  | error other =>
    simp only [hkind, bind, Except.bind] at h
    cases h
    cases hc with
    | modify hne => cases hkind
    | delete => cases hkind
    | add =>
      simp only [taskOfKind, target, bind, Except.bind] at hkind
      split at hkind
      · cases hkind
        exact .inr (.inl ⟨_, rfl⟩)
      · split at hkind
        · cases hkind
          exact .inr (.inr (.inl ⟨_, rfl⟩))
        · cases hkind
    | rename | copy =>
      simp only [taskOfKind, move, source, target, bind, Except.bind] at hkind
      split at hkind
      · next hmove =>
        split at hmove
        · cases hmove
          cases hkind
          exact .inl ⟨_, rfl⟩
        · cases hmove
      · cases hkind

end FileChange

namespace Diff

namespace Section

/-- The reading comes to a change with the paths that its kind needs, if to any, and with no hunks
but those of the section. -/
def Gives (s : Section) (reading : Reading) : Prop :=
  ∀ c ∈ reading.change?, c.Shaped ∧ ∀ h ∈ c.hunks, h ∈ s.hunks

variable {s : Section} {reading : Reading}

private theorem gives_of_move {kind : ChangeKind} {source target : Option Path}
    (hkind : kind = .copy ∨ kind = .rename) (h : s.move kind source target = .ok reading) :
    s.Gives reading := by
  rw [move] at h
  split at h
  · cases h
  · split at h
    · cases h
    · cases h
      rintro c ⟨⟩
      obtain rfl | rfl := hkind
      · exact ⟨.copy, fun _ hmem ↦ hmem⟩
      · exact ⟨.rename, fun _ hmem ↦ hmem⟩

private theorem gives_of_edit (h : s.edit = .ok reading) : s.Gives reading := by
  simp only [edit] at h
  split at h
  · cases h
  · split at h
    · split at h
      · cases h
      · cases h
        rintro c ⟨⟩
        exact ⟨.add, fun _ hmem ↦ hmem⟩
    · split at h
      · split at h
        · cases h
        · cases h
          rintro c ⟨⟩
          exact ⟨.delete, fun _ hmem ↦ absurd hmem List.not_mem_nil⟩
      · split at h
        · cases h
          rintro c ⟨⟩
        · next hne =>
          split at h
          · cases h
          · cases h
            rintro c ⟨⟩
            exact ⟨.modify (by simpa using hne), fun _ hmem ↦ hmem⟩

/-- A section can only be finished as a change with the paths that its kind needs. -/
theorem gives_of_reading (h : s.reading = .ok reading) : s.Gives reading := by
  rw [Section.reading] at h
  split at h
  · exact gives_of_move (.inl rfl) h
  · split at h
    · exact gives_of_move (.inr rfl) h
    · exact gives_of_edit h

end Section

namespace Notation

/-- A line is kept whole when a hunk begins with it. -/
theorem eq_dropReturn_of_ofLine {line text : List Char} (h : ofLine line = .hunk text) :
    text = dropReturn line := by
  have hread (readings : List (String × (List Char → Notation)))
      (hreadings : ∀ r ∈ readings, ∀ rest text, r.2 rest = .hunk text → text = r.1.toList ++ rest)
      (h : read (dropReturn line) readings = .hunk text) : text = dropReturn line := by
    induction readings with
    | nil =>
      rw [read] at h
      split at h <;> cases h
    | cons r readings ih =>
      rw [List.forall_mem_cons] at hreadings
      rw [read] at h
      split at h
      · next rest hrest => rw [hreadings.1 rest text h, Text.after?_eq_some_iff.1 hrest]
      · exact ih hreadings.2 h
  refine hread leads ?_ h
  simp [leads, eq_comm]

end Notation

namespace Reader

/-- What is known of all that has been understood of the lines read so far. -/
structure Sound (r : Reader) (lines : List (List Char)) : Prop where
  changes : ∀ c ∈ r.changes, c.Shaped ∧ ∀ h ∈ c.hunks, h.ReadFrom lines
  current : ∀ s ∈ r.current, ∀ h ∈ s.hunks, h.ReadFrom lines
  hunk : ∀ h ∈ r.hunk, h.EndsIn lines

namespace Sound

variable {r r' : Reader} {lines : List (List Char)} {line : List Char}

theorem start : Reader.start.Sound [] where
  changes := by simp [Reader.start, Reader.changes]
  current := by simp [Reader.start]
  hunk := by simp [Reader.start]

/-- More lines do not matter to what has been closed. -/
theorem append (h : r.Sound lines) (hnone : r.hunk = none) (others : List (List Char)) :
    r.Sound (lines ++ others) where
  changes c hc := ⟨(h.changes c hc).1, fun hunk hmem ↦ ((h.changes c hc).2 hunk hmem).append others⟩
  current s hs hunk hmem := (h.current s hs hunk hmem).append others
  hunk := by simp [hnone]

/-- What is noted of the open section does not matter to its hunks. -/
theorem note (h : r.Sound lines) {f : Section → Section} (hf : ∀ s, (f s).hunks = s.hunks) :
    (r.note f).Sound lines where
  changes := h.changes
  current s hs := by
    obtain ⟨s', hs', rfl⟩ := Option.map_eq_some_iff.1 hs
    rw [hf]
    exact h.current s' hs'
  hunk := h.hunk

/-- A hunk that has all its lines goes to the open section. -/
theorem closeHunk (h : r.Sound lines) (hcomplete : r.hunk.all OpenHunk.isComplete = true) :
    r.closeHunk.Sound lines := by
  rw [Reader.closeHunk]
  split
  · exact h
  · next hunk hhunk =>
    rw [hhunk, Option.all_some] at hcomplete
    refine ⟨h.changes, fun s hs ↦ ?_, by simp⟩
    obtain ⟨s', hs', rfl⟩ := Option.map_eq_some_iff.1 hs
    rw [List.forall_mem_append, List.forall_mem_singleton]
    exact ⟨h.current s' hs', (h.hunk hunk hhunk).readFrom hcomplete⟩

/-- A finished section joins the others. -/
theorem closeSection (h : r.Sound lines) (hclose : r.closeSection = .ok r') : r'.Sound lines := by
  obtain ⟨-, rfl⟩ | ⟨s, hs, reading, hreading, rfl⟩ := closeSection_eq_ok_iff.1 hclose
  · exact h
  · refine ⟨fun c hc ↦ ?_, by simp, h.hunk⟩
    rw [Reader.changes, List.filterMap_append, List.mem_append] at hc
    obtain hc | hc := hc
    · exact h.changes c hc
    · obtain ⟨hshaped, hhunks⟩ := Section.gives_of_reading hreading c (by simpa using hc)
      exact ⟨hshaped, fun hunk hmem ↦ h.current s hs hunk (hhunks hunk hmem)⟩

/-- A new section has no hunks. -/
theorem openSection (h : r.Sound lines) {header : Option (Path × Path)}
    (hopen : r.openSection header = .ok r') : r'.Sound lines := by
  obtain ⟨closed, hclose, rfl⟩ := openSection_eq_ok_iff.1 hopen
  have hclosed := h.closeSection hclose
  refine ⟨hclosed.changes, fun s hs ↦ ?_, hclosed.hunk⟩
  cases hs
  simp [Section.opened]

/-- Beside an open hunk that goes on, everything is as it was. -/
theorem goOn (h : r.Sound lines) {later : OpenHunk} (hlater : later.EndsIn (lines ++ [line])) :
    Sound { r with hunk := some later } (lines ++ [line]) where
  changes c hc := ⟨(h.changes c hc).1, fun hunk hmem ↦ ((h.changes c hc).2 hunk hmem).append _⟩
  current s hs hunk hmem := (h.current s hs hunk hmem).append _
  hunk := by
    rintro _ ⟨⟩
    exact hlater

/-- A line outside the hunks. -/
theorem readNotation (h : r.Sound lines) (hnone : r.hunk = none)
    (hread : r.readNotation (.ofLine line) = .ok r') : r'.Sound (lines ++ [line]) := by
  have hlines := h.append hnone [line]
  match hline : Notation.ofLine line with
  | .section files =>
    rw [hline] at hread
    exact hlines.openSection hread
  | .hunk text =>
    rw [hline, Reader.readNotation] at hread
    split at hread
    · cases hread
    · rw [Notation.eq_dropReturn_of_ofLine hline] at hread
      cases hopened : OpenHunk.ofHeader (Notation.dropReturn line) with
      | error problem =>
        rw [hopened] at hread
        cases hread
      | ok opened =>
        rw [hopened] at hread
        cases hread
        exact h.goOn (OpenHunk.endsIn_of_ofHeader hopened)
  | .oldFile path =>
    simp only [hline, Reader.readNotation] at hread
    split at hread
    · cases hopen : r.openSection none with
      | error problem =>
        rw [hopen] at hread
        cases hread
      | ok opened =>
        rw [hopen] at hread
        cases hread
        exact (hlines.openSection hopen).note fun _ ↦ rfl
    · cases hread
      exact hlines.note fun _ ↦ rfl
  | .newFile _ | .created | .deleted | .renameFrom _ | .renameTo _ | .copyFrom _ | .copyTo _ =>
    rw [hline] at hread
    cases hread
    exact hlines.note fun _ ↦ rfl
  | .binary _ =>
    rw [hline] at hread
    cases hread
  | .other =>
    rw [hline] at hread
    cases hread
    exact hlines

/-- Any line that is read. -/
theorem step (h : r.Sound lines) (hstep : r.step line = .ok r') : r'.Sound (lines ++ [line]) := by
  rw [Reader.step] at hstep
  split at hstep
  · next hnone => exact h.readNotation hnone hstep
  · next hunk hhunk =>
    have hends := h.hunk hunk hhunk
    split at hstep
    · next hmarker =>
      split at hstep
      · cases hstep
      · next later hmark =>
        cases hstep
        exact h.goOn (hends.mark hmarker hmark)
    · split at hstep
      · next hcomplete =>
        have hall : r.hunk.all OpenHunk.isComplete = true := by rwa [hhunk, Option.all_some]
        exact (h.closeHunk hall).readNotation r.closeHunk_hunk hstep
      · split at hstep
        · cases hstep
        · next later hpush =>
          cases hstep
          exact h.goOn (hends.push hpush)

theorem readLines {others : List (List Char)} (h : r.Sound lines)
    (hread : r.readLines others = .ok r') : r'.Sound (lines ++ others) := by
  induction others generalizing r lines with
  | nil =>
    cases hread
    rwa [List.append_nil]
  | cons line others ih =>
    obtain ⟨r₁, hstep, hothers⟩ := readLines_cons_eq_ok_iff.1 hread
    rw [List.append_cons]
    exact ih (h.step hstep) hothers

/-- What is open at the end of a diff is closed. -/
theorem finish (h : r.Sound lines) (hfinish : r.finish = .ok r') : r'.Sound lines := by
  rw [Reader.finish] at hfinish
  split at hfinish
  · next hcomplete => exact (h.closeHunk hcomplete).closeSection hfinish
  · cases hfinish

end Sound

end Reader

/-- Of a text that is read to its end, every change has the paths that its kind needs, every hunk
stands in the text and can be printed, and so the hunk is read back from what is printed for it. The
document can be refused only for a move that goes nowhere, for what an addition's hunks are, or for
a hunk that starts at line zero. -/
theorem wellFormed_of_parse {text : String} {d : Document} (h : parse text = .ok d) :
    (∀ c ∈ d.changes, c.Shaped ∧
      ∀ hunk ∈ c.hunks, hunk.StandsIn (linesOf text) ∧ hunk.Printable) ∧
    (∀ e, d.check = .error e →
      (∃ path, e.fault = .defect (.samePath path)) ∨
        (∃ count, e.fault = .defect (.severalAddHunks count)) ∨
          (∃ hunk, e.fault = .defect (.addExpectsContent hunk)) ∨
            ∃ hunk, e.fault = .defect (.zeroStart hunk)) ∧
    ∀ c ∈ d.changes, ∀ hunk ∈ c.hunks, ∀ ending ∈ ["", "\n"],
      parse ("--- a/x\n+++ b/x\n" ++ hunk.format ++ ending) =
        .ok ⟨[⟨.modify, some ⟨"x"⟩, some ⟨"x"⟩, [hunk]⟩]⟩ := by
  obtain ⟨r, r', hread, hfinish, rfl⟩ := parse_eq_ok_iff.1 h
  have hsound : r'.Sound (linesOf text) := by
    simpa using (Reader.Sound.start.readLines hread).finish hfinish
  have hprintable : ∀ c ∈ r'.changes, ∀ hunk ∈ c.hunks, hunk.Printable := fun c hc hunk hhunk ↦
    ((hsound.changes c hc).2 hunk hhunk).printable (newline_notMem_linesOf text)
  refine ⟨fun c hc ↦ ⟨(hsound.changes c hc).1, fun hunk hhunk ↦
    ⟨((hsound.changes c hc).2 hunk hhunk).stands, hprintable c hc hunk hhunk⟩⟩, ?_, ?_⟩
  · intro e he
    obtain ⟨hchange, defect, htask, hfault⟩ := Document.defect_of_check_eq_error he
    have hdefect := (hsound.changes _ (List.mem_of_getElem? hchange)).1.defect htask
    simpa [hfault] using hdefect
  · intro c hc hunk hhunk ending hending
    have hx : Path.Printable ⟨"x"⟩ := by decide
    have hhunk := hprintable c hc hunk hhunk
    have hfiles : "--- a/x\n+++ b/x\n" = oldLine ⟨"x"⟩ ++ "\n" ++ newLine ⟨"x"⟩ ++ "\n" := rfl
    simp only [List.mem_cons, List.not_mem_nil, or_false] at hending
    rw [hfiles]
    obtain rfl | rfl := hending
    · rw [String.append_empty]
      exact parse_unended hx hhunk
    · have hended := parse_fileDiff hx (by simp) (List.forall_mem_singleton.2 hhunk)
      simpa [fileDiff, String.append_assoc] using hended

section Instance

/-- A diff with a line that lost its blank, a marker in words of its own, and a new file whose only
hunk starts at line zero. -/
def zeroStartText : String :=
  "diff --git a/f b/f\n--- a/f\n+++ b/f\n@@ -1,2 +1 @@ f\n\n-b\n\\ end\n" ++
    "diff --git a/e b/e\nnew file mode 1\n@@ -0,0 +0,1 @@\r\n+x\n"

/-- The document that the diff stands for. -/
def zeroStart : Document :=
  ⟨[⟨.modify, some ⟨"f"⟩, some ⟨"f"⟩, [⟨1, 1, [.context "", .remove "b", .noNewline]⟩]⟩,
    ⟨.add, none, some ⟨"e"⟩, [⟨1, 0, [.add "x"]⟩]⟩]⟩

theorem wellFormed_of_parse_zeroStart :
    parse zeroStartText = .ok zeroStart ∧
      (∀ c ∈ zeroStart.changes, c.Shaped ∧
        ∀ hunk ∈ c.hunks, hunk.StandsIn (linesOf zeroStartText) ∧ hunk.Printable) ∧
      (∃ e, zeroStart.check = .error e ∧ e.fault = .defect (.zeroStart 0)) ∧
      ∀ c ∈ zeroStart.changes, ∀ hunk ∈ c.hunks, ∀ ending ∈ ["", "\n"],
        parse ("--- a/x\n+++ b/x\n" ++ hunk.format ++ ending) =
          .ok ⟨[⟨.modify, some ⟨"x"⟩, some ⟨"x"⟩, [hunk]⟩]⟩ := by
  have hparse : parse zeroStartText = .ok zeroStart := by decide +kernel
  obtain ⟨hshaped, -, hback⟩ := wellFormed_of_parse hparse
  exact ⟨hparse, hshaped, ⟨_, rfl, rfl⟩, hback⟩

end Instance

end Diff

end Patchwork
