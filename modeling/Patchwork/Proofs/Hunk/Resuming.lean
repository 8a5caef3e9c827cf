import Patchwork.Proofs.Hunk.Inverse

/-!
# Going on with what has been written

A set of lines can be written in between two hunks and read back. The set that is read is like the
one that was written (`LineSet.Bare.alike_ofText_text`) where there are no carriage returns and no
empty last line without its newline. Hunks do not tell such sets apart (`LineSet.Alike.patchAll`):
where there are no lines, whether a newline is missing is for the next hunk to say.
-/

namespace Patchwork

open HunkLine (oldTexts newTexts)

/-- The texts of the hunk are lines of their own, in which nothing belongs to an ending. -/
def Hunk.Bare (h : Hunk) : Prop := ∀ text ∈ h.texts, '\n' ∉ text.toList ∧ '\r' ∉ text.toList

instance (h : Hunk) : Decidable h.Bare :=
  inferInstanceAs (Decidable (∀ text ∈ h.texts, _ ∧ _))

namespace LineSet

variable {s t s' : LineSet} {h : Hunk} {hunks others : List Hunk} {text : String}

section Alike

/-- Where a hunk finds a line, or leaves one behind it, there were lines before. -/
private theorem ne_nil_of_splice {i : Nat} (hsplice : s.splice h = .ok (s', i))
    (hsome : h.hasOld = true ∨ i < s'.lines.length) : s.lines ≠ [] := by
  obtain ⟨hfits, hs', rfl⟩ := fits_of_splice hsplice
  intro hnil
  obtain hold | hbehind := hsome
  · have htext : oldTexts h.lines ≠ [] := Hunk.hasOld_iff.1 hold
    have hbefore := lines_eq_of_fits hfits
    rw [hnil] at hbefore
    simp [htext] at hbefore
  · rw [hs'.lines, hnil, List.take_nil, List.drop_nil, List.nil_append, List.append_nil,
      List.length_map, Hunk.length_newTexts, Hunk.after] at hbehind
    omega

/-- Two sets have the same lines, and if there are any, the last of them lacks its ending in both or
in none. Carriage returns belong to the endings in both or in none. -/
structure Alike (s t : LineSet) : Prop where
  lines : s.lines = t.lines
  style : s.style = .crlf ↔ t.style = .crlf
  missing : s.lines ≠ [] → s.missingFinalNewline = t.missingFinalNewline

namespace Alike

theorem symm (h : s.Alike t) : t.Alike s :=
  ⟨h.lines.symm, h.style.symm, fun hne ↦ (h.missing (h.lines ▸ hne)).symm⟩

/-- A hunk fits both sets or none. -/
private theorem fitsAt_iff (h : s.Alike t) (i : Nat) (lines : List HunkLine) (j : Nat) :
    s.FitsAt i lines j ↔ t.FitsAt i lines j := by
  refine forall₂_congr fun line _ ↦ ?_
  cases line <;> simp only [Takes, h.lines, comparable_eq_of_iff h.style]

/-- A hunk that is spliced into a set with some lines is spliced into the other in the same way. -/
private theorem splice (halike : s.Alike t) {i : Nat} (hsplice : s.splice h = .ok (s', i)) :
    ∃ t', t.splice h = .ok (t', i) ∧ s'.lines = t'.lines ∧
      (s'.style = .crlf ↔ t'.style = .crlf) ∧
      s'.missingFinalNewline = s.missingFinalNewline ∧
      t'.missingFinalNewline = t.missingFinalNewline := by
  obtain ⟨hfits, hs', rfl⟩ := fits_of_splice hsplice
  obtain ⟨t', hsplice', ht'⟩ :=
    splice_of_fits fun j ↦ (halike.fitsAt_iff h.anchor h.lines j).1 (hfits j)
  refine ⟨t', hsplice', ?_, ?_, hs'.missingFinalNewline, ht'.missingFinalNewline⟩
  · rw [hs'.lines, ht'.lines, halike.lines, comparable_eq_of_iff halike.style]
  · rw [hs'.style, ht'.style]
    exact halike.style

/-- A hunk that is applied to a set is applied to one that is like it, and makes the same of it. -/
theorem patch (halike : s.Alike t) (hpatch : s.patch h = .ok s') :
    ∃ t', t.patch h = .ok t' ∧ s'.Alike t' := by
  rw [LineSet.patch] at hpatch
  split at hpatch
  · cases hpatch
  · next s₁ i hsplice =>
    obtain ⟨t₁, hsplice', hlines, hstyle, hs₁, ht₁⟩ := halike.splice hsplice
    have hmissing (hsome : h.hasOld = true ∨ i < s₁.lines.length) :
        s₁.missingFinalNewline = t₁.missingFinalNewline := by
      rw [hs₁, ht₁, halike.missing (ne_nil_of_splice hsplice hsome)]
    simp only [LineSet.patch, hsplice']
    split at hpatch
    · next hbehind =>
      cases hpatch
      exact ⟨t₁, if_pos (hlines ▸ hbehind), hlines, hstyle, fun _ ↦ hmissing (.inr hbehind)⟩
    · next hbehind =>
      rw [if_neg (hlines ▸ hbehind)]
      split at hpatch
      · cases hpatch
      · next hagrees =>
        cases hpatch
        refine ⟨_, if_neg ?_, hlines, hstyle, fun _ ↦ rfl⟩
        cases hold : h.hasOld with
        | false => simp
        | true => rwa [hold, hmissing (.inl hold)] at hagrees

/-- Hunks that are applied to a set are applied to one that is like it. -/
theorem patchAll (halike : s.Alike t) {first : Nat} (hpatch : s.patchAll first hunks = .ok s')
    (first' : Nat) : ∃ t', t.patchAll first' hunks = .ok t' ∧ s'.Alike t' := by
  induction hunks generalizing s t first first' with
  | nil =>
    cases hpatch
    exact ⟨t, rfl, halike⟩
  | cons h hunks ih =>
    rw [LineSet.patchAll] at hpatch
    split at hpatch
    · cases hpatch
    · next s₁ hfirst =>
      obtain ⟨t₁, hfirst', halike₁⟩ := halike.patch hfirst
      obtain ⟨t', hrest, halike'⟩ := ih halike₁ hpatch (first' + 1)
      exact ⟨t', by rw [LineSet.patchAll, hfirst']; exact hrest, halike'⟩

end Alike

end Alike

section Bare

/-- No line of the set holds a newline or a carriage return, and none ends with one. -/
structure Bare (s : LineSet) : Prop where
  style : s.style ≠ .crlf
  endsAlike : s.EndsAlike
  line : ∀ line ∈ s.lines, '\n' ∉ line.toList ∧ '\r' ∉ line.toList

namespace Bare

theorem ofText (h : '\r' ∉ text.toList) : (ofText text).Bare := by
  have hstyle := style_ofText_ne_crlf h
  have hends : (LineSet.ofText text).EndsAlike := endsAlike_ofText fun hcrlf ↦ absurd hcrlf hstyle
  refine ⟨hstyle, hends, fun line hline ↦
    ⟨(canonical_ofText text).newline_notMem line hline, fun hreturn ↦ h ?_⟩⟩
  have htext : (LineSet.ofText text).text.toList = text.toList := by rw [text_ofText]
  rw [← htext, toList_text hends]
  exact mem_joinWith (List.mem_map_of_mem hline) hreturn

/-- No carriage return is written. -/
theorem return_notMem_text (hs : s.Bare) : '\r' ∉ s.text.toList := by
  rw [toList_text hs.endsAlike]
  intro hmem
  obtain hending | ⟨line, hline, hreturn⟩ := mem_or_of_mem_joinWith hmem
  · rw [LineEnding.chars_of_ne_crlf hs.style] at hending
    exact absurd hending (by decide)
  · obtain ⟨found, hfound, rfl⟩ := List.mem_map.1 hline
    exact (hs.line found hfound).2 hreturn

/-- Sets that are alike are written in the same way. -/
theorem text_eq (hs : s.Bare) (ht : t.Bare) (halike : s.Alike t) : s.text = t.text :=
  text_congr hs.endsAlike ht.endsAlike halike.lines halike.style halike.missing

/-- What is read back is like what was written. -/
theorem alike_ofText_text (hs : s.Bare)
    (hlast : s.missingFinalNewline = true → s.lines.getLast? ≠ some "") :
    s.Alike (LineSet.ofText s.text) := by
  obtain ⟨style, missing, hreread, hstyle, hmissing⟩ := ofText_text_eq_uniform hs.endsAlike
    (fun line hline ↦ (hs.line line hline).1)
    (fun hmissing last hmem heq ↦ hlast hmissing (heq ▸ hmem)) (fun hcrlf ↦ absurd hcrlf hs.style)
    (fun _ line hline hreturn ↦ (hs.line line hline).2 (List.mem_of_getLast? hreturn))
  rw [hreread]
  exact ⟨rfl, hstyle, hmissing⟩

/-- The lines that a hunk puts in are bare when its texts are. -/
theorem patch (hs : s.Bare) (hh : h.Bare) (hpatch : s.patch h = .ok t) : t.Bare := by
  obtain ⟨t₁, hsplice, ht⟩ := exists_splice_eq_of_patch hpatch
  obtain ⟨-, ht₁, -⟩ := fits_of_splice hsplice
  have hbare : t₁.Bare := by
    refine ⟨ht₁.style ▸ hs.style, endsAlike_of_spliced ht₁ hs.endsAlike, fun line hline ↦ ?_⟩
    rw [ht₁.lines] at hline
    obtain hline | hline := List.mem_append.1 hline
    · obtain hline | hline := List.mem_append.1 hline
      · exact hs.line line (List.mem_of_mem_take hline)
      · obtain ⟨text, htext, rfl⟩ := List.mem_map.1 hline
        obtain ⟨hnewline, hreturn⟩ := hh text (Hunk.mem_texts_of_mem_newTexts htext)
        exact ⟨fun hmem ↦ hnewline (mem_of_mem_comparable hmem),
          fun hmem ↦ hreturn (mem_of_mem_comparable hmem)⟩
    · exact hs.line line (List.mem_of_mem_drop hline)
  rw [ht]
  exact ⟨hbare.style, hbare.endsAlike, hbare.line⟩

theorem patchAll (hs : s.Bare) (hhunks : ∀ h ∈ hunks, h.Bare) {first : Nat}
    (hpatch : s.patchAll first hunks = .ok t) : t.Bare :=
  keeps_patchAll (fun h hh _ _ hs ↦ hs.patch (hhunks h hh)) hs hpatch

private theorem exists_patchAll_of_alike (hs : s.Bare) (ht : t.Bare) (halike : s.Alike t)
    (hhunks : ∀ h ∈ hunks, h.Bare) {first : Nat} (hpatch : s.patchAll first hunks = .ok s')
    (first' : Nat) : ∃ t', t.patchAll first' hunks = .ok t' ∧ t'.bytes = s'.bytes := by
  obtain ⟨t', hpatch', halike'⟩ := halike.patchAll hpatch first'
  refine ⟨t', hpatch', ?_⟩
  rw [bytes, bytes, (hs.patchAll hhunks hpatch).text_eq (ht.patchAll hhunks hpatch') halike']

/-- Hunks have the same bytes written for sets that are alike. -/
theorem exists_patchAll_iff (hs : s.Bare) (ht : t.Bare) (halike : s.Alike t)
    (hhunks : ∀ h ∈ hunks, h.Bare) (first first' : Nat) {content : ByteArray} :
    (∃ s', s.patchAll first hunks = .ok s' ∧ s'.bytes = content) ↔
      ∃ t', t.patchAll first' hunks = .ok t' ∧ t'.bytes = content := by
  constructor
  · rintro ⟨s', hpatch, rfl⟩
    exact exists_patchAll_of_alike hs ht halike hhunks hpatch first'
  · rintro ⟨t', hpatch, rfl⟩
    exact exists_patchAll_of_alike ht hs halike.symm hhunks hpatch first

end Bare

end Bare

/-- Hunks behind others are applied to what those make. -/
theorem patchAll_append_eq_ok_iff {first : Nat} :
    s.patchAll first (hunks ++ others) = .ok t ↔
      ∃ mid, s.patchAll first hunks = .ok mid ∧
        mid.patchAll (first + hunks.length) others = .ok t := by
  induction hunks generalizing s first with
  | nil => simp [patchAll]
  | cons h hunks ih =>
    rw [List.cons_append, patchAll, patchAll]
    cases s.patch h with
    | error e => simp
    | ok s₁ =>
      rw [List.length_cons, ← Nat.add_assoc, Nat.add_right_comm]
      exact ih

end LineSet

end Patchwork
