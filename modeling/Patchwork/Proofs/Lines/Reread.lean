import Patchwork.Proofs.Lines.Canonical
import Patchwork.Proofs.Lines.Held

/-!
# Lines that are written and read back

Where all endings of a set are written alike, only its lines and the state of the last of them can
be told from what is written. They are read back as they were (`ofText_text_eq_uniform`), and so is
whether carriage returns belong to the endings, unless no newline is written at all.
-/

namespace Patchwork

/-- Endings of any other style are bare newlines. -/
theorem LineEnding.chars_of_ne_crlf {style : LineEnding} (h : style ≠ .crlf) :
    style.chars = ['\n'] := by
  cases style with
  | undetermined | lf => rfl
  | crlf => exact absurd rfl h

theorem LineEnding.chars_congr {style other : LineEnding} (h : style = .crlf ↔ other = .crlf) :
    style.chars = other.chars := by
  by_cases hstyle : style = .crlf
  · rw [hstyle, h.1 hstyle]
  · rw [chars_of_ne_crlf hstyle, chars_of_ne_crlf (h.not.1 hstyle)]

namespace Lines

variable {text : List Char}

/-- A carriage return stands in front of every newline. -/
def EachReturned (text : List Char) : Prop :=
  ∀ i < text.length, text[i]? = some '\n' → (text.take i).getLast? = some '\r'

instance (text : List Char) : Decidable (EachReturned text) :=
  inferInstanceAs (Decidable (∀ i < text.length, _ → _))

/-- A text with a newline has a line that ends with it. -/
theorem cut_ne_nil (h : '\n' ∈ text) : (cut text).1 ≠ [] := by
  intro hnil
  have hjoin := join_cut text
  have hrest := (newline_notMem_cut text).2
  rw [hnil, join] at hjoin
  rw [hjoin] at hrest
  exact hrest h

/-- The lines of such a text end with a carriage return. -/
theorem EachReturned.getLast?_eq (h : EachReturned text) :
    ∀ line ∈ (cut text).1, line.getLast? = some '\r' := by
  intro line hline
  obtain ⟨before, behind, hsplit⟩ := List.append_of_mem hline
  have htext : text = join before line ++ '\n' :: join behind (cut text).2 := by
    conv => lhs; rw [← join_cut text, hsplit, join_append, join, join_eq_append]
    rw [join_eq_append before line, List.append_assoc]
  have hlast := h (join before line).length (by rw [htext]; simp) (by rw [htext]; simp)
  rw [htext, List.take_left, getLast?_join] at hlast
  cases hend : line.getLast? with
  | none =>
    rw [hend, Option.none_or] at hlast
    split at hlast <;> simp at hlast
  | some c => rwa [hend, Option.some_or] at hlast

end Lines

namespace LineSet

variable {s : LineSet} {text : String} {lines : List String} {style : LineEnding} {missing : Bool}

/-- All endings are written as the style is. -/
def EndsAlike (s : LineSet) : Prop := ∀ ending ∈ s.endings, ending.chars = s.style.chars

section Text

theorem style_ofText_eq_crlf (hnewline : '\n' ∈ text.toList)
    (hreturned : Lines.EachReturned text.toList) : (ofText text).style = .crlf := by
  have hstyle : (ofText text).style = Lines.style (Lines.cut text.toList).1 := rfl
  have hne := Lines.cut_ne_nil hnewline
  have hlast := hreturned.getLast?_eq
  rw [hstyle]
  cases hcut : (Lines.cut text.toList).1 with
  | nil => exact absurd hcut hne
  | cons line lines => exact if_pos (hlast line (hcut ▸ List.mem_cons_self))

theorem style_ofText_ne_crlf (h : '\r' ∉ text.toList) : (ofText text).style ≠ .crlf := by
  have hstyle : (ofText text).style = Lines.style (Lines.cut text.toList).1 := rfl
  rw [hstyle]
  cases hcut : (Lines.cut text.toList).1 with
  | nil => exact LineEnding.noConfusion
  | cons line lines =>
    refine Lines.style_cons_ne_crlf.2 fun hlast ↦ h ?_
    rw [← Lines.join_cut text.toList, hcut]
    exact Lines.mem_join List.mem_cons_self (List.mem_of_getLast? hlast) _

/-- The endings of a text are alike when carriage returns belong to all of them, or to none. -/
theorem endsAlike_ofText (h : (ofText text).style = .crlf → Lines.EachReturned text.toList) :
    (ofText text).EndsAlike := by
  intro ending hending
  obtain ⟨piece, hpiece, rfl⟩ := List.mem_map.1 hending
  obtain hpiece | hpiece := List.mem_append.1 hpiece
  · obtain ⟨line, hline, rfl⟩ := List.mem_map.1 hpiece
    have hpart : Lines.style (Lines.cut text.toList).1 = (ofText text).style := rfl
    rw [hpart]
    by_cases hstyle : (ofText text).style = .crlf
    · rw [hstyle, Lines.part, if_pos ⟨rfl, (h hstyle).getLast?_eq line hline⟩]
    · rw [Lines.part_of_ne_crlf hstyle, LineEnding.chars_of_ne_crlf hstyle]
      rfl
  · split at hpiece
    · exact absurd hpiece List.not_mem_nil
    · rw [List.mem_singleton.1 hpiece]
      rfl

end Text

section Uniform

theorem endsAlike_uniform : (uniform lines style missing).EndsAlike := by
  intro ending hending
  rw [(List.mem_replicate.1 hending).2]
  rfl

theorem pairs_uniform : (uniform lines style missing).pairs = lines.map (·, style) := by
  rw [pairs, uniform]
  induction lines with
  | nil => rfl
  | cons line lines ih =>
    rw [List.length_cons, List.replicate_succ, pairWith, ih, List.map_cons]

/-- Lines that end alike are as a text has them when their style can be told from those that are
ended. -/
theorem canonical_uniform (hnewline : ∀ line ∈ lines, '\n' ∉ line.toList)
    (hnil : lines = [] → style = .undetermined ∧ missing = true)
    (hlast : missing = true → ∀ last ∈ lines.getLast?, last ≠ "")
    (hshows : Shows style ((if missing then lines.dropLast else lines).map (·, style))) :
    (uniform lines style missing).Canonical where
  newline_notMem := hnewline
  of_nil := hnil
  last hmissing last hmem := by
    rw [pairs_uniform, List.getLast?_map, Option.mem_def, Option.map_eq_some_iff] at hmem
    obtain ⟨line, hline, rfl⟩ := hmem
    exact ⟨hlast hmissing line hline, rfl⟩
  shows_style := by
    rw [terminated, pairs_uniform]
    cases missing with
    | false => exact hshows
    | true => exact List.map_dropLast.symm ▸ hshows

/-- Lines that all end alike show their style when there are some. -/
private theorem shows_map (hne : lines ≠ []) (hstyle : style ≠ .undetermined)
    (hreturn : style ≠ .crlf → ∀ line ∈ lines, line.toList.getLast? ≠ some '\r') :
    Shows style (lines.map (·, style)) := by
  obtain ⟨line, rest, rfl⟩ := List.exists_cons_of_ne_nil hne
  cases style with
  | undetermined => exact absurd rfl hstyle
  | lf =>
    refine ⟨List.cons_ne_nil _ _, List.forall_mem_map.2 fun _ _ ↦ rfl, ?_⟩
    intro first hfirst
    cases hfirst
    exact hreturn LineEnding.noConfusion line List.mem_cons_self
  | crlf => exact ⟨⟨_, rfl, rfl⟩, List.forall_mem_map.2 fun _ _ ↦ .inl rfl⟩

end Uniform

/-- Lines of which none is ended are written without a newline. -/
private theorem newline_notMem_joinWith {ending : List Char}
    (hended : (if missing then lines.dropLast else lines) = [])
    (hnewline : ∀ line ∈ lines, '\n' ∉ line.toList) :
    '\n' ∉ joinWith missing ending (lines.map String.toList) := by
  cases lines with
  | nil => exact List.not_mem_nil
  | cons line lines =>
    cases missing with
    | false => exact absurd hended (List.cons_ne_nil line lines)
    | true =>
      cases lines with
      | nil => simpa [joinWith] using hnewline
      | cons next lines => exact absurd hended (List.cons_ne_nil line _)

/-- Sets whose endings are written alike are told apart by their lines and the last ending. -/
theorem text_congr {t : LineSet} (hs : s.EndsAlike) (ht : t.EndsAlike) (hlines : s.lines = t.lines)
    (hstyle : s.style = .crlf ↔ t.style = .crlf)
    (hmissing : s.lines ≠ [] → s.missingFinalNewline = t.missingFinalNewline) :
    s.text = t.text := by
  rw [← String.toList_inj, toList_text hs, toList_text ht, ← hlines, LineEnding.chars_congr hstyle]
  by_cases hne : s.lines = []
  · rw [hne]
    rfl
  · rw [hmissing hne]

/-- Lines that end alike and are as a text has them are read back from any set that is written as
they are. -/
private theorem ofText_text_of_canonical (hs : s.EndsAlike)
    (hstyle : s.style = .crlf ↔ style = .crlf)
    (hmissing : s.lines ≠ [] → s.missingFinalNewline = missing)
    (h : (uniform s.lines style missing).Canonical) :
    ofText s.text = uniform s.lines style missing := by
  have hsame : s.text = (uniform s.lines style missing).text :=
    text_congr hs endsAlike_uniform rfl hstyle hmissing
  rw [hsame]
  exact h.ofText_text List.length_replicate

/-- Lines whose endings are written alike are read back, and so is whether the last of them lacks
its ending. -/
theorem ofText_text_eq_uniform (hs : s.EndsAlike) (hnewline : ∀ line ∈ s.lines, '\n' ∉ line.toList)
    (hlast : s.missingFinalNewline = true → ∀ last ∈ s.lines.getLast?, last ≠ "")
    (hcrlf : s.style = .crlf → '\n' ∈ s.text.toList)
    (hreturn : s.style ≠ .crlf → ∀ line ∈ s.lines, line.toList.getLast? ≠ some '\r') :
    ∃ style missing, ofText s.text = uniform s.lines style missing ∧
      (s.style = .crlf ↔ style = .crlf) ∧ (s.lines ≠ [] → s.missingFinalNewline = missing) := by
  by_cases hended : (if s.missingFinalNewline then s.lines.dropLast else s.lines) = []
  · -- No newline is written, so the lines that are read have no style.
    have hstyle : s.style = .crlf ↔ LineEnding.undetermined = .crlf := by
      refine iff_of_false (fun hstyle ↦ ?_) LineEnding.noConfusion
      have hnone : '\n' ∉
          joinWith s.missingFinalNewline s.style.chars (s.lines.map String.toList) :=
        newline_notMem_joinWith hended hnewline
      rw [← toList_text hs] at hnone
      exact hnone (hcrlf hstyle)
    have hmissing (hne : s.lines ≠ []) : s.missingFinalNewline = true := by
      by_contra hfalse
      rw [if_neg hfalse] at hended
      exact hne hended
    have hdropLast : s.lines.dropLast = [] := by
      split at hended
      · exact hended
      · rw [hended, List.dropLast_nil]
    refine ⟨.undetermined, true, ofText_text_of_canonical hs hstyle hmissing ?_, hstyle, hmissing⟩
    refine canonical_uniform hnewline (fun _ ↦ ⟨rfl, rfl⟩) (fun _ last hmem ↦ ?_)
      (List.map_eq_nil_iff.2 hdropLast)
    have hne : s.lines ≠ [] := List.ne_nil_of_mem (List.mem_of_getLast? hmem)
    exact hlast (hmissing hne) last hmem
  · have hne : s.lines ≠ [] := by
      intro hnil
      rw [hnil, List.dropLast_nil, ite_self] at hended
      exact hended rfl
    obtain ⟨style, hiff, hdetermined⟩ : ∃ style : LineEnding,
        (s.style = .crlf ↔ style = .crlf) ∧ style ≠ .undetermined := by
      by_cases hstyle : s.style = .crlf
      · exact ⟨.crlf, by simp [hstyle], LineEnding.noConfusion⟩
      · exact ⟨.lf, by simp [hstyle], LineEnding.noConfusion⟩
    have hsubset : (if s.missingFinalNewline then s.lines.dropLast else s.lines) ⊆ s.lines := by
      split
      · exact List.dropLast_subset _
      · exact List.Subset.refl _
    refine ⟨style, s.missingFinalNewline, ofText_text_of_canonical hs hiff (fun _ ↦ rfl) ?_, hiff,
      fun _ ↦ rfl⟩
    refine canonical_uniform hnewline (fun hnil ↦ absurd hnil hne) hlast ?_
    exact shows_map hended hdetermined fun hstyle line hline ↦
      hreturn (hiff.not.2 hstyle) line (hsubset hline)

end LineSet

end Patchwork
