import Patchwork.Proofs.Hunk.Bytes

/-!
# Patched lines and what is written of them

Different lines can be written as the same bytes, so a patched file can be written as it was read
and yet have other lines. It has the same lines exactly when they can be told from what is written
(`sameContent_iff_legible`).
-/

namespace Patchwork

namespace LineSet

variable {s t : LineSet} {text : String} {h : Hunk} {hunks : List Hunk}

/-- In the style of the set each line is parted from its ending as the set has it. -/
def Parted (s : LineSet) : Prop :=
  ∀ pair ∈ s.pairs, (Lines.part s.style (Lines.unpart pair)).1 = pair.1

/-- A line that is ended in a style is parted from its ending in that style. -/
private theorem fst_part_unpart (style : LineEnding) (line : String) :
    (Lines.part style (Lines.unpart (line, style))).1 = line := by
  cases style <;> simp [Lines.unpart, Lines.part]

theorem parted_ofText (text : String) : (ofText text).Parted := by
  intro pair hpair
  rw [pairs_ofText] at hpair
  obtain hpair | hpair := List.mem_append.1 hpair
  · obtain ⟨line, -, rfl⟩ := List.mem_map.1 hpair
    rw [Lines.unpart_part]
    rfl
  · split at hpair
    · cases hpair
    · rw [List.mem_singleton.1 hpair]
      exact fst_part_unpart _ _

namespace Parted

/-- A hunk puts in lines that are ended in the style of the set. -/
theorem patch (hs : s.Parted) (hpatch : s.patch h = .ok t) : t.Parted ∧ t.style = s.style := by
  obtain ⟨hpairs, hstyle⟩ := pairs_of_patch hpatch
  refine ⟨fun pair hpair ↦ ?_, hstyle⟩
  rw [hpairs, Hunk.renew, List.mem_append, List.mem_append] at hpair
  rw [hstyle]
  obtain (hfront | hplace) | hbehind := hpair
  · exact hs pair (List.mem_of_mem_take hfront)
  · obtain hold | ⟨text, rfl⟩ := HunkLine.mem_renewed hplace
    · exact hs pair (List.mem_of_mem_drop (List.mem_of_mem_take hold))
    · exact fst_part_unpart _ _
  · exact hs pair (List.mem_of_mem_drop hbehind)

theorem patchAll (hs : s.Parted) {first : Nat} (hpatch : s.patchAll first hunks = .ok t) :
    t.Parted ∧ t.style = s.style := by
  have hkeeps (h : Hunk) (_ : h ∈ hunks) (s₁ t₁ : LineSet)
      (hs₁ : s₁.Parted ∧ s₁.style = s.style) (hpatch₁ : s₁.patch h = .ok t₁) :
      t₁.Parted ∧ t₁.style = s.style := by
    obtain ⟨ht₁, hstyle⟩ := hs₁.1.patch hpatch₁
    exact ⟨ht₁, hstyle.trans hs₁.2⟩
  exact keeps_patchAll hkeeps ⟨hs, rfl⟩ hpatch

end Parted

/-- A set is read back with its lines when these can be told from what is written. -/
theorem sameContent_ofText_iff (hs : s.Parted) (hstyle : (ofText s.text).style = s.style) :
    s.SameContent (ofText s.text) ↔ s.Legible := by
  constructor
  · rintro ⟨hlines, hmissing⟩
    obtain ⟨hnewline, hnil, hlast⟩ := (canonical_ofText s.text).legible
    rw [← hlines] at hnewline
    rw [← hlines, ← hmissing] at hnil hlast
    exact ⟨hnewline, hnil, hlast⟩
  · intro h
    constructor
    · have hshown : Lines.style (s.terminated.map Lines.unpart) = s.style :=
        (congrArg (Lines.style ∘ Prod.fst) h.cut_text).symm.trans hstyle
      have hparted : (s.terminated.map Lines.unpart).map (Prod.fst ∘ Lines.part s.style) =
          s.terminated.map Prod.fst := by
        rw [List.map_map]
        exact List.map_congr_left fun pair hpair ↦ hs pair (terminated_subset s hpair)
      have hrest : (if s.rest = [] then [] else [(String.ofList s.rest, s.style)]).map Prod.fst =
          if s.rest = [] then [] else [.ofList s.rest] := by
        split <;> rfl
      rw [← map_fst_pairs (ofText s.text), pairs_ofText, Lines.ofChars, h.cut_text]
      simp only [hshown]
      rw [List.map_append, List.map_map, hparted, hrest, ← h.lines_eq]
    · rw [Bool.eq_iff_iff, missingFinalNewline_ofText_iff, h.cut_text]
      exact h.missingFinalNewline_iff.symm

/-- Hunks after which a file is written as it was leave its lines as they were exactly when these
can be told from what is written. -/
theorem sameContent_iff_legible {content : ByteArray} {first : Nat}
    (hread : ofBytes content = .ok s) (hpatch : s.patchAll first hunks = .ok t)
    (hbytes : t.bytes = content) : t.SameContent s ↔ t.Legible := by
  rw [← hbytes, bytes, ofBytes_toUTF8] at hread
  cases hread
  obtain ⟨ht, hstyle⟩ := (parted_ofText t.text).patchAll hpatch
  exact sameContent_ofText_iff ht hstyle.symm

end LineSet

end Patchwork
