import Mathlib.Algebra.Ring.Int.Defs
import Mathlib.Data.List.Chain
import Patchwork.Proofs.Hunk.Cursor
import Patchwork.Proofs.Lines.Reread

/-!
# What hunks make of the lines of a file

`Rewrites` says that hunks, one behind the other, turn the old lines of a file into its new ones.
Old and new play the same part in it, so the inverses of the hunks turn the new lines back.
A run of hunks that lie apart is such a rewriting (`rewrites_of_patchAll`), and what is one can be
run (`patchAll_of_rewrites`).
-/

namespace Patchwork

open HunkLine (oldTexts newTexts)

namespace Hunk

variable {h : Hunk}

/-- The index right behind the hunk's lines when it has been applied. -/
def after (h : Hunk) : Nat := h.anchor + h.newLines.length

/-- The number of lines that the file gains. -/
def growth (h : Hunk) : Int := h.newLines.length - h.oldLines.length

/-- The new side of the inverse is the old side. -/
@[simp] theorem newTexts_inverse (h : Hunk) : newTexts h.inverse.lines = oldTexts h.lines := by
  have htext (line : HunkLine) : line.inverse.text? = line.text? := by cases line <;> rfl
  simp [newTexts, oldTexts, inverse, List.filter_map, List.filterMap_map, Function.comp_def, htext]

@[simp] theorem oldTexts_inverse (h : Hunk) : oldTexts h.inverse.lines = newTexts h.lines := by
  rw [← newTexts_inverse, inverse_inverse]

/-- Every line of the old side has a text. -/
theorem length_oldTexts (h : Hunk) : (oldTexts h.lines).length = h.oldLines.length := by
  rw [oldLines, oldTexts]
  induction h.lines with
  | nil => rfl
  | cons line lines ih => cases line <;> simpa [HunkLine.isOld, HunkLine.text?] using ih

theorem length_newTexts (h : Hunk) : (newTexts h.lines).length = h.newLines.length := by
  rw [← oldTexts_inverse, length_oldTexts]
  simp [oldLines, newLines, inverse, List.filter_map, Function.comp_def]

theorem hasOld_iff : h.hasOld = true ↔ oldTexts h.lines ≠ [] := by
  rw [← List.length_pos_iff, length_oldTexts, oldLines, hasOld, List.any_eq_true,
    List.length_filter_pos_iff]

/-- The index behind a hunk that comes behind `j` lines and `k` that it leaves alone. -/
theorem after_eq {j k : Nat} (hanchor : h.anchor = j + k) :
    h.after = j + k + (newTexts h.lines).length := by
  rw [after, hanchor, length_newTexts]

theorem growth_eq (h : Hunk) :
    h.growth = (newTexts h.lines).length - (oldTexts h.lines).length := by
  rw [growth, length_newTexts, length_oldTexts]

/-- Where hunks lie, `i` and `j` lines being in front of these on the old and on the new side: one
behind the other with a line between them, and on the old side as if those before it had not been
applied. -/
structure Placed (i j : Nat) (hunks : List Hunk) : Prop where
  apart : hunks.IsChain fun h next ↦ h.after < next.anchor
  first : ∀ h ∈ hunks.head?, j ≤ h.anchor
  oldAnchor : ∀ k (hk : k < hunks.length), (hunks[k].inverse.anchor : Int) =
    hunks[k].anchor + i - j - ((hunks.take k).map growth).sum

namespace Placed

variable {i j k : Nat} {hunks : List Hunk} (hplaced : Placed i j (h :: hunks))
  (hanchor : h.anchor = j + k)

include hplaced hanchor

/-- The first hunk leaves as many lines alone on one side as on the other. -/
theorem inverse_anchor : h.inverse.anchor = i + k := by
  have hzero := hplaced.oldAnchor 0 (Nat.zero_lt_succ _)
  simp only [List.getElem_cons_zero, List.take_zero, List.map_nil, List.sum_nil] at hzero
  omega

/-- The others lie behind the first hunk. -/
theorem tail : Placed (i + k + (oldTexts h.lines).length) (j + k + (newTexts h.lines).length)
    hunks := by
  obtain ⟨hnext, hbehind⟩ := List.isChain_cons.1 hplaced.apart
  refine ⟨hbehind, fun next hmem ↦ ?_, fun l hl ↦ ?_⟩
  · rw [← after_eq hanchor]
    exact Nat.le_of_lt (hnext next hmem)
  · have hthis := hplaced.oldAnchor (l + 1) (Nat.succ_lt_succ hl)
    rw [List.take_succ_cons, List.map_cons, List.sum_cons, growth_eq] at hthis
    simp only [List.getElem_cons_succ] at hthis
    omega

end Placed

/-- A side without lines is not marked. -/
theorem oldMissingNewline_of_hasOld (hold : h.hasOld = false) : h.oldMissingNewline = false := by
  rw [hasOld, List.any_eq_false] at hold
  rw [oldMissingNewline, List.any_eq_false]
  intro line hline
  obtain ⟨pair, hpair, rfl⟩ := List.mem_map.1 hline
  exact hold _ (List.of_mem_zip (List.mem_filter.1 hpair).1).1

end Hunk

namespace LineSet

variable {s t : LineSet} {h : Hunk} {front back : List String}

/-- A hunk has been applied behind the lines in `front`, and those in `back` come behind it. -/
structure Patched (s : LineSet) (h : Hunk) (front back : List String) (t : LineSet) : Prop where
  anchor : h.anchor = front.length
  before : s.lines = front ++ (oldTexts h.lines).map s.comparable ++ back
  after : t.lines = front ++ (newTexts h.lines).map s.comparable ++ back
  style : t.style = s.style
  endsAlike : s.EndsAlike → t.EndsAlike
  missing : t.missingFinalNewline = if back = [] then h.newMissingNewline else s.missingFinalNewline
  agrees : back = [] → h.hasOld = true → s.missingFinalNewline = h.oldMissingNewline

namespace Patched

variable (ht : s.Patched h front back t)

include ht

/-- The lines behind a hunk are the last ones. -/
theorem length_lines : t.lines.length = h.after + back.length := by
  rw [ht.after, List.length_append, List.length_append, List.length_map, Hunk.length_newTexts,
    Hunk.after, ht.anchor]

/-- Behind lines that are done, those in front of a hunk are kept. -/
theorem exists_kept {done olds : List String} (hlines : s.lines = done ++ olds)
    (hle : done.length ≤ h.anchor) : ∃ kept, front = done ++ kept ∧
      olds = kept ++ (oldTexts h.lines).map s.comparable ++ back := by
  have hdone : done <+: s.lines := hlines ▸ List.prefix_append done olds
  have hfront : front <+: s.lines := by
    rw [ht.before, List.append_assoc]
    exact List.prefix_append front _
  obtain ⟨kept, rfl⟩ := List.prefix_of_prefix_length_le hdone hfront (ht.anchor ▸ hle)
  have hbefore := hlines.symm.trans ht.before
  refine ⟨kept, rfl, ?_⟩
  simpa only [List.append_assoc, List.append_cancel_left_eq] using hbefore

/-- A hunk at the end says of the old file what is true, if one with no lines on its old side is
about a file whose last line has its newline. -/
theorem missing_eq (hback : back = [])
    (hadds : h.hasOld = false → s.missingFinalNewline = false) :
    s.missingFinalNewline = h.oldMissingNewline := by
  cases hold : h.hasOld with
  | true => exact ht.agrees hback hold
  | false => rw [Hunk.oldMissingNewline_of_hasOld hold, hadds hold]

end Patched

/-- Lines that are put in take the style of the set. -/
theorem endsAlike_of_spliced {i : Nat} {lines : List HunkLine} (ht : s.Spliced i lines t)
    (hs : s.EndsAlike) : t.EndsAlike := by
  intro ending hending
  rw [ht.style]
  obtain rfl | hbefore := ht.endings ending hending
  · rfl
  · exact hs ending hbefore

/-- A hunk that is applied fits. -/
theorem fits_of_splice {i : Nat} (hsplice : s.splice h = .ok (t, i)) :
    (∀ j, s.FitsAt h.anchor h.lines j) ∧ s.Spliced h.anchor h.lines t ∧ i = h.after := by
  have hverdict := s.verdict_applyLines h.anchor h.lines
  have hafter : h.after = h.anchor + h.lines.countP HunkLine.isNew := by
    rw [Hunk.after, Hunk.newLines, ← List.countP_eq_length_filter]
  rw [splice] at hsplice
  rw [hsplice] at hverdict
  cases hverdict with
  | spliced hfits ht => exact ⟨hfits, ht, hafter.symm⟩

/-- A hunk that fits is applied. -/
theorem splice_of_fits (hfits : ∀ j, s.FitsAt h.anchor h.lines j) :
    ∃ t, s.splice h = .ok (t, h.after) ∧ s.Spliced h.anchor h.lines t := by
  have hverdict := s.verdict_applyLines h.anchor h.lines
  cases hsplice : s.splice h with
  | ok result =>
    obtain ⟨t, i⟩ := result
    obtain ⟨-, ht, rfl⟩ := fits_of_splice hsplice
    exact ⟨t, rfl, ht⟩
  | error e =>
    rw [splice] at hsplice
    rw [hsplice] at hverdict
    cases hverdict with
    | refused _ _ hmisfit => exact absurd (hfits _) hmisfit

/-- A hunk that is applied has been spliced in. Where it reaches the end of the file, it has agreed
with it about the final newline and has then decided about it. -/
theorem exists_splice_of_patch (hpatch : s.patch h = .ok t) :
    ∃ t', s.splice h = .ok (t', h.after) ∧
      if h.after < t'.lines.length then t = t'
      else (h.hasOld = true → h.oldMissingNewline = t'.missingFinalNewline) ∧
        t = { t' with missingFinalNewline := h.newMissingNewline } := by
  cases hsplice : s.splice h with
  | error e =>
    rw [patch, hsplice] at hpatch
    cases hpatch
  | ok done =>
    obtain ⟨t', i⟩ := done
    obtain ⟨-, -, rfl⟩ := fits_of_splice hsplice
    refine ⟨t', rfl, ?_⟩
    rw [patch, hsplice] at hpatch
    dsimp only at hpatch
    split at hpatch
    · next hbehind =>
      rw [if_pos hbehind]
      cases hpatch
      rfl
    · next hend =>
      rw [if_neg hend]
      split at hpatch
      · cases hpatch
      · next hagrees =>
        cases hpatch
        refine ⟨fun hold ↦ ?_, rfl⟩
        simpa [hold] using hagrees

/-- All that a hunk does behind its splice is to say whether the final newline is missing. -/
theorem exists_splice_eq_of_patch (hpatch : s.patch h = .ok t) :
    ∃ t', s.splice h = .ok (t', h.after) ∧
      t = { t' with missingFinalNewline := t.missingFinalNewline } := by
  obtain ⟨t', hsplice, ht⟩ := exists_splice_of_patch hpatch
  refine ⟨t', hsplice, ?_⟩
  split at ht
  · rw [ht]
  · rw [ht.2]

/-- What each hunk keeps is kept by all of them. -/
theorem keeps_patchAll {P : LineSet → Prop} {hunks : List Hunk} {first : Nat}
    (hkeeps : ∀ h ∈ hunks, ∀ s t, P s → s.patch h = .ok t → P t) (hs : P s)
    (hpatch : s.patchAll first hunks = .ok t) : P t := by
  induction hunks generalizing s first with
  | nil =>
    cases hpatch
    exact hs
  | cons h hunks ih =>
    rw [List.forall_mem_cons] at hkeeps
    rw [patchAll] at hpatch
    split at hpatch
    · cases hpatch
    · next s' hfirst => exact ih hkeeps.2 (hkeeps.1 s s' hs hfirst) hpatch

/-- Where its old side is, only the final newline can keep a hunk from being applied. -/
private theorem patch_eq (hanchor : h.anchor = front.length)
    (hbefore : s.lines = front ++ (oldTexts h.lines).map s.comparable ++ back) :
    ∃ t, s.patch h =
        (if back = [] ∧ h.hasOld = true ∧ h.oldMissingNewline ≠ s.missingFinalNewline then
          .error (.newline h.oldMissingNewline) else .ok t) ∧
      t.lines = front ++ (newTexts h.lines).map s.comparable ++ back ∧ t.style = s.style ∧
      (s.EndsAlike → t.EndsAlike) ∧
      t.missingFinalNewline =
        if back = [] then h.newMissingNewline else s.missingFinalNewline := by
  have hfits := fits_of_lines_eq hbefore
  rw [← hanchor] at hfits
  obtain ⟨t, hsplice, ht⟩ := splice_of_fits hfits
  have hafter : t.lines = front ++ (newTexts h.lines).map s.comparable ++ back := by
    have hold : h.anchor + h.lines.countP HunkLine.isOld =
        (front ++ (oldTexts h.lines).map s.comparable).length := by
      rw [List.length_append, List.length_map, Hunk.length_oldTexts, Hunk.oldLines,
        ← List.countP_eq_length_filter, hanchor]
    rw [ht.lines, hold, hbefore, List.drop_left, List.append_assoc front, hanchor, List.take_left]
  have hbehind : h.after < t.lines.length ↔ back ≠ [] := by
    rw [hafter, List.length_append, List.length_append, List.length_map, Hunk.length_newTexts,
      ← hanchor, ← Hunk.after, Nat.lt_add_right_iff_pos, List.length_pos_iff]
  have hends := endsAlike_of_spliced ht
  rw [patch, hsplice]
  simp only [hbehind, ← ht.missingFinalNewline]
  by_cases hback : back = []
  · refine ⟨{ t with missingFinalNewline := h.newMissingNewline }, ?_, hafter, ht.style, hends, ?_⟩
    · simp [hback]
    · rw [if_pos hback]
  · refine ⟨t, ?_, hafter, ht.style, hends, ?_⟩
    · simp [hback]
    · rw [if_neg hback]

/-- A hunk that has been applied is in its place. -/
theorem patched_of_patch (hpatch : s.patch h = .ok t)
    (htext : ∃ line ∈ h.lines, line ≠ .noNewline) : ∃ front back, s.Patched h front back t := by
  have hfits : ∀ j, s.FitsAt h.anchor h.lines j := by
    cases hsplice : s.splice h with
    | error e =>
      rw [patch, hsplice] at hpatch
      cases hpatch
    | ok result => exact (fits_of_splice hsplice).1
  have hanchor : h.anchor = (s.lines.take h.anchor).length := by
    have hle := le_length_of_fits hfits htext
    rw [List.length_take, Nat.min_eq_left (by omega)]
  have hbefore := lines_eq_of_fits hfits
  obtain ⟨t', hresult, hafter, hstyle, hends, hmissing⟩ := patch_eq hanchor hbefore
  rw [hresult] at hpatch
  split at hpatch
  · cases hpatch
  · next hagrees =>
    cases hpatch
    refine ⟨_, _, hanchor, hbefore, hafter, hstyle, hends, hmissing, fun hback hold ↦ ?_⟩
    exact Eq.symm <| Classical.not_not.1 fun hne ↦ hagrees ⟨hback, hold, hne⟩

/-- A hunk is applied where its old side is, if it says the same about the final newline. -/
theorem patch_of_lines_eq (hanchor : h.anchor = front.length)
    (hbefore : s.lines = front ++ (oldTexts h.lines).map s.comparable ++ back)
    (hagrees : back = [] → h.hasOld = true → s.missingFinalNewline = h.oldMissingNewline) :
    ∃ t, s.patch h = .ok t ∧ s.Patched h front back t := by
  obtain ⟨t, hresult, hafter, hstyle, hends, hmissing⟩ := patch_eq hanchor hbefore
  rw [if_neg fun hdiffers ↦ hdiffers.2.2 (hagrees hdiffers.1 hdiffers.2.1).symm] at hresult
  exact ⟨t, hresult, hanchor, hbefore, hafter, hstyle, hends, hmissing, hagrees⟩

end LineSet

/-- Hunks that turn old lines into new ones, `i` and `j` lines being in front of these on the old
and on the new side. Next to the lines stands whether the last of them lacks its newline, which
means nothing where there are none. Only the last hunk can reach the end. -/
inductive Rewrites (form : String → String) :
    (i j : Nat) → List Hunk → (olds : List String) → (oldMissing : Bool) →
      (news : List String) → (newMissing : Bool) → Prop where
  | nil {i j : Nat} (kept : List String) (missing : Bool) :
      Rewrites form i j [] kept missing kept missing
  | last {i j : Nat} {h : Hunk} {oldMissing newMissing : Bool} (kept : List String)
      (holdAnchor : h.inverse.anchor = i + kept.length) (hnewAnchor : h.anchor = j + kept.length)
      (hold : i + kept.length + (oldTexts h.lines).length ≠ 0 → oldMissing = h.oldMissingNewline)
      (hnew : j + kept.length + (newTexts h.lines).length ≠ 0 → newMissing = h.newMissingNewline) :
      Rewrites form i j [h] (kept ++ (oldTexts h.lines).map form) oldMissing
        (kept ++ (newTexts h.lines).map form) newMissing
  | cons {i j : Nat} {h : Hunk} {hunks : List Hunk} {olds news : List String}
      {oldMissing newMissing : Bool} (kept : List String)
      (holdAnchor : h.inverse.anchor = i + kept.length) (hnewAnchor : h.anchor = j + kept.length)
      (holds : olds ≠ []) (hnews : news ≠ [])
      (hrest : Rewrites form (i + kept.length + (oldTexts h.lines).length)
        (j + kept.length + (newTexts h.lines).length) hunks olds oldMissing news newMissing) :
      Rewrites form i j (h :: hunks) (kept ++ (oldTexts h.lines).map form ++ olds) oldMissing
        (kept ++ (newTexts h.lines).map form ++ news) newMissing

namespace Rewrites

variable {form : String → String} {i j : Nat} {hunks : List Hunk} {olds news : List String}
  {oldMissing newMissing : Bool}

/-- The inverses turn the new lines into the old ones. -/
theorem inverse (h : Rewrites form i j hunks olds oldMissing news newMissing) :
    Rewrites form j i (hunks.map Hunk.inverse) news newMissing olds oldMissing := by
  induction h with
  | nil kept missing => exact .nil kept missing
  | @last i j h _ _ kept holdAnchor hnewAnchor hold hnew =>
    rw [← h.oldTexts_inverse, ← h.oldMissingNewline_inverse] at hnew
    rw [← h.newTexts_inverse, ← h.newMissingNewline_inverse] at hold
    rw [← h.oldTexts_inverse, ← h.newTexts_inverse]
    exact .last kept (h.inverse_inverse.symm ▸ hnewAnchor) holdAnchor hnew hold
  | @cons i j h hunks olds news _ _ kept holdAnchor hnewAnchor holds hnews _ ih =>
    rw [← h.oldTexts_inverse, ← h.newTexts_inverse] at ih ⊢
    exact .cons kept (h.inverse_inverse.symm ▸ hnewAnchor) holdAnchor hnews holds ih

/-- A new line is an old one, or the text of a line on the new side of a hunk. -/
theorem mem_olds_or (h : Rewrites form i j hunks olds oldMissing news newMissing) :
    ∀ line ∈ news, line ∈ olds ∨ ∃ h ∈ hunks, ∃ text ∈ newTexts h.lines, line = form text := by
  induction h with
  | nil kept missing => exact fun line ↦ .inl
  | last kept _ _ _ _ =>
    intro line hline
    obtain hline | hline := List.mem_append.1 hline
    · exact .inl (List.mem_append_left _ hline)
    · obtain ⟨text, htext, rfl⟩ := List.mem_map.1 hline
      exact .inr ⟨_, List.mem_cons_self, text, htext, rfl⟩
  | cons kept _ _ _ _ _ ih =>
    intro line hline
    obtain hline | hline := List.mem_append.1 hline
    · obtain hline | hline := List.mem_append.1 hline
      · exact .inl (List.mem_append_left _ (List.mem_append_left _ hline))
      · obtain ⟨text, htext, rfl⟩ := List.mem_map.1 hline
        exact .inr ⟨_, List.mem_cons_self, text, htext, rfl⟩
    · obtain hline | ⟨other, hother, htext⟩ := ih line hline
      · exact .inl (List.mem_append_right _ hline)
      · exact .inr ⟨other, List.mem_cons_of_mem _ hother, htext⟩

/-- A last line without its newline is not empty, if the hunks mark no empty line. -/
theorem last_ne_empty (h : Rewrites form i j hunks olds oldMissing news newMissing)
    (hmarked : ∀ h ∈ hunks, h.newMissingNewline = true →
      ∃ text, (newTexts h.lines).getLast? = some text ∧ form text ≠ "")
    (hold : oldMissing = true → ∀ last ∈ olds.getLast?, last ≠ "") (hnew : newMissing = true) :
    ∀ last ∈ news.getLast?, last ≠ "" := by
  induction h with
  | nil kept missing => exact hold hnew
  | @last i j h _ _ kept _ _ _ hmissing =>
    intro last hlast
    have hpos := List.length_pos_of_mem (List.mem_of_getLast? hlast)
    rw [List.length_append, List.length_map] at hpos
    obtain ⟨text, htext, hne⟩ :=
      hmarked h List.mem_cons_self ((hmissing (by omega)).symm.trans hnew)
    rw [List.getLast?_append, List.getLast?_map, htext] at hlast
    cases hlast
    exact hne
  | cons kept _ _ holds hnews _ ih =>
    rw [List.getLast?_append_of_ne_nil _ hnews]
    rw [List.getLast?_append_of_ne_nil _ holds] at hold
    exact ih (fun h hh ↦ hmarked h (List.mem_cons_of_mem _ hh)) hold hnew

end Rewrites

namespace LineSet

variable {s t u : LineSet} {hunks : List Hunk} {olds news : List String}
  {oldMissing newMissing : Bool}

/-- Hunks that turn old lines into new ones do so in a set with the old lines. -/
theorem patchAll_of_rewrites {i : Nat} (done : List String)
    (h : Rewrites s.comparable i done.length hunks olds oldMissing news newMissing) (first : Nat)
    (hlines : s.lines = done ++ olds) (hs : s.EndsAlike)
    (hmissing : s.lines ≠ [] → s.missingFinalNewline = oldMissing) :
    ∃ t, s.patchAll first hunks = .ok t ∧ t.lines = done ++ news ∧ t.style = s.style ∧
      t.EndsAlike ∧ (t.lines ≠ [] → t.missingFinalNewline = newMissing) := by
  generalize hform : s.comparable = form at h
  generalize hj : done.length = j at h
  induction h generalizing s done first with
  | nil kept missing => exact ⟨s, rfl, hlines, rfl, hs, hmissing⟩
  | @last i j h oldMissing newMissing kept holdAnchor hnewAnchor hold hnew =>
    subst hform
    have hanchor : h.anchor = (done ++ kept).length := by rw [hnewAnchor, List.length_append, hj]
    have hagrees (hhasOld : h.hasOld = true) : s.missingFinalNewline = h.oldMissingNewline := by
      have hpos := List.length_pos_iff.2 (Hunk.hasOld_iff.1 hhasOld)
      have hne : s.lines ≠ [] := by
        rw [hlines, ← List.length_pos_iff]
        simp only [List.length_append, List.length_map]
        omega
      rw [hmissing hne, hold (by omega)]
    have hbefore : s.lines = done ++ kept ++ (oldTexts h.lines).map s.comparable ++ [] := by
      rw [hlines, List.append_nil, List.append_assoc]
    obtain ⟨t, hpatch, ht⟩ := patch_of_lines_eq hanchor hbefore fun _ ↦ hagrees
    refine ⟨t, ?_, by simp [ht.after], ht.style, ht.endsAlike hs, fun hne ↦ ?_⟩
    · rw [patchAll, hpatch]
      rfl
    · rw [ht.after, List.append_nil, ← List.length_pos_iff, List.length_append, ← hanchor,
        hnewAnchor, List.length_map] at hne
      rw [ht.missing, if_pos rfl, hnew (by omega)]
  | @cons i j h hunks olds news oldMissing newMissing kept _ hnewAnchor holds _ _ ih =>
    subst hform
    have hanchor : h.anchor = (done ++ kept).length := by rw [hnewAnchor, List.length_append, hj]
    have hbefore : s.lines = done ++ kept ++ (oldTexts h.lines).map s.comparable ++ olds := by
      rw [hlines, ← List.append_assoc, ← List.append_assoc]
    obtain ⟨t, hpatch, ht⟩ := patch_of_lines_eq hanchor hbefore fun hnil ↦ absurd hnil holds
    have hsame : t.lines ≠ [] → t.missingFinalNewline = oldMissing := by
      intro _
      rw [ht.missing, if_neg holds]
      exact hmissing (by simp [hlines, holds])
    obtain ⟨u, hpatchAll, hu, hstyle, hends, hlast⟩ :=
      ih (done ++ kept ++ (newTexts h.lines).map s.comparable) (first + 1) ht.after
        (ht.endsAlike hs) hsame (funext (comparable_congr ht.style))
        (by simp only [List.length_append, List.length_map, hj])
    refine ⟨u, ?_, by simp [hu], hstyle.trans ht.style, hends, hlast⟩
    rw [patchAll, hpatch]
    exact hpatchAll

/-- Of hunks that have been applied, the first is in its place. -/
private theorem patched_of_patchAll {first : Nat} {h : Hunk}
    (hpatch : s.patchAll first (h :: hunks) = .ok u) (htext : ∃ line ∈ h.lines, line ≠ .noNewline) :
    ∃ t front back, s.Patched h front back t ∧ t.patchAll (first + 1) hunks = .ok u := by
  rw [patchAll] at hpatch
  split at hpatch
  · cases hpatch
  · next t hfirst =>
    obtain ⟨front, back, ht⟩ := patched_of_patch hfirst htext
    exact ⟨t, front, back, ht, hpatch⟩

/-- No hunk lies behind one that reaches the end. -/
private theorem Patched.eq_nil {first : Nat} {h : Hunk} {front : List String}
    (ht : s.Patched h front [] t) (hpatch : t.patchAll first hunks = .ok u)
    (htext : ∀ h ∈ hunks, ∃ line ∈ h.lines, line ≠ .noNewline)
    (hapart : ∀ next ∈ hunks.head?, h.after < next.anchor) : hunks = [] := by
  cases hunks with
  | nil => rfl
  | cons next hunks =>
    obtain ⟨_, front', _, hnext, -⟩ := patched_of_patchAll hpatch (htext next List.mem_cons_self)
    have hle : next.anchor ≤ t.lines.length := by
      rw [hnext.anchor, hnext.before, List.append_assoc, List.length_append]
      exact Nat.le_add_right _ _
    have hlt := hapart next rfl
    rw [ht.length_lines, List.length_nil] at hle
    omega

/-- A hunk that reaches the end turns the lines that are left into new ones. -/
private theorem Patched.rewrites {i : Nat} {h : Hunk} {done kept : List String}
    (ht : s.Patched h (done ++ kept) [] t) (holdAnchor : h.inverse.anchor = i + kept.length)
    (hadds : h.hasOld = false → s.missingFinalNewline = false ∨
      i + (kept ++ (oldTexts h.lines).map s.comparable).length = 0) :
    Rewrites s.comparable i done.length [h] (kept ++ (oldTexts h.lines).map s.comparable)
      s.missingFinalNewline (kept ++ (newTexts h.lines).map s.comparable)
      t.missingFinalNewline := by
  have hnewAnchor : h.anchor = done.length + kept.length := by rw [ht.anchor, List.length_append]
  refine .last kept holdAnchor hnewAnchor (fun hne ↦ ?_) fun _ ↦ ht.missing
  refine ht.missing_eq rfl fun hold ↦ (hadds hold).resolve_right fun hzero ↦ hne ?_
  rwa [List.length_append, List.length_map, ← Nat.add_assoc] at hzero

/-- Hunks that are applied one behind the other turn the lines into new ones. -/
theorem rewrites_of_patchAll {first i : Nat} (done : List String)
    (hpatch : s.patchAll first hunks = .ok u) (hlines : s.lines = done ++ olds) (hs : s.EndsAlike)
    (htext : ∀ h ∈ hunks, ∃ line ∈ h.lines, line ≠ .noNewline)
    (hplaced : Hunk.Placed i done.length hunks)
    (hend : ∀ last ∈ hunks.getLast?, last.hasOld = false → u.lines.length ≤ last.after →
      s.missingFinalNewline = false ∨ i + olds.length = 0) :
    ∃ news, u.lines = done ++ news ∧
      Rewrites s.comparable i done.length hunks olds s.missingFinalNewline news
        u.missingFinalNewline ∧
      u.style = s.style ∧ u.EndsAlike ∧
      (olds ≠ [] → (∀ h ∈ hunks.head?, done.length < h.anchor) → news ≠ []) := by
  induction hunks generalizing s done olds first i with
  | nil =>
    cases hpatch
    exact ⟨olds, hlines, .nil olds _, rfl, hs, fun hne _ ↦ hne⟩
  | cons h hunks ih =>
    rw [List.forall_mem_cons] at htext
    obtain ⟨t, front, back, ht, hpatch⟩ := patched_of_patchAll hpatch htext.1
    obtain ⟨kept, rfl, rfl⟩ := ht.exists_kept hlines (hplaced.first h rfl)
    have hnewAnchor : h.anchor = done.length + kept.length := by
      rw [ht.anchor, List.length_append]
    have holdAnchor : h.inverse.anchor = i + kept.length := hplaced.inverse_anchor hnewAnchor
    have hkept (hlt : done.length < h.anchor) : kept ≠ [] := by
      rw [hnewAnchor, Nat.lt_add_right_iff_pos, List.length_pos_iff] at hlt
      exact hlt
    obtain ⟨hnext, -⟩ := List.isChain_cons.1 hplaced.apart
    by_cases hback : back = []
    · subst hback
      obtain rfl := ht.eq_nil hpatch htext.2 hnext
      cases hpatch
      rw [List.append_nil] at hend ⊢
      exact ⟨kept ++ (newTexts h.lines).map s.comparable, by simp [ht.after],
        ht.rewrites holdAnchor fun hold ↦ hend h rfl hold (Nat.le_of_eq ht.length_lines), ht.style,
        ht.endsAlike hs, fun _ hlt ↦ List.append_ne_nil_of_left_ne_nil (hkept (hlt h rfl)) _⟩
    · have hmissing : t.missingFinalNewline = s.missingFinalNewline := by
        rw [ht.missing, if_neg hback]
      have hdone : (done ++ kept ++ (newTexts h.lines).map s.comparable).length =
          done.length + kept.length + (newTexts h.lines).length := by
        rw [List.length_append, List.length_append, List.length_map]
      have hnextEnd (last : Hunk) (hmem : last ∈ hunks.getLast?) (hhasOld : last.hasOld = false)
          (hle : u.lines.length ≤ last.after) : t.missingFinalNewline = false ∨
            i + kept.length + (oldTexts h.lines).length + back.length = 0 := by
        have hmem : last ∈ (h :: hunks).getLast? := by
          rw [List.getLast?_cons, hmem]
          rfl
        rw [hmissing]
        refine (hend last hmem hhasOld hle).imp_right fun hzero ↦ ?_
        simpa [Nat.add_assoc] using hzero
      obtain ⟨news, hu, hrest, hstyle, hends, hnews⟩ := ih _ hpatch ht.after (ht.endsAlike hs)
        htext.2 (hdone ▸ hplaced.tail hnewAnchor) hnextEnd
      rw [hdone, hmissing, ← funext (comparable_congr ht.style.symm)] at hrest
      rw [hdone, ← Hunk.after_eq hnewAnchor] at hnews
      refine ⟨kept ++ (newTexts h.lines).map s.comparable ++ news, by simp [hu],
        .cons kept holdAnchor hnewAnchor hback (hnews hback hnext) hrest, hstyle.trans ht.style,
        hends, fun _ hlt ↦ ?_⟩
      rw [List.append_assoc]
      exact List.append_ne_nil_of_left_ne_nil (hkept (hlt h rfl)) _

end LineSet

end Patchwork
