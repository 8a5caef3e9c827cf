import Mathlib.Data.List.Infix
import Patchwork.Text.Cut

/-!
# Where a mark cuts a text

A text is cut where a mark first occurs. When the first character of the mark does not occur in it
again, no two occurrences overlap, and then the text in front of an occurrence tells whether it is
the first (`cut?_eq_some_iff`, `before_eq_iff`).
-/

namespace Patchwork.Text

variable {c : Char} {mark text left right body : List Char}

theorem after?_eq_none_iff : after? mark text = none ↔ ¬ mark <+: text := by
  rw [Option.eq_none_iff_forall_ne_some]
  constructor
  · rintro h ⟨rest, rfl⟩
    exact h rest (after?_append mark rest)
  · intro h rest hrest
    exact h ⟨rest, (after?_eq_some_iff.1 hrest).symm⟩

/-- A text is not cut when the mark does not occur in it. -/
theorem cut?_eq_none_iff : cut? mark text = none ↔ ¬ mark <:+: text := by
  induction text with
  | nil => rw [cut?, Option.map_eq_none_iff, after?_eq_none_iff, List.prefix_nil, List.infix_nil]
  | cons d text ih =>
    rw [cut?, List.infix_cons_iff, not_or, ← ih, ← after?_eq_none_iff]
    cases after? mark (d :: text) <;> simp

/-- A mark that begins in front of another one ends there too. -/
private theorem isPrefix_of_isPrefix_append {d : Char} (hc : c ∉ mark)
    (h : (c :: mark) <+: d :: left ++ ((c :: mark) ++ right)) : (c :: mark) <+: d :: left := by
  obtain hin | ⟨rest, hrest⟩ := List.prefix_or_prefix_of_prefix h (List.prefix_append (d :: left) _)
  · exact hin
  · -- The rest of the mark would begin with the mark's first character.
    rw [← hrest, List.prefix_append_right_inj] at h
    cases rest with
    | nil => exact ⟨[], by rw [List.append_nil, ← hrest, List.append_nil]⟩
    | cons e rest =>
      obtain rfl : e = c := (List.cons_prefix_cons.1 h).1.trans (List.cons.inj hrest).1
      refine absurd ?_ hc
      rw [← (List.cons.inj hrest).2]
      exact List.mem_append_right left List.mem_cons_self

/-- A text is cut at an occurrence of the mark with no other one in front of it. -/
theorem cut?_eq_some_iff (hc : c ∉ mark) :
    cut? (c :: mark) text = some (left, right) ↔
      text = left ++ ((c :: mark) ++ right) ∧ ¬ (c :: mark) <:+: left := by
  constructor
  · intro h
    refine ⟨(append_of_cut? h).trans (List.append_assoc _ _ _), ?_⟩
    induction text generalizing left with
    | nil => simp [cut?, after?] at h
    | cons d text ih =>
      rw [cut?] at h
      split at h
      · cases h
        simp
      · next hafter =>
        obtain ⟨⟨front, back⟩, hcut, hparts⟩ := Option.map_eq_some_iff.1 h
        cases hparts
        have hfront : d :: front <+: d :: text := by
          rw [append_of_cut? hcut, List.append_assoc, ← List.cons_append]
          exact List.prefix_append (d :: front) _
        rw [List.infix_cons_iff, not_or]
        exact ⟨fun hin ↦ after?_eq_none_iff.1 hafter (hin.trans hfront), ih hcut⟩
  · rintro ⟨rfl, hleft⟩
    induction left with
    | nil =>
      rw [List.nil_append, List.cons_append, cut?, ← List.cons_append, after?_append]
    | cons d left ih =>
      rw [List.infix_cons_iff, not_or] at hleft
      have hafter : after? (c :: mark) (d :: left ++ ((c :: mark) ++ right)) = none :=
        after?_eq_none_iff.2 fun h ↦ hleft.1 (isPrefix_of_isPrefix_append hc h)
      rw [List.cons_append] at hafter ⊢
      rw [cut?, hafter, ih hleft.2]
      rfl

/-- What comes before the mark holds no mark, and is all of the text or has the mark behind it. -/
theorem before_eq_iff (hc : c ∉ mark) :
    before (c :: mark) text = body ↔
      ¬ (c :: mark) <:+: body ∧ (text = body ∨ ∃ right, text = body ++ ((c :: mark) ++ right)) := by
  rw [before]
  cases hcut : cut? (c :: mark) text with
  | none =>
    have hnone := cut?_eq_none_iff.1 hcut
    constructor
    · rintro rfl
      exact ⟨hnone, .inl rfl⟩
    · rintro ⟨-, rfl | ⟨right, rfl⟩⟩
      · rfl
      · exact absurd ⟨body, right, List.append_assoc _ _ _⟩ hnone
  | some parts =>
    obtain ⟨left, right⟩ := parts
    obtain ⟨rfl, hleft⟩ := (cut?_eq_some_iff hc).1 hcut
    constructor
    · rintro rfl
      exact ⟨hleft, .inr ⟨right, rfl⟩⟩
    · rintro ⟨hbody, htext | ⟨right', htext⟩⟩
      · exact absurd (htext ▸ ⟨left, right, List.append_assoc _ _ _⟩) hbody
      · rw [htext] at hcut
        rw [(cut?_eq_some_iff hc).2 ⟨rfl, hbody⟩] at hcut
        cases hcut
        rfl

end Patchwork.Text
