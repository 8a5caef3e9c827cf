/-!
# Cutting a text at a mark

Taking a fixed lead off a text and cutting it at the first place where a mark occurs. Main
statements: `after?_eq_some_iff` says that a lead comes off exactly when the text begins with
it, and `append_of_cut?` that a cut loses nothing but the mark.
-/

namespace Patchwork.Text

/-- What follows `lead` in a text that begins with it. -/
def after? : (lead text : List Char) → Option (List Char)
  | [], text => some text
  | _ :: _, [] => none
  | a :: lead, c :: text => if a = c then after? lead text else none

/-- The text without `lead` when it begins with it, and the whole text otherwise. -/
def dropLead (lead text : List Char) : List Char :=
  (after? lead text).getD text

/-- The text before and after the first occurrence of `mark`. -/
def cut? (mark : List Char) : (text : List Char) → Option (List Char × List Char)
  | [] => (after? mark []).map ([], ·)
  | c :: text =>
    match after? mark (c :: text) with
    | some rest => some ([], rest)
    | none => (cut? mark text).map fun parts ↦ (c :: parts.1, parts.2)

/-- The text before the first occurrence of `mark`, or the whole text when it has none. -/
def before (mark text : List Char) : List Char :=
  ((cut? mark text).map Prod.fst).getD text

/-- A lead comes off exactly when the text begins with it. -/
theorem after?_eq_some_iff {lead text rest : List Char} :
    after? lead text = some rest ↔ text = lead ++ rest := by
  fun_induction after? lead text with
  | case1 => simp [eq_comm]
  | case2 => simp
  | case3 a lead text ih => simp [ih]
  | case4 a lead c text h => simp [Ne.symm h]

/-- A lead that was put on comes off again. -/
@[simp] theorem after?_append (lead rest : List Char) : after? lead (lead ++ rest) = some rest :=
  after?_eq_some_iff.2 rfl

/-- A cut loses nothing but the mark. -/
theorem append_of_cut? {mark text left right : List Char}
    (h : cut? mark text = some (left, right)) : text = left ++ mark ++ right := by
  induction text generalizing left with
  | nil =>
    simp only [cut?, Option.map_eq_some_iff, Prod.mk.injEq] at h
    obtain ⟨rest, hrest, rfl, rfl⟩ := h
    simpa using after?_eq_some_iff.1 hrest
  | cons c text ih =>
    simp only [cut?] at h
    split at h
    · rename_i rest hrest
      simp only [Option.some.injEq, Prod.mk.injEq] at h
      obtain ⟨rfl, rfl⟩ := h
      simpa using after?_eq_some_iff.1 hrest
    · simp only [Option.map_eq_some_iff, Prod.mk.injEq] at h
      obtain ⟨parts, hparts, rfl, rfl⟩ := h
      simp [ih hparts]

end Patchwork.Text
