import Mathlib.Data.List.ReduceOption
import Patchwork.Proofs.Except
import Patchwork.Proofs.Hunk.Bytes

/-!
# Where the lines of an edited file come from

Lines are put in and taken out of a set with their endings, however many endings it has recorded
(`pairs_insert`, `pairs_erase`), and a hunk does no more than that. So whatever goes with the lines
can be carried along (`Revision.carry`): carrying the numbers that the lines had at first tells of
each later line which one it was, or that it was put in. Main statement:
`LineSet.pairs_of_revisions`.
-/

namespace Patchwork

open HunkLine (isOld renewed)

/-- Renewing lines loses some of those at their place and keeps the order of the others. -/
theorem HunkLine.reduceOption_renewed_sublist {α : Type} (olds : List (Option α))
    (lines : List HunkLine) :
    List.Sublist (renewed (fun _ ↦ none) olds lines).reduceOption
      (olds.take (lines.countP isOld)).reduceOption := by
  induction lines generalizing olds with
  | nil => exact List.Sublist.refl _
  | cons line lines ih =>
    have htake : olds.take (lines.countP isOld + 1) =
        olds.take 1 ++ (olds.drop 1).take (lines.countP isOld) := by
      rw [Nat.add_comm, List.take_add]
    cases line with
    | context _ =>
      rw [renewed, List.countP_cons_of_pos rfl, htake, List.reduceOption_append,
        List.reduceOption_append]
      exact (ih (olds.drop 1)).append_left _
    | remove _ =>
      rw [renewed, List.countP_cons_of_pos rfl, htake, List.reduceOption_append]
      exact (ih (olds.drop 1)).trans (List.sublist_append_right _ _)
    | add _ =>
      rw [renewed, List.reduceOption_cons_of_none]
      exact ih olds
    | noNewline => exact ih olds

/-- A hunk loses some of the lines and keeps the order of the others. -/
theorem Hunk.reduceOption_renew_sublist {α : Type} (h : Hunk) (items : List (Option α)) :
    List.Sublist (h.renew (fun _ ↦ none) items).reduceOption items.reduceOption := by
  have hsplit : items = items.take h.anchor ++
      (items.drop h.anchor).take (h.lines.countP isOld) ++
        items.drop (h.anchor + h.lines.countP isOld) := by
    rw [← List.take_add, List.take_append_drop]
  have hplace := HunkLine.reduceOption_renewed_sublist (items.drop h.anchor) h.lines
  conv => rhs; rw [hsplit]
  rw [renew, List.reduceOption_append, List.reduceOption_append, List.reduceOption_append,
    List.reduceOption_append]
  exact (hplace.append_left _).append_right _

namespace LineSet

/-- A change to the lines of a file: one is put in or taken out, or a hunk is applied, to the lines
alone or to the file with its final newline. -/
inductive Revision where
  | insert (i : Nat) (line : String)
  | erase (i : Nat)
  | splice (h : Hunk)
  | patch (h : Hunk)
  deriving DecidableEq, Repr

namespace Revision

variable {α β : Type} {R : α → β → Prop}

/-- What becomes of items that go with the lines: those of lines that are taken out are lost, and
those of lines that are put in are made of their text. -/
def carry (fresh : String → α) (items : List α) : Revision → List α
  | insert i line => items.insertIdx i (fresh line)
  | erase i => items.eraseIdx i
  | splice h | patch h => h.renew fresh items

private theorem forall₂_insertIdx {a : α} {b : β} (hab : R a b) {items : List α} {others : List β}
    (h : List.Forall₂ R items others) (i : Nat) :
    List.Forall₂ R (items.insertIdx i a) (others.insertIdx i b) := by
  induction h generalizing i with
  | nil =>
    cases i with
    | zero => exact .cons hab .nil
    | succ i => exact .nil
  | cons hfirst hrest ih =>
    cases i with
    | zero => exact .cons hab (.cons hfirst hrest)
    | succ i => exact .cons hfirst (ih i)

/-- Items that go together still do when they have been carried along. -/
theorem forall₂_carry {fresh : String → α} {fresh' : String → β}
    (hfresh : ∀ text, R (fresh text) (fresh' text)) {items : List α} {others : List β}
    (h : List.Forall₂ R items others) (revision : Revision) :
    List.Forall₂ R (revision.carry fresh items) (revision.carry fresh' others) := by
  cases revision with
  | insert i line => exact forall₂_insertIdx (hfresh line) h i
  | erase i =>
    rw [carry, carry, List.eraseIdx_eq_take_drop_succ, List.eraseIdx_eq_take_drop_succ]
    exact List.rel_append (List.forall₂_take i h) (List.forall₂_drop (i + 1) h)
  | splice h' | patch h' => exact Hunk.forall₂_renew hfresh h h'

private theorem reduceOption_insertIdx (items : List (Option α)) (i : Nat) :
    (items.insertIdx i none).reduceOption = items.reduceOption := by
  induction items generalizing i with
  | nil => cases i <;> rfl
  | cons item items ih =>
    cases i with
    | zero => exact List.reduceOption_cons_of_none _
    | succ i =>
      cases item with
      | none => exact ih i
      | some a => exact congrArg (a :: ·) (ih i)

/-- Items that are not lost keep their order. -/
theorem reduceOption_carry_sublist (items : List (Option α)) (revision : Revision) :
    List.Sublist (revision.carry (fun _ ↦ none) items).reduceOption items.reduceOption := by
  cases revision with
  | insert i line =>
    rw [carry, reduceOption_insertIdx]
  | erase i => exact (List.eraseIdx_sublist items i).filterMap id
  | splice h | patch h => exact h.reduceOption_renew_sublist items

/-- What becomes of the items after one change and another. -/
def carryAll (fresh : String → α) (items : List α) : List Revision → List α
  | [] => items
  | revision :: revisions => carryAll fresh (revision.carry fresh items) revisions

theorem reduceOption_carryAll_sublist (items : List (Option α)) (revisions : List Revision) :
    List.Sublist (carryAll (fun _ ↦ none) items revisions).reduceOption items.reduceOption := by
  induction revisions generalizing items with
  | nil => exact List.Sublist.refl _
  | cons revision revisions ih =>
    exact (ih (revision.carry _ items)).trans (revision.reduceOption_carry_sublist items)

end Revision

variable {s t u : LineSet} {revision : Revision} {revisions : List Revision}

/-- The set that has been changed. Nothing comes of an index out of range or of a hunk that does
not fit. -/
def revise? (s : LineSet) : Revision → Option LineSet
  | .insert i line => s.insert? i line
  | .erase i => s.erase? i
  | .splice h => (s.splice h).toOption.map Prod.fst
  | .patch h => (s.patch h).toOption

/-- The set after one change and another. -/
def reviseAll? (s : LineSet) : List Revision → Option LineSet
  | [] => some s
  | revision :: revisions => (s.revise? revision).bind (reviseAll? · revisions)

/-- For each line after the changes, the index of the line that it was before them all. A line that
was put in was none. -/
def origins (count : Nat) (revisions : List Revision) : List (Option Nat) :=
  Revision.carryAll (fun _ ↦ none) ((List.range count).map some) revisions

/-- A line that was there before has the text and the ending that it had, and one that was put in
has the ending of the set's style. -/
def StemsFrom (s : LineSet) : Option Nat → String × LineEnding → Prop
  | some i, pair => s.pairs[i]? = some pair
  | none, pair => pair.2 = s.style

/-- A change carries the pairs along, and those that it puts in have the ending of the style. -/
theorem pairs_revise? (h : s.revise? revision = some t) :
    (∃ spelled : String → String,
      t.pairs = revision.carry (fun text ↦ (spelled text, s.style)) s.pairs) ∧
      t.style = s.style := by
  cases revision with
  | insert i line =>
    rw [revise?, insert?] at h
    split at h
    · next hle =>
      cases h
      exact ⟨⟨id, pairs_insert s hle⟩, rfl⟩
    · cases h
  | erase i =>
    rw [revise?, erase?] at h
    split at h
    · cases h
      exact ⟨⟨id, pairs_erase s i⟩, rfl⟩
    · cases h
  | splice h' =>
    rw [revise?, Option.map_eq_some_iff] at h
    obtain ⟨⟨t', j⟩, hsplice, rfl⟩ := h
    obtain ⟨hpairs, hstyle⟩ := pairs_of_splice (Except.toOption_eq_some_iff.1 hsplice)
    exact ⟨⟨s.comparable, hpairs⟩, hstyle⟩
  | patch h' =>
    rw [revise?, Except.toOption_eq_some_iff] at h
    obtain ⟨hpairs, hstyle⟩ := pairs_of_patch h
    exact ⟨⟨s.comparable, hpairs⟩, hstyle⟩

/-- Before any change a line stems from the one at its own index. -/
theorem stemsFrom_range (s : LineSet) :
    List.Forall₂ s.StemsFrom ((List.range s.lines.length).map some) s.pairs := by
  rw [List.forall₂_iff_get]
  constructor
  · simp
  · intro i h₁ h₂
    simp [StemsFrom]

/-- Lines stem from the same ones after changes as before. -/
theorem stemsFrom_reviseAll? {items : List (Option Nat)}
    (hstems : List.Forall₂ s.StemsFrom items t.pairs) (hstyle : t.style = s.style)
    (h : t.reviseAll? revisions = some u) :
    List.Forall₂ s.StemsFrom (Revision.carryAll (fun _ ↦ none) items revisions) u.pairs := by
  induction revisions generalizing t items with
  | nil =>
    cases h
    exact hstems
  | cons revision revisions ih =>
    obtain ⟨t', hrevise, hrest⟩ := Option.bind_eq_some_iff.1 h
    obtain ⟨⟨spelled, hpairs⟩, hstyle'⟩ := pairs_revise? hrevise
    refine ih ?_ (hstyle'.trans hstyle) hrest
    rw [hpairs]
    have hfresh (text : String) : s.StemsFrom none (spelled text, t.style) := hstyle
    exact revision.forall₂_carry hfresh hstems

/-- Lines that were there before keep their order. -/
theorem reduceOption_origins_sublist (count : Nat) (revisions : List Revision) :
    List.Sublist (origins count revisions).reduceOption (List.range count) := by
  have hrange : ((List.range count).map some).reduceOption = List.range count := by
    rw [List.reduceOption, List.filterMap_map]
    exact List.filterMap_some
  have hsublist := Revision.reduceOption_carryAll_sublist ((List.range count).map some) revisions
  rwa [hrange] at hsublist

/-- A line that is put in or taken out, in range, is put in or taken out with its ending and moves
no other ending, whether or not as many endings have been recorded as there are lines. So after any
such changes and any hunks, a line that was neither put in nor taken out has the ending that it had
before, and these lines are in the order that they had. -/
theorem pairs_of_revisions (s : LineSet) :
    (∀ i line, i ≤ s.lines.length →
      ∃ t, s.insert? i line = some t ∧ t.pairs = s.pairs.insertIdx i (line, s.style)) ∧
      (∀ i, i < s.lines.length → ∃ t, s.erase? i = some t ∧ t.pairs = s.pairs.eraseIdx i) ∧
      ∀ revisions t, s.reviseAll? revisions = some t →
        List.Forall₂ s.StemsFrom (origins s.lines.length revisions) t.pairs ∧
          List.Sublist (origins s.lines.length revisions).reduceOption
            (List.range s.lines.length) := by
  constructor
  · intro i line hle
    exact ⟨s.insert i line, if_pos hle, pairs_insert s hle⟩
  constructor
  · intro i hlt
    exact ⟨s.erase i, if_pos hlt, pairs_erase s i⟩
  · intro revisions t h
    exact ⟨stemsFrom_reviseAll? s.stemsFrom_range rfl h, reduceOption_origins_sublist _ revisions⟩

section Instance

/-- Four lines with an ending recorded for the first of them only. -/
def drifting : LineSet := ⟨["a", "b", "c", "d"], [.crlf], .lf, false⟩

/-- A line is put in behind the recorded endings, the one that has an ending of its own is taken
out, and a hunk replaces another. -/
def reworking : List Revision :=
  [.insert 3 "x", .erase 0, .patch ⟨1, 1, [.context "b", .remove "c", .add "e"]⟩]

theorem pairs_of_revisions_drifting :
    (∃ t, drifting.insert? 4 "x" = some t ∧
      t.pairs = drifting.pairs.insertIdx 4 ("x", .lf)) ∧
      (∃ t, drifting.erase? 0 = some t ∧ t.pairs = drifting.pairs.eraseIdx 0) ∧
      ∃ t, drifting.reviseAll? reworking = some t ∧
        List.Forall₂ drifting.StemsFrom [some 1, none, none, some 3] t.pairs := by
  obtain ⟨hinsert, herase, hrevisions⟩ := pairs_of_revisions drifting
  have hrun : drifting.reviseAll? reworking = some ⟨["b", "e", "x", "d"], [], .lf, false⟩ := by
    decide
  have horigins : origins 4 reworking = [some 1, none, none, some 3] := by decide
  have hstems := (hrevisions reworking _ hrun).1
  exact ⟨hinsert 4 "x" (by decide), herase 0 (by decide), _, hrun, horigins ▸ hstems⟩

end Instance

end LineSet

end Patchwork
