import Patchwork.Proofs.Apply.Decision
import Patchwork.Proofs.Apply.Run
import Patchwork.Store.Memory
import Patchwork.Store.Overlay

/-!
# What a failed run leaves

A stage makes one edit at most, and only when everything has been looked at. So in a store whose
edits happen or do not (`Store.Atomic`) a failed stage leaves no trace, and stages that fail have
made those in front of the one that did (`Stage.failsAt_of_runAll`). A change is made in one such
stage when hunks that come with a move are ignored, and then a failed run is a run of the changes in
front of the one that it names (`Document.noTrace_of_atomic`). Specification: section 4.4, and the
resource model of section 5.
-/

namespace Patchwork

namespace Store

/-- An edit is made, or the store stays as it was. -/
def Atomic (σ : Type) [Store σ] : Prop :=
  ∀ (s : σ) (edit : Edit), (Store.perform s edit).1 = .ok () ∨ (Store.perform s edit).2 = s

end Store

theorem Memory.atomic : Store.Atomic Memory := by
  intro m edit
  change (m.perform edit).1 = _ ∨ (m.perform edit).2 = m
  cases edit <;> simp only [Memory.perform] <;> (repeat' split) <;> simp

theorem Overlay.atomic {σ : Type} [Store σ] : Store.Atomic (Overlay σ) := by
  intro o edit
  change (o.perform edit).1 = _ ∨ (o.perform edit).2 = o
  cases edit <;> simp only [Overlay.perform] <;> (repeat' split) <;> simp

variable {σ : Type} [Store σ]

namespace Stage

variable {s : σ} {stages : List Stage} {stage : Stage} {f : Fault}

/-- A stage that fails leaves no trace. -/
theorem store_run_of_error (hσ : Store.Atomic σ) (h : (stage.run s).result = .error f) :
    (stage.run s).store = s := by
  change (carryOut s (stage.decide s)).1 = _ at h
  change (carryOut s (stage.decide s)).2 = s
  match hdecision : stage.decide s with
  | .error _ | .ok none => rfl
  | .ok (some e) =>
    rw [hdecision, carryOut_some] at h
    rw [carryOut_some]
    obtain hok | hstore := hσ s e
    · rw [hok] at h
      cases h
    · exact hstore

/-- Where stages fail: those in front of one are made, and that one leaves no trace. -/
structure FailsAt (s : σ) (f : Fault) (stages front : List Stage) (stage : Stage) : Prop where
  among : ∃ back, stages = front ++ stage :: back
  before : (runAll s front).result = .ok ()
  fails : (stage.run (runAll s front).store).result = .error f
  store : (runAll s stages).store = (runAll s front).store

theorem failsAt_of_runAll (hσ : Store.Atomic σ) (h : (runAll s stages).result = .error f) :
    ∃ front stage, FailsAt s f stages front stage := by
  induction stages generalizing s with
  | nil => cases h
  | cons first stages ih =>
    cases hfirst : (first.run s).result with
    | error f' =>
      simp only [runAll, hfirst] at h
      cases h
      refine ⟨[], first, ⟨stages, rfl⟩, rfl, hfirst, ?_⟩
      simpa only [runAll, hfirst] using store_run_of_error hσ hfirst
    | ok =>
      simp only [runAll, hfirst] at h
      obtain ⟨front, stage, ⟨back, rfl⟩, hbefore, hfails, hstore⟩ := ih h
      refine ⟨first :: front, stage, ⟨back, rfl⟩, ?_, ?_, ?_⟩
      all_goals simpa only [List.cons_append, runAll, hfirst]

end Stage

/-- With no feature switched on, only the first stage of a task does anything. -/
theorem Task.stages_none (task : Task) :
    ∃ first rest, task.stages .none = first :: rest ∧
      ∀ stage ∈ rest, ∃ path hunks, stage = .ignore path hunks := by
  have hfollow (path : Path) (hunks : List Hunk) :
      ∀ stage ∈ followUp false path hunks, ∃ path hunks, stage = .ignore path hunks := by
    intro stage hstage
    rw [followUp] at hstage
    split at hstage
    · cases hstage
    · exact ⟨path, hunks, List.mem_singleton.1 hstage⟩
  cases task with
  | add path hunks | modify path hunks | delete path => exact ⟨_, [], rfl, by simp⟩
  | rename source target hunks | copy source target hunks => exact ⟨_, _, rfl, hfollow target hunks⟩

namespace FileChange

variable {features : Features} {c : FileChange} {s : σ} {f : Fault}

/-- A change without defects that fails does so at one of its stages. -/
theorem failsAt_of_apply {task : Task} (hσ : Store.Atomic σ) (htask : c.task = .ok task)
    (h : (c.apply features s).result = .error f) :
    ∃ front stage, Stage.FailsAt s f (task.stages features) front stage ∧
      (c.apply features s).store = (Stage.runAll s front).store := by
  simp only [apply, htask] at h ⊢
  cases hstages : (Stage.runAll s (task.stages features)).result with
  | ok =>
    rw [hstages] at h
    cases h
  | error f' =>
    rw [hstages] at h
    cases h
    obtain ⟨front, stage, hfails⟩ := Stage.failsAt_of_runAll hσ hstages
    exact ⟨front, stage, hfails, hfails.store⟩

/-- With no feature switched on, a change that fails leaves no trace. -/
theorem store_apply_none_of_error (hσ : Store.Atomic σ)
    (h : (c.apply .none s).result = .error f) : (c.apply .none s).store = s := by
  cases htask : c.task with
  | error defect => simp only [apply, htask]
  | ok task =>
    obtain ⟨front, stage, hfails, hstore⟩ := failsAt_of_apply hσ htask h
    obtain ⟨first, rest, hstages, hrest⟩ := task.stages_none
    obtain ⟨back, hamong⟩ := hfails.among
    rw [hstages] at hamong
    cases front with
    | nil => exact hstore
    | cons other front =>
      -- The stage that failed is one that ignores hunks, and these never fail.
      obtain ⟨rfl, rfl⟩ := List.cons.inj hamong
      obtain ⟨path, hunks, rfl⟩ := hrest stage (by simp)
      cases hfails.fails

end FileChange

namespace Document

variable {features : Features} {stop : Nat → Bool} {d : Document} {s : σ}

/-- A run that fails leaves the store as it was when the document has a defect, and otherwise as
the changes in front of the one that it names leave it, which alone come out well. -/
structure NoTrace (features : Features) (stop : Nat → Bool) (d : Document) (s : σ) : Prop where
  of_defect : ∀ e, d.check = .error e →
    (d.apply features stop s).result = .error e ∧ (d.apply features stop s).store = s
  of_failure : ∀ e, d.check = .ok () → (d.apply features stop s).result = .error e →
    d.changes[e.index]? = some e.change ∧
      (∃ touched, ((d.upTo e.index).apply features stop s).result = .ok touched) ∧
        (d.apply features stop s).store = ((d.upTo e.index).apply features stop s).store

theorem noTrace_of_atomic (hσ : Store.Atomic σ) (stop : Nat → Bool) (d : Document) (s : σ) :
    d.NoTrace .none stop s where
  of_defect e hcheck := by simp only [apply, hcheck, and_self]
  of_failure e hcheck h := by
    obtain ⟨hchange, hbefore, hhalts⟩ := failsAt_of_apply hcheck h
    refine ⟨hchange, hbefore, ?_⟩
    generalize (d.apply .none stop s).store = s' at hhalts ⊢
    cases hhalts with
    | interrupted => rfl
    | fails _ hc => exact FileChange.store_apply_none_of_error hσ hc

/-- With no feature switched on, a failed run leaves no trace of the change that failed, in a store
in memory or an overlay of one. -/
theorem leaves_no_trace (stop : Nat → Bool) (d : Document) :
    (∀ m : Memory, d.NoTrace .none stop m) ∧ ∀ o : Overlay Memory, d.NoTrace .none stop o :=
  ⟨noTrace_of_atomic Memory.atomic stop d, noTrace_of_atomic Overlay.atomic stop d⟩

/-- A store with a file of one line. -/
def oneLine : Memory := Memory.empty.seed ⟨"a"⟩ "x\n".toUTF8

/-- The second hunk of the second change does not fit. -/
def halfFitting : Document :=
  ⟨[⟨.add, none, some ⟨"b"⟩, []⟩,
    ⟨.modify, some ⟨"a"⟩, some ⟨"a"⟩, [⟨1, 1, [.add "w"]⟩, ⟨2, 2, [.remove "y"]⟩]⟩]⟩

theorem leaves_no_trace_halfFitting :
    ∃ e, (halfFitting.apply .none never oneLine).result = .error e ∧
      e.fault = .hunk 1 (.mismatch 2 (.remove "y") "x") ∧
        (halfFitting.apply .none never oneLine).store =
          ((halfFitting.upTo 1).apply .none never oneLine).store := by
  refine ⟨_, rfl, rfl, ?_⟩
  exact (((leaves_no_trace never halfFitting).1 oneLine).of_failure _ rfl rfl).2.2

end Document

end Patchwork
