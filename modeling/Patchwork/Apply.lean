import Patchwork.Apply.Stage
import Patchwork.PathMap

/-!
# Applying a document to a store

The document is checked as a whole before anything is touched. Then its changes are made one
after another, and the first that fails ends the run: what was done before it stays done. Before
each change the run can be interrupted. Specification: sections 4.3 and 4.4.
-/

namespace Patchwork

/-- Paths, each under one spelling, in the order of paths. -/
abbrev PathSet := PathMap Unit

namespace PathSet

/-- The set of the given paths, each as it is first spelled. -/
def ofPaths (paths : List Path) : PathSet := PathMap.ofList (paths.map (·, ()))

/-- The set of paths gathered all at once, each as it is last spelled. -/
def gather (paths : List Path) : PathSet := ofPaths paths.reverse

/-- The paths in order. -/
def paths (s : PathSet) : List Path := s.toList.map Prod.fst

end PathSet

namespace FileChange

variable {σ : Type} [Store σ]

/-- Makes one change; the result is the path that it touched. The task is read off the change with
all of its checks, where it would do to look up the paths and to see that a deletion has no hunks.
For a run that is the same: it comes here when its document has been checked, and finds no defect
either way. -/
def apply (features : Features) (c : FileChange) (s : σ) : Outcome Fault Path σ :=
  match c.task with
  | .error d => ⟨.error (.defect d), s, []⟩
  | .ok task =>
    let done := Stage.runAll s (task.stages features)
    ⟨done.result.map fun _ ↦ task.path, done.store, done.log⟩

end FileChange

namespace Document

/-- The first defect of the document's changes from index `first` on. -/
def checkFrom (first : Nat) : List FileChange → Except ApplyError Unit
  | [] => .ok ()
  | c :: changes =>
    match c.task with
    | .error d => .error ⟨first, c, .defect d⟩
    | .ok _ => checkFrom (first + 1) changes

/-- Checks the structure of every change, without looking at any file. Models `validate` of
section 4.3. -/
def check (d : Document) : Except ApplyError Unit := checkFrom 0 d.changes

variable {σ : Type} [Store σ]

/-- Makes changes from index `first` of `total` on; the result is the paths touched, in order.
`stop i` tells if the run is interrupted before change `i`. The interrupt is polled once before each
change and at no other time, and a run ends where it fires. So `stop i` is what poll number `i`,
counted from zero, comes to. -/
def applyFrom (features : Features) (stop : Nat → Bool) (total first : Nat) :
    List FileChange → σ → Outcome ApplyError (List Path) σ
  | [], s => ⟨.ok [], s, []⟩
  | c :: changes, s =>
    if stop first then ⟨.error ⟨first, c, .interrupted⟩, s, []⟩
    else
      let done := c.apply features s
      let log := .applying c.kind c.reportedPath first total :: done.log
      match done.result with
      | .error f => ⟨.error ⟨first, c, f⟩, done.store, log⟩
      | .ok path =>
        let later := applyFrom features stop total (first + 1) changes done.store
        ⟨later.result.map (path :: ·), later.store, log ++ later.log⟩

/-- Applies the document; the result is the set of paths touched. -/
def apply (features : Features) (stop : Nat → Bool) (d : Document) (s : σ) :
    Outcome ApplyError PathSet σ :=
  match d.check with
  | .error e => ⟨.error e, s, []⟩
  | .ok () =>
    let total := d.changes.length
    let done := applyFrom features stop total 0 d.changes s
    match done.result with
    | .error e => ⟨.error e, done.store, done.log⟩
    | .ok paths => ⟨.ok (.ofPaths paths), done.store, done.log ++ [.applied total]⟩

/-- A run that nothing interrupts. -/
def never : Nat → Bool := fun _ ↦ false

/-- A run that is interrupted when `n` changes have been made. -/
def after (n : Nat) : Nat → Bool := fun i ↦ n ≤ i

/-- A document with a defect changes nothing. -/
theorem store_apply_of_check_error {features : Features} {stop : Nat → Bool} {d : Document} {s : σ}
    {e : ApplyError} (h : d.check = .error e) : (d.apply features stop s).store = s := by
  simp [apply, h]

end Document

end Patchwork
