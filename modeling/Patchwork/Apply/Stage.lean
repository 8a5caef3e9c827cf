import Patchwork.Fault
import Patchwork.Feature
import Patchwork.Log

/-!
# The stages of a task

A task is carried out in one or two stages. Each stage first looks at the store and decides: it
refuses with a fault, or it names the edit to make, if one is needed. Only then does the store
change, so a stage that refuses has left no trace. Specification: the transitions of section 4.3
(Change Dispatcher).
-/

namespace Patchwork

/-- One step in carrying out a task. -/
inductive Stage where
  /-- Makes a file out of hunks. -/
  | create (path : Path) (hunks : List Hunk)
  /-- Applies hunks to a file. -/
  | edit (path : Path) (hunks : List Hunk)
  | delete (path : Path)
  | move (source target : Path)
  | duplicate (source target : Path)
  /-- Leaves hunks aside. -/
  | ignore (path : Path) (hunks : List Hunk)
  deriving DecidableEq, Repr

/-- What is done with hunks that come with a move. -/
def Task.followUp (enabled : Bool) (path : Path) (hunks : List Hunk) : List Stage :=
  if hunks.isEmpty then [] else if enabled then [.edit path hunks] else [.ignore path hunks]

/-- The stages of a task, in order. -/
def Task.stages (features : Features) : Task → List Stage
  | .add path hunks => [.create path hunks]
  | .modify path hunks => [.edit path hunks]
  | .delete path => [.delete path]
  | .rename source target hunks =>
    .move source target :: followUp features.renameHunks target hunks
  | .copy source target hunks =>
    .duplicate source target :: followUp features.copyHunks target hunks

/-- What was done, what the store is then, and what there is to report. -/
structure Outcome (ε α σ : Type) where
  result : Except ε α
  store : σ
  log : List Event

namespace Stage

variable {σ : Type} [Store σ]

/-- The lines that hunks make of a line set. -/
def patchLines (lines : LineSet) (hunks : List Hunk) : Except Fault LineSet :=
  match lines.patchAll 0 hunks with
  | .ok result => .ok result
  | .error (index, e) => .error (.hunk index e)

/-- A file can be moved when it is there and its destination is free. -/
def checkMove (s : σ) (source target : Path) : Except Fault Unit :=
  if !Store.holds s source then .error (.notFound source)
  else if Store.holds s target then .error (.destinationExists target)
  else .ok ()

/-- The content of a file in the store. -/
def fileBytes (s : σ) (path : Path) : Except Fault ByteArray :=
  match Store.read s path with
  | .ok bytes => .ok bytes
  | .error e => .error (.store e)

/-- The lines of a file in the store. -/
def fileLines (s : σ) (path : Path) : Except Fault LineSet :=
  match fileBytes s path with
  | .error f => .error f
  | .ok bytes =>
    match LineSet.ofBytes bytes with
    | .ok lines => .ok lines
    | .error offset => .error (.notText offset)

/-- The edit that a new file needs. Models `Add` of section 4.3. -/
def decideCreate (s : σ) (path : Path) (hunks : List Hunk) : Except Fault Edit :=
  if Store.holds s path then .error (.destinationExists path)
  else if hunks.isEmpty then .ok (.create path)
  else (patchLines .empty hunks).map fun lines ↦ .write path lines.bytes

/-- The edit that a file needs for its hunks; none when its content stays the same. Models `Modify`
of section 4.3. -/
def decideEdit (s : σ) (path : Path) (hunks : List Hunk) : Except Fault (Option Edit) :=
  if !Store.holds s path then .error (.notFound path)
  else
    match fileLines s path with
    | .error f => .error f
    | .ok old =>
      (patchLines old hunks).map fun new ↦
        if new.SameContent old then none else some (.write path new.bytes)

/-- What the stage finds in the store: a fault, or the edit to make, if one is needed. -/
def decide (s : σ) : Stage → Except Fault (Option Edit)
  | create path hunks => (decideCreate s path hunks).map some
  | edit path hunks => decideEdit s path hunks
  | delete path =>
    if Store.holds s path then .ok (some (.delete path)) else .error (.notFound path)
  | move source target => (checkMove s source target).map fun _ ↦ some (.rename source target)
  | duplicate source target =>
    match checkMove s source target with
    | .error f => .error f
    | .ok () => (fileBytes s source).map fun bytes ↦ some (.write target bytes)
  | ignore _ _ => .ok none

/-- The hunks of the stage that were tried, by the decision it came to. -/
def triedHunks (hunks : List Hunk) : Except Fault (Option Edit) → List Hunk
  | .ok _ => hunks
  | .error (.hunk index _) => hunks.take (index + 1)
  | .error _ => []

/-- Reports of tried hunks. -/
def hunkEvents (hunks : List Hunk) : List Event :=
  hunks.mapIdx fun i h ↦ .hunk i h.lines.length h.newStart

/-- What there is to report of a stage and its decision. -/
def events (decision : Except Fault (Option Edit)) : Stage → List Event
  | create _ hunks => hunkEvents (triedHunks hunks decision)
  | edit path hunks =>
    hunkEvents (triedHunks hunks decision) ++
      match decision with
      | .ok none => [.unchanged path]
      | _ => []
  | ignore path hunks => [.ignoredHunks hunks.length path]
  | delete _ | move _ _ | duplicate _ _ => []

/-- Makes the edit that was decided on, if any. -/
def carryOut (s : σ) : Except Fault (Option Edit) → Except Fault Unit × σ
  | .error f => (.error f, s)
  | .ok none => (.ok (), s)
  | .ok (some change) =>
    match Store.perform s change with
    | (.ok (), s') => (.ok (), s')
    | (.error e, s') => (.error (.store e), s')

/-- Decides and carries out. -/
def run (s : σ) (stage : Stage) : Outcome Fault Unit σ :=
  let decision := stage.decide s
  let done := carryOut s decision
  ⟨done.1, done.2, stage.events decision⟩

/-- Runs stages in order, up to the first that fails. -/
def runAll (s : σ) : List Stage → Outcome Fault Unit σ
  | [] => ⟨.ok (), s, []⟩
  | stage :: stages =>
    let first := stage.run s
    match first.result with
    | .error f => ⟨.error f, first.store, first.log⟩
    | .ok () =>
      let later := runAll first.store stages
      ⟨later.result, later.store, first.log ++ later.log⟩

end Stage

end Patchwork
