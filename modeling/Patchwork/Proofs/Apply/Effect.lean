import Patchwork.Apply
import Patchwork.Proofs.Apply.Decision
import Patchwork.Proofs.Apply.Run
import Patchwork.Proofs.Store.Memory

/-!
# What a change comes to

What is asked of a store in memory can be described by the contents alone: what hunks make of one
content (`Stage.revise`), what a stage makes of all of them (`Stage.effect`), and with it a change
(`FileChange.effect`). The store does just that (`Memory.contents_apply`), also when a document's
changes are made one after another (`Document.contents_apply_eq_ok_iff`).
-/

namespace Patchwork

namespace Stage

/-- What hunks make of a content. One whose lines stay the same is left as it is. -/
def revise (content : ByteArray) (hunks : List Hunk) : Except Fault ByteArray :=
  match LineSet.ofBytes content with
  | .error offset => .error (.notText offset)
  | .ok old =>
    (patchLines old hunks).map fun new ↦ if new.SameContent old then content else new.bytes

/-- What a stage makes of the contents of a store. -/
def effect (f : Contents) : Stage → Except Fault Contents
  | create p hunks =>
    match f p with
    | some _ => .error (.destinationExists p)
    | none =>
      if hunks.isEmpty then .ok (f.set p (some .empty))
      else (patchLines .empty hunks).map fun lines ↦ f.set p (some lines.bytes)
  | edit p hunks =>
    match f p with
    | none => .error (.notFound p)
    | some content => (revise content hunks).map fun new ↦ f.set p (some new)
  | delete p =>
    match f p with
    | none => .error (.notFound p)
    | some _ => .ok (f.set p none)
  | move source target =>
    match f source, f target with
    | none, _ => .error (.notFound source)
    | some _, some _ => .error (.destinationExists target)
    | some content, none => .ok ((f.set target (some content)).set source none)
  | duplicate source target =>
    match f source, f target with
    | none, _ => .error (.notFound source)
    | some _, some _ => .error (.destinationExists target)
    | some content, none => .ok (f.set target (some content))
  | ignore _ _ => .ok f

/-- What stages make of the contents of a store, one after another. -/
def effectAll (f : Contents) : List Stage → Except Fault Contents
  | [] => .ok f
  | stage :: stages =>
    match stage.effect f with
    | .error fault => .error fault
    | .ok g => effectAll g stages

section Success

variable {f g : Contents} {p source target : Path} {hunks : List Hunk} {stages : List Stage}

theorem effect_create_eq_ok (h : (create p hunks).effect f = .ok g) :
    f p = none ∧ ∃ content, f.set p (some content) = g := by
  rw [effect] at h
  cases hp : f p with
  | some content =>
    rw [hp] at h
    cases h
  | none =>
    simp only [hp] at h
    split at h
    · cases h
      exact ⟨rfl, _, rfl⟩
    · cases hlines : patchLines .empty hunks with
      | error fault =>
        rw [hlines] at h
        cases h
      | ok lines =>
        rw [hlines] at h
        cases h
        exact ⟨rfl, _, rfl⟩

theorem effect_edit_eq_ok_iff :
    (edit p hunks).effect f = .ok g ↔
      ∃ old new, f p = some old ∧ revise old hunks = .ok new ∧ f.set p (some new) = g := by
  rw [effect]
  cases f p with
  | none => simp
  | some content => cases hnew : revise content hunks <;> simp [hnew, Except.map]

theorem effect_delete_eq_ok_iff :
    (delete p).effect f = .ok g ↔ (∃ content, f p = some content) ∧ f.set p none = g := by
  rw [effect]
  cases f p <;> simp

theorem effect_move_eq_ok_iff :
    (move source target).effect f = .ok g ↔
      ∃ content, f source = some content ∧ f target = none ∧
        (f.set target (some content)).set source none = g := by
  rw [effect]
  cases f source <;> cases f target <;> simp

theorem effect_duplicate_eq_ok_iff :
    (duplicate source target).effect f = .ok g ↔
      ∃ content, f source = some content ∧ f target = none ∧ f.set target (some content) = g := by
  rw [effect]
  cases f source <;> cases f target <;> simp

theorem effectAll_cons_eq_ok_iff {stage : Stage} :
    effectAll f (stage :: stages) = .ok g ↔
      ∃ f', stage.effect f = .ok f' ∧ effectAll f' stages = .ok g := by
  rw [effectAll]
  cases stage.effect f <;> simp

@[simp] theorem effectAll_singleton (f : Contents) (stage : Stage) :
    effectAll f [stage] = stage.effect f := by
  rw [effectAll]
  cases stage.effect f <;> rfl

/-- Hunks that come with a move are applied when there are any and that is switched on. -/
theorem effectAll_followUp (f : Contents) (enabled : Bool) (p : Path) (hunks : List Hunk) :
    effectAll f (Task.followUp enabled p hunks) =
      if enabled ∧ hunks ≠ [] then (edit p hunks).effect f else .ok f := by
  cases enabled <;> cases hunks <;> simp [Task.followUp, effectAll, effect]

end Success

end Stage

namespace FileChange

/-- What a change makes of the contents of a store. -/
def effect (features : Features) (f : Contents) (c : FileChange) : Except Fault Contents :=
  match c.task with
  | .error defect => .error (.defect defect)
  | .ok task => Stage.effectAll f (task.stages features)

theorem effect_of_task {features : Features} {c : FileChange} {task : Task}
    (htask : c.task = .ok task) (f : Contents) :
    c.effect features f = Stage.effectAll f (task.stages features) := by
  rw [effect, htask]

theorem effect_eq_ok_iff {features : Features} {f g : Contents} {c : FileChange} :
    c.effect features f = .ok g ↔
      ∃ task, c.task = .ok task ∧ Stage.effectAll f (task.stages features) = .ok g := by
  rw [effect]
  cases c.task <;> simp

/-- What changes make of the contents of a store, one after another. -/
def effectAll (features : Features) (f : Contents) : List FileChange → Except Fault Contents
  | [] => .ok f
  | c :: changes =>
    match c.effect features f with
    | .error fault => .error fault
    | .ok g => effectAll features g changes

theorem effectAll_cons_eq_ok_iff {features : Features} {f g : Contents} {c : FileChange}
    {changes : List FileChange} :
    effectAll features f (c :: changes) = .ok g ↔
      ∃ f', c.effect features f = .ok f' ∧ effectAll features f' changes = .ok g := by
  rw [effectAll]
  cases c.effect features f <;> simp

@[simp] theorem effectAll_singleton (features : Features) (f : Contents) (c : FileChange) :
    effectAll features f [c] = c.effect features f := by
  rw [effectAll]
  cases c.effect features f <;> rfl

/-- Changes that come to something have no defects. -/
theorem exists_task_of_effectAll {features : Features} {f g : Contents}
    {changes : List FileChange} (h : effectAll features f changes = .ok g) :
    ∀ c ∈ changes, ∃ task, c.task = .ok task := by
  induction changes generalizing f with
  | nil => exact fun c hc ↦ absurd hc List.not_mem_nil
  | cons c changes ih =>
    obtain ⟨f', hc, hrest⟩ := effectAll_cons_eq_ok_iff.1 h
    obtain ⟨task, htask, -⟩ := effect_eq_ok_iff.1 hc
    exact List.forall_mem_cons.2 ⟨⟨task, htask⟩, ih hrest⟩

end FileChange

namespace Outcome

variable {ε α : Type}

/-- The contents of the store after a success. -/
def contents (a : Outcome ε α Memory) : Except ε Contents := a.result.map fun _ ↦ a.store.get?

theorem contents_eq_ok_iff {a : Outcome ε α Memory} {f : Contents} :
    a.contents = .ok f ↔ (∃ x, a.result = .ok x) ∧ a.store.get? = f := by
  rw [contents, Except.map_eq_ok_iff, exists_and_right]

theorem contents_eq_error_iff {a : Outcome ε α Memory} {e : ε} :
    a.contents = .error e ↔ a.result = .error e :=
  Except.map_eq_error_iff

end Outcome

namespace Memory

private theorem holds_eq (m : Memory) (p : Path) : Store.holds m p = (m.get? p).isSome := rfl

private theorem fileBytes_of_some {m : Memory} {p : Path} {content : ByteArray}
    (h : m.get? p = some content) : Stage.fileBytes m p = .ok content := by
  have hread : Store.read m p = .ok content := Store.content?_eq_some_iff.1 (by rw [content?_eq, h])
  rw [Stage.fileBytes, hread]

private theorem checkMove_eq (m : Memory) (source target : Path) :
    Stage.checkMove m source target =
      match m.get? source, m.get? target with
      | none, _ => .error (.notFound source)
      | some _, some _ => .error (.destinationExists target)
      | some _, none => .ok () := by
  rw [Stage.checkMove, holds_eq, holds_eq]
  cases m.get? source <;> cases m.get? target <;> rfl

/-- A store in memory makes the edit that a stage decides on. -/
private theorem contents_run_eq_decide (m : Memory) (stage : Stage) :
    (stage.run m).contents =
      (stage.decide m).map fun edit ↦ edit.elim m.get? fun e ↦ (e.effect m.get?).2 := by
  change (Stage.carryOut m (stage.decide m)).1.map
    (fun _ ↦ (Stage.carryOut m (stage.decide m)).2.get?) = _
  match hdecision : stage.decide m with
  | .error f | .ok none => rfl
  | .ok (some e) =>
    have heffect := (Stage.effect_of_decide m.honest hdecision).1
    rw [content?_eq, ← m.perform_effect e] at heffect
    have hstore : (m.perform e).2.get? = (e.effect m.get?).2 :=
      congrArg Prod.snd (m.perform_effect e)
    rw [Stage.carryOut_some]
    change ((m.perform e).1.mapError Fault.store).map (fun _ ↦ (m.perform e).2.get?) = _
    rw [heffect, hstore]
    rfl

/-- Editing a file that is there comes to what the hunks make of its content. -/
private theorem decideEdit_of_some {m : Memory} {p : Path} {content : ByteArray}
    (hp : m.get? p = some content) (hunks : List Hunk) :
    ((Stage.decideEdit m p hunks).map fun edit ↦
        edit.elim m.get? fun e ↦ (e.effect m.get?).2) =
      (Stage.revise content hunks).map fun new ↦ Contents.set m.get? p (some new) := by
  simp only [Stage.decideEdit, Stage.fileLines, holds_eq, hp, Option.isSome_some, Bool.not_true,
    Bool.false_eq_true, if_false, fileBytes_of_some hp, Stage.revise]
  cases LineSet.ofBytes content with
  | error offset => rfl
  | ok old =>
    dsimp only
    cases Stage.patchLines old hunks with
    | error f => rfl
    | ok new =>
      by_cases hsame : new.SameContent old
      · simp [Except.map, hsame, m.proper_get?.set_eq_self hp]
      · simp [Except.map, hsame, Edit.effect]

/-- A store in memory does what the stage comes to. -/
theorem contents_run (m : Memory) (stage : Stage) :
    (stage.run m).contents = stage.effect m.get? := by
  rw [contents_run_eq_decide]
  cases stage with
  | create p hunks =>
    rw [Stage.decide, Stage.decideCreate, Stage.effect, holds_eq]
    cases hp : m.get? p with
    | some content => rfl
    | none =>
      simp only [Option.isSome_none, Bool.false_eq_true, if_false]
      split
      · simp [Except.map, Edit.effect, hp]
      · cases Stage.patchLines .empty hunks <;> rfl
  | edit p hunks =>
    rw [Stage.decide, Stage.effect]
    cases hp : m.get? p with
    | none => simp [Stage.decideEdit, holds_eq, hp, Except.map]
    | some content => exact decideEdit_of_some hp hunks
  | delete p =>
    rw [Stage.decide, Stage.effect, holds_eq]
    cases hp : m.get? p with
    | none => rfl
    | some content => simp [Except.map, Edit.effect, hp]
  | move source target =>
    rw [Stage.decide, Stage.effect, checkMove_eq]
    cases hsource : m.get? source <;> cases htarget : m.get? target <;>
      simp [Except.map, Edit.effect, hsource, htarget]
  | duplicate source target =>
    rw [Stage.decide, Stage.effect, checkMove_eq]
    cases hsource : m.get? source with
    | none => rfl
    | some content =>
      rw [fileBytes_of_some hsource]
      cases m.get? target <;> rfl
  | ignore p hunks => rfl

/-- A store in memory does what the stages come to. -/
theorem contents_runAll (m : Memory) (stages : List Stage) :
    (Stage.runAll m stages).contents = Stage.effectAll m.get? stages := by
  induction stages generalizing m with
  | nil => rfl
  | cons stage stages ih =>
    have hstage := m.contents_run stage
    rw [Stage.runAll, Stage.effectAll, ← hstage]
    cases hresult : (stage.run m).result with
    | error f => rw [Outcome.contents_eq_error_iff.2 hresult]; rfl
    | ok => rw [Outcome.contents_eq_ok_iff.2 ⟨⟨(), hresult⟩, rfl⟩]; exact ih _

/-- A store in memory does what the change comes to. -/
theorem contents_apply (m : Memory) (features : Features) (c : FileChange) :
    (c.apply features m).contents = c.effect features m.get? := by
  rw [FileChange.apply, FileChange.effect]
  cases c.task with
  | error defect => rfl
  | ok task =>
    simp only [← contents_runAll, Outcome.contents]
    cases (Stage.runAll m (task.stages features)).result <;> rfl

/-- Changes can be made one after another when they come to something, and that is what the store
has then. -/
theorem exists_steps_iff {m : Memory} {features : Features} {changes : List FileChange}
    {g : Contents} :
    (∃ paths m', Steps features changes m paths m' ∧ m'.get? = g) ↔
      FileChange.effectAll features m.get? changes = .ok g := by
  induction changes generalizing m with
  | nil =>
    constructor
    · rintro ⟨_, _, hsteps, rfl⟩
      cases hsteps
      rfl
    · intro h
      exact ⟨[], m, .nil m, Except.ok.inj h⟩
  | cons c changes ih =>
    rw [FileChange.effectAll_cons_eq_ok_iff]
    simp only [← contents_apply, Outcome.contents_eq_ok_iff]
    constructor
    · rintro ⟨_, m', hsteps, hg⟩
      cases hsteps with
      | @cons _ _ _ _ path paths hc hrest =>
        exact ⟨_, ⟨⟨path, hc⟩, rfl⟩, ih.1 ⟨paths, m', hrest, hg⟩⟩
    · rintro ⟨_, ⟨⟨path, hc⟩, rfl⟩, hrest⟩
      obtain ⟨paths, m', hsteps, hg⟩ := ih.2 hrest
      exact ⟨path :: paths, m', .cons hc hsteps, hg⟩

end Memory

/-- A run that nothing interrupts comes out well when its changes come to something, and that is
what the store has then. -/
theorem Document.contents_apply_eq_ok_iff {features : Features} {stop : Nat → Bool} {d : Document}
    {m : Memory} (hstop : ∀ i < d.changes.length, stop i = false) {g : Contents} :
    (d.apply features stop m).contents = .ok g ↔
      FileChange.effectAll features m.get? d.changes = .ok g := by
  rw [Outcome.contents_eq_ok_iff, ← Memory.exists_steps_iff]
  constructor
  · rintro ⟨⟨touched, hok⟩, hg⟩
    obtain ⟨-, -, paths, -, hsteps⟩ := steps_of_apply hok
    exact ⟨paths, _, hsteps, hg⟩
  · rintro ⟨paths, m', hsteps, hg⟩
    have hcheck : d.check = .ok () := check_eq_ok_iff.2
      (FileChange.exists_task_of_effectAll (Memory.exists_steps_iff.1 ⟨paths, m', hsteps, hg⟩))
    obtain ⟨hresult, hstore⟩ := apply_of_steps hcheck hstop hsteps
    exact ⟨⟨_, hresult⟩, hstore ▸ hg⟩

end Patchwork
