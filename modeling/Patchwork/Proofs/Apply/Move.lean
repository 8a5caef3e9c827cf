import Patchwork.Proofs.Apply.Effect
import Patchwork.Proofs.Apply.Failure
import Patchwork.Proofs.Change.Task

/-!
# Moves that come with hunks

Where hunks that come with a move or a copy are applied, they are applied when the file is at its
new place. So such a change leaves no trace when it fails before that, and when its hunks are at
fault it leaves the file where the change would have put it (`Document.move_leaves_no_trace_iff`).
-/

namespace Patchwork

/-- Whether the fault was found in the content of a file. -/
def Fault.isOfContent : Fault → Bool
  | .hunk .. | .notText _ => true
  | _ => false

namespace Stage

variable {f : Contents} {source target : Path} {hunks : List Hunk} {fault : Fault}

/-- Hunks that cannot be applied to a file are at odds with its content. -/
theorem isOfContent_of_revise_eq_error {content : ByteArray}
    (h : revise content hunks = .error fault) : fault.isOfContent = true := by
  rw [revise] at h
  cases hlines : LineSet.ofBytes content with
  | error offset =>
    rw [hlines] at h
    cases h
    rfl
  | ok old =>
    simp only [hlines, patchLines] at h
    cases hpatch : old.patchAll 0 hunks with
    | ok new =>
      rw [hpatch] at h
      cases h
    | error e =>
      rw [hpatch] at h
      cases h
      rfl

/-- A stage that puts the file at one path in another place, and may leave it where it was. -/
structure Brings (source target : Path) (stays : Bool) (stage : Stage) : Prop where
  refuses : ∀ (f : Contents) (fault : Fault), stage.effect f = .error fault →
    fault.isOfContent = false
  makes : ∀ f g : Contents, stage.effect f = .ok g → ∃ content, f source = some content ∧
    f target = none ∧ g target = some content ∧ g source = if stays then some content else none

private theorem brings_move (hne : ¬ source.Same target) :
    Brings source target false (move source target) where
  refuses f fault h := by
    rw [effect] at h
    cases hsource : f source <;> cases htarget : f target <;> rw [hsource, htarget] at h <;>
      cases h <;> rfl
  makes f g h := by
    obtain ⟨content, hsource, htarget, rfl⟩ := effect_move_eq_ok_iff.1 h
    refine ⟨content, hsource, htarget, ?_, Contents.set_self ..⟩
    rw [Contents.set_of_not_same _ hne, Contents.set_self]

private theorem brings_duplicate (hne : ¬ source.Same target) :
    Brings source target true (duplicate source target) where
  refuses f fault h := by
    rw [effect] at h
    cases hsource : f source <;> cases htarget : f target <;> rw [hsource, htarget] at h <;>
      cases h <;> rfl
  makes f g h := by
    obtain ⟨content, hsource, htarget, rfl⟩ := effect_duplicate_eq_ok_iff.1 h
    refine ⟨content, hsource, htarget, Contents.set_self .., ?_⟩
    rw [Contents.set_of_not_same _ fun h ↦ hne h.symm, hsource]
    rfl

/-- Hunks that come with a move take one stage at most. -/
private theorem followUp_cases (enabled : Bool) (path : Path) (hunks : List Hunk) :
    Task.followUp enabled path hunks = [] ∨ Task.followUp enabled path hunks = [edit path hunks] ∨
      Task.followUp enabled path hunks = [ignore path hunks] := by
  cases enabled <;> cases hunks <;> simp [Task.followUp]

/-- Where a move fails: at the move itself, or at the hunks that come with it. -/
private theorem FailsAt.of_followUp {m : Memory} {first stage : Stage} {front : List Stage}
    {enabled : Bool}
    (h : FailsAt m fault (first :: Task.followUp enabled target hunks) front stage) :
    (front = [] ∧ stage = first) ∨ (front = [first] ∧ stage = edit target hunks) := by
  obtain ⟨back, hamong⟩ := h.among
  cases front with
  | nil => exact .inl ⟨rfl, (List.cons.inj hamong).1.symm⟩
  | cons other front =>
    rw [List.cons_append, List.cons.injEq] at hamong
    obtain ⟨rfl, hrest⟩ := hamong
    obtain hnone | hedit | hignore := followUp_cases enabled target hunks
    · rw [hnone] at hrest
      exact absurd hrest.symm (by simp)
    · rw [hedit, List.singleton_eq_append_iff] at hrest
      obtain ⟨rfl, hstage⟩ | ⟨-, hstage⟩ := hrest <;> cases hstage
      exact .inr ⟨rfl, rfl⟩
    · rw [hignore, List.singleton_eq_append_iff] at hrest
      obtain ⟨rfl, hstage⟩ | ⟨-, hstage⟩ := hrest <;> cases hstage
      -- Hunks that are left aside never fail.
      cases h.fails

end Stage

namespace FileChange

variable {features : Features} {c : FileChange} {source target : Path} {hunks : List Hunk}
  {m : Memory} {fault : Fault}

/-- What a move or a copy comes to when its hunks are left aside: the file is at its new place with
the content that it had. -/
structure HalfMade (features : Features) (c : FileChange) (source target : Path)
    (before after : Memory) : Prop where
  bare : after = (FileChange.apply features { c with hunks := [] } before).store
  free : before.get? target = none
  brought : ∃ content, before.get? source = some content ∧ after.get? target = some content ∧
    after.get? source = if c.kind = .copy then some content else none

theorem HalfMade.ne {before after : Memory} (h : c.HalfMade features source target before after) :
    after ≠ before := by
  rintro rfl
  obtain ⟨content, -, htarget, -⟩ := h.brought
  rw [h.free] at htarget
  cases htarget

private theorem halfMade_of_stages {first : Stage} {enabled : Bool} {task bare : Task}
    (hbrings : first.Brings source target (c.kind = .copy)) (htask : c.task = .ok task)
    (hstages : task.stages features = first :: Task.followUp enabled target hunks)
    (hbare : FileChange.task { c with hunks := [] } = .ok bare)
    (honly : bare.stages features = [first])
    (h : (c.apply features m).result = .error fault) :
    (fault.isOfContent = false ∧ (c.apply features m).store = m) ∨
      (fault.isOfContent = true ∧
        c.HalfMade features source target m (c.apply features m).store) := by
  obtain ⟨front, stage, hfails, hstore⟩ := failsAt_of_apply Memory.atomic htask h
  have heffect := Outcome.contents_eq_error_iff.2 hfails.fails
  rw [Memory.contents_run] at heffect
  rw [hstages] at hfails
  obtain ⟨rfl, rfl⟩ | ⟨rfl, rfl⟩ := hfails.of_followUp
  · exact .inl ⟨hbrings.refuses _ _ heffect, hstore⟩
  · right
    have hmade := Outcome.contents_eq_ok_iff.2 ⟨⟨(), hfails.before⟩, rfl⟩
    rw [Memory.contents_runAll, Stage.effectAll_singleton] at hmade
    obtain ⟨content, hsource, htarget, hbrought, hleft⟩ := hbrings.makes _ _ hmade
    rw [← hstore] at hbrought hleft heffect
    refine ⟨?_, ?_, htarget, content, hsource, hbrought, by simpa using hleft⟩
    · simp only [Stage.effect, hbrought] at heffect
      cases hrevise : Stage.revise content hunks with
      | ok new =>
        rw [hrevise] at heffect
        cases heffect
      | error fault' =>
        rw [hrevise] at heffect
        cases heffect
        exact Stage.isOfContent_of_revise_eq_error hrevise
    · rw [hstore]
      simp only [apply, hbare, honly]

/-- A move or a copy that fails leaves no trace, or leaves its file where it would have put it, and
that tells if its hunks were at odds with the content. -/
theorem halfMade_of_apply
    (htask : c.task = .ok (.rename source target hunks) ∨ c.task = .ok (.copy source target hunks))
    (h : (c.apply features m).result = .error fault) :
    (fault.isOfContent = false ∧ (c.apply features m).store = m) ∨
      (fault.isOfContent = true ∧
        c.HalfMade features source target m (c.apply features m).store) := by
  obtain htask | htask := htask
  · obtain ⟨⟨hkind, hold, hnew, -, hne⟩, -⟩ := task_eq_ok_iff.1 htask
    have hbare : FileChange.task { c with hunks := [] } = .ok (.rename source target []) :=
      task_eq_ok_iff.2 ⟨⟨hkind, hold, hnew, rfl, hne⟩, by simp⟩
    exact halfMade_of_stages (by simpa [hkind] using Stage.brings_move hne) htask rfl hbare rfl h
  · obtain ⟨⟨hkind, hold, hnew, -, hne⟩, -⟩ := task_eq_ok_iff.1 htask
    have hbare : FileChange.task { c with hunks := [] } = .ok (.copy source target []) :=
      task_eq_ok_iff.2 ⟨⟨hkind, hold, hnew, rfl, hne⟩, by simp⟩
    exact halfMade_of_stages (by simpa [hkind] using Stage.brings_duplicate hne) htask rfl hbare
      rfl h

end FileChange

namespace Document

variable {features : Features} {stop : Nat → Bool} {d : Document} {m : Memory} {e : ApplyError}
  {source target : Path} {hunks : List Hunk}

/-- A run that fails at a move or a copy leaves no trace of it exactly when the fault was not found
in the content of the file. Otherwise it leaves the file at its new place, with the content that it
had, and the old place empty after a move. -/
theorem move_leaves_no_trace_iff (hcheck : d.check = .ok ())
    (hfail : (d.apply features stop m).result = .error e)
    (htask : e.change.task = .ok (.rename source target hunks) ∨
      e.change.task = .ok (.copy source target hunks)) :
    let before := (d.upTo e.index).apply features stop m
    let after := (d.apply features stop m).store
    d.changes[e.index]? = some e.change ∧ (∃ touched, before.result = .ok touched) ∧
      (after = before.store ↔ e.fault.isOfContent = false) ∧
        (e.fault.isOfContent = true →
          e.change.HalfMade features source target before.store after) := by
  obtain ⟨hchange, hbefore, hhalts⟩ := failsAt_of_apply hcheck hfail
  refine ⟨hchange, hbefore, ?_⟩
  generalize (d.apply features stop m).store = after at hhalts ⊢
  generalize ((d.upTo e.index).apply features stop m).store = before at hhalts ⊢
  cases hhalts with
  | interrupted => simp [Fault.isOfContent]
  | fails _ hc =>
    obtain ⟨hfault, hstore⟩ | ⟨hfault, hhalf⟩ := FileChange.halfMade_of_apply htask hc
    · simp [hfault, hstore]
    · simp [hfault, hhalf, hhalf.ne]

section Instance

/-- A move or a copy with a hunk that expects another line than the one there is. -/
def misfit (kind : ChangeKind) : FileChange :=
  ⟨kind, some ⟨"a"⟩, some ⟨"b"⟩, [⟨1, 1, [.remove "y", .add "z"]⟩]⟩

/-- The only change is refused after its file has been moved or copied. -/
private theorem result_misfit :
    ((mk [misfit .rename]).apply ⟨true, true⟩ never oneLine).result =
        .error ⟨0, misfit .rename, .hunk 0 (.mismatch 1 (.remove "y") "x")⟩ ∧
      ((mk [misfit .copy]).apply ⟨true, true⟩ never oneLine).result =
        .error ⟨0, misfit .copy, .hunk 0 (.mismatch 1 (.remove "y") "x")⟩ := ⟨rfl, rfl⟩

theorem move_leaves_no_trace_iff_misfit :
    let applied := (mk [misfit .rename]).apply ⟨true, true⟩ never oneLine
    let fault : Fault := .hunk 0 (.mismatch 1 (.remove "y") "x")
    (mk [misfit .rename]).check = .ok () ∧ applied.result = .error ⟨0, misfit .rename, fault⟩ ∧
      (applied.store = oneLine ↔ fault.isOfContent = false) ∧
        (misfit .rename).HalfMade ⟨true, true⟩ ⟨"a"⟩ ⟨"b"⟩ oneLine applied.store := by
  have hcheck : (mk [misfit .rename]).check = .ok () := rfl
  obtain ⟨-, -, hiff, hhalf⟩ := move_leaves_no_trace_iff hcheck result_misfit.1 (.inl rfl)
  exact ⟨hcheck, result_misfit.1, hiff, hhalf rfl⟩

/-- A move or a copy that comes with hunks is made as a whole or leaves no trace. -/
def MovesWhole (features : Features) (stop : Nat → Bool) (d : Document) (m : Memory) : Prop :=
  ∀ e source target hunks, d.check = .ok () → (d.apply features stop m).result = .error e →
    (e.change.task = .ok (.rename source target hunks) ∨
      e.change.task = .ok (.copy source target hunks)) → hunks ≠ [] →
    (d.apply features stop m).store = ((d.upTo e.index).apply features stop m).store

/-- A moved file stays moved, and a copy stays, when the hunk that comes with it does not fit. -/
theorem exists_not_movesWhole :
    ¬ (mk [misfit .rename]).MovesWhole ⟨true, true⟩ never oneLine ∧
      ¬ (mk [misfit .copy]).MovesWhole ⟨true, true⟩ never oneLine := by
  constructor
  · intro h
    have hstore := h _ _ _ _ rfl result_misfit.1 (.inl rfl) (by simp [misfit])
    exact absurd (congrArg (Memory.get? · ⟨"b"⟩) hstore) (by decide +kernel)
  · intro h
    have hstore := h _ _ _ _ rfl result_misfit.2 (.inr rfl) (by simp [misfit])
    exact absurd (congrArg (Memory.get? · ⟨"b"⟩) hstore) (by decide +kernel)

end Instance

end Document

end Patchwork
