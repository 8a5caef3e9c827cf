import Patchwork.Proofs.Apply.Touched
import Patchwork.Proofs.Store.Watched

/-!
# No way out of a directory

A path that could lead out of a directory (`Path.Escapes`) is refused by whatever it is given to,
and a refused edit makes no call. A stage that comes out well has found a file at each of its paths,
or has edited it, so none of the paths of a run that comes out well leads out
(`Document.keepsWithin_of_apply`). However a run comes out, what stood outside of the directory is
there all the time, and nothing else is when the run has ended.

There is one thing more that lies outside for a time: the draft of an edit that writes at a path
without names, such as `.`. Such a path is not refused, and the draft goes where its parent leads.
Main statements: `Directory.confined_but_for_drafts`, and `Directory.exists_draft_outside` for a run
that makes a file outside. Specification: `FsWorkTree` in section 6, its drafts in section 5.
-/

namespace Patchwork

namespace Path

/-- A path that could lead out of the directory that it starts from: an empty one, one that starts
from a root, or one that goes up anywhere. -/
def Escapes (p : Path) : Prop := p.spelling = "" ∨ p.isAbsolute = true ∨ .parent ∈ p.components

instance (p : Path) : Decidable p.Escapes := inferInstanceAs (Decidable (_ ∨ _))

private theorem root_notMem_filterMap (segments : List (List Char)) :
    Component.root ∉ segments.filterMap Component.ofSegment? := by
  intro hmem
  obtain ⟨segment, -, hsegment⟩ := List.mem_filterMap.1 hmem
  rw [Component.ofSegment?.eq_def] at hsegment
  split at hsegment <;> cases hsegment

/-- A root is a component only at the start of a path. -/
theorem root_mem_components_iff {p : Path} : .root ∈ p.components ↔ p.isAbsolute = true := by
  rw [components, isAbsolute, decide_eq_true_eq]
  generalize p.spelling.toList = spelling
  rw [componentsOf.eq_def]
  split
  · simp
  · next hroot =>
    have hhead : spelling.head? ≠ some '/' := by
      intro hhead
      obtain ⟨rest, rfl⟩ := List.head?_eq_some_iff.1 hhead
      exact hroot rest rfl
    refine iff_of_false (fun hmem ↦ ?_) hhead
    split at hmem
    · exact root_notMem_filterMap _ ((List.mem_cons.1 hmem).resolve_left Component.noConfusion)
    · exact root_notMem_filterMap _ hmem

/-- What is refused is what could lead out. -/
theorem staysBelow_iff {p : Path} : p.staysBelow = true ↔ ¬ p.Escapes := by
  rw [Escapes, ← root_mem_components_iff, staysBelow, Bool.and_eq_true, Bool.not_eq_true',
    List.all_eq_true, not_or, not_or, ← String.isEmpty_iff, Bool.not_eq_true]
  refine and_congr_right fun _ ↦ ⟨fun h ↦ ?_, fun ⟨hroot, hparent⟩ component hmem ↦ ?_⟩
  · exact ⟨fun hroot ↦ Bool.false_ne_true (h .root hroot),
      fun hparent ↦ Bool.false_ne_true (h .parent hparent)⟩
  · cases component with
    | root => exact absurd hmem hroot
    | parent => exact absurd hmem hparent
    | current | name text => rfl

theorem staysBelow_eq_false_iff {p : Path} : p.staysBelow = false ↔ p.Escapes := by
  rw [← Bool.not_eq_true, staysBelow_iff, Classical.not_not]

end Path

/-- A kind of stores that refuse the paths that could lead out: there is no file at one, and no edit
that names one is made. -/
structure Store.Walled (σ : Type) [Store σ] : Prop where
  holds : ∀ (s : σ) (p : Path), p.Escapes → Store.holds s p = false
  perform : ∀ (s : σ) (e : Edit), (∃ p ∈ e.paths, p.Escapes) → (Store.perform s e).1 ≠ .ok ()

/-- None of the paths that a run has touched could lead out, and none from which it has moved or
copied a file. -/
def Document.KeepsWithin (d : Document) (touched : PathSet) : Prop :=
  (∀ p ∈ touched.paths, ¬ p.Escapes) ∧
    ∀ c ∈ d.changes, c.kind = .rename ∨ c.kind = .copy → ∀ p ∈ c.oldPath, ¬ p.Escapes

section Success

variable {σ : Type} [Store σ] {features : Features} {stop : Nat → Bool} {s : σ}

/-- Stages that come out well have done so one by one. -/
theorem Stage.exists_run_of_runAll {stages : List Stage} (h : (runAll s stages).result = .ok ()) :
    ∀ stage ∈ stages, ∃ s' : σ, (stage.run s').result = .ok () := by
  induction stages generalizing s with
  | nil => exact fun stage hstage ↦ absurd hstage List.not_mem_nil
  | cons first stages ih =>
    rw [runAll] at h
    cases hfirst : (first.run s).result with
    | error f => simp [hfirst] at h
    | ok =>
      simp only [hfirst] at h
      exact List.forall_mem_cons.2 ⟨⟨s, hfirst⟩, ih h⟩

/-- The stages of changes that are made come out well. -/
theorem Steps.exists_run {changes : List FileChange} {s' : σ} {paths : List Path}
    (h : Steps features changes s paths s') :
    ∀ c ∈ changes, ∀ stage ∈ c.stages features, ∃ s : σ, (stage.run s).result = .ok () := by
  induction h with
  | nil => exact fun c hc ↦ absurd hc List.not_mem_nil
  | @cons c changes s s' path paths hc hrest ih =>
    refine List.forall_mem_cons.2 ⟨?_, ih⟩
    rw [FileChange.stages]
    cases htask : c.task with
    | error defect => exact fun stage hstage ↦ absurd hstage List.not_mem_nil
    | ok task =>
      refine Stage.exists_run_of_runAll (s := s) ?_
      rw [FileChange.apply, htask] at hc
      cases hresult : (Stage.runAll s (task.stages features)).result with
      | error f => simp [hresult, Except.map] at hc
      | ok => rfl

/-- The stages of a run that comes out well do so. -/
theorem Document.exists_run_of_apply {d : Document} {touched : PathSet}
    (h : (d.apply features stop s).result = .ok touched) :
    ∀ stage ∈ d.stages features, ∃ s' : σ, (stage.run s').result = .ok () := by
  obtain ⟨-, -, paths, -, hsteps⟩ := steps_of_apply h
  intro stage hstage
  obtain ⟨c, hc, hstage⟩ := List.mem_flatMap.1 hstage
  exact hsteps.exists_run c hc stage hstage

/-- A run that comes out well looks at the path from which it moves or copies a file. -/
theorem Document.mem_paths_of_source {d : Document} (hcheck : d.check = .ok ()) {c : FileChange}
    (hc : c ∈ d.changes) (hkind : c.kind = .rename ∨ c.kind = .copy) {p : Path}
    (hp : c.oldPath = some p) : p ∈ d.paths features := by
  obtain ⟨task, htask⟩ := check_eq_ok_iff.1 hcheck c hc
  have hstages : c.stages features = task.stages features := by rw [FileChange.stages, htask]
  have hmem : p ∈ (task.stages features).flatMap Stage.paths := by
    obtain ⟨hasks, -⟩ := FileChange.task_eq_ok_iff.1 htask
    cases task with
    | add path hunks | modify path hunks | delete path =>
      simp [hasks.1] at hkind
    | rename source target hunks | copy source target hunks =>
      obtain rfl : source = p := Option.some.inj (hasks.2.1.symm.trans hp)
      simp [Task.stages, Stage.paths]
  rw [Document.paths, Document.stages, List.flatMap_assoc, List.mem_flatMap]
  exact ⟨c, hc, hstages ▸ hmem⟩

/-- A stage that comes out well has none of its paths lead out. -/
theorem Stage.not_escapes_of_run (hσ : Store.Walled σ) {stage : Stage}
    (h : (stage.run s).result = .ok ()) : ∀ p ∈ stage.paths, ¬ p.Escapes := by
  intro p hp hescapes
  change (Stage.carryOut s (stage.decide s)).1 = _ at h
  cases hdecision : stage.decide s with
  | error f =>
    rw [hdecision] at h
    cases h
  | ok edit? =>
    obtain hholds | ⟨e, rfl, hmem⟩ := Stage.holds_or_mem_paths_of_decide hdecision hp
    · rw [hσ.holds s p hescapes] at hholds
      cases hholds
    · have hperform := hσ.perform s e ⟨p, hmem, hescapes⟩
      rw [hdecision, Stage.carryOut_some] at h
      cases hresult : (Store.perform s e).1 with
      | ok => exact hperform hresult
      | error error =>
        rw [hresult] at h
        cases h

/-- A run that comes out well. -/
theorem Document.keepsWithin_of_apply (hσ : Store.Walled σ) {d : Document} {touched : PathSet}
    (h : (d.apply features stop s).result = .ok touched) : d.KeepsWithin touched := by
  have hpaths : ∀ p ∈ d.paths features, ¬ p.Escapes := by
    intro p hp
    obtain ⟨stage, hstage, hp⟩ := List.mem_flatMap.1 hp
    obtain ⟨s', hrun⟩ := exists_run_of_apply h stage hstage
    exact Stage.not_escapes_of_run hσ hrun p hp
  refine ⟨fun p hp ↦ hpaths p (mem_paths_of_touched h hp), fun c hc hkind p hp ↦ ?_⟩
  exact hpaths p (mem_paths_of_source (steps_of_apply h).1 hc hkind hp)

end Success

namespace Directory

variable {d : Directory} {p : Path} {e : Edit}

section Refusal

theorem not_holds_of_escapes (d : Directory) (hp : p.Escapes) : Store.holds d p = false := by
  change d.holds p = false
  rw [holds, location?_eq, Path.staysBelow_eq_false_iff.2 hp]
  rfl

theorem read_of_escapes (d : Directory) (hp : p.Escapes) :
    Store.read d p = .error ⟨.outsideRoot, p⟩ := by
  change d.read p = _
  rw [read, location?_eq, Path.staysBelow_eq_false_iff.2 hp]
  rfl

/-- An edit is refused before its first call, for the first of its paths that leads out. -/
theorem plan_of_escapes (d : Directory) (h : ∃ p ∈ e.paths, p.Escapes) :
    ∃ p ∈ e.paths, p.Escapes ∧
      ∀ system : System, d.plan system e = .error ⟨.outsideRoot, p⟩ := by
  obtain ⟨p, hp, hescapes⟩ := h
  have hbelow := Path.staysBelow_eq_false_iff.2 hescapes
  cases e with
  | write q content | create q | delete q =>
    obtain rfl := List.mem_singleton.1 hp
    refine ⟨p, hp, hescapes, fun system ↦ ?_⟩
    simp only [plan, location?_eq, hbelow, Bool.false_eq_true, if_false]
  | rename source target =>
    change ∃ p ∈ [source, target], p.Escapes ∧ _
    cases hsource : source.staysBelow with
    | false =>
      refine ⟨source, List.mem_cons_self, Path.staysBelow_eq_false_iff.1 hsource, fun system ↦ ?_⟩
      simp only [plan, location?_eq, hsource, Bool.false_eq_true, if_false]
    | true =>
      have htarget : p = target := by
        obtain rfl | htarget := List.mem_cons.1 hp
        · exact absurd hescapes (Path.staysBelow_iff.1 hsource)
        · exact List.mem_singleton.1 htarget
      subst htarget
      refine ⟨p, List.mem_cons_of_mem _ List.mem_cons_self, hescapes, fun system ↦ ?_⟩
      simp only [plan, location?_eq, hsource, hbelow, if_true, Bool.false_eq_true, if_false]

/-- A refused edit does nothing, as a whole or call by call. -/
theorem perform_of_escapes (d : Directory) (h : ∃ p ∈ e.paths, p.Escapes) :
    ∃ p ∈ e.paths, p.Escapes ∧ Store.perform d e = (.error ⟨.outsideRoot, p⟩, d) ∧
      ∀ system : System,
        d.attempt system e = (.error ⟨.outsideRoot, p⟩, d) ∧ d.passed system e = [] := by
  obtain ⟨p, hp, hescapes, hplan⟩ := d.plan_of_escapes h
  have hattempt (system : System) : d.attempt system e = (.error ⟨.outsideRoot, p⟩, d) := by
    rw [attempt, hplan system]
  obtain ⟨system, hcalm⟩ := System.exists_calm d e
  refine ⟨p, hp, hescapes, (attempt_eq_perform hcalm).symm.trans (hattempt system), ?_⟩
  refine fun system ↦ ⟨hattempt system, ?_⟩
  rw [passed, hplan system]

end Refusal

end Directory

theorem Watched.walled : Store.Walled Watched where
  holds w _ hp := w.dir.not_holds_of_escapes hp
  perform w e he hok := by
    obtain ⟨p, -, -, -, hattempt⟩ := w.dir.perform_of_escapes he
    have hok : (w.dir.attempt (w.system e) e).1 = .ok () := hok
    rw [(hattempt (w.system e)).1] at hok
    cases hok

namespace Directory

/-- How a run of a document that is made call by call keeps to the directory on which it starts. -/
structure RunsWithin (d : Directory) (doc : Document) (run : Outcome ApplyError PathSet Watched) :
    Prop where
  paths : ∀ touched, run.result = .ok touched → doc.KeepsWithin touched
  /-- When the run has ended, nothing outside is different. -/
  confined : d.Confined run.store.dir
  affected : ∀ a ∈ run.store.attempts, ∃ c ∈ doc.changes, a.edit.paths ⊆ c.affected
  /-- What stands outside is there at any time. -/
  stands : ∀ disk ∈ run.store.passed, ∀ place, ¬ d.root <+: place → ∀ entry,
    d.disk.get? place = some entry → disk.get? place = some entry
  /-- For a time something more is there exactly when a draft comes to lie outside. -/
  drafts : (∃ disk ∈ run.store.passed, ∃ place, ¬ d.root <+: place ∧
      disk.get? place ≠ d.disk.get? place) ↔
    ∃ a ∈ run.store.attempts, a.start.DraftsOutside a.system a.edit
  /-- Where all paths have names, nothing is. -/
  named : (∀ c ∈ doc.changes, ∀ p ∈ c.affected, p.names ≠ []) →
    ∀ disk ∈ run.store.passed, ∀ place, ¬ d.root <+: place →
      disk.get? place = d.disk.get? place

theorem runsWithin (features : Features) (stop : Nat → Bool) (doc : Document)
    (platform : Nat → Directory → Edit → System) (d : Directory) :
    d.RunsWithin doc (doc.apply features stop (Watched.start platform d)) := by
  have hgoes := Watched.goes_apply features stop doc (Watched.start platform d)
  have hstart := fun a ha ↦ (hgoes.forall_of_start a ha).1
  have haffected := fun a ha ↦ (hgoes.forall_of_start a ha).2
  have hdrafts := Watched.passed_outside_iff hstart
  refine ⟨fun touched h ↦ Document.keepsWithin_of_apply Watched.walled h, hgoes.confined, haffected,
    fun disk hdisk place hplace _ ↦ Watched.get?_of_mem_passed hstart hdisk hplace, hdrafts, ?_⟩
  intro hnamed disk hdisk place hplace
  by_contra hne
  obtain ⟨a, ha, hwrites, -⟩ := hdrafts.1 ⟨disk, hdisk, place, hplace, hne⟩
  obtain ⟨p, hp, hnames⟩ := hwrites.exists_mem_paths
  obtain ⟨c, hc, hsubset⟩ := haffected a ha
  exact hnamed c hc p (hsubset hp) hnames

/-- No path leads out of a directory. One that could is refused by whatever it is given to: there is
no file at it, it cannot be read, and an edit that names it makes no call. So a run that comes out
well touches no such path, and moves or copies no file from one. However a run comes out, and
whatever calls the system refuses in it, what is on the disk outside of the directory is the same
before and after it. What stands there is there all the time, and a draft may lie there too for a
time; it is told exactly when one does. -/
theorem confined_but_for_drafts (d : Directory) :
    (∀ p : Path, p.Escapes →
      Store.holds d p = false ∧ Store.read d p = .error ⟨.outsideRoot, p⟩) ∧
    (∀ e : Edit, (∃ p ∈ e.paths, p.Escapes) →
      ∃ p ∈ e.paths, p.Escapes ∧ Store.perform d e = (.error ⟨.outsideRoot, p⟩, d) ∧
        ∀ system : System,
          d.attempt system e = (.error ⟨.outsideRoot, p⟩, d) ∧ d.passed system e = []) ∧
    (∃ platform, (Watched.start platform d).IsCalm) ∧
    ∀ (features : Features) (stop : Nat → Bool) (doc : Document),
      (∀ touched, (doc.apply features stop d).result = .ok touched → doc.KeepsWithin touched) ∧
      d.Confined (doc.apply features stop d).store ∧
      ∀ platform,
        d.RunsWithin doc (doc.apply features stop (Watched.start platform d)) ∧
        ((Watched.start platform d).IsCalm →
          (doc.apply features stop (Watched.start platform d)).result =
            (doc.apply features stop d).result ∧
          (doc.apply features stop (Watched.start platform d)).store.dir =
            (doc.apply features stop d).store) := by
  obtain ⟨calm, hcalm⟩ := Watched.exists_isCalm_start d
  refine ⟨fun p hp ↦ ⟨d.not_holds_of_escapes hp, d.read_of_escapes hp⟩,
    fun e he ↦ d.perform_of_escapes he, ⟨calm, hcalm⟩, fun features stop doc ↦ ?_⟩
  have hagrees : ∀ platform, (Watched.start platform d).IsCalm →
      (doc.apply features stop (Watched.start platform d)).result =
          (doc.apply features stop d).result ∧
        (doc.apply features stop (Watched.start platform d)).store.dir =
          (doc.apply features stop d).store := by
    intro platform hcalm
    have hagrees := Watched.simulation.apply ⟨hcalm, rfl⟩ features stop doc
    exact ⟨hagrees.result, hagrees.store.2⟩
  have hrun := runsWithin features stop doc calm d
  obtain ⟨hresult, hstore⟩ := hagrees calm hcalm
  refine ⟨fun touched h ↦ hrun.paths touched (hresult.trans h), hstore ▸ hrun.confined, ?_⟩
  exact fun platform ↦ ⟨runsWithin features stop doc platform d, hagrees platform⟩

section Instance

/-- A directory with a file, and a file beside it. -/
def boxed : Directory :=
  ⟨((Disk.empty.put ["w"] .directory).put ["w", "a"] (.file "x\n".toUTF8)).put ["b"]
    (.file "y\n".toUTF8), ["w"], ⟨"w"⟩, ⟨"/"⟩⟩

/-- A document that stays in the directory. -/
def within : Document := ⟨[⟨.copy, some ⟨"a"⟩, some ⟨"d/c"⟩, []⟩]⟩

/-- A document that goes out of it when it has made a file there. -/
def goesOut : Document :=
  ⟨[⟨.add, none, some ⟨"e"⟩, []⟩, ⟨.add, none, some ⟨"../b"⟩, [⟨1, 1, [.add "z"]⟩]⟩]⟩

/-- A document that names the directory itself as the place for a file. -/
def overRoot : Document := ⟨[⟨.add, none, some ⟨"."⟩, [⟨1, 1, [.add "x"]⟩]⟩]⟩

theorem confined_but_for_drafts_boxed :
    Path.Escapes ⟨"../b"⟩ ∧ Store.holds boxed ⟨"../b"⟩ = false ∧
      Store.perform boxed (.rename ⟨"a"⟩ ⟨"../b"⟩) = (.error ⟨.outsideRoot, ⟨"../b"⟩⟩, boxed) ∧
      (within.apply .none Document.never boxed).result = .ok (.ofPaths [⟨"d/c"⟩]) ∧
      within.KeepsWithin (.ofPaths [⟨"d/c"⟩]) ∧
      (goesOut.apply .none Document.never boxed).result =
        .error ⟨1, ⟨.add, none, some ⟨"../b"⟩, [⟨1, 1, [.add "z"]⟩]⟩,
          .store ⟨.outsideRoot, ⟨"../b"⟩⟩⟩ ∧
      boxed.Confined (goesOut.apply .none Document.never boxed).store ∧
      -- The system refuses the call that fills the draft.
      boxed.RunsWithin overRoot (overRoot.apply .none Document.never
        (Watched.start (fun _ _ _ ↦ obliging (some 2)) boxed)) := by
  obtain ⟨hqueries, hedits, -, hruns⟩ := confined_but_for_drafts boxed
  have hescapes : Path.Escapes ⟨"../b"⟩ := by decide
  have hok : (within.apply .none Document.never boxed).result = .ok (.ofPaths [⟨"d/c"⟩]) := rfl
  refine ⟨hescapes, (hqueries _ hescapes).1, ?_, hok, (hruns _ _ within).1 _ hok, rfl,
    (hruns _ _ goesOut).2.1, ((hruns _ _ overRoot).2.2 _).1⟩
  obtain ⟨p, hp, hout, hperform, -⟩ := hedits (.rename ⟨"a"⟩ ⟨"../b"⟩)
    ⟨⟨"../b"⟩, List.mem_cons_of_mem _ List.mem_cons_self, hescapes⟩
  obtain rfl | hp := List.mem_cons.1 hp
  · exact absurd hout (by decide)
  · rw [List.mem_singleton.1 hp] at hperform
    exact hperform

/-- A run that puts a file beside the directory, where nothing stood, and takes it away again. The
system refuses no call. -/
theorem exists_draft_outside :
    let run := overRoot.apply .none Document.never
      (Watched.start (fun _ _ _ ↦ obliging none) boxed)
    run.store.attempts.map Attempt.edit = [.write ⟨"."⟩ "x\n".toUTF8] ∧
      (obliging none).Calm boxed (.write ⟨"."⟩ "x\n".toUTF8) ∧
      run.result = .error ⟨0, ⟨.add, none, some ⟨"."⟩, [⟨1, 1, [.add "x"]⟩]⟩,
        .store ⟨.io, ⟨"."⟩⟩⟩ ∧
      ¬ boxed.root <+: ["draft"] ∧ boxed.disk.get? ["draft"] = none ∧
      run.store.passed.map (·.get? ["draft"]) =
        [none, some (.file .empty), some (.file "x".toUTF8), some (.file "x\n".toUTF8),
          some (.file "x\n".toUTF8), some (.file "x\n".toUTF8), none] ∧
      run.store.dir.disk.get? ["draft"] = none := by
  intro run
  exact ⟨rfl, ⟨fun _ ↦ rfl, by decide, by decide⟩, rfl, by decide, rfl, rfl, rfl⟩

end Instance

end Directory

end Patchwork
