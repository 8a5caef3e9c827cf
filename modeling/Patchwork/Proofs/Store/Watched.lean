import Patchwork.Proofs.Apply.Frame
import Patchwork.Proofs.Store.Passage
import Patchwork.Proofs.Store.Simulation

/-!
# Runs call by call

A directory on which each edit is made call by call, with an account of the edits that were tried.
What the system does of its own accord may differ from edit to edit. Where it is nothing, a run goes
as it does on the directory alone (`Watched.simulation`). However it goes, nothing outside of the
directory is different whenever an edit starts or has ended (`Watched.goes_apply`). What the run
passes through is what its edits pass through, so it is their drafts that may lie outside
(`Watched.passed_outside_iff`).
-/

namespace Patchwork

/-- An edit that was tried, with the directory on which it started and the system at the time. -/
structure Attempt where
  start : Directory
  system : System
  edit : Edit

/-- A directory on which edits are made call by call, and those that were tried so far. The platform
gives the system for an edit, by the number of edits before it and by where it starts. Questions
change nothing, and are answered as by the directory. -/
structure Watched where
  dir : Directory
  platform : Nat → Directory → Edit → System
  attempts : List Attempt

namespace Watched

/-- A directory on which no edit was tried. -/
def start (platform : Nat → Directory → Edit → System) (d : Directory) : Watched :=
  ⟨d, platform, []⟩

/-- The system for the next edit. -/
def system (w : Watched) (e : Edit) : System := w.platform w.attempts.length w.dir e

/-- The disks passed through so far, one behind each call. -/
def passed (w : Watched) : List Disk :=
  w.attempts.flatMap fun a ↦ a.start.passed a.system a.edit

instance : Store Watched where
  holds w := w.dir.holds
  read w := w.dir.read
  perform w e :=
    let made := w.dir.attempt (w.system e) e
    (made.1, ⟨made.2, w.platform, w.attempts ++ [⟨w.dir, w.system e, e⟩]⟩)

/-- The system refuses nothing of its own accord, whatever the edit is. -/
def IsCalm (w : Watched) : Prop := ∀ number d e, (w.platform number d e).Calm d e

theorem exists_isCalm_start (d : Directory) : ∃ platform, (start platform d).IsCalm := by
  choose system hcalm using System.exists_calm
  exact ⟨fun _ d e ↦ system d e, fun _ d e ↦ hcalm d e⟩

/-- Where the system is calm, edits come to what they come to on the directory alone. -/
theorem simulation : Simulation fun (w : Watched) (d : Directory) ↦ w.IsCalm ∧ w.dir = d where
  agreeAt := by
    rintro w _ ⟨-, rfl⟩ p
    exact ⟨rfl, rfl⟩
  result_perform := by
    rintro w _ ⟨hcalm, rfl⟩ e
    exact congrArg Prod.fst (Directory.attempt_eq_perform (hcalm w.attempts.length w.dir e))
  store_perform := by
    rintro w _ ⟨hcalm, rfl⟩ e
    refine ⟨hcalm, ?_⟩
    exact congrArg Prod.snd (Directory.attempt_eq_perform (hcalm w.attempts.length w.dir e))

/-- What edits of some kind lead to: nothing outside of the directory is different, and it was not
when any of them started. -/
structure Goes (Kind : Edit → Prop) (w w' : Watched) : Prop where
  confined : w.dir.Confined w'.dir
  attempts : ∃ more, w'.attempts = w.attempts ++ more ∧
    ∀ a ∈ more, w.dir.Confined a.start ∧ Kind a.edit

variable {Kind : Edit → Prop} {w w' w'' : Watched} {d : Directory} {e : Edit}

namespace Goes

theorem refl (w : Watched) : Goes Kind w w := by
  refine ⟨.refl w.dir, [], (List.append_nil w.attempts).symm, ?_⟩
  exact fun a ha ↦ absurd ha List.not_mem_nil

theorem trans (h : Goes Kind w w') (h' : Goes Kind w' w'') : Goes Kind w w'' := by
  obtain ⟨more, hmore, hkind⟩ := h.attempts
  obtain ⟨more', hmore', hkind'⟩ := h'.attempts
  refine ⟨h.confined.trans h'.confined, more ++ more', ?_, ?_⟩
  · rw [hmore', hmore, List.append_assoc]
  · refine List.forall_mem_append.2 ⟨hkind, fun a ha ↦ ?_⟩
    obtain ⟨hstart, hedit⟩ := hkind' a ha
    exact ⟨h.confined.trans hstart, hedit⟩

/-- Every edit that was tried since the start. -/
theorem forall_of_start {platform : Nat → Directory → Edit → System}
    (h : Goes Kind (start platform d) w) :
    ∀ a ∈ w.attempts, d.Confined a.start ∧ Kind a.edit := by
  obtain ⟨more, hmore, hkind⟩ := h.attempts
  have hall : w.attempts = more := hmore
  rw [hall]
  exact hkind

end Goes

/-- One edit. -/
theorem goes_perform (w : Watched) (he : Kind e) : Goes Kind w (Store.perform w e).2 := by
  refine ⟨Directory.confined_attempt _ w.dir e, _, rfl, fun a ha ↦ ?_⟩
  rw [List.mem_singleton.1 ha]
  exact ⟨.refl w.dir, he⟩

theorem goes_run {stage : Stage} (h : ∀ e : Edit, e.paths = stage.written → Kind e) (w : Watched) :
    Goes Kind w (stage.run w).store := by
  change Goes Kind w (Stage.carryOut w (stage.decide w)).2
  match hdecision : stage.decide w with
  | .error _ | .ok none => exact .refl w
  | .ok (some e) =>
    rw [Stage.carryOut_some]
    exact w.goes_perform (h e (Stage.paths_of_decide hdecision))

/-- A run, however it comes out, tries no edits but at paths that its changes affect. -/
theorem goes_apply (features : Features) (stop : Nat → Bool) (doc : Document) (w : Watched) :
    Goes (fun e ↦ ∃ c ∈ doc.changes, e.paths ⊆ c.affected) w
      (doc.apply features stop w).store := by
  refine Document.keeps_apply .refl .trans (fun stage hstage w ↦ ?_) stop w
  obtain ⟨c, hc, hstage⟩ := List.mem_flatMap.1 hstage
  exact w.goes_run fun e he ↦ ⟨c, hc, he ▸ FileChange.written_subset_affected hstage⟩

/-- Edits that start where nothing outside of a directory is different pass through a disk on which
something is exactly when the draft of one of them comes to lie there. -/
theorem passed_outside_iff (h : ∀ a ∈ w.attempts, d.Confined a.start) :
    (∃ disk ∈ w.passed, ∃ place, ¬ d.root <+: place ∧ disk.get? place ≠ d.disk.get? place) ↔
      ∃ a ∈ w.attempts, a.start.DraftsOutside a.system a.edit := by
  constructor
  · rintro ⟨disk, hdisk, place, hplace, hne⟩
    obtain ⟨a, ha, hdisk⟩ := List.mem_flatMap.1 hdisk
    have hstart := h a ha
    refine ⟨a, ha, Directory.passed_outside_iff.1 ⟨disk, hdisk, place, ?_, ?_⟩⟩
    · rwa [hstart.same.root]
    · rwa [hstart.outside place hplace]
  · rintro ⟨a, ha, hdrafts⟩
    have hstart := h a ha
    obtain ⟨disk, hdisk, place, hplace, hne⟩ := Directory.passed_outside_iff.2 hdrafts
    rw [hstart.same.root] at hplace
    rw [hstart.outside place hplace] at hne
    exact ⟨disk, List.mem_flatMap.2 ⟨a, ha, hdisk⟩, place, hplace, hne⟩

/-- What stands outside of the directory stays as it is at any time. -/
theorem get?_of_mem_passed (h : ∀ a ∈ w.attempts, d.Confined a.start) {disk : Disk}
    (hdisk : disk ∈ w.passed) {place : List String} (hplace : ¬ d.root <+: place) {entry : Entry}
    (hentry : d.disk.get? place = some entry) : disk.get? place = some entry := by
  obtain ⟨a, ha, hdisk⟩ := List.mem_flatMap.1 hdisk
  have hstart := h a ha
  rw [← hstart.outside place hplace] at hentry
  rw [← hstart.same.root] at hplace
  exact Directory.get?_of_mem_passed hdisk hplace hentry

end Watched

end Patchwork
