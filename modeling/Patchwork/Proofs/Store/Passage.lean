import Patchwork.Proofs.Store.Refusal

/-!
# What an edit passes through outside of its directory

When an edit has ended, nothing is different outside of the directory, whatever calls the system has
refused (`Directory.confined_attempt`). While it goes on, the draft may lie outside: that is so
exactly when the edit writes at a path without names, such as `.`, the parent of the directory's own
path leads out of the directory, and the draft can be made there (`Directory.passed_outside_iff`).
-/

namespace Patchwork

/-- The draft, if there is one, is at a place of some kind. -/
def Work.DraftAt (P : List String → Prop) (w : Work) : Prop :=
  ∀ place, w.draft = some place → P place

namespace Directory

/-- Another state of a directory, in which nothing outside of it is different. -/
structure Confined (d d' : Directory) : Prop where
  same : SamePlace d d'
  outside : ∀ place, ¬ d.root <+: place → d'.disk.get? place = d.disk.get? place

/-- The edit writes at a path that leads to the directory itself. -/
def WritesRoot : Edit → Prop
  | .write p _ => p.names = []
  | .create _ | .delete _ | .rename _ _ => False

theorem WritesRoot.exists_mem_paths {e : Edit} (h : WritesRoot e) :
    ∃ p ∈ e.paths, p.names = [] := by
  cases e with
  | write p content => exact ⟨p, List.mem_singleton_self p, h⟩
  | create | delete | rename => exact h.elim

/-- Neither the system nor the disk keeps a draft from being made for a location without names.
There are two calls then: the first is for the directory that the draft is made in. -/
structure OpensDraft (d : Directory) (system : System) (l : Location) : Prop where
  reaches : system.refuses 0 = none
  fit : l.isParentUnfit = false
  opens : system.refuses 1 = none
  short : (d.draft l).isTooLong = false
  free : d.disk.get? (d.draftPlace l system.draftName) = none

/-- The draft of an edit comes to lie outside of the directory. -/
def DraftsOutside (d : Directory) (system : System) (e : Edit) : Prop :=
  WritesRoot e ∧ e.target.staysBelow = true ∧
    ¬ d.root <+: d.draftPlace (d.locate e.target) system.draftName ∧
      d.OpensDraft system (d.locate e.target)

variable {d d' d'' : Directory} {w w' : Work} {names : List String} {l : Location} {p : Path}
  {system : System} {number : Nat} {e : Edit} {place : List String}

namespace Confined

theorem refl (d : Directory) : d.Confined d := ⟨.refl d, fun _ _ ↦ rfl⟩

theorem trans (h : d.Confined d') (h' : d'.Confined d'') : d.Confined d'' := by
  refine ⟨h.same.trans h'.same, fun place hplace ↦ ?_⟩
  rw [h'.outside place (h.same.root ▸ hplace), h.outside place hplace]

end Confined

theorem ne_place (hplace : ¬ d.root <+: place) (names : List String) : place ≠ d.place names := by
  rintro rfl
  exact hplace (List.prefix_append d.root names)

/-- Directories are made below the directory. -/
theorem Grows.confined (h : d.Grows d' names) : d.Confined d' := by
  refine ⟨h.same, fun place hplace ↦ (h.entry place).resolve_right ?_⟩
  rintro ⟨-, -, front, -, heq⟩
  exact ne_place hplace front heq

/-- In the middle of an edit nothing is different outside but the draft. -/
theorem Underway.get?_outside (h : d.Underway names w) (hplace : ¬ d.root <+: place)
    (hdraft : w.draft ≠ some place) : w.dir.disk.get? place = d.disk.get? place := by
  refine (h.entry place hdraft).resolve_right ?_
  rintro ⟨-, -, front, -, heq⟩
  exact ne_place hplace front heq

section Draft

variable {P : List String → Prop} {call : Preparation}

/-- The draft stays where it is, and is made where the call says that makes it. -/
theorem draftAt_ask (h : w.DraftAt P)
    (hopen : ∀ l, call = .openDraft l → P (w.dir.draftPlace l system.draftName))
    (hask : w.ask system number call = .ok w') : w'.DraftAt P := by
  obtain rfl | ⟨_, _, _, -, -, rfl⟩ | ⟨l, rfl, -, -, rfl⟩ | ⟨place, _, -, hdraft, rfl⟩ :=
    Work.exists_of_ask hask
  · exact h
  · exact h
  · rintro place ⟨⟩
    exact hopen l rfl
  · rintro place ⟨⟩
    exact h _ hdraft

/-- A draft for a location with names lies below the directory. -/
theorem root_prefix_draftPlace (hnames : l.names ≠ []) (name : String) :
    d.root <+: d.draftPlace l name := by
  rw [draftPlace, draftHome, if_neg hnames, place, List.append_assoc]
  exact List.prefix_append d.root _

end Draft

private theorem openDraft_notMem_entering (l : Location) (here back : List String) :
    .openDraft l ∉ entering here back := by
  induction back generalizing here with
  | nil => exact List.not_mem_nil
  | cons name back ih => exact List.not_mem_cons_of_ne_of_not_mem Preparation.noConfusion (ih _)

private theorem openDraft_notMem_opening (d : Directory) (l other : Location) :
    .openDraft l ∉ d.opening other :=
  List.not_mem_cons_of_ne_of_not_mem Preparation.noConfusion (openDraft_notMem_entering l _ _)

private theorem openDraft_notMem_filling (l : Location) (content : ByteArray) :
    .openDraft l ∉ system.filling content := by
  simp [System.filling]

/-- Only an edit that writes makes a draft, and it makes it for the path at which it writes. -/
theorem eq_write_of_openDraft_mem {plan : Plan} (hplan : d.plan system e = .ok plan) {q : Path}
    (hmem : (q, .openDraft l) ∈ plan.preparations) :
    ∃ p content, e = .write p content ∧ l = d.locate p := by
  cases e with
  | write p content =>
    obtain ⟨-, rfl⟩ := plan_write_eq_ok_iff.1 hplan
    obtain ⟨call, hcall, heq⟩ := List.mem_map.1 hmem
    cases heq
    obtain hcall | hcall := List.mem_append.1 hcall
    · exact absurd hcall (d.openDraft_notMem_opening l _)
    · obtain heq | hcall := List.mem_cons.1 hcall
      · cases heq
        exact ⟨_, content, rfl, rfl⟩
      · exact absurd hcall (openDraft_notMem_filling l content)
  | create p =>
    obtain ⟨-, rfl⟩ := plan_create_eq_ok_iff.1 hplan
    obtain ⟨call, hcall, heq⟩ := List.mem_map.1 hmem
    cases heq
    exact absurd hcall (d.openDraft_notMem_opening l _)
  | delete p =>
    obtain ⟨-, rfl⟩ := plan_delete_eq_ok_iff.1 hplan
    cases hmem
  | rename source target =>
    obtain ⟨-, rfl⟩ := plan_rename_eq_ok_iff.1 hplan
    obtain heq | hmem := List.mem_cons.1 hmem
    · cases heq
    · obtain heq | hmem := List.mem_cons.1 hmem
      · cases heq
      · obtain ⟨call, hcall, heq⟩ := List.mem_map.1 hmem
        cases heq
        exact absurd hcall (d.openDraft_notMem_opening l _)

/-- The drafts of other edits lie below the directory. -/
theorem draftAt_of_not_writesRoot (he : ¬ WritesRoot e) {plan : Plan}
    (hplan : d.plan system e = .ok plan) :
    ∀ w ∈ Work.passed system ⟨d, none⟩ 0 plan.preparations, w.DraftAt (d.root <+: ·) := by
  have hstart : Work.DraftAt (d.root <+: ·) ⟨d, none⟩ := by
    rintro place ⟨⟩
  have hkept : ∀ w ∈ Work.passed system ⟨d, none⟩ 0 plan.preparations,
      d.Underway e.target.names.dropLast w ∧ w.DraftAt (d.root <+: ·) := by
    refine Work.forall_passed ⟨.start d _, hstart⟩ fun call hcall h hask ↦ ?_
    refine ⟨h.1.ask (keepsTo_plan hplan call hcall) hask, draftAt_ask h.2 (fun l hl ↦ ?_) hask⟩
    obtain ⟨q, call⟩ := call
    cases hl
    obtain ⟨p, content, rfl, rfl⟩ := eq_write_of_openDraft_mem hplan hcall
    have hnames : (d.locate p).names ≠ [] := he
    rw [← h.1.same.root]
    exact root_prefix_draftPlace hnames _
  exact fun w hw ↦ (hkept w hw).2

section Outcome

variable {plan : Plan}

/-- The calls that prepare an edit end in the middle of it. -/
theorem underway_prepareAll (hplan : d.plan system e = .ok plan) :
    d.Underway e.target.names.dropLast (Work.prepareAll system ⟨d, none⟩ 0 plan.preparations).2 :=
  (Underway.start d _).prepareAll system 0 (keepsTo_plan hplan)

/-- A draft that is not at a place does not matter to it when it is taken away. -/
private theorem get?_drop (hdraft : w.draft ≠ some place) :
    w.drop.disk.get? place = w.dir.disk.get? place := by
  rw [Work.drop]
  split
  · rfl
  · next draft heq =>
    refine (w.dir.disk.get?_remove_or draft place).resolve_right ?_
    rintro ⟨rfl, -⟩
    exact hdraft heq

/-- What is moved to a location leaves its own place, and changes nothing else outside. -/
private theorem exists_of_moveTo {from' : List String} (h : d.moveTo from' l = .ok d') :
    ∃ entry, d' = { d with disk := (d.disk.remove from').put (d.place l.names) entry } := by
  rw [moveTo] at h
  split at h
  · cases h
  · cases h
  · next entry _ _ =>
    cases h
    exact ⟨entry, rfl⟩

private theorem get?_put_place (hplace : ¬ d.root <+: place) (disk : Disk) (names : List String)
    (entry : Entry) : (disk.put (d.place names) entry).get? place = disk.get? place := by
  refine (disk.get?_put_or (d.place names) place entry).resolve_right ?_
  rintro ⟨heq, -⟩
  exact ne_place hplace names heq.symm

private theorem get?_remove_place (hplace : ¬ d.root <+: place) (disk : Disk)
    (names : List String) : (disk.remove (d.place names)).get? place = disk.get? place := by
  refine (disk.get?_remove_or (d.place names) place).resolve_right ?_
  rintro ⟨heq, -⟩
  exact ne_place hplace names heq.symm

/-- What the call that completes an edit changes is below the directory, or is the draft. -/
private theorem outside_complete {completion : Completion} (h : w.complete completion = .ok d') :
    SamePlace w.dir d' ∧ ∀ place, ¬ w.dir.root <+: place →
      ((∀ l, completion ≠ .settle l) → w.draft ≠ some place) →
        d'.disk.get? place = w.drop.disk.get? place := by
  cases completion with
  | settle l =>
    rw [Work.complete] at h
    rw [Work.drop]
    split at h
    · cases h
    · obtain ⟨entry, rfl⟩ := exists_of_moveTo h
      exact ⟨⟨rfl, rfl, rfl⟩, fun place hplace _ ↦ get?_put_place hplace _ _ _⟩
  | create l =>
    rw [Work.complete] at h
    split at h <;> cases h
    refine ⟨⟨rfl, rfl, rfl⟩, fun place hplace hdraft ↦ ?_⟩
    rw [get?_drop (hdraft fun _ ↦ Completion.noConfusion)]
    exact get?_put_place hplace _ _ _
  | delete l =>
    rw [Work.complete] at h
    split at h <;> cases h
    refine ⟨⟨rfl, rfl, rfl⟩, fun place hplace hdraft ↦ ?_⟩
    rw [get?_drop (hdraft fun _ ↦ Completion.noConfusion)]
    exact get?_remove_place hplace _ _
  | move source target =>
    rw [Work.complete] at h
    split at h
    · cases h
    · obtain ⟨entry, rfl⟩ := exists_of_moveTo h
      refine ⟨⟨rfl, rfl, rfl⟩, fun place hplace hdraft ↦ ?_⟩
      rw [get?_drop (hdraft fun _ ↦ Completion.noConfusion)]
      exact (get?_put_place hplace _ _ _).trans (get?_remove_place hplace _ _)

/-- An edit that does not end by moving its draft has no draft outside. -/
private theorem draft_ne_of_forall_ne_settle (hplan : d.plan system e = .ok plan)
    (hplace : ¬ d.root <+: place) (hcompletion : ∀ l, plan.completion.2 ≠ .settle l) :
    (Work.prepareAll system ⟨d, none⟩ 0 plan.preparations).2.draft ≠ some place := by
  intro hdraft
  by_cases he : WritesRoot e
  · cases e with
    | write p content =>
      obtain ⟨-, rfl⟩ := plan_write_eq_ok_iff.1 hplan
      exact hcompletion _ rfl
    | create | delete | rename => exact he.elim
  · obtain heq | hmem :=
      @Work.prepareAll_eq_or_mem_passed system ⟨d, none⟩ 0 plan.preparations
    · rw [heq] at hdraft
      cases hdraft
    · exact hplace (draftAt_of_not_writesRoot he hplan _ hmem place hdraft)

/-- When an edit has ended, nothing outside of the directory is different. -/
theorem confined_attempt (system : System) (d : Directory) (e : Edit) :
    d.Confined (d.attempt system e).2 := by
  rw [attempt]
  cases hplan : d.plan system e with
  | error error => exact .refl d
  | ok plan =>
    have hunderway := underway_prepareAll hplan
    have hdraft (place : List String) :=
      @draft_ne_of_forall_ne_settle d system e place plan hplan
    dsimp only
    rcases hcalls : Work.prepareAll system ⟨d, none⟩ 0 plan.preparations with ⟨error | _, w⟩
    · rw [hcalls] at hunderway
      exact hunderway.grows_drop.confined
    · rw [hcalls] at hunderway hdraft
      -- Nothing but a draft can lie outside here, and it is moved away if it does.
      have hdropped : d.Confined w.drop := hunderway.grows_drop.confined
      dsimp only
      rw [Work.finish]
      split
      · exact hdropped
      · split
        · exact hdropped
        · next d' hcomplete =>
          have hroot : w.dir.root = d.root := hunderway.same.root
          obtain ⟨hsame, houtside⟩ := outside_complete hcomplete
          refine ⟨hunderway.same.trans hsame, fun place hplace ↦ ?_⟩
          rw [houtside place (hroot ▸ hplace) (hdraft place hplace)]
          exact hdropped.outside place hplace

end Outcome

section Rootless

variable {calls : List Preparation}

/-- A disk on which something outside is different is passed through before the edit ends. -/
private theorem exists_work_of_mem_passed {disk : Disk} (hdisk : disk ∈ d.passed system e)
    (hplace : ¬ d.root <+: place) (hne : disk.get? place ≠ d.disk.get? place) :
    ∃ plan w, d.plan system e = .ok plan ∧
      w ∈ Work.passed system ⟨d, none⟩ 0 plan.preparations ∧ w.dir.disk = disk := by
  rw [passed] at hdisk
  split at hdisk
  · cases hdisk
  · next plan hplan =>
    obtain hdisk | hdisk := List.mem_append.1 hdisk
    · obtain ⟨w, hw, rfl⟩ := List.mem_map.1 hdisk
      exact ⟨plan, w, hplan, hw, rfl⟩
    · rw [List.mem_singleton.1 hdisk] at hne
      exact absurd ((confined_attempt system d e).outside place hplace) hne

/-- Before the draft for a location without names is made, nothing is different. -/
private theorem eq_or_opensDraft_of_mem_passed (hcalls : ∀ l, .openDraft l ∉ calls)
    (hw : w ∈ Work.passed system ⟨d, none⟩ 0 ((.reach l :: .openDraft l :: calls).map (p, ·))) :
    w = ⟨d, none⟩ ∨
      d.OpensDraft system l ∧ w.DraftAt (· = d.draftPlace l system.draftName) := by
  obtain ⟨reached, hreach, hw⟩ := Work.mem_passed_cons_iff.1 hw
  obtain ⟨hreaches, hfit, rfl⟩ := Work.ask_reach_eq_ok_iff.1 hreach
  refine hw.imp_right fun hw ↦ ?_
  obtain ⟨opened, hopen, hw⟩ := Work.mem_passed_cons_iff.1 hw
  obtain ⟨hopens, hshort, -, hfree, rfl⟩ := Work.ask_openDraft_eq_ok_iff.1 hopen
  refine ⟨⟨hreaches, hfit, hopens, hshort, hfree⟩, ?_⟩
  have hopened : Work.DraftAt (· = d.draftPlace l system.draftName)
      (d.drafted (d.draftPlace l system.draftName) .empty) := by
    rintro place ⟨⟩
    rfl
  obtain rfl | hw := hw
  · exact hopened
  · refine Work.forall_passed hopened (fun call hcall hdraft hask ↦ ?_) w hw
    obtain ⟨call', hcall', rfl⟩ := List.mem_map.1 hcall
    refine draftAt_ask hdraft (fun other heq ↦ ?_) hask
    exact absurd (heq ▸ hcall') (hcalls other)

private theorem exists_mem_passed_of_opensDraft (p : Path) (h : d.OpensDraft system l)
    (calls : List Preparation) :
    ∃ w ∈ Work.passed system ⟨d, none⟩ 0 ((.reach l :: .openDraft l :: calls).map (p, ·)),
      w.dir.disk.get? (d.draftPlace l system.draftName) = some (.file .empty) := by
  have hreach : Work.ask system ⟨d, none⟩ 0 (.reach l) = .ok ⟨d, none⟩ :=
    Work.ask_reach_eq_ok_iff.2 ⟨h.reaches, h.fit, rfl⟩
  have hopen : Work.ask system ⟨d, none⟩ 1 (.openDraft l) =
      .ok (d.drafted (d.draftPlace l system.draftName) .empty) :=
    Work.ask_openDraft_eq_ok_iff.2 ⟨h.opens, h.short, rfl, h.free, rfl⟩
  refine ⟨d.drafted (d.draftPlace l system.draftName) .empty,
    Work.mem_passed_cons_iff.2 ⟨⟨d, none⟩, hreach, .inr ?_⟩, ?_⟩
  · exact Work.mem_passed_cons_iff.2 ⟨_, hopen, .inl rfl⟩
  · rw [drafted, Disk.get?_put _ _ _ _ (Disk.ne_nil_of_get?_eq_none h.free), if_pos rfl]

/-- The plan of an edit that writes at a path which leads to the directory itself. -/
private theorem plan_of_writesRoot {content : ByteArray} {plan : Plan} (hnames : p.names = []) :
    d.plan system (.write p content) = .ok plan ↔ p.staysBelow = true ∧ plan =
      ⟨(.reach (d.locate p) :: .openDraft (d.locate p) :: system.filling content).map (p, ·),
        p, .settle (d.locate p)⟩ := by
  have hopening : d.opening (d.locate p) = [.reach (d.locate p)] := by
    rw [opening, Location.parents, locate, hnames]
    rfl
  rw [plan_write_eq_ok_iff, hopening]
  rfl

end Rootless

/-- An edit passes through a disk on which something outside of the directory is different exactly
when its draft comes to lie there. -/
theorem passed_outside_iff :
    (∃ disk ∈ d.passed system e, ∃ place, ¬ d.root <+: place ∧
      disk.get? place ≠ d.disk.get? place) ↔ d.DraftsOutside system e := by
  constructor
  · rintro ⟨disk, hdisk, place, hplace, hne⟩
    obtain ⟨plan, w, hplan, hw, rfl⟩ := exists_work_of_mem_passed hdisk hplace hne
    have hunderway := (Underway.start d _).passed (keepsTo_plan hplan) w hw
    -- What is different can only be the draft, and other edits have theirs below the directory.
    have hdraft : w.draft = some place :=
      Classical.byContradiction fun hdraft ↦ hne (hunderway.get?_outside hplace hdraft)
    have he : WritesRoot e := Classical.byContradiction fun he ↦
      hplace (draftAt_of_not_writesRoot he hplan w hw place hdraft)
    cases e with
    | create | delete | rename => exact he.elim
    | write p content =>
      obtain ⟨hbelow, rfl⟩ := (plan_of_writesRoot he).1 hplan
      obtain rfl | ⟨hopens, hhome⟩ := eq_or_opensDraft_of_mem_passed
        (fun l ↦ openDraft_notMem_filling l content) hw
      · cases hdraft
      · exact ⟨he, hbelow, hhome place hdraft ▸ hplace, hopens⟩
  · rintro ⟨he, hbelow, hplace, hopens⟩
    cases e with
    | create | delete | rename => exact he.elim
    | write p content =>
      obtain ⟨w, hw, hget⟩ := exists_mem_passed_of_opensDraft p hopens
        (system.filling content)
      refine ⟨w.dir.disk, ?_, _, hplace, ?_⟩
      · rw [passed, (plan_of_writesRoot he).2 ⟨hbelow, rfl⟩]
        exact List.mem_append_left _ (List.mem_map_of_mem hw)
      · exact fun heq ↦ Option.some_ne_none _ (hget.symm.trans (heq.trans hopens.free))

/-- What stands outside of the directory stays as it is at any time. A draft is made where nothing
stood. -/
theorem get?_of_mem_passed {disk : Disk} (hdisk : disk ∈ d.passed system e)
    (hplace : ¬ d.root <+: place) {entry : Entry} (hentry : d.disk.get? place = some entry) :
    disk.get? place = some entry := by
  by_contra hne
  rw [← hentry] at hne
  obtain ⟨plan, w, hplan, hw, rfl⟩ := exists_work_of_mem_passed hdisk hplace hne
  have hunderway := (Underway.start d _).passed (keepsTo_plan hplan) w hw
  by_cases hdraft : w.draft = some place
  · obtain ⟨hfree, -⟩ := hunderway.draft place hdraft
    exact Option.some_ne_none entry (hentry.symm.trans hfree)
  · exact hne (hunderway.get?_outside hplace hdraft)

end Directory

end Patchwork
