import Patchwork.Proofs.Store.Calls

/-!
# Nothing is lost when an edit fails

Until the call that completes an edit, nothing is different on the disk but directories that the
edit's file needs, made where nothing stood, and the draft (`Directory.Underway`). Every call that
prepares the edit keeps to this. The call that completes it changes nothing if it is refused, and
the draft is taken away then. So an edit that fails, at whatever call, leaves every file as it was
(`Directory.attempt_fails_safe`). Specification: section 5.
-/

namespace Patchwork

namespace Directory

/-- What an edit that fails may leave behind: every file is where it was, with the content it had,
no other file is there, and nothing else is different but directories in which the edit's target
lies, made where nothing stood. -/
structure Spares (d d' : Directory) (e : Edit) : Prop where
  files : ∀ place content,
    d'.disk.get? place = some (.file content) ↔ d.disk.get? place = some (.file content)
  grows : d.Grows d' e.target.names.dropLast

variable {d d' : Directory} {names : List String} {w w' : Work}

theorem Grows.spares {e : Edit} (h : d.Grows d' e.target.names.dropLast) : d.Spares d' e := by
  refine ⟨fun place content ↦ ?_, h⟩
  obtain hkept | ⟨hnone, hmade, -⟩ := h.entry place
  · rw [hkept]
  · simp [hnone, hmade]

/-- A call that makes no directory but on the way down `names`. -/
def KeepsTo (d : Directory) (names : List String) : Preparation → Prop
  | .enter here name _ => ∃ front, front <+: names ∧ here ++ [name] = d.place front
  | .reach _ | .seek _ | .spare _ | .openDraft _ | .fill _ | .keepMode => True

/-- In the middle of an edit nothing is different but directories that lead down `names`, made where
nothing stood, and the draft, which is a file where nothing stood. -/
structure Underway (d : Directory) (names : List String) (w : Work) : Prop where
  same : SamePlace d w.dir
  draft : ∀ place, w.draft = some place →
    d.disk.get? place = none ∧ ∃ content, w.dir.disk.get? place = some (.file content)
  entry : ∀ place, w.draft ≠ some place → w.dir.disk.get? place = d.disk.get? place ∨
    d.disk.get? place = none ∧ w.dir.disk.get? place = some .directory ∧
      ∃ front, front <+: names ∧ place = d.place front

namespace Underway

theorem start (d : Directory) (names : List String) : d.Underway names ⟨d, none⟩ := by
  refine ⟨.refl d, fun place hdraft ↦ ?_, fun place _ ↦ .inl rfl⟩
  cases hdraft

/-- Where nothing stands, nothing stood. -/
private theorem get?_eq_none (h : d.Underway names w) {place : List String}
    (hnone : w.dir.disk.get? place = none) : d.disk.get? place = none := by
  by_cases hdraft : w.draft = some place
  · exact (h.draft place hdraft).1
  · obtain hkept | ⟨hfree, -⟩ := h.entry place hdraft
    · rw [← hkept, hnone]
    · exact hfree

/-- A directory is made where nothing stands, and the draft does. -/
private theorem enter (h : d.Underway names w) {place : List String}
    (hnone : w.dir.disk.get? place = none)
    (hplace : ∃ front, front <+: names ∧ place = d.place front) :
    d.Underway names { w with dir := { w.dir with disk := w.dir.disk.put place .directory } } := by
  refine ⟨h.same.trans ⟨rfl, rfl, rfl⟩, fun other hdraft ↦ ?_, fun other hdraft ↦ ?_⟩
  · obtain ⟨hfree, content, hcontent⟩ := h.draft other hdraft
    refine ⟨hfree, content, ?_⟩
    obtain hkept | ⟨rfl, -⟩ := w.dir.disk.get?_put_or place other .directory
    · rw [hkept, hcontent]
    · rw [hnone] at hcontent
      cases hcontent
  · obtain hkept | ⟨rfl, hput⟩ := w.dir.disk.get?_put_or place other .directory
    · rw [hkept]
      exact h.entry other hdraft
    · exact .inr ⟨h.get?_eq_none hnone, hput, hplace⟩

/-- A file is put where nothing stood, and is the draft. -/
private theorem withDraft (h : d.Underway names w) {place : List String}
    (hdraft : ∀ other, w.draft = some other → other = place)
    (hfree : d.disk.get? place = none) (content : ByteArray) :
    d.Underway names ⟨{ w.dir with disk := w.dir.disk.put place (.file content) }, some place⟩ := by
  refine ⟨h.same.trans ⟨rfl, rfl, rfl⟩, fun other hother ↦ ?_, fun other hother ↦ ?_⟩
  · cases hother
    refine ⟨hfree, content, ?_⟩
    rw [Disk.get?_put _ _ _ _ (Disk.ne_nil_of_get?_eq_none hfree), if_pos rfl]
  · have hne : other ≠ place := fun heq ↦ hother (heq ▸ rfl)
    rw [(w.dir.disk.get?_put_or place other (.file content)).resolve_right fun h ↦ hne h.1.symm]
    exact h.entry other fun hopen ↦ hne (hdraft other hopen)

/-- A call that prepares the edit keeps to what has been said. -/
theorem ask (h : d.Underway names w) {system : System} {number : Nat} {call : Preparation}
    (hcall : d.KeepsTo names call) (hok : w.ask system number call = .ok w') :
    d.Underway names w' := by
  obtain rfl | ⟨here, name, last, rfl, hnone, rfl⟩ | ⟨l, -, hdraft, hnone, rfl⟩ |
    ⟨place, content, -, hdraft, rfl⟩ := Work.exists_of_ask hok
  · exact h
  · exact h.enter hnone hcall
  · refine h.withDraft (fun other hother ↦ ?_) (h.get?_eq_none hnone) .empty
    rw [hdraft] at hother
    cases hother
  · refine h.withDraft (fun other hother ↦ ?_) (h.draft place hdraft).1 content
    rw [hdraft] at hother
    exact (Option.some.inj hother).symm

/-- However far the calls get, they keep to what has been said. -/
theorem passed (h : d.Underway names w) {system : System} {number : Nat}
    {calls : List (Path × Preparation)} (hcalls : ∀ call ∈ calls, d.KeepsTo names call.2) :
    ∀ w' ∈ w.passed system number calls, d.Underway names w' :=
  Work.forall_passed h fun call hcall hunderway ↦ hunderway.ask (hcalls call hcall)

theorem prepareAll (h : d.Underway names w) (system : System) (number : Nat)
    {calls : List (Path × Preparation)} (hcalls : ∀ call ∈ calls, d.KeepsTo names call.2) :
    d.Underway names (w.prepareAll system number calls).2 := by
  obtain heq | hmem := Work.prepareAll_eq_or_mem_passed
  · rw [heq]
    exact h
  · exact h.passed hcalls _ hmem

/-- When the draft has been taken away, only directories are left. -/
theorem grows_drop (h : d.Underway names w) : d.Grows w.drop names := by
  rw [Work.drop]
  split
  · next hdraft =>
    refine ⟨h.same, fun place ↦ h.entry place ?_⟩
    simp [hdraft]
  · next draft hdraft =>
    refine ⟨h.same.trans ⟨rfl, rfl, rfl⟩, fun place ↦ ?_⟩
    obtain ⟨hfree, -⟩ := h.draft draft hdraft
    by_cases hplace : draft = place
    · subst hplace
      rw [Disk.get?_remove _ _ _ (Disk.ne_nil_of_get?_eq_none hfree), if_pos rfl]
      exact .inl hfree.symm
    · rw [(w.dir.disk.get?_remove_or draft place).resolve_right fun h ↦ hplace h.1]
      exact h.entry place fun hopen ↦ hplace (Option.some.inj (hdraft.symm.trans hopen))

end Underway

/-- The directories that are made lead down to where they are to lead. -/
private theorem keepsTo_entering {front back : List String} :
    ∀ call ∈ entering (d.place front) back, d.KeepsTo (front ++ back) call := by
  induction back generalizing front with
  | nil => exact fun call hcall ↦ absurd hcall List.not_mem_nil
  | cons name back ih =>
    have hnext : d.place front ++ [name] = d.place (front ++ [name]) :=
      List.append_assoc d.root front [name]
    rw [entering, hnext, List.append_cons front name back]
    exact List.forall_mem_cons.2 ⟨⟨front ++ [name], List.prefix_append _ _, hnext⟩, ih⟩

private theorem keepsTo_opening (l : Location) :
    ∀ call ∈ d.opening l, d.KeepsTo l.names.dropLast call := by
  have hroot : d.root = d.place [] := (List.append_nil d.root).symm
  rw [opening, hroot]
  exact List.forall_mem_cons.2 ⟨trivial, keepsTo_entering⟩

private theorem keepsTo_filling (system : System) (content : ByteArray) :
    ∀ call ∈ system.filling content, d.KeepsTo names call := by
  intro call hcall
  obtain hcall | hcall := List.mem_append.1 hcall
  · obtain ⟨stop, -, rfl⟩ := List.mem_map.1 hcall
    trivial
  · obtain rfl | hcall := List.mem_cons.1 hcall
    · trivial
    · rw [List.mem_singleton.1 hcall]
      trivial

/-- All the calls of an edit but the last keep to the way to its target. -/
theorem keepsTo_plan {system : System} {e : Edit} {plan : Plan} (h : d.plan system e = .ok plan) :
    ∀ call ∈ plan.preparations, d.KeepsTo e.target.names.dropLast call.2 := by
  cases e with
  | write p content =>
    obtain ⟨-, rfl⟩ := plan_write_eq_ok_iff.1 h
    refine List.forall_mem_map.2 (List.forall_mem_append.2 ⟨d.keepsTo_opening _, ?_⟩)
    exact List.forall_mem_cons.2 ⟨trivial, keepsTo_filling system content⟩
  | create p =>
    obtain ⟨-, rfl⟩ := plan_create_eq_ok_iff.1 h
    exact List.forall_mem_map.2 (d.keepsTo_opening _)
  | delete p =>
    obtain ⟨-, rfl⟩ := plan_delete_eq_ok_iff.1 h
    exact fun call hcall ↦ absurd hcall List.not_mem_nil
  | rename source target =>
    obtain ⟨-, rfl⟩ := plan_rename_eq_ok_iff.1 h
    refine List.forall_mem_cons.2 ⟨trivial, List.forall_mem_cons.2 ⟨trivial, ?_⟩⟩
    exact List.forall_mem_map.2 (d.keepsTo_opening _)

/-- The call that completes an edit does all of it or nothing. -/
theorem finish_snd_of_error {system : System} {number : Nat} {call : Path × Completion}
    {error : StoreError} (h : (w.finish system number call).1 = .error error) :
    (w.finish system number call).2 = w.drop := by
  rw [Work.finish] at h ⊢
  cases hrefuses : system.refuses number with
  | some kind => rfl
  | none =>
    cases hcomplete : w.complete call.2 with
    | error kind => rfl
    | ok d => simp [hrefuses, hcomplete] at h

/-- An edit that fails, at whatever call, leaves no more behind than directories. -/
theorem grows_of_attempt_error {system : System} {e : Edit} {error : StoreError}
    (h : (d.attempt system e).1 = .error error) :
    d.Grows (d.attempt system e).2 e.target.names.dropLast := by
  rw [attempt] at h ⊢
  cases hplan : d.plan system e with
  | error error => exact .refl d _
  | ok plan =>
    have hunderway := (Underway.start d _).prepareAll system 0 (keepsTo_plan hplan)
    simp only [hplan] at h ⊢
    rcases hcalls : Work.prepareAll system ⟨d, none⟩ 0 plan.preparations with ⟨error | _, w⟩
    · rw [hcalls] at hunderway
      exact hunderway.grows_drop
    · rw [hcalls] at hunderway h
      rw [finish_snd_of_error h]
      exact hunderway.grows_drop

/-- An edit that fails loses nothing, whether it fails for a reason that the disk has or at a call
that the system refuses for another. What is done call by call is what is said of the edit, where
the system refuses nothing of its own accord; and there is such a system. -/
theorem attempt_fails_safe (d : Directory) (e : Edit) :
    (∃ system : System, system.Calm d e) ∧
    (∀ system : System, system.Calm d e → d.attempt system e = d.perform e) ∧
    (∀ error, (d.perform e).1 = .error error → d.Spares (d.perform e).2 e) ∧
    ∀ (system : System) (error : StoreError), (d.attempt system e).1 = .error error →
      d.Spares (d.attempt system e).2 e := by
  have hfails (system : System) (error : StoreError)
      (h : (d.attempt system e).1 = .error error) : d.Spares (d.attempt system e).2 e :=
    (grows_of_attempt_error h).spares
  obtain ⟨system, hcalm⟩ := System.exists_calm d e
  refine ⟨⟨system, hcalm⟩, fun system hcalm ↦ attempt_eq_perform hcalm, fun error h ↦ ?_, hfails⟩
  rw [← attempt_eq_perform hcalm] at h ⊢
  exact hfails system error h

section Instance

/-- A directory with one file. -/
def lone : Directory := ⟨Disk.empty.put ["a"] (.file "x\n".toUTF8), [], ⟨"/"⟩, ⟨"/"⟩⟩

/-- A system that writes drafts byte by byte and refuses no call, or the one of a number. -/
def obliging (refused : Option Nat) : System :=
  ⟨fun number ↦ if refused = some number then some .io else none, "draft", [1, 2]⟩

theorem attempt_fails_safe_lone :
    let missing : Edit := .write ⟨"d/b"⟩ "y\nz\n".toUTF8
    let blocked : Edit := .write ⟨"a/b"⟩ .empty
    (obliging none).Calm lone missing ∧
      lone.attempt (obliging none) missing = lone.perform missing ∧
      (lone.perform blocked).1 = .error ⟨.alreadyExists, ⟨"a/b"⟩⟩ ∧
      lone.Spares (lone.perform blocked).2 blocked ∧
      -- The call that is refused is the one that moves the draft.
      (lone.attempt (obliging (some 7)) missing).1 = .error ⟨.io, ⟨"d/b"⟩⟩ ∧
      lone.Spares (lone.attempt (obliging (some 7)) missing).2 missing ∧
      (lone.attempt (obliging (some 7)) missing).2.disk.get? ["d"] = some .directory := by
  intro missing blocked
  obtain ⟨-, hcalm, -, hsystem⟩ := attempt_fails_safe lone missing
  have hobliging : (obliging none).Calm lone missing := ⟨fun _ ↦ rfl, by decide, by decide⟩
  have hblocked : (lone.perform blocked).1 = .error ⟨.alreadyExists, ⟨"a/b"⟩⟩ := rfl
  have hrefused : (lone.attempt (obliging (some 7)) missing).1 = .error ⟨.io, ⟨"d/b"⟩⟩ := rfl
  exact ⟨hobliging, hcalm _ hobliging, hblocked, (attempt_fails_safe lone blocked).2.2.1 _ hblocked,
    hrefused, hsystem _ _ hrefused, rfl⟩

end Instance

end Directory

end Patchwork
