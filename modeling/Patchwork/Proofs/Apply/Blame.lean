import Patchwork.Proofs.Apply.Move
import Patchwork.Proofs.Hunk.Cursor
import Patchwork.Proofs.Store.Overlay

/-!
# What a failed run says

A store in memory makes every edit that a stage decides on (`Store.Reliable`), so a run on it only
fails for what its stages find (`Stage.Faults`): a file that is missing or in the way, or a content
that is at odds with a change's hunks. The change and the hunk that are named are those of the
document. Main statement: `Document.accounted`. Specification: section 7.
-/

namespace Patchwork

/-- Stores that say of each path whether it can be read, and that make every edit that comes to
something. -/
structure Store.Reliable (σ : Type) [Store σ] : Prop where
  honest : ∀ s : σ, Store.Honest s
  performs : ∀ (s : σ) (e : Edit), (e.effect (Store.content? s)).1 = .ok () →
    (Store.perform s e).1 = .ok ()

theorem Memory.reliable : Store.Reliable Memory where
  honest := honest
  performs m e h := by
    rw [content?_eq, ← m.perform_effect] at h
    exact h

theorem Overlay.reliable {σ : Type} [Store σ] (h : ∀ s : σ, Store.Honest s) :
    Store.Reliable (Overlay σ) where
  honest o := honest (h o.base)
  performs o e heffect := by
    rw [← perform_effect (honest (h o.base))] at heffect
    · exact heffect
    · rintro source target rfl hsource
      rw [Edit.effect, hsource] at heffect
      split at heffect <;> cases heffect

namespace LineSet

variable {s : LineSet} {h : Hunk} {hunks : List Hunk} {first i : Nat} {e : HunkError}

/-- Where hunks do not fit, one of them does not. -/
theorem exists_patch_eq_error (hpatch : s.patchAll first hunks = .error (i, e)) :
    ∃ k h t, i = first + k ∧ hunks[k]? = some h ∧ patch t h = .error e := by
  induction hunks generalizing s first with
  | nil => cases hpatch
  | cons h hunks ih =>
    rw [patchAll] at hpatch
    split at hpatch
    · next hfirst =>
      cases hpatch
      exact ⟨0, h, s, rfl, rfl, hfirst⟩
    · obtain ⟨k, other, t, rfl, hget, hother⟩ := ih hpatch
      exact ⟨k + 1, other, t, by omega, by simpa using hget, hother⟩

/-- A hunk that expects no lines can only be beyond the end. -/
theorem exists_pastEnd (hold : h.hasOld = false) (hpatch : s.patch h = .error e) :
    ∃ number line length, e = .pastEnd number line length := by
  have hverdict := s.verdict_applyLines h.anchor h.lines
  rw [patch, splice] at hpatch
  generalize s.applyLines h.anchor h.lines = result at hpatch hverdict
  cases hverdict with
  | spliced =>
    simp only [hold, Bool.false_and, Bool.false_eq_true, if_false] at hpatch
    split at hpatch <;> cases hpatch
  | @refused j line hline _ hmisfit =>
    cases hpatch
    -- The line is one to add, and it would leave a gap.
    have hnone : s.lines[h.anchor + HunkLine.oldBefore h.lines j]? = none := by
      rw [Hunk.hasOld, List.any_eq_false] at hold
      have hside := hold line (List.mem_of_getElem? hline)
      rw [List.getElem?_eq_none_iff]
      cases line with
      | context text | remove text => exact absurd rfl hside
      | add text =>
        by_contra hlt
        refine hmisfit fun other hother ↦ ?_
        rw [hline] at hother
        cases hother
        exact Nat.le_of_lt (Nat.lt_of_not_le hlt)
      | noNewline =>
        refine absurd (fun other hother ↦ ?_) hmisfit
        rw [hline] at hother
        cases hother
        trivial
    rw [misfit, hnone]
    exact ⟨_, line, _, rfl⟩

end LineSet

/-- One of the hunks does not fit some lines. -/
def HunkFault (hunks : List Hunk) (f : Fault) : Prop :=
  ∃ i h e, f = .hunk i e ∧ hunks[i]? = some h ∧ ∃ s : LineSet, s.patch h = .error e

namespace Stage

/-- The faults that a stage can find. -/
def Faults : Stage → Fault → Prop
  | create path hunks, f => f = .destinationExists path ∨ HunkFault hunks f
  | edit path hunks, f => f = .notFound path ∨ (∃ offset, f = .notText offset) ∨ HunkFault hunks f
  | delete path, f => f = .notFound path
  | move source target, f | duplicate source target, f =>
    f = .notFound source ∨ f = .destinationExists target
  | ignore _ _, _ => False

variable {σ : Type} [Store σ] {s : σ} {stage : Stage} {f : Fault} {path : Path}

private theorem fileBytes_of_holds (hs : Store.Honest s) (h : Store.holds s path = true) :
    ∃ bytes, fileBytes s path = .ok bytes := by
  rw [hs path, Option.isSome_iff_exists] at h
  obtain ⟨bytes, hbytes⟩ := h
  exact ⟨bytes, by rw [fileBytes, Store.content?_eq_some_iff.1 hbytes]⟩

private theorem hunkFault_of_patchLines {lines : LineSet} {hunks : List Hunk}
    (h : patchLines lines hunks = .error f) : HunkFault hunks f := by
  rw [patchLines] at h
  cases hpatch : lines.patchAll 0 hunks with
  | ok new =>
    rw [hpatch] at h
    cases h
  | error e =>
    rw [hpatch] at h
    cases h
    obtain ⟨k, hunk, t, hk, hget, hthis⟩ := LineSet.exists_patch_eq_error hpatch
    rw [Nat.zero_add] at hk
    exact ⟨e.1, hunk, e.2, rfl, hk ▸ hget, t, hthis⟩

private theorem faults_of_checkMove {source target : Path}
    (h : checkMove s source target = .error f) :
    f = .notFound source ∨ f = .destinationExists target := by
  rw [checkMove] at h
  split at h
  · cases h
    exact .inl rfl
  · split at h <;> cases h
    exact .inr rfl

/-- An honest store is never at fault itself. -/
theorem faults_of_decide (hs : Store.Honest s) (h : stage.decide s = .error f) :
    stage.Faults f := by
  cases stage with
  | create path hunks =>
    rw [decide, Except.map_eq_error_iff, decideCreate] at h
    split at h
    · cases h
      exact .inl rfl
    · split at h
      · cases h
      · exact .inr (hunkFault_of_patchLines (Except.map_eq_error_iff.1 h))
  | edit path hunks =>
    rw [decide, decideEdit] at h
    split at h
    · cases h
      exact .inl rfl
    · next hholds =>
      obtain ⟨bytes, hbytes⟩ := fileBytes_of_holds hs (by simpa using hholds)
      rw [fileLines, hbytes] at h
      cases hlines : LineSet.ofBytes bytes with
      | error offset =>
        simp only [hlines] at h
        cases h
        exact .inr (.inl ⟨offset, rfl⟩)
      | ok old =>
        simp only [hlines] at h
        exact .inr (.inr (hunkFault_of_patchLines (Except.map_eq_error_iff.1 h)))
  | delete path =>
    rw [decide] at h
    split at h <;> cases h
    rfl
  | move source target =>
    rw [decide, Except.map_eq_error_iff] at h
    exact faults_of_checkMove h
  | duplicate source target =>
    rw [decide] at h
    split at h
    · next hmove =>
      cases h
      exact faults_of_checkMove hmove
    · next hmove =>
      obtain ⟨bytes, hbytes⟩ := fileBytes_of_holds hs (holds_of_checkMove hmove).1
      rw [hbytes] at h
      cases h
  | ignore path hunks => cases h

/-- A stage fails for what it finds. -/
theorem faults_of_run (hσ : Store.Reliable σ) (h : (stage.run s).result = .error f) :
    stage.Faults f := by
  change (carryOut s (stage.decide s)).1 = _ at h
  match hdecision : stage.decide s with
  | .error f' =>
    rw [hdecision] at h
    cases h
    exact faults_of_decide (hσ.honest s) hdecision
  | .ok none =>
    rw [hdecision] at h
    cases h
  | .ok (some e) =>
    have heffect := (effect_of_decide (hσ.honest s) hdecision).1
    rw [hdecision, carryOut_some, hσ.performs s e heffect] at h
    cases h

end Stage

namespace FileChange

variable {features : Features} {c : FileChange} {f : Fault} {path : Path}

/-- Whether the change edits the content of a file. Hunks that come with a move or a copy do so when
that is switched on. -/
def editsContent (features : Features) (c : FileChange) : Bool :=
  match c.kind with
  | .modify => true
  | .rename => features.renameHunks && !c.hunks.isEmpty
  | .copy => features.copyHunks && !c.hunks.isEmpty
  | .add | .delete => false

/-- What is known of a fault with a change that has no defects. It names a hunk of the change, and
it was found in a content only if the change edits one, or makes one and goes beyond its end. -/
structure Accounts (features : Features) (c : FileChange) (f : Fault) : Prop where
  hunk : ∀ i, f.hunk? = some i → i < c.hunks.length
  not_store : ∀ error, f ≠ .store error
  not_defect : ∀ defect, f ≠ .defect defect
  ofContent : f.isOfContent = true → c.editsContent features = true ∨
    c.kind = .add ∧ ∃ i number line length, f = .hunk i (.pastEnd number line length)

theorem accounts_interrupted : c.Accounts features .interrupted := by
  constructor <;> simp [Fault.hunk?, Fault.isOfContent]

private theorem accounts_notFound : c.Accounts features (.notFound path) := by
  constructor <;> simp [Fault.hunk?, Fault.isOfContent]

private theorem accounts_destinationExists : c.Accounts features (.destinationExists path) := by
  constructor <;> simp [Fault.hunk?, Fault.isOfContent]

private theorem accounts_hunkFault (h : HunkFault c.hunks f)
    (hcontent : c.editsContent features = true ∨
      c.kind = .add ∧ ∃ i number line length, f = .hunk i (.pastEnd number line length)) :
    c.Accounts features f := by
  obtain ⟨i, hunk, e, rfl, hget, -⟩ := h
  refine ⟨fun j hj ↦ ?_, by simp, by simp, fun _ ↦ hcontent⟩
  cases hj
  exact (List.getElem?_eq_some_iff.1 hget).1

private theorem accounts_edit (hcontent : c.editsContent features = true)
    (h : (Stage.edit path c.hunks).Faults f) : c.Accounts features f := by
  obtain rfl | ⟨offset, rfl⟩ | hhunk := h
  · exact accounts_notFound
  · exact ⟨by simp [Fault.hunk?], by simp, by simp, fun _ ↦ .inl hcontent⟩
  · exact accounts_hunkFault hhunk (.inl hcontent)

private theorem accounts_move {source target : Path}
    (h : f = .notFound source ∨ f = .destinationExists target) : c.Accounts features f := by
  obtain rfl | rfl := h
  · exact accounts_notFound
  · exact accounts_destinationExists

private theorem accounts_followUp {enabled : Bool} {stage : Stage}
    (hstage : stage ∈ Task.followUp enabled path c.hunks)
    (hcontent : c.editsContent features = (enabled && !c.hunks.isEmpty)) (h : stage.Faults f) :
    c.Accounts features f := by
  rw [Task.followUp] at hstage
  split at hstage
  · cases hstage
  · next hne =>
    split at hstage
    · next henabled =>
      rw [List.mem_singleton.1 hstage] at h
      exact accounts_edit (by simp [hcontent, henabled, hne]) h
    · rw [List.mem_singleton.1 hstage] at h
      exact absurd h id

/-- A change is accountable for what its stages find. -/
theorem accounts_of_faults {task : Task} {stage : Stage} (htask : c.task = .ok task)
    (hstage : stage ∈ task.stages features) (h : stage.Faults f) : c.Accounts features f := by
  obtain ⟨hasks, -⟩ := task_eq_ok_iff.1 htask
  cases task with
  | add path hunks =>
    obtain ⟨hkind, -, rfl, -, hold⟩ := hasks
    rw [List.mem_singleton.1 hstage] at h
    obtain rfl | hhunk := h
    · exact accounts_destinationExists
    · refine accounts_hunkFault hhunk (.inr ⟨hkind, ?_⟩)
      obtain ⟨i, hunk, e, rfl, hget, s, hpatch⟩ := hhunk
      obtain ⟨number, line, length, rfl⟩ :=
        LineSet.exists_pastEnd (hold hunk (List.mem_of_getElem? hget)) hpatch
      exact ⟨i, number, line, length, rfl⟩
  | modify path hunks =>
    obtain ⟨hkind, -, rfl⟩ := hasks
    rw [List.mem_singleton.1 hstage] at h
    exact accounts_edit (by rw [editsContent, hkind]) h
  | delete path =>
    rw [List.mem_singleton.1 hstage] at h
    cases h
    exact accounts_notFound
  | rename source target hunks | copy source target hunks =>
    obtain ⟨hkind, -, -, rfl, -⟩ := hasks
    obtain rfl | hfollow := List.mem_cons.1 hstage
    · exact accounts_move h
    · exact accounts_followUp hfollow (by rw [editsContent, hkind]) h

end FileChange

namespace Document

variable {σ : Type} [Store σ] {features : Features} {stop : Nat → Bool} {d : Document} {s : σ}
  {e : ApplyError}

/-- What is known of an error: it names a change of the document, and a hunk of that change, the
store is not at fault, a document that has been checked has no defects, and what is found in a
content comes from a change that looks at one. -/
structure Accounted (features : Features) (d : Document) (e : ApplyError) : Prop where
  change : d.changes[e.index]? = some e.change
  hunk : ∀ i, e.fault.hunk? = some i → ∃ h, e.change.hunks[i]? = some h ∧ e.hunk? = some h
  not_store : ∀ error, e.fault ≠ .store error
  not_defect : d.check = .ok () → ∀ defect, e.fault ≠ .defect defect
  notText : ∀ offset, e.fault = .notText offset → e.change.editsContent features = true
  mismatch : ∀ i number line actual, e.fault = .hunk i (.mismatch number line actual) →
    e.change.editsContent features = true
  newline : ∀ i missing, e.fault = .hunk i (.newline missing) →
    e.change.editsContent features = true
  pastEnd : ∀ i number line length, e.fault = .hunk i (.pastEnd number line length) →
    e.change.editsContent features = true ∨ e.change.kind = .add

private theorem exists_hunk (hlt : ∀ i, e.fault.hunk? = some i → i < e.change.hunks.length) :
    ∀ i, e.fault.hunk? = some i → ∃ h, e.change.hunks[i]? = some h ∧ e.hunk? = some h := by
  intro i hi
  have hget := List.getElem?_eq_getElem (hlt i hi)
  exact ⟨_, hget, by rw [ApplyError.hunk?, hi, Option.bind_some, hget]⟩

/-- A document that is refused has the defect that is named. -/
private theorem accounted_of_check (h : d.check = .error e) : d.Accounted features e := by
  obtain ⟨hchange, defect, htask, hfault⟩ := defect_of_check_eq_error h
  refine ⟨hchange, exists_hunk fun i hi ↦ ?_, ?_, ?_, ?_, ?_, ?_, ?_⟩
  · rw [hfault] at hi
    exact FileChange.lt_length_of_task_eq_error htask hi
  all_goals simp [hfault, h]

/-- An error of a run is what is known of the fault with its change. -/
private theorem accounted_of_accounts (hchange : d.changes[e.index]? = some e.change)
    (h : e.change.Accounts features e.fault) : d.Accounted features e where
  change := hchange
  hunk := exists_hunk h.hunk
  not_store := h.not_store
  not_defect _ := h.not_defect
  notText offset hfault := by
    simpa [hfault, Fault.isOfContent] using h.ofContent
  mismatch i number line actual hfault := by
    simpa [hfault, Fault.isOfContent] using h.ofContent
  newline i missing hfault := by
    simpa [hfault, Fault.isOfContent] using h.ofContent
  pastEnd i number line length hfault := by
    simpa [hfault, Fault.isOfContent] using h.ofContent

theorem accounted_of_apply (hσ : Store.Reliable σ) (hatomic : Store.Atomic σ)
    (h : (d.apply features stop s).result = .error e) : d.Accounted features e := by
  cases hcheck : d.check with
  | error e' =>
    simp only [apply, hcheck] at h
    cases h
    exact accounted_of_check hcheck
  | ok =>
    obtain ⟨hchange, -, hhalts⟩ := failsAt_of_apply hcheck h
    refine accounted_of_accounts hchange ?_
    generalize (d.apply features stop s).store = s' at hhalts
    cases hhalts with
    | interrupted => exact FileChange.accounts_interrupted
    | fails _ hc =>
      obtain ⟨task, htask⟩ := check_eq_ok_iff.1 hcheck _ (List.mem_of_getElem? hchange)
      obtain ⟨front, stage, hfails, -⟩ := FileChange.failsAt_of_apply hatomic htask hc
      obtain ⟨back, hamong⟩ := hfails.among
      have hstage : stage ∈ task.stages features := by
        rw [hamong]
        exact List.mem_append_right _ List.mem_cons_self
      exact FileChange.accounts_of_faults htask hstage (Stage.faults_of_run hσ hfails.fails)

/-- Every error of a run on a store in memory, or on an overlay of one, is accounted for. -/
theorem accounted (features : Features) (stop : Nat → Bool) (d : Document) (e : ApplyError) :
    (∀ m : Memory, (d.apply features stop m).result = .error e → d.Accounted features e) ∧
      ∀ o : Overlay Memory, (d.apply features stop o).result = .error e →
        d.Accounted features e :=
  ⟨fun _ ↦ accounted_of_apply Memory.reliable Memory.atomic,
    fun _ ↦ accounted_of_apply (Overlay.reliable Memory.honest) Overlay.atomic⟩

/-- A file is moved, and hunks come with the move of which the second does not fit. -/
def misplaced : Document :=
  ⟨[⟨.add, none, some ⟨"b"⟩, []⟩,
    ⟨.rename, some ⟨"a"⟩, some ⟨"c"⟩, [⟨1, 1, [.add "w"]⟩, ⟨2, 2, [.remove "y"]⟩]⟩]⟩

/-- The only line of a new file is not the first. -/
def gapped : Document := ⟨[⟨.add, none, some ⟨"b"⟩, [⟨0, 3, [.add "z"]⟩]⟩]⟩

theorem accounted_misplaced_gapped :
    (∃ e, (misplaced.apply ⟨true, false⟩ never oneLine).result = .error e ∧
      e.fault = .hunk 1 (.mismatch 2 (.remove "y") "x") ∧ e.index = 1 ∧
      e.hunk? = some ⟨2, 2, [.remove "y"]⟩ ∧ misplaced.Accounted ⟨true, false⟩ e) ∧
    ∃ e, (gapped.apply .none never (Overlay.fresh oneLine)).result = .error e ∧
      e.fault = .hunk 0 (.pastEnd 3 (.add "z") 0) ∧ gapped.Accounted .none e :=
  ⟨⟨_, rfl, rfl, rfl, rfl, (accounted _ never misplaced _).1 oneLine rfl⟩,
    ⟨_, rfl, rfl, (accounted _ never gapped _).2 (Overlay.fresh oneLine) rfl⟩⟩

end Document

end Patchwork
