import Patchwork.Apply.Stage
import Patchwork.Proofs.Except
import Patchwork.Proofs.Store.Contents

/-!
# What a stage decides

A stage decides by the files at its own paths (`Stage.decide_congr`). What each kind of stage has
found when it does not refuse is said by one lemma for each, and from these it follows that an edit
that is decided on is one that comes to something (`Stage.effect_of_decide`).
-/

namespace Patchwork

variable {σ τ : Type} [Store σ] [Store τ]

namespace Store

/-- Two stores say the same about a path. -/
structure AgreeAt (s : σ) (t : τ) (p : Path) : Prop where
  holds : Store.holds s p = Store.holds t p
  read : Store.read s p = Store.read t p

/-- Two stores hold the same file at a path, or both hold none. -/
structure SameFileAt (s : σ) (t : τ) (p : Path) : Prop where
  holds : Store.holds s p = Store.holds t p
  read : Store.holds t p = true → Store.read s p = Store.read t p

variable {s : σ} {t : τ} {p : Path}

theorem AgreeAt.sameFileAt (h : AgreeAt s t p) : SameFileAt s t p := ⟨h.holds, fun _ ↦ h.read⟩

/-- Honest stores hold the same file where they have the same content. -/
theorem Honest.sameFileAt (hs : Honest s) (ht : Honest t) (h : content? s p = content? t p) :
    SameFileAt s t p := by
  refine ⟨?_, fun hholds ↦ ?_⟩
  · rw [hs p, ht p, h]
  · rw [ht p, Option.isSome_iff_exists] at hholds
    obtain ⟨content, hcontent⟩ := hholds
    rw [content?_eq_some_iff.1 hcontent, content?_eq_some_iff.1 (h.trans hcontent)]

end Store

namespace Stage

/-- The paths that a stage looks at. -/
def paths : Stage → List Path
  | create p _ | edit p _ | delete p => [p]
  | move source target | duplicate source target => [source, target]
  | ignore _ _ => []

/-- The paths whose files a stage may change. A source that is duplicated is not among them. -/
def written : Stage → List Path
  | create p _ | edit p _ | delete p => [p]
  | move source target => [source, target]
  | duplicate _ target => [target]
  | ignore _ _ => []

theorem written_subset_paths (stage : Stage) : stage.written ⊆ stage.paths := by
  cases stage with
  | duplicate source target => exact List.subset_cons_self source [target]
  | create | edit | delete | move | ignore => exact List.Subset.refl _

variable {s : σ} {t : τ} {stage : Stage}

/-- A file is moved from where there is one to where there is none. -/
theorem holds_of_checkMove {source target : Path}
    (h : checkMove s source target = .ok ()) :
    Store.holds s source = true ∧ Store.holds s target = false := by
  rw [checkMove] at h
  split at h
  · cases h
  · next hsource =>
    split at h
    · cases h
    · next htarget => exact ⟨by simpa using hsource, by simpa using htarget⟩

/-- A stage decides by the files at its paths. -/
theorem decide_congr (h : ∀ p ∈ stage.paths, Store.SameFileAt s t p) :
    stage.decide s = stage.decide t := by
  cases stage with
  | create p hunks =>
    simp only [decide, decideCreate, (h p List.mem_cons_self).holds]
  | edit p hunks =>
    have hp := h p List.mem_cons_self
    rw [decide, decide, decideEdit, decideEdit, hp.holds]
    split
    · rfl
    · next hholds =>
      have hread := hp.read (by simpa using hholds)
      simp only [fileLines, fileBytes, hread]
  | delete p =>
    simp only [decide, (h p List.mem_cons_self).holds]
  | move source target =>
    simp only [decide, checkMove, (h source (by simp [paths])).holds,
      (h target (by simp [paths])).holds]
  | duplicate source target =>
    have hsource := h source (by simp [paths])
    have hcheck : checkMove s source target = checkMove t source target := by
      rw [checkMove, checkMove, hsource.holds, (h target (by simp [paths])).holds]
    rw [decide, decide, hcheck]
    cases hmove : checkMove t source target with
    | error f => rfl
    | ok =>
      simp only [fileBytes, hsource.read (holds_of_checkMove hmove).1]
  | ignore p hunks => rfl

section Found

variable {p source target : Path} {hunks : List Hunk} {edit? : Option Edit}

/-- The lines of a file are read from its content. -/
theorem fileLines_eq_ok_iff {lines : LineSet} :
    fileLines s p = .ok lines ↔
      ∃ content, Store.read s p = .ok content ∧ LineSet.ofBytes content = .ok lines := by
  rw [fileLines, fileBytes]
  cases Store.read s p with
  | error e => simp
  | ok content => cases hread : LineSet.ofBytes content <;> simp [hread]

theorem fileBytes_eq_ok_iff {content : ByteArray} :
    fileBytes s p = .ok content ↔ Store.read s p = .ok content := by
  rw [fileBytes]
  cases Store.read s p <;> simp

theorem patchLines_eq_ok_iff {old new : LineSet} :
    patchLines old hunks = .ok new ↔ old.patchAll 0 hunks = .ok new := by
  rw [patchLines]
  split
  · next result h => rw [h, Except.ok.injEq, Except.ok.injEq]
  · next h => simp [h]

/-- A file is made where there is none, with what its hunks make of nothing. -/
theorem exists_of_decideCreate {e : Edit} (h : decideCreate s p hunks = .ok e) :
    Store.holds s p = false ∧ (e = .create p ∨ ∃ content, e = .write p content) := by
  rw [decideCreate] at h
  split at h
  · cases h
  · next hholds =>
    refine ⟨Bool.eq_false_iff.2 hholds, ?_⟩
    split at h
    · cases h
      exact .inl rfl
    · rw [Except.map_eq_ok_iff] at h
      obtain ⟨lines, -, rfl⟩ := h
      exact .inr ⟨lines.bytes, rfl⟩

/-- A file is edited when its lines can be read and all hunks fit. -/
theorem exists_of_decideEdit (h : decideEdit s p hunks = .ok edit?) :
    Store.holds s p = true ∧ ∃ old new, fileLines s p = .ok old ∧
      old.patchAll 0 hunks = .ok new ∧
      edit? = if new.SameContent old then none else some (.write p new.bytes) := by
  rw [decideEdit] at h
  split at h
  · cases h
  · next hholds =>
    refine ⟨by simpa using hholds, ?_⟩
    split at h
    · cases h
    · next old hold =>
      rw [Except.map_eq_ok_iff] at h
      obtain ⟨new, hnew, hedit⟩ := h
      exact ⟨old, new, hold, patchLines_eq_ok_iff.1 hnew, hedit.symm⟩

/-- A file is taken away when it is there. -/
theorem holds_of_decide_delete (h : (delete p).decide s = .ok edit?) :
    Store.holds s p = true ∧ edit? = some (.delete p) := by
  rw [decide] at h
  split at h
  · next hholds =>
    cases h
    exact ⟨hholds, rfl⟩
  · cases h

/-- A file is moved from where there is one to where there is none. -/
theorem holds_of_decide_move (h : (move source target).decide s = .ok edit?) :
    Store.holds s source = true ∧ Store.holds s target = false ∧
      edit? = some (.rename source target) := by
  rw [decide, Except.map_eq_ok_iff] at h
  obtain ⟨⟨⟩, hmove, hedit⟩ := h
  obtain ⟨hsource, htarget⟩ := holds_of_checkMove hmove
  exact ⟨hsource, htarget, hedit.symm⟩

/-- A file is copied from where there is one to where there is none, as it is read. -/
theorem exists_of_decide_duplicate (h : (duplicate source target).decide s = .ok edit?) :
    Store.holds s source = true ∧ Store.holds s target = false ∧
      ∃ content, Store.read s source = .ok content ∧ edit? = some (.write target content) := by
  rw [decide] at h
  split at h
  · cases h
  · next hmove =>
    obtain ⟨hsource, htarget⟩ := holds_of_checkMove hmove
    rw [Except.map_eq_ok_iff] at h
    obtain ⟨content, hread, hedit⟩ := h
    exact ⟨hsource, htarget, content, fileBytes_eq_ok_iff.1 hread, hedit.symm⟩

end Found

/-- A stage that does not refuse has found a file at each of its paths, or is about to edit it. -/
theorem holds_or_mem_paths_of_decide {edit? : Option Edit} {p : Path}
    (h : stage.decide s = .ok edit?) (hp : p ∈ stage.paths) :
    Store.holds s p = true ∨ ∃ e, edit? = some e ∧ p ∈ e.paths := by
  cases stage with
  | create q hunks =>
    rw [decide, Except.map_eq_ok_iff] at h
    obtain ⟨e, hcreate, hedit⟩ := h
    obtain ⟨-, rfl | ⟨content, rfl⟩⟩ := exists_of_decideCreate hcreate
    · exact .inr ⟨_, hedit.symm, hp⟩
    · exact .inr ⟨_, hedit.symm, hp⟩
  | edit q hunks =>
    rw [List.mem_singleton.1 hp]
    exact .inl (exists_of_decideEdit h).1
  | delete q =>
    rw [List.mem_singleton.1 hp]
    exact .inl (holds_of_decide_delete h).1
  | move source target =>
    exact .inr ⟨_, (holds_of_decide_move h).2.2, hp⟩
  | duplicate source target =>
    obtain ⟨hsource, -, content, -, hedit⟩ := exists_of_decide_duplicate h
    obtain rfl | htarget := List.mem_cons.1 hp
    · exact .inl hsource
    · exact .inr ⟨_, hedit, htarget⟩
  | ignore q hunks => cases hp

/-- An edit that a stage decides on is about the paths that the stage may change. -/
theorem paths_of_decide {e : Edit} (h : stage.decide s = .ok (some e)) :
    e.paths = stage.written := by
  cases stage with
  | create p hunks =>
    rw [decide, Except.map_eq_ok_iff] at h
    obtain ⟨e', hcreate, hedit⟩ := h
    cases hedit
    obtain ⟨-, rfl | ⟨content, rfl⟩⟩ := exists_of_decideCreate hcreate <;> rfl
  | edit p hunks =>
    obtain ⟨-, old, new, -, -, hedit⟩ := exists_of_decideEdit h
    split at hedit <;> cases hedit
    rfl
  | delete p =>
    cases (holds_of_decide_delete h).2
    rfl
  | move source target =>
    cases (holds_of_decide_move h).2.2
    rfl
  | duplicate source target =>
    obtain ⟨-, -, content, -, hedit⟩ := exists_of_decide_duplicate h
    cases hedit
    rfl
  | ignore p hunks => cases h

/-- The content of a file that is not there. -/
private theorem content?_of_not_holds (hs : Store.Honest s) {p : Path}
    (h : Store.holds s p = false) : Store.content? s p = none := by
  rw [hs p, Option.isSome_eq_false_iff, Option.isNone_iff_eq_none] at h
  exact h

private theorem isSome_content?_of_holds (hs : Store.Honest s) {p : Path}
    (h : Store.holds s p = true) : (Store.content? s p).isSome = true := by
  rwa [hs p] at h

/-- An edit that a stage of an honest store decides on comes to something, and it is about the paths
that the stage may change. -/
theorem effect_of_decide (hs : Store.Honest s) {e : Edit} (h : stage.decide s = .ok (some e)) :
    (e.effect (Store.content? s)).1 = .ok () ∧ e.paths = stage.written := by
  refine ⟨?_, paths_of_decide h⟩
  cases stage with
  | create p hunks =>
    rw [decide, Except.map_eq_ok_iff] at h
    obtain ⟨e', hcreate, hedit⟩ := h
    cases hedit
    obtain ⟨hholds, rfl | ⟨content, rfl⟩⟩ := exists_of_decideCreate hcreate
    · rw [Edit.effect, content?_of_not_holds hs hholds]
      rfl
    · rfl
  | edit p hunks =>
    obtain ⟨-, old, new, -, -, hedit⟩ := exists_of_decideEdit h
    split at hedit <;> cases hedit
    rfl
  | delete p =>
    obtain ⟨hholds, hedit⟩ := holds_of_decide_delete h
    cases hedit
    rw [Edit.effect, isSome_content?_of_holds hs hholds]
    rfl
  | move source target =>
    obtain ⟨hsource, htarget, hedit⟩ := holds_of_decide_move h
    cases hedit
    obtain ⟨content, hcontent⟩ := Option.isSome_iff_exists.1 (isSome_content?_of_holds hs hsource)
    rw [Edit.effect, content?_of_not_holds hs htarget, hcontent]
    rfl
  | duplicate source target =>
    obtain ⟨-, -, content, -, hedit⟩ := exists_of_decide_duplicate h
    cases hedit
    rfl
  | ignore p hunks => cases h

/-- An edit that was decided on is made, and the stage fails if it does. -/
theorem carryOut_some (s : σ) (e : Edit) :
    carryOut s (.ok (some e)) =
      ((Store.perform s e).1.mapError Fault.store, (Store.perform s e).2) := by
  rw [carryOut]
  rcases Store.perform s e with ⟨_ | _, s'⟩ <;> rfl

end Stage

end Patchwork
