import Patchwork.Apply

/-!
# Runs, change by change

A run makes its changes one after another (`Steps`). It comes out well when all of them are made
(`Document.steps_of_apply`, `Document.apply_of_steps`). A run that fails has made the changes in
front of the one that it names, and ends with what that change left (`Document.failsAt_of_apply`).
-/

namespace Patchwork

variable {σ : Type} [Store σ] {features : Features} {stop : Nat → Bool}

/-- Changes made one after another, each with success: the paths that they touch, and the store
that the last of them leaves. -/
inductive Steps (features : Features) : List FileChange → σ → List Path → σ → Prop
  | nil (s : σ) : Steps features [] s [] s
  | cons {c : FileChange} {changes : List FileChange} {s s' : σ} {path : Path} {paths : List Path}
      (hc : (c.apply features s).result = .ok path)
      (hrest : Steps features changes (c.apply features s).store paths s') :
      Steps features (c :: changes) s (path :: paths) s'

namespace Steps

variable {front back : List FileChange} {s s' s'' : σ} {paths others : List Path}

theorem append (hfront : Steps features front s paths s')
    (hback : Steps features back s' others s'') :
    Steps features (front ++ back) s (paths ++ others) s'' := by
  induction hfront with
  | nil => exact hback
  | cons hc _ ih => exact .cons hc (ih hback)

/-- Making one change. -/
theorem singleton_iff {c : FileChange} :
    Steps features [c] s paths s' ↔
      ∃ path, (c.apply features s).result = .ok path ∧ paths = [path] ∧
        s' = (c.apply features s).store := by
  constructor
  · intro h
    cases h with
    | @cons _ _ _ _ path _ hc hrest =>
      cases hrest
      exact ⟨path, hc, rfl, rfl⟩
  · rintro ⟨path, hc, rfl, rfl⟩
    exact .cons hc (.nil _)

end Steps

/-- How a run that has come to a store ends at a change: it is interrupted there, or the change
fails. -/
inductive Halts (features : Features) (stop : Nat → Bool) (s : σ) : ApplyError → σ → Prop
  | interrupted {index : Nat} {c : FileChange} (hstop : stop index = true) :
      Halts features stop s ⟨index, c, .interrupted⟩ s
  | fails {index : Nat} {c : FileChange} {f : Fault} (hstop : stop index = false)
      (hc : (c.apply features s).result = .error f) :
      Halts features stop s ⟨index, c, f⟩ (c.apply features s).store

namespace Document

/-- The changes in front of index `n`. -/
def upTo (d : Document) (n : Nat) : Document := ⟨d.changes.take n⟩

/-- A document without defects asks for a task in each of its changes. -/
theorem check_eq_ok_iff {d : Document} :
    d.check = .ok () ↔ ∀ c ∈ d.changes, ∃ task, c.task = .ok task := by
  have hfrom (first : Nat) (changes : List FileChange) :
      checkFrom first changes = .ok () ↔ ∀ c ∈ changes, ∃ task, c.task = .ok task := by
    induction changes generalizing first with
    | nil => simp [checkFrom]
    | cons c changes ih =>
      rw [checkFrom, List.forall_mem_cons]
      cases c.task with
      | error defect => simp
      | ok task => simpa using ih (first + 1)
  exact hfrom 0 d.changes

/-- The change that is refused has the defect that is named. -/
theorem defect_of_check_eq_error {d : Document} {e : ApplyError} (h : d.check = .error e) :
    d.changes[e.index]? = some e.change ∧
      ∃ defect, e.change.task = .error defect ∧ e.fault = .defect defect := by
  have hfrom (first : Nat) (changes : List FileChange) (h : checkFrom first changes = .error e) :
      ∃ i, e.index = first + i ∧ changes[i]? = some e.change ∧
        ∃ defect, e.change.task = .error defect ∧ e.fault = .defect defect := by
    induction changes generalizing first with
    | nil => cases h
    | cons c changes ih =>
      rw [checkFrom] at h
      cases htask : c.task with
      | error defect =>
        rw [htask] at h
        cases h
        exact ⟨0, rfl, rfl, defect, htask, rfl⟩
      | ok task =>
        rw [htask] at h
        obtain ⟨i, hindex, hchange, hdefect⟩ := ih (first + 1) h
        exact ⟨i + 1, by omega, by simpa using hchange, hdefect⟩
  obtain ⟨i, hindex, hchange, hdefect⟩ := hfrom 0 d.changes h
  rw [Nat.zero_add] at hindex
  exact ⟨hindex ▸ hchange, hdefect⟩

theorem check_upTo {d : Document} (h : d.check = .ok ()) (n : Nat) : (d.upTo n).check = .ok () :=
  check_eq_ok_iff.2 fun c hc ↦ check_eq_ok_iff.1 h c (List.mem_of_mem_take hc)

section Changes

variable {changes : List FileChange} {s s' : σ} {paths : List Path}

private theorem applyFrom_of_steps (total first : Nat) (h : Steps features changes s paths s')
    (hstop : ∀ i, first ≤ i → i < first + changes.length → stop i = false) :
    (applyFrom features stop total first changes s).result = .ok paths ∧
      (applyFrom features stop total first changes s).store = s' := by
  induction h generalizing first with
  | nil => exact ⟨rfl, rfl⟩
  | @cons c changes s s' path paths hc hrest ih =>
    rw [List.length_cons] at hstop
    have hhere : stop first = false := hstop first (Nat.le_refl first) (by omega)
    have hlater := ih (first + 1) fun i hle hlt ↦ hstop i (by omega) (by omega)
    simp only [applyFrom, hhere, Bool.false_eq_true, if_false, hc, hlater, Except.map, and_self]

private theorem steps_of_applyFrom {total first : Nat}
    (h : (applyFrom features stop total first changes s).result = .ok paths) :
    (∀ i, first ≤ i → i < first + changes.length → stop i = false) ∧
      Steps features changes s paths (applyFrom features stop total first changes s).store := by
  induction changes generalizing first s paths with
  | nil =>
    cases h
    exact ⟨fun i hle hlt ↦ absurd hlt (Nat.not_lt_of_le hle), .nil s⟩
  | cons c changes ih =>
    rw [applyFrom] at h ⊢
    cases hhere : stop first with
    | true => simp [hhere] at h
    | false =>
      cases hc : (c.apply features s).result with
      | error f => simp [hhere, hc] at h
      | ok path =>
        simp only [hhere, hc, Bool.false_eq_true, if_false] at h ⊢
        cases hlater : (applyFrom features stop total (first + 1) changes
          (c.apply features s).store).result with
        | error e =>
          rw [hlater] at h
          cases h
        | ok later =>
          rw [hlater] at h
          cases h
          obtain ⟨hstop, hsteps⟩ := ih hlater
          refine ⟨fun i hle hlt ↦ ?_, .cons hc hsteps⟩
          rw [List.length_cons] at hlt
          obtain rfl | hlt' := Nat.eq_or_lt_of_le hle
          · exact hhere
          · exact hstop i hlt' (by omega)

private theorem exists_halts_of_applyFrom {total first : Nat} {e : ApplyError}
    (h : (applyFrom features stop total first changes s).result = .error e) :
    ∃ front back paths s', changes = front ++ e.change :: back ∧
      e.index = first + front.length ∧ (∀ i, first ≤ i → i < e.index → stop i = false) ∧
      Steps features front s paths s' ∧
      Halts features stop s' e (applyFrom features stop total first changes s).store := by
  induction changes generalizing first s with
  | nil => cases h
  | cons c changes ih =>
    rw [applyFrom] at h ⊢
    -- The run halts at this change, by an interruption or a fault, or at a later one.
    cases hhere : stop first with
    | true =>
      simp only [hhere, if_true] at h ⊢
      cases h
      exact ⟨[], changes, [], s, rfl, rfl, fun i hle hlt ↦ absurd hlt (Nat.not_lt_of_le hle),
        .nil s, .interrupted hhere⟩
    | false =>
      simp only [hhere, Bool.false_eq_true, if_false] at h ⊢
      cases hc : (c.apply features s).result with
      | error f =>
        simp only [hc] at h ⊢
        cases h
        exact ⟨[], changes, [], s, rfl, rfl, fun i hle hlt ↦ absurd hlt (Nat.not_lt_of_le hle),
          .nil s, .fails hhere hc⟩
      | ok path =>
        simp only [hc] at h ⊢
        cases hlater : (applyFrom features stop total (first + 1) changes
          (c.apply features s).store).result with
        | ok later =>
          rw [hlater] at h
          cases h
        | error e' =>
          rw [hlater] at h
          cases h
          obtain ⟨front, back, paths, s', rfl, hindex, hstop, hsteps, hhalts⟩ := ih hlater
          refine ⟨c :: front, back, path :: paths, s', rfl, ?_, fun i hle hlt ↦ ?_,
            .cons hc hsteps, hhalts⟩
          · rw [hindex, List.length_cons]
            omega
          · obtain rfl | hlt' := Nat.eq_or_lt_of_le hle
            · exact hhere
            · exact hstop i hlt' hlt

end Changes

variable {d : Document} {s s' : σ}

/-- A run that comes out well has made every change. -/
theorem steps_of_apply {touched : PathSet} (h : (d.apply features stop s).result = .ok touched) :
    d.check = .ok () ∧ (∀ i < d.changes.length, stop i = false) ∧
      ∃ paths, touched = .ofPaths paths ∧
        Steps features d.changes s paths (d.apply features stop s).store := by
  rw [apply] at h ⊢
  cases hcheck : d.check with
  | error e =>
    simp only [hcheck] at h
    cases h
  | ok =>
    simp only [hcheck] at h ⊢
    cases hresult : (applyFrom features stop d.changes.length 0 d.changes s).result with
    | error e =>
      rw [hresult] at h
      cases h
    | ok paths =>
      rw [hresult] at h
      cases h
      obtain ⟨hstop, hsteps⟩ := steps_of_applyFrom hresult
      exact ⟨trivial, fun i hi ↦ hstop i (Nat.zero_le i) (by omega), paths, rfl, hsteps⟩

/-- A run of which every change can be made comes out well. -/
theorem apply_of_steps {paths : List Path} (hcheck : d.check = .ok ())
    (hstop : ∀ i < d.changes.length, stop i = false) (h : Steps features d.changes s paths s') :
    (d.apply features stop s).result = .ok (.ofPaths paths) ∧
      (d.apply features stop s).store = s' := by
  obtain ⟨hresult, hstore⟩ := applyFrom_of_steps d.changes.length 0 h
    fun i _ hi ↦ hstop i (by omega)
  simp only [apply, hcheck, hresult, hstore, and_self]

/-- Where a run fails: the changes in front of the one that it names alone come out well, and from
there the run halts at that change. -/
structure FailsAt (features : Features) (stop : Nat → Bool) (d : Document) (s : σ)
    (e : ApplyError) : Prop where
  change : d.changes[e.index]? = some e.change
  before : ∃ touched, ((d.upTo e.index).apply features stop s).result = .ok touched
  halts : Halts features stop ((d.upTo e.index).apply features stop s).store e
    (d.apply features stop s).store

/-- A document without defects fails at a change. -/
theorem failsAt_of_apply {e : ApplyError} (hcheck : d.check = .ok ())
    (h : (d.apply features stop s).result = .error e) : d.FailsAt features stop s e := by
  simp only [apply, hcheck] at h
  cases hresult : (applyFrom features stop d.changes.length 0 d.changes s).result with
  | ok paths =>
    rw [hresult] at h
    cases h
  | error e' =>
    rw [hresult] at h
    cases h
    obtain ⟨front, back, paths, s', hchanges, hindex, hstop, hsteps, hhalts⟩ :=
      exists_halts_of_applyFrom hresult
    rw [Nat.zero_add] at hindex
    have hfront : (d.upTo e.index).changes = front := by
      rw [upTo, hchanges, hindex, List.take_left]
    obtain ⟨hbefore, hstore⟩ := apply_of_steps (check_upTo hcheck e.index)
      (fun i hi ↦ hstop i (Nat.zero_le i) (by rwa [hfront, ← hindex] at hi))
      (hfront.symm ▸ hsteps)
    have hleft : (d.apply features stop s).store =
        (applyFrom features stop d.changes.length 0 d.changes s).store := by
      simp only [apply, hcheck, hresult]
    refine ⟨?_, ⟨_, hbefore⟩, ?_⟩
    · rw [hchanges, hindex, List.getElem?_append_right (Nat.le_refl _), Nat.sub_self]
      rfl
    · rw [hstore, hleft]
      exact hhalts

end Document

end Patchwork
