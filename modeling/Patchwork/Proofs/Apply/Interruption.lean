import Patchwork.Proofs.Apply.Composition

/-!
# Interrupted runs

A run that is interrupted when `n` changes have been made is the run of these changes, and no more
of the document (`Document.apply_after`). So it does not matter what the changes behind them would
have come to, and an interruption that comes too late is none. Specification: Cancellation in
section 4.3.
-/

namespace Patchwork.Document

variable {σ : Type} [Store σ] {features : Features} {stop stop' : Nat → Bool} {d : Document} {s : σ}

/-- The changes from index `n` on. -/
def beyond (d : Document) (n : Nat) : Document := ⟨d.changes.drop n⟩

theorem upTo_append_beyond (d : Document) (n : Nat) : d.upTo n ++ d.beyond n = d :=
  congrArg mk (List.take_append_drop n d.changes)

theorem check_beyond (h : d.check = .ok ()) (n : Nat) : (d.beyond n).check = .ok () :=
  check_eq_ok_iff.2 fun c hc ↦ check_eq_ok_iff.1 h c (List.mem_of_mem_drop hc)

private theorem applyFrom_congr_stop (features : Features) (total first : Nat)
    {changes : List FileChange}
    (h : ∀ i, first ≤ i → i < first + changes.length → stop i = stop' i) (s : σ) :
    applyFrom features stop total first changes s =
      applyFrom features stop' total first changes s := by
  induction changes generalizing first s with
  | nil => rfl
  | cons c changes ih =>
    rw [List.length_cons] at h
    have hlater (s' : σ) := ih (first + 1) (fun i hle hlt ↦ h i (by omega) (by omega)) s'
    simp only [applyFrom, h first (Nat.le_refl first) (by omega), hlater]

/-- It does not matter if a run would be interrupted when it is over. -/
theorem apply_congr_stop (h : ∀ i < d.changes.length, stop i = stop' i) (s : σ) :
    d.apply features stop s = d.apply features stop' s := by
  have hchanges : applyFrom features stop d.changes.length 0 d.changes s =
      applyFrom features stop' d.changes.length 0 d.changes s :=
    applyFrom_congr_stop features d.changes.length 0 (fun i _ hi ↦ h i (by omega)) s
  simp only [apply, hchanges]

theorem apply_after_of_length_le {n : Nat} (h : d.changes.length ≤ n) (s : σ) :
    d.apply features (after n) s = d.apply features never s :=
  apply_congr_stop (fun i hi ↦ decide_eq_false (by omega)) s

/-- A run that is interrupted at once. -/
theorem apply_of_stop_zero (hcheck : d.check = .ok ()) {c : FileChange} {changes : List FileChange}
    (hchanges : d.changes = c :: changes) (features : Features) (stop : Nat → Bool)
    (hstop : stop 0 = true) (s : σ) :
    (d.apply features stop s).result = .error ⟨0, c, .interrupted⟩ ∧
      (d.apply features stop s).store = s := by
  simp only [apply, hcheck, hchanges, applyFrom, hstop, if_true, and_self]

section Prefix

variable {n : Nat} {e : ApplyError}

theorem length_upTo (d : Document) (n : Nat) : (d.upTo n).changes.length = min n d.changes.length :=
  List.length_take

theorem length_beyond (d : Document) (n : Nat) :
    (d.beyond n).changes.length = d.changes.length - n :=
  List.length_drop

/-- A run fails at one of the document's changes. -/
theorem index_lt_of_apply (hcheck : d.check = .ok ())
    (h : (d.apply features stop s).result = .error e) : e.index < d.changes.length :=
  (List.getElem?_eq_some_iff.1 (failsAt_of_apply hcheck h).change).1

/-- Where the changes in front of an index fail, so does the document. -/
theorem apply_of_upTo_eq_error (hcheck : d.check = .ok ())
    (h : ((d.upTo n).apply features stop s).result = .error e) :
    (d.apply features stop s).result = .error e ∧
      (d.apply features stop s).store = ((d.upTo n).apply features stop s).store ∧ e.index < n := by
  have hwhole := apply_append_of_check (check_upTo hcheck n) (check_beyond hcheck n) features
    stop s
  rw [upTo_append_beyond] at hwhole
  simp only [h] at hwhole
  have hlt := index_lt_of_apply (check_upTo hcheck n) h
  rw [length_upTo] at hlt
  exact ⟨hwhole.1, hwhole.2, by omega⟩

/-- Where the changes in front of an index are all made, the document goes on from there. -/
theorem apply_of_upTo_eq_ok (hcheck : d.check = .ok ()) {touched : PathSet}
    (h : ((d.upTo n).apply features stop s).result = .ok touched) :
    let rest := (d.beyond n).apply features (fun i ↦ stop (i + (d.upTo n).changes.length))
      ((d.upTo n).apply features stop s).store
    (d.apply features stop s).result =
        (rest.result.map touched.union).mapError (·.behind (d.upTo n).changes.length) ∧
      (d.apply features stop s).store = rest.store := by
  have hwhole := apply_append_of_check (check_upTo hcheck n) (check_beyond hcheck n) features
    stop s
  rw [upTo_append_beyond] at hwhole
  simpa only [h] using hwhole

/-- Where the document fails in front of an index, so do the changes in front of it. -/
theorem upTo_eq_error_of_apply (hcheck : d.check = .ok ())
    (h : (d.apply features stop s).result = .error e) (hlt : e.index < n) :
    ((d.upTo n).apply features stop s).result = .error e := by
  cases hfront : ((d.upTo n).apply features stop s).result with
  | error e' =>
    obtain ⟨hresult, -, -⟩ := apply_of_upTo_eq_error hcheck hfront
    exact hresult.symm.trans h
  | ok touched =>
    obtain ⟨hresult, -⟩ := apply_of_upTo_eq_ok hcheck hfront
    rw [h] at hresult
    -- The failure is one of the changes from the index on, and its own index tells so.
    cases hrest : ((d.beyond n).apply features (fun i ↦ stop (i + (d.upTo n).changes.length))
      ((d.upTo n).apply features stop s).store).result with
    | ok touched' =>
      rw [hrest] at hresult
      cases hresult
    | error e' =>
      rw [hrest] at hresult
      obtain rfl : e = e'.behind (d.upTo n).changes.length := Except.error.inj hresult
      have hlt' := index_lt_of_apply (check_beyond hcheck n) hrest
      rw [length_beyond] at hlt'
      rw [ApplyError.behind, length_upTo] at hlt
      dsimp only at hlt
      omega

/-- Changes in front of an index do not notice an interruption at it. -/
theorem apply_upTo_after (d : Document) (n : Nat) (s : σ) :
    (d.upTo n).apply features (after n) s = (d.upTo n).apply features never s :=
  apply_after_of_length_le (length_upTo d n ▸ Nat.min_le_left n d.changes.length) s

/-- Where a change in front of the cut fails, it fails as if there were no cut. -/
theorem apply_after_of_error (hcheck : d.check = .ok ())
    (h : (d.apply features never s).result = .error e) (hlt : e.index < n) :
    (d.apply features (after n) s).result = .error e ∧
      (d.apply features (after n) s).store = (d.apply features never s).store := by
  have hfront := upTo_eq_error_of_apply hcheck h hlt
  obtain ⟨-, hwhole, -⟩ := apply_of_upTo_eq_error hcheck hfront
  rw [← apply_upTo_after] at hfront
  obtain ⟨hresult, hcut, -⟩ := apply_of_upTo_eq_error hcheck hfront
  rw [hcut, hwhole, apply_upTo_after]
  exact ⟨hresult, rfl⟩

/-- Where no change in front of the cut fails, the run ends there and has made all of them. -/
theorem apply_after_of_lt (hcheck : d.check = .ok ())
    (h : ∀ e, (d.apply features never s).result = .error e → n ≤ e.index)
    (hn : n < d.changes.length) :
    (d.apply features (after n) s).result = .error ⟨n, d.changes[n], .interrupted⟩ ∧
      (d.apply features (after n) s).store = ((d.upTo n).apply features never s).store ∧
      ∃ touched, ((d.upTo n).apply features never s).result = .ok touched := by
  cases hfront : ((d.upTo n).apply features never s).result with
  | error e =>
    obtain ⟨hwhole, -, hlt⟩ := apply_of_upTo_eq_error hcheck hfront
    exact absurd (h e hwhole) (Nat.not_le_of_lt hlt)
  | ok touched =>
    have hlength : (d.upTo n).changes.length = n := by
      rw [length_upTo, Nat.min_eq_left (Nat.le_of_lt hn)]
    obtain ⟨hresult, hstore⟩ :=
      apply_of_upTo_eq_ok hcheck (apply_upTo_after d n s ▸ hfront)
    rw [apply_upTo_after] at hresult hstore
    -- What is left of the document starts at the cut.
    obtain ⟨hhalt, hkept⟩ := apply_of_stop_zero (check_beyond hcheck n)
      (List.drop_eq_getElem_cons hn) features
      (fun i ↦ after n (i + (d.upTo n).changes.length)) (by simp [after, hlength])
      ((d.upTo n).apply features never s).store
    rw [hresult, hstore, hhalt, hkept, hlength]
    refine ⟨?_, rfl, touched, rfl⟩
    show Except.error (ApplyError.mk (0 + n) _ _) = _
    rw [Nat.zero_add]

end Prefix

/-- An interruption when `n` changes have been made is a clean cut. A change that fails in front of
it fails as it would without. Otherwise, if there is more to do, the run ends at index `n`, and the
store is what the first `n` changes alone make of it. If there is not, nothing is interrupted. A
document with a defect is refused at once. The interrupt is polled once before each change, so it is
poll number `n`, counted from zero, that fires first. -/
theorem apply_after (features : Features) (d : Document) (n : Nat) (s : σ) :
    let whole := d.apply features never s
    let cut := d.apply features (after n) s
    let front := (d.upTo n).apply features never s
    (∀ e, d.check = .error e → cut.result = .error e ∧ cut.store = s) ∧
      (d.check = .ok () →
        (∀ e, whole.result = .error e → e.index < n →
          cut.result = .error e ∧ cut.store = whole.store) ∧
        ((∀ e, whole.result = .error e → n ≤ e.index) → ∀ hn : n < d.changes.length,
          cut.result = .error ⟨n, d.changes[n], .interrupted⟩ ∧ cut.store = front.store ∧
            ∃ touched, front.result = .ok touched) ∧
        (d.changes.length ≤ n → cut = whole)) := by
  refine ⟨fun e he ↦ ⟨by simp only [apply, he], store_apply_of_check_error he⟩, fun hcheck ↦ ?_⟩
  exact ⟨fun e ↦ apply_after_of_error hcheck, apply_after_of_lt hcheck,
    fun hle ↦ apply_after_of_length_le hle s⟩

section Instance

/-- A file is made and then moved, and then the moved file is looked for where it was. -/
def makeAndMove : Document :=
  ⟨[⟨.add, none, some ⟨"a"⟩, []⟩, ⟨.rename, some ⟨"a"⟩, some ⟨"b"⟩, []⟩,
    ⟨.delete, some ⟨"a"⟩, none, []⟩]⟩

theorem apply_after_makeAndMove :
    let run (stop : Nat → Bool) := makeAndMove.apply .none stop Memory.empty
    let failure : ApplyError := ⟨2, ⟨.delete, some ⟨"a"⟩, none, []⟩, .notFound ⟨"a"⟩⟩
    let cut : ApplyError :=
      ⟨1, ⟨.rename, some ⟨"a"⟩, some ⟨"b"⟩, []⟩, .interrupted⟩
    makeAndMove.check = .ok () ∧ (run never).result = .error failure ∧
      (run (after 3)).result = .error failure ∧ (run (after 1)).result = .error cut ∧
      (run (after 1)).store = ((makeAndMove.upTo 1).apply .none never Memory.empty).store := by
  intro run failure cut
  have hrun : (run never).result = .error failure := rfl
  have hlate : ∀ e, (run never).result = .error e → 1 ≤ e.index := by
    intro e he
    cases hrun.symm.trans he
    decide
  obtain ⟨hfails, -, -⟩ := (apply_after .none makeAndMove 3 Memory.empty).2 rfl
  obtain ⟨-, hcut, -⟩ := (apply_after .none makeAndMove 1 Memory.empty).2 rfl
  obtain ⟨hresult, hstore, -⟩ := hcut hlate (by decide)
  exact ⟨rfl, hrun, (hfails failure hrun (by decide)).1, hresult, hstore⟩

end Instance

end Patchwork.Document
