import Patchwork.Proofs.Apply.Touched
import Patchwork.Store.Memory

/-!
# One document after another

Applying the changes of two documents in a row comes to applying the first document and then, to
what it left, the second (`Document.apply_append`). What the second says of a change differs only in
the change's index.
-/

namespace Patchwork

namespace PathMap

variable {V : Type}

/-- Two maps as one. A path that both have is as in the first. -/
def union (m m' : PathMap V) : PathMap V := ⟨m'.entries ∪ m.entries⟩

end PathMap

namespace PathSet

/-- The set of some paths and then others is that of the former with that of the latter. -/
theorem ofPaths_append (paths others : List Path) :
    ofPaths (paths ++ others) = (ofPaths paths).union (ofPaths others) := by
  refine PathMap.ext fun key ↦ ?_
  rw [PathMap.union, Std.ExtTreeMap.getElem?_union, getElem?_ofPaths, getElem?_ofPaths,
    getElem?_ofPaths, List.find?_append, Option.map_or]

end PathSet

/-- The same error, where `n` changes more come before. -/
def ApplyError.behind (e : ApplyError) (n : Nat) : ApplyError := { e with index := e.index + n }

/-- The changes of one document and then those of another. -/
instance : Append Document := ⟨fun d d' ↦ ⟨d.changes ++ d'.changes⟩⟩

namespace Document

theorem changes_append (d d' : Document) : (d ++ d').changes = d.changes ++ d'.changes := rfl

section Check

private theorem checkFrom_append (first : Nat) (front back : List FileChange) :
    checkFrom first (front ++ back) =
      (checkFrom first front).bind fun () ↦ checkFrom (first + front.length) back := by
  induction front generalizing first with
  | nil => rfl
  | cons c front ih =>
    rw [List.cons_append, checkFrom, checkFrom]
    cases c.task with
    | error defect => rfl
    | ok task => simp only [ih, List.length_cons, Nat.add_assoc, Nat.add_comm 1]

private theorem checkFrom_add (first n : Nat) (changes : List FileChange) :
    checkFrom (first + n) changes = (checkFrom first changes).mapError (·.behind n) := by
  induction changes generalizing first with
  | nil => rfl
  | cons c changes ih =>
    rw [checkFrom, checkFrom]
    cases c.task with
    | error defect => rfl
    | ok task => rw [← ih, Nat.add_right_comm]

/-- Two documents have the defects of the first, and those of the second behind it. -/
theorem check_append (d d' : Document) :
    (d ++ d').check = d.check.bind fun () ↦ d'.check.mapError (·.behind d.changes.length) := by
  rw [check, changes_append, checkFrom_append, checkFrom_add]
  rfl

end Check

variable {σ : Type} [Store σ]

/-- Changes behind others are made in the store that those leave, if they are all made. -/
theorem applyFrom_append (features : Features) (stop : Nat → Bool) (total first : Nat)
    (front back : List FileChange) (s : σ) :
    applyFrom features stop total first (front ++ back) s =
      (applyFrom features stop total first front s).andThen fun paths s' ↦
        (applyFrom features stop total (first + front.length) back s').andThen fun others s'' ↦
          ⟨.ok (paths ++ others), s'', []⟩ := by
  induction front generalizing first s with
  | nil => simp [applyFrom]
  | cons c front ih =>
    rw [List.cons_append, applyFrom_cons, applyFrom_cons]
    split
    · rfl
    · simp only [Outcome.andThen_assoc, Outcome.ok_andThen, ih, List.length_cons,
        List.cons_append, Nat.add_assoc, Nat.add_comm 1]

/-- Where counting starts tells the indices of the changes, and nothing else. -/
theorem applyFrom_add (features : Features) (stop : Nat → Bool) (total total' first n : Nat)
    (changes : List FileChange) (s : σ) :
    let later := applyFrom features stop total (first + n) changes s
    let sooner := applyFrom features (fun i ↦ stop (i + n)) total' first changes s
    later.result = sooner.result.mapError (·.behind n) ∧ later.store = sooner.store := by
  induction changes generalizing first s with
  | nil => exact ⟨rfl, rfl⟩
  | cons c changes ih =>
    simp only [applyFrom]
    split
    · exact ⟨rfl, rfl⟩
    · cases (c.apply features s).result with
      | error f => exact ⟨rfl, rfl⟩
      | ok path =>
        obtain ⟨hresult, hstore⟩ := ih (first + 1) (c.apply features s).store
        rw [Nat.add_right_comm] at hresult hstore
        simp only [hresult, hstore, and_true]
        cases (applyFrom features (fun i ↦ stop (i + n)) total' (first + 1) changes
          (c.apply features s).store).result <;> rfl

section Documents

variable {d d' : Document} {s : σ}

/-- A document without defects is applied as its changes are made. -/
private theorem apply_of_check (hcheck : d.check = .ok ()) (features : Features)
    (stop : Nat → Bool) (s : σ) (total : Nat) :
    let done := applyFrom features stop total 0 d.changes s
    (d.apply features stop s).result = done.result.map .ofPaths ∧
      (d.apply features stop s).store = done.store := by
  obtain ⟨hresult, hstore⟩ := applyFrom_add features stop d.changes.length total 0 0
    d.changes s
  simp only [Nat.add_zero] at hresult hstore
  simp only [apply, hcheck, hresult, hstore]
  cases (applyFrom features stop total 0 d.changes s).result <;> exact ⟨rfl, rfl⟩

theorem check_append_eq_ok (h : d.check = .ok ()) (h' : d'.check = .ok ()) :
    (d ++ d').check = .ok () := by
  rw [check_append, h, h']
  rfl

theorem exists_check_append_eq_error
    (h : (∃ e, d.check = .error e) ∨ (∃ e, d'.check = .error e)) :
    ∃ e, (d ++ d').check = .error e := by
  rw [check_append]
  cases hcheck : d.check with
  | error e => exact ⟨e, rfl⟩
  | ok =>
    obtain ⟨e, he⟩ | ⟨e, he⟩ := h
    · rw [hcheck] at he
      cases he
    · rw [he]
      exact ⟨_, rfl⟩

/-- Where the first of two documents fails, the second has no part in it. Otherwise the second is
applied to what the first left. -/
theorem apply_append_of_check (hcheck : d.check = .ok ()) (hcheck' : d'.check = .ok ())
    (features : Features) (stop : Nat → Bool) (s : σ) :
    let first := d.apply features stop s
    let second := d'.apply features (fun i ↦ stop (i + d.changes.length)) first.store
    let whole := (d ++ d').apply features stop s
    match first.result with
    | .error e => whole.result = .error e ∧ whole.store = first.store
    | .ok touched =>
      whole.result = (second.result.map touched.union).mapError (·.behind d.changes.length) ∧
        whole.store = second.store := by
  obtain ⟨hwhole, hwhole'⟩ := apply_of_check (check_append_eq_ok hcheck hcheck') features stop s 0
  obtain ⟨hfirst, hfirst'⟩ := apply_of_check hcheck features stop s 0
  rw [changes_append, applyFrom_append] at hwhole hwhole'
  simp only [hwhole, hwhole', hfirst, hfirst']
  cases hresult : (applyFrom features stop 0 0 d.changes s).result with
  | error e => simp only [Outcome.andThen, hresult, Except.map, and_self]
  | ok paths =>
    obtain ⟨hsecond, hsecond'⟩ := apply_of_check hcheck' features
      (fun i ↦ stop (i + d.changes.length)) (applyFrom features stop 0 0 d.changes s).store 0
    obtain ⟨hlater, hlater'⟩ := applyFrom_add features stop 0 0 0 d.changes.length
      d'.changes (applyFrom features stop 0 0 d.changes s).store
    simp only [Outcome.andThen, hresult, Except.map, hsecond, hsecond', hlater, hlater']
    cases (applyFrom features (fun i ↦ stop (i + d.changes.length)) 0 0 d'.changes
      (applyFrom features stop 0 0 d.changes s).store).result with
    | error e => exact ⟨rfl, rfl⟩
    | ok others => exact ⟨congrArg Except.ok (PathSet.ofPaths_append paths others), rfl⟩

end Documents

/-- Two documents in a row come to the first and then, in the store that it leaves, the second. If
the first fails, so does the whole, in the same way. If the second fails, so does the whole, and the
changes of the first count for the index. If neither does, the whole touches what either touches. If
either has a defect, nothing is done. -/
theorem apply_append (features : Features) (stop : Nat → Bool) (d d' : Document) (s : σ) :
    let first := d.apply features stop s
    let second := d'.apply features (fun i ↦ stop (i + d.changes.length)) first.store
    let whole := (d ++ d').apply features stop s
    (d.check = .ok () → d'.check = .ok () →
      (∀ e, first.result = .error e → whole.result = .error e ∧ whole.store = first.store) ∧
      ∀ touched, first.result = .ok touched →
        whole.store = second.store ∧
        (∀ touched', second.result = .ok touched' → whole.result = .ok (touched.union touched')) ∧
        ∀ e, second.result = .error e → whole.result = .error (e.behind d.changes.length)) ∧
    ((∃ e, d.check = .error e) ∨ (∃ e, d'.check = .error e) →
      (∃ e, whole.result = .error e) ∧ whole.store = s) := by
  refine ⟨fun hcheck hcheck' ↦ ?_, fun hdefect ↦ ?_⟩
  · have hwhole := apply_append_of_check hcheck hcheck' features stop s
    refine ⟨fun e he ↦ ?_, fun touched htouched ↦ ?_⟩
    · simpa only [he] using hwhole
    · simp only [htouched] at hwhole
      obtain ⟨hresult, hstore⟩ := hwhole
      refine ⟨hstore, fun touched' h ↦ ?_, fun e h ↦ ?_⟩
      · rw [hresult, h]
        rfl
      · rw [hresult, h]
        rfl
  · obtain ⟨e, he⟩ := exists_check_append_eq_error hdefect
    exact ⟨⟨e, by rw [apply, he]⟩, store_apply_of_check_error he⟩

section Instance

/-- A file is moved. -/
def moving : Document := ⟨[⟨.rename, some ⟨"a"⟩, some ⟨"b"⟩, []⟩]⟩

/-- The moved file is copied. -/
def copying : Document := ⟨[⟨.copy, some ⟨"b"⟩, some ⟨"c"⟩, []⟩]⟩

/-- A file is copied, and one that was moved away is looked for. -/
def missing : Document := ⟨copying.changes ++ [⟨.delete, some ⟨"a"⟩, none, []⟩]⟩

theorem apply_append_moving :
    let m := Memory.empty.seed ⟨"a"⟩ "x\n".toUTF8
    let moved := (moving.apply .none never m).store
    let failure (index : Nat) : ApplyError :=
      ⟨index, ⟨.delete, some ⟨"a"⟩, none, []⟩, .notFound ⟨"a"⟩⟩
    moving.check = .ok () ∧ copying.check = .ok () ∧ missing.check = .ok () ∧
      (moving.apply .none never m).result = .ok (.ofPaths [⟨"b"⟩]) ∧
      (missing.apply .none never moved).result = .error (failure 1) ∧
      ((moving ++ copying).apply .none never m).result =
        .ok ((PathSet.ofPaths [⟨"b"⟩]).union (PathSet.ofPaths [⟨"c"⟩])) ∧
      ((moving ++ missing).apply .none never m).result = .error (failure 2) ∧
      ((moving ++ missing).apply .none never m).store =
        (missing.apply .none never moved).store := by
  intro m moved failure
  have hmoved : (moving.apply .none never m).result = .ok (.ofPaths [⟨"b"⟩]) := rfl
  have hmissing : (missing.apply .none never moved).result = .error (failure 1) := rfl
  obtain ⟨-, hcopied, -⟩ := ((apply_append .none never moving copying m).1 rfl rfl).2 _ hmoved
  obtain ⟨hstore, -, hfailed⟩ := ((apply_append .none never moving missing m).1 rfl rfl).2 _ hmoved
  exact ⟨rfl, rfl, rfl, hmoved, hmissing, hcopied _ rfl, hfailed _ hmissing, hstore⟩

end Instance

end Document

end Patchwork
