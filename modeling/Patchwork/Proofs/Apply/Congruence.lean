import Patchwork.Apply

/-!
# Comparing runs on two stores

Applying a document touches the store in its stages only; the rest puts the outcomes of stages
together. A `Congruence` is a relation between outcomes on two stores that holds for single stages
and follows the way they are put together, so that it holds for whole documents
(`Congruence.apply`).
-/

namespace Patchwork

namespace Outcome

variable {ε ε' α β γ σ : Type}

/-- Goes on from a success with its value and the store it left. -/
def andThen (a : Outcome ε α σ) (next : α → σ → Outcome ε β σ) : Outcome ε β σ :=
  match a.result with
  | .error e => ⟨.error e, a.store, a.log⟩
  | .ok x => { next x a.store with log := a.log ++ (next x a.store).log }

/-- The outcome with another account of what went wrong. -/
def mapError (f : ε → ε') (a : Outcome ε α σ) : Outcome ε' α σ :=
  ⟨a.result.mapError f, a.store, a.log⟩

/-- Nothing but going on. -/
@[simp] theorem ok_andThen (x : α) (s : σ) (next : α → σ → Outcome ε β σ) :
    andThen ⟨.ok x, s, []⟩ next = next x s := rfl

/-- Going on without doing anything. -/
@[simp] theorem andThen_ok (a : Outcome ε α σ) : a.andThen (fun x s ↦ ⟨.ok x, s, []⟩) = a := by
  obtain ⟨result, s, log⟩ := a
  cases result with
  | error e => rfl
  | ok x => simp [andThen]

theorem andThen_assoc (a : Outcome ε α σ) (next : α → σ → Outcome ε β σ)
    (last : β → σ → Outcome ε γ σ) :
    (a.andThen next).andThen last = a.andThen fun x s ↦ (next x s).andThen last := by
  obtain ⟨result, s, log⟩ := a
  cases result with
  | error e => rfl
  | ok x =>
    simp only [andThen]
    cases (next x s).result <;> simp

end Outcome

namespace FileChange

/-- The stages in which a change is made; none when it is not well formed. -/
def stages (features : Features) (c : FileChange) : List Stage :=
  match c.task with
  | .error _ => []
  | .ok task => task.stages features

end FileChange

/-- The stages in which the changes of a document are made. -/
def Document.stages (features : Features) (d : Document) : List Stage :=
  d.changes.flatMap (FileChange.stages features)

section Sequence

variable {σ : Type} [Store σ]

private theorem runAll_cons (s : σ) (stage : Stage) (stages : List Stage) :
    Stage.runAll s (stage :: stages) =
      (stage.run s).andThen fun _ s' ↦ Stage.runAll s' stages := by
  rw [Stage.runAll, Outcome.andThen]
  cases (stage.run s).result <;> rfl

private theorem apply_of_task_eq_ok {c : FileChange} {task : Task} (h : c.task = .ok task)
    (features : Features) (s : σ) :
    c.apply features s =
      (Stage.runAll s (task.stages features)).andThen fun _ s' ↦ ⟨.ok task.path, s', []⟩ := by
  simp only [FileChange.apply, h, Outcome.andThen, List.append_nil]
  cases hresult : (Stage.runAll s (task.stages features)).result <;> rfl

/-- Making one change and then the others. -/
theorem Document.applyFrom_cons (features : Features) (stop : Nat → Bool) (total first : Nat)
    (c : FileChange) (changes : List FileChange) (s : σ) :
    Document.applyFrom features stop total first (c :: changes) s =
      if stop first then ⟨.error ⟨first, c, .interrupted⟩, s, []⟩
      else
        Outcome.andThen ⟨.ok (), s, [.applying c.kind c.reportedPath first total]⟩ fun _ s₁ ↦
          ((c.apply features s₁).mapError (⟨first, c, ·⟩)).andThen fun path s₂ ↦
            (Document.applyFrom features stop total (first + 1) changes s₂).andThen fun paths s₃ ↦
              ⟨.ok (path :: paths), s₃, []⟩ := by
  rw [Document.applyFrom]
  split
  · rfl
  · simp only [Outcome.andThen, Outcome.mapError]
    cases (c.apply features s).result with
    | error f => rfl
    | ok path =>
      have hpath : Except.mapError (ApplyError.mk first c ·) (.ok path) = .ok path := rfl
      simp only [hpath]
      cases (Document.applyFrom features stop total (first + 1) changes
        (c.apply features s).store).result <;> simp [Except.map]

private theorem apply_of_check_eq_ok {d : Document} (h : d.check = .ok ()) (features : Features)
    (stop : Nat → Bool) (s : σ) :
    d.apply features stop s =
      (Document.applyFrom features stop d.changes.length 0 d.changes s).andThen fun paths s' ↦
        ⟨.ok (.ofPaths paths), s', [.applied d.changes.length]⟩ := by
  simp only [Document.apply, h, Outcome.andThen]
  cases (Document.applyFrom features stop d.changes.length 0 d.changes s).result <;> rfl

end Sequence

variable {σ τ : Type} [Store σ] [Store τ]

/-- A relation between outcomes on two stores, by the stores they started from. It holds where
nothing happens to related stores and for stages of a kind, and it follows sequences of outcomes
and other accounts of what went wrong. -/
structure Congruence (R : σ → τ → Prop) (Good : Stage → Prop)
    (Rel : ∀ {ε α : Type}, σ → τ → Outcome ε α σ → Outcome ε α τ → Prop) : Prop where
  stay : ∀ {ε α : Type} {s t}, R s t → ∀ (x : Except ε α) log, Rel s t ⟨x, s, log⟩ ⟨x, t, log⟩
  andThen : ∀ {ε α β : Type} {s t} {a : Outcome ε α σ} {b : Outcome ε α τ}
    {f : α → σ → Outcome ε β σ} {g : α → τ → Outcome ε β τ}, Rel s t a b →
      (∀ x s' t', R s' t' → Rel s' t' (f x s') (g x t')) → Rel s t (a.andThen f) (b.andThen g)
  mapError : ∀ {ε ε' α : Type} {s t} {a : Outcome ε α σ} {b : Outcome ε α τ}, Rel s t a b →
    ∀ f : ε → ε', Rel s t (a.mapError f) (b.mapError f)
  run : ∀ {s t}, R s t → ∀ stage, Good stage → Rel s t (stage.run s) (stage.run t)

namespace Congruence

variable {R : σ → τ → Prop} {Good : Stage → Prop}
  {Rel : ∀ {ε α : Type}, σ → τ → Outcome ε α σ → Outcome ε α τ → Prop} {s : σ} {t : τ}

/-- Stages in order. -/
theorem runAll (hR : Congruence R Good Rel) (h : R s t) {stages : List Stage}
    (hstages : ∀ stage ∈ stages, Good stage) :
    Rel s t (Stage.runAll s stages) (Stage.runAll t stages) := by
  induction stages generalizing s t with
  | nil => exact hR.stay h _ _
  | cons stage stages ih =>
    rw [runAll_cons, runAll_cons]
    refine hR.andThen (hR.run h stage (hstages stage List.mem_cons_self)) fun _ s' t' h' ↦ ?_
    exact ih h' fun other hother ↦ hstages other (List.mem_cons_of_mem stage hother)

/-- One change. -/
theorem applyChange (hR : Congruence R Good Rel) (h : R s t) {features : Features}
    {c : FileChange} (hc : ∀ stage ∈ c.stages features, Good stage) :
    Rel s t (c.apply features s) (c.apply features t) := by
  cases htask : c.task with
  | error d =>
    simp only [FileChange.apply, htask]
    exact hR.stay h _ _
  | ok task =>
    rw [apply_of_task_eq_ok htask, apply_of_task_eq_ok htask]
    simp only [FileChange.stages, htask] at hc
    exact hR.andThen (hR.runAll h hc) fun _ s' t' h' ↦ hR.stay h' _ _

/-- Changes in order. -/
theorem applyFrom (hR : Congruence R Good Rel) (h : R s t) {features : Features}
    (stop : Nat → Bool) (total first : Nat) {changes : List FileChange}
    (hchanges : ∀ c ∈ changes, ∀ stage ∈ c.stages features, Good stage) :
    Rel s t (Document.applyFrom features stop total first changes s)
      (Document.applyFrom features stop total first changes t) := by
  induction changes generalizing first s t with
  | nil => exact hR.stay h _ _
  | cons c changes ih =>
    have hrest := fun other hother ↦ hchanges other (List.mem_cons_of_mem c hother)
    rw [Document.applyFrom_cons, Document.applyFrom_cons]
    split
    · exact hR.stay h _ _
    · refine hR.andThen (hR.stay h _ _) fun _ s₁ t₁ h₁ ↦ ?_
      have hc := hR.applyChange h₁ (hchanges c List.mem_cons_self)
      refine hR.andThen (hR.mapError hc _) fun path s₂ t₂ h₂ ↦ ?_
      exact hR.andThen (ih h₂ (first + 1) hrest) fun paths s₃ t₃ h₃ ↦ hR.stay h₃ _ _

/-- A whole document. -/
theorem apply (hR : Congruence R Good Rel) (h : R s t) {features : Features} (stop : Nat → Bool)
    {d : Document} (hd : ∀ stage ∈ d.stages features, Good stage) :
    Rel s t (d.apply features stop s) (d.apply features stop t) := by
  have hchanges : ∀ c ∈ d.changes, ∀ stage ∈ c.stages features, Good stage :=
    fun c hc stage hstage ↦ hd stage (List.mem_flatMap.2 ⟨c, hc, hstage⟩)
  cases hcheck : d.check with
  | error e =>
    simp only [Document.apply, hcheck]
    exact hR.stay h _ _
  | ok =>
    rw [apply_of_check_eq_ok hcheck, apply_of_check_eq_ok hcheck]
    exact hR.andThen (hR.applyFrom h stop _ 0 hchanges) fun paths s' t' h' ↦ hR.stay h' _ _

end Congruence

section Keeps

variable {P : σ → σ → Prop}

/-- Two runs on one store are one run, so what all stages keep is compared with the start. -/
private theorem congruence_of_keeps (hrefl : ∀ s, P s s)
    (htrans : ∀ {s s' s''}, P s s' → P s' s'' → P s s'') :
    Congruence (σ := σ) (τ := σ) Eq (fun stage ↦ ∀ s, P s (stage.run s).store)
      fun s _ a b ↦ a = b ∧ P s a.store where
  stay h x log := by
    subst h
    exact ⟨rfl, hrefl _⟩
  andThen {_ _ _ s t a b f g} h hnext := by
    obtain ⟨rfl, ha⟩ := h
    have hfg : f = g := funext fun x ↦ funext fun s' ↦ (hnext x s' s' rfl).1
    refine ⟨by rw [hfg], ?_⟩
    rw [Outcome.andThen]
    split
    · exact ha
    · next x _ => exact htrans ha (hnext x a.store a.store rfl).2
  mapError h f := by
    obtain ⟨rfl, ha⟩ := h
    exact ⟨rfl, ha⟩
  run h stage hstage := by
    subst h
    exact ⟨rfl, hstage _⟩

/-- What every stage of a change keeps of a store is kept when the change is made. -/
theorem FileChange.keeps_apply (hrefl : ∀ s, P s s)
    (htrans : ∀ {s s' s''}, P s s' → P s' s'' → P s s'') {features : Features} {c : FileChange}
    (hc : ∀ stage ∈ c.stages features, ∀ s, P s (stage.run s).store) (s : σ) :
    P s (c.apply features s).store :=
  ((congruence_of_keeps hrefl htrans).applyChange rfl hc).2

/-- What every stage of a document keeps of a store is kept by a run, however it comes out. -/
theorem Document.keeps_apply (hrefl : ∀ s, P s s)
    (htrans : ∀ {s s' s''}, P s s' → P s' s'' → P s s'') {features : Features} {d : Document}
    (hd : ∀ stage ∈ d.stages features, ∀ s, P s (stage.run s).store) (stop : Nat → Bool) (s : σ) :
    P s (d.apply features stop s).store :=
  ((congruence_of_keeps hrefl htrans).apply rfl stop hd).2

end Keeps

end Patchwork
