import Patchwork.Proofs.Apply.Congruence
import Patchwork.Proofs.Apply.Decision

/-!
# Stores that behave alike

A `Simulation` relates two kinds of stores: related stores give the same answers, and stay related
under every edit. Whatever is asked of a store (`Simulation.callAll`) and whatever is applied to
it (`Simulation.apply`) then goes alike on a related one.
-/

namespace Patchwork

variable {σ τ : Type} [Store σ] [Store τ]

/-- One call of a store: a question or an edit. -/
inductive Call where
  | holds (path : Path)
  | read (path : Path)
  | perform (edit : Edit)
  deriving DecidableEq

/-- What a call comes back with. -/
inductive Answer where
  | held (found : Bool)
  | content (result : Except StoreError ByteArray)
  | done (result : Except StoreError Unit)

namespace Store

/-- The answer to a call, and the store after it. -/
def call (s : σ) : Call → Answer × σ
  | .holds p => (.held (Store.holds s p), s)
  | .read p => (.content (Store.read s p), s)
  | .perform e => (.done (Store.perform s e).1, (Store.perform s e).2)

/-- The answers to calls in order, and the store after the last. -/
def callAll (s : σ) : List Call → List Answer × σ
  | [] => ([], s)
  | c :: calls =>
    let first := call s c
    let later := callAll first.2 calls
    (first.1 :: later.1, later.2)

end Store

/-- Results and reports are the same, and the stores are related. -/
structure Outcome.Agrees {ε α : Type} (R : σ → τ → Prop) (a : Outcome ε α σ) (b : Outcome ε α τ) :
    Prop where
  result : a.result = b.result
  log : a.log = b.log
  store : R a.store b.store

section Agrees

variable {R : σ → τ → Prop} {s : σ} {t : τ}

/-- A stage goes alike on two stores that hold the same files at its paths, if the edit does that
it decides on. -/
theorem Stage.agrees_run (h : R s t) {stage : Stage}
    (hpaths : ∀ p ∈ stage.paths, Store.SameFileAt s t p)
    (hperform : ∀ e, stage.decide t = .ok (some e) →
      (Store.perform s e).1 = (Store.perform t e).1 ∧
        R (Store.perform s e).2 (Store.perform t e).2) :
    Outcome.Agrees R (stage.run s) (stage.run t) := by
  rw [Stage.run, Stage.run, Stage.decide_congr hpaths]
  cases hdecision : stage.decide t with
  | error f => exact ⟨rfl, rfl, h⟩
  | ok edit? =>
    cases edit? with
    | none => exact ⟨rfl, rfl, h⟩
    | some e =>
      obtain ⟨hresult, hstore⟩ := hperform e hdecision
      rw [Stage.carryOut_some, Stage.carryOut_some, hresult]
      exact ⟨rfl, rfl, hstore⟩

/-- Runs agree where their stages do. -/
theorem Outcome.congruence_agrees {Good : Stage → Prop}
    (hrun : ∀ {s t}, R s t → ∀ stage, Good stage →
      Outcome.Agrees R (stage.run s) (stage.run t)) :
    Congruence R Good fun _ _ a b ↦ Outcome.Agrees R a b where
  stay h x log := ⟨rfl, rfl, h⟩
  andThen := by
    rintro ε α β s t ⟨x, s', log⟩ ⟨_, t', _⟩ f g ⟨rfl, rfl, hstore⟩ hnext
    cases x with
    | error e => exact ⟨rfl, rfl, hstore⟩
    | ok x =>
      obtain ⟨hresult, hlog, hstore'⟩ := hnext x s' t' hstore
      exact ⟨hresult, congrArg (log ++ ·) hlog, hstore'⟩
  mapError h f := ⟨congrArg (Except.mapError f) h.result, h.log, h.store⟩
  run := hrun

end Agrees

/-- Related stores give the same answers, and edits keep them related. -/
structure Simulation (R : σ → τ → Prop) : Prop where
  agreeAt : ∀ {s t}, R s t → ∀ p, Store.AgreeAt s t p
  result_perform : ∀ {s t}, R s t → ∀ e, (Store.perform s e).1 = (Store.perform t e).1
  store_perform : ∀ {s t}, R s t → ∀ e, R (Store.perform s e).2 (Store.perform t e).2

namespace Simulation

variable {R : σ → τ → Prop} {s : σ} {t : τ}

/-- One call. -/
theorem call (hR : Simulation R) (h : R s t) (c : Call) :
    (Store.call s c).1 = (Store.call t c).1 ∧ R (Store.call s c).2 (Store.call t c).2 := by
  cases c with
  | holds p => exact ⟨congrArg Answer.held (hR.agreeAt h p).holds, h⟩
  | read p => exact ⟨congrArg Answer.content (hR.agreeAt h p).read, h⟩
  | perform e => exact ⟨congrArg Answer.done (hR.result_perform h e), hR.store_perform h e⟩

/-- Calls in order. -/
theorem callAll (hR : Simulation R) (h : R s t) (calls : List Call) :
    (Store.callAll s calls).1 = (Store.callAll t calls).1 ∧
      R (Store.callAll s calls).2 (Store.callAll t calls).2 := by
  induction calls generalizing s t with
  | nil => exact ⟨rfl, h⟩
  | cons c calls ih =>
    obtain ⟨hanswer, hstore⟩ := hR.call h c
    obtain ⟨hanswers, hstores⟩ := ih hstore
    rw [Store.callAll, Store.callAll]
    exact ⟨by rw [hanswer, hanswers], hstores⟩

/-- Runs on related stores agree. -/
theorem congruence (hR : Simulation R) :
    Congruence R (fun _ ↦ True) fun _ _ a b ↦ Outcome.Agrees R a b :=
  Outcome.congruence_agrees fun h _ _ ↦
    Stage.agrees_run h (fun p _ ↦ (hR.agreeAt h p).sameFileAt) fun e _ ↦
      ⟨hR.result_perform h e, hR.store_perform h e⟩

/-- A whole document. -/
theorem apply (hR : Simulation R) (h : R s t) (features : Features) (stop : Nat → Bool)
    (d : Document) : Outcome.Agrees R (d.apply features stop s) (d.apply features stop t) :=
  hR.congruence.apply h stop fun _ _ ↦ trivial

end Simulation

end Patchwork
