import Patchwork.Proofs.Store.Simulation

/-!
# The edits asked of a store

A journal is a store that keeps the edits asked of it. It goes on as the store alone would
(`Journal.simulation`), so the edits are those that a run on the store alone makes.
-/

namespace Patchwork

/-- A store and the edits asked of it, in order. -/
structure Journal (σ : Type) where
  store : σ
  edits : List Edit

namespace Journal

variable {σ : Type}

/-- A store of which no edit has been asked. -/
def start (s : σ) : Journal σ := ⟨s, []⟩

variable [Store σ]

instance : Store (Journal σ) where
  holds j := Store.holds j.store
  read j := Store.read j.store
  perform j e := ((Store.perform j.store e).1, ⟨(Store.perform j.store e).2, j.edits ++ [e]⟩)

/-- A journal goes on as its store would. -/
theorem simulation : Simulation fun (j : Journal σ) (s : σ) ↦ j.store = s where
  agreeAt := by
    rintro j _ rfl p
    exact ⟨rfl, rfl⟩
  result_perform := by
    rintro j _ rfl e
    rfl
  store_perform := by
    rintro j _ rfl e
    rfl

end Journal

/-- The edits that applying the document asks of a store. -/
def Document.edits {σ : Type} [Store σ] (features : Features) (stop : Nat → Bool) (d : Document)
    (s : σ) : List Edit :=
  (d.apply features stop (Journal.start s)).store.edits

end Patchwork
