import Patchwork.Proofs.Store.Memory
import Patchwork.Proofs.Store.Simulation
import Patchwork.Store.Overlay

/-!
# An overlay and what it holds back

What an overlay answers is told by the content that each path would have, and an edit does to these
contents what it does to the contents of a store (`Overlay.perform_effect`). So an overlay of a
store in memory and a store with the same contents go on alike, whatever tombstones there are among
the overlay's records (`Overlay.simulation_mirrors`).
-/

namespace Patchwork

namespace Overlay

section Contents

variable {σ : Type} [Store σ]

/-- A path has the recorded content, if there is a record, and the base's otherwise. -/
theorem content?_eq (o : Overlay σ) (p : Path) :
    Store.content? o p = (o.edits.get? p).getD (Store.content? o.base p) := by
  show (o.read p).toOption = _
  rw [read]
  rcases o.edits.get? p with _ | _ | content <;> rfl

/-- An overlay is as honest as its base. -/
theorem honest {o : Overlay σ} (h : Store.Honest o.base) : Store.Honest o := by
  intro p
  rw [content?_eq]
  show o.holds p = _
  rw [holds]
  cases o.edits.get? p with
  | none => exact h p
  | some content => rfl

/-- A recorded path has the recorded content, and every other path the content it had. -/
theorem content?_record (o : Overlay σ) (p : Path) (content : Option ByteArray) :
    Store.content? (o.record p content) = (Store.content? o).set p content := by
  funext q
  rw [content?_eq, record, PathMap.get?_insert, Contents.set, content?_eq]
  split <;> rfl

/-- An overlay would do what the edit comes to. What it says of a file that is to be moved and is
not there is the base's word. -/
theorem perform_effect {o : Overlay σ} (ho : Store.Honest o) {e : Edit}
    (hsource : ∀ source target, e = .rename source target → Store.content? o source = none →
      Store.read o source = .error ⟨.notFound, source⟩) :
    ((o.perform e).1, Store.content? (o.perform e).2) = e.effect (Store.content? o) := by
  have hholds (p : Path) : o.holds p = (Store.content? o p).isSome := ho p
  cases e with
  | write p content => exact Prod.ext rfl (o.content?_record p _)
  | create p =>
    rw [perform, Edit.effect, hholds]
    split
    · rfl
    · exact Prod.ext rfl (o.content?_record p _)
  | delete p =>
    rw [perform, Edit.effect, hholds]
    split
    · exact Prod.ext rfl (o.content?_record p _)
    · rfl
  | rename source target =>
    rw [perform, Edit.effect, hholds]
    split
    · rfl
    · cases hcontent : Store.content? o source with
      | none =>
        have hread : o.read source = .error ⟨.notFound, source⟩ := hsource _ _ rfl hcontent
        rw [hread]
      | some content =>
        have hread : o.read source = .ok content := Store.content?_eq_some_iff.1 hcontent
        have hrecord : Store.content? ((o.record target (some content)).record source none) =
            ((Store.content? o).set target (some content)).set source none := by
          rw [content?_record, content?_record]
        rw [hread]
        exact Prod.ext rfl hrecord

/-- Calls never reach the base. -/
theorem base_callAll (o : Overlay σ) (calls : List Call) :
    (Store.callAll o calls).2.base = o.base := by
  induction calls generalizing o with
  | nil => rfl
  | cons c calls ih =>
    rw [Store.callAll]
    refine (ih _).trans ?_
    cases c with
    | holds p | read p => rfl
    | perform e => exact o.base_perform e

/-- Nothing has been recorded at first. -/
theorem content?_fresh (base : σ) : Store.content? (fresh base) = Store.content? base := by
  funext p
  rw [content?_eq, fresh, PathMap.get?_empty]
  rfl

end Contents

/-- Each path would have the content that it has in the other store. -/
def Mirrors (o : Overlay Memory) (m : Memory) : Prop := Store.content? o = m.get?

private theorem read_eq (o : Overlay Memory) (p : Path) :
    o.read p =
      match Store.content? o p with
      | some content => .ok content
      | none => .error ⟨.notFound, p⟩ := by
  rw [content?_eq, Memory.content?_eq, read]
  rcases o.edits.get? p with _ | _ | content <;> rfl

private theorem Mirrors.perform_eq {o : Overlay Memory} {m : Memory} (h : o.Mirrors m) (e : Edit) :
    ((o.perform e).1, Store.content? (o.perform e).2) =
      ((m.perform e).1, (m.perform e).2.get?) := by
  have heffect := perform_effect (honest (Memory.honest o.base)) (e := e)
    fun source target _ hnone ↦ by
      show o.read source = _
      rw [read_eq, hnone]
  rw [heffect, h, m.perform_effect]

/-- An overlay and a store with the same contents go on alike. -/
theorem simulation_mirrors : Simulation Mirrors where
  agreeAt := by
    intro o m h p
    refine ⟨?_, ?_⟩
    · rw [honest (Memory.honest o.base) p, h]
      rfl
    · show o.read p = m.read p
      have hcontent : Store.content? o p = m.get? p := congrFun h p
      cases hget : m.get? p with
      | none => simp only [read_eq, hcontent, Memory.read, hget]
      | some content => simp only [read_eq, hcontent, Memory.read, hget]
  result_perform h e := congrArg Prod.fst (h.perform_eq e)
  store_perform h e := congrArg Prod.snd (h.perform_eq e)

/-- An overlay of a store in memory answers every call as the store itself would, holds what the
store would hold, and never changes it. So documents are applied to either with the same result. -/
theorem fresh_simulates (m : Memory) :
    (∀ calls : List Call,
      (Store.callAll (fresh m) calls).1 = (Store.callAll m calls).1 ∧
      (∀ p, Store.AgreeAt (Store.callAll (fresh m) calls).2 (Store.callAll m calls).2 p) ∧
      (Store.callAll (fresh m) calls).2.base = m) ∧
    ∀ (features : Features) (stop : Nat → Bool) (d : Document),
      (d.apply features stop (fresh m)).result = (d.apply features stop m).result ∧
      ∀ p, Store.AgreeAt (d.apply features stop (fresh m)).store
        (d.apply features stop m).store p := by
  have hfresh : Mirrors (fresh m) m := (content?_fresh m).trans m.content?_eq
  refine ⟨fun calls ↦ ?_, fun features stop d ↦ ?_⟩
  · obtain ⟨hanswers, hstores⟩ := simulation_mirrors.callAll hfresh calls
    exact ⟨hanswers, simulation_mirrors.agreeAt hstores, base_callAll (fresh m) calls⟩
  · have hagrees := simulation_mirrors.apply hfresh features stop d
    exact ⟨hagrees.result, simulation_mirrors.agreeAt hagrees.store⟩

end Overlay

end Patchwork
