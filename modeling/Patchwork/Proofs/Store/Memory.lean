import Patchwork.Proofs.Store.Contents
import Patchwork.Store.Memory

/-!
# Contents of a store in memory

A store in memory does to its contents what an edit comes to, and nothing else
(`Memory.perform_effect`).
-/

namespace Patchwork

namespace Memory

theorem content?_eq (m : Memory) : Store.content? m = m.get? := by
  funext p
  show (m.read p).toOption = m.get? p
  rw [read]
  cases m.get? p <;> rfl

theorem honest (m : Memory) : Store.Honest m := by
  intro p
  rw [content?_eq]
  rfl

private theorem get?_insert (m : Memory) (p : Path) (content : ByteArray) (writes : PathMap Nat) :
    (⟨m.files.insert p content, writes⟩ : Memory).get? = Contents.set m.get? p (some content) := by
  funext q
  exact m.files.get?_insert p q content

private theorem get?_erase (m : Memory) (p : Path) :
    ({ m with files := m.files.erase p } : Memory).get? = Contents.set m.get? p none := by
  funext q
  exact m.files.get?_erase p q

theorem proper_get? (m : Memory) : Contents.Proper m.get? := fun _ _ h ↦ m.files.get?_congr h

theorem get?_empty : empty.get? = fun _ ↦ none := by
  funext q
  exact PathMap.get?_empty q

/-- A seeded path has its content, and every other path the content it had. -/
theorem get?_seed (m : Memory) (p : Path) (content : ByteArray) :
    (m.seed p content).get? = Contents.set m.get? p (some content) :=
  m.get?_insert p content m.writes

/-- A store in memory does what the edit comes to. -/
theorem perform_effect (m : Memory) (e : Edit) :
    ((m.perform e).1, (m.perform e).2.get?) = e.effect m.get? := by
  have hcontains (p : Path) : m.files.contains p = (m.get? p).isSome := rfl
  cases e with
  | write p content => exact Prod.ext rfl (m.get?_insert p content _)
  | create p =>
    rw [perform, Edit.effect, hcontains]
    split
    · rfl
    · exact Prod.ext rfl (m.get?_insert p .empty _)
  | delete p =>
    rw [perform, Edit.effect, hcontains]
    split
    · exact Prod.ext rfl (m.get?_erase p)
    · rfl
  | rename source target =>
    rw [perform, Edit.effect, hcontains]
    split
    · rfl
    · next htarget =>
      cases hsource : m.get? source with
      | none => rfl
      | some content =>
        have hne : ¬ source.Same target := by
          intro h
          have hsame : m.get? source = m.get? target := m.files.get?_congr h
          rw [← hsame, hsource] at htarget
          exact htarget rfl
        have hmoved := get?_insert { m with files := m.files.erase source } target content m.writes
        rw [get?_erase, Contents.set_set_comm hne] at hmoved
        exact Prod.ext rfl hmoved

/-- A written file has the new content, and every other file the one it had. -/
theorem get?_perform_write (m : Memory) (p : Path) (content : ByteArray) :
    (m.perform (.write p content)).2.get? = Contents.set m.get? p (some content) :=
  congrArg Prod.snd (m.perform_effect (.write p content))

/-- Only a write counts as one. -/
theorem writeCount_perform (m : Memory) (e : Edit) (q : Path) :
    (m.perform e).2.writeCount q =
      match e with
      | .write p _ => if p.Same q then m.writeCount p + 1 else m.writeCount q
      | .create _ | .delete _ | .rename _ _ => m.writeCount q := by
  cases e with
  | write p content =>
    simp only [perform, writeCount, PathMap.get?_insert]
    split <;> rfl
  | create p | delete p =>
    rw [perform]
    split <;> rfl
  | rename source target =>
    rw [perform]
    split
    · rfl
    · cases m.get? source <;> rfl

/-- An edit leaves the paths alone that it is not about, and does not count them as written. -/
theorem perform_of_not_same {m : Memory} {e : Edit} {q : Path} (h : ∀ p ∈ e.paths, ¬ p.Same q) :
    (m.perform e).2.get? q = m.get? q ∧ (m.perform e).2.writeCount q = m.writeCount q := by
  constructor
  · have heffect : (m.perform e).2.get? = (e.effect m.get?).2 :=
      congrArg Prod.snd (m.perform_effect e)
    rw [heffect, Edit.effect_of_not_same h]
  · rw [writeCount_perform]
    cases e with
    | write p content => exact if_neg (h p List.mem_cons_self)
    | create | delete | rename => rfl

end Memory

end Patchwork
