import Patchwork.Store

/-!
# What edits do to contents

A store is observed through the content at each path. Where a store is honest about what it holds,
an edit can be described by what it does to the contents alone (`Edit.effect`).
-/

namespace Patchwork

/-- The content at each path; none where there is no file. -/
abbrev Contents := Path → Option ByteArray

namespace Contents

/-- One path has another content, under whatever spelling. -/
def set (f : Contents) (p : Path) (content : Option ByteArray) : Contents :=
  fun q ↦ if p.Same q then content else f q

@[simp] theorem set_self (f : Contents) (p : Path) (content : Option ByteArray) :
    f.set p content p = content := if_pos (Path.Same.refl p)

theorem set_of_same (f : Contents) {p q : Path} (h : p.Same q) (content : Option ByteArray) :
    f.set p content q = content := if_pos h

theorem set_of_not_same (f : Contents) {p q : Path} (h : ¬ p.Same q) (content : Option ByteArray) :
    f.set p content q = f q := if_neg h

/-- Of two settings of one path the later counts. -/
theorem set_set (f : Contents) {p q : Path} (h : p.Same q) (content other : Option ByteArray) :
    (f.set p content).set q other = f.set q other := by
  funext r
  simp only [set]
  by_cases hq : q.Same r
  · rw [if_pos hq, if_pos hq]
  · rw [if_neg hq, if_neg hq, if_neg fun hp ↦ hq (h.symm.trans hp)]

/-- Settings of different paths can trade places. -/
theorem set_set_comm {f : Contents} {p q : Path} (h : ¬ p.Same q)
    (content other : Option ByteArray) :
    (f.set p content).set q other = (f.set q other).set p content := by
  funext r
  simp only [set]
  by_cases hp : p.Same r
  · have hq : ¬ q.Same r := fun hq ↦ h (hp.trans hq.symm)
    rw [if_neg hq, if_pos hp, if_pos hp]
  · rw [if_neg hp, if_neg hp]

theorem set_congr {f g : Contents} {q : Path} (p : Path) (content : Option ByteArray)
    (h : f q = g q) : f.set p content q = g.set p content q := by
  rw [set, set, h]

/-- Spellings of one path have one content. -/
def Proper (f : Contents) : Prop := ∀ p q : Path, p.Same q → f p = f q

/-- Setting a path to what it has changes nothing. -/
theorem Proper.set_eq_self {f : Contents} (hf : f.Proper) {p : Path} {content : Option ByteArray}
    (h : f p = content) : f.set p content = f := by
  funext q
  by_cases hq : p.Same q
  · rw [set_of_same f hq, ← h, hf p q hq]
  · exact set_of_not_same f hq content

end Contents

namespace Store

variable {σ : Type} [Store σ]

/-- What reading gives, whatever the reason when it gives nothing. -/
def content? (s : σ) : Contents := fun p ↦ (Store.read s p).toOption

/-- The store says that it holds a file exactly when the file can be read. -/
def Honest (s : σ) : Prop := ∀ p, Store.holds s p = (content? s p).isSome

theorem content?_eq_some_iff {s : σ} {p : Path} {content : ByteArray} :
    content? s p = some content ↔ Store.read s p = .ok content := by
  rw [content?]
  cases Store.read s p with
  | error e => simp [Except.toOption]
  | ok found => simp [Except.toOption]

end Store

namespace Edit

/-- The paths that an edit is about. -/
def paths : Edit → List Path
  | .write p _ | .create p | .delete p => [p]
  | .rename source target => [source, target]

/-- What an edit comes to in a store known by its contents. -/
def effect (f : Contents) : Edit → Except StoreError Unit × Contents
  | .write p content => (.ok (), f.set p (some content))
  | .create p =>
    if (f p).isSome then (.error ⟨.alreadyExists, p⟩, f) else (.ok (), f.set p (some .empty))
  | .delete p => if (f p).isSome then (.ok (), f.set p none) else (.error ⟨.notFound, p⟩, f)
  | .rename source target =>
    if (f target).isSome then (.error ⟨.alreadyExists, target⟩, f)
    else
      match f source with
      | none => (.error ⟨.notFound, source⟩, f)
      | some content => (.ok (), (f.set target (some content)).set source none)

/-- What an edit comes to is told by the contents at its paths, and it leaves other paths alone. -/
theorem effect_congr {f g : Contents} {e : Edit} (h : ∀ p ∈ e.paths, f p = g p) :
    (e.effect f).1 = (e.effect g).1 ∧
      ∀ q, f q = g q → (e.effect f).2 q = (e.effect g).2 q := by
  cases e with
  | write p content => exact ⟨rfl, fun q hq ↦ Contents.set_congr p _ hq⟩
  | create p =>
    rw [effect, effect, h p List.mem_cons_self]
    split
    · exact ⟨rfl, fun q hq ↦ hq⟩
    · exact ⟨rfl, fun q hq ↦ Contents.set_congr p _ hq⟩
  | delete p =>
    rw [effect, effect, h p List.mem_cons_self]
    split
    · exact ⟨rfl, fun q hq ↦ Contents.set_congr p _ hq⟩
    · exact ⟨rfl, fun q hq ↦ hq⟩
  | rename source target =>
    have htarget : f target = g target := h target (List.mem_cons_of_mem _ List.mem_cons_self)
    rw [effect, effect, h source List.mem_cons_self, htarget]
    split
    · exact ⟨rfl, fun q hq ↦ hq⟩
    · cases g source with
      | none => exact ⟨rfl, fun q hq ↦ hq⟩
      | some content =>
        refine ⟨rfl, fun q hq ↦ ?_⟩
        exact Contents.set_congr source none (Contents.set_congr target _ hq)

/-- An edit leaves the paths alone that it is not about. -/
theorem effect_of_not_same {f : Contents} {e : Edit} {q : Path} (h : ∀ p ∈ e.paths, ¬ p.Same q) :
    (e.effect f).2 q = f q := by
  cases e with
  | write p content => exact f.set_of_not_same (h p List.mem_cons_self) _
  | create p =>
    rw [effect]
    split
    · rfl
    · exact f.set_of_not_same (h p List.mem_cons_self) _
  | delete p =>
    rw [effect]
    split
    · exact f.set_of_not_same (h p List.mem_cons_self) _
    · rfl
  | rename source target =>
    have hsource := h source List.mem_cons_self
    have htarget := h target (List.mem_cons_of_mem source List.mem_cons_self)
    rw [effect]
    split
    · rfl
    · cases f source with
      | none => rfl
      | some content =>
        exact (Contents.set_of_not_same _ hsource _).trans (f.set_of_not_same htarget _)

end Edit

end Patchwork
