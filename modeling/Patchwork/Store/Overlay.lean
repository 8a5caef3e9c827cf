import Patchwork.PathMap
import Patchwork.Store

/-!
# Edits held back from a store

An overlay answers as its base would after the edits made so far, and never changes the base. It
keeps, for each path that was edited, the content it would have, or that it would be gone.
Specification: `DryRun` in section 6.
-/

namespace Patchwork

/-- A store and the edits held back from it; no content stands for a file taken away. -/
structure Overlay (σ : Type) where
  base : σ
  edits : PathMap (Option ByteArray)

namespace Overlay

variable {σ : Type}

/-- A store with no edits held back. -/
def fresh (base : σ) : Overlay σ := ⟨base, .empty⟩

/-- Records what a path would hold. -/
def record (o : Overlay σ) (p : Path) (content : Option ByteArray) : Overlay σ :=
  { o with edits := o.edits.insert p content }

variable [Store σ]

/-- Whether there would be a file at the path. -/
def holds (o : Overlay σ) (p : Path) : Bool :=
  match o.edits.get? p with
  | some content => content.isSome
  | none => Store.holds o.base p

/-- The content that the path would have. -/
def read (o : Overlay σ) (p : Path) : Except StoreError ByteArray :=
  match o.edits.get? p with
  | some (some content) => .ok content
  | some none => .error ⟨.notFound, p⟩
  | none => Store.read o.base p

/-- Records an edit, unless it could not be made. -/
def perform (o : Overlay σ) : Edit → Except StoreError Unit × Overlay σ
  | .write p content => (.ok (), o.record p (some content))
  | .create p =>
    if o.holds p then (.error ⟨.alreadyExists, p⟩, o)
    else (.ok (), o.record p (some .empty))
  | .delete p =>
    if o.holds p then (.ok (), o.record p none)
    else (.error ⟨.notFound, p⟩, o)
  | .rename source target =>
    if o.holds target then (.error ⟨.alreadyExists, target⟩, o)
    else
      match o.read source with
      | .error e => (.error e, o)
      | .ok content => (.ok (), (o.record target (some content)).record source none)

instance : Store (Overlay σ) where
  holds := holds
  read := read
  perform := perform

/-- No edit reaches the base. -/
@[simp] theorem base_perform (o : Overlay σ) (edit : Edit) : (o.perform edit).2.base = o.base := by
  cases edit <;> simp only [perform] <;> (repeat' split) <;> rfl

end Overlay

end Patchwork
