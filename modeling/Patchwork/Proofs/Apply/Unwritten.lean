import Patchwork.Proofs.Apply.Modification
import Patchwork.Proofs.Hunk.Legible
import Patchwork.Proofs.Store.Memory

/-!
# Modifications after which a file is as it was

A modification may leave its file with the bytes that it had. By sections 3 and 4.3 of the
specification it is not written when lines and the end of the last of them are as they were. Bytes
are not compared, so the file is written again with the same content where its new lines cannot be
told from that (`apply_same_bytes`).
-/

namespace Patchwork

namespace FileChange

variable {features : Features} {c : FileChange} {m : Memory} {p : Path}

/-- A modification that is made and after which the bytes of its file are what they were does not
write the file, and changes nothing at all, exactly when the lines that it has made can be told from
these bytes. Otherwise it writes the file once more, with the content that it had. -/
theorem apply_same_bytes (hkind : c.kind = .modify) (hok : (c.apply features m).result = .ok p) :
    c.newPath = some p ∧ ∃ content old new, m.get? p = some content ∧
      LineSet.ofBytes content = .ok old ∧ old.patchAll 0 c.hunks = .ok new ∧
      (new.bytes = content →
        ((c.apply features m).store.writeCount p = m.writeCount p ↔ new.Legible) ∧
        (c.apply features m).store =
          if new.Legible then m else (m.perform (.write p content)).2) := by
  obtain ⟨hpath, old, new, hlines, hpatch, hstore⟩ := store_apply_modify hkind hok
  obtain ⟨content, hcontent, hread⟩ := Stage.fileLines_eq_ok_iff.1 hlines
  rw [← Store.content?_eq_some_iff, m.content?_eq] at hcontent
  refine ⟨hpath, content, old, new, hcontent, hread, hpatch, fun hbytes ↦ ?_⟩
  have hsame := LineSet.sameContent_iff_legible hread hpatch hbytes
  have hunwritten : (c.apply features m).store =
      if new.Legible then m else (m.perform (.write p content)).2 := by
    rw [hstore, hbytes]
    exact if_congr hsame rfl rfl
  refine ⟨?_, hunwritten⟩
  rw [hunwritten]
  split
  · next hlegible => exact iff_of_true rfl hlegible
  · next hlegible =>
    refine iff_of_false (fun hcount ↦ ?_) hlegible
    rw [Memory.writeCount_perform] at hcount
    simp only [if_pos (Path.Same.refl p)] at hcount
    exact Nat.succ_ne_self _ hcount

section Instance

/-- Hunks of which the first takes a line out and the second puts it back. -/
def restoring : FileChange :=
  modifying [⟨1, 1, [.remove "a", .context "b", .noNewline]⟩,
    ⟨1, 1, [.add "a", .context "b", .noNewline]⟩]

theorem apply_same_bytes_restoring :
    restoring.kind = .modify ∧ (restoring.apply .none (holding "a\nb")).result = .ok ⟨"f"⟩ ∧
      (restoring.apply .none (holding "a\nb")).store = holding "a\nb" := by
  have hok : (restoring.apply .none (holding "a\nb")).result = .ok ⟨"f"⟩ := rfl
  obtain ⟨-, content, old, new, hcontent, hread, hpatch, hsame⟩ := apply_same_bytes rfl hok
  have hheld : (holding "a\nb").get? ⟨"f"⟩ = some "a\nb".toUTF8 := rfl
  cases hheld.symm.trans hcontent
  cases (LineSet.ofBytes_toUTF8 "a\nb").symm.trans hread
  have hmade : (LineSet.ofText "a\nb").patchAll 0 restoring.hunks =
      .ok ⟨["a", "b"], [.lf, .lf], .lf, true⟩ := rfl
  cases hmade.symm.trans hpatch
  exact ⟨rfl, hok, (hsame (by decide)).2.trans (if_pos (by decide))⟩

/-- The hunks are applied to the file, and it is written with the bytes that it had. -/
def Overwrites (text : String) (hunks : List Hunk) : Prop :=
  let made := (modifying hunks).apply .none (holding text)
  made.result = .ok ⟨"f"⟩ ∧ made.store.get? ⟨"f"⟩ = (holding text).get? ⟨"f"⟩ ∧
    (holding text).writeCount ⟨"f"⟩ = 0 ∧ made.store.writeCount ⟨"f"⟩ = 1

instance (text : String) (hunks : List Hunk) : Decidable (Overwrites text hunks) :=
  inferInstanceAs (Decidable (_ ∧ _ ∧ _ ∧ _))

/-- An empty last line that is not ended is not written, and a line that holds a newline is written
as two. -/
theorem overwrites_illegible :
    Overwrites "a\n" [⟨1, 1, [.context "a", .add "", .noNewline]⟩] ∧
      Overwrites "a\nb\n" [⟨1, 1, [.remove "a", .remove "b", .add "a\nb"]⟩] := by
  decide

end Instance

end FileChange

end Patchwork
