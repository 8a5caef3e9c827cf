import Patchwork.Proofs.Apply.Effect
import Patchwork.Proofs.Apply.Touched
import Patchwork.Proofs.Hunk.Resuming

/-!
# One modification in two

Where a file and the hunks for it are free of carriage returns, it makes no difference to the file
whether it is written and read again in between two hunks, unless its last line is empty and without
its newline then: such a line is not written (`Stage.revise_append`). So a modification can be made
in two parts (`Document.apply_inTwo`).
-/

namespace Patchwork

namespace Stage

variable {text : String} {content : ByteArray} {hunks others : List Hunk}

/-- A text is revised to what the hunks' lines are written as. -/
private theorem revise_eq_ok_iff (htext : '\r' ∉ text.toList) (hhunks : ∀ h ∈ hunks, h.Bare) :
    revise text.toUTF8 hunks = .ok content ↔
      ∃ t, (LineSet.ofText text).patchAll 0 hunks = .ok t ∧ t.bytes = content := by
  have hbare := LineSet.Bare.ofText htext
  rw [revise, LineSet.ofBytes_toUTF8]
  dsimp only
  cases hpatch : patchLines (LineSet.ofText text) hunks with
  | error f => simp [← patchLines_eq_ok_iff, hpatch, Except.map]
  | ok t =>
    -- Lines that have stayed the same would be written as the text that they were read from.
    have hwritten : (if t.SameContent (LineSet.ofText text) then text.toUTF8 else t.bytes) =
        t.bytes := by
      split
      · next hsame =>
        have ht := hbare.patchAll hhunks (patchLines_eq_ok_iff.1 hpatch)
        have halike : t.Alike (LineSet.ofText text) :=
          ⟨hsame.1, iff_of_false ht.style hbare.style, fun _ ↦ hsame.2⟩
        rw [LineSet.bytes, ht.text_eq hbare halike, LineSet.text_ofText]
      · rfl
    simp only [← patchLines_eq_ok_iff, hpatch, Except.map, hwritten, Except.ok.injEq,
      exists_eq_left']

/-- Hunks and then others make of a text what the latter make of what the former have written. -/
theorem revise_append (htext : '\r' ∉ text.toList) (hhunks : ∀ h ∈ hunks ++ others, h.Bare)
    (hlast : ∀ mid, (LineSet.ofText text).patchAll 0 hunks = .ok mid →
      mid.missingFinalNewline = true → mid.lines.getLast? ≠ some "") :
    revise text.toUTF8 (hunks ++ others) = .ok content ↔
      ∃ mid, revise text.toUTF8 hunks = .ok mid ∧ revise mid others = .ok content := by
  obtain ⟨hhunks', hothers⟩ := List.forall_mem_append.1 hhunks
  have hresume (mid : LineSet) (hmid : (LineSet.ofText text).patchAll 0 hunks = .ok mid) :
      (∃ t, mid.patchAll (0 + hunks.length) others = .ok t ∧ t.bytes = content) ↔
        revise mid.bytes others = .ok content := by
    have hbare := (LineSet.Bare.ofText htext).patchAll hhunks' hmid
    have hreturn := hbare.return_notMem_text
    rw [LineSet.bytes, revise_eq_ok_iff hreturn hothers]
    exact hbare.exists_patchAll_iff (.ofText hreturn) (hbare.alike_ofText_text (hlast mid hmid))
      hothers _ _
  simp only [revise_eq_ok_iff htext hhunks, revise_eq_ok_iff htext hhunks',
    LineSet.patchAll_append_eq_ok_iff]
  constructor
  · rintro ⟨t, ⟨mid, hmid, ht⟩, hbytes⟩
    exact ⟨mid.bytes, ⟨mid, hmid, rfl⟩, (hresume mid hmid).1 ⟨t, ht, hbytes⟩⟩
  · rintro ⟨_, ⟨mid, hmid, rfl⟩, hrevise⟩
    obtain ⟨t, ht, hbytes⟩ := (hresume mid hmid).2 hrevise
    exact ⟨t, ⟨mid, hmid, ht⟩, hbytes⟩

/-- Only a text can be revised. -/
private theorem exists_text_of_revise {new : ByteArray} (h : revise content hunks = .ok new) :
    ∃ text : String, content = text.toUTF8 := by
  rw [revise, LineSet.ofBytes] at h
  cases hdecode : Text.decode content with
  | error offset =>
    rw [hdecode] at h
    cases h
  | ok text => exact ⟨text, (Text.toByteArray_of_decode hdecode).symm⟩

end Stage

/-- A modification revises the content of its file, if none of its hunks starts too early. -/
private theorem FileChange.effect_modify_iff {features : Features} {f g : Contents}
    {old : Option Path} {p : Path} {hunks : List Hunk} :
    (⟨.modify, old, some p, hunks⟩ : FileChange).effect features f = .ok g ↔
      (∀ h ∈ hunks, h.startsAtZero = false) ∧
        ∃ content new, f p = some content ∧ Stage.revise content hunks = .ok new ∧
          f.set p (some new) = g := by
  have htask (hzero : ∀ h ∈ hunks, h.startsAtZero = false) :
      FileChange.task ⟨.modify, old, some p, hunks⟩ = .ok (.modify p hunks) :=
    task_eq_ok_iff.2 ⟨⟨rfl, rfl, rfl⟩, hzero⟩
  rw [effect_eq_ok_iff, ← Stage.effect_edit_eq_ok_iff]
  constructor
  · rintro ⟨task, hmodify, hstages⟩
    obtain ⟨-, hzero⟩ := task_eq_ok_iff.1 hmodify
    rw [htask hzero] at hmodify
    cases hmodify
    exact ⟨hzero, (Stage.effectAll_singleton f _).symm.trans hstages⟩
  · rintro ⟨hzero, hedit⟩
    exact ⟨_, htask hzero, (Stage.effectAll_singleton f _).trans hedit⟩

namespace Document

variable {features : Features} {m : Memory} {p : Path} {front back : List Hunk}

/-- Where one modification can be made in two. The file and the hunks' texts are free of carriage
returns and no text holds a newline; and the hunks that come first do not leave an empty last line
without its newline. -/
structure Divisible (m : Memory) (p : Path) (front back : List Hunk) : Prop where
  file : ∀ text : String, m.get? p = some text.toUTF8 → '\r' ∉ text.toList
  bare : ∀ h ∈ front ++ back, h.Bare
  last : ∀ (text : String) (mid : LineSet), m.get? p = some text.toUTF8 →
    (LineSet.ofText text).patchAll 0 front = .ok mid →
      mid.missingFinalNewline = true → mid.lines.getLast? ≠ some ""

/-- The document that modifies a file with some hunks, and then with others. -/
def inTwo (old old' : Option Path) (p : Path) (front back : List Hunk) : Document :=
  ⟨[⟨.modify, old, some p, front⟩, ⟨.modify, old', some p, back⟩]⟩

/-- What the two modifications come to is what the one comes to. -/
private theorem effectAll_inTwo_iff (h : Divisible m p front back) (old old' old'' : Option Path)
    {g : Contents} :
    FileChange.effectAll features m.get? [⟨.modify, old, some p, front ++ back⟩] = .ok g ↔
      FileChange.effectAll features m.get? (inTwo old' old'' p front back).changes = .ok g := by
  rw [FileChange.effectAll_singleton, inTwo, FileChange.effectAll_cons_eq_ok_iff]
  simp only [FileChange.effectAll_singleton, FileChange.effect_modify_iff, List.forall_mem_append]
  have hrevise (text : String) (htext : m.get? p = some text.toUTF8) {new : ByteArray} :
      Stage.revise text.toUTF8 (front ++ back) = .ok new ↔
        ∃ mid, Stage.revise text.toUTF8 front = .ok mid ∧ Stage.revise mid back = .ok new :=
    Stage.revise_append (h.file text htext) h.bare fun mid hmid ↦ h.last text mid htext hmid
  constructor
  · rintro ⟨⟨hfront, hback⟩, content, new, hp, hnew, rfl⟩
    obtain ⟨text, rfl⟩ := Stage.exists_text_of_revise hnew
    obtain ⟨mid, hmid, hnew⟩ := (hrevise text hp).1 hnew
    refine ⟨_, ⟨hfront, _, mid, hp, hmid, rfl⟩, hback, mid, new, Contents.set_self _ _ _, hnew, ?_⟩
    exact Contents.set_set _ (Path.Same.refl p) _ _
  · rintro ⟨_, ⟨hfront, content, mid, hp, hmid, rfl⟩, hback, content', new, hp', hnew, rfl⟩
    obtain ⟨text, rfl⟩ := Stage.exists_text_of_revise hmid
    rw [Contents.set_self, Option.some.injEq] at hp'
    subst hp'
    refine ⟨⟨hfront, hback⟩, _, new, hp, (hrevise text hp).2 ⟨mid, hmid, hnew⟩, ?_⟩
    exact (Contents.set_set _ (Path.Same.refl p) _ _).symm

/-- Changes that all touch one path touch nothing else. -/
private theorem touched_of_touchedPath_eq {stop : Nat → Bool} {d : Document} {touched : PathSet}
    (hne : d.changes ≠ []) (hd : ∀ c ∈ d.changes, c.touchedPath = some p)
    (h : (d.apply features stop m).result = .ok touched) : touched = .ofPaths [p] := by
  obtain ⟨paths, hpaths, rfl⟩ := touched_of_apply h
  have hreplicate : paths = List.replicate paths.length p := by
    refine List.eq_replicate_iff.2 ⟨rfl, fun q hq ↦ ?_⟩
    have hmem := List.mem_map_of_mem (f := some) hq
    rw [← hpaths] at hmem
    obtain ⟨c, hc, hq⟩ := List.mem_map.1 hmem
    exact Option.some.inj (hq.symm.trans (hd c hc))
  have hlength : paths.length ≠ 0 := by
    rw [← List.length_map some, ← hpaths, List.length_map]
    exact fun hzero ↦ hne (List.length_eq_zero_iff.1 hzero)
  rw [hreplicate]
  refine PathMap.ext fun key ↦ ?_
  rw [PathSet.getElem?_ofPaths, PathSet.getElem?_ofPaths, List.find?_replicate, if_neg hlength,
    List.find?_singleton]

/-- One modification comes out well when it does so in two parts, and then either way the same is
touched, and what the store has is the same. -/
theorem apply_inTwo (h : Divisible m p front back) (old old' old'' : Option Path) :
    let whole := (⟨[⟨.modify, old, some p, front ++ back⟩]⟩ : Document).apply features never m
    let parts := (inTwo old' old'' p front back).apply features never m
    ((∃ touched, whole.result = .ok touched) ↔ ∃ touched, parts.result = .ok touched) ∧
      ∀ touched, whole.result = .ok touched →
        parts.result = .ok touched ∧ parts.store.get? = whole.store.get? := by
  intro whole parts
  have hsame (g : Contents) : whole.contents = .ok g ↔ parts.contents = .ok g := by
    have hstop (d : Document) : ∀ i < d.changes.length, never i = false := fun _ _ ↦ rfl
    rw [contents_apply_eq_ok_iff (hstop _), contents_apply_eq_ok_iff (hstop _)]
    exact effectAll_inTwo_iff h old old' old''
  simp only [Outcome.contents_eq_ok_iff] at hsame
  refine ⟨⟨fun hwhole ↦ ((hsame _).1 ⟨hwhole, rfl⟩).1, fun hparts ↦ ((hsame _).2 ⟨hparts, rfl⟩).1⟩,
    fun touched hwhole ↦ ?_⟩
  obtain ⟨⟨touched', hparts⟩, hstore⟩ := (hsame _).1 ⟨⟨touched, hwhole⟩, rfl⟩
  have htouched : touched = .ofPaths [p] :=
    touched_of_touchedPath_eq (List.cons_ne_nil _ _) (by simp [FileChange.touchedPath]) hwhole
  have htouched' : touched' = .ofPaths [p] :=
    touched_of_touchedPath_eq (List.cons_ne_nil _ _) (by simp [FileChange.touchedPath]) hparts
  rw [htouched, ← htouched']
  exact ⟨hparts, hstore⟩

section Instance

/-- A store with one file, which has two lines. -/
def twoLines : Memory := .ofList [(⟨"f"⟩, "a\nb".toUTF8)]

/-- A hunk that takes all lines of the file away. -/
def clearing : Hunk := ⟨1, 1, [.remove "a", .remove "b", .noNewline]⟩

/-- A hunk for a file without lines. -/
def refilling : Hunk := ⟨1, 1, [.add "c", .add "d"]⟩

private theorem divisible_clearing : Divisible twoLines ⟨"f"⟩ [clearing] [refilling] := by
  have htext (text : String) (h : twoLines.get? ⟨"f"⟩ = some text.toUTF8) : "a\nb" = text :=
    String.toByteArray_inj.1 (Option.some.inj h)
  refine ⟨fun text h ↦ ?_, by decide, fun text mid h hmid ↦ ?_⟩
  · rw [← htext text h]
    decide
  · rw [← htext text h] at hmid
    have hcleared : (LineSet.ofText "a\nb").patchAll 0 [clearing] = .ok ⟨[], [], .lf, false⟩ := rfl
    rw [hcleared] at hmid
    cases hmid
    decide

theorem apply_inTwo_clearing :
    let whole := (⟨[⟨.modify, none, some ⟨"f"⟩, [clearing, refilling]⟩]⟩ : Document).apply .none
      never twoLines
    let parts := (inTwo none none ⟨"f"⟩ [clearing] [refilling]).apply .none never twoLines
    Divisible twoLines ⟨"f"⟩ [clearing] [refilling] ∧
      whole.result = .ok (.ofPaths [⟨"f"⟩]) ∧ parts.result = .ok (.ofPaths [⟨"f"⟩]) ∧
      whole.store.get? ⟨"f"⟩ = some "c\nd\n".toUTF8 ∧
      parts.store.get? ⟨"f"⟩ = some "c\nd\n".toUTF8 := by
  intro whole parts
  obtain ⟨-, hsame⟩ := @apply_inTwo .none _ _ _ _ divisible_clearing none none none
  have hwhole : whole.result = .ok (.ofPaths [⟨"f"⟩]) := rfl
  have hcontent : whole.store.get? ⟨"f"⟩ = some "c\nd\n".toUTF8 := rfl
  obtain ⟨hparts, hstore⟩ := hsame _ hwhole
  exact ⟨divisible_clearing, hwhole, hparts, hcontent, (congrFun hstore _).trans hcontent⟩

/-- An empty last line without its newline is there for the next hunk, but it is not written. -/
example :
    let behind : Hunk := ⟨3, 3, [.add "", .noNewline]⟩
    let again : Hunk := ⟨3, 3, [.context "", .noNewline]⟩
    let store : Memory := .ofList [(⟨"f"⟩, "a\nb\n".toUTF8)]
    let whole := (⟨[⟨.modify, none, some ⟨"f"⟩, [behind, again]⟩]⟩ : Document).apply .none never
      store
    let parts := (inTwo none none ⟨"f"⟩ [behind] [again]).apply .none never store
    whole.result.toOption.isSome = true ∧ parts.result.toOption.isSome = false := by decide

end Instance

end Document

end Patchwork
