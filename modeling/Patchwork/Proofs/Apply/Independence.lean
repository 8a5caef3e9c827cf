import Mathlib.Data.List.Perm.Basic
import Patchwork.Proofs.Apply.Frame
import Patchwork.Proofs.Store.Simulation

/-!
# Independent changes

A change goes by the files at the paths that it names, and leaves all others alone. So changes that
have no path in common each do what they would do alone (`Steps.merges`), and the order in which
they are made does not matter (`Document.apply_perm`).
-/

namespace Patchwork

namespace PathSet

/-- Of different paths in a list, the first that stands for given components is the only one. -/
private theorem find?_eq_some_iff {paths : List Path} (h : paths.Pairwise (¬ ·.Same ·))
    {key : List Component} {p : Path} :
    paths.find? (·.components = key) = some p ↔ p ∈ paths ∧ p.components = key := by
  induction paths with
  | nil => simp
  | cons first paths ih =>
    obtain ⟨hfirst, hrest⟩ := List.pairwise_cons.1 h
    rw [List.find?_cons, List.mem_cons]
    by_cases hkey : first.components = key
    · simp only [hkey, decide_true, Option.some.injEq]
      constructor
      · rintro rfl
        exact ⟨.inl rfl, hkey⟩
      · rintro ⟨rfl | hp, hcomponents⟩
        · rfl
        · exact absurd (hkey.trans hcomponents.symm) (hfirst p hp)
    · simp only [hkey, decide_false, ih hrest]
      constructor
      · rintro ⟨hp, hcomponents⟩
        exact ⟨.inr hp, hcomponents⟩
      · rintro ⟨rfl | hp, hcomponents⟩
        · exact absurd hcomponents hkey
        · exact ⟨hp, hcomponents⟩

/-- The order of different paths does not matter to the set of them. -/
theorem ofPaths_perm {paths others : List Path} (hperm : paths.Perm others)
    (h : paths.Pairwise (¬ ·.Same ·)) : ofPaths paths = ofPaths others := by
  have hothers : others.Pairwise (¬ ·.Same ·) :=
    hperm.pairwise h fun hne hsame ↦ hne hsame.symm
  refine PathMap.ext fun key ↦ ?_
  rw [getElem?_ofPaths, getElem?_ofPaths]
  congr 1
  ext p
  rw [find?_eq_some_iff h, find?_eq_some_iff hothers, hperm.mem_iff]

end PathSet

namespace Memory

/-- Two stores are the same at certain paths. -/
def SameOn (P : Path → Prop) (m m' : Memory) : Prop := ∀ p, P p → SameAt p m m'

/-- An edit comes to the same in stores that are the same at its paths, and where stores are the
same they stay so. -/
theorem perform_congr {m m' : Memory} {e : Edit} (h : ∀ p ∈ e.paths, SameAt p m m') :
    (m.perform e).1 = (m'.perform e).1 ∧
      ∀ q, SameAt q m m' → SameAt q (m.perform e).2 (m'.perform e).2 := by
  have heffect := Edit.effect_congr (f := m.get?) (g := m'.get?) fun p hp ↦ (h p hp).content.symm
  simp only [← perform_effect] at heffect
  refine ⟨heffect.1, fun q hq ↦ ⟨(heffect.2 q hq.content.symm).symm, ?_⟩⟩
  rw [writeCount_perform, writeCount_perform]
  cases e with
  | write p content =>
    dsimp only
    rw [(h p List.mem_cons_self).writes, hq.writes]
  | create | delete | rename => exact hq.writes

/-- Runs that look at certain paths only go alike in stores that are the same there. -/
theorem congruence_sameOn (P : Path → Prop) :
    Congruence (SameOn P) (fun stage ↦ ∀ p ∈ stage.paths, P p) fun _ _ a b ↦
      Outcome.Agrees (SameOn P) a b := by
  refine Outcome.congruence_agrees fun {m m'} h stage hstage ↦ ?_
  refine Stage.agrees_run h (fun p hp ↦ ?_) fun e he ↦ ?_
  · refine m.honest.sameFileAt m'.honest ?_
    rw [content?_eq, content?_eq, (h p (hstage p hp)).content]
  · have hsame : ∀ p ∈ e.paths, SameAt p m m' := by
      rw [(Stage.effect_of_decide m'.honest he).2]
      exact fun p hp ↦ h p (hstage p (stage.written_subset_paths hp))
    obtain ⟨hresult, hstore⟩ := perform_congr hsame
    exact ⟨hresult, fun p hp ↦ hstore p (h p hp)⟩

end Memory

namespace FileChange

/-- The path is one that the change names, under whatever spelling. -/
def Names (c : FileChange) (p : Path) : Prop := ∃ q ∈ c.named, q.Same p

variable {c c' : FileChange} {m m' : Memory} {p : Path}

/-- A change goes by the files at the paths that it names. -/
theorem apply_congr (features : Features) (h : ∀ p ∈ c.named, Memory.SameAt p m m') :
    (c.apply features m).result = (c.apply features m').result ∧
      ∀ p, Memory.SameAt p m m' →
        Memory.SameAt p (c.apply features m).store (c.apply features m').store := by
  -- What the stores have in common at first they have in common after every stage.
  have hcommon : Memory.SameOn (fun p ↦ Memory.SameAt p m m') m m' := fun p hp ↦ hp
  have hstages : ∀ stage ∈ c.stages features, ∀ p ∈ stage.paths, Memory.SameAt p m m' :=
    fun stage hstage p hp ↦ h p (paths_subset_named hstage hp)
  have hagrees := (Memory.congruence_sameOn _).applyChange hcommon hstages
  exact ⟨hagrees.result, hagrees.store⟩

/-- A change leaves the files alone that it does not name. -/
theorem sameAt_apply (features : Features) (h : ¬ c.Names p) (m : Memory) :
    Memory.SameAt p m (c.apply features m).store := by
  refine keeps_apply (.refl p) .trans (fun stage hstage m ↦ ?_) m
  refine Memory.sameAt_run (fun q hq hsame ↦ h ⟨q, ?_, hsame⟩) m
  exact paths_subset_named hstage (stage.written_subset_paths hq)

/-- The changes name no path in common. -/
def Independent (c c' : FileChange) : Prop := ∀ p ∈ c.named, ∀ q ∈ c'.named, ¬ p.Same q

instance (c c' : FileChange) : Decidable (c.Independent c') :=
  inferInstanceAs (Decidable (∀ p ∈ c.named, ∀ q ∈ c'.named, ¬ p.Same q))

namespace Independent

theorem symm (h : c.Independent c') : c'.Independent c :=
  fun p hp q hq hsame ↦ h q hq p hp hsame.symm

theorem not_names (h : c.Independent c') (hp : c'.Names p) : ¬ c.Names p := by
  obtain ⟨q, hq, hsame⟩ := hp
  rintro ⟨r, hr, hsame'⟩
  exact h r hr q hq (hsame'.trans hsame.symm)

/-- A change does behind an independent one what it does without it. -/
theorem apply_behind (h : c.Independent c') (features : Features) (m : Memory) :
    (c'.apply features m).result = (c'.apply features (c.apply features m).store).result ∧
      ∀ p, c'.Names p → Memory.SameAt p (c'.apply features m).store
        (c'.apply features (c.apply features m).store).store := by
  have hkept (p : Path) (hp : c'.Names p) : Memory.SameAt p m (c.apply features m).store :=
    sameAt_apply features (h.not_names hp) m
  obtain ⟨hresult, hstore⟩ := apply_congr features fun p hp ↦ hkept p ⟨p, hp, .refl p⟩
  exact ⟨hresult, fun p hp ↦ hstore p (hkept p hp)⟩

end Independent

end FileChange

/-- What changes of a store come to when each does what it would do alone: every one of them can be
made in the store, and another store is at the paths that a change names what it would be behind
this change, and is else the same. -/
structure Merges (features : Features) (changes : List FileChange) (m m' : Memory) : Prop where
  made : ∀ c ∈ changes, ∃ path, (c.apply features m).result = .ok path
  named : ∀ c ∈ changes, ∀ p, c.Names p → Memory.SameAt p (c.apply features m).store m'
  others : ∀ p, (∀ c ∈ changes, ¬ c.Names p) → Memory.SameAt p m m'

section Merges

variable {features : Features} {changes changes' : List FileChange} {m m' m'' : Memory}
  {paths : List Path}

theorem Merges.perm (h : Merges features changes m m') (hperm : changes.Perm changes') :
    Merges features changes' m m' where
  made c hc := h.made c (hperm.mem_iff.2 hc)
  named c hc := h.named c (hperm.mem_iff.2 hc)
  others p hp := h.others p fun c hc ↦ hp c (hperm.mem_iff.1 hc)

/-- Changes come to one thing only. -/
theorem Merges.sameAt (h : Merges features changes m m') (h' : Merges features changes m m'')
    (p : Path) : Memory.SameAt p m' m'' := by
  by_cases hp : ∃ c ∈ changes, c.Names p
  · obtain ⟨c, hc, hnames⟩ := hp
    exact (h.named c hc p hnames).symm.trans (h'.named c hc p hnames)
  · have hnone : ∀ c ∈ changes, ¬ c.Names p := fun c hc hnames ↦ hp ⟨c, hc, hnames⟩
    exact (h.others p hnone).symm.trans (h'.others p hnone)

/-- Independent changes, made one after another, each do what they would do alone. -/
theorem Steps.merges (h : Steps features changes m paths m')
    (hindep : changes.Pairwise FileChange.Independent) : Merges features changes m m' := by
  induction h with
  | nil m => exact ⟨by simp, by simp, fun p _ ↦ .refl p m⟩
  | @cons c changes m m' path paths hc hrest ih =>
    obtain ⟨hfirst, hlater⟩ := List.pairwise_cons.1 hindep
    have hmerges := ih hlater
    refine ⟨fun other hother ↦ ?_, fun other hother p hp ↦ ?_, fun p hp ↦ ?_⟩
    · obtain rfl | hother := List.mem_cons.1 hother
      · exact ⟨path, hc⟩
      · rw [((hfirst other hother).apply_behind features m).1]
        exact hmerges.made other hother
    · obtain rfl | hother := List.mem_cons.1 hother
      · exact hmerges.others p fun c' hc' ↦ (hfirst c' hc').symm.not_names hp
      · exact (((hfirst other hother).apply_behind features m).2 p hp).trans
          (hmerges.named other hother p hp)
    · obtain ⟨hnot, hnone⟩ := List.forall_mem_cons.1 hp
      exact (FileChange.sameAt_apply features hnot m).trans (hmerges.others p hnone)

/-- Independent changes that can each be made alone can be made one after another. -/
theorem exists_steps (hmade : ∀ c ∈ changes, ∃ path, (c.apply features m).result = .ok path)
    (hindep : changes.Pairwise FileChange.Independent) :
    ∃ paths m', Steps features changes m paths m' := by
  induction changes generalizing m with
  | nil => exact ⟨[], m, .nil m⟩
  | cons c changes ih =>
    obtain ⟨hfirst, hlater⟩ := List.pairwise_cons.1 hindep
    obtain ⟨⟨path, hc⟩, hrest⟩ := List.forall_mem_cons.1 hmade
    have hmade' : ∀ other ∈ changes,
        ∃ path, (other.apply features (c.apply features m).store).result = .ok path := by
      intro other hother
      rw [← ((hfirst other hother).apply_behind features m).1]
      exact hrest other hother
    obtain ⟨paths, m', hsteps⟩ := ih hmade' hlater
    exact ⟨path :: paths, m', .cons hc hsteps⟩

/-- Independent changes touch different paths. -/
theorem Steps.pairwise_not_same (h : Steps features changes m paths m')
    (hindep : changes.Pairwise FileChange.Independent) : paths.Pairwise (¬ ·.Same ·) := by
  have htouched : (changes.map FileChange.touchedPath).Pairwise
      fun o o' ↦ ∀ p ∈ o, ∀ q ∈ o', ¬ p.Same q := by
    refine List.pairwise_map.2 (hindep.imp fun hindep p hp q hq ↦ ?_)
    exact hindep p (FileChange.mem_named_of_touchedPath hp) q
      (FileChange.mem_named_of_touchedPath hq)
  rw [h.map_touchedPath, List.pairwise_map] at htouched
  exact htouched.imp fun hne ↦ hne _ rfl _ rfl

end Merges

namespace Document

/-- Where no change names a path that another names, the order of the changes does not matter. If
they can be made in one order they can be made in every order, and they touch the same paths, leave
the same files and write each file equally often. -/
theorem apply_perm {features : Features} {stop : Nat → Bool} {d d' : Document} {m : Memory}
    {touched : PathSet} (hindep : d.changes.Pairwise FileChange.Independent)
    (hperm : d.changes.Perm d'.changes) (h : (d.apply features stop m).result = .ok touched) :
    (d'.apply features stop m).result = .ok touched ∧
      ∀ p, Memory.SameAt p (d.apply features stop m).store (d'.apply features stop m).store := by
  obtain ⟨hcheck, hstop, paths, rfl, hsteps⟩ := steps_of_apply h
  have hmerges := hsteps.merges hindep
  have hindep' := hperm.pairwise hindep FileChange.Independent.symm
  obtain ⟨paths', m', hsteps'⟩ := exists_steps (hmerges.perm hperm).made hindep'
  have hcheck' : d'.check = .ok () :=
    check_eq_ok_iff.2 fun c hc ↦ check_eq_ok_iff.1 hcheck c (hperm.mem_iff.2 hc)
  obtain ⟨hresult, hstore⟩ := apply_of_steps hcheck' (hperm.length_eq ▸ hstop) hsteps'
  have hpaths : paths.Perm paths' := by
    rw [← List.map_perm_map_iff (fun _ _ ↦ Option.some.inj), ← hsteps.map_touchedPath,
      ← hsteps'.map_touchedPath]
    exact hperm.map _
  rw [hresult, hstore, PathSet.ofPaths_perm hpaths (hsteps.pairwise_not_same hindep)]
  exact ⟨rfl, (hmerges.perm hperm).sameAt (hsteps'.merges hindep')⟩

section Instance

/-- One file is edited, another is moved, and a new one is made. -/
def apart : Document :=
  ⟨[⟨.modify, some ⟨"a"⟩, some ⟨"a"⟩, [⟨1, 1, [.remove "x", .add "z"]⟩]⟩,
    ⟨.rename, some ⟨"b"⟩, some ⟨"c"⟩, []⟩, ⟨.add, none, some ⟨"d/e"⟩, []⟩]⟩

/-- The same changes the other way round. -/
def apartBack : Document := ⟨apart.changes.reverse⟩

theorem apply_perm_apart :
    let there := apart.apply .none never twoFiles
    let back := apartBack.apply .none never twoFiles
    apart.changes.Pairwise FileChange.Independent ∧ apart.changes.Perm apartBack.changes ∧
      there.result = .ok (.ofPaths [⟨"a"⟩, ⟨"c"⟩, ⟨"d/e"⟩]) ∧
      back.result = .ok (.ofPaths [⟨"a"⟩, ⟨"c"⟩, ⟨"d/e"⟩]) ∧
      ∀ p, Memory.SameAt p there.store back.store := by
  intro there back
  have hindep : apart.changes.Pairwise FileChange.Independent := by decide
  have hperm : apart.changes.Perm apartBack.changes := (List.reverse_perm apart.changes).symm
  have hthere : there.result = .ok (.ofPaths [⟨"a"⟩, ⟨"c"⟩, ⟨"d/e"⟩]) := rfl
  obtain ⟨hback, hsame⟩ := apply_perm hindep hperm hthere
  exact ⟨hindep, hperm, hthere, hback, hsame⟩

end Instance

end Document

end Patchwork
