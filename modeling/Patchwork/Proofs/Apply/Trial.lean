import Patchwork.Proofs.Apply.Touched
import Patchwork.Proofs.Store.Fits
import Patchwork.Proofs.Store.Journal
import Patchwork.Proofs.Store.Overlay

/-!
# Trying a document out on an overlay of a directory

An overlay takes every edit that comes to something. The directory below it takes one only when
there is room for the file that the edit puts somewhere. So a trial on the overlay foretells the run
on the directory exactly when there is room for all the edits that the trial makes
(`Directory.foretold_iff`). Specification: trials on a `DryRun` overlay in sections 5 and 6.
-/

namespace Patchwork

namespace Directory

/-- The directory after edits made in order, whether they succeed or not. -/
def performAll (d : Directory) (edits : List Edit) : Directory :=
  edits.foldl (fun d e ↦ (d.perform e).2) d

/-- There is room for edits made in order. -/
def FitsAll (d : Directory) : List Edit → Prop
  | [] => True
  | e :: edits => d.Fits e ∧ FitsAll (d.perform e).2 edits

instance decidableFitsAll (d : Directory) : (edits : List Edit) → Decidable (d.FitsAll edits)
  | [] => inferInstanceAs (Decidable True)
  | e :: edits =>
    have := decidableFitsAll (d.perform e).2 edits
    inferInstanceAs (Decidable (d.Fits e ∧ FitsAll (d.perform e).2 edits))

/-- Trying the document out on an overlay comes out well exactly when applying it to the directory
does. Then the same paths are touched, and each has the content that it would have. -/
structure Foretold (d : Directory) (features : Features) (stop : Nat → Bool) (doc : Document) :
    Prop where
  result : ∀ touched, (doc.apply features stop (Overlay.fresh d)).result = .ok touched ↔
    (doc.apply features stop d).result = .ok touched
  content : ∀ touched, (doc.apply features stop d).result = .ok touched → ∀ p ∈ touched.paths,
    Store.content? (doc.apply features stop (Overlay.fresh d)).store p =
      Store.content? (doc.apply features stop d).store p

theorem fitsAll_concat {d : Directory} {edits : List Edit} {e : Edit} :
    d.FitsAll (edits ++ [e]) ↔ d.FitsAll edits ∧ (d.performAll edits).Fits e := by
  induction edits generalizing d with
  | nil => exact and_comm
  | cons first edits ih => exact (and_congr_right fun _ ↦ ih).trans and_assoc.symm

theorem performAll_concat (d : Directory) (edits : List Edit) (e : Edit) :
    d.performAll (edits ++ [e]) = ((d.performAll edits).perform e).2 :=
  List.foldl_append ..

variable {base d : Directory} {paths : List Path}

/-- An overlay and a state of the directory below it with the same contents at the paths used. -/
structure Tracks (base : Directory) (paths : List Path) (o : Overlay Directory) (d : Directory) :
    Prop where
  same : SamePlace base d
  sound : d.Sound
  contents : ∀ p ∈ paths, Store.content? o p = Store.content? d p

/-- An overlay that keeps a journal, and what the directory below it has become: as long as there
was room for the edits, they were all made there. -/
structure Shadows (base : Directory) (paths : List Path) (j : Journal (Overlay Directory))
    (d : Directory) : Prop where
  below : j.store.base = base
  made : base.FitsAll j.edits → d = base.performAll j.edits ∧ Tracks base paths j.store d

/-- How runs on the overlay and on the directory come out. If there was room for the edits, they
come out alike; if there was not, the run on the directory has failed. -/
structure Foretells {ε α : Type} (base : Directory) (paths : List Path)
    (j : Journal (Overlay Directory)) (a : Outcome ε α (Journal (Overlay Directory)))
    (b : Outcome ε α Directory) : Prop where
  before : base.FitsAll a.store.edits → base.FitsAll j.edits
  result : base.FitsAll a.store.edits → a.result = b.result
  fails : base.FitsAll j.edits → ¬ base.FitsAll a.store.edits → ∃ e, b.result = .error e
  store : Shadows base paths a.store b.store

section Run

variable {ε α : Type} {j : Journal (Overlay Directory)}

private theorem foretells_stay (h : Shadows base paths j d) (x : Except ε α) (log : List Event) :
    Foretells base paths j ⟨x, j, log⟩ ⟨x, d, log⟩ where
  before := id
  result _ := rfl
  fails hfits hnot := absurd hfits hnot
  store := h

private theorem Foretells.mapError {ε' : Type} {a : Outcome ε α (Journal (Overlay Directory))}
    {b : Outcome ε α Directory} (h : Foretells base paths j a b) (f : ε → ε') :
    Foretells base paths j (a.mapError f) (b.mapError f) where
  before := h.before
  result hfits := congrArg (Except.mapError f) (h.result hfits)
  fails hfits hnot := by
    obtain ⟨e, he⟩ := h.fails hfits hnot
    exact ⟨f e, congrArg (Except.mapError f) he⟩
  store := h.store

/-- Where the run on the directory went another way, there was no room, and so there is none for
what the overlay goes on with. -/
private theorem Foretells.andThen {β : Type} {a : Outcome ε α (Journal (Overlay Directory))}
    {b : Outcome ε α Directory} (h : Foretells base paths j a b)
    {f : α → Journal (Overlay Directory) → Outcome ε β (Journal (Overlay Directory))}
    {g : α → Directory → Outcome ε β Directory}
    (hnext : ∀ x j' d', Shadows base paths j' d' → Foretells base paths j' (f x j') (g x d')) :
    Foretells base paths j (a.andThen f) (b.andThen g) := by
  obtain ⟨result, j', log⟩ := a
  obtain ⟨result', d', log'⟩ := b
  obtain ⟨hbefore, hresult, hfails, hstore⟩ := h
  cases result with
  | error e =>
    by_cases hfits : base.FitsAll j'.edits
    · cases hresult hfits
      exact ⟨hbefore, fun _ ↦ rfl, fun _ hnot ↦ absurd hfits hnot, hstore⟩
    · refine ⟨hbefore, fun hfits' ↦ absurd hfits' hfits, fun hj _ ↦ ?_, hstore.below,
        fun hfits' ↦ absurd hfits' hfits⟩
      obtain ⟨e', he'⟩ := hfails hj hfits
      cases he'
      exact ⟨e', rfl⟩
  | ok x =>
    have hlater := hnext x j' d' hstore
    by_cases hfits : base.FitsAll j'.edits
    · cases hresult hfits
      exact ⟨fun hfits' ↦ hbefore (hlater.before hfits'), hlater.result,
        fun _ hnot ↦ hlater.fails hfits hnot, hlater.store⟩
    · have hnot : ¬ base.FitsAll (f x j').store.edits := fun hfits' ↦ hfits (hlater.before hfits')
      refine ⟨fun hfits' ↦ absurd hfits' hnot, fun hfits' ↦ absurd hfits' hnot, fun hj _ ↦ ?_,
        hlater.store.below, fun hfits' ↦ absurd hfits' hnot⟩
      obtain ⟨e', he'⟩ := hfails hj hfits
      cases he'
      exact ⟨e', rfl⟩

/-- One edit. The overlay takes it if it comes to something; the directory takes it if there is
room besides. -/
private theorem Tracks.perform {o : Overlay Directory} (h : Tracks base paths o d)
    (ho : Store.Honest o) (hsuits : base.Suits paths) {e : Edit} (he : ∀ p ∈ e.paths, p ∈ paths)
    (hok : (e.effect (Store.content? o)).1 = .ok ()) :
    (o.perform e).1 = .ok () ∧
      (d.Fits e → (d.perform e).1 = .ok () ∧ Tracks base paths (o.perform e).2 (d.perform e).2) ∧
      (¬ d.Fits e → ∃ error, (d.perform e).1 = .error error) := by
  have hperform := Overlay.perform_effect ho (e := e) fun source target heq hnone ↦ by
    rw [heq, Edit.effect, hnone] at hok
    split at hok <;> cases hok
  have hcongr := Edit.effect_congr (e := e) fun p hp ↦ h.contents p (he p hp)
  have hsuits' := h.same.suits hsuits
  refine ⟨(congrArg Prod.fst hperform).trans hok, fun hfits ↦ ?_, fun hfits ↦ ?_⟩
  · obtain ⟨d', hd', hsame, hsound, hcontents⟩ :=
      h.sound.perform_of_fits hsuits' he hfits (hcongr.1.symm.trans hok)
    rw [hd']
    refine ⟨rfl, h.same.trans hsame, hsound, fun p hp ↦ ?_⟩
    rw [hcontents p hp, ← hcongr.2 p (h.contents p hp)]
    exact congrFun (congrArg Prod.snd hperform) p
  · exact h.sound.perform_of_not_fits (fun p hp ↦ hsuits'.admits p (he p hp)) hfits

private theorem Shadows.honest (hbase : base.Sound) (h : Shadows base paths j d) :
    Store.Honest j.store := by
  apply Overlay.honest
  rw [h.below]
  exact hbase.honest

/-- A stage on a journal asks for one edit at most, and does not reach below the overlay. -/
private theorem store_run (stage : Stage) (j : Journal (Overlay Directory)) :
    (stage.run j).store.store.base = j.store.base ∧
      ((stage.run j).store.edits = j.edits ∨ ∃ e, (stage.run j).store.edits = j.edits ++ [e]) := by
  rw [Stage.run]
  cases stage.decide j with
  | error f => exact ⟨rfl, .inl rfl⟩
  | ok edit? =>
    cases edit? with
    | none => exact ⟨rfl, .inl rfl⟩
    | some e =>
      rw [Stage.carryOut_some]
      exact ⟨j.store.base_perform e, .inr ⟨e, rfl⟩⟩

/-- One edit, as a stage makes it. -/
private theorem foretells_edit (hsuits : base.Suits paths) (h : Shadows base paths j d)
    (ho : Store.Honest j.store) (hfits : base.FitsAll j.edits) {e : Edit}
    (he : ∀ p ∈ e.paths, p ∈ paths) (hok : (e.effect (Store.content? j.store)).1 = .ok ())
    (log : List Event) :
    Foretells base paths j
      ⟨(Store.perform j e).1.mapError Fault.store, (Store.perform j e).2, log⟩
      ⟨(Store.perform d e).1.mapError Fault.store, (Store.perform d e).2, log⟩ := by
  obtain ⟨hd, htracks⟩ := h.made hfits
  obtain ⟨hoverlay, hroom, hno_room⟩ := htracks.perform ho hsuits he hok
  have hbelow : (j.store.perform e).2.base = base := (j.store.base_perform e).trans h.below
  have hlong : base.FitsAll (j.edits ++ [e]) ↔ d.Fits e := by
    rw [fitsAll_concat, ← hd, and_iff_right hfits]
  by_cases hfit : d.Fits e
  · obtain ⟨hreal, hnext⟩ := hroom hfit
    refine ⟨fun _ ↦ hfits, fun _ ↦ ?_, fun _ hnot ↦ absurd (hlong.2 hfit) hnot, hbelow,
      fun _ ↦ ⟨?_, hnext⟩⟩
    · show Except.mapError Fault.store (j.store.perform e).1 = _
      rw [hoverlay]
      exact (congrArg (Except.mapError Fault.store) hreal).symm
    · show (d.perform e).2 = base.performAll (j.edits ++ [e])
      rw [performAll_concat, ← hd]
  · have hnot : ¬ base.FitsAll (j.edits ++ [e]) := fun hfits' ↦ hfit (hlong.1 hfits')
    obtain ⟨error, herror⟩ := hno_room hfit
    refine ⟨fun _ ↦ hfits, fun hfits' ↦ absurd hfits' hnot, fun _ _ ↦ ⟨.store error, ?_⟩, hbelow,
      fun hfits' ↦ absurd hfits' hnot⟩
    exact congrArg (Except.mapError Fault.store) herror

/-- One stage. -/
private theorem foretells_run (hbase : base.Sound) (hsuits : base.Suits paths)
    (h : Shadows base paths j d) (stage : Stage) (hstage : ∀ p ∈ stage.paths, p ∈ paths) :
    Foretells base paths j (stage.run j) (stage.run d) := by
  by_cases hfits : base.FitsAll j.edits
  -- As long as there was room, the stage finds the same files on both sides.
  · have htracks := (h.made hfits).2
    have ho : Store.Honest j.store := h.honest hbase
    have hdecide : stage.decide j = stage.decide d := Stage.decide_congr fun p hp ↦
      Store.Honest.sameFileAt (s := j) ho htracks.sound.honest (htracks.contents p (hstage p hp))
    cases hdecision : stage.decide d with
    | error f =>
      rw [Stage.run, Stage.run, hdecide, hdecision]
      exact foretells_stay h _ _
    | ok edit? =>
      cases edit? with
      | none =>
        rw [Stage.run, Stage.run, hdecide, hdecision]
        exact foretells_stay h _ _
      | some e =>
        obtain ⟨hok, hwritten⟩ := Stage.effect_of_decide (s := j) ho (hdecide.trans hdecision)
        rw [Stage.run, Stage.run, hdecide, hdecision, Stage.carryOut_some, Stage.carryOut_some]
        refine foretells_edit hsuits h ho hfits (fun p hp ↦ hstage p ?_) hok _
        exact stage.written_subset_paths (hwritten ▸ hp)
  -- Once there was none, nothing is asked of the stage but that it makes no room.
  · have hnot : ¬ base.FitsAll (stage.run j).store.edits := by
      obtain heq | ⟨e, heq⟩ := (store_run stage j).2
      · rwa [heq]
      · rw [heq, fitsAll_concat]
        exact fun hlong ↦ hfits hlong.1
    exact ⟨fun hlong ↦ absurd hlong hnot, fun hlong ↦ absurd hlong hnot,
      fun hj _ ↦ absurd hj hfits, (store_run stage j).1.trans h.below,
      fun hlong ↦ absurd hlong hnot⟩

/-- Whole documents. -/
private theorem congruence (hbase : base.Sound) (hsuits : base.Suits paths) :
    Congruence (Shadows base paths) (fun stage ↦ ∀ p ∈ stage.paths, p ∈ paths)
      fun j _ a b ↦ Foretells base paths j a b where
  stay h x log := foretells_stay h x log
  andThen h hnext := h.andThen hnext
  mapError h f := h.mapError f
  run h stage hstage := foretells_run hbase hsuits h stage hstage

end Run

variable {features : Features} {stop : Nat → Bool} {doc : Document}

private theorem shadows_start (hd : d.Sound) (paths : List Path) :
    Shadows d paths (Journal.start (Overlay.fresh d)) d := by
  refine ⟨rfl, fun _ ↦ ⟨rfl, SamePlace.refl d, hd, fun p _ ↦ ?_⟩⟩
  exact congrFun (Overlay.content?_fresh d) p

/-- A trial whose edits there is room for foretells the run, its failures included, and one whose
edits there is no room for foretells nothing: the run fails. -/
theorem foretells_apply (hd : d.Sound) (stop : Nat → Bool) (hsuits : d.Suits (doc.paths features)) :
    (d.FitsAll (doc.edits features stop (Overlay.fresh d)) →
      (doc.apply features stop (Overlay.fresh d)).result = (doc.apply features stop d).result ∧
        ∀ p ∈ doc.paths features,
          Store.content? (doc.apply features stop (Overlay.fresh d)).store p =
            Store.content? (doc.apply features stop d).store p) ∧
      (¬ d.FitsAll (doc.edits features stop (Overlay.fresh d)) →
        ∃ e, (doc.apply features stop d).result = .error e) := by
  have hrun := (congruence hd hsuits).apply (shadows_start hd _) stop (d := doc)
    fun stage hstage p hp ↦ List.mem_flatMap.2 ⟨stage, hstage, hp⟩
  have hstart : (Journal.start (Overlay.fresh d)).store = Overlay.fresh d := rfl
  have hjournal := Journal.simulation.apply hstart features stop doc
  refine ⟨fun hfits ↦ ?_, hrun.fails trivial⟩
  refine ⟨hjournal.result.symm.trans (hrun.result hfits), fun p hp ↦ ?_⟩
  rw [← hjournal.store]
  exact (hrun.store.made hfits).2.contents p hp

theorem Foretold.isSome_eq (h : d.Foretold features stop doc) :
    (doc.apply features stop (Overlay.fresh d)).result.toOption.isSome =
      (doc.apply features stop d).result.toOption.isSome := by
  have htrial := h.result
  cases hreal : (doc.apply features stop d).result with
  | ok touched =>
    rw [(htrial touched).2 hreal]
  | error e =>
    cases hresult : (doc.apply features stop (Overlay.fresh d)).result with
    | error e => rfl
    | ok touched =>
      rw [(htrial touched).1 hresult] at hreal
      cases hreal

/-- On a sound directory, where the paths used keep apart what the disk keeps apart, a trial
foretells the run exactly when there is room for all the edits of a trial that comes out well. -/
theorem foretold_iff (hd : d.Sound) (hsuits : d.Suits (doc.paths features)) :
    d.Foretold features stop doc ↔
      ((∃ touched, (doc.apply features stop (Overlay.fresh d)).result = .ok touched) →
        d.FitsAll (doc.edits features stop (Overlay.fresh d))) := by
  have hrun := foretells_apply hd stop hsuits
  constructor
  · rintro h ⟨touched, htrial⟩
    by_contra hnot
    obtain ⟨e, herror⟩ := hrun.2 hnot
    rw [(h.result touched).1 htrial] at herror
    cases herror
  · intro h
    have hresult (touched : PathSet) :
        (doc.apply features stop (Overlay.fresh d)).result = .ok touched ↔
          (doc.apply features stop d).result = .ok touched := by
      constructor
      · intro htrial
        rw [← (hrun.1 (h ⟨touched, htrial⟩)).1, htrial]
      · intro hreal
        by_cases hfits : d.FitsAll (doc.edits features stop (Overlay.fresh d))
        · rw [(hrun.1 hfits).1, hreal]
        · obtain ⟨e, herror⟩ := hrun.2 hfits
          rw [hreal] at herror
          cases herror
    refine ⟨hresult, fun touched hreal p hp ↦ ?_⟩
    have hfits := h ⟨touched, (hresult touched).2 hreal⟩
    exact (hrun.1 hfits).2 p (Document.mem_paths_of_touched hreal hp)

/-- A directory with one file. -/
def oneFile : Directory := empty.withFile ["a"] "x\n".toUTF8

/-- The only file is moved away, and another is made in a directory that takes its place. -/
def makesWay : Document :=
  ⟨[⟨.rename, some ⟨"a"⟩, some ⟨"b/c"⟩, []⟩, ⟨.add, none, some ⟨"a/d"⟩, []⟩]⟩

theorem foretold_makesWay :
    oneFile.Sound ∧ oneFile.Suits (makesWay.paths .none) ∧
      oneFile.Foretold .none Document.never makesWay := by
  have hsound : oneFile.Sound := sound_empty.withFile (by decide) (by decide) (by decide)
  have hsuits : oneFile.Suits (makesWay.paths .none) := by decide
  exact ⟨hsound, hsuits, (foretold_iff hsound hsuits).2 fun _ ↦ by decide⟩

/-- A trial takes a file below a file, and one file under two paths. -/
theorem exists_not_foretold :
    ¬ oneFile.Foretold .none Document.never ⟨[⟨.add, none, some ⟨"a/b"⟩, []⟩]⟩ ∧
      ¬ empty.Foretold .none Document.never
        ⟨[⟨.add, none, some ⟨"a"⟩, []⟩, ⟨.add, none, some ⟨"./a"⟩, []⟩]⟩ := by
  constructor
  · intro h
    exact absurd h.isSome_eq (by decide)
  · intro h
    exact absurd h.isSome_eq (by decide)

end Directory

end Patchwork
