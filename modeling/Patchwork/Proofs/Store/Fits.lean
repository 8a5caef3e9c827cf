import Patchwork.Proofs.Store.Room

/-!
# Edits that fit into a directory

An edit that comes to something can be made in a sound directory exactly when there is room for
the file that it puts somewhere (`Directory.Sound.perform_of_fits`,
`Directory.Sound.perform_of_not_fits`). The files are then what the edit comes to, as long as the
paths that are used keep apart what the disk keeps apart (`Directory.Suits`).
-/

namespace Patchwork

namespace Directory

/-- There is room for the file that an edit puts somewhere. -/
def Fits (d : Directory) : Edit → Prop
  | .write p _ | .create p => d.HasRoom p
  | .rename _ target => d.HasRoom target
  | .delete _ => True

instance (d : Directory) : (e : Edit) → Decidable (d.Fits e)
  | .write p _ | .create p => inferInstanceAs (Decidable (d.HasRoom p))
  | .rename _ target => inferInstanceAs (Decidable (d.HasRoom target))
  | .delete _ => inferInstanceAs (Decidable True)

/-- The disk takes the paths, and those that lead to one place are one path, ending alike. -/
structure Suits (d : Directory) (paths : List Path) : Prop where
  admits : ∀ p ∈ paths, d.Admits p
  alike : ∀ p ∈ paths, ∀ q ∈ paths, p.staysBelow = true → q.staysBelow = true →
    p.names = q.names → p.Same q ∧ p.ending = q.ending

instance (d : Directory) (paths : List Path) : Decidable (d.Suits paths) :=
  decidable_of_iff
    ((∀ p ∈ paths, d.Admits p) ∧ ∀ p ∈ paths, ∀ q ∈ paths, p.staysBelow = true →
      q.staysBelow = true → p.names = q.names → p.Same q ∧ p.ending = q.ending)
    ⟨fun ⟨hadmits, halike⟩ ↦ ⟨hadmits, halike⟩, fun ⟨hadmits, halike⟩ ↦ ⟨hadmits, halike⟩⟩

variable {d d' : Directory} {p q : Path} {content : Option ByteArray} {paths : List Path}

private theorem staysBelow_of_same (hsame : p.Same q) (hbelow : p.staysBelow = true)
    (hnames : q.names ≠ []) : q.staysBelow = true := by
  have hspelling : q.spelling.isEmpty = false := by
    rw [Bool.eq_false_iff]
    intro hempty
    apply hnames
    rw [Path.names, Path.components, String.isEmpty_iff.1 hempty]
    rfl
  rw [Path.staysBelow, Bool.and_eq_true] at hbelow
  rw [Path.staysBelow, hspelling, ← show p.components = q.components from hsame, hbelow.2]
  rfl

/-- Of the paths used, those that are the same as one by which a file can be had are those by which
that very file can be had. -/
theorem Suits.same_iff (h : d.Suits paths) (hp : p ∈ paths) (hq : q ∈ paths)
    (hregular : p.Regular) (hnames : p.names ≠ []) :
    p.Same q ↔ q.Regular ∧ p.names = q.names := by
  constructor
  · intro hsame
    have heq : p.names = q.names := by
      rw [Path.names, Path.names, show p.components = q.components from hsame]
    have hbelow : q.staysBelow = true := by
      refine staysBelow_of_same hsame hregular.1 ?_
      rwa [← heq]
    have hending := (h.alike p hp q hq hregular.1 hbelow heq).2
    exact ⟨⟨hbelow, hending ▸ hregular.2.1, heq ▸ hregular.2.2⟩, heq⟩
  · rintro ⟨hq', heq⟩
    exact (h.alike p hp q hq hregular.1 hq'.1 heq).1

/-- When the file at a path is different, so is the content at the path, and at no other. -/
theorem Next.content?_eq (h : d.Next d' p content) (hs : d.Sound) (hsuits : d.Suits paths)
    (hp : p ∈ paths) (hregular : p.Regular) (hnames : p.names ≠ []) (hq : q ∈ paths) :
    Store.content? d' q = (Store.content? d).set p content q := by
  have hsame := hsuits.same_iff hp hq hregular hnames
  have hadmits := hsuits.admits q hq
  rw [h.sound.content?_eq (h.same.admits hadmits), Contents.set, hs.content?_eq hadmits, h.files]
  by_cases hq' : q.Regular
  · rw [if_pos hq', if_pos hq']
    by_cases heq : p.names = q.names
    · rw [if_pos heq, if_pos (hsame.2 ⟨hq', heq⟩)]
    · rw [if_neg heq, if_neg fun h ↦ heq (hsame.1 h).2]
  · rw [if_neg hq', if_neg hq', if_neg fun h ↦ hq' (hsame.1 h).1]

private theorem location?_of_staysBelow (hbelow : p.staysBelow = true) :
    d.location? p = some (d.locate p) := by
  rw [location?_eq, if_pos hbelow]

/-- There is a file where there is content. -/
private theorem find_of_content? (hs : d.Sound) (hp : d.Admits p) {found : ByteArray}
    (h : Store.content? d p = some found) :
    p.Regular ∧ p.names ≠ [] ∧ d.get? p.names = some (.file found) ∧
      d.find (d.locate p) = .ok (.file found) := by
  rw [hs.content?_eq hp] at h
  split at h
  · next hregular =>
    rw [file?_eq_some_iff] at h
    refine ⟨hregular, ?_, h, ?_⟩
    · intro hnames
      rw [hnames, hs.root] at h
      cases h
    · exact (hs.find_eq_ok_iff hp).2 ⟨hregular.2.2, h, .inr hregular.2.1⟩
  · cases h

/-- There is no file where there is no content. -/
private theorem file?_of_content? (hs : d.Sound) (hp : d.Admits p) (hregular : p.Regular)
    (h : Store.content? d p = none) : d.file? p.names = none := by
  rwa [hs.content?_eq hp, if_pos hregular] at h

private theorem about_ok (p : Path) (d : Directory) : about p (.ok (), d) = (.ok (), d) := rfl

private theorem about_error {p : Path} {done : Except StoreErrorKind Unit × Directory}
    (h : ∃ kind, done.1 = .error kind) : ∃ e, (about p done).1 = .error e := by
  obtain ⟨kind, hkind⟩ := h
  rcases done with ⟨result, d⟩
  cases hkind
  exact ⟨_, rfl⟩

private theorem writeRefusal?_eq {made : Directory} (hp : d.Admits p) (hsame : SamePlace d made) :
    writeRefusal? (d.locate p) made = made.refusal? (d.locate p) overwritten := by
  have hdraft : (made.draft (d.locate p)).isTooLong = false := by
    rw [draft, hsame.working]
    exact hp.draft
  rw [writeRefusal?, hdraft]
  rfl

/-- A file is written where there is room for it. -/
private theorem perform_write (hs : d.Sound) (hp : d.Admits p) (hroom : d.HasRoom p)
    (content : ByteArray) :
    ∃ d', d.perform (.write p content) = (.ok (), d') ∧ d.Next d' p (some content) := by
  obtain ⟨d', hplace, hnext⟩ : ∃ d', d.place? (d.locate p) content (writeRefusal? (d.locate p)) =
      (.ok (), d') ∧ d.Next d' p (some content) := by
    refine place?_of_room hs hp hroom overwritten (fun made hsame hfree ↦ ?_) fun _ _ ↦ rfl
    exact (writeRefusal?_eq hp hsame).trans hfree
  refine ⟨d', ?_, hnext⟩
  simp only [perform, location?_of_staysBelow hroom.regular.1, hplace, about_ok]

/-- A file is created where there is room for it and none is there. -/
private theorem perform_create (hs : d.Sound) (hp : d.Admits p) (hroom : d.HasRoom p)
    (hnone : Store.content? d p = none) :
    ∃ d', d.perform (.create p) = (.ok (), d') ∧ d.Next d' p (some .empty) := by
  have hfile := file?_of_content? hs hp hroom.regular hnone
  obtain ⟨d', hplace, hnext⟩ : ∃ d', d.place? (d.locate p) .empty (createRefusal? (d.locate p)) =
      (.ok (), d') ∧ d.Next d' p (some .empty) := by
    refine place?_of_room hs hp hroom created (fun _ _ hfree ↦ hfree) fun found hfound ↦ ?_
    rw [hfile] at hfound
    cases hfound
  refine ⟨d', ?_, hnext⟩
  simp only [perform, location?_of_staysBelow hroom.regular.1, hplace, about_ok]

/-- A file that is there is taken away. -/
private theorem perform_delete (hs : d.Sound) (hp : d.Admits p) {found : ByteArray}
    (hsome : Store.content? d p = some found) :
    ∃ d', d.perform (.delete p) = (.ok (), d') ∧ d.Next d' p none := by
  obtain ⟨hregular, hnames, hentry, hfind⟩ := find_of_content? hs hp hsome
  refine ⟨d.without p.names, ?_, ⟨rfl, rfl, rfl⟩, ?_, fun names ↦ file?_without hnames⟩
  · simp only [perform, location?_of_staysBelow hregular.1, deleteAt, hfind, about_ok]
    rfl
  · refine hs.without hnames ?_
    rw [hentry]
    exact fun h ↦ Entry.noConfusion (Option.some.inj h)

theorem SamePlace.suits (h : SamePlace d d') (hsuits : d.Suits paths) : d'.Suits paths :=
  ⟨fun p hp ↦ h.admits (hsuits.admits p hp), hsuits.alike⟩

/-- Nothing is found where there is room for a file and none is there. -/
private theorem find_of_room (hs : d.Sound) (hp : d.Admits p) (hroom : d.HasRoom p)
    (hfile : d.file? p.names = none) : ∃ kind, d.find (d.locate p) = .error kind := by
  cases hfind : d.find (d.locate p) with
  | error kind => exact ⟨kind, rfl⟩
  | ok entry =>
    have hentry := ((hs.find_eq_ok_iff hp).1 hfind).2.1
    cases entry with
    | directory => exact absurd hentry hroom.not_directory
    | file content =>
      rw [file?_eq_some_iff.2 hentry] at hfile
      cases hfile
    | device content => exact absurd hentry (hs.no_device p.names content)

/-- A file that is there is moved where there is room for it and none is there. On the way there is
a state in which it is at neither place. -/
private theorem perform_rename {source target : Path} (hs : d.Sound) (hsource : d.Admits source)
    (htarget : d.Admits target) (hroom : d.HasRoom target) {found : ByteArray}
    (hsome : Store.content? d source = some found) (hnone : Store.content? d target = none) :
    ∃ mid d', d.perform (.rename source target) = (.ok (), d') ∧ d.Next mid source none ∧
      mid.Next d' target (some found) := by
  obtain ⟨hregular, hnames, hentry, hfind⟩ := find_of_content? hs hsource hsome
  have hfile := file?_of_content? hs htarget hroom.regular hnone
  obtain ⟨kind, hfree⟩ := find_of_room hs htarget hroom hfile
  obtain ⟨made, hmake, hmade, hrefusal⟩ := makeParents_of_room hs htarget hroom overwritten
  rw [hfile] at hrefusal
  have hmade_entry : made.get? source.names = some (.file found) := by
    rw [← file?_eq_some_iff, hmade.files, file?_eq_some_iff, hentry]
  -- The state in between: the directories are made, and the file is taken away.
  have hmid : (made.without source.names).Sound := by
    refine hmade.sound.without hnames ?_
    simp [hmade_entry]
  have hmid_parent : (made.without source.names).get? target.names.dropLast =
      some .directory := by
    have hparent := hmade.above target.names.dropLast (List.prefix_refl _)
    rw [get?_without hnames, if_neg, hparent]
    intro heq
    rw [← heq, hmade_entry] at hparent
    cases hparent
  have hmid_target : (made.without source.names).get? target.names ≠ some .directory := by
    rw [get?_without hnames, hmade.target]
    split
    · simp
    · exact hroom.not_directory
  have hnames' := hroom.names_ne_nil hs
  refine ⟨made.without source.names, (made.without source.names).withFile target.names found,
    ?_, ⟨hmade.same.trans ⟨rfl, rfl, rfl⟩, hmid, fun names ↦ ?_⟩,
    ⟨⟨rfl, rfl, rfl⟩, hmid.withFile hnames' hmid_parent hmid_target,
      fun names ↦ file?_withFile hnames'⟩⟩
  · simp only [perform, location?_of_staysBelow hregular.1,
      location?_of_staysBelow hroom.regular.1, renameAt, hfind, hfree, hmake, hrefusal]
    rfl
  · rw [file?_without hnames, hmade.files]

/-- An edit that comes to something and for which there is room is made, and the contents at the
paths used are what it comes to. -/
theorem Sound.perform_of_fits (hs : d.Sound) (hsuits : d.Suits paths) {e : Edit}
    (he : ∀ p ∈ e.paths, p ∈ paths) (hfits : d.Fits e)
    (hok : (e.effect (Store.content? d)).1 = .ok ()) :
    ∃ d', d.perform e = (.ok (), d') ∧ SamePlace d d' ∧ d'.Sound ∧
      ∀ q ∈ paths, Store.content? d' q = (e.effect (Store.content? d)).2 q := by
  cases e with
  | write p content =>
    have hp := he p List.mem_cons_self
    have hroom : d.HasRoom p := hfits
    obtain ⟨d', hperform, hnext⟩ := perform_write hs (hsuits.admits p hp) hroom content
    refine ⟨d', hperform, hnext.same, hnext.sound, fun q hq ↦ ?_⟩
    exact hnext.content?_eq hs hsuits hp hroom.regular (hroom.names_ne_nil hs) hq
  | create p =>
    have hp := he p List.mem_cons_self
    have hroom : d.HasRoom p := hfits
    rw [Edit.effect] at hok ⊢
    cases hcontent : Store.content? d p with
    | some found => simp [hcontent] at hok
    | none =>
      obtain ⟨d', hperform, hnext⟩ := perform_create hs (hsuits.admits p hp) hroom hcontent
      refine ⟨d', hperform, hnext.same, hnext.sound, fun q hq ↦ ?_⟩
      exact hnext.content?_eq hs hsuits hp hroom.regular (hroom.names_ne_nil hs) hq
  | delete p =>
    have hp := he p List.mem_cons_self
    rw [Edit.effect] at hok ⊢
    cases hcontent : Store.content? d p with
    | none => simp [hcontent] at hok
    | some found =>
      obtain ⟨hregular, hnames, -, -⟩ := find_of_content? hs (hsuits.admits p hp) hcontent
      obtain ⟨d', hperform, hnext⟩ := perform_delete hs (hsuits.admits p hp) hcontent
      refine ⟨d', hperform, hnext.same, hnext.sound, fun q hq ↦ ?_⟩
      exact hnext.content?_eq hs hsuits hp hregular hnames hq
  | rename source target =>
    have hsource := he source List.mem_cons_self
    have htarget := he target (List.mem_cons_of_mem _ List.mem_cons_self)
    have hroom : d.HasRoom target := hfits
    rw [Edit.effect] at hok ⊢
    cases hnone : Store.content? d target with
    | some found => simp [hnone] at hok
    | none =>
      cases hsome : Store.content? d source with
      | none => simp [hnone, hsome] at hok
      | some found =>
        obtain ⟨hregular, hnames, hentry, -⟩ :=
          find_of_content? hs (hsuits.admits source hsource) hsome
        obtain ⟨mid, d', hperform, hmid, hnext⟩ := perform_rename hs (hsuits.admits source hsource)
          (hsuits.admits target htarget) hroom hsome hnone
        have hne : ¬ source.Same target := by
          intro hsame
          have heq := ((hsuits.same_iff hsource htarget hregular hnames).1 hsame).2
          have hfile := file?_of_content? hs (hsuits.admits target htarget) hroom.regular hnone
          rw [← heq, file?_eq_some_iff.2 hentry] at hfile
          cases hfile
        refine ⟨d', hperform, hmid.same.trans hnext.same, hnext.sound, fun q hq ↦ ?_⟩
        have hmid_content := hmid.content?_eq hs hsuits hsource hregular hnames hq
        have hcontent := hnext.content?_eq hmid.sound (hmid.same.suits hsuits) htarget
          hroom.regular (hroom.names_ne_nil hs) hq
        rw [hcontent, Contents.set_congr target _ hmid_content, Contents.set_set_comm hne]
        rfl

/-- An edit for which there is no room is not made. -/
theorem Sound.perform_of_not_fits (hs : d.Sound) {e : Edit} (he : ∀ p ∈ e.paths, d.Admits p)
    (hfits : ¬ d.Fits e) : ∃ error, (d.perform e).1 = .error error := by
  cases e with
  | write p content =>
    rw [perform, location?_eq]
    cases hbelow : p.staysBelow with
    | false => exact ⟨_, rfl⟩
    | true =>
      have hp := he p List.mem_cons_self
      refine about_error ?_
      refine place?_of_no_room hs hp hbelow hfits overwritten ⟨_, rfl⟩ fun made hfree ↦ ?_
      rw [writeRefusal?] at hfree
      split at hfree
      · cases hfree
      · exact hfree
  | create p =>
    rw [perform, location?_eq]
    cases hbelow : p.staysBelow with
    | false => exact ⟨_, rfl⟩
    | true =>
      have hp := he p List.mem_cons_self
      refine about_error ?_
      exact place?_of_no_room hs hp hbelow hfits created ⟨_, rfl⟩ fun made hfree ↦ hfree
  | delete p => exact absurd trivial hfits
  | rename source target =>
    have htarget := he target (List.mem_cons_of_mem _ List.mem_cons_self)
    rw [perform, location?_eq, location?_eq]
    cases source.staysBelow with
    | false => exact ⟨_, rfl⟩
    | true =>
      cases hbelow : target.staysBelow with
      | false => exact ⟨_, rfl⟩
      | true =>
        have hno_room := makeParents_of_no_room hs htarget hbelow hfits
          (show ∃ kind, overwritten .directory = some kind from ⟨_, rfl⟩)
        simp only [if_true, renameAt]
        split
        · exact ⟨_, rfl⟩
        · cases hmake : d.makeParents (d.locate target) with
          | mk result made =>
            rw [hmake] at hno_room
            cases result with
            | error kind => exact ⟨_, rfl⟩
            | ok =>
              obtain ⟨kind, h⟩ | ⟨kind, h⟩ := hno_room
              · cases h
              · have hrefusal : made.refusal? (d.locate target) overwritten = some kind := h
                simp only [hrefusal]
                exact ⟨_, rfl⟩
        · exact ⟨_, rfl⟩

end Directory

end Patchwork
