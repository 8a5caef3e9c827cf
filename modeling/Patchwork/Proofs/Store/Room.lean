import Mathlib.Data.List.Infix
import Mathlib.Tactic.ByContra
import Patchwork.Proofs.Store.Directory

/-!
# Room for files in a directory

A file can be put at a path of a sound directory exactly when there is room for it: the
directories that it lies in are there or can be made, and none stands in its own place. What is
sound stays sound, and no other file is touched.
-/

namespace Patchwork

namespace Directory

/-- There is room for a file at a path: a file can be had by it, no directory stands there, and no
file stands where the path needs a directory. -/
structure HasRoom (d : Directory) (p : Path) : Prop where
  regular : p.Regular
  not_directory : d.get? p.names ≠ some .directory
  free : ∀ front, front <+: p.names.dropLast → ∀ content, d.get? front ≠ some (.file content)

instance (d : Directory) (p : Path) : Decidable (d.HasRoom p) :=
  decidable_of_iff
    (p.Regular ∧ d.get? p.names ≠ some .directory ∧
      ∀ front ∈ p.names.dropLast.inits, d.file? front = none) <| by
    simp only [List.mem_inits, Option.eq_none_iff_forall_ne_some, ne_eq, file?_eq_some_iff]
    exact ⟨fun ⟨hregular, hdirectory, hfree⟩ ↦ ⟨hregular, hdirectory, hfree⟩,
      fun ⟨hregular, hdirectory, hfree⟩ ↦ ⟨hregular, hdirectory, hfree⟩⟩

/-- Two states of one directory: named by the same path, at the same place. -/
structure SamePlace (d d' : Directory) : Prop where
  root : d'.root = d.root
  path : d'.path = d.path
  working : d'.working = d.working

/-- The directory with a file put at names. -/
def withFile (d : Directory) (names : List String) (content : ByteArray) : Directory :=
  { d with disk := d.disk.put (d.place names) (.file content) }

/-- The directory with what stands at names taken away. -/
def without (d : Directory) (names : List String) : Directory :=
  { d with disk := d.disk.remove (d.place names) }

variable {d d' : Directory} {p : Path} {names other : List String} {content : ByteArray}

theorem SamePlace.refl (d : Directory) : SamePlace d d := ⟨rfl, rfl, rfl⟩

theorem SamePlace.trans {d₁ d₂ d₃ : Directory} (h : SamePlace d₁ d₂) (h' : SamePlace d₂ d₃) :
    SamePlace d₁ d₃ :=
  ⟨h'.root.trans h.root, h'.path.trans h.path, h'.working.trans h.working⟩

/-- The disk takes the same paths in every state of a directory. -/
theorem SamePlace.admits (h : SamePlace d d') (hp : d.Admits p) : d'.Admits p := by
  obtain ⟨hnames, hfull, hparent, hdraft⟩ := hp
  refine ⟨hnames, ?_, ?_, ?_⟩
  · rw [h.path]
    exact hfull
  · rw [h.path]
    exact hparent
  · rw [h.path, h.working]
    exact hdraft

private theorem place_ne_nil (hnames : names ≠ []) : d.place names ≠ [] := by
  intro h
  exact hnames (List.append_eq_nil_iff.1 h).2

private theorem place_inj : d.place names = d.place other ↔ names = other := by
  rw [place, place, List.append_cancel_left_eq]

theorem get?_withFile (hnames : names ≠ []) :
    (d.withFile names content).get? other =
      if names = other then some (.file content) else d.get? other := by
  have hget := d.disk.get?_put (d.place names) (d.place other) (.file content) (place_ne_nil hnames)
  simp only [place_inj] at hget
  exact hget

theorem get?_without (hnames : names ≠ []) :
    (d.without names).get? other = if names = other then none else d.get? other := by
  have hget := d.disk.get?_remove (d.place names) (d.place other) (place_ne_nil hnames)
  simp only [place_inj] at hget
  exact hget

theorem file?_withFile (hnames : names ≠ []) :
    (d.withFile names content).file? other =
      if names = other then some content else d.file? other := by
  rw [file?, get?_withFile hnames]
  by_cases h : names = other
  · rw [if_pos h, if_pos h]
  · rw [if_neg h, if_neg h, file?]

theorem file?_without (hnames : names ≠ []) :
    (d.without names).file? other = if names = other then none else d.file? other := by
  rw [file?, get?_without hnames]
  by_cases h : names = other
  · rw [if_pos h, if_pos h]
  · rw [if_neg h, if_neg h, file?]

/-- A sound directory stays sound when a file is put into one of its directories. -/
theorem Sound.withFile (hs : d.Sound) (hnames : names ≠ [])
    (hparent : d.get? names.dropLast = some .directory)
    (hentry : d.get? names ≠ some .directory) : (d.withFile names content).Sound where
  root := by
    rw [get?_withFile hnames, if_neg hnames]
    exact hs.root
  parent := by
    intro front name entry h
    have hfront : d.get? front = some .directory := by
      rw [get?_withFile hnames] at h
      split at h
      · next heq =>
        rwa [heq, List.dropLast_concat] at hparent
      · exact hs.parent h
    have hne : names ≠ front := by
      rintro rfl
      exact hentry hfront
    rw [get?_withFile hnames, if_neg hne, hfront]
  no_device := by
    intro front found
    rw [get?_withFile hnames]
    split
    · simp
    · exact hs.no_device front found

/-- A sound directory stays sound when a file is taken away. -/
theorem Sound.without (hs : d.Sound) (hnames : names ≠ [])
    (hentry : d.get? names ≠ some .directory) : (d.without names).Sound where
  root := by
    rw [get?_without hnames, if_neg hnames]
    exact hs.root
  parent := by
    intro front name entry h
    have hfront : d.get? front = some .directory := by
      rw [get?_without hnames] at h
      split at h
      · cases h
      · exact hs.parent h
    have hne : names ≠ front := by
      rintro rfl
      exact hentry hfront
    rw [get?_without hnames, if_neg hne, hfront]
  no_device := by
    intro front found
    rw [get?_without hnames]
    split
    · simp
    · exact hs.no_device front found

/-- The directories that a file at names lies in have been made, and nothing else is different. -/
structure Prepared (d made : Directory) (names : List String) : Prop where
  same : SamePlace d made
  sound : made.Sound
  above : ∀ front, front <+: names.dropLast → made.get? front = some .directory
  target : made.get? names = d.get? names
  files : made.file? = d.file?

private theorem isPrefix_dropLast {front : List String} (h : front <+: names)
    (hne : front ≠ names) : front <+: names.dropLast := by
  obtain ⟨back, rfl⟩ := h
  have hback : back ≠ [] := by
    rintro rfl
    exact hne (List.append_nil front).symm
  rw [List.dropLast_append_of_ne_nil hback]
  exact List.prefix_append front back.dropLast

theorem not_isPrefix_dropLast (hnames : names ≠ []) : ¬ names <+: names.dropLast := by
  intro h
  have hlength := h.length_le
  have hpos := List.length_pos_iff.2 hnames
  rw [List.length_dropLast] at hlength
  omega

private theorem isParentUnfit_locate (hp : d.Admits p) (hnul : p.names.any Disk.hasNul = false) :
    (d.locate p).isParentUnfit = false := by
  have hparents : p.names.dropLast.any Disk.hasNul = false := by
    rw [List.any_eq_false] at hnul ⊢
    exact fun name hname ↦ hnul name (List.dropLast_subset _ hname)
  rw [Location.isParentUnfit, Location.parents, locate, hp.parent, hparents, Bool.or_false]

private theorem makeParents_locate (hp : d.Admits p) (hnul : p.names.any Disk.hasNul = false) :
    d.makeParents (d.locate p) =
      ((d.disk.makeDirectories d.root p.names.dropLast).1,
        { d with disk := (d.disk.makeDirectories d.root p.names.dropLast).2 }) := by
  rw [makeParents, isParentUnfit_locate hp hnul]
  rfl

/-- Where no file is in the way, the directories that a file lies in can be made. -/
theorem Sound.makeParents_of_free (hs : d.Sound) (hp : d.Admits p)
    (hnul : p.names.any Disk.hasNul = false)
    (hfree : ∀ front, front <+: p.names.dropLast → ∀ content, d.get? front ≠ some (.file content)) :
    ∃ made, d.makeParents (d.locate p) = (.ok (), made) ∧ d.Prepared made p.names := by
  have hway : d.disk.Free d.root p.names.dropLast := by
    intro front hfront _ entry hentry
    cases entry with
    | directory => rfl
    | file content => exact absurd hentry (hfree front hfront content)
    | device content => exact absurd hentry (hs.no_device front content)
  have hshort : ∀ name ∈ p.names.dropLast, Disk.isTooLong name = false :=
    fun name hname ↦ hp.names name (List.dropLast_subset _ hname)
  obtain ⟨hok, hmade, hkept⟩ := Disk.makeDirectories_of_free hway hshort
  refine ⟨_, (makeParents_locate hp hnul).trans (by rw [hok]), ?_⟩
  generalize (d.disk.makeDirectories d.root p.names.dropLast).2 = disk at hmade hkept
  have hroot : Directory.get? { d with disk := disk } [] = some .directory := by
    refine (hkept _ fun front _ hne heq ↦ ?_).trans hs.root
    exact hne (List.append_cancel_left heq).symm
  have habove : ∀ front, front <+: p.names.dropLast →
      Directory.get? { d with disk := disk } front = some .directory := by
    intro front hfront
    by_cases hempty : front = []
    · rw [hempty, hroot]
    · exact hmade front hfront hempty
  have hother : ∀ other, ¬ other <+: p.names.dropLast →
      Directory.get? { d with disk := disk } other = d.get? other := by
    intro other hnot
    refine hkept _ fun front hfront _ heq ↦ ?_
    rw [List.append_cancel_left heq] at hnot
    exact hnot hfront
  refine ⟨⟨rfl, rfl, rfl⟩, ⟨hroot, ?_, ?_⟩, habove, ?_, ?_⟩
  · intro front name entry h
    by_cases hfront : front <+: p.names.dropLast
    · exact habove front hfront
    · have hnot : ¬ front ++ [name] <+: p.names.dropLast :=
        fun hlong ↦ hfront ((List.prefix_append front [name]).trans hlong)
      rw [hother _ hnot] at h
      rw [hother _ hfront, hs.parent h]
  · intro front content
    by_cases hfront : front <+: p.names.dropLast
    · simp [habove front hfront]
    · rw [hother _ hfront]
      exact hs.no_device front content
  · by_cases hnames : p.names = []
    · rw [hnames, hroot, hs.root]
    · exact hother _ (not_isPrefix_dropLast hnames)
  · ext front content
    rw [file?_eq_some_iff, file?_eq_some_iff]
    by_cases hfront : front <+: p.names.dropLast
    · simp [habove front hfront, hfree front hfront content]
    · rw [hother _ hfront]

/-- Where a file is in the way, the directories that a file lies in cannot be made. -/
theorem Sound.makeParents_of_blocked (hs : d.Sound) (hp : d.Admits p)
    (hnul : p.names.any Disk.hasNul = false) {front : List String}
    (hfront : front <+: p.names.dropLast) (hfile : d.get? front = some (.file content)) :
    ∃ kind, (d.makeParents (d.locate p)).1 = .error kind := by
  have hne : front ≠ [] := by
    rintro rfl
    rw [hs.root] at hfile
    cases hfile
  rw [makeParents_locate hp hnul]
  exact Disk.makeDirectories_of_blocked hfront hne hfile Entry.noConfusion

/-- Once its directories are there, all that can keep a file from a place is what stands there. -/
theorem Prepared.refusal?_eq {made : Directory} (hmade : d.Prepared made p.names) (hp : d.Admits p)
    (hregular : p.Regular) (occupied : Entry → Option StoreErrorKind) :
    made.refusal? (d.locate p) occupied = (d.get? p.names).bind occupied := by
  obtain ⟨_, hplain, hnul⟩ := hregular
  have hopen : made.disk.Open made.root p.names :=
    fun front hfront hne ↦ hmade.above front (isPrefix_dropLast hfront hne)
  have hget : made.disk.get? (made.root ++ p.names) = d.get? p.names := hmade.target
  rw [refusal?, isUnfit_locate hp, hnul]
  simp only [locate, hplain, Bool.false_eq_true, if_false]
  rw [Disk.walk_of_open hopen hp.names, hget]
  cases d.get? p.names <;> rfl

/-- No file can be put where a path leads to by which none can be had. -/
theorem refusal?_of_not_regular (hp : d.Admits p) (hbelow : p.staysBelow = true)
    (hregular : ¬ p.Regular) (made : Directory) (occupied : Entry → Option StoreErrorKind) :
    ∃ kind, made.refusal? (d.locate p) occupied = some kind := by
  rw [refusal?, isUnfit_locate hp]
  split
  · exact ⟨_, rfl⟩
  · next hnul =>
    have hending : p.ending ≠ .plain := by
      intro hplain
      exact hregular ⟨hbelow, hplain, Bool.eq_false_iff.2 hnul⟩
    simp only [locate]
    cases h : p.ending with
    | plain => exact absurd h hending
    | slash => exact ⟨_, rfl⟩
    | dot =>
      simp only []
      split <;> exact ⟨_, rfl⟩

/-- Where there is room for a file, its directories can be made, and then only a file that is there
can keep it out. -/
theorem makeParents_of_room (hs : d.Sound) (hp : d.Admits p) (hroom : d.HasRoom p)
    (occupied : Entry → Option StoreErrorKind) :
    ∃ made, d.makeParents (d.locate p) = (.ok (), made) ∧ d.Prepared made p.names ∧
      made.refusal? (d.locate p) occupied =
        (d.file? p.names).bind fun content ↦ occupied (.file content) := by
  obtain ⟨made, hmake, hmade⟩ := hs.makeParents_of_free hp hroom.regular.2.2 hroom.free
  refine ⟨made, hmake, hmade, (hmade.refusal?_eq hp hroom.regular occupied).trans ?_⟩
  rw [file?]
  cases hentry : d.get? p.names with
  | none => rfl
  | some entry =>
    cases entry with
    | directory => exact absurd hentry hroom.not_directory
    | file content => rfl
    | device content => exact absurd hentry (hs.no_device p.names content)

/-- Where there is no room for a file, its directories cannot be made, or there is another reason
against it once they are. -/
theorem makeParents_of_no_room (hs : d.Sound) (hp : d.Admits p) (hbelow : p.staysBelow = true)
    (hroom : ¬ d.HasRoom p) {occupied : Entry → Option StoreErrorKind}
    (hoccupied : ∃ kind, occupied .directory = some kind) :
    (∃ kind, (d.makeParents (d.locate p)).1 = .error kind) ∨
      ∃ kind, (d.makeParents (d.locate p)).2.refusal? (d.locate p) occupied = some kind := by
  by_cases hregular : p.Regular
  · by_cases hfree : ∀ front, front <+: p.names.dropLast → ∀ content,
        d.get? front ≠ some (.file content)
    · have hdirectory : d.get? p.names = some .directory := by
        by_contra hnot
        exact hroom ⟨hregular, hnot, hfree⟩
      right
      obtain ⟨made, hmake, hmade⟩ := hs.makeParents_of_free hp hregular.2.2 hfree
      rw [hmake, hmade.refusal?_eq hp hregular, hdirectory]
      exact hoccupied
    · left
      push Not at hfree
      obtain ⟨front, hfront, content, hfile⟩ := hfree
      exact hs.makeParents_of_blocked hp hregular.2.2 hfront hfile
  · exact .inr (refusal?_of_not_regular hp hbelow hregular _ occupied)

/-- Another state of the directory in which only the file at a path may be different. -/
structure Next (d d' : Directory) (p : Path) (content : Option ByteArray) : Prop where
  same : SamePlace d d'
  sound : d'.Sound
  files : ∀ names, d'.file? names = if p.names = names then content else d.file? names

theorem HasRoom.names_ne_nil (hs : d.Sound) (hroom : d.HasRoom p) : p.names ≠ [] := by
  intro h
  have hroot := hroom.not_directory
  rw [h] at hroot
  exact hroot hs.root

theorem next_withFile {made : Directory} (hs : d.Sound) (hroom : d.HasRoom p)
    (hmade : d.Prepared made p.names) (content : ByteArray) :
    d.Next (made.withFile p.names content) p (some content) where
  same := hmade.same.trans ⟨rfl, rfl, rfl⟩
  sound := by
    have hparent := hmade.above p.names.dropLast (List.prefix_refl _)
    refine hmade.sound.withFile (hroom.names_ne_nil hs) hparent ?_
    rw [hmade.target]
    exact hroom.not_directory
  files names := by
    rw [file?_withFile (hroom.names_ne_nil hs), hmade.files]

/-- Where there is room for a file, it is put there if the files that are there allow it. -/
theorem place?_of_room (hs : d.Sound) (hp : d.Admits p) (hroom : d.HasRoom p)
    {content : ByteArray} {refused : Directory → Option StoreErrorKind}
    (occupied : Entry → Option StoreErrorKind)
    (hrefused : ∀ made, SamePlace d made → made.refusal? (d.locate p) occupied = none →
      refused made = none)
    (hoccupied : ∀ found, d.file? p.names = some found → occupied (.file found) = none) :
    ∃ d', d.place? (d.locate p) content refused = (.ok (), d') ∧ d.Next d' p (some content) := by
  obtain ⟨made, hmake, hmade, hrefusal⟩ := makeParents_of_room hs hp hroom occupied
  have hfree : made.refusal? (d.locate p) occupied = none := by
    rw [hrefusal, Option.bind_eq_none_iff]
    exact hoccupied
  refine ⟨made.withFile p.names content, ?_, next_withFile hs hroom hmade content⟩
  rw [place?, hmake]
  simp only [hrefused made hmade.same hfree]
  rfl

/-- Where there is no room for a file, none is put. -/
theorem place?_of_no_room (hs : d.Sound) (hp : d.Admits p) (hbelow : p.staysBelow = true)
    (hroom : ¬ d.HasRoom p) {content : ByteArray} {refused : Directory → Option StoreErrorKind}
    (occupied : Entry → Option StoreErrorKind)
    (hoccupied : ∃ kind, occupied .directory = some kind)
    (hrefused : ∀ made, refused made = none → made.refusal? (d.locate p) occupied = none) :
    ∃ kind, (d.place? (d.locate p) content refused).1 = .error kind := by
  have hno_room := makeParents_of_no_room hs hp hbelow hroom hoccupied
  rw [place?]
  cases hmake : d.makeParents (d.locate p) with
  | mk result made =>
    rw [hmake] at hno_room
    cases result with
    | error kind => exact ⟨kind, rfl⟩
    | ok =>
      simp only []
      cases hrefusal : refused made with
      | some kind => exact ⟨kind, rfl⟩
      | none =>
        obtain ⟨kind, h⟩ | ⟨kind, h⟩ := hno_room
        · cases h
        · simp only [hrefused made hrefusal, reduceCtorEq] at h

end Directory

end Patchwork
