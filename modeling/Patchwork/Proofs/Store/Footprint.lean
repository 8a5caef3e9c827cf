import Patchwork.Proofs.Store.Room

/-!
# What an edit leaves alone on a disk

An edit of the files in a directory may make the directories that its file needs, and only where
nothing stands. Besides, it changes what stands at its own paths, and that only if it is made
(`Directory.perform_footprint`).
-/

namespace Patchwork

/-- The path at which an edit puts a file, or takes one away. -/
def Edit.target : Edit → Path
  | .write p _ | .create p | .delete p | .rename _ p => p

theorem Edit.target_mem_paths (e : Edit) : e.target ∈ e.paths := by
  cases e <;> simp [target, paths]

namespace Directory

/-- Another state of a directory, in which nothing is different but directories that lead down
`names`, made where nothing stood. -/
structure Grows (d d' : Directory) (names : List String) : Prop where
  same : SamePlace d d'
  entry : ∀ place, d'.disk.get? place = d.disk.get? place ∨
    d.disk.get? place = none ∧ d'.disk.get? place = some .directory ∧
      ∃ front, front <+: names ∧ place = d.place front

/-- Another state of a directory, in which nothing is different but what stands at one of several
places, and no directory stands where there is a difference. -/
structure Edited (d d' : Directory) (places : List (List String)) : Prop where
  same : SamePlace d d'
  entry : ∀ place, d'.disk.get? place = d.disk.get? place ∨
    d'.disk.get? place ≠ some .directory ∧ ∃ names ∈ places, place = d.place names

/-- What work at several places comes to, where a file is put at `names` if at any: directories that
the file needs are made, and if the work is done the entries at the places may be others. -/
def Footprint {ε : Type} (d : Directory) (done : Except ε Unit × Directory) (names : List String)
    (places : List (List String)) : Prop :=
  ∃ made, d.Grows made names.dropLast ∧
    (done.2 = made ∨ done.1 = .ok () ∧ made.Edited done.2 places)

variable {d d' d'' : Directory} {names other : List String} {places : List (List String)}

theorem SamePlace.place_eq (h : SamePlace d d') (names : List String) :
    d'.place names = d.place names := by
  rw [place, place, h.root]

theorem Grows.refl (d : Directory) (names : List String) : d.Grows d names :=
  ⟨.refl d, fun _ ↦ .inl rfl⟩

theorem Edited.trans (h : d.Edited d' places) (h' : d'.Edited d'' places) :
    d.Edited d'' places := by
  refine ⟨h.same.trans h'.same, fun place ↦ ?_⟩
  obtain hkept | ⟨hentry, names, hnames, rfl⟩ := h'.entry place
  · rw [hkept]
    exact h.entry place
  · exact .inr ⟨hentry, names, hnames, h.same.place_eq names⟩

theorem edited_withFile (d : Directory) (content : ByteArray) (h : names ∈ places) :
    d.Edited (d.withFile names content) places := by
  refine ⟨⟨rfl, rfl, rfl⟩, fun place ↦ ?_⟩
  obtain hkept | ⟨rfl, hput⟩ := d.disk.get?_put_or (d.place names) place (.file content)
  · exact .inl hkept
  · exact .inr ⟨by simp [withFile, hput], names, h, rfl⟩

theorem edited_without (d : Directory) (h : names ∈ places) :
    d.Edited (d.without names) places := by
  refine ⟨⟨rfl, rfl, rfl⟩, fun place ↦ ?_⟩
  obtain hkept | ⟨rfl, hgone⟩ := d.disk.get?_remove_or (d.place names) place
  · exact .inl hkept
  · exact .inr ⟨by simp [without, hgone], names, h, rfl⟩

theorem grows_makeParents (d : Directory) (l : Location) :
    d.Grows (d.makeParents l).2 l.names.dropLast := by
  rw [makeParents]
  split
  · exact .refl d _
  · refine ⟨⟨rfl, rfl, rfl⟩, fun place ↦ ?_⟩
    refine (d.disk.get?_makeDirectories place d.root l.parents).imp_right ?_
    rintro ⟨hnone, hmade, front, hfront, -, heq⟩
    exact ⟨hnone, hmade, front, hfront, heq⟩

section Footprint

variable {ε : Type}

/-- Work that was refused before anything was done. -/
theorem footprint_refused (d : Directory) (result : Except ε Unit) (names : List String)
    (places : List (List String)) : d.Footprint (result, d) names places :=
  ⟨d, .refl d _, .inl rfl⟩

theorem footprint_place? (d : Directory) (l : Location) (content : ByteArray)
    (refused : Directory → Option StoreErrorKind) :
    d.Footprint (d.place? l content refused) l.names [l.names] := by
  have hgrows := d.grows_makeParents l
  rw [place?]
  rcases hmake : d.makeParents l with ⟨_ | _, made⟩
  all_goals rw [hmake] at hgrows
  · exact ⟨made, hgrows, .inl rfl⟩
  · dsimp only
    cases refused made with
    | some kind => exact ⟨made, hgrows, .inl rfl⟩
    | none =>
      exact ⟨made, hgrows, .inr ⟨rfl, made.edited_withFile content List.mem_cons_self⟩⟩

theorem footprint_deleteAt (d : Directory) (l : Location) :
    d.Footprint (d.deleteAt l) l.names [l.names] := by
  rw [deleteAt]
  split
  · exact d.footprint_refused _ _ _
  · exact d.footprint_refused _ _ _
  · exact ⟨d, .refl d _, .inr ⟨rfl, d.edited_without List.mem_cons_self⟩⟩

theorem footprint_renameAt (d : Directory) (source target : Path) (sourceAt targetAt : Location) :
    d.Footprint (d.renameAt source target sourceAt targetAt) targetAt.names
      [sourceAt.names, targetAt.names] := by
  rw [renameAt]
  split
  · exact d.footprint_refused _ _ _
  · next content _ _ _ =>
    have hgrows := d.grows_makeParents targetAt
    rcases hmake : d.makeParents targetAt with ⟨_ | _, made⟩
    all_goals rw [hmake] at hgrows
    · exact ⟨made, hgrows, .inl rfl⟩
    · dsimp only
      cases made.refusal? targetAt overwritten with
      | some kind => exact ⟨made, hgrows, .inl rfl⟩
      | none =>
        refine ⟨made, hgrows, .inr ⟨rfl, (made.edited_without List.mem_cons_self).trans ?_⟩⟩
        exact edited_withFile _ content (List.mem_cons_of_mem _ List.mem_cons_self)
  · exact d.footprint_refused _ _ _

private theorem Footprint.about {p : Path} {done : Except StoreErrorKind Unit × Directory}
    (h : d.Footprint done names places) : d.Footprint (about p done) names places := by
  obtain ⟨made, hgrows, hdone⟩ := h
  refine ⟨made, hgrows, ?_⟩
  rcases done with ⟨_ | _, d'⟩
  · exact .inl (hdone.resolve_right (by simp))
  · exact hdone.imp_right fun hdone ↦ ⟨rfl, hdone.2⟩

end Footprint

/-- An edit, made or not, leaves everything as it is but for directories that its file needs, and,
if it is made, what stands at its paths. -/
theorem perform_footprint (d : Directory) (e : Edit) :
    d.Footprint (d.perform e) e.target.names (e.paths.map Path.names) := by
  cases e with
  | write p content | create p =>
    rw [perform, location?_eq]
    cases p.staysBelow with
    | false => exact d.footprint_refused _ _ _
    | true => exact (d.footprint_place? (d.locate p) _ _).about
  | delete p =>
    rw [perform, location?_eq]
    cases p.staysBelow with
    | false => exact d.footprint_refused _ _ _
    | true => exact (d.footprint_deleteAt (d.locate p)).about
  | rename source target =>
    rw [perform, location?_eq, location?_eq]
    cases source.staysBelow with
    | false => exact d.footprint_refused _ _ _
    | true =>
      cases target.staysBelow with
      | false => exact d.footprint_refused _ _ _
      | true => exact d.footprint_renameAt source target (d.locate source) (d.locate target)

section Names

theorem Grows.get?_or (h : d.Grows d' names) (other : List String) :
    d'.get? other = d.get? other ∨
      d.get? other = none ∧ d'.get? other = some .directory ∧ other <+: names := by
  rw [get?, get?, h.same.place_eq]
  refine (h.entry (d.place other)).imp_right ?_
  rintro ⟨hnone, hmade, front, hfront, heq⟩
  exact ⟨hnone, hmade, List.append_cancel_left heq ▸ hfront⟩

theorem Edited.get?_or (h : d.Edited d' places) (other : List String) :
    d'.get? other = d.get? other ∨ d'.get? other ≠ some .directory ∧ other ∈ places := by
  rw [get?, get?, h.same.place_eq]
  refine (h.entry (d.place other)).imp_right ?_
  rintro ⟨hentry, names, hnames, heq⟩
  exact ⟨hentry, List.append_cancel_left heq ▸ hnames⟩

variable {ε : Type} {done : Except ε Unit × Directory}

/-- Where a directory stands afterwards, one stood before, or it leads to where a file was put. -/
theorem Footprint.directory (h : d.Footprint done names places)
    (hentry : done.2.get? other = some .directory) :
    d.get? other = some .directory ∨ other <+: names.dropLast := by
  obtain ⟨made, hgrows, hdone⟩ := h
  have hmade : made.get? other = some .directory := by
    obtain rfl | ⟨-, hedited⟩ := hdone
    · exact hentry
    · obtain hkept | ⟨hno, -⟩ := hedited.get?_or other
      · rw [← hkept, hentry]
      · exact absurd hentry hno
  obtain hkept | ⟨-, -, hfront⟩ := hgrows.get?_or other
  · exact .inl (hkept ▸ hmade)
  · exact .inr hfront

/-- The files at other places stay as they were. -/
theorem Footprint.file?_eq (h : d.Footprint done names places) (hother : other ∉ places) :
    done.2.file? other = d.file? other := by
  obtain ⟨made, hgrows, hdone⟩ := h
  have hfile : made.file? other = d.file? other := by
    obtain hkept | ⟨hnone, hmade, -⟩ := hgrows.get?_or other
    · rw [file?, file?, hkept]
    · rw [file?, file?, hnone, hmade]
  obtain hmade | ⟨-, hedited⟩ := hdone
  · rw [hmade, hfile]
  · have hkept := (hedited.get?_or other).resolve_right fun h ↦ hother h.2
    rw [← hfile, file?, file?, hkept]

end Names

end Directory

end Patchwork
