import Patchwork.Proofs.Store.Contents
import Patchwork.Proofs.Store.Disk
import Patchwork.Store.Directory

/-!
# A directory as a store of files

A directory is sound when what lies in it is a tree of directories and files. A path then has the
content of the file at its names (`Directory.Sound.content?_eq`), if it is a path by which a file
can be had. How long names and paths may be is left to the disk (`Directory.Admits`).
-/

namespace Patchwork

/-- A path by which a file can be had: it stays below the directory, it does not ask for a
directory, and none of its names holds the character that no name may hold. -/
def Path.Regular (p : Path) : Prop :=
  p.staysBelow = true ∧ p.ending = .plain ∧ p.names.any Disk.hasNul = false

instance (p : Path) : Decidable p.Regular := inferInstanceAs (Decidable (_ ∧ _))

namespace Directory

/-- What stands at names below the directory. -/
def get? (d : Directory) (names : List String) : Option Entry := d.disk.get? (d.place names)

/-- The content of the file at names below the directory. -/
def file? (d : Directory) (names : List String) : Option ByteArray :=
  match d.get? names with
  | some (.file content) => some content
  | _ => none

/-- Where a path leads to when it stays below the directory. -/
def locate (d : Directory) (p : Path) : Location := ⟨p.names, p.ending, d.path.join p⟩

/-- Below the directory there are directories and files, and whatever there is lies in a
directory. -/
structure Sound (d : Directory) : Prop where
  root : d.get? [] = some .directory
  parent : ∀ {names : List String} {name : String} {entry : Entry},
    d.get? (names ++ [name]) = some entry → d.get? names = some .directory
  no_device : ∀ names content, d.get? names ≠ some (.device content)

/-- The disk takes the names of the path, and the paths on which work with a file at the path
depends. -/
structure Admits (d : Directory) (p : Path) : Prop where
  names : ∀ name ∈ p.names, Disk.isTooLong name = false
  full : (d.path.join p).isTooLong = false
  parent : (d.path.join p).parent.isTooLong = false
  draft : (d.working.join ((d.path.join p).parent.join ⟨draftName⟩)).isTooLong = false

instance (d : Directory) (p : Path) : Decidable (d.Admits p) :=
  decidable_of_iff
    ((∀ name ∈ p.names, Disk.isTooLong name = false) ∧ (d.path.join p).isTooLong = false ∧
      (d.path.join p).parent.isTooLong = false ∧
      (d.working.join ((d.path.join p).parent.join ⟨draftName⟩)).isTooLong = false)
    ⟨fun ⟨hnames, hfull, hparent, hdraft⟩ ↦ ⟨hnames, hfull, hparent, hdraft⟩,
      fun ⟨hnames, hfull, hparent, hdraft⟩ ↦ ⟨hnames, hfull, hparent, hdraft⟩⟩

variable {d : Directory} {p : Path} {names front : List String} {content : ByteArray}

theorem file?_eq_some_iff : d.file? names = some content ↔ d.get? names = some (.file content) := by
  rw [file?]
  split
  · next found h => rw [h, Option.some.injEq, Option.some.injEq, Entry.file.injEq]
  · next h =>
    constructor
    · intro hnone
      cases hnone
    · intro hentry
      exact absurd hentry (h content)

/-- A directory with nothing in it is sound. -/
theorem sound_empty : empty.Sound := by
  have hentry (names : List String) (hnames : names ≠ []) : empty.get? names = none := by
    simp [empty, get?, place, Disk.get?, Disk.empty, hnames]
  refine ⟨rfl, fun h ↦ ?_, fun names content h ↦ ?_⟩
  · rw [hentry _ (List.concat_ne_nil _ _)] at h
    cases h
  · by_cases hnames : names = []
    · rw [hnames] at h
      cases h
    · rw [hentry names hnames] at h
      cases h

/-- Where something stands, the places above it are directories. -/
theorem Sound.get?_of_append (hs : d.Sound) {back : List String} (hback : back ≠ []) {entry : Entry}
    (h : d.get? (front ++ back) = some entry) : d.get? front = some .directory := by
  induction back generalizing front with
  | nil => exact absurd rfl hback
  | cons name back ih =>
    by_cases hempty : back = []
    · subst hempty
      exact hs.parent h
    · rw [List.append_cons] at h
      exact hs.parent (ih hempty h)

/-- The way to something is open. -/
theorem Sound.open_of_get? (hs : d.Sound) {entry : Entry} (h : d.get? names = some entry) :
    d.disk.Open d.root names := by
  rintro front ⟨back, rfl⟩ hne
  have hback : back ≠ [] := by
    rintro rfl
    exact hne (List.append_nil front).symm
  exact hs.get?_of_append hback h

/-- A walk finds what stands at its end. -/
theorem Sound.walk_eq (hs : d.Sound) (hshort : ∀ name ∈ names, Disk.isTooLong name = false)
    {entry : Entry} : d.disk.walk d.root names = .ok entry ↔ d.get? names = some entry := by
  constructor
  · exact Disk.get?_of_walk
  · intro h
    have hget : d.disk.get? (d.root ++ names) = some entry := h
    rw [Disk.walk_of_open (hs.open_of_get? h) hshort, hget]

theorem get?_of_find {l : Location} {entry : Entry} (h : d.find l = .ok entry) :
    d.get? l.names = some entry := by
  rw [find] at h
  split at h
  · cases h
  · split at h
    · next found hwalk =>
      split at h
      · cases h
        exact Disk.get?_of_walk hwalk
      · cases h
    · cases h

/-- A directory without devices says that it holds a file exactly when the file can be read. -/
theorem Sound.honest (hs : d.Sound) : Store.Honest d := by
  intro p
  show d.holds p = (d.read p).toOption.isSome
  rw [holds, read]
  cases d.location? p with
  | none => rfl
  | some l =>
    simp only [Option.map_some]
    cases hfind : d.find l with
    | error kind => rfl
    | ok entry =>
      cases entry with
      | directory | file content => rfl
      | device content => exact absurd (get?_of_find hfind) (hs.no_device l.names content)

theorem location?_eq (d : Directory) (p : Path) :
    d.location? p = if p.staysBelow then some (d.locate p) else none := rfl

theorem isUnfit_locate (hp : d.Admits p) :
    (d.locate p).isUnfit = p.names.any Disk.hasNul := by
  rw [Location.isUnfit, locate, hp.full, Bool.false_or]

/-- What is found where a path leads to. -/
theorem Sound.find_eq_ok_iff (hs : d.Sound) (hp : d.Admits p) {entry : Entry} :
    d.find (d.locate p) = .ok entry ↔
      p.names.any Disk.hasNul = false ∧ d.get? p.names = some entry ∧
        (entry.isDirectory ∨ p.ending = .plain) := by
  rw [find, isUnfit_locate hp, ← hs.walk_eq hp.names, locate]
  cases p.names.any Disk.hasNul with
  | true => simp
  | false =>
    cases d.disk.walk d.root p.names with
    | error kind => simp
    | ok found =>
      simp only [Bool.false_eq_true, if_false, true_and, Except.ok.injEq]
      constructor
      · intro h
        split at h
        · next hfit =>
          cases h
          exact ⟨rfl, hfit⟩
        · cases h
      · rintro ⟨rfl, hfit⟩
        rw [if_pos hfit]

private theorem read_eq_ok_iff (hs : d.Sound) (hp : d.Admits p) :
    d.read p = .ok content ↔ p.Regular ∧ d.get? p.names = some (.file content) := by
  rw [read, location?_eq]
  cases hbelow : p.staysBelow with
  | false => simp [Path.Regular, hbelow]
  | true =>
    simp only [if_true]
    constructor
    · intro h
      split at h
      · next found hfind =>
        cases h
        obtain ⟨hnul, hentry, hending⟩ := (hs.find_eq_ok_iff hp).1 hfind
        exact ⟨⟨hbelow, hending.resolve_left (by simp [Entry.isDirectory]), hnul⟩, hentry⟩
      · next found hfind => exact absurd (get?_of_find hfind) (hs.no_device p.names found)
      · cases h
      · cases h
    · rintro ⟨⟨_, hplain, hnul⟩, hentry⟩
      rw [(hs.find_eq_ok_iff hp).2 ⟨hnul, hentry, .inr hplain⟩]

/-- The content at a path is that of the file at its names, if a file can be had by the path. -/
theorem Sound.content?_eq (hs : d.Sound) (hp : d.Admits p) :
    Store.content? d p = if p.Regular then d.file? p.names else none := by
  ext content
  rw [Store.content?_eq_some_iff]
  refine (read_eq_ok_iff hs hp).trans ?_
  split
  · next h => rw [file?_eq_some_iff, and_iff_right h]
  · next h => simp [h]

end Directory

end Patchwork
