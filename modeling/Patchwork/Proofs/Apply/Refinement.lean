import Patchwork.Proofs.Apply.Touched
import Patchwork.Proofs.Path.Plain
import Patchwork.Proofs.Store.Fits
import Patchwork.Proofs.Store.Footprint
import Patchwork.Proofs.Store.Memory
import Patchwork.Proofs.Store.Simulation

/-!
# A directory as a store in memory

Where all paths are plain, and none of them and of the files lies below another, a directory holds
files like a map does: what is applied to it goes as on a store in memory that holds the same files,
and the two hold the same files when it is over (`Directory.agrees_memory`). Directories that are
made on the way, and stay when their files are gone, make no difference.
-/

namespace Patchwork

namespace Directory

/-- A directory and a store in memory hold the same files: those of the one are at names to which
plain paths lead, those of the other under plain paths, and a plain path leads to the same file in
both. -/
structure SameFiles (d : Directory) (m : Memory) : Prop where
  files : ∀ p : Path, p.Plain → d.file? p.names = m.get? p
  named : ∀ names, d.file? names ≠ none → ∃ p : Path, p.Plain ∧ p.names = names
  plain : ∀ p, m.get? p ≠ none → ∃ q : Path, q.Plain ∧ q.Same p

/-- Below the directory there are files and the directories that they lie in, and nothing else. -/
structure Bare (d : Directory) : Prop extends Sound d where
  leads : ∀ names, d.get? names = some .directory → names = [] ∨
    ∃ back content, d.file? (names ++ back) = some content

/-- The names are those of a file or of one of the paths. -/
def InUse (d : Directory) (paths : List Path) (names : List String) : Prop :=
  (∃ content, d.file? names = some content) ∨ ∃ p ∈ paths, p.names = names

/-- The paths are plain, the disk takes them, and none of them and of the files lies below
another. -/
structure Tidy (d : Directory) (paths : List Path) : Prop where
  plain : ∀ p ∈ paths, p.Plain
  admits : ∀ p ∈ paths, d.Admits p
  apart : ∀ names other, d.InUse paths names → d.InUse paths other → names <+: other →
    names = other

variable {base d : Directory} {m : Memory} {paths : List Path} {names other : List String}
  {p : Path} {e : Edit}

theorem regular_of_plain (hp : p.Plain) (hnul : p.names.any Disk.hasNul = false) : p.Regular :=
  ⟨hp.staysBelow, hp.ending, hnul⟩

/-- No way leads through names that are in use. -/
theorem Tidy.not_above (h : d.Tidy paths) (hnames : d.InUse paths names)
    (hother : d.InUse paths other) (hne : names ≠ []) : ¬ names <+: other.dropLast := by
  intro habove
  obtain rfl := h.apart names other hnames hother (habove.trans other.dropLast_prefix)
  exact not_isPrefix_dropLast hne habove

/-- Whether paths are tidy can be told from a list of the names that files may have. -/
theorem Tidy.of_files (files : List (List String))
    (hfiles : ∀ names content, d.file? names = some content → names ∈ files)
    (hplain : ∀ p ∈ paths, p.Plain) (hadmits : ∀ p ∈ paths, d.Admits p)
    (hapart : ∀ names ∈ files ++ paths.map Path.names, ∀ other ∈ files ++ paths.map Path.names,
      names <+: other → names = other) : d.Tidy paths := by
  have hmem (names : List String) (h : d.InUse paths names) :
      names ∈ files ++ paths.map Path.names := by
    obtain ⟨content, hfile⟩ | ⟨p, hp, rfl⟩ := h
    · exact List.mem_append_left _ (hfiles names content hfile)
    · exact List.mem_append_right _ (List.mem_map_of_mem hp)
  exact ⟨hplain, hadmits, fun names other hnames hother ↦
    hapart names (hmem names hnames) other (hmem other hother)⟩

theorem Tidy.suits (h : d.Tidy paths) : d.Suits paths where
  admits := h.admits
  alike p hp q hq _ _ hnames := by
    rw [(h.plain p hp).ending, (h.plain q hq).ending, (h.plain p hp).same_iff (h.plain q hq)]
    exact ⟨hnames, rfl⟩

/-- At first there is room for every file. -/
theorem Bare.hasRoom (hd : d.Bare) (htidy : d.Tidy paths) (hp : p ∈ paths)
    (hnul : p.names.any Disk.hasNul = false) : d.HasRoom p where
  regular := regular_of_plain (htidy.plain p hp) hnul
  not_directory hentry := by
    obtain hnil | ⟨back, content, hfile⟩ := hd.leads p.names hentry
    · exact (htidy.plain p hp).names_ne_nil hnil
    · have heq := htidy.apart p.names (p.names ++ back) (.inr ⟨p, hp, rfl⟩) (.inl ⟨content, hfile⟩)
        (List.prefix_append p.names back)
      rw [← heq, file?_eq_some_iff, hentry] at hfile
      cases hfile
  free front hfront content hentry := by
    have huse : d.InUse paths front := .inl ⟨content, file?_eq_some_iff.2 hentry⟩
    refine htidy.not_above huse (.inr ⟨p, hp, rfl⟩) ?_ hfront
    rintro rfl
    rw [hd.root] at hentry
    cases hentry

/-- An edit takes no room away. -/
theorem hasRoom_perform (htidy : base.Tidy paths) (hroom : ∀ p ∈ paths, d.HasRoom p)
    (he : ∀ p ∈ e.paths, p ∈ paths) (hp : p ∈ paths) : (d.perform e).2.HasRoom p := by
  have hfootprint := d.perform_footprint e
  have hnot_above {q r : Path} (hq : q ∈ paths) (hr : r ∈ paths) : ¬ q.names <+: r.names.dropLast :=
    htidy.not_above (.inr ⟨q, hq, rfl⟩) (.inr ⟨r, hr, rfl⟩) (htidy.plain q hq).names_ne_nil
  refine ⟨(hroom p hp).regular, fun hentry ↦ ?_, fun front hfront content hentry ↦ ?_⟩
  · obtain hbefore | hmade := hfootprint.directory hentry
    · exact (hroom p hp).not_directory hbefore
    · exact hnot_above hp (he _ e.target_mem_paths) hmade
  · by_cases hedited : front ∈ e.paths.map Path.names
    · obtain ⟨q, hq, rfl⟩ := List.mem_map.1 hedited
      exact hnot_above (he q hq) hp hfront
    · rw [← file?_eq_some_iff, hfootprint.file?_eq hedited, file?_eq_some_iff] at hentry
      exact (hroom p hp).free front hfront content hentry

theorem fits_of_hasRoom (h : ∀ p ∈ e.paths, d.HasRoom p) : d.Fits e := by
  cases e with
  | write p content | create p => exact h p List.mem_cons_self
  | rename source target => exact h target (List.mem_cons_of_mem source List.mem_cons_self)
  | delete p => trivial

theorem SameFiles.content?_eq (h : d.SameFiles m) (hs : d.Sound) (hadmits : d.Admits p)
    (hplain : p.Plain) (hregular : p.Regular) : Store.content? d p = m.get? p := by
  rw [hs.content?_eq hadmits, if_pos hregular, h.files p hplain]

/-- An edit that comes to the same at its paths comes to the same everywhere. -/
theorem SameFiles.perform (h : d.SameFiles m) (hplain : ∀ p ∈ e.paths, p.Plain)
    (hsame : ∀ p ∈ e.paths, (d.perform e).2.file? p.names = (m.perform e).2.get? p) :
    (d.perform e).2.SameFiles (m.perform e).2 := by
  have hfootprint := d.perform_footprint e
  refine ⟨fun p hp ↦ ?_, fun names hnames ↦ ?_, fun p hp ↦ ?_⟩
  · by_cases hedited : ∃ q ∈ e.paths, q.names = p.names
    · obtain ⟨q, hq, hnames⟩ := hedited
      have hqp : q.Same p := ((hplain q hq).same_iff hp).2 hnames
      rw [← hnames, hsame q hq]
      exact (m.perform e).2.proper_get? q p hqp
    · have hother : ∀ q ∈ e.paths, ¬ q.Same p :=
        fun q hq hqp ↦ hedited ⟨q, hq, ((hplain q hq).same_iff hp).1 hqp⟩
      rw [hfootprint.file?_eq (by simpa using hedited), (Memory.perform_of_not_same hother).1,
        h.files p hp]
  · by_cases hedited : names ∈ e.paths.map Path.names
    · obtain ⟨q, hq, rfl⟩ := List.mem_map.1 hedited
      exact ⟨q, hplain q hq, rfl⟩
    · rw [hfootprint.file?_eq hedited] at hnames
      exact h.named names hnames
  · by_cases hedited : ∃ q ∈ e.paths, q.Same p
    · obtain ⟨q, hq, hqp⟩ := hedited
      exact ⟨q, hplain q hq, hqp⟩
    · have hother : ∀ q ∈ e.paths, ¬ q.Same p := fun q hq hqp ↦ hedited ⟨q, hq, hqp⟩
      rw [(Memory.perform_of_not_same hother).1] at hp
      exact h.plain p hp

/-- A directory that was `base` at first holds the same files as a store in memory, and there is
room for more at the paths. -/
structure Mirrors (base : Directory) (paths : List Path) (d : Directory) (m : Memory) : Prop where
  same : SamePlace base d
  sound : d.Sound
  files : d.SameFiles m
  room : ∀ p ∈ paths, d.HasRoom p

theorem Mirrors.content?_eq (h : base.Mirrors paths d m) (htidy : base.Tidy paths)
    (hp : p ∈ paths) : Store.content? d p = m.get? p :=
  h.files.content?_eq h.sound (h.same.admits (htidy.admits p hp)) (htidy.plain p hp)
    (h.room p hp).regular

/-- An edit that comes to something is made in both, and comes to the same. -/
theorem Mirrors.perform (h : base.Mirrors paths d m) (htidy : base.Tidy paths)
    (he : ∀ p ∈ e.paths, p ∈ paths) (hok : (e.effect m.get?).1 = .ok ()) :
    (d.perform e).1 = (m.perform e).1 ∧ base.Mirrors paths (d.perform e).2 (m.perform e).2 := by
  have heffect := Edit.effect_congr fun p hp ↦ h.content?_eq htidy (he p hp)
  obtain ⟨d', hperform, hsame, hsound, hcontents⟩ :=
    h.sound.perform_of_fits (h.same.suits htidy.suits) he
      (fits_of_hasRoom fun p hp ↦ h.room p (he p hp)) (heffect.1.trans hok)
  have hd : (d.perform e).2 = d' := by rw [hperform]
  have hm : (m.perform e).2.get? = (e.effect m.get?).2 := congrArg Prod.snd (m.perform_effect e)
  have hroom : ∀ p ∈ paths, (d.perform e).2.HasRoom p :=
    fun p hp ↦ hasRoom_perform htidy h.room he hp
  refine ⟨?_, h.same.trans (hd ▸ hsame), hd ▸ hsound, ?_, hroom⟩
  · rw [hperform, congrArg Prod.fst (m.perform_effect e), hok]
  · refine h.files.perform (fun p hp ↦ htidy.plain p (he p hp)) fun p hp ↦ ?_
    have hadmits := (h.same.trans hsame).admits (htidy.admits p (he p hp))
    have hcontent := hcontents p (he p hp)
    rw [hsound.content?_eq hadmits, if_pos (h.room p (he p hp)).regular] at hcontent
    rw [hd, hm, hcontent]
    exact heffect.2 p (h.content?_eq htidy (he p hp))

/-- Runs that look at the paths only go alike. -/
theorem congruence_mirrors (htidy : base.Tidy paths) :
    Congruence (base.Mirrors paths) (fun stage ↦ ∀ p ∈ stage.paths, p ∈ paths) fun _ _ a b ↦
      Outcome.Agrees (base.Mirrors paths) a b := by
  refine Outcome.congruence_agrees fun {d m} h stage hstage ↦ ?_
  refine Stage.agrees_run h (fun p hp ↦ ?_) fun e he ↦ ?_
  · refine h.sound.honest.sameFileAt m.honest ?_
    rw [h.content?_eq htidy (hstage p hp), Memory.content?_eq]
  · obtain ⟨hok, hwritten⟩ := Stage.effect_of_decide m.honest he
    rw [Memory.content?_eq] at hok
    refine h.perform htidy (fun p hp ↦ hstage p (stage.written_subset_paths ?_)) hok
    exact hwritten ▸ hp

/-- A directory that holds the same plain files as a store in memory, and nothing else but the
directories that they lie in, goes along with it: what is applied to both has the same result, or
the same error at the same change, and then they hold the same files again. The paths have to be
plain and apart, the disk has to take them, and none of their names may hold the character that the
names of files never hold. -/
theorem agrees_memory {features : Features} {doc : Document} (stop : Nat → Bool) (hd : d.Bare)
    (hfiles : d.SameFiles m) (htidy : d.Tidy (doc.paths features))
    (hnul : ∀ p ∈ doc.paths features, p.names.any Disk.hasNul = false) :
    Outcome.Agrees SameFiles (doc.apply features stop d) (doc.apply features stop m) := by
  have hstart : d.Mirrors (doc.paths features) d m :=
    ⟨.refl d, hd.toSound, hfiles, fun p hp ↦ hd.hasRoom htidy hp (hnul p hp)⟩
  obtain ⟨hresult, hlog, hstore⟩ := (congruence_mirrors htidy).apply hstart stop (d := doc)
    fun stage hstage p hp ↦ List.mem_flatMap.2 ⟨stage, hstage, hp⟩
  exact ⟨hresult, hlog, hstore.files⟩

section Instance

/-- A file can be written into a directory, and then there is nothing else that is new but the
directories that it lies in. -/
theorem Bare.write (hd : d.Bare) (hadmits : d.Admits p) (hroom : d.HasRoom p)
    (content : ByteArray) : (d.perform (.write p content)).2.Bare := by
  have hsuits : d.Suits [p] := by
    refine ⟨by simpa using hadmits, fun q hq r hr _ _ _ ↦ ?_⟩
    rw [List.mem_singleton.1 hq, List.mem_singleton.1 hr]
    exact ⟨.refl p, rfl⟩
  have hfits : d.Fits (.write p content) := hroom
  obtain ⟨d', hperform, hsame, hsound, hcontents⟩ :=
    hd.perform_of_fits hsuits (e := .write p content) (fun q hq ↦ hq) hfits rfl
  have hfootprint := d.perform_footprint (.write p content)
  rw [hperform] at hfootprint ⊢
  have hwritten : d'.file? p.names = some content := by
    have hcontent := hcontents p List.mem_cons_self
    rw [hsound.content?_eq (hsame.admits hadmits), if_pos hroom.regular] at hcontent
    exact hcontent.trans (Contents.set_self _ p _)
  refine ⟨hsound, fun names hentry ↦ ?_⟩
  obtain hbefore | habove := hfootprint.directory hentry
  · refine (hd.leads names hbefore).imp_right ?_
    rintro ⟨back, found, hfile⟩
    by_cases heq : names ++ back = p.names
    · exact ⟨back, content, heq ▸ hwritten⟩
    · exact ⟨back, found, by rw [hfootprint.file?_eq (by simpa [Edit.paths] using heq), hfile]⟩
  · obtain ⟨back, hback⟩ := habove.trans p.names.dropLast_prefix
    exact .inr ⟨back, content, hback ▸ hwritten⟩

theorem empty_bare : empty.Bare := by
  refine ⟨sound_empty, fun names hentry ↦ .inl ?_⟩
  by_contra hnames
  simp [empty, get?, place, Disk.get?, Disk.empty, hnames] at hentry

theorem file?_empty (names : List String) : empty.file? names = none := by
  rw [file?]
  by_cases hnames : names = [] <;> simp [empty, get?, place, Disk.get?, Disk.empty, hnames]

theorem sameFiles_empty : empty.SameFiles .empty := by
  refine ⟨fun p _ ↦ ?_, fun names hnames ↦ absurd (file?_empty names) hnames, fun p hp ↦ ?_⟩
  · rw [file?_empty, Memory.get?_empty]
  · rw [Memory.get?_empty] at hp
    exact absurd rfl hp

private theorem tidy_empty {p : Path} (hplain : p.Plain) (hadmits : empty.Admits p) :
    empty.Tidy [p] := by
  refine .of_files [] (fun names content hfile ↦ ?_) (by simpa using hplain)
    (by simpa using hadmits) (by simp)
  rw [file?_empty] at hfile
  cases hfile

/-- A directory with one file, which lies in a directory of its own. -/
def nested : Directory := (empty.perform (.write ⟨"a/b"⟩ "x\n".toUTF8)).2

/-- The same file in memory. -/
def nestedInMemory : Memory := (Memory.empty.perform (.write ⟨"a/b"⟩ "x\n".toUTF8)).2

private theorem mirrors_nested : empty.Mirrors [⟨"a/b"⟩] nested nestedInMemory := by
  have htidy : empty.Tidy [⟨"a/b"⟩] := tidy_empty (by decide) (by decide)
  have hstart : empty.Mirrors [⟨"a/b"⟩] empty .empty := by
    refine ⟨.refl empty, sound_empty, sameFiles_empty, fun p hp ↦ ?_⟩
    rw [List.mem_singleton.1 hp]
    exact empty_bare.hasRoom htidy List.mem_cons_self (by decide)
  exact (hstart.perform htidy (e := .write ⟨"a/b"⟩ "x\n".toUTF8) (fun p hp ↦ hp) rfl).2

/-- The file is moved into another directory, a new one is made where it was, and the moved one is
looked for there. -/
def moveAcross : Document :=
  ⟨[⟨.rename, some ⟨"a/b"⟩, some ⟨"c/d/e"⟩, []⟩, ⟨.add, none, some ⟨"a/f"⟩, []⟩,
    ⟨.copy, some ⟨"c/d/e"⟩, some ⟨"g"⟩, []⟩, ⟨.delete, some ⟨"a/b"⟩, none, []⟩]⟩

private theorem tidy_nested : nested.Tidy (moveAcross.paths .none) := by
  refine .of_files [["a", "b"]] (fun names content hfile ↦ ?_) (by decide)
    (fun p hp ↦ mirrors_nested.same.admits ?_) (by decide)
  · by_contra hother
    have hkept := (empty.perform_footprint (.write ⟨"a/b"⟩ "x\n".toUTF8)).file?_eq hother
    rw [file?_empty] at hkept
    cases hkept.symm.trans hfile
  · have hadmits : ∀ p ∈ moveAcross.paths .none, empty.Admits p := by decide
    exact hadmits p hp

theorem agrees_memory_moveAcross :
    let real := moveAcross.apply .none Document.never nested
    let foreseen := moveAcross.apply .none Document.never nestedInMemory
    nested.Bare ∧ nested.SameFiles nestedInMemory ∧ nested.Tidy (moveAcross.paths .none) ∧
      (∀ p ∈ moveAcross.paths .none, p.names.any Disk.hasNul = false) ∧
      real.result = .error ⟨3, ⟨.delete, some ⟨"a/b"⟩, none, []⟩, .notFound ⟨"a/b"⟩⟩ ∧
      Outcome.Agrees SameFiles real foreseen := by
  intro real foreseen
  have hbare : nested.Bare := by
    refine empty_bare.write (by decide) ?_ _
    exact empty_bare.hasRoom (tidy_empty (by decide) (by decide)) List.mem_cons_self (by decide)
  have hnul : ∀ p ∈ moveAcross.paths .none, p.names.any Disk.hasNul = false := by decide
  have hagrees := agrees_memory Document.never hbare mirrors_nested.files tidy_nested hnul
  exact ⟨hbare, mirrors_nested.files, tidy_nested, hnul, hagrees.result.trans rfl, hagrees⟩

/-- A file is made whose name holds the character that the names of files never hold. -/
def holdsNul : Document := ⟨[⟨.add, none, some ⟨"a\x00"⟩, []⟩]⟩

/-- In memory there are files under every name, but a disk refuses some. -/
theorem exists_not_agrees_memory :
    empty.Bare ∧ empty.SameFiles .empty ∧ empty.Tidy (holdsNul.paths .none) ∧
      (holdsNul.apply .none Document.never Memory.empty).result = .ok (.ofPaths [⟨"a\x00"⟩]) ∧
      (holdsNul.apply .none Document.never empty).result =
        .error ⟨0, ⟨.add, none, some ⟨"a\x00"⟩, []⟩, .store ⟨.io, ⟨"a\x00"⟩⟩⟩ ∧
      ¬ Outcome.Agrees SameFiles (holdsNul.apply .none Document.never empty)
        (holdsNul.apply .none Document.never Memory.empty) := by
  have hmemory : (holdsNul.apply .none Document.never Memory.empty).result =
      .ok (.ofPaths [⟨"a\x00"⟩]) := rfl
  have hdisk : (holdsNul.apply .none Document.never empty).result =
      .error ⟨0, ⟨.add, none, some ⟨"a\x00"⟩, []⟩, .store ⟨.io, ⟨"a\x00"⟩⟩⟩ := rfl
  refine ⟨empty_bare, sameFiles_empty, tidy_empty (by decide) (by decide), hmemory, hdisk, ?_⟩
  intro hagrees
  have hresult := hagrees.result
  rw [hmemory, hdisk] at hresult
  cases hresult

end Instance

end Directory

end Patchwork
