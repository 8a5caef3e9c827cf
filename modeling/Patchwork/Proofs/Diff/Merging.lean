import Patchwork.Proofs.Diff.Concatenation

/-!
# Plain sections behind other sections

The line about an old file opens a section of its own only behind one that has already come to its
old file or its hunks. Behind a section that has not, it and the lines after it are taken for a part
of that section, which then stands for both (`Section.join`). Main statement:
`parse_append_plain_iff`, a plain diff can be put behind another one exactly when it opens a section
of its own there, or when the two sections that become one come to the same changes as before.
-/

namespace Patchwork.Diff

namespace FileLine

/-- What is said of a file; where nothing is, what has been said before. -/
def orElse : FileLine → FileLine → FileLine
  | unseen, before => before
  | said, _ => said

/-- What a line about a file says is not nothing. -/
theorem of_ne_unseen (path : Option Path) : of path ≠ unseen := by
  cases path <;> exact FileLine.noConfusion

theorem orElse_of_ne_unseen {file : FileLine} (h : file ≠ unseen) (before : FileLine) :
    file.orElse before = file := by
  cases file with
  | unseen => exact absurd rfl h
  | absent | named => rfl

theorem pathOr_of_ne_unseen {file : FileLine} (h : file ≠ unseen) (path other : Option Path) :
    file.pathOr path = file.pathOr other := by
  cases file with
  | unseen => exact absurd rfl h
  | absent | named => rfl

end FileLine

namespace Section

/-- The section `s` when all that `u` says, which has no header, is noted in it. -/
def join (s u : Section) : Section where
  header := s.header
  oldFile := u.oldFile
  newFile := u.newFile.orElse s.newFile
  created := s.created || u.created
  deleted := s.deleted || u.deleted
  renameFrom := u.renameFrom <|> s.renameFrom
  renameTo := u.renameTo <|> s.renameTo
  copyFrom := u.copyFrom <|> s.copyFrom
  copyTo := u.copyTo <|> s.copyTo
  hunks := s.hunks ++ u.hunks

/-- A section of which only the line about its old file has been read. -/
def plain (path : Option Path) : Section := { opened none with oldFile := .of path }

/-- Two sections that have become one come to the same changes as before. -/
def AddsUp (s u : Section) : Prop :=
  ∃ first second both, s.reading = .ok first ∧ u.reading = .ok second ∧
    (s.join u).reading = .ok both ∧
      both.change?.toList = first.change?.toList ++ second.change?.toList

/-- Two sections that each come to a change do not come to both when they have become one. -/
theorem not_addsUp {s u : Section} {first second : Reading} (hs : s.reading = .ok first)
    (hu : u.reading = .ok second) (hfirst : first.change?.isSome = true)
    (hsecond : second.change?.isSome = true) : ¬ s.AddsUp u := by
  rintro ⟨first', second', both, hs', hu', -, hboth⟩
  rw [hs] at hs'
  rw [hu] at hu'
  cases hs'
  cases hu'
  obtain ⟨c, hc⟩ := Option.isSome_iff_exists.1 hfirst
  obtain ⟨d, hd⟩ := Option.isSome_iff_exists.1 hsecond
  rw [hc, hd] at hboth
  cases hboth' : both.change? <;> simp [hboth'] at hboth

/-- A section that has nothing but a header does not matter to a plain one that names both files. -/
theorem addsUp_opened {header : Option (Path × Path)} {u : Section} {reading : Reading}
    (hu : u.reading = .ok reading) (hold : u.oldFile ≠ .unseen) (hnew : u.newFile ≠ .unseen) :
    (opened header).AddsUp u := by
  have hjoin : (opened header).join u = { u with header } := by
    simp [join, opened, FileLine.orElse_of_ne_unseen hnew]
  have holdPath : ({ u with header } : Section).oldPath = u.oldPath :=
    FileLine.pathOr_of_ne_unseen hold _ _
  have hnewPath : ({ u with header } : Section).newPath = u.newPath :=
    FileLine.pathOr_of_ne_unseen hnew _ _
  refine ⟨.nothing, reading, reading, rfl, hu, ?_, rfl⟩
  rw [hjoin, ← hu]
  simp only [Section.reading, move, edit, anyPath, holdPath, hnewPath]

/-- Something is noted in a section that is not about its old file, and it is noted in the same way
in a section that this one has been joined to. -/
structure Notes (f : Section → Section) : Prop where
  oldFile : ∀ u, (f u).oldFile = u.oldFile
  join : ∀ s u, join s (f u) = f (join s u)

theorem Notes.id : Notes id := ⟨fun _ ↦ rfl, fun _ _ ↦ rfl⟩

theorem Notes.comp {f g : Section → Section} (hf : Notes f) (hg : Notes g) : Notes (f ∘ g) where
  oldFile u := (hf.oldFile (g u)).trans (hg.oldFile u)
  join s u := (hf.join s (g u)).trans (congrArg f (hg.join s u))

/-- The section with an open hunk put into it. -/
def withHunk (hunk? : Option OpenHunk) (s : Section) : Section :=
  match hunk? with
  | none => s
  | some h => { s with hunks := s.hunks ++ [h.hunk] }

theorem notes_withHunk (hunk? : Option OpenHunk) : Notes (withHunk hunk?) := by
  cases hunk? with
  | none => exact .id
  | some h => exact ⟨fun _ ↦ rfl, fun s u ↦ by simp only [join, withHunk, List.append_assoc]⟩

end Section

namespace Reader

open Section (Notes withHunk notes_withHunk)

/-- What a line does where a section is open that has come to its old file: something is noted in
it, or it is closed with its open hunk in it, or the line cannot be read. Which of these it is does
not depend on the section. -/
inductive Bears (close : Section → Section)
    (read : List Reading → Section → Except Problem Reader) : Prop where
  | notes (f : Section → Section) (hf : Notes f) (hunk? : Option OpenHunk)
      (h : ∀ finished u, u.oldFile ≠ .unseen → read finished u = .ok ⟨finished, some (f u), hunk?⟩)
  | closes (next : Reader) (h : ∀ finished u, u.oldFile ≠ .unseen →
      read finished u = (close u).reading.map fun reading ↦ next.behind (finished ++ [reading]))
  | refuses (h : ∀ finished u, ∃ problem, read finished u = .error problem)

private theorem openSection_of_open (finished : List Reading) (u : Section)
    (header : Option (Path × Path)) :
    openSection ⟨finished, some u, none⟩ header = u.reading.map fun reading ↦
      behind (finished ++ [reading]) ⟨[], some (.opened header), none⟩ := by
  simp only [openSection, closeSection]
  cases u.reading with
  | error problem => rfl
  | ok reading => simp only [Except.map, behind, List.append_nil]

private theorem bears_note {line : Notation} {f : Section → Section}
    (h : ∀ r, readNotation r line = .ok (r.note f)) (hf : Notes f) :
    Bears id fun finished u ↦ readNotation ⟨finished, some u, none⟩ line :=
  .notes f hf none fun finished u _ ↦ h ⟨finished, some u, none⟩

private theorem bears_readNotation (line : Notation) :
    Bears id fun finished u ↦ readNotation ⟨finished, some u, none⟩ line := by
  match line with
  | .section files => exact .closes _ fun finished u _ ↦ openSection_of_open finished u files
  | .oldFile path =>
    refine .closes ⟨[], some (.plain path), none⟩ fun finished u hu ↦ ?_
    have hbegun : u.hasBegun = true := by simp [Section.hasBegun, hu]
    simp only [readNotation, Option.all_some, hbegun, if_true, openSection_of_open]
    cases hreading : u.reading <;> simp only [id, hreading] <;> rfl
  | .hunk text =>
    cases hheader : OpenHunk.ofHeader text with
    | error problem =>
      refine .refuses fun finished u ↦ ⟨problem, ?_⟩
      simp only [readNotation, hheader]
      rfl
    | ok h =>
      refine .notes id .id (some h) fun finished u _ ↦ ?_
      simp only [readNotation, hheader]
      rfl
  | .binary _ => exact .refuses fun _ _ ↦ ⟨_, rfl⟩
  | .newFile path =>
    have hsaid := FileLine.orElse_of_ne_unseen (FileLine.of_ne_unseen path)
    exact bears_note (fun _ ↦ rfl) ⟨fun _ ↦ rfl, fun _ _ ↦ by simp only [Section.join, hsaid]⟩
  | .created | .deleted =>
    exact bears_note (fun _ ↦ rfl)
      ⟨fun _ ↦ rfl, fun _ _ ↦ by simp only [Section.join, Bool.or_true]⟩
  | .renameFrom _ | .renameTo _ | .copyFrom _ | .copyTo _ =>
    exact bears_note (fun _ ↦ rfl) ⟨fun _ ↦ rfl, fun _ _ ↦ rfl⟩
  | .other => exact .notes id .id none fun _ _ _ ↦ rfl

private theorem closeHunk_of_open (finished : List Reading) (u : Section)
    (hunk? : Option OpenHunk) :
    closeHunk ⟨finished, some u, hunk?⟩ = ⟨finished, some (withHunk hunk? u), none⟩ := by
  cases hunk? <;> rfl

/-- What a line does is the same for every section that has come to its old file. -/
private theorem bears_step (hunk? : Option OpenHunk) (line : List Char) :
    Bears (withHunk hunk?) fun finished u ↦ step ⟨finished, some u, hunk?⟩ line := by
  cases hunk? with
  | none => exact bears_readNotation (.ofLine line)
  | some h =>
    by_cases hmarker : line.head? = some '\\'
    · simp only [step, hmarker, if_true]
      cases h.mark? with
      | none => exact .refuses fun _ _ ↦ ⟨_, rfl⟩
      | some h' => exact .notes id .id (some h') fun _ _ _ ↦ rfl
    · by_cases hcomplete : h.isComplete = true
      · simp only [step, hmarker, if_false, hcomplete, if_true, closeHunk_of_open]
        have hhunk := notes_withHunk (some h)
        have hfile (u : Section) (hu : u.oldFile ≠ .unseen) :
            (withHunk (some h) u).oldFile ≠ .unseen := (hhunk.oldFile u).symm ▸ hu
        cases bears_readNotation (.ofLine line) with
        | notes f hf hunk? hread =>
          exact .notes (f ∘ withHunk (some h)) (hf.comp hhunk) hunk? fun finished u hu ↦
            hread finished _ (hfile u hu)
        | closes next hread => exact .closes next fun finished u hu ↦ hread finished _ (hfile u hu)
        | refuses hread => exact .refuses fun finished u ↦ hread finished _
      · simp only [step, hmarker, if_false, hcomplete, Bool.false_eq_true]
        cases h.push? line with
        | none => exact .refuses fun _ _ ↦ ⟨_, rfl⟩
        | some h' => exact .notes id .id (some h') fun _ _ _ ↦ rfl

private theorem finish_of_open (finished : List Reading) (u : Section) (hunk? : Option OpenHunk) :
    finish ⟨finished, some u, hunk?⟩ =
      if hunk?.all OpenHunk.isComplete then
        (withHunk hunk? u).reading.map fun reading ↦ start.behind (finished ++ [reading])
      else .error .unfinishedHunk := by
  rw [finish, closeHunk_of_open]
  split
  · simp only [closeSection, behind, start, List.append_nil]
  · rfl

/-- The lines are read to their end, where the diff ends. -/
def Ends (r : Reader) (lines : List (List Char)) (r' : Reader) : Prop :=
  ∃ r₁, r.readLines lines = .ok r₁ ∧ r₁.finish = .ok r'

theorem ends_nil_iff {r r' : Reader} : r.Ends [] r' ↔ r.finish = .ok r' := by
  simp [Ends, readLines]

theorem ends_cons_iff {r r' : Reader} {line : List Char} {lines : List (List Char)} :
    r.Ends (line :: lines) r' ↔ ∃ r₁, r.step line = .ok r₁ ∧ r₁.Ends lines r' := by
  simp only [Ends, readLines_cons_eq_ok_iff]
  exact ⟨fun ⟨r₂, ⟨r₁, hstep, hread⟩, hfinish⟩ ↦ ⟨r₁, hstep, r₂, hread, hfinish⟩,
    fun ⟨r₁, hstep, r₂, hread, hfinish⟩ ↦ ⟨r₂, ⟨r₁, hstep, hread⟩, hfinish⟩⟩

theorem ends_append_iff {r r' : Reader} {lines others : List (List Char)} :
    r.Ends (lines ++ others) r' ↔ ∃ r₁, r.readLines lines = .ok r₁ ∧ r₁.Ends others r' := by
  simp only [Ends, readLines_append_eq_ok_iff]
  exact ⟨fun ⟨r₂, ⟨r₁, hlines, hothers⟩, hfinish⟩ ↦ ⟨r₁, hlines, r₂, hothers, hfinish⟩,
    fun ⟨r₁, hlines, r₂, hothers, hfinish⟩ ↦ ⟨r₂, ⟨r₁, hlines, hothers⟩, hfinish⟩⟩

/-- Sections that are finished do not matter to how the diff ends. -/
theorem ends_behind_iff {front : List Reading} {r r' : Reader} {lines : List (List Char)} :
    (r.behind front).Ends lines r' ↔ ∃ s, r.Ends lines s ∧ s.behind front = r' := by
  simp only [Ends, readLines_behind_eq_ok_iff]
  constructor
  · rintro ⟨_, ⟨r₁, hread, rfl⟩, hfinish⟩
    obtain ⟨s, hs, rfl⟩ := finish_behind_eq_ok_iff.1 hfinish
    exact ⟨s, ⟨r₁, hread, hs⟩, rfl⟩
  · rintro ⟨s, ⟨r₁, hread, hs⟩, rfl⟩
    exact ⟨_, ⟨r₁, hread, rfl⟩, finish_behind_eq_ok_iff.2 ⟨s, hs, rfl⟩⟩

theorem Ends.unique {r a b : Reader} {lines : List (List Char)} (ha : r.Ends lines a)
    (hb : r.Ends lines b) : a = b := by
  obtain ⟨r₁, hread, hfinish⟩ := ha
  obtain ⟨r₂, hread', hfinish'⟩ := hb
  rw [hread] at hread'
  cases hread'
  rw [hfinish] at hfinish'
  exact Except.ok.inj hfinish'

/-- The section that is the first to be closed when the lines are read to their end. -/
def firstClosed (r : Reader) : List (List Char) → Option Section
  | [] => r.closeHunk.current
  | line :: lines =>
    match r.step line with
    | .error _ => none
    | .ok r' =>
      if r'.finished.length = r.finished.length then r'.firstClosed lines else r.closeHunk.current

/-- Lines that go on with a section that has come to its old file go on just so with one that has
been joined with another, and what is read behind the section is the same. -/
theorem ends_join {u : Section} {hunk? : Option OpenHunk} {lines : List (List Char)} {r : Reader}
    (hu : u.oldFile ≠ .unseen) (hends : Ends ⟨[], some u, hunk?⟩ lines r) :
    ∃ v reading, ∃ rest : Reader, firstClosed ⟨[], some u, hunk?⟩ lines = some v ∧
      v.oldFile = u.oldFile ∧ v.reading = .ok reading ∧ rest.behind [reading] = r ∧
      ∀ finished s r', Ends ⟨finished, some (Section.join s u), hunk?⟩ lines r' ↔
        ∃ both, (Section.join s v).reading = .ok both ∧ rest.behind (finished ++ [both]) = r' := by
  have hhunk := notes_withHunk hunk?
  -- A section that stays open keeps its old file, so the next line finds it the same way.
  induction lines generalizing u hunk? with
  | nil =>
    simp only [ends_nil_iff, finish_of_open] at hends ⊢
    split at hends
    · next hcomplete =>
      obtain ⟨reading, hreading, rfl⟩ := Except.map_eq_ok_iff.1 hends
      refine ⟨_, reading, start, ?_, hhunk.oldFile u, hreading, rfl, fun finished s r' ↦ ?_⟩
      · rw [firstClosed, closeHunk_of_open]
      · rw [if_pos hcomplete, Except.map_eq_ok_iff, hhunk.join]
    · cases hends
  | cons line lines ih =>
    obtain ⟨r₁, hstep, hends⟩ := ends_cons_iff.1 hends
    cases bears_step hunk? line with
    | notes f hf hunk?' h =>
      rw [h [] u hu] at hstep
      cases hstep
      obtain ⟨v, reading, rest, hfirst, hfile, hreading, hrest, hiff⟩ :=
        ih ((hf.oldFile u).symm ▸ hu) hends (notes_withHunk hunk?')
      refine ⟨v, reading, rest, ?_, hfile.trans (hf.oldFile u), hreading, hrest,
        fun finished s r' ↦ ?_⟩
      · rw [firstClosed, h [] u hu]
        exact (if_pos rfl).trans hfirst
      · rw [ends_cons_iff, h finished (Section.join s u) hu, ← hf.join, ← hiff]
        simp
    | closes next h =>
      rw [h [] u hu] at hstep
      obtain ⟨reading, hreading, rfl⟩ := Except.map_eq_ok_iff.1 hstep
      obtain ⟨rest, hrest, rfl⟩ := ends_behind_iff.1 hends
      refine ⟨_, reading, rest, ?_, hhunk.oldFile u, hreading, rfl, fun finished s r' ↦ ?_⟩
      · have hlonger : (next.behind ([] ++ [reading])).finished.length ≠
            ([] : List Reading).length := by
          simp [behind]
        rw [firstClosed, h [] u hu, hreading]
        exact (if_neg hlonger).trans (congrArg Reader.current (closeHunk_of_open _ _ _))
      · rw [ends_cons_iff, h finished (Section.join s u) hu, hhunk.join]
        simp only [Except.map_eq_ok_iff]
        constructor
        · rintro ⟨_, ⟨both, hboth, rfl⟩, hends'⟩
          obtain ⟨rest', hrest', rfl⟩ := ends_behind_iff.1 hends'
          rw [hrest.unique hrest']
          exact ⟨both, hboth, rfl⟩
        · rintro ⟨both, hboth, rfl⟩
          exact ⟨_, ⟨both, hboth, rfl⟩, ends_behind_iff.2 ⟨rest, hrest, rfl⟩⟩
    | refuses h =>
      obtain ⟨problem, hproblem⟩ := h [] u
      rw [hproblem] at hstep
      cases hstep

section Plain

variable {r r' : Reader} {line : List Char} {path : Option Path} (hfinish : r.finish = .ok r')
  (hline : Notation.ofLine line = .oldFile path) (hhead : line.head? ≠ some '\\')

include hfinish

/-- Where a diff can end, no open hunk wants lines. -/
private theorem at_of_finish : r.At r.closeHunk.finished r.closeHunk.current := by
  rw [finish] at hfinish
  split at hfinish
  · next hcomplete => exact at_of_complete hcomplete
  · cases hfinish

/-- Where a diff can end, its last section comes to something. -/
private theorem exists_reading_of_finish {s : Section} (hs : r.closeHunk.current = some s) :
    ∃ reading, s.reading = .ok reading ∧
      r' = start.behind (r.closeHunk.finished ++ [reading]) := by
  have hclose := (at_of_finish hfinish).finish_eq.symm.trans hfinish
  obtain ⟨hnone, -⟩ | ⟨s', hs', reading, hreading, rfl⟩ := closeSection_eq_ok_iff.1 hclose
  · rw [hs] at hnone
    cases hnone
  · rw [hs] at hs'
    cases hs'
    exact ⟨reading, hreading, by simp [behind, start]⟩

include hline hhead

/-- Behind a section that has begun, the line about an old file opens another one. -/
private theorem step_of_hasBegun (hbegun : ∀ s ∈ r.closeHunk.current, s.hasBegun = true) :
    r.step line = .ok (behind r'.finished ⟨[], some (.plain path), none⟩) := by
  have hat := at_of_finish hfinish
  have hclose := hat.finish_eq.symm.trans hfinish
  have hall : r.closeHunk.current.all Section.hasBegun = true := by
    rw [Option.all_eq_true]
    exact hbegun
  have hnone : r'.hunk = none := hunk_of_closeSection hclose
  rw [hat.step_eq hhead, hline]
  simp only [readNotation, hall, if_true, openSection, hclose, Except.map, hnone, behind,
    List.append_nil]
  rfl

/-- Behind a section that has not, it and what follows are a part of that section. -/
private theorem step_of_not_hasBegun {s : Section} (hs : r.closeHunk.current = some s)
    (hbegun : s.hasBegun = false) :
    r.step line = .ok ⟨r.closeHunk.finished, some (s.join (.plain path)), none⟩ := by
  have hat := at_of_finish hfinish
  rw [hat.step_eq hhead, hline, hs]
  have hjoin : s.join (.plain path) = { s with oldFile := .of path } := by
    simp [Section.join, Section.plain, Section.opened, FileLine.orElse]
  simp only [readNotation, Option.all_some, hbegun, hjoin]
  rfl

end Plain

end Reader

/-- The section that is open at the end of a diff, with its last hunk in it. -/
def lastSection (text : String) : Option Section :=
  match Reader.start.readLines (linesOf text) with
  | .ok r => r.closeHunk.current
  | .error _ => none

/-- The first section of a diff, as it is when it is closed. -/
def firstSection (text : String) : Option Section := Reader.start.firstClosed (linesOf text)

/-- A line that begins with the words about an old file is about one. -/
theorem exists_ofLine_eq_oldFile (rest : List Char) :
    ∃ path, Notation.ofLine ("--- ".toList ++ rest) = .oldFile path := by
  obtain ⟨kept, hkept⟩ :=
    exists_dropReturn_append (show "--- ".toList.getLast? ≠ some '\r' by decide) rest
  refine ⟨Notation.file "a/".toList kept, ?_⟩
  rw [Notation.ofLine, hkept]
  rfl

/-- A diff stands for a document when its lines can be read to their end. -/
theorem parse_eq_ok_iff_ends {text : String} {d : Document} :
    parse text = .ok d ↔ ∃ r, Reader.start.Ends (linesOf text) r ∧ ⟨r.changes⟩ = d := by
  rw [parse_eq_ok_iff]
  exact ⟨fun ⟨r, r', hread, hfinish, hd⟩ ↦ ⟨r', ⟨r, hread, hfinish⟩, hd⟩,
    fun ⟨r', ⟨r, hread, hfinish⟩, hd⟩ ↦ ⟨r, r', hread, hfinish, hd⟩⟩

/-- With one section in the place of two, all changes are as before when theirs are. -/
private theorem changes_behind_eq_iff {finished : List Reading} {first second both : Reading}
    {r : Reader} :
    (r.behind (finished ++ [both])).changes =
        (Reader.start.behind (finished ++ [first])).changes ++ (r.behind [second]).changes ↔
      both.change?.toList = first.change?.toList ++ second.change?.toList := by
  have hsingle (reading : Reading) :
      [reading].filterMap Reading.change? = reading.change?.toList := by
    cases h : reading.change? <;> simp [h]
  have hstart : Reader.start.changes = [] := rfl
  simp only [Reader.changes_behind, List.filterMap_append, hsingle, hstart, List.append_nil]
  rw [List.append_assoc, List.append_assoc, List.append_cancel_left_eq, ← List.append_assoc,
    List.append_cancel_right_eq]

/-- A diff that begins with the line about an old file can be put behind another one, and both say
together what they say alone, exactly when the last section of the other one has begun, or when it
comes to the same changes as before with the first section of the diff joined to it. A section that
has nothing but a header does so when the file is named that the diff makes. Two sections that each
come to a change do not. -/
theorem parse_append_plain_iff {t₁ t₂ : String} {d₁ d₂ : Document} (h₁ : '\r' ∉ t₁.toList)
    (h₂ : '\r' ∉ t₂.toList) (hend : t₁ = "" ∨ t₁.toList.getLast? = some '\n')
    (hplain : "--- ".toList <+: t₂.toList) (hd₁ : parse t₁ = .ok d₁) (hd₂ : parse t₂ = .ok d₂) :
    (parse (t₁ ++ t₂) = .ok ⟨d₁.changes ++ d₂.changes⟩ ↔
      ∀ s ∈ lastSection t₁, s.hasBegun = true ∨ ∃ u ∈ firstSection t₂, s.AddsUp u) ∧
    ∀ s ∈ lastSection t₁, ∀ u ∈ firstSection t₂,
      (∀ header, s = .opened header → u.newFile ≠ .unseen → s.AddsUp u) ∧
      ∀ first second, s.reading = .ok first → u.reading = .ok second →
        first.change?.isSome = true → second.change?.isSome = true → ¬ s.AddsUp u := by
  obtain ⟨rest, lines, hlines⟩ := exists_linesOf_eq_cons h₂ (by decide) (by decide) hplain
  obtain ⟨path, hpath⟩ := exists_ofLine_eq_oldFile rest
  have hhead : ("--- ".toList ++ rest).head? ≠ some '\\' := by simp
  obtain ⟨closed, ⟨r₁, hread₁, hfinish₁⟩, rfl⟩ := parse_eq_ok_iff_ends.1 hd₁
  obtain ⟨r₂, hends, rfl⟩ := parse_eq_ok_iff_ends.1 hd₂
  have hlast : lastSection t₁ = r₁.closeHunk.current := by rw [lastSection, hread₁]
  have hstart : Reader.start.step ("--- ".toList ++ rest) =
      .ok ⟨[], some (.plain path), none⟩ := by
    have hfinish : Reader.start.finish = .ok Reader.start := rfl
    exact Reader.step_of_hasBegun hfinish hpath hhead (by simp [Reader.start, Reader.closeHunk])
  rw [hlines, Reader.ends_cons_iff, hstart] at hends
  obtain ⟨_, heq, hends⟩ := hends
  cases heq
  have hplainFile : (Section.plain path).oldFile ≠ .unseen := FileLine.of_ne_unseen path
  obtain ⟨u, second, others, hfirst, hfile, hsecond, rfl, hiff⟩ := Reader.ends_join hplainFile hends
  have hfirstSection : firstSection t₂ = some u := by
    rw [firstSection, hlines, Reader.firstClosed, hstart]
    exact hfirst
  refine ⟨?_, fun s hs v hv ↦ ⟨?_, fun first second hs hv ↦ Section.not_addsUp hs hv⟩⟩
  · by_cases hbegun : ∀ s ∈ r₁.closeHunk.current, s.hasBegun = true
    · refine iff_of_true ?_ fun s hs ↦ .inl (hbegun s (hlast ▸ hs))
      have hstep := Reader.step_of_hasBegun hfinish₁ hpath hhead hbegun
      rw [parse_eq_ok_iff_ends, linesOf_append h₁ h₂ hend, hlines]
      refine ⟨(others.behind [second]).behind closed.finished,
        Reader.ends_append_iff.2 ⟨r₁, hread₁, ?_⟩, ?_⟩
      · exact Reader.ends_cons_iff.2 ⟨_, hstep, Reader.ends_behind_iff.2 ⟨_, hends, rfl⟩⟩
      · rw [Reader.changes_behind]
        rfl
    · obtain ⟨s, hs, hnot⟩ : ∃ s, r₁.closeHunk.current = some s ∧ s.hasBegun = false := by
        simpa using hbegun
      have hstep := Reader.step_of_not_hasBegun hfinish₁ hpath hhead hs hnot
      obtain ⟨first, hreading, rfl⟩ := Reader.exists_reading_of_finish hfinish₁ hs
      have hparse (d : Document) : parse (t₁ ++ t₂) = .ok d ↔ ∃ both,
          (s.join u).reading = .ok both ∧
            ⟨(others.behind (r₁.closeHunk.finished ++ [both])).changes⟩ = d := by
        simp only [parse_eq_ok_iff_ends, linesOf_append h₁ h₂ hend, hlines, Reader.ends_append_iff,
          Reader.ends_cons_iff, hread₁, hstep, hiff, Except.ok.injEq, exists_eq_left']
        constructor
        · rintro ⟨_, ⟨both, hboth, rfl⟩, rfl⟩
          exact ⟨both, hboth, rfl⟩
        · rintro ⟨both, hboth, rfl⟩
          exact ⟨_, ⟨both, hboth, rfl⟩, rfl⟩
      rw [hparse, hlast, hs, hfirstSection]
      simp only [Document.mk.injEq, changes_behind_eq_iff, Option.mem_some_iff, forall_eq', hnot,
        Bool.false_eq_true, false_or, exists_eq_left', Section.AddsUp, hreading, hsecond,
        Except.ok.injEq, exists_and_left]
  · rintro header rfl hnew
    rw [hfirstSection, Option.mem_some_iff] at hv
    subst hv
    exact Section.addsUp_opened hsecond (hfile ▸ hplainFile) hnew

section Instance

/-- A plain diff of one file. -/
def plainText : String := "--- a/y\n+++ b/y\n@@ -1 +1 @@\n-a\n+b\n"

/-- A diff that changes only the mode of a file. -/
def modeText : String := "diff --git a/x b/x\nold mode 100644\nnew mode 100755\n"

/-- A diff that makes an empty file. -/
def createdText : String := "diff --git a/x b/x\nnew file mode 100644\n"

/-- What the plain diff stands for. -/
def plainChange : FileChange :=
  ⟨.modify, some ⟨"y"⟩, some ⟨"y"⟩, [⟨1, 1, [.remove "a", .add "b"]⟩]⟩

private theorem parse_plainText : parse plainText = .ok ⟨[plainChange]⟩ := by decide +kernel

theorem parse_append_plain_iff_editText_modeText :
    '\r' ∉ plainText.toList ∧ "--- ".toList <+: plainText.toList ∧
      parse plainText = .ok ⟨[plainChange]⟩ ∧
      '\r' ∉ editText.toList ∧ editText.toList.getLast? = some '\n' ∧
      parse editText =
        .ok ⟨[⟨.modify, some ⟨"f"⟩, some ⟨"f"⟩, [⟨1, 1, [.remove "a", .add "b"]⟩]⟩]⟩ ∧
      parse (editText ++ plainText) =
        .ok ⟨[⟨.modify, some ⟨"f"⟩, some ⟨"f"⟩, [⟨1, 1, [.remove "a", .add "b"]⟩]⟩,
          plainChange]⟩ ∧
      '\r' ∉ modeText.toList ∧ modeText.toList.getLast? = some '\n' ∧
      parse modeText = .ok ⟨[]⟩ ∧ parse (modeText ++ plainText) = .ok ⟨[plainChange]⟩ := by
  have hplain : '\r' ∉ plainText.toList := by decide
  have hopen : "--- ".toList <+: plainText.toList := by decide
  have hedit : '\r' ∉ editText.toList := by decide
  have heditEnd : editText.toList.getLast? = some '\n' := by decide
  have hparseEdit : parse editText =
      .ok ⟨[⟨.modify, some ⟨"f"⟩, some ⟨"f"⟩, [⟨1, 1, [.remove "a", .add "b"]⟩]⟩]⟩ := by
    decide +kernel
  have hmode : '\r' ∉ modeText.toList := by decide
  have hmodeEnd : modeText.toList.getLast? = some '\n' := by decide
  have hparseMode : parse modeText = .ok ⟨[]⟩ := by decide +kernel
  have hbegun : ∀ s ∈ lastSection editText, s.hasBegun = true := by decide +kernel
  have hlast : lastSection modeText = some (.opened (some (⟨"x"⟩, ⟨"x"⟩))) := by decide +kernel
  obtain ⟨u, hfirst, hnew⟩ : ∃ u, firstSection plainText = some u ∧ u.newFile ≠ .unseen := by
    refine ⟨⟨none, .named ⟨"y"⟩, .named ⟨"y"⟩, false, false, none, none, none, none,
      [⟨1, 1, [.remove "a", .add "b"]⟩]⟩, ?_, ?_⟩ <;> decide +kernel
  refine ⟨hplain, hopen, parse_plainText, hedit, heditEnd, hparseEdit, ?_, hmode, hmodeEnd,
    hparseMode, ?_⟩
  · exact (parse_append_plain_iff hedit hplain (.inr heditEnd) hopen hparseEdit
      parse_plainText).1.2 fun s hs ↦ .inl (hbegun s hs)
  · obtain ⟨hiff, hcases⟩ := parse_append_plain_iff hmode hplain (.inr hmodeEnd) hopen hparseMode
      parse_plainText
    refine hiff.2 fun s hs ↦ .inr ⟨u, hfirst, ?_⟩
    rw [hlast, Option.mem_some_iff] at hs
    exact (hcases s (hs ▸ hlast) u hfirst).1 _ hs.symm hnew

/-- Behind a diff that makes an empty file, a plain diff makes another file in its place. -/
theorem exists_not_parse_append_plain :
    ∃ t₁ t₂ d₁ d₂, '\r' ∉ t₁.toList ∧ '\r' ∉ t₂.toList ∧ t₁.toList.getLast? = some '\n' ∧
      "--- ".toList <+: t₂.toList ∧ parse t₁ = .ok d₁ ∧ parse t₂ = .ok d₂ ∧
      parse (t₁ ++ t₂) ≠ .ok ⟨d₁.changes ++ d₂.changes⟩ := by
  have hmerged : parse (createdText ++ plainText) =
      .ok ⟨[⟨.add, none, some ⟨"y"⟩, plainChange.hunks⟩]⟩ := by
    decide +kernel
  have hcreated : parse createdText = .ok ⟨[⟨.add, none, some ⟨"x"⟩, []⟩]⟩ := by decide +kernel
  refine ⟨createdText, plainText, _, _, by decide, by decide, by decide, by decide, hcreated,
    parse_plainText, ?_⟩
  rw [hmerged]
  decide

end Instance

end Patchwork.Diff
