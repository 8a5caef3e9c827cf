import Patchwork.Store.Disk

/-!
# Walking and making directories

What a walk finds and what making directories leaves behind, said by the entries that stand at the
places along the way. A walk whose way is open finds what stands at its end (`walk_of_open`);
directories can be made unless something else is in the way (`makeDirectories_of_free`,
`makeDirectories_of_blocked`).
-/

namespace Patchwork

namespace Disk

variable {d : Disk} {here names : List String}

/-- Everything that was taken away is gone, and nothing else is. -/
theorem get?_remove (d : Disk) (place other : List String) (hplace : place ≠ []) :
    (d.remove place).get? other = if place = other then none else d.get? other := by
  by_cases h : place = other
  · subst h
    simp [get?, remove, hplace]
  · simp [get?, remove, Std.ExtTreeMap.getElem?_erase, h]

/-- Putting an entry on a disk changes nothing else. -/
theorem get?_put_or (d : Disk) (place other : List String) (entry : Entry) :
    (d.put place entry).get? other = d.get? other ∨
      place = other ∧ (d.put place entry).get? other = some entry := by
  by_cases hother : other = []
  · exact .inl (by simp [hother, get?])
  · by_cases h : place = other
    · subst h
      exact .inr ⟨rfl, by rw [get?_put _ _ _ _ hother, if_pos rfl]⟩
    · exact .inl (by simp [get?, put, Std.ExtTreeMap.getElem?_insert, h])

/-- Taking an entry away changes nothing else. -/
theorem get?_remove_or (d : Disk) (place other : List String) :
    (d.remove place).get? other = d.get? other ∨
      place = other ∧ (d.remove place).get? other = none := by
  by_cases hother : other = []
  · exact .inl (by simp [hother, get?])
  · by_cases h : place = other
    · subst h
      exact .inr ⟨rfl, by rw [get?_remove _ _ _ hother, if_pos rfl]⟩
    · exact .inl (by simp [get?, remove, Std.ExtTreeMap.getElem?_erase, h])

theorem ne_nil_of_get?_eq_none {place : List String} (h : d.get? place = none) : place ≠ [] := by
  rintro rfl
  cases h

/-- What is put at a place last is what counts. -/
theorem put_put (d : Disk) (place : List String) (entry entry' : Entry) :
    (d.put place entry).put place entry' = d.put place entry' := by
  refine congrArg Disk.mk (Std.ExtTreeMap.ext_getElem? fun other ↦ ?_)
  by_cases h : place = other
  · simp [put, h]
  · simp [put, Std.ExtTreeMap.getElem?_insert, h]

/-- What is put where nothing stands can be taken away again. -/
theorem remove_put {place : List String} (h : d.get? place = none) (entry : Entry) :
    (d.put place entry).remove place = d := by
  have hnone : d.entries[place]? = none := by
    rw [get?] at h
    split at h
    · cases h
    · exact h
  refine congrArg Disk.mk (Std.ExtTreeMap.ext_getElem? fun other ↦ ?_)
  by_cases hother : place = other
  · subst hother
    simp [put, hnone]
  · simp [put, Std.ExtTreeMap.getElem?_insert, Std.ExtTreeMap.getElem?_erase, hother]

/-- A walk does not see what is put off its way. -/
theorem walk_put {place : List String} (h : ∀ front, front <+: names → here ++ front ≠ place)
    (entry : Entry) : (d.put place entry).walk here names = d.walk here names := by
  have hhere : (d.put place entry).get? here = d.get? here := by
    refine (d.get?_put_or place here entry).resolve_right fun ⟨heq, _⟩ ↦ ?_
    exact h [] List.nil_prefix (by rw [List.append_nil, heq])
  induction names generalizing here with
  | nil => rw [walk, walk, hhere]
  | cons name names ih =>
    have hnext : ∀ front, front <+: names → here ++ [name] ++ front ≠ place := by
      intro front hfront
      rw [List.append_assoc]
      exact h (name :: front) (List.cons_prefix_cons.2 ⟨rfl, hfront⟩)
    rw [walk, walk, hhere, ih hnext]
    refine (d.get?_put_or place _ entry).resolve_right fun ⟨heq, _⟩ ↦ ?_
    exact hnext [] List.nil_prefix (by rw [List.append_nil, heq])

/-- Directories are made on the way down only, and only where nothing stands. -/
theorem get?_makeDirectories (d : Disk) (place here names : List String) :
    (d.makeDirectories here names).2.get? place = d.get? place ∨
      d.get? place = none ∧ (d.makeDirectories here names).2.get? place = some .directory ∧
        ∃ front, front <+: names ∧ front ≠ [] ∧ place = here ++ front := by
  induction names generalizing d here with
  | nil => exact .inl rfl
  | cons name names ih =>
    have hdown (front : List String) (h : front <+: names) :
        ∃ front', front' <+: name :: names ∧ front' ≠ [] ∧
          here ++ [name] ++ front = here ++ front' :=
      ⟨name :: front, List.cons_prefix_cons.2 ⟨rfl, h⟩, List.cons_ne_nil name front,
        (List.append_cons here name front).symm⟩
    rw [makeDirectories]
    split
    · exact .inl rfl
    · cases hnext : d.get? (here ++ [name]) with
      | none =>
        simp only [hnext]
        -- What stands at a place is what stood there before or after the first directory was made.
        obtain hkept | ⟨hnone, hmade, front, hfront, -, rfl⟩ :=
          ih (d.put _ .directory) (here ++ [name])
        · rw [hkept]
          obtain hput | ⟨rfl, hput⟩ := d.get?_put_or (here ++ [name]) place .directory
          · exact .inl hput
          · exact .inr ⟨hnext, hput, by simp⟩
        · obtain hput | ⟨-, hput⟩ := d.get?_put_or (here ++ [name]) (here ++ [name] ++ front)
            .directory
          · exact .inr ⟨hput ▸ hnone, hmade, hdown front hfront⟩
          · rw [hput] at hnone
            cases hnone
      | some entry =>
        simp only [hnext]
        cases entry with
        | directory =>
          obtain hkept | ⟨hnone, hmade, front, hfront, -, rfl⟩ := ih d (here ++ [name])
          · exact .inl hkept
          · exact .inr ⟨hnone, hmade, hdown front hfront⟩
        | file content | device content => exact .inl rfl

/-- Every place on the way, but for its end, is a directory. -/
def Open (d : Disk) (here names : List String) : Prop :=
  ∀ front, front <+: names → front ≠ names → d.get? (here ++ front) = some .directory

/-- Nothing but directories stands at the places on the way, its end included. -/
def Free (d : Disk) (here names : List String) : Prop :=
  ∀ front, front <+: names → front ≠ [] → ∀ entry, d.get? (here ++ front) = some entry →
    entry = .directory

private theorem open_cons {name : String} (h : d.Open here (name :: names)) :
    d.get? here = some .directory ∧ d.Open (here ++ [name]) names := by
  constructor
  · have hhere := h [] List.nil_prefix (List.cons_ne_nil name names).symm
    rwa [List.append_nil] at hhere
  · intro front hfront hne
    rw [List.append_assoc]
    refine h (name :: front) (List.cons_prefix_cons.2 ⟨rfl, hfront⟩) ?_
    intro heq
    exact hne (List.cons.inj heq).2

/-- An open way leads to what stands at its end. -/
theorem walk_of_open (h : d.Open here names) (hshort : ∀ name ∈ names, isTooLong name = false) :
    d.walk here names =
      match d.get? (here ++ names) with
      | some entry => .ok entry
      | none => .error .notFound := by
  induction names generalizing here with
  | nil =>
    cases h : d.get? here with
    | none => simp only [walk, List.append_nil, h]
    | some entry => simp only [walk, List.append_nil, h]
  | cons name names ih =>
    obtain ⟨hhere, hopen⟩ := open_cons h
    have hname : isTooLong name = false := hshort name List.mem_cons_self
    rw [walk, hhere]
    simp only [hname, Bool.false_eq_true, if_false]
    rw [ih hopen fun other hother ↦ hshort other (List.mem_cons_of_mem name hother),
      List.append_assoc, List.singleton_append]

/-- What a walk finds stands at its end. -/
theorem get?_of_walk {entry : Entry} (h : d.walk here names = .ok entry) :
    d.get? (here ++ names) = some entry := by
  induction names generalizing here with
  | nil =>
    rw [walk] at h
    rw [List.append_nil]
    cases hget : d.get? here with
    | none =>
      rw [hget] at h
      cases h
    | some found =>
      rw [hget] at h
      cases h
      rfl
  | cons name names ih =>
    rw [walk] at h
    split at h
    · cases h
    · split at h
      · cases h
      · have hget := ih h
        rwa [List.append_assoc, List.singleton_append] at hget
    · cases h

/-- A walk finds the same on a disk that has everything that another one has. -/
theorem walk_of_kept {d' : Disk} {entry : Entry}
    (hkept : ∀ place entry, d.get? place = some entry → d'.get? place = some entry)
    (h : d.walk here names = .ok entry) : d'.walk here names = .ok entry := by
  induction names generalizing here with
  | nil =>
    have hhere := hkept _ _ (get?_of_walk h)
    rw [List.append_nil] at hhere
    rw [walk, hhere]
  | cons name names ih =>
    rw [walk] at h ⊢
    split at h
    · cases h
    · next hhere =>
      rw [hkept _ _ hhere]
      split at h
      · cases h
      · next hshort =>
        simp only [hshort, Bool.false_eq_true, if_false]
        exact ih h
    · cases h

private theorem free_cons {name : String} (h : d.Free here (name :: names)) :
    (∀ entry, d.get? (here ++ [name]) = some entry → entry = .directory) ∧
      d.Free (here ++ [name]) names := by
  constructor
  · exact h [name] (List.cons_prefix_cons.2 ⟨rfl, List.nil_prefix⟩) (List.cons_ne_nil name [])
  · intro front hfront _ entry hentry
    rw [List.append_assoc] at hentry
    exact h (name :: front) (List.cons_prefix_cons.2 ⟨rfl, hfront⟩) (List.cons_ne_nil name front)
      entry hentry

private theorem append_ne_self {place front : List String} (h : front ≠ []) :
    place ≠ place ++ front := by
  intro heq
  exact h (List.self_eq_append_right.1 heq)

private theorem free_put {place : List String} (hplace : place ≠ []) (h : d.Free place names) :
    (d.put place .directory).Free place names := by
  intro front hfront hne entry hentry
  rw [get?_put _ _ _ _ hplace, if_neg (append_ne_self hne)] at hentry
  exact h front hfront hne entry hentry

/-- Directories are made along a way on which nothing else stands, and nowhere else. -/
theorem makeDirectories_of_free (h : d.Free here names)
    (hshort : ∀ name ∈ names, isTooLong name = false) :
    (d.makeDirectories here names).1 = .ok () ∧
      (∀ front, front <+: names → front ≠ [] →
        (d.makeDirectories here names).2.get? (here ++ front) = some .directory) ∧
      ∀ place, (∀ front, front <+: names → front ≠ [] → place ≠ here ++ front) →
        (d.makeDirectories here names).2.get? place = d.get? place := by
  suffices hmake : (d.makeDirectories here names).1 = .ok () ∧
      ∀ front, front <+: names → front ≠ [] →
        (d.makeDirectories here names).2.get? (here ++ front) = some .directory by
    refine ⟨hmake.1, hmake.2, fun place hplace ↦ ?_⟩
    refine (d.get?_makeDirectories place here names).resolve_right ?_
    rintro ⟨-, -, front, hfront, hne, heq⟩
    exact hplace front hfront hne heq
  induction names generalizing d here with
  | nil => exact ⟨rfl, fun front hfront hne ↦ absurd (List.prefix_nil.1 hfront) hne⟩
  | cons name names ih =>
    obtain ⟨hnext, hrest⟩ := free_cons h
    have hname : isTooLong name = false := hshort name List.mem_cons_self
    have hnames := fun other hother ↦ hshort other (List.mem_cons_of_mem name hother)
    have hne : here ++ [name] ≠ [] := by simp
    -- The directory that comes first is there, or it is put there.
    obtain ⟨d', hmake, hget, hfree⟩ : ∃ d' : Disk,
        d.makeDirectories here (name :: names) = d'.makeDirectories (here ++ [name]) names ∧
        d'.get? (here ++ [name]) = some .directory ∧ d'.Free (here ++ [name]) names := by
      rw [makeDirectories]
      simp only [hname, Bool.false_eq_true, if_false]
      cases hentry : d.get? (here ++ [name]) with
      | none =>
        refine ⟨d.put (here ++ [name]) .directory, rfl, ?_, free_put hne hrest⟩
        rw [get?_put _ _ _ _ hne, if_pos rfl]
      | some entry =>
        have hdirectory := hnext entry hentry
        subst hdirectory
        exact ⟨d, rfl, hentry, hrest⟩
    obtain ⟨hok, hmade⟩ := ih hfree hnames
    rw [hmake]
    refine ⟨hok, fun front hfront hfront' ↦ ?_⟩
    obtain ⟨front, rfl⟩ : ∃ tail, front = name :: tail := by
      cases front with
      | nil => exact absurd rfl hfront'
      | cons first front => exact ⟨front, by rw [(List.cons_prefix_cons.1 hfront).1]⟩
    rw [List.append_cons here name front]
    by_cases hempty : front = []
    · subst hempty
      rw [List.append_nil]
      obtain hkept | ⟨-, hthere, -⟩ :=
        d'.get?_makeDirectories (here ++ [name]) (here ++ [name]) names
      · rw [hkept, hget]
      · exact hthere
    · exact hmade front (List.cons_prefix_cons.1 hfront).2 hempty

/-- Directories are not made where something else is in the way. -/
theorem makeDirectories_of_blocked {front : List String} {entry : Entry} (hfront : front <+: names)
    (hne : front ≠ []) (hentry : d.get? (here ++ front) = some entry)
    (hdirectory : entry ≠ .directory) :
    ∃ kind, (d.makeDirectories here names).1 = .error kind := by
  induction names generalizing d here front with
  | nil => exact absurd (List.prefix_nil.1 hfront) hne
  | cons name names ih =>
    obtain ⟨front, rfl⟩ : ∃ tail, front = name :: tail := by
      cases front with
      | nil => exact absurd rfl hne
      | cons first front => exact ⟨front, by rw [(List.cons_prefix_cons.1 hfront).1]⟩
    have hrest := (List.cons_prefix_cons.1 hfront).2
    rw [List.append_cons] at hentry
    rw [makeDirectories]
    split
    · exact ⟨_, rfl⟩
    · by_cases hempty : front = []
      · subst hempty
        rw [List.append_nil] at hentry
        simp only [hentry]
        cases entry with
        | directory => exact absurd rfl hdirectory
        | file content | device content => exact ⟨_, rfl⟩
      · cases hnext : d.get? (here ++ [name]) with
        | none =>
          have hput : (d.put (here ++ [name]) .directory).get? (here ++ [name] ++ front) =
              some entry := by
            rw [get?_put _ _ _ _ (by simp), if_neg (append_ne_self hempty), hentry]
          simp only [hnext]
          exact ih hrest hempty hput
        | some other =>
          simp only [hnext]
          cases other with
          | directory => exact ih hrest hempty hentry
          | file content | device content => exact ⟨_, rfl⟩

end Disk

end Patchwork
