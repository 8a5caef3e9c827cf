import Mathlib.Data.Fintype.EquivFin
import Patchwork.Proofs.Store.Footprint

/-!
# The calls that an edit makes

An edit of the files in a directory is a row of calls to the operating system. Most of them prepare
it: they look at what is there, make directories, or write a draft, a file of its own in the
directory that holds the place which it is for (specification, section 5). One completes it. Any
call may be refused, for the reasons that the disk has or for others; a refused call changes nothing
and ends the edit, and then the draft is taken away (`Directory.attempt`). Where the system refuses
nothing of its own accord, this is what performing the edit does (`Directory.attempt_eq_perform`).
-/

namespace Patchwork

/-- A call that prepares an edit. -/
inductive Preparation where
  /-- Finds out whether the disk takes the path of the directory that a location lies in. -/
  | reach (l : Location)
  /-- Makes the directory of a name in another one, unless it is there. Whether it is the last one
  on its way shows in the error. -/
  | enter (here : List String) (name : String) (last : Bool)
  /-- Looks for a file. -/
  | seek (l : Location)
  /-- Looks whether nothing stands at a location. -/
  | spare (l : Location)
  /-- Makes an empty draft. -/
  | openDraft (l : Location)
  /-- Writes the draft. -/
  | fill (content : ByteArray)
  /-- Gives the draft the mode of the file that it is to replace. A disk here keeps no modes. -/
  | keepMode

/-- The call that completes an edit. -/
inductive Completion where
  /-- Moves the draft to a location. -/
  | settle (l : Location)
  | create (l : Location)
  | delete (l : Location)
  | move (source target : Location)

/-- The calls of an edit, each with the path that its error is about. -/
structure Plan where
  preparations : List (Path × Preparation)
  completion : Path × Completion

/-- What an operating system does of its own accord during an edit. -/
structure System where
  /-- The error with which it refuses the call of a number, if it does. -/
  refuses : Nat → Option StoreErrorKind
  /-- The name that a draft gets. -/
  draftName : String
  /-- How much of a draft is written after each of its writes but the last. -/
  stops : List Nat

/-- The calls that write a draft which has been made. -/
def System.filling (system : System) (content : ByteArray) : List Preparation :=
  system.stops.map (fun stop ↦ .fill (content.extract 0 stop)) ++ [.fill content, .keepMode]

/-- A directory in the middle of an edit, and the place of the draft on its disk. -/
structure Work where
  dir : Directory
  draft : Option (List String)

namespace Directory

/-- Where a draft for a location is made: in the directory that the parent of the full path leads
to. For a path with names this is where the location lies. A path without names, such as `.`, leads
to the directory whose files are meant, and the parent is that of the path by which the directory is
named. It may lead out of the directory. -/
def draftHome (d : Directory) (l : Location) : List String :=
  if l.names = [] then (d.disk.resolve? [] (d.working.join l.full.parent)).getD d.root
  else d.place l.parents

/-- The place of a draft for a location. -/
def draftPlace (d : Directory) (l : Location) (name : String) : List String :=
  d.draftHome l ++ [name]

/-- The calls that make the directories which names lead through, down from a place. -/
def entering (here : List String) : List String → List Preparation
  | [] => []
  | name :: names => .enter here name names.isEmpty :: entering (here ++ [name]) names

/-- The calls that make the directories which a location lies in. -/
def opening (d : Directory) (l : Location) : List Preparation :=
  .reach l :: entering d.root l.parents

/-- The calls of an edit, unless one of its paths is refused at once. -/
def plan (d : Directory) (system : System) : Edit → Except StoreError Plan
  | .write p content =>
    match d.location? p with
    | none => .error ⟨.outsideRoot, p⟩
    | some l =>
      .ok ⟨(d.opening l ++ .openDraft l :: system.filling content).map (p, ·), p, .settle l⟩
  | .create p =>
    match d.location? p with
    | none => .error ⟨.outsideRoot, p⟩
    | some l => .ok ⟨(d.opening l).map (p, ·), p, .create l⟩
  | .delete p =>
    match d.location? p with
    | none => .error ⟨.outsideRoot, p⟩
    | some l => .ok ⟨[], p, .delete l⟩
  | .rename source target =>
    match d.location? source with
    | none => .error ⟨.outsideRoot, source⟩
    | some sourceAt =>
      match d.location? target with
      | none => .error ⟨.outsideRoot, target⟩
      | some targetAt =>
        .ok ⟨(source, .seek sourceAt) :: (target, .spare targetAt) ::
          (d.opening targetAt).map (target, ·), source, .move sourceAt targetAt⟩

/-- Moves what stands at a place of the disk to a location. -/
def moveTo (d : Directory) (place : List String) (l : Location) :
    Except StoreErrorKind Directory :=
  match d.refusal? l overwritten, d.disk.get? place with
  | some kind, _ => .error kind
  | none, none => .error .notFound
  | none, some entry =>
    .ok { d with disk := (d.disk.remove place).put (d.place l.names) entry }

end Directory

namespace Work

open Directory

/-- The draft is taken away when its edit ends. -/
def drop (w : Work) : Directory :=
  match w.draft with
  | none => w.dir
  | some place => { w.dir with disk := w.dir.disk.remove place }

/-- What a call that prepares an edit does, if the disk takes it. There is one draft at most. -/
def prepare (draftName : String) (w : Work) : Preparation → Except StoreErrorKind Work
  | .reach l => if l.isParentUnfit then .error .io else .ok w
  | .enter here name last =>
    if Disk.isTooLong name then .error .io
    else
      match w.dir.disk.get? (here ++ [name]) with
      | none =>
        .ok { w with dir := { w.dir with disk := w.dir.disk.put (here ++ [name]) .directory } }
      | some .directory => .ok w
      | some _ => .error (if last then .alreadyExists else .io)
  | .seek l =>
    match w.dir.find l with
    | .ok (.file _) => .ok w
    | _ => .error .notFound
  | .spare l =>
    match w.dir.find l with
    | .ok _ => .error .alreadyExists
    | .error _ => .ok w
  | .openDraft l =>
    let place := w.dir.draftPlace l draftName
    if (w.dir.draft l).isTooLong then .error .io
    else
      match w.draft, w.dir.disk.get? place with
      | none, none =>
        .ok ⟨{ w.dir with disk := w.dir.disk.put place (.file .empty) }, some place⟩
      | _, _ => .error .alreadyExists
  | .fill content =>
    match w.draft with
    | none => .error .io
    | some place => .ok ⟨{ w.dir with disk := w.dir.disk.put place (.file content) }, some place⟩
  | .keepMode => .ok w

/-- What becomes of an edit when the system refuses a call. Who looks and is refused sees nothing
there. -/
def refused (w : Work) (kind : StoreErrorKind) : Preparation → Except StoreErrorKind Work
  | .seek _ => .error .notFound
  | .spare _ => .ok w
  | _ => .error kind

/-- What the call of a number that prepares an edit comes to. -/
def ask (system : System) (w : Work) (number : Nat) (call : Preparation) :
    Except StoreErrorKind Work :=
  match system.refuses number with
  | some kind => w.refused kind call
  | none => w.prepare system.draftName call

/-- Makes the calls that prepare an edit, up to the first that fails. -/
def prepareAll (system : System) (w : Work) (number : Nat) :
    List (Path × Preparation) → Except StoreError Unit × Work
  | [] => (.ok (), w)
  | (p, call) :: calls =>
    match w.ask system number call with
    | .error kind => (.error ⟨kind, p⟩, w)
    | .ok w' => w'.prepareAll system (number + 1) calls

/-- The states that these calls pass through, one behind each call that does not fail. -/
def passed (system : System) (w : Work) (number : Nat) : List (Path × Preparation) → List Work
  | [] => []
  | (_, call) :: calls =>
    match w.ask system number call with
    | .error _ => []
    | .ok w' => w' :: w'.passed system (number + 1) calls

/-- What the call that completes an edit does, if the disk takes it. -/
def complete (w : Work) : Completion → Except StoreErrorKind Directory
  | .settle l =>
    match w.draft with
    | none => .error .notFound
    | some place => w.dir.moveTo place l
  | .create l =>
    match createRefusal? l w.dir with
    | some kind => .error kind
    | none => .ok (w.dir.withFile l.names .empty)
  | .delete l =>
    match w.dir.find l with
    | .error kind => .error kind
    | .ok .directory => .error .io
    | .ok _ => .ok (w.dir.without l.names)
  | .move source target =>
    match w.dir.find source with
    | .error kind => .error kind
    | .ok _ => w.dir.moveTo (w.dir.place source.names) target

/-- Makes the call that completes an edit. -/
def finish (system : System) (w : Work) (number : Nat) (call : Path × Completion) :
    Except StoreError Unit × Directory :=
  match system.refuses number with
  | some kind => (.error ⟨kind, call.1⟩, w.drop)
  | none =>
    match w.complete call.2 with
    | .error kind => (.error ⟨kind, call.1⟩, w.drop)
    | .ok d => (.ok (), d)

end Work

namespace Directory

/-- Makes the calls of an edit one after the other, as far as they are not refused. -/
def attempt (system : System) (d : Directory) (e : Edit) :
    Except StoreError Unit × Directory :=
  match d.plan system e with
  | .error error => (.error error, d)
  | .ok plan =>
    match Work.prepareAll system ⟨d, none⟩ 0 plan.preparations with
    | (.error error, w) => (.error error, w.drop)
    | (.ok (), w) => w.finish system plan.preparations.length plan.completion

/-- The disks that an edit passes through, one behind each of its calls. -/
def passed (system : System) (d : Directory) (e : Edit) : List Disk :=
  match d.plan system e with
  | .error _ => []
  | .ok plan =>
    (Work.passed system ⟨d, none⟩ 0 plan.preparations).map (·.dir.disk) ++
      [(d.attempt system e).2.disk]

/-- Work in which the draft is all that differs from a directory. -/
def drafted (d : Directory) (place : List String) (content : ByteArray) : Work :=
  ⟨{ d with disk := d.disk.put place (.file content) }, some place⟩

variable {d : Directory} {system : System} {p source target : Path} {calls : Plan}

theorem plan_write_eq_ok_iff {content : ByteArray} :
    d.plan system (.write p content) = .ok calls ↔ p.staysBelow = true ∧ calls =
      ⟨(d.opening (d.locate p) ++ .openDraft (d.locate p) :: system.filling content).map (p, ·),
        p, .settle (d.locate p)⟩ := by
  rw [plan, location?_eq]
  cases p.staysBelow <;> simp [eq_comm]

theorem plan_create_eq_ok_iff :
    d.plan system (.create p) = .ok calls ↔ p.staysBelow = true ∧
      calls = ⟨(d.opening (d.locate p)).map (p, ·), p, .create (d.locate p)⟩ := by
  rw [plan, location?_eq]
  cases p.staysBelow <;> simp [eq_comm]

theorem plan_delete_eq_ok_iff :
    d.plan system (.delete p) = .ok calls ↔
      p.staysBelow = true ∧ calls = ⟨[], p, .delete (d.locate p)⟩ := by
  rw [plan, location?_eq]
  cases p.staysBelow <;> simp [eq_comm]

theorem plan_rename_eq_ok_iff :
    d.plan system (.rename source target) = .ok calls ↔
      (source.staysBelow = true ∧ target.staysBelow = true) ∧ calls =
        ⟨(source, .seek (d.locate source)) :: (target, .spare (d.locate target)) ::
          (d.opening (d.locate target)).map (target, ·),
          source, .move (d.locate source) (d.locate target)⟩ := by
  rw [plan, location?_eq, location?_eq]
  cases source.staysBelow <;> cases target.staysBelow <;> simp [eq_comm]

end Directory

namespace Work

open Directory

variable {system : System} {w w' : Work} {number : Nat} {l : Location}
  {calls : List (Path × Preparation)}

theorem ask_reach_eq_ok_iff :
    w.ask system number (.reach l) = .ok w' ↔
      system.refuses number = none ∧ l.isParentUnfit = false ∧ w' = w := by
  rw [ask]
  cases system.refuses number with
  | some kind => simp [refused]
  | none => cases hfit : l.isParentUnfit <;> simp [prepare, hfit, eq_comm]

theorem ask_openDraft_eq_ok_iff :
    w.ask system number (.openDraft l) = .ok w' ↔
      system.refuses number = none ∧ (w.dir.draft l).isTooLong = false ∧ w.draft = none ∧
        w.dir.disk.get? (w.dir.draftPlace l system.draftName) = none ∧
        w' = w.dir.drafted (w.dir.draftPlace l system.draftName) .empty := by
  rw [ask]
  cases system.refuses number with
  | some kind => simp [refused]
  | none =>
    cases hlong : (w.dir.draft l).isTooLong with
    | true => simp [prepare, hlong]
    | false =>
      cases hdraft : w.draft <;>
        cases hget : w.dir.disk.get? (w.dir.draftPlace l system.draftName) <;>
        simp [prepare, hlong, hdraft, hget, drafted, eq_comm]

/-- What a call that does not fail may do: nothing, or it makes a directory or the draft where
nothing stands, or it writes the draft. -/
theorem exists_of_ask {call : Preparation} (h : w.ask system number call = .ok w') :
    w' = w ∨
    (∃ here name last, call = .enter here name last ∧
      w.dir.disk.get? (here ++ [name]) = none ∧
      w' = { w with
        dir := { w.dir with disk := w.dir.disk.put (here ++ [name]) .directory } }) ∨
    (∃ l, call = .openDraft l ∧ w.draft = none ∧
      w.dir.disk.get? (w.dir.draftPlace l system.draftName) = none ∧
      w' = w.dir.drafted (w.dir.draftPlace l system.draftName) .empty) ∨
    ∃ place content, call = .fill content ∧ w.draft = some place ∧
      w' = w.dir.drafted place content := by
  cases call with
  | openDraft l =>
    obtain ⟨-, -, hdraft, hfree, rfl⟩ := ask_openDraft_eq_ok_iff.1 h
    exact .inr (.inr (.inl ⟨l, rfl, hdraft, hfree, rfl⟩))
  | reach l => exact .inl (ask_reach_eq_ok_iff.1 h).2.2
  | seek l | spare l =>
    rw [ask] at h
    split at h
    · cases h <;> exact .inl rfl
    · rw [prepare] at h
      split at h <;> cases h
      exact .inl rfl
  | enter here name last =>
    rw [ask] at h
    split at h
    · cases h
    · rw [prepare] at h
      split at h
      · cases h
      · split at h <;> cases h
        · exact .inr (.inl ⟨here, name, last, rfl, ‹_›, rfl⟩)
        · exact .inl rfl
  | fill content =>
    rw [ask] at h
    split at h
    · cases h
    · rw [prepare] at h
      split at h <;> cases h
      exact .inr (.inr (.inr ⟨_, content, rfl, ‹_›, rfl⟩))
  | keepMode =>
    rw [ask] at h
    split at h <;> cases h
    exact .inl rfl

theorem mem_passed_cons_iff {call : Path × Preparation} :
    w' ∈ w.passed system number (call :: calls) ↔
      ∃ next, w.ask system number call.2 = .ok next ∧
        (w' = next ∨ w' ∈ next.passed system (number + 1) calls) := by
  rw [passed]
  cases w.ask system number call.2 with
  | error kind => simp
  | ok next => simp

/-- What holds at first and is kept by each call holds of every state passed through. -/
theorem forall_passed {I : Work → Prop} (hw : I w)
    (hask : ∀ {w w' number}, ∀ call ∈ calls, I w → w.ask system number call.2 = .ok w' → I w') :
    ∀ w' ∈ w.passed system number calls, I w' := by
  induction calls generalizing w number with
  | nil => exact fun w' hw' ↦ absurd hw' List.not_mem_nil
  | cons call calls ih =>
    rw [passed]
    cases hnext : w.ask system number call.2 with
    | error kind => exact fun w' hw' ↦ absurd hw' List.not_mem_nil
    | ok next =>
      have hnext' : I next := hask call List.mem_cons_self hw hnext
      refine List.forall_mem_cons.2 ⟨hnext', ih hnext' fun other hother ↦ ?_⟩
      exact hask other (List.mem_cons_of_mem call hother)

/-- The calls end where they started or in a state that they have passed through. -/
theorem prepareAll_eq_or_mem_passed :
    (w.prepareAll system number calls).2 = w ∨
      (w.prepareAll system number calls).2 ∈ w.passed system number calls := by
  induction calls generalizing w number with
  | nil => exact .inl rfl
  | cons call calls ih =>
    rw [prepareAll, passed]
    cases w.ask system number call.2 with
    | error kind => exact .inl rfl
    | ok next =>
      refine .inr ?_
      obtain heq | hmem := @ih next (number + 1)
      · rw [heq]
        exact List.mem_cons_self
      · exact List.mem_cons_of_mem next hmem

end Work

/-- A system refuses nothing of its own accord, and the name that it gives to a draft is a new one
beside the target. -/
structure System.Calm (system : System) (d : Directory) (e : Edit) : Prop where
  agrees : ∀ number, system.refuses number = none
  free : d.disk.get? (d.draftPlace (d.locate e.target) system.draftName) = none
  apart : d.draftPlace (d.locate e.target) system.draftName ≠ d.place e.target.names

/-- There is always a new name for a draft, and so a system that is calm. -/
theorem System.exists_calm (d : Directory) (e : Edit) : ∃ system : System, system.Calm d e := by
  let taken : List (List String) := d.place e.target.names :: d.disk.entries.keys
  obtain ⟨name, hname⟩ := Infinite.exists_notMem_finset (taken.map (·.getLastD "")).toFinset
  have hnew : d.draftPlace (d.locate e.target) name ∉ taken := by
    intro hmem
    refine hname (List.mem_toFinset.2 (List.mem_map.2 ⟨_, hmem, ?_⟩))
    rw [Directory.draftPlace, List.getLastD_concat]
  obtain ⟨hapart, hfree⟩ := List.ne_and_not_mem_of_not_mem_cons hnew
  refine ⟨⟨fun _ ↦ none, name, []⟩, fun _ ↦ rfl, ?_, hapart⟩
  have hne : d.draftPlace (d.locate e.target) name ≠ [] := List.concat_ne_nil _ _
  rw [Disk.get?, if_neg (by simpa using hne)]
  exact Std.ExtTreeMap.getElem?_eq_none fun hmem ↦ hfree (Std.ExtTreeMap.mem_keys.2 hmem)

section Agreement

variable {system : System} {w : Work} {p : Path} {number : Nat}

namespace Work

theorem ask_of_agrees (h : ∀ number, system.refuses number = none) (call : Preparation) :
    w.ask system number call = w.prepare system.draftName call := by
  rw [ask, h]

theorem finish_of_agrees (h : ∀ number, system.refuses number = none) (call : Path × Completion) :
    w.finish system number call =
      match w.complete call.2 with
      | .error kind => (.error ⟨kind, call.1⟩, w.drop)
      | .ok d => (.ok (), d) := by
  rw [finish, h]

/-- Calls that are made after others. -/
theorem prepareAll_append (calls calls' : List (Path × Preparation)) :
    w.prepareAll system number (calls ++ calls') =
      match w.prepareAll system number calls with
      | (.error error, w') => (.error error, w')
      | (.ok (), w') => w'.prepareAll system (number + calls.length) calls' := by
  induction calls generalizing w number with
  | nil => rfl
  | cons call calls ih =>
    rw [List.cons_append, prepareAll, prepareAll]
    cases w.ask system number call.2 with
    | error kind => rfl
    | ok w' =>
      dsimp only
      rw [ih, List.length_cons, Nat.add_assoc, Nat.add_comm 1]

end Work

namespace Directory

variable {d : Directory} {l : Location}

/-- Directories are made one by one. -/
private theorem prepareAll_entering (h : ∀ number, system.refuses number = none) (disk : Disk)
    (here names : List String) :
    Work.prepareAll system ⟨{ d with disk := disk }, none⟩ number
        ((entering here names).map (p, ·)) =
      ((disk.makeDirectories here names).1.mapError (⟨·, p⟩),
        ⟨{ d with disk := (disk.makeDirectories here names).2 }, none⟩) := by
  induction names generalizing disk here number with
  | nil => rfl
  | cons name names ih =>
    rw [entering, List.map_cons, Work.prepareAll, Work.ask_of_agrees h, Work.prepare,
      Disk.makeDirectories]
    cases Disk.isTooLong name with
    | true => rfl
    | false =>
      simp only [Bool.false_eq_true, if_false]
      cases disk.get? (here ++ [name]) with
      | none => exact ih _ _
      | some entry =>
        cases entry with
        | directory => exact ih _ _
        | file content | device content => rfl

theorem prepareAll_opening (h : ∀ number, system.refuses number = none) :
    Work.prepareAll system ⟨d, none⟩ number ((d.opening l).map (p, ·)) =
      ((d.makeParents l).1.mapError (⟨·, p⟩), ⟨(d.makeParents l).2, none⟩) := by
  rw [opening, List.map_cons, Work.prepareAll, Work.ask_of_agrees h, Work.prepare, makeParents]
  cases l.isParentUnfit with
  | true => rfl
  | false => exact prepareAll_entering h d.disk d.root l.parents

private theorem drop_drafted {place : List String} (h : d.disk.get? place = none)
    (content : ByteArray) : (d.drafted place content).drop = d := by
  rw [Work.drop, drafted]
  dsimp only
  rw [Disk.remove_put h]

/-- A draft that has been made ends up with all of its content. -/
private theorem prepareAll_filling (h : ∀ number, system.refuses number = none)
    (place : List String) (begun content : ByteArray) :
    (d.drafted place begun).prepareAll system number ((system.filling content).map (p, ·)) =
      (.ok (), d.drafted place content) := by
  rw [System.filling]
  induction system.stops generalizing begun number with
  | nil =>
    simp only [List.map_nil, List.nil_append, List.map_cons, Work.prepareAll,
      Work.ask_of_agrees h, Work.prepare, drafted, Disk.put_put]
  | cons stop stops ih =>
    simp only [List.map_cons, List.cons_append, Work.prepareAll, Work.ask_of_agrees h,
      Work.prepare, drafted, Disk.put_put]
    exact ih _

private theorem prepareAll_drafting (h : ∀ number, system.refuses number = none)
    (hfree : d.disk.get? (d.draftPlace l system.draftName) = none) (content : ByteArray) :
    Work.prepareAll system ⟨d, none⟩ number
        ((.openDraft l :: system.filling content).map (p, ·)) =
      if (d.draft l).isTooLong then (.error ⟨.io, p⟩, ⟨d, none⟩)
      else (.ok (), d.drafted (d.draftPlace l system.draftName) content) := by
  rw [List.map_cons, Work.prepareAll, Work.ask_of_agrees h, Work.prepare]
  cases (d.draft l).isTooLong with
  | true => rfl
  | false =>
    simp only [Bool.false_eq_true, if_false, hfree]
    exact prepareAll_filling h _ _ _

/-- A draft does not lie on the way to the place that it is for. -/
private theorem place_ne_draftPlace {name : String}
    (h : d.draftPlace l name ≠ d.place l.names) :
    ∀ front, front <+: l.names → d.place front ≠ d.draftPlace l name := by
  intro front hfront heq
  by_cases hwhole : front = l.names
  · exact h (hwhole ▸ heq.symm)
  · have hshort := hfront.length_le
    have hne : front.length ≠ l.names.length := fun hlength ↦ hwhole (hfront.eq_of_length hlength)
    have hnames : l.names ≠ [] := by
      intro hnil
      rw [hnil] at hshort hne
      exact hne (Nat.le_zero.1 hshort)
    have hlength := congrArg List.length heq
    simp only [draftPlace, draftHome, if_neg hnames, place, Location.parents, List.length_append,
      List.length_dropLast, List.length_cons, List.length_nil] at hlength
    omega

/-- What would keep a file from a location does not depend on what lies off the way there. -/
private theorem refusal?_put {place : List String}
    (h : ∀ front, front <+: l.names → d.place front ≠ place) (entry : Entry)
    (occupied : Entry → Option StoreErrorKind) :
    refusal? { d with disk := d.disk.put place entry } l occupied = d.refusal? l occupied := by
  rw [refusal?, refusal?]
  dsimp only
  rw [Disk.walk_put h]

private theorem finish_settle (h : ∀ number, system.refuses number = none)
    (hfree : d.disk.get? (d.draftPlace l system.draftName) = none)
    (hapart : d.draftPlace l system.draftName ≠ d.place l.names) (content : ByteArray) :
    (d.drafted (d.draftPlace l system.draftName) content).finish system number
        (p, .settle l) =
      match d.refusal? l overwritten with
      | some kind => (.error ⟨kind, p⟩, d)
      | none => (.ok (), d.withFile l.names content) := by
  rw [Work.finish_of_agrees h, drop_drafted hfree]
  generalize hplace : d.draftPlace l system.draftName = place at hfree hapart
  have hrefusal := refusal?_put (hplace ▸ place_ne_draftPlace (hplace ▸ hapart)) (.file content)
    overwritten
  have hput : (d.disk.put place (.file content)).get? place = some (.file content) := by
    rw [Disk.get?_put _ _ _ _ (Disk.ne_nil_of_get?_eq_none hfree), if_pos rfl]
  simp only [Work.complete, drafted, moveTo, hrefusal, hput]
  cases d.refusal? l overwritten with
  | some kind => rfl
  | none =>
    simp only [Disk.remove_put hfree]
    rfl

/-- What is found can still be found when directories have been made. -/
private theorem Grows.find {d' : Directory} {names : List String} (h : d.Grows d' names)
    {entry : Entry} (hfind : d.find l = .ok entry) : d'.find l = .ok entry := by
  have hkept (place : List String) (entry : Entry) (hget : d.disk.get? place = some entry) :
      d'.disk.get? place = some entry := by
    obtain hsame | ⟨hnone, -⟩ := h.entry place
    · rw [hsame, hget]
    · rw [hnone] at hget
      cases hget
  rw [Directory.find] at hfind ⊢
  cases hunfit : l.isUnfit with
  | true =>
    rw [hunfit] at hfind
    cases hfind
  | false =>
    cases hwalk : d.disk.walk d.root l.names with
    | error kind => simp [hunfit, hwalk] at hfind
    | ok found =>
      rw [hunfit, hwalk] at hfind
      rw [h.same.root, Disk.walk_of_kept hkept hwalk]
      exact hfind

/-- Where a draft is made does not depend on the directories that are made for its file. -/
private theorem draftPlace_makeParents (d : Directory) (l : Location) (name : String) :
    (d.makeParents l).2.draftPlace l name = d.draftPlace l name := by
  by_cases hnames : l.names = []
  · have hmake : (d.makeParents l).2 = d := by
      rw [makeParents, Location.parents, hnames]
      split <;> rfl
    rw [hmake]
  · rw [draftPlace, draftPlace, draftHome, draftHome, if_neg hnames, if_neg hnames,
      (d.grows_makeParents l).same.place_eq]

/-- The place of a draft stays free while the directories are made. -/
private theorem free_makeParents {name : String} (hfree : d.disk.get? (d.draftPlace l name) = none)
    (hapart : d.draftPlace l name ≠ d.place l.names) :
    (d.makeParents l).2.disk.get? ((d.makeParents l).2.draftPlace l name) = none ∧
      (d.makeParents l).2.draftPlace l name ≠ (d.makeParents l).2.place l.names := by
  have hgrows := d.grows_makeParents l
  rw [draftPlace_makeParents, hgrows.same.place_eq]
  refine ⟨?_, hapart⟩
  obtain hsame | ⟨-, -, front, hfront, heq⟩ := hgrows.entry (d.draftPlace l name)
  · rw [hsame, hfree]
  · exact absurd heq.symm (place_ne_draftPlace hapart front (hfront.trans (List.dropLast_prefix _)))

private theorem attempt_write {content : ByteArray} (h : system.Calm d (.write p content)) :
    d.attempt system (.write p content) = d.perform (.write p content) := by
  rw [attempt, plan, perform, location?_eq]
  cases p.staysBelow with
  | false => rfl
  | true =>
    simp only [if_true, List.map_append, Work.prepareAll_append, prepareAll_opening h.agrees,
      place?]
    rcases hmake : d.makeParents (d.locate p) with ⟨kind | _, made⟩
    · rfl
    · obtain ⟨hfree, hapart⟩ := free_makeParents (l := d.locate p) h.free h.apart
      rw [hmake] at hfree hapart
      simp only [Except.mapError, prepareAll_drafting (l := d.locate p) h.agrees hfree,
        writeRefusal?]
      cases (made.draft (d.locate p)).isTooLong with
      | true => rfl
      | false =>
        simp only [Bool.false_eq_true, if_false,
          finish_settle (l := d.locate p) h.agrees hfree hapart]
        cases made.refusal? (d.locate p) overwritten with
        | some kind => rfl
        | none => rfl

private theorem attempt_rename {source target : Path}
    (h : system.Calm d (.rename source target)) :
    d.attempt system (.rename source target) = d.perform (.rename source target) := by
  rw [attempt, plan, perform, location?_eq, location?_eq]
  cases source.staysBelow with
  | false => rfl
  | true =>
    cases target.staysBelow with
    | false => rfl
    | true =>
      simp only [if_true, Work.prepareAll, Work.ask_of_agrees h.agrees, Work.prepare, renameAt]
      rcases hsource : d.find (d.locate source) with kind | _ | content | content
      · rfl
      · rfl
      · rcases htarget : d.find (d.locate target) with kind | entry
        · simp only [htarget, prepareAll_opening h.agrees]
          rcases hmake : d.makeParents (d.locate target) with ⟨kind | _, made⟩
          · rfl
          · have hgrows := d.grows_makeParents (d.locate target)
            rw [hmake] at hgrows
            have hfind : made.find (d.locate source) = .ok (.file content) := hgrows.find hsource
            have hentry : made.disk.get? (made.place (d.locate source).names) =
                some (.file content) := get?_of_find hfind
            simp only [Except.mapError, Work.finish_of_agrees h.agrees, Work.complete, hfind,
              moveTo, hentry]
            cases made.refusal? (d.locate target) overwritten <;> rfl
        · simp only [htarget]
          rfl
      · rfl

/-- Where the system refuses nothing of its own accord, an edit comes to what is said of it. -/
theorem attempt_eq_perform {e : Edit} (h : system.Calm d e) : d.attempt system e = d.perform e := by
  cases e with
  | write p content => exact attempt_write h
  | create p =>
    rw [attempt, plan, perform, location?_eq]
    cases p.staysBelow with
    | false => rfl
    | true =>
      simp only [if_true, prepareAll_opening h.agrees, place?]
      rcases d.makeParents (d.locate p) with ⟨kind | _, made⟩
      · rfl
      · simp only [Except.mapError, Work.finish_of_agrees h.agrees, Work.complete]
        cases createRefusal? (d.locate p) made <;> rfl
  | delete p =>
    rw [attempt, plan, perform, location?_eq]
    cases p.staysBelow with
    | false => rfl
    | true =>
      simp only [if_true, Work.prepareAll, Work.finish_of_agrees h.agrees, Work.complete, deleteAt]
      rcases d.find (d.locate p) with kind | _ | content | content <;> rfl
  | rename source target => exact attempt_rename h

end Directory

end Agreement

end Patchwork
