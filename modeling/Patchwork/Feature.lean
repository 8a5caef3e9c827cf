import Patchwork.Text.Blank

/-!
# Optional behaviour

What a rename or a copy does with hunks that come with it is a matter of taste: by default they
are passed over, and a feature makes them apply to the new file. Features are switched on by
name, from a comma-separated list or one at a time. Specification: section 10.
-/

namespace Patchwork

/-- A behaviour that can be switched on. -/
inductive Feature where
  /-- Hunks that come with a rename apply to the moved file. -/
  | renameHunks
  /-- Hunks that come with a copy apply to the new file. -/
  | copyHunks
  deriving DecidableEq, Repr, Inhabited

namespace Feature

/-- The name that switches the feature on. -/
def name : Feature → String
  | renameHunks => "rename-hunks"
  | copyHunks => "copy-hunks"

/-- The feature as the log shows it. -/
def logName : Feature → String
  | renameHunks => "RenameHunks"
  | copyHunks => "CopyHunks"

/-- Every feature. -/
def all : List Feature := [renameHunks, copyHunks]

/-- The feature with exactly this name. -/
def ofName? (name : String) : Option Feature :=
  all.find? fun feature ↦ feature.name = name

/-- The feature with this name, where the case of ASCII letters does not count. -/
def ofNameIgnoringCase? (name : String) : Option Feature :=
  all.find? fun feature ↦ feature.name.toList = name.toList.map Char.toLower

/-- What is said of a name that no feature has. -/
def unknownMessage (name : String) : String := s!"invalid variant: {name}"

end Feature

/-- The features that are switched on. -/
structure Features where
  renameHunks : Bool
  copyHunks : Bool
  deriving DecidableEq, Repr, Inhabited

namespace Features

/-- No feature is on. -/
def none : Features := ⟨false, false⟩

/-- Whether a feature is on. -/
def has (fs : Features) : Feature → Bool
  | .renameHunks => fs.renameHunks
  | .copyHunks => fs.copyHunks

/-- Switches a feature on or off. -/
def set (fs : Features) (on : Bool) : Feature → Features
  | .renameHunks => { fs with renameHunks := on }
  | .copyHunks => { fs with copyHunks := on }

/-- Switches features on. -/
def enable (fs : Features) (features : List Feature) : Features :=
  features.foldl (fun fs feature ↦ fs.set true feature) fs

/-- Switches features off. -/
def disable (fs : Features) (features : List Feature) : Features :=
  features.foldl (fun fs feature ↦ fs.set false feature) fs

/-- The features that are on. -/
def toList (fs : Features) : List Feature := Feature.all.filter fs.has

/-- The names in a comma-separated list, without the blanks around them; empty ones are left
out. -/
def namesOfList (text : String) : List String :=
  ((text.toList.splitOn ',').map Text.trim |>.filter fun name ↦ !name.isEmpty).map .ofList

/-- The features named in a comma-separated list; names that no feature has are passed over. -/
def ofList (text : String) : Features :=
  none.enable ((namesOfList text).filterMap Feature.ofNameIgnoringCase?)

/-- The names in a comma-separated list that no feature has. -/
def unknownInList (text : String) : List String :=
  (namesOfList text).filter fun name ↦ (Feature.ofNameIgnoringCase? name).isNone

end Features

end Patchwork
