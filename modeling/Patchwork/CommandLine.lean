import Patchwork.Feature
import Patchwork.Log
import Patchwork.Text.Cut

/-!
# The command line

`Arguments.parse` reads the arguments of one invocation. An option's value stands right after
its letter, after an equals sign, or in the next argument. A value that stands in the next
argument, and the patch, are checked only when the argument after them has been recognized, so
an unknown argument is reported before a value in front of it that is not valid. Specification:
section 10.
-/

namespace Patchwork

/-- How the patch is written. -/
inductive InputFormat where
  | diff
  | json
  deriving DecidableEq, Repr, Inhabited

namespace InputFormat

/-- The format's name. -/
def name : InputFormat → String
  | diff => "diff"
  | json => "json"

/-- The format with the given name. -/
def ofName? (name : String) : Option InputFormat :=
  [diff, json].find? fun format ↦ format.name = name

end InputFormat

/-- Why arguments are not accepted, or what is asked for instead of a run. -/
inductive UsageError where
  | unknownArgument
  | invalidValue
  /-- An option is given twice, or together with one that excludes it. -/
  | argumentConflict
  /-- A value is given to an option that takes none. -/
  | tooManyValues
  | missingPatch
  | help
  | version
  deriving DecidableEq, Repr

/-- What one invocation is asked to do. -/
structure Arguments where
  patch : String
  directory : String
  check : Bool
  reverse : Bool
  input : InputFormat
  json : Bool
  features : Option (List Feature)
  verbosity : Nat
  quiet : Bool
  deriving DecidableEq, Repr

namespace Arguments

/-- The least severity that is logged. -/
def severity (a : Arguments) : Severity :=
  if a.quiet then .error
  else
    match a.verbosity with
    | 0 => .info
    | 1 => .debug
    | _ => .trace

/-- Whether the patch comes from standard input. -/
def readsInput (a : Arguments) : Bool := a.patch = "-"

end Arguments

namespace CommandLine

/-- An option that takes a value. -/
inductive ValueOption where
  | directory
  | input
  | features
  deriving DecidableEq, Repr

/-- An option that takes no value. -/
inductive Switch where
  | check
  | reverse
  | json
  | verbose
  | quiet
  | help
  | version
  deriving DecidableEq, Repr

/-- The option with a letter. -/
def ofLetter? : Char → Option (ValueOption ⊕ Switch)
  | 'C' => some (.inl .directory)
  | 'R' => some (.inr .reverse)
  | 'v' => some (.inr .verbose)
  | 'q' => some (.inr .quiet)
  | 'h' => some (.inr .help)
  | 'V' => some (.inr .version)
  | _ => none

/-- The options with their names. -/
def named : List (String × (ValueOption ⊕ Switch)) :=
  [("directory", .inl .directory), ("check", .inr .check), ("reverse", .inr .reverse),
   ("input", .inl .input), ("json", .inr .json), ("features", .inl .features),
   ("verbose", .inr .verbose), ("quiet", .inr .quiet), ("help", .inr .help),
   ("version", .inr .version)]

/-- An argument that has been read but not checked. -/
inductive Waiting where
  /-- An option and the argument after it, if that is its value. -/
  | option (option : ValueOption) (value : Option String)
  | patch (text : String)
  deriving DecidableEq, Repr

/-- The arguments read so far. -/
structure Draft where
  patch : Option String
  directory : Option String
  input : Option InputFormat
  features : Option (List Feature)
  check : Bool
  reverse : Bool
  json : Bool
  quiet : Bool
  verbosity : Nat
  waiting : Option Waiting
  deriving DecidableEq, Repr

namespace Draft

/-- No argument has been read. -/
def blank : Draft := ⟨none, none, none, none, false, false, false, false, 0, none⟩

/-- The greatest number of times that asking for more log output counts. -/
def verbosityLimit : Nat := 255

/-- The features in a value, which have to exist. -/
def featuresOf? (value : String) : Option (List Feature) :=
  (value.toList.splitOn ',').mapM fun name ↦ Feature.ofName? (.ofList name)

/-- Gives an option its value. Only features may be given more than once. -/
def give (d : Draft) (option : ValueOption) (value : String) : Except UsageError Draft :=
  match option with
  | .directory =>
    if d.directory.isSome then .error .argumentConflict
    else if value.isEmpty then .error .invalidValue
    else .ok { d with directory := some value }
  | .input =>
    if d.input.isSome then .error .argumentConflict
    else
      match InputFormat.ofName? value with
      | none => .error .invalidValue
      | some format => .ok { d with input := some format }
  | .features =>
    match featuresOf? value with
    | none => .error .invalidValue
    | some features => .ok { d with features := some (d.features.getD [] ++ features) }

/-- Checks what is waiting. -/
def settle (d : Draft) : Except UsageError Draft :=
  let settled := { d with waiting := none }
  match d.waiting with
  | none => .ok settled
  | some (.option _ none) => .error .invalidValue
  | some (.option option (some value)) => settled.give option value
  | some (.patch text) =>
    if text.isEmpty then .error .invalidValue else .ok { settled with patch := some text }

/-- Turns a switch that may be given only once. -/
def once (d : Draft) (given : Bool) (turned : Draft) : Except UsageError Draft :=
  if given then .error .argumentConflict else .ok { turned with waiting := d.waiting }

/-- Turns a switch. -/
def turn (d : Draft) (switch : Switch) : Except UsageError Draft := do
  let d ← d.settle
  match switch with
  | .check => d.once d.check { d with check := true }
  | .reverse => d.once d.reverse { d with reverse := true }
  | .json => d.once d.json { d with json := true }
  | .quiet => d.once d.quiet { d with quiet := true }
  | .verbose => .ok { d with verbosity := min (d.verbosity + 1) verbosityLimit }
  | .help => .error .help
  | .version => .error .version

/-- Reads an option with its value, or one whose value is still to come. -/
def valued (d : Draft) (option : ValueOption) (value : Option String) :
    Except UsageError Draft := do
  let d ← d.settle
  match value with
  | some value => d.give option value
  | none => .ok { d with waiting := some (.option option none) }

/-- Reads the name of an option, with an equals sign and a value or without. -/
def long (d : Draft) (text : List Char) : Except UsageError Draft :=
  let name := Text.before ['='] text
  let value := (Text.cut? ['='] text).map fun parts ↦ String.ofList parts.2
  match named.lookup (.ofList name), value with
  | none, _ => .error .unknownArgument
  | some (.inl option), value => d.valued option value
  | some (.inr _), some _ => .error .tooManyValues
  | some (.inr switch), none => d.turn switch

/-- Reads letters of options one after another. The rest after the letter of an option that takes
a value is the value; an equals sign in front of it is left out. -/
def letters (d : Draft) : List Char → Except UsageError Draft
  | [] => .ok d
  | letter :: rest =>
    match ofLetter? letter with
    | none => .error .unknownArgument
    | some (.inr switch) =>
      match d.turn switch with
      | .error e => .error e
      | .ok d => d.letters rest
    | some (.inl option) =>
      d.valued option
        (if rest.isEmpty then none else some (.ofList (Text.dropLead ['='] rest)))

/-- Whether a patch has been named. -/
def hasPatch (d : Draft) : Bool :=
  d.patch.isSome ||
    match d.waiting with
    | some (.patch _) => true
    | _ => false

/-- Reads the name of the patch. -/
def operand (d : Draft) (text : String) : Except UsageError Draft :=
  if d.hasPatch then .error .unknownArgument
  else d.settle.map fun d ↦ { d with waiting := some (.patch text) }

/-- Reads an argument that is not an option: the value that is waited for, or the patch. -/
def plain (d : Draft) (text : String) : Except UsageError Draft :=
  match d.waiting with
  | some (.option option none) => .ok { d with waiting := some (.option option (some text)) }
  | _ => d.operand text

/-- Reads one argument. -/
def step (d : Draft) (argument : String) : Except UsageError Draft :=
  match argument.toList with
  | '-' :: '-' :: text => d.long text
  | '-' :: letter :: letters => d.letters (letter :: letters)
  | _ => d.plain argument

/-- Reads arguments; after two dashes there are no more options. -/
def readAll (d : Draft) : List String → Except UsageError Draft
  | [] => d.settle
  | argument :: rest =>
    if argument = "--" then (rest.foldlM operand d).bind settle
    else
      match d.step argument with
      | .error e => .error e
      | .ok d => d.readAll rest

/-- The arguments when all have been read. -/
def arguments (d : Draft) : Except UsageError Arguments :=
  if d.quiet && d.verbosity ≠ 0 then .error .argumentConflict
  else
    match d.patch with
    | none => .error .missingPatch
    | some patch =>
      .ok
        { patch
          directory := d.directory.getD "."
          check := d.check
          reverse := d.reverse
          input := d.input.getD .diff
          json := d.json
          features := d.features
          verbosity := d.verbosity
          quiet := d.quiet }

end Draft

end CommandLine

/-- The arguments of an invocation. -/
def Arguments.parse (arguments : List String) : Except UsageError Arguments :=
  (CommandLine.Draft.blank.readAll arguments).bind CommandLine.Draft.arguments

end Patchwork
