import Patchwork.Change
import Patchwork.Json.Reader

/-!
# Documents as JSON

A document is an object whose members are changes, and so on down to the lines of a hunk. A
record may also be written as the array of its fields in order. Members that no field has the
name of are passed over, but a field may not be given twice. Specification: Serialization in
section 3.
-/

namespace Patchwork

namespace Json

/-- The members with their keys read, if every key has a text. -/
def readKeys? : List (List Char × Json) → Option (List (List Char × Json))
  | [] => some []
  | (key, value) :: members =>
    match unescape? key with
    | none => none
    | some key => (readKeys? members).map ((key, value) :: ·)

/-- The values that the members give to a field. -/
def valuesOf (name : String) (members : List (List Char × Json)) : List Json :=
  (members.filter fun member ↦ member.1 = name.toList).map Prod.snd

/-- The value of a field that may be left out but not given twice. -/
def field? (members : List (List Char × Json)) (name : String) : Option (Option Json) :=
  match valuesOf name members with
  | [] => some none
  | [value] => some (some value)
  | _ => none

/-- The fields of a record, in the order of their names; none stands for one that is left out. -/
def record? (names : List String) : Json → Option (List (Option Json))
  | array items =>
    if items.length ≤ names.length then
      some (items.map some ++ List.replicate (names.length - items.length) none)
    else none
  | object members => (readKeys? members).bind fun members ↦ names.mapM (field? members)
  | _ => none

/-- A value read from each item of an array. -/
def list? {α : Type} (item? : Json → Option α) : Json → Option (List α)
  | array items => items.mapM item?
  | _ => none

/-- The name of a variant, alone or as the only key of an object that holds null. -/
def variant? : Json → Option String
  | string spelling => (string spelling).text?
  | object [(key, null)] => (string key).text?
  | _ => none

/-- A field's value, which has to be there. -/
def required? {α : Type} (read? : Json → Option α) : Option Json → Option α
  | some value => read? value
  | none => none

/-- A field's value, or the default where it is left out. -/
def orDefault? {α : Type} (default : α) (read? : Json → Option α) : Option Json → Option α
  | some value => read? value
  | none => some default

end Json

namespace Path

/-- A path, or null for none. -/
def ofJson? : Json → Option (Option Path)
  | .null => some none
  | value => value.text?.map fun spelling ↦ some ⟨spelling⟩

end Path

namespace HunkLine

/-- The names of a line's fields. -/
def fieldNames : List String := ["type", "content"]

/-- The line as a JSON value. -/
def toJson : HunkLine → Json
  | context text => .ofFields [("type", .ofText "context"), ("content", .ofText text)]
  | remove text => .ofFields [("type", .ofText "remove"), ("content", .ofText text)]
  | add text => .ofFields [("type", .ofText "add"), ("content", .ofText text)]
  | noNewline => .ofFields [("type", .ofText "no-newline")]

/-- The line with a type and a content. A marker's content is null or, in an object, left
out. -/
def ofParts? (type : String) (content : Option Json) : Option HunkLine :=
  match type with
  | "context" => (content.bind Json.text?).map context
  | "remove" => (content.bind Json.text?).map remove
  | "add" => (content.bind Json.text?).map add
  | "no-newline" =>
    match content with
    | none | some .null => some noNewline
    | _ => none
  | _ => none

/-- Reads a line. An array holds both fields, and its type is a plain name. -/
def ofJson? (value : Json) : Option HunkLine :=
  match value with
  | .array [type, content] => type.text?.bind (ofParts? · (some content))
  | .object _ =>
    match value.record? fieldNames with
    | some [some type, content] => type.variant?.bind (ofParts? · content)
    | _ => none
  | _ => none

end HunkLine

namespace Hunk

/-- The names of a hunk's fields. -/
def fieldNames : List String := ["old_start", "new_start", "lines"]

/-- The hunk as a JSON value. -/
def toJson (h : Hunk) : Json :=
  .ofFields
    [("old_start", .ofNat h.oldStart.toNat), ("new_start", .ofNat h.newStart.toNat),
     ("lines", .array (h.lines.map HunkLine.toJson))]

/-- Reads a hunk. The start on the old side may be left out and is zero then. -/
def ofJson? (value : Json) : Option Hunk :=
  match value.record? fieldNames with
  | some [oldStart, newStart, lines] => do
    let oldStart ← Json.orDefault? 0 Json.word? oldStart
    let newStart ← Json.required? Json.word? newStart
    let lines ← Json.required? (Json.list? HunkLine.ofJson?) lines
    return ⟨oldStart, newStart, lines⟩
  | _ => none

end Hunk

namespace FileChange

/-- The names of a change's fields. -/
def fieldNames : List String := ["change_type", "old_path", "new_path", "hunks"]

/-- The change as a JSON value. -/
def toJson (c : FileChange) : Json :=
  .ofFields
    [("change_type", .ofText c.kind.name), ("old_path", .ofText? (c.oldPath.map Path.spelling)),
     ("new_path", .ofText? (c.newPath.map Path.spelling)),
     ("hunks", .array (c.hunks.map Hunk.toJson))]

/-- Reads a change. All fields but the type may be left out. -/
def ofJson? (value : Json) : Option FileChange :=
  match value.record? fieldNames with
  | some [kind, oldPath, newPath, hunks] => do
    let kind ← Json.required? (fun kind ↦ kind.variant?.bind ChangeKind.ofName?) kind
    let oldPath ← Json.orDefault? none Path.ofJson? oldPath
    let newPath ← Json.orDefault? none Path.ofJson? newPath
    let hunks ← Json.orDefault? [] (Json.list? Hunk.ofJson?) hunks
    return ⟨kind, oldPath, newPath, hunks⟩
  | _ => none

end FileChange

namespace Document

/-- The names of a document's fields. -/
def fieldNames : List String := ["changes"]

/-- The document as a JSON value. -/
def toJson (d : Document) : Json :=
  .ofFields [("changes", .array (d.changes.map FileChange.toJson))]

/-- Reads a document. -/
def ofJson? (value : Json) : Option Document :=
  match value.record? fieldNames with
  | some [changes] =>
    (Json.required? (Json.list? FileChange.ofJson?) changes).map Document.mk
  | _ => none

/-- Reads a document from the text of a JSON value. -/
def ofJsonText? (text : String) : Option Document := (Json.read? text).bind ofJson?

/-- The document as the text of a JSON value. -/
def toJsonText (d : Document) : String := d.toJson.compact

end Document

end Patchwork
