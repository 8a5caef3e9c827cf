import Mathlib.Control.Monad.Basic
import Patchwork.Proofs.Json.Reader
import Patchwork.Session

/-!
# Documents from JSON and back

The fields of an object are found by their names (`Json.record?_ofFields`), so each record is read
back from the value that stands for it. Main statement: `Document.load_toJsonText`. Specification:
Serialization in section 3.
-/

namespace Patchwork

namespace Json

variable {fields : List (String × Json)}

/-- The fields with their keys as they are read. -/
private def keyed (fields : List (String × Json)) : List (List Char × Json) :=
  fields.map fun field ↦ (field.1.toList, field.2)

private theorem readKeys?_ofFields (fields : List (String × Json)) :
    readKeys? (fields.map fun field ↦ (escape field.1.toList, field.2)) = some (keyed fields) := by
  induction fields with
  | nil => rfl
  | cons field fields ih =>
    rw [List.map_cons, readKeys?, unescape?_escape, ih]
    rfl

private theorem valuesOf_keyed (name : String) (fields : List (String × Json)) :
    valuesOf name (keyed fields) = (fields.filter fun field ↦ field.1 = name).map Prod.snd := by
  simp [valuesOf, keyed, List.filter_map, Function.comp_def, String.toList_inj]

/-- A field has the value behind its name when no other field has that name. -/
private theorem field?_keyed (h : (fields.map Prod.fst).Nodup) (name : String) :
    field? (keyed fields) name = some (fields.lookup name) := by
  induction fields with
  | nil => rfl
  | cons field fields ih =>
    obtain ⟨key, value⟩ := field
    rw [List.map_cons, List.nodup_cons] at h
    rw [field?, valuesOf_keyed]
    by_cases hname : key = name
    · have hothers : fields.filter (fun field ↦ field.1 = name) = [] := by
        rw [List.filter_eq_nil_iff]
        intro other hother heq
        refine h.1 (List.mem_map.2 ⟨other, hother, ?_⟩)
        rw [hname]
        exact of_decide_eq_true heq
      simp [hname, hothers]
    · have hfield := ih h.2
      rw [field?, valuesOf_keyed] at hfield
      rw [List.filter_cons_of_neg (by simpa using hname), hfield,
        List.lookup_cons, beq_false_of_ne (Ne.symm hname)]

/-- The fields of an object are found by their names. -/
theorem record?_ofFields (h : (fields.map Prod.fst).Nodup) (names : List String) :
    (ofFields fields).record? names = some (names.map fun name ↦ fields.lookup name) := by
  rw [ofFields, record?, readKeys?_ofFields, Option.bind_some, funext (field?_keyed h)]
  exact List.mapM_pure

/-- Items are read back when each of them is. -/
theorem list?_array_map {α : Type} {item? : Json → Option α} {toJson : α → Json}
    (h : ∀ item, item? (toJson item) = some item) (items : List α) :
    list? item? (array (items.map toJson)) = some items := by
  rw [list?, List.mapM_map, show item? ∘ toJson = pure from funext h, List.mapM_pure, List.map_id']
  rfl

@[simp] theorem word?_ofNat (w : UInt32) : (ofNat w.toNat).word? = some w := by
  rw [ofNat, Nat.toString_eq_ofList_toDigits, String.toList_ofList, word?, Text.natural?_toDigits]
  exact Text.wordOfNat?_eq_some_iff.2 rfl

@[simp] theorem variant?_ofText (text : String) : (ofText text).variant? = some text :=
  text?_ofText text

end Json

@[simp] theorem Path.ofJson?_ofText? (path : Option Path) :
    Path.ofJson? (.ofText? (path.map Path.spelling)) = some path := by
  cases path with
  | none => rfl
  | some path =>
    rw [Option.map_some, Json.ofText?, Path.ofJson?, Json.text?_ofText, Option.map_some]
    simp [Json.ofText]

namespace HunkLine

private theorem ofJson?_ofFields {fields : List (String × Json)}
    (h : (fields.map Prod.fst).Nodup) :
    ofJson? (.ofFields fields) =
      ((fields.lookup "type").bind Json.variant?).bind (ofParts? · (fields.lookup "content")) := by
  have hrecord := Json.record?_ofFields h fieldNames
  rw [Json.ofFields] at hrecord ⊢
  rw [ofJson?, hrecord]
  simp only [fieldNames, List.map_cons, List.map_nil]
  cases fields.lookup "type" <;> rfl

@[simp] theorem ofJson?_toJson (line : HunkLine) : ofJson? line.toJson = some line := by
  cases line <;> simp [toJson, ofJson?_ofFields, ofParts?, List.lookup_cons]

end HunkLine

@[simp] theorem Hunk.ofJson?_toJson (h : Hunk) : ofJson? h.toJson = some h := by
  simp [ofJson?, toJson, Json.record?_ofFields, fieldNames, List.lookup_cons, Json.orDefault?,
    Json.required?, Json.list?_array_map HunkLine.ofJson?_toJson]

@[simp] theorem FileChange.ofJson?_toJson (c : FileChange) : ofJson? c.toJson = some c := by
  simp [ofJson?, toJson, Json.record?_ofFields, fieldNames, List.lookup_cons, Json.orDefault?,
    Json.required?, Json.list?_array_map Hunk.ofJson?_toJson]

@[simp] theorem Document.ofJson?_toJson (d : Document) : ofJson? d.toJson = some d := by
  simp [ofJson?, toJson, Json.record?_ofFields, fieldNames, List.lookup_cons, Json.required?,
    Json.list?_array_map FileChange.ofJson?_toJson]

section Plain

theorem Json.plain_ofText? (text : Option String) : (Json.ofText? text).Plain := by
  cases text with
  | none => exact .null
  | some text => exact .ofText text

theorem Json.plain_array_map {α : Type} {toJson : α → Json} (h : ∀ item, (toJson item).Plain)
    (items : List α) : (Json.array (items.map toJson)).Plain :=
  .array (List.forall_mem_map.2 fun item _ ↦ h item)

theorem HunkLine.plain_toJson (line : HunkLine) : line.toJson.Plain := by
  cases line <;> exact .ofFields (by simp [Json.Plain.ofText])

theorem Hunk.plain_toJson (h : Hunk) : h.toJson.Plain :=
  .ofFields (by simp [Json.Plain.ofNat, Json.plain_array_map HunkLine.plain_toJson])

theorem FileChange.plain_toJson (c : FileChange) : c.toJson.Plain :=
  .ofFields (by
    simp [Json.Plain.ofText, Json.plain_ofText?, Json.plain_array_map Hunk.plain_toJson])

theorem Document.plain_toJson (d : Document) : d.toJson.Plain :=
  .ofFields (by simp [Json.plain_array_map FileChange.plain_toJson])

end Plain

namespace Document

/-- A document is read back from its text. -/
@[simp] theorem ofJsonText?_toJsonText (d : Document) : ofJsonText? d.toJsonText = some d := by
  rw [ofJsonText?, toJsonText, d.plain_toJson.read?_compact, Option.bind_some, ofJson?_toJson]

/-- A document that is handed over as JSON is loaded as it was. So a diff that was read applies to a
directory the same way when its document is handed over in its place. -/
theorem load_toJsonText (d : Document) :
    load .json false d.toJsonText = .ok d ∧
      ∀ text, Diff.parse text = .ok d →
        ∀ (arguments : Arguments) (features : Features) (stop : Nat → Bool) (directory : Directory),
          let fromDiff :=
            Session.applyPatch { arguments with input := .diff } features stop text directory
          let fromJson := Session.applyPatch { arguments with input := .json } features stop
            d.toJsonText directory
          fromJson.result = fromDiff.result ∧ fromJson.store = fromDiff.store := by
  have hjson : decode .json d.toJsonText = .ok d := by rw [decode, ofJsonText?_toJsonText]
  refine ⟨by rw [load, hjson]; rfl, ?_⟩
  intro text hparse arguments features stop directory
  have hdiff : decode .diff text = .ok d := by rw [decode, hparse]
  simp only [Session.applyPatch, load, hjson, hdiff]
  exact ⟨rfl, rfl⟩

section Instance

/-- A diff with a quote, a backslash, a control character and a marker. -/
def quoteText : String :=
  "--- a/q\"\n+++ b/q\"\n@@ -1 +1 @@\n-a\\b\x01\n+\u2192\n\\ No newline at end of file\n"

/-- The document that the diff stands for. -/
def quote : Document :=
  ⟨[⟨.modify, some ⟨"q\""⟩, some ⟨"q\""⟩,
    [⟨1, 1, [.remove "a\\b\x01", .add "\u2192", .noNewline]⟩]⟩]⟩

theorem load_toJsonText_quote :
    Diff.parse quoteText = .ok quote ∧ load .json false quote.toJsonText = .ok quote ∧
      ∀ (arguments : Arguments) (features : Features) (stop : Nat → Bool) (directory : Directory),
        let fromDiff := Session.applyPatch { arguments with input := .diff } features stop
          quoteText directory
        let fromJson := Session.applyPatch { arguments with input := .json } features stop
          quote.toJsonText directory
        fromJson.result = fromDiff.result ∧ fromJson.store = fromDiff.store := by
  have hparse : Diff.parse quoteText = .ok quote := by decide +kernel
  obtain ⟨hload, happly⟩ := load_toJsonText quote
  exact ⟨hparse, hload, happly quoteText hparse⟩

end Instance

end Document

end Patchwork
