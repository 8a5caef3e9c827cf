import Patchwork.Text.Number

/-!
# JSON values and their text

A value keeps its numbers and strings as they are spelled, so that reading loses nothing and a
value that is only passed over need not mean anything. `Json.escape` spells a text and
`Json.unescape?` reads a spelling; not every spelling has a text, since an escape may name half
of a surrogate pair. `Json.compact` and `Json.pretty` write a value.
-/

namespace Patchwork

/-- A JSON value with its numbers and strings as they are spelled, quotes taken off. -/
inductive Json where
  | null
  | bool (value : Bool)
  | number (spelling : List Char)
  | string (spelling : List Char)
  | array (items : List Json)
  | object (members : List (List Char × Json))

namespace Json

/-- The value of a hexadecimal digit. -/
def hexValue? (c : Char) : Option Nat :=
  if '0' ≤ c ∧ c ≤ '9' then some (c.toNat - '0'.toNat)
  else if 'a' ≤ c ∧ c ≤ 'f' then some (c.toNat - 'a'.toNat + 10)
  else if 'A' ≤ c ∧ c ≤ 'F' then some (c.toNat - 'A'.toNat + 10)
  else none

/-- The value of four hexadecimal digits. -/
def hexValues? (a b c d : Char) : Option Nat := do
  return 4096 * (← hexValue? a) + 256 * (← hexValue? b) + 16 * (← hexValue? c) + (← hexValue? d)

/-- The digit of a number below sixteen, in lower case. -/
def hexDigit (n : Nat) : Char :=
  if n < 10 then .ofNat ('0'.toNat + n) else .ofNat ('a'.toNat + (n - 10))

/-- The escapes of one letter, with the characters they stand for. -/
def shortEscapes : List (Char × Char) :=
  [('"', '"'), ('\\', '\\'), ('/', '/'), ('b', '\x08'), ('f', '\x0c'), ('n', '\n'), ('r', '\r'),
   ('t', '\t')]

/-- The character that an escape of one letter stands for. -/
def shortEscape? (letter : Char) : Option Char := shortEscapes.lookup letter

/-- A character as a string spells it. Quotes, backslashes and control characters are escaped,
the slash is not. -/
def escapeChar (c : Char) : List Char :=
  if c = '"' then ['\\', '"']
  else if c = '\\' then ['\\', '\\']
  else if c = '\x08' then ['\\', 'b']
  else if c = '\x0c' then ['\\', 'f']
  else if c = '\n' then ['\\', 'n']
  else if c = '\r' then ['\\', 'r']
  else if c = '\t' then ['\\', 't']
  else if c.toNat < 32 then
    ['\\', 'u', '0', '0', hexDigit (c.toNat / 16), hexDigit (c.toNat % 16)]
  else [c]

/-- The spelling of a text. -/
def escape (text : List Char) : List Char := text.flatMap escapeChar

/-- Whether a code unit begins a surrogate pair. -/
def isHighSurrogate (unit : Nat) : Bool := 0xd800 ≤ unit && unit < 0xdc00

/-- Whether a code unit ends a surrogate pair. -/
def isLowSurrogate (unit : Nat) : Bool := 0xdc00 ≤ unit && unit < 0xe000

/-- The character that a surrogate pair stands for. -/
def ofSurrogates (high low : Nat) : Char :=
  .ofNat (0x10000 + (high - 0xd800) * 0x400 + (low - 0xdc00))

/-- The text that a spelling stands for when the first half of a surrogate pair has been read,
or when none is waiting for its second half. -/
def unescapeAfter? (high : Option Nat) : List Char → Option (List Char)
  | [] => if high.isSome then none else some []
  | '\\' :: 'u' :: a :: b :: c :: d :: rest =>
    match hexValues? a b c d, high with
    | none, _ => none
    | some unit, some high =>
      if isLowSurrogate unit then
        (unescapeAfter? none rest).map (ofSurrogates high unit :: ·)
      else none
    | some unit, none =>
      if isHighSurrogate unit then unescapeAfter? (some unit) rest
      else if isLowSurrogate unit then none
      else (unescapeAfter? none rest).map (.ofNat unit :: ·)
  | '\\' :: letter :: rest =>
    match shortEscape? letter, high with
    | some c, none => (unescapeAfter? none rest).map (c :: ·)
    | _, _ => none
  | c :: rest => if high.isSome then none else (unescapeAfter? none rest).map (c :: ·)

/-- The text that a spelling stands for, if its escapes pair their surrogates. -/
def unescape? (spelling : List Char) : Option (List Char) := unescapeAfter? none spelling

/-- A text as a JSON value. -/
def ofText (text : String) : Json := .string (escape text.toList)

/-- A text, or null where there is none. -/
def ofText? : Option String → Json
  | some text => ofText text
  | none => null

/-- A number as a JSON value. -/
def ofNat (n : Nat) : Json := .number (toString n).toList

/-- An object whose keys are given as texts. -/
def ofFields (fields : List (String × Json)) : Json :=
  .object (fields.map fun field ↦ (escape field.1.toList, field.2))

/-- The text of a string value. -/
def text? : Json → Option String
  | string spelling => (unescape? spelling).map .ofList
  | _ => none

/-- The word that a number value spells in plain digits. -/
def word? : Json → Option UInt32
  | number spelling => (Text.natural? spelling).bind Text.wordOfNat?
  | _ => none

/-- A spelling in quotes. -/
def quoted (spelling : List Char) : List Char := '"' :: spelling ++ ['"']

mutual

/-- The value's text without blanks. -/
def compactChars : Json → List Char
  | null => "null".toList
  | bool true => "true".toList
  | bool false => "false".toList
  | number spelling => spelling
  | string spelling => quoted spelling
  | array items => '[' :: compactItems items
  | object members => '{' :: compactMembers members

/-- The items of an array and the bracket that ends it. -/
def compactItems : List Json → List Char
  | [] => [']']
  | [item] => compactChars item ++ [']']
  | item :: next :: items => compactChars item ++ ',' :: compactItems (next :: items)

/-- The members of an object and the brace that ends it. -/
def compactMembers : List (List Char × Json) → List Char
  | [] => ['}']
  | [(key, value)] => quoted key ++ ':' :: compactChars value ++ ['}']
  | (key, value) :: next :: members =>
    quoted key ++ ':' :: compactChars value ++ ',' :: compactMembers (next :: members)

end

/-- A new line with two blanks for each level. -/
def newLine (level : Nat) : List Char := '\n' :: List.replicate (2 * level) ' '

mutual

/-- The value's text, with each item and each member on a line of its own. -/
def prettyChars (level : Nat) : Json → List Char
  | array (item :: items) => '[' :: prettyItems level (item :: items)
  | object (member :: members) => '{' :: prettyMembers level (member :: members)
  | array [] => ['[', ']']
  | object [] => ['{', '}']
  | null => "null".toList
  | bool true => "true".toList
  | bool false => "false".toList
  | number spelling => spelling
  | string spelling => quoted spelling

/-- The items of an array, one level in, and the bracket that ends it. -/
def prettyItems (level : Nat) : List Json → List Char
  | [] => newLine level ++ [']']
  | [item] => newLine (level + 1) ++ prettyChars (level + 1) item ++ newLine level ++ [']']
  | item :: next :: items =>
    newLine (level + 1) ++ prettyChars (level + 1) item ++ ',' :: prettyItems level (next :: items)

/-- The members of an object, one level in, and the brace that ends it. -/
def prettyMembers (level : Nat) : List (List Char × Json) → List Char
  | [] => newLine level ++ ['}']
  | [(key, value)] =>
    newLine (level + 1) ++ quoted key ++ ':' :: ' ' :: prettyChars (level + 1) value ++
      newLine level ++ ['}']
  | (key, value) :: next :: members =>
    newLine (level + 1) ++ quoted key ++ ':' :: ' ' :: prettyChars (level + 1) value ++
      ',' :: prettyMembers level (next :: members)

end

/-- The value's text without blanks. -/
def compact (value : Json) : String := .ofList value.compactChars

/-- The value's text, indented by two blanks a level. -/
def pretty (value : Json) : String := .ofList (value.prettyChars 0)

end Json

end Patchwork
