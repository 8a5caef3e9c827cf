import Patchwork.Json

/-!
# Reading JSON

A recursive descent over the characters of a text. `Json.read?` gives the value that the whole
text spells; blanks may stand around any of its parts.
-/

namespace Patchwork.Json

/-- A character that may stand between the parts of a value. -/
def isBlank (c : Char) : Bool := c = ' ' || c = '\t' || c = '\n' || c = '\r'

/-- The text from its first part on. -/
def skipBlanks (text : List Char) : List Char := text.dropWhile isBlank

/-- The spelling of a string whose opening quote has been read, and what follows its closing
quote. -/
def scanString : List Char → Option (List Char × List Char)
  | [] => none
  | '"' :: rest => some ([], rest)
  | '\\' :: 'u' :: a :: b :: c :: d :: rest =>
    if (hexValues? a b c d).isSome then
      (scanString rest).map fun scanned ↦
        ('\\' :: 'u' :: a :: b :: c :: d :: scanned.1, scanned.2)
    else none
  | '\\' :: letter :: rest =>
    if (shortEscape? letter).isSome then
      (scanString rest).map fun scanned ↦ ('\\' :: letter :: scanned.1, scanned.2)
    else none
  | c :: rest =>
    if c.toNat < 32 ∨ c = '\\' then none
    else (scanString rest).map fun scanned ↦ (c :: scanned.1, scanned.2)

/-- Digits, and what follows them. -/
def scanDigits (text : List Char) : List Char × List Char :=
  (text.takeWhile Char.isDigit, text.dropWhile Char.isDigit)

/-- At least one digit, and what follows. -/
def scanDigits? (text : List Char) : Option (List Char × List Char) :=
  let scanned := scanDigits text
  if scanned.1.isEmpty then none else some scanned

/-- The whole part of a number: a zero, or digits that do not begin with one. -/
def scanWhole? : List Char → Option (List Char × List Char)
  | '0' :: rest => some (['0'], rest)
  | text => scanDigits? text

/-- The fraction of a number, if it has one. -/
def scanFraction? : List Char → Option (List Char × List Char)
  | '.' :: rest => (scanDigits? rest).map fun scanned ↦ ('.' :: scanned.1, scanned.2)
  | text => some ([], text)

/-- The exponent of a number, if it has one. -/
def scanExponent? : List Char → Option (List Char × List Char)
  | e :: sign :: rest =>
    if e = 'e' ∨ e = 'E' then
      if sign = '+' ∨ sign = '-' then
        (scanDigits? rest).map fun scanned ↦ (e :: sign :: scanned.1, scanned.2)
      else (scanDigits? (sign :: rest)).map fun scanned ↦ (e :: scanned.1, scanned.2)
    else some ([], e :: sign :: rest)
  | [e] => if e = 'e' ∨ e = 'E' then none else some ([], [e])
  | [] => some ([], [])

/-- A number without its sign. -/
def scanUnsigned? (text : List Char) : Option (List Char × List Char) := do
  let whole ← scanWhole? text
  let fraction ← scanFraction? whole.2
  let exponent ← scanExponent? fraction.2
  return (whole.1 ++ fraction.1 ++ exponent.1, exponent.2)

/-- A number. -/
def scanNumber? : List Char → Option (List Char × List Char)
  | '-' :: rest => (scanUnsigned? rest).map fun scanned ↦ ('-' :: scanned.1, scanned.2)
  | text => scanUnsigned? text

mutual

/-- A value at the front of a text, and what follows it. The first argument bounds the depth of
the descent. -/
def scanValue : Nat → List Char → Option (Json × List Char)
  | 0, _ => none
  | depth + 1, text =>
    match skipBlanks text with
    | 'n' :: 'u' :: 'l' :: 'l' :: rest => some (null, rest)
    | 't' :: 'r' :: 'u' :: 'e' :: rest => some (bool true, rest)
    | 'f' :: 'a' :: 'l' :: 's' :: 'e' :: rest => some (bool false, rest)
    | '"' :: rest => (scanString rest).map fun scanned ↦ (string scanned.1, scanned.2)
    | '[' :: rest =>
      match skipBlanks rest with
      | ']' :: rest => some (array [], rest)
      | rest => (scanItems depth rest).map fun scanned ↦ (array scanned.1, scanned.2)
    | '{' :: rest =>
      match skipBlanks rest with
      | '}' :: rest => some (object [], rest)
      | rest => (scanMembers depth rest).map fun scanned ↦ (object scanned.1, scanned.2)
    | text => (scanNumber? text).map fun scanned ↦ (number scanned.1, scanned.2)

/-- The items of an array up to its closing bracket, and what follows it. -/
def scanItems : Nat → List Char → Option (List Json × List Char)
  | 0, _ => none
  | depth + 1, text =>
    match scanValue depth text with
    | none => none
    | some (item, rest) =>
      match skipBlanks rest with
      | ']' :: rest => some ([item], rest)
      | ',' :: rest => (scanItems depth rest).map fun scanned ↦ (item :: scanned.1, scanned.2)
      | _ => none

/-- The members of an object up to its closing brace, and what follows it. -/
def scanMembers : Nat → List Char → Option (List (List Char × Json) × List Char)
  | 0, _ => none
  | depth + 1, text =>
    match skipBlanks text with
    | '"' :: rest =>
      match scanString rest with
      | none => none
      | some (key, rest) =>
        match skipBlanks rest with
        | ':' :: rest =>
          match scanValue depth rest with
          | none => none
          | some (value, rest) =>
            match skipBlanks rest with
            | '}' :: rest => some ([(key, value)], rest)
            | ',' :: rest =>
              (scanMembers depth rest).map fun scanned ↦ ((key, value) :: scanned.1, scanned.2)
            | _ => none
        | _ => none
    | _ => none

end

/-- The value that a whole text spells. The descent is never deeper than twice the text's
length, since of two steps down one at least passes a character. -/
def read? (text : String) : Option Json :=
  match scanValue (2 * text.toList.length + 2) text.toList with
  | some (value, rest) => if (skipBlanks rest).isEmpty then some value else none
  | none => none

end Patchwork.Json
