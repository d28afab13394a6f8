import XmlRecords.Json.Basic
import XmlRecords.Number.Shortest
import XmlRecords.Text.Digit

/-!
# Writing JSON

A value is written either on one line without blanks or over several lines, with
two spaces for each level.  Only the quotation mark, the backslash and the
control characters are escaped, and numbers that are not whole are written with
the fewest digits that read back.
-/

namespace XmlRecords.Json

/-- Numbers are written in full from 0.00001 up to below 10¹⁶, and a whole one
among them ends in `.0`. -/
def numberLayout : DecimalLayout := ⟨-5, 16, ".0", "e+", "e-"⟩

/-- Write a finite number. -/
def numberText (x : Binary64) : String :=
  let sign := if x.negative then "-" else ""
  if x.code = 0 then sign ++ "0.0"
  else sign ++ numberLayout.write (Shortest.ofCode .double x.code)

/-- Write one character of a string. -/
def escapeChar (c : Char) : List Char :=
  if c = '"' then ['\\', '"']
  else if c = '\\' then ['\\', '\\']
  else if c = '\x08' then ['\\', 'b']
  else if c = '\x0c' then ['\\', 'f']
  else if c = '\n' then ['\\', 'n']
  else if c = '\r' then ['\\', 'r']
  else if c = '\t' then ['\\', 't']
  else if c.toNat < 0x20 then
    ['\\', 'u', '0', '0', hexDigit (c.toNat / 16), hexDigit (c.toNat % 16)]
  else [c]

/-- Write a string with its quotation marks. -/
def quote (text : String) : List Char :=
  '"' :: (text.toList.flatMap escapeChar ++ ['"'])

/-- Whether a value is written over several lines. -/
inductive Layout where
  | compact
  | indented
  deriving DecidableEq, Repr

/-- Begin a new line at a level of nesting. -/
def Layout.newline (layout : Layout) (level : Nat) : List Char :=
  match layout with
  | .compact => []
  | .indented => '\n' :: List.replicate (2 * level) ' '

/-- What separates the name of a member from its value. -/
def Layout.colon : Layout → List Char
  | .compact => [':']
  | .indented => [':', ' ']

mutual

/-- Write a value at a level of nesting. -/
def write (layout : Layout) (level : Nat) : Json → List Char
  | .null => "null".toList
  | .bool true => "true".toList
  | .bool false => "false".toList
  | .integer value => (toString value).toList
  | .number value => (numberText value).toList
  | .string value => quote value
  | .array [] => ['[', ']']
  | .array (item :: items) =>
      '[' :: (layout.newline (level + 1) ++ write layout (level + 1) item ++
        writeItems layout (level + 1) items ++ layout.newline level ++ [']'])
  | .object [] => ['{', '}']
  | .object ((name, value) :: members) =>
      '{' :: (layout.newline (level + 1) ++ quote name ++ layout.colon ++
        write layout (level + 1) value ++
        writeMembers layout (level + 1) members ++ layout.newline level ++ ['}'])

/-- Write the items after the first. -/
def writeItems (layout : Layout) (level : Nat) : List Json → List Char
  | [] => []
  | item :: items =>
      ',' :: (layout.newline level ++ write layout level item ++
        writeItems layout level items)

/-- Write the members after the first. -/
def writeMembers (layout : Layout) (level : Nat) :
    List (String × Json) → List Char
  | [] => []
  | (name, value) :: members =>
      ',' :: (layout.newline level ++ quote name ++ layout.colon ++
        write layout level value ++ writeMembers layout level members)

end

/-- Write a value on one line. -/
def compact (value : Json) : String :=
  String.ofList (write .compact 0 value)

/-- Write a value over several lines. -/
def pretty (value : Json) : String :=
  String.ofList (write .indented 0 value)

end XmlRecords.Json
