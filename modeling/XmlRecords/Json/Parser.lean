import XmlRecords.Json.Basic
import XmlRecords.Number.DecimalLiteral

/-!
# Reading JSON

A value is read from the front of a text and whatever follows it is handed
back.  Arrays and objects nest at most 127 levels deep, numbers have to be
finite, and a whole number without sign or with a minus sign is kept as such as
long as it fits 64 bits.
-/

namespace XmlRecords.Json

/-- The deepest nesting of arrays and objects that is read. -/
def maxNesting : Nat := 127

/-- Recognise the four characters that may stand between the parts of a
value. -/
def isSpace (c : Char) : Bool :=
  c == ' ' || c == '\n' || c == '\t' || c == '\r'

/-- Drop the space at the front of a text. -/
def skipSpace (text : List Char) : List Char := text.dropWhile isSpace

/-- Read four hexadecimal digits. -/
def readHex4 : List Char → Option (Nat × List Char)
  | a :: b :: c :: d :: rest => do
      let digits ← [a, b, c, d].mapM hexValue?
      return (digits.foldl (fun sum digit => sum * 16 + digit) 0, rest)
  | _ => none

/-- Read the code of an escape after its `\u`.  A high surrogate needs a low
one in a second escape. -/
def readCode (text : List Char) : Option (Char × List Char) := do
  let (high, rest) ← readHex4 text
  if 0xDC00 ≤ high && high ≤ 0xDFFF then none
  else if 0xD800 ≤ high && high ≤ 0xDBFF then
    match rest with
    | '\\' :: 'u' :: tail =>
        let (low, rest) ← readHex4 tail
        if 0xDC00 ≤ low && low ≤ 0xDFFF then
          return (Char.ofNat
            (0x10000 + (high - 0xD800) * 0x400 + (low - 0xDC00)), rest)
        else none
    | _ => none
  else return (Char.ofNat high, rest)

/-- The character of an escape by one letter. -/
def escaped? (letter : Char) : Option Char :=
  match letter with
  | '"' => some '"'
  | '\\' => some '\\'
  | '/' => some '/'
  | 'b' => some '\x08'
  | 'f' => some '\x0c'
  | 'n' => some '\n'
  | 'r' => some '\r'
  | 't' => some '\t'
  | _ => none

/-- Read the rest of a string after its opening quotation mark, onto the
characters read so far in reverse. -/
def readString : Nat → List Char → List Char → Option (String × List Char)
  | 0, _, _ => none
  | fuel + 1, done, text =>
      match text with
      | [] => none
      | '"' :: rest => some (String.ofList done.reverse, rest)
      | '\\' :: 'u' :: rest =>
          match readCode rest with
          | some (c, rest) => readString fuel (c :: done) rest
          | none => none
      | '\\' :: letter :: rest =>
          match escaped? letter with
          | some c => readString fuel (c :: done) rest
          | none => none
      | c :: rest =>
          if c = '\\' || c.toNat < 0x20 then none
          else readString fuel (c :: done) rest

/-- Split off the exponent at the front of a text, if there is one.  The outer
option is for an exponent without digits. -/
def spanExponent : List Char → Option (List Char × List Char)
  | e :: rest =>
      if e = 'e' || e = 'E' then
        let (sign, digits) : List Char × List Char :=
          match rest with
          | '+' :: tail => (['+'], tail)
          | '-' :: tail => (['-'], tail)
          | _ => ([], rest)
        match Decimal.spanDigits digits with
        | ([], _) => none
        | (digits, rest) => some (e :: (sign ++ digits), rest)
      else some ([], e :: rest)
  | [] => some ([], [])

/-- Split off the fraction at the front of a text, if there is one.  The outer
option is for a point without digits. -/
def spanFraction : List Char → Option (List Char × List Char)
  | '.' :: rest =>
      match Decimal.spanDigits rest with
      | ([], _) => none
      | (digits, rest) => some ('.' :: digits, rest)
  | rest => some ([], rest)

/-- Read a number.  No zero stands in front of its other digits. -/
def readNumber (text : List Char) : Option (Json × List Char) := do
  let (negative, unsigned) : Bool × List Char :=
    match text with
    | '-' :: rest => (true, rest)
    | _ => (false, text)
  let (whole, rest) := Decimal.spanDigits unsigned
  if whole.isEmpty || (whole.head? == some '0' && whole.length != 1) then none
  let (fraction, rest) ← spanFraction rest
  let (exponent, rest) ← spanExponent rest
  let size := Decimal.appendDigits 0 whole
  let fits :=
    if negative then 0 < size && size ≤ 0x8000000000000000
    else size < 0x10000000000000000
  if fraction.isEmpty && exponent.isEmpty && fits then
    return (.integer (if negative then -size else size), rest)
  else
    let decimal ← Decimal.read? (whole ++ fraction ++ exponent)
    let value : Binary64 := decimal.toBinary negative
    if value.isFinite then return (.number value, rest) else none

/-- Read a fixed word. -/
def readWord (word : String) (value : Json) (text : List Char) :
    Option (Json × List Char) :=
  if word.toList.isPrefixOf text then
    some (value, text.drop word.length)
  else none

mutual

/-- Read a value with at most `depth` levels of nesting. -/
def readValue (fuel depth : Nat) (text : List Char) :
    Option (Json × List Char) :=
  match fuel with
  | 0 => none
  | fuel + 1 =>
      match skipSpace text with
      | '"' :: rest =>
          (readString (rest.length + 1) [] rest).map fun (text, rest) =>
            (.string text, rest)
      | '[' :: rest =>
          match depth with
          | 0 => none
          | depth + 1 =>
              match skipSpace rest with
              | ']' :: rest => some (.array [], rest)
              | rest => readItems fuel depth [] rest
      | '{' :: rest =>
          match depth with
          | 0 => none
          | depth + 1 =>
              match skipSpace rest with
              | '}' :: rest => some (.object [], rest)
              | rest => readMembers fuel depth [] rest
      | 't' :: rest => readWord "rue" (.bool true) rest
      | 'f' :: rest => readWord "alse" (.bool false) rest
      | 'n' :: rest => readWord "ull" .null rest
      | rest => readNumber rest

/-- Read the items of an array from in front of one of them, onto those read so
far in reverse. -/
def readItems (fuel depth : Nat) (done : List Json) (text : List Char) :
    Option (Json × List Char) :=
  match fuel with
  | 0 => none
  | fuel + 1 =>
      match readValue fuel depth text with
      | none => none
      | some (item, rest) =>
          match skipSpace rest with
          | ',' :: rest => readItems fuel depth (item :: done) rest
          | ']' :: rest => some (.array (item :: done).reverse, rest)
          | _ => none

/-- Read the members of an object from in front of one of them, onto those read
so far in reverse. -/
def readMembers (fuel depth : Nat) (done : List (String × Json))
    (text : List Char) : Option (Json × List Char) :=
  match fuel with
  | 0 => none
  | fuel + 1 =>
      match skipSpace text with
      | '"' :: rest =>
          match readString (rest.length + 1) [] rest with
          | none => none
          | some (name, rest) =>
              match skipSpace rest with
              | ':' :: rest =>
                  match readValue fuel depth rest with
                  | none => none
                  | some (value, rest) =>
                      let members := (name, value) :: done
                      match skipSpace rest with
                      | ',' :: rest => readMembers fuel depth members rest
                      | '}' :: rest => some (.object members.reverse, rest)
                      | _ => none
              | _ => none
      | _ => none

end

/-- Read the value at the front of a text. -/
def read (text : List Char) : Option (Json × List Char) :=
  readValue (2 * text.length + 2) maxNesting text

end XmlRecords.Json
