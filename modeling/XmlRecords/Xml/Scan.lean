import XmlRecords.Error
import XmlRecords.Xml.Characters

/-!
# Pieces of markup

The smallest parts of a document, each read from the front of a text: white
space, names, references, quoted values, and sections that last up to a closing
mark.  What follows the part is handed back.
-/

namespace XmlRecords.Xml

/-- Drop the white space at the front of a text. -/
def skipSpace (text : List Char) : List Char := text.dropWhile isSpace

/-- Drop white space, of which there has to be some. -/
def requireSpace : List Char → Except MarkupDefect (List Char)
  | [] => .error .unexpectedEnd
  | c :: rest =>
      if isSpace c then .ok (skipSpace rest) else .error .unexpectedMarkup

/-- The rest of a text that begins with a mark. -/
def after? (mark : String) (text : List Char) : Option (List Char) :=
  if mark.toList.isPrefixOf text then some (text.drop mark.length) else none

/-- Drop a mark that has to stand here. -/
def requireMark (mark : String) (text : List Char) :
    Except MarkupDefect (List Char) :=
  match after? mark text with
  | some rest => .ok rest
  | none => .error .unexpectedMarkup

/-- Read a name. -/
def readName (text : List Char) :
    Except MarkupDefect (List Char × List Char) :=
  match text.takeWhile isNameChar with
  | [] => .error .badName
  | first :: others =>
      if isNameStart first then
        .ok (first :: others, text.dropWhile isNameChar)
      else .error .badName

/-- A name in two parts, the first of which may be empty. -/
structure Label where
  label : String
  base : String
  deriving DecidableEq, Repr

/-- Read a name with at most one colon in it. -/
def readLabel (text : List Char) : Except MarkupDefect (Label × List Char) :=
  let name := text.takeWhile isNameChar
  let rest := text.dropWhile isNameChar
  let (label, base) :=
    match name.span (· != ':') with
    | (front, _ :: back) => (front, back)
    | (front, []) => ([], front)
  if base.contains ':' then .error .badName
  else if (label.head?.map isNameStart).getD true &&
      (base.head?.map isNameStart).getD false then
    .ok (⟨String.ofList label, String.ofList base⟩, rest)
  else .error .badName

/-- Read allowed characters up to a closing mark, onto those read so far in
reverse. -/
def readUntil (mark : String) : List Char → List Char →
    Except MarkupDefect (List Char × List Char)
  | _, [] => .error .unexpectedEnd
  | done, c :: rest =>
      match after? mark (c :: rest) with
      | some rest => .ok (done.reverse, rest)
      | none =>
          if isAllowed c then readUntil mark (c :: done) rest
          else .error .forbiddenCharacter

/-- Decide whether a mark occurs in a text. -/
def occursIn (mark : String) : List Char → Bool
  | [] => mark.isEmpty
  | c :: rest => mark.toList.isPrefixOf (c :: rest) || occursIn mark rest

/-- Skip a comment after its opening mark.  Two hyphens stand nowhere in it but
in its closing mark. -/
def skipComment (text : List Char) : Except MarkupDefect (List Char) := do
  let (body, rest) ← readUntil "-->" [] text
  if occursIn "--" body || body.getLast? == some '-' then .error .badComment
  else return rest

/-- Skip a processing instruction after its opening mark. -/
def skipInstruction (text : List Char) : Except MarkupDefect (List Char) := do
  if (after? "xml " text).isSome then .error .unexpectedMarkup
  let (_, rest) ← readName text
  let (_, rest) ← readUntil "?>" [] (skipSpace rest)
  return rest

/-- Read a quotation mark of either kind. -/
def readQuote : List Char → Except MarkupDefect (Char × List Char)
  | c :: rest =>
      if c == '"' || c == '\x27' then .ok (c, rest)
      else .error .unexpectedMarkup
  | [] => .error .unexpectedEnd

/-- Read a quoted text of any characters. -/
def readQuoted (text : List Char) :
    Except MarkupDefect (List Char × List Char) := do
  let (quote, rest) ← readQuote text
  match rest.span (· != quote) with
  | (value, _ :: rest) => return (value, rest)
  | (_, []) => throw .unexpectedEnd

/-- Read an attribute: a name, an equals sign and a quoted value of allowed
characters without an opening angle bracket. -/
def readAttribute (text : List Char) :
    Except MarkupDefect ((Label × List Char) × List Char) := do
  let (name, rest) ← readLabel text
  let rest ← requireMark "=" (skipSpace rest)
  let (value, rest) ← readQuoted (skipSpace rest)
  if value.contains '<' then throw .badAttribute
  if value.any (!isAllowed ·) then throw .forbiddenCharacter
  return ((name, value), rest)

/-- What a reference stands for. -/
inductive Reference where
  | char (c : Char)
  | entity (name : List Char)
  deriving DecidableEq, Repr

/-- The character with a number below 2³².  A number of no character stands for
the replacement character. -/
def charOfNumber? (number : Nat) : Option Char :=
  if 0x100000000 ≤ number then none
  else
    let c := if h : number.isValidChar then Char.ofNatAux number h else '\uFFFD'
    if isAllowed c then some c else none

/-- Read a reference after its ampersand. -/
def readReference? (text : List Char) : Option (Reference × List Char) := do
  let (reference, rest) ←
    match text with
    | '#' :: number => do
        let (radix, number) : Nat × List Char :=
          match number with
          | 'x' :: digits => (16, digits)
          | _ => (10, number)
        let digits := number.takeWhile fun c => (digitValue? radix c).isSome
        if digits.isEmpty then none
        let value := digits.foldl (fun sum c =>
          sum * radix + (digitValue? radix c).getD 0) 0
        let c ← charOfNumber? value
        pure (Reference.char c, number.drop digits.length)
    | _ => do
        let (name, rest) ← (readName text).toOption
        match predefinedEntity? name with
        | some c => pure (Reference.char c, rest)
        | none => pure (Reference.entity name, rest)
  match rest with
  | ';' :: rest => return (reference, rest)
  | _ => none

end XmlRecords.Xml
