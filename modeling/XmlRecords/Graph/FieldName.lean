/-!
# Names of fields and records

Names in a record schema consist of ASCII letters, digits and underscores, do
not begin with a digit and are none of the words that the schema language keeps
for itself.  A namer hands out such names within one scope, each only once: the
first to ask for a name gets it, later ones get it with the least number behind
it that makes it free.
-/

namespace XmlRecords.FieldName

/-- The words that are no names, in lower case. -/
def reservedWords : List String :=
  ["boolean", "int", "long", "float", "double", "bytes", "string", "null",
    "record", "array", "map", "enum", "fixed"]

/-- Recognise a reserved word in any letter case. -/
def isReserved (name : String) : Bool :=
  reservedWords.contains (String.ofList (name.toList.map Char.toLower))

/-- What a character of a raw name becomes, if it is kept at all. -/
def sanitizeChar? (c : Char) : Option Char :=
  if c.isAlphanum || c == '_' then some c
  else if c == '.' || c == '-' then some '_'
  else none

/-- Make a raw name a name. -/
def sanitize (raw : String) : String :=
  let kept := raw.toList.filterMap sanitizeChar?
  match kept with
  | [] => "_"
  | c :: _ => String.ofList (if c.isDigit then '_' :: kept else kept)

end XmlRecords.FieldName

namespace XmlRecords

/-- The names that have been handed out in a scope. -/
structure Namer where
  used : List String := []
  deriving DecidableEq, Repr

namespace Namer

/-- Decide whether a name can still be handed out. -/
def isFree (namer : Namer) (name : String) : Bool :=
  !FieldName.isReserved name && !namer.used.contains name

/-- Search for the least number, from a given one on, that makes a name
free. -/
def freeNumber (namer : Namer) (base : String) : Nat → Nat → Nat
  | 0, number => number
  | fuel + 1, number =>
      if namer.isFree (base ++ toString number) then number
      else namer.freeNumber base fuel (number + 1)

/-- The name that would be handed out for a raw name.  Of one number more than
there are used names, one is sure to be free. -/
def choose (namer : Namer) (raw : String) : String :=
  let base := FieldName.sanitize raw
  if namer.isFree base then base
  else base ++ toString (namer.freeNumber base (namer.used.length + 1) 0)

/-- Hand out a name for a raw name. -/
def claim (namer : Namer) (raw : String) : String × Namer :=
  let name := namer.choose raw
  (name, ⟨name :: namer.used⟩)

/-- Hand out names for raw names one after the other. -/
def claimAll (namer : Namer) : List String → List String × Namer
  | [] => ([], namer)
  | raw :: rest =>
      let (name, next) := namer.claim raw
      let (names, last) := next.claimAll rest
      (name :: names, last)

end Namer

end XmlRecords
