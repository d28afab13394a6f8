import XmlRecords.Graph.Basic
import XmlRecords.Text.Blank

/-!
# Origins as text

The origin of a field is written as a word, or as one of two words followed by a
blank and a name.  The namespace of the name stands in braces behind it.
-/

namespace XmlRecords.Origin

/-- Recognise the origins that belong to attributes. -/
def isAttribute : Origin → Bool
  | .attribute _ | .attributeWildcard => true
  | _ => false

/-- The name that an origin carries, if any. -/
def name? : Origin → Option QName
  | .element name | .attribute name => some name
  | _ => none

/-- Write an origin. -/
def provenance : Origin → String
  | .element name => "element " ++ name.text
  | .attribute name => "attribute " ++ name.text
  | .elementWildcard => "element-wildcard"
  | .attributeWildcard => "attribute-wildcard"
  | .group => "group"
  | .text => "text"

/-- Read a name with its namespace in braces, if it has one. -/
def readName? (text : List Char) : Option QName :=
  match Text.splitOnce '{' text with
  | none => some ⟨String.ofList text, none⟩
  | some (name, rest) =>
      if rest.getLast? = some '}' then
        some ⟨String.ofList name, some (String.ofList rest.dropLast)⟩
      else none

/-- Read an origin. -/
def ofProvenance? (text : String) : Option Origin :=
  if text = "element-wildcard" then some .elementWildcard
  else if text = "attribute-wildcard" then some .attributeWildcard
  else if text = "group" then some .group
  else if text = "text" then some .text
  else do
    let (word, rest) ← Text.splitOnce ' ' text.toList
    let name ← readName? rest
    if word = "element".toList then some (.element name)
    else if word = "attribute".toList then some (.attribute name)
    else none

end XmlRecords.Origin
