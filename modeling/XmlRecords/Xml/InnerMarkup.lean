import XmlRecords.Xml.Element

/-!
# Content written as markup

The content of an element, without its own tags, as markup that stands by
itself inside an element of the same name.  A child in another namespace than
its parent declares that namespace as the default, and each attribute in a
namespace gets a declaration and a fresh label of its own.
-/

namespace XmlRecords

namespace Xml

/-- Escape the five characters that have a predefined entity. -/
def escapeChar (c : Char) : List Char :=
  if c = '<' then "&lt;".toList
  else if c = '>' then "&gt;".toList
  else if c = '&' then "&amp;".toList
  else if c = '\x27' then "&apos;".toList
  else if c = '"' then "&quot;".toList
  else [c]

/-- Escape a text. -/
def escape (text : String) : List Char := text.toList.flatMap escapeChar

/-- Write a name with a quoted value after a blank. -/
def writeBinding (name value : String) : List Char :=
  ' ' :: (name.toList ++ '=' :: '"' :: (escape value ++ ['"']))

/-- Write attributes; the labels of namespaces are counted from a number on. -/
def writeAttributes : Nat → List Attribute → List Char
  | _, [] => []
  | count, a :: rest =>
      match a.name.ns with
      | none => writeBinding a.name.name a.value ++ writeAttributes count rest
      | some ns =>
          let label := "ns" ++ toString count
          writeBinding ("xmlns:" ++ label) ns ++
            writeBinding (label ++ ":" ++ a.name.name) a.value ++
            writeAttributes (count + 1) rest

/-- Declare the namespace of an element where it differs from the one in
scope. -/
def writeScope (scope ns : Option String) : List Char :=
  if ns = scope then [] else writeBinding "xmlns" (ns.getD "")

end Xml

mutual

/-- Write an item of content under a default namespace. -/
def Content.write (scope : Option String) : Content → List Char
  | .text value => Xml.escape value
  | .element name attributes content =>
      '<' :: (name.name.toList ++ Xml.writeScope scope name.ns ++
        Xml.writeAttributes 0 (attributes.filter (!·.isMeta)) ++
        if content.isEmpty then "/>".toList
        else
          '>' :: (Content.writeList name.ns content ++
            '<' :: '/' :: (name.name.toList ++ ['>'])))

/-- Write items of content under a default namespace. -/
def Content.writeList (scope : Option String) : List Content → List Char
  | [] => []
  | item :: items => item.write scope ++ Content.writeList scope items

end

/-- The content of an element as markup, trimmed. -/
def Element.innerMarkup (e : Element) : String :=
  String.ofList (Text.trimChars (Content.writeList e.name.ns e.content))

end XmlRecords
