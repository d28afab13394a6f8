import XmlRecords.Name
import XmlRecords.Text.Blank

/-!
# Elements

An element has a name, attributes and content: runs of text and child elements
in document order.  Content is collected from its end, so an element under
construction keeps its latest item first; a run of nothing but white space is
not collected, and a run that follows another one is appended to it.
-/

namespace XmlRecords

/-- An attribute of an element. -/
structure Attribute where
  name : QName
  value : String
  deriving DecidableEq, Repr

/-- Recognise the attributes that carry no data of the document: declarations
of namespaces and annotations of the instance. -/
def Attribute.isMeta (a : Attribute) : Bool :=
  a.name.ns = some declarationNamespace || a.name.ns = some instanceNamespace ||
    a.name = .unqualified "xmlns"

/-- A run of text or a child element. -/
inductive Content where
  | text (value : String)
  | element (name : QName) (attributes : List Attribute)
      (content : List Content)
  deriving Inhabited, Repr

/-- An element. -/
structure Element where
  name : QName
  attributes : List Attribute
  content : List Content
  deriving Inhabited, Repr

namespace Content

/-- An element as an item of content. -/
def ofElement (e : Element) : Content := .element e.name e.attributes e.content

/-- The element that an item of content is, if it is one. -/
def element? : Content → Option Element
  | .text _ => none
  | .element name attributes content => some ⟨name, attributes, content⟩

/-- The text that an item of content is, if it is text. -/
def text? : Content → Option String
  | .text value => some value
  | .element _ _ _ => none

/-- Put a run of text in front of items whose latest comes first. -/
def pushText (latest : List Content) (run : String) : List Content :=
  if Text.isAllBlank run then latest
  else
    match latest with
    | .text value :: rest => .text (value ++ run) :: rest
    | _ => .text run :: latest

mutual

/-- The levels of elements in an item of content. -/
def depth : Content → Nat
  | .text _ => 0
  | .element _ _ content => depthOfList content + 1

/-- The most levels of elements in one of several items. -/
def depthOfList : List Content → Nat
  | [] => 0
  | item :: items => max item.depth (depthOfList items)

end

end Content

namespace Element

/-- The child elements in document order. -/
def children (e : Element) : List Element := e.content.filterMap Content.element?

/-- The number of child elements. -/
def childCount (e : Element) : Nat := e.children.length

/-- The runs of text, joined and trimmed. -/
def text (e : Element) : String :=
  Text.trim (String.join (e.content.filterMap Content.text?))

/-- The levels of elements, this one included. -/
def depth (e : Element) : Nat := (Content.ofElement e).depth

end Element

end XmlRecords
