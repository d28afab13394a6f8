import XmlRecords.Xml.Namespace

/-!
# Trees

A document as a tree of runs of text and elements, each of which keeps the
namespaces in its scope.  Where the scopes are of no use any more, what is left
of a tree is the content of an element.
-/

namespace XmlRecords.Xml

/-- A run of text, or an element with the namespaces in its scope. -/
inductive Tree where
  | text (value : String)
  | element (name : QName) (attributes : List Attribute) (scope : Scope)
      (content : List Tree)
  deriving Inhabited, Repr

/-- An element of a tree. -/
structure ScopedElement where
  name : QName
  attributes : List Attribute
  scope : Scope
  content : List Tree
  deriving Inhabited, Repr

/-- The element that an item of a tree is, if it is one. -/
def Tree.element? : Tree → Option ScopedElement
  | .text _ => none
  | .element name attributes scope content =>
      some ⟨name, attributes, scope, content⟩

mutual

/-- The number of elements in a tree. -/
def Tree.size : Tree → Nat
  | .text _ => 0
  | .element _ _ _ content => Tree.sizeOfList content + 1

/-- The number of elements in several trees. -/
def Tree.sizeOfList : List Tree → Nat
  | [] => 0
  | item :: items => item.size + Tree.sizeOfList items

end

mutual

/-- Collect the content of a tree that is at most a number of levels deep. -/
def Tree.content? (levels : Nat) : Tree → Option Content
  | .text value => some (.text value)
  | .element name attributes _ content =>
      match levels with
      | 0 => none
      | levels + 1 =>
          (Tree.contents? levels [] content).map (.element name attributes)

/-- Collect items onto those collected so far, the latest first. -/
def Tree.contents? (levels : Nat) (latest : List Content) :
    List Tree → Option (List Content)
  | [] => some latest.reverse
  | .text value :: rest =>
      Tree.contents? levels (Content.pushText latest value) rest
  | item :: rest =>
      match item.content? levels with
      | none => none
      | some child => Tree.contents? levels (child :: latest) rest

end

end XmlRecords.Xml
