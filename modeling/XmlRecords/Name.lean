/-!
# Qualified names

A name is a local part and, optionally, a namespace.  The empty namespace is a
namespace: it differs from having none.
-/

namespace XmlRecords

/-- A local name in a namespace, or in none. -/
structure QName where
  name : String
  ns : Option String
  deriving DecidableEq, Repr, Inhabited

namespace QName

/-- A name in no namespace. -/
def unqualified (name : String) : QName := ⟨name, none⟩

/-- Write a name as `name`, or as `name` with its namespace in braces. -/
def text (q : QName) : String :=
  match q.ns with
  | none => q.name
  | some ns => q.name ++ "\x7b" ++ ns ++ "\x7d"

end QName

/-- The namespace of the schema language. -/
def schemaNamespace : String := "http://www.w3.org/2001/XMLSchema"

/-- The namespace of namespace declarations. -/
def declarationNamespace : String := "http://www.w3.org/2000/xmlns/"

/-- The namespace that belongs to the name `xml`. -/
def xmlNamespace : String := "http://www.w3.org/XML/1998/namespace"

/-- The namespace of annotations by which an instance refers to its schema. -/
def instanceNamespace : String := "http://www.w3.org/2001/XMLSchema-instance"

end XmlRecords
