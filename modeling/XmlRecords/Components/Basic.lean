import XmlRecords.Graph.Basic

/-!
# Schema components

What an XML schema says, reduced to what a record schema is made from: the
elements a document may begin with, and the complex types with their content
and their attributes.  Complex types are numbered, so that an element can refer
to a type that is not complete yet.
-/

namespace XmlRecords

/-- The simple types that are told apart.  All others are text. -/
inductive Datatype where
  | boolean
  | byte
  | short
  | int
  | long
  | unsignedByte
  | unsignedShort
  | unsignedInt
  | unsignedLong
  | integer
  | decimal
  | float
  | double
  | dateTime
  | hexBinary
  | base64Binary
  | string
  | other
  deriving DecidableEq, Repr

namespace Datatype

/-- The name of a simple type. -/
def name : Datatype → String
  | .boolean => "boolean"
  | .byte => "byte"
  | .short => "short"
  | .int => "int"
  | .long => "long"
  | .unsignedByte => "unsignedByte"
  | .unsignedShort => "unsignedShort"
  | .unsignedInt => "unsignedInt"
  | .unsignedLong => "unsignedLong"
  | .integer => "integer"
  | .decimal => "decimal"
  | .float => "float"
  | .double => "double"
  | .dateTime => "dateTime"
  | .hexBinary => "hexBinary"
  | .base64Binary => "base64Binary"
  | .string => "string"
  | .other => "other"

/-- The simple types that go by their own name in the schema language. -/
def named : List Datatype :=
  [.boolean, .byte, .short, .int, .long, .unsignedByte, .unsignedShort,
    .unsignedInt, .unsignedLong, .integer, .decimal, .float, .double,
    .dateTime, .hexBinary, .base64Binary, .string]

/-- The further names of unbounded whole numbers. -/
def integerNames : List String :=
  ["nonNegativeInteger", "positiveInteger", "nonPositiveInteger",
    "negativeInteger"]

/-- The further names of strings. -/
def stringNames : List String :=
  ["normalizedString", "token", "anySimpleType"]

/-- The names of simple types that are not told apart. -/
def otherNames : List String :=
  ["language", "Name", "NCName", "NMTOKEN", "NMTOKENS", "ID", "IDREF",
    "IDREFS", "ENTITY", "ENTITIES", "QName", "NOTATION", "anyURI", "date",
    "time", "duration", "gYear", "gYearMonth", "gMonth", "gMonthDay", "gDay"]

/-- The simple type with a name of the schema language. -/
def ofName? (name : String) : Option Datatype :=
  match named.find? fun datatype => datatype.name == name with
  | some datatype => some datatype
  | none =>
      if integerNames.contains name then some .integer
      else if stringNames.contains name then some .string
      else if otherNames.contains name then some .other
      else none

/-- The kind of primitive that holds the values of a simple type.  Numbers that
would not fit, or not exactly, remain text. -/
def primitive : Datatype → Primitive × Option Logical
  | .boolean => (.boolean, none)
  | .byte | .short | .int | .unsignedByte | .unsignedShort => (.int, none)
  | .long | .unsignedInt => (.long, none)
  | .float => (.float, none)
  | .double => (.double, none)
  | .dateTime => (.long, some .timestampMillis)
  | .hexBinary => (.bytes, some .hex)
  | .base64Binary => (.bytes, some .base64)
  | .unsignedLong | .integer | .decimal | .string | .other => (.string, none)

end Datatype

/-- A reference to a simple type, or to a complex type by its number. -/
inductive TypeRef where
  | simple (datatype : Datatype)
  | complex (id : Nat)
  deriving DecidableEq, Repr

/-- The declaration of an element. -/
structure ElementDecl where
  name : QName
  type : TypeRef
  deriving DecidableEq, Repr

/-- How often a particle may occur.  No greatest number means no bound. -/
structure Occurs where
  least : Nat
  greatest : Option Nat
  deriving DecidableEq, Repr, Inhabited

namespace Occurs

/-- Exactly once. -/
def once : Occurs := ⟨1, some 1⟩

/-- Recognise particles that may occur more than once. -/
def isRepeated (occurs : Occurs) : Bool :=
  occurs.greatest != some 0 && occurs.greatest != some 1

/-- Recognise particles that may not occur at all. -/
def isProhibited (occurs : Occurs) : Bool := occurs.greatest == some 0

end Occurs

/-- A particle of a content model: an element, a group of particles, anything at
all, or something that is not understood. -/
inductive Particle where
  | element (occurs : Occurs) (declaration : ElementDecl)
  | group (occurs : Occurs) (compositor : Compositor)
      (particles : List Particle)
  | wildcard (occurs : Occurs)
  | unsupported (occurs : Occurs) (tag : String)
  deriving Repr

instance : Inhabited Particle := ⟨.wildcard default⟩

/-- How often a particle may occur. -/
def Particle.occurs : Particle → Occurs
  | .element occurs _ | .group occurs _ _ | .wildcard occurs
  | .unsupported occurs _ => occurs

/-- An attribute that elements of a type may or must have. -/
structure AttributeUse where
  name : QName
  required : Bool
  datatype : Datatype
  deriving DecidableEq, Repr

/-- A complex type. -/
structure ComplexType where
  name : Option QName := none
  attributes : List AttributeUse := []
  anyAttribute : Bool := false
  content : Option Particle := none
  simpleContent : Option Datatype := none
  deriving Inhabited, Repr

/-- The components of a schema. -/
structure Components where
  roots : List ElementDecl := []
  types : Array ComplexType := #[]
  deriving Inhabited, Repr

end XmlRecords
