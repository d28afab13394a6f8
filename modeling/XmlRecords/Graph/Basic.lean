import XmlRecords.Error

/-!
# Record schemas as graphs

A record schema is a graph of nodes: primitives, records, and the wrappers for
repeated, optional and open content.  Nodes refer to each other by their place
in the order in which they were added, so a schema that contains itself is a
cycle of references.

Every field of a record knows what part of a document it comes from.  That
origin alone decides what is put into the field.
-/

namespace XmlRecords

/-- The kinds of primitive values. -/
inductive Primitive where
  | boolean
  | int
  | long
  | float
  | double
  | bytes
  | string
  deriving DecidableEq, Repr

namespace Primitive

/-- The name of a kind. -/
def name : Primitive → String
  | .boolean => "boolean"
  | .int => "int"
  | .long => "long"
  | .float => "float"
  | .double => "double"
  | .bytes => "bytes"
  | .string => "string"

/-- All kinds. -/
def all : List Primitive :=
  [.boolean, .int, .long, .float, .double, .bytes, .string]

/-- The kind with a name. -/
def ofName? (name : String) : Option Primitive :=
  all.find? fun kind => kind.name == name

end Primitive

/-- A meaning beyond its kind by which the text of a primitive is read: a long
as a date-time, or bytes in one of two encodings. -/
inductive Logical where
  | timestampMillis
  | hex
  | base64
  deriving DecidableEq, Repr

/-- How a model group combines its particles. -/
inductive Compositor where
  | sequence
  | choice
  | all
  deriving DecidableEq, Repr

/-- The name of a compositor. -/
def Compositor.name : Compositor → String
  | .sequence => "sequence"
  | .choice => "choice"
  | .all => "all"

/-- What a record stands for: a complex type, the choice of a document element,
or one round of a repeated model group. -/
inductive RecordSource where
  | type
  | document
  | group (compositor : Compositor)
  deriving DecidableEq, Repr

/-- What part of a document a field comes from. -/
inductive Origin where
  | element (name : QName)
  | attribute (name : QName)
  | elementWildcard
  | attributeWildcard
  | group
  | text
  deriving DecidableEq, Repr

/-- A field of a record, with the node of its type. -/
structure Field where
  name : String
  origin : Origin
  node : Nat
  deriving DecidableEq, Repr

/-- A record, with the places of the fields for whatever has no field of its own
and for its text. -/
structure Record where
  name : Option QName
  source : RecordSource
  fields : List Field
  elementWildcard : Option Nat
  attributeWildcard : Option Nat
  text : Option Nat
  deriving DecidableEq, Repr

namespace Record

/-- A record without fields. -/
def empty (name : Option QName) (source : RecordSource) : Record :=
  ⟨name, source, [], none, none, none⟩

/-- Give a record its fields and note the places of the special ones. -/
def withFields (record : Record) (fields : List Field) : Record :=
  { record with
    fields
    elementWildcard := fields.findIdx? (·.origin == .elementWildcard)
    attributeWildcard := fields.findIdx? (·.origin == .attributeWildcard)
    text := fields.findIdx? (·.origin == .text) }

/-- The place of the first field with a name. -/
def fieldNamed? (record : Record) (name : String) : Option Nat :=
  record.fields.findIdx? (·.name == name)

/-- The place of the first field for an element. -/
def elementField? (record : Record) (name : QName) : Option Nat :=
  record.fields.findIdx? (·.origin == .element name)

/-- The place of the first field for an attribute. -/
def attributeField? (record : Record) (name : QName) : Option Nat :=
  record.fields.findIdx? (·.origin == .attribute name)

/-- What messages call a record. -/
def title (record : Record) : String :=
  match record.name with
  | some name => name.text
  | none => "<anonymous>"

end Record

/-- A node of a record schema. -/
inductive Node where
  | primitive (kind : Primitive) (logical : Option Logical)
  | record (record : Record)
  | array (item : Nat)
  | optional (inner : Nat)
  | map (values : Nat)
  deriving DecidableEq, Repr

/-- The record that a node is, if it is one. -/
def Node.record? : Node → Option Record
  | .record r => some r
  | _ => none

/-- A record schema: its nodes in the order in which they were added, and the
root. -/
structure Graph where
  nodes : Array Node := #[]
  root : Option Nat := none
  deriving DecidableEq, Repr

namespace Graph

/-- Add a node; its number is the count of the nodes in front of it. -/
def add (graph : Graph) (node : Node) : Nat × Graph :=
  (graph.nodes.size, { graph with nodes := graph.nodes.push node })

/-- The node with a number. -/
def node? (graph : Graph) (id : Nat) : Option Node := graph.nodes[id]?

/-- The record with a number. -/
def record? (graph : Graph) (id : Nat) : Option Record :=
  (graph.node? id).bind Node.record?

/-- Give the record with a number its fields.  Any other node stays as it
is. -/
def setFields (graph : Graph) (id : Nat) (fields : List Field) : Graph :=
  match graph.record? id with
  | some record =>
      { graph with
        nodes := graph.nodes.setIfInBounds id
          (.record (record.withFields fields)) }
  | none => graph

/-- Strip a bounded number of wrappers for optional and repeated content. -/
def stripWrappers (graph : Graph) : Nat → Nat → Nat
  | 0, id => id
  | fuel + 1, id =>
      match graph.node? id with
      | some (.optional inner) | some (.array inner) =>
          graph.stripWrappers fuel inner
      | _ => id

/-- The node below all wrappers for optional and repeated content. -/
def elementType (graph : Graph) (id : Nat) : Nat :=
  graph.stripWrappers (graph.nodes.size + 1) id

/-- Strip a bounded number of wrappers for optional content. -/
def stripOptional (graph : Graph) : Nat → Nat → Nat
  | 0, id => id
  | fuel + 1, id =>
      match graph.node? id with
      | some (.optional inner) => graph.stripOptional fuel inner
      | _ => id

/-- The node below all wrappers for optional content. -/
def requiredType (graph : Graph) (id : Nat) : Nat :=
  graph.stripOptional (graph.nodes.size + 1) id

/-- The field with a name of the record with a number. -/
def field (graph : Graph) (id : Nat) (name : String) : Except Error Field :=
  match graph.record? id with
  | none => .error (.field (.notARecord id))
  | some record =>
      match record.fields.find? (·.name == name) with
      | some field => .ok field
      | none =>
          let title := (record.name.map (·.name)).getD "<anonymous>"
          .error (.field (.noSuchField title name))

end Graph

end XmlRecords
