import XmlRecords.Graph.FieldName
import XmlRecords.Graph.Provenance
import XmlRecords.Json.Printer
import XmlRecords.SchemaText.Basic

/-!
# Writing record schemas

A record is described where it is first met and referred to by its name after
that, which is how a schema that contains itself comes to an end.  Names are
handed out in the order of the nodes, so that no two records share one.
-/

namespace XmlRecords

namespace Graph

/-- Hand out names for the records among numbered nodes. -/
def claimRecordNames (namer : Namer) : List (Node × Nat) → List (Nat × String)
  | [] => []
  | (.record record, id) :: rest =>
      let raw := (record.name.map (·.name)).getD "record"
      let (name, namer) := namer.claim raw
      (id, name) :: claimRecordNames namer rest
  | _ :: rest => claimRecordNames namer rest

/-- The names under which the records of a graph are written. -/
def recordNames (graph : Graph) : List (Nat × String) :=
  claimRecordNames {} graph.nodes.toList.zipIdx

/-- Recognise an optional node. -/
def isOptional (graph : Graph) (id : Nat) : Bool :=
  match graph.node? id with
  | some (.optional _) => true
  | _ => false

end Graph

namespace SchemaWriter

/-- The written form of a primitive. -/
def primitiveText (kind : Primitive) : Option Logical → TypeText
  | none => .name kind.name
  | some .timestampMillis => .long (some timestampMillisName)
  | some .hex => .bytes (some "hex")
  | some .base64 => .bytes (some "base64")

/-- The written form of the source of a record.  Types have none. -/
def sourceText : RecordSource → Option String
  | .type => none
  | .document => some "document"
  | .group compositor => some compositor.name

/-- Write fields, with the records that have been described so far.  `write`
writes the type of a field. -/
def fieldTexts (graph : Graph)
    (write : Nat → List Nat → TypeText × List Nat) :
    List Nat → List Field → List FieldText × List Nat
  | written, [] => ([], written)
  | written, field :: rest =>
      let (type, written) := write field.node written
      let (texts, written) := fieldTexts graph write written rest
      (.field field.name type field.origin.provenance
        (graph.isOptional field.node) :: texts, written)

/-- Write a node, with the records that have been described so far. -/
def typeText (graph : Graph) (names : List (Nat × String)) :
    Nat → Nat → List Nat → TypeText × List Nat
  | 0, _, written => (.name "", written)
  | fuel + 1, id, written =>
      match graph.node? id with
      | none => (.name "", written)
      | some (.primitive kind logical) => (primitiveText kind logical, written)
      | some (.record record) =>
          let name := (names.lookup id).getD ""
          if written.contains id then (.name name, written)
          else
            let (fields, written) :=
              fieldTexts graph (typeText graph names fuel) (id :: written)
                record.fields
            (.record name (record.name.bind (·.ns)) (sourceText record.source)
              fields, written)
      | some (.array item) =>
          let (items, written) := typeText graph names fuel item written
          (.array items, written)
      | some (.optional inner) =>
          let (arm, written) := typeText graph names fuel inner written
          (.union [.name "null", arm], written)
      | some (.map values) =>
          let (values, written) := typeText graph names fuel values written
          (.map values, written)

end SchemaWriter

namespace Graph

/-- The written form of a graph.  On the way to a node each record is described
once, and between two records there are only wrappers, each of them once. -/
def toTypeText (graph : Graph) : Except Error TypeText :=
  match graph.root with
  | none => .error (.schema .noRoot)
  | some root =>
      let steps := (graph.nodes.size + 1) * (graph.nodes.size + 2)
      .ok (SchemaWriter.typeText graph graph.recordNames steps root []).1

/-- The text of a graph. -/
def toText (graph : Graph) : Except Error String := do
  return (← graph.toTypeText).toJson.pretty

end Graph

end XmlRecords
