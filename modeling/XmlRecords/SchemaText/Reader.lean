import XmlRecords.Graph.Provenance
import XmlRecords.Json.Parser
import XmlRecords.SchemaText.Basic

/-!
# Reading record schemas

Reading goes from JSON to written types and from those to a graph.

In JSON, a kind of type and its members are given by an object, or by an array
of the kind and the members in a fixed order; the kind is its name or its place
among the kinds.  What a value means depends on where it stands, so everything
that it could mean is worked out at once, from the inside out.

A written type may refer to any record whose description has begun.
-/

namespace XmlRecords

/-- What a JSON value means: as a type, as a field, and as a list of fields. -/
structure Meaning where
  json : Json
  type : Option TypeText := none
  field : Option FieldText := none
  fields : Option (List FieldText) := none

namespace Meaning

/-- The text that a value is, if it is one. -/
def text? (m : Meaning) : Option String :=
  match m.json with
  | .string text => some text
  | _ => none

/-- The text of a member that may be missing or null. -/
def optionalText? : Option Meaning → Option (Option String)
  | none => some none
  | some m =>
      match m.json with
      | .null => some none
      | .string text => some (some text)
      | _ => none

/-- The kinds of described types in their order, each with the names of its
members in theirs. -/
def kinds : List (String × List String) :=
  [("record", ["name", "namespace", "source", "fields"]),
    ("array", ["items"]), ("map", ["values"]), ("long", ["logicalType"]),
    ("bytes", ["xmlEncoding"]), ("boolean", []), ("int", []), ("float", []),
    ("double", []), ("string", [])]

/-- The kind that a value names or counts to. -/
def kind? (m : Meaning) : Option (String × List String) :=
  match m.json with
  | .string name => kinds.find? fun (kind, _) => kind == name
  | .integer place =>
      if place < 0 then none else kinds[place.toNat]?
  | _ => none

/-- The values of members with given names, each of which occurs at most
once.  Other members are passed over. -/
def namedMembers? (members : List (String × Meaning)) :
    List String → Option (List (Option Meaning))
  | [] => some []
  | name :: names =>
      match members.filter fun (key, _) => key == name with
      | [] => (namedMembers? members names).map (none :: ·)
      | [(_, value)] => (namedMembers? members names).map (some value :: ·)
      | _ => none

/-- The values of members in a fixed order, of which the last may be missing and
none may be left over. -/
def orderedMembers? : List Meaning → List String → Option (List (Option Meaning))
  | [], names => some (names.map fun _ => none)
  | _ :: _, [] => none
  | value :: values, _ :: names =>
      (orderedMembers? values names).map (some value :: ·)

/-- The type of a kind with the values of its members. -/
def describedType? (kind : String) (values : List (Option Meaning)) :
    Option TypeText :=
  match kind, values with
  | "record", [some name, ns, source, some fields] => do
      return .record (← name.text?) (← optionalText? ns)
        (← optionalText? source) (← fields.fields)
  | "record", _ => none
  | "array", [some items] => items.type.map .array
  | "array", _ => none
  | "map", [some values] => values.type.map .map
  | "map", _ => none
  | "long", [logicalType] => (optionalText? logicalType).map .long
  | "bytes", [xmlEncoding] => (optionalText? xmlEncoding).map .bytes
  | _, _ => some (.plain kind)

/-- The field with the values of its members. -/
def describedField? : List (Option Meaning) → Option FieldText
  | [some name, some type, some source, _] => do
      return .field (← name.text?) (← type.type) (← source.text?) false
  | _ => none

/-- The names of the members of a field. -/
def fieldMembers : List String := ["name", "type", "source", "default"]

/-- What an array of values means. -/
def ofItems (json : Json) (items : List Meaning) : Meaning where
  json
  type :=
    match items.mapM (·.type) with
    | some arms => some (.union arms)
    | none =>
        match items with
        | [] => none
        | tag :: values => do
            let (kind, names) ← tag.kind?
            describedType? kind (← orderedMembers? values names)
  field := (orderedMembers? items fieldMembers).bind describedField?
  fields := items.mapM (·.field)

/-- What an object means. -/
def ofMembers (json : Json) (members : List (String × Meaning)) : Meaning where
  json
  type :=
    match namedMembers? members ["type"] with
    | some [some tag] => do
        let (kind, names) ← tag.kind?
        describedType? kind (← namedMembers? members names)
    | _ => none
  field := (namedMembers? members fieldMembers).bind describedField?

mutual

/-- Work out what a JSON value means. -/
def ofJson : Json → Meaning
  | .array items => ofItems (.array items) (ofJsonItems items)
  | .object members => ofMembers (.object members) (ofJsonMembers members)
  | .string name => { json := .string name, type := some (.name name) }
  | json => { json }

/-- Work out what the items of an array mean. -/
def ofJsonItems : List Json → List Meaning
  | [] => []
  | item :: items => ofJson item :: ofJsonItems items

/-- Work out what the members of an object mean. -/
def ofJsonMembers : List (String × Json) → List (String × Meaning)
  | [] => []
  | (name, value) :: members => (name, ofJson value) :: ofJsonMembers members

end

end Meaning

namespace SchemaReader

/-- The graph so far, its records by name, and the nodes of primitives. -/
structure Progress where
  graph : Graph := {}
  records : List (String × Nat) := []
  primitives : List ((Primitive × Option Logical) × Nat) := []

/-- Reading may fail, and it adds to a graph. -/
abbrev Read := StateT Progress (Except Error)

/-- Report a fault in the written form. -/
def fail {α : Type} (fault : FormatFault) : Read α := throw (.format fault)

/-- Add a node. -/
def addNode (node : Node) : Read Nat := do
  let (id, graph) := (← get).graph.add node
  modify fun p => { p with graph }
  return id

/-- The only node of a primitive. -/
def primitiveNode (kind : Primitive) (logical : Option Logical) : Read Nat := do
  match (← get).primitives.lookup (kind, logical) with
  | some id => return id
  | none =>
      let id ← addNode (.primitive kind logical)
      modify fun p =>
        { p with primitives := ((kind, logical), id) :: p.primitives }
      return id

/-- The source of a record. -/
def sourceNamed? : Option String → Option RecordSource
  | none => some .type
  | some "document" => some .document
  | some "sequence" => some (.group .sequence)
  | some "choice" => some (.group .choice)
  | some "all" => some (.group .all)
  | some _ => none

/-- Begin a record, so that it can be referred to. -/
def beginRecord (name : String) (ns source : Option String) : Read Nat := do
  if ((← get).records.lookup name).isSome then fail (.definedTwice name)
  match sourceNamed? source with
  | none => fail (.unknownRecordSource name (source.getD ""))
  | some kind =>
      let id ← addNode (.record (.empty (some ⟨name, ns⟩) kind))
      modify fun p => { p with records := (name, id) :: p.records }
      return id

/-- The node that a name stands for. -/
def namedNode (name : String) : Read Nat := do
  match Primitive.ofName? name with
  | some kind => primitiveNode kind none
  | none =>
      match (← get).records.lookup name with
      | some id => return id
      | none => fail (.unknownType name)

/-- The node of a long with a meaning. -/
def longNode : Option String → Read Nat
  | none => primitiveNode .long none
  | some name =>
      if name = timestampMillisName then
        primitiveNode .long (some .timestampMillis)
      else fail (.unsupportedLogicalType name)

/-- The node of bytes in an encoding. -/
def bytesNode : Option String → Read Nat
  | none | some "base64" => primitiveNode .bytes (some .base64)
  | some "hex" => primitiveNode .bytes (some .hex)
  | some name => fail (.unsupportedEncoding name)

mutual

/-- Make the node of a written type. -/
def typeNode : TypeText → Read Nat
  | .name text => namedNode text
  | .union [.name "null", inner] => do
      let inner ← typeNode inner
      addNode (.optional inner)
  | .union _ => fail .badUnion
  | .record title ns source fields => do
      let id ← beginRecord title ns source
      let fields ← fieldNodes title fields
      modify fun p => { p with graph := p.graph.setFields id fields }
      return id
  | .array items => do
      let items ← typeNode items
      addNode (.array items)
  | .map values => do
      let values ← typeNode values
      addNode (.map values)
  | .long logicalType => longNode logicalType
  | .bytes xmlEncoding => bytesNode xmlEncoding
  | .plain kind => namedNode kind

/-- Make the fields of a record with a name. -/
def fieldNodes (record : String) : List FieldText → Read (List Field)
  | [] => return []
  | .field title type source _ :: rest => do
      match Origin.ofProvenance? source with
      | none => fail (.unknownFieldSource title record source)
      | some origin =>
          let node ← typeNode type
          let fields ← fieldNodes record rest
          return ⟨title, origin, node⟩ :: fields

end

end SchemaReader

namespace Graph

/-- The graph of a written type. -/
def ofTypeText (text : TypeText) : Except Error Graph := do
  let (root, progress) ← (SchemaReader.typeNode text).run {}
  return { progress.graph with root := some root }

/-- Read a graph from the front of a text. -/
def ofText (text : List Char) : Except Error Graph :=
  match Json.read text with
  | none => .error (.format .notJson)
  | some (json, _) =>
      match (Meaning.ofJson json).type with
      | none => .error (.format .noSchemaShape)
      | some type => ofTypeText type

end Graph

end XmlRecords
