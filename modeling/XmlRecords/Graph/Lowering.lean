import XmlRecords.Components.Basic
import XmlRecords.Graph.FieldName

/-!
# From components to a record schema

Every complex type becomes a record.  A type with a name has one record, which
is known before its fields are, so that a type that contains itself leads back
to it.  A type without a name has a new record wherever it is used, except
within itself.

A repeated element is an array, and one that may be missing is optional.  The
particles of a group that is not repeated become fields of the record around
it; a repeated group becomes an array of records of its own.  All that is
matched by a wildcard is a map, of which a record has one for elements and one
for attributes.
-/

namespace XmlRecords

namespace Lowering

/-- The name of the fields that hold what wildcards match. -/
def wildcardField : String := "others"

/-- The name of the fields that hold the rounds of a repeated group. -/
def groupField : String := "group"

/-- The name of the field that holds the text of an element. -/
def textField : String := "text"

/-- The name of the record that stands for the choice of a document element. -/
def documentRecord : String := "document"

/-- The fields of a record so far, and the namer of their names. -/
structure Fields where
  namer : Namer := {}
  fields : List Field := []

/-- Add a field under a name made from a raw one.  A second wildcard of a kind
is left out. -/
def Fields.push (all : Fields) (raw : String) (origin : Origin) (node : Nat) :
    Fields :=
  let isWildcard := origin == .elementWildcard || origin == .attributeWildcard
  if isWildcard && all.fields.any (·.origin == origin) then all
  else
    let (name, namer) := all.namer.claim raw
    ⟨namer, all.fields ++ [⟨name, origin, node⟩]⟩

/-- The graph so far; the records of types with names and of types without names
that are being built; the nodes of primitives; and how many names have been made
for types and for groups. -/
structure Builder where
  graph : Graph := {}
  named : List (QName × Nat) := []
  anonymous : List (Nat × Nat) := []
  primitives : List ((Primitive × Option Logical) × Nat) := []
  nextType : Nat := 0
  nextGroup : Nat := 0

/-- Building may fail, and it adds to a graph. -/
abbrev Build := StateT Builder (Except Error)

/-- Add a node. -/
def addNode (node : Node) : Build Nat := do
  let (id, graph) := (← get).graph.add node
  modify fun b => { b with graph }
  return id

/-- Give a record its fields. -/
def setFields (id : Nat) (fields : Fields) : Build Unit :=
  modify fun b => { b with graph := b.graph.setFields id fields.fields }

/-- The only node of a primitive. -/
def primitiveNode (kind : Primitive) (logical : Option Logical) : Build Nat := do
  match (← get).primitives.lookup (kind, logical) with
  | some id => return id
  | none =>
      let id ← addNode (.primitive kind logical)
      modify fun b =>
        { b with primitives := ((kind, logical), id) :: b.primitives }
      return id

/-- The node of a simple type. -/
def datatypeNode (datatype : Datatype) : Build Nat :=
  primitiveNode datatype.primitive.1 datatype.primitive.2

/-- Make a node optional unless it can be empty already. -/
def optionalNode (inner : Nat) : Build Nat := do
  match (← get).graph.node? inner with
  | some (.optional _) | some (.array _) => return inner
  | _ => addNode (.optional inner)

/-- Add a map to text. -/
def mapNode : Build Nat := do
  addNode (.map (← primitiveNode .string none))

/-- Make a name for a record that has none. -/
def newTypeName : Build QName := do
  let number := (← get).nextType
  modify fun b => { b with nextType := number + 1 }
  return .unqualified ("type" ++ toString number)

/-- Make a name for the record of a group. -/
def newGroupName : Build QName := do
  let number := (← get).nextGroup
  modify fun b => { b with nextGroup := number + 1 }
  return .unqualified ("group" ++ toString number)

/-- Make a node of a type repeated or optional. -/
def occurrenceNode (repeated optional : Bool) (node : Nat) : Build Nat :=
  if repeated then addNode (.array node)
  else if optional then optionalNode node
  else return node

/-- Make the node of a repeated group.  `fill` makes the fields of its rounds,
whose record is known before its fields are. -/
def groupNode (compositor : Compositor) (fill : Build Fields) : Build Nat := do
  let name ← newGroupName
  let item ← addNode (.record (.empty (some name) (.group compositor)))
  let inner ← fill
  setFields item inner
  addNode (.array item)

mutual

/-- Add the fields of a particle.  `optional` says that the particle stands in a
group that need not occur as a whole.  `enter` makes the node of a type. -/
def flatten (enter : TypeRef → Build Nat) (optional : Bool) (fields : Fields) :
    Particle → Build Fields
  | .element occurs declaration => do
      if occurs.isProhibited then return fields
      let node ← enter declaration.type
      let node ← occurrenceNode occurs.isRepeated
        (occurs.least == 0 || optional) node
      return fields.push declaration.name.name (.element declaration.name) node
  | .group occurs compositor particles => do
      if occurs.isProhibited then return fields
      if occurs.isRepeated then
        let node ← groupNode compositor
          (flattenAll enter (compositor == .choice) {} particles)
        return fields.push groupField .group node
      else
        flattenAll enter
          (optional || occurs.least == 0 || compositor == .choice) fields
          particles
  | .wildcard occurs => do
      if occurs.isProhibited then return fields
      let node ← mapNode
      return fields.push wildcardField .elementWildcard node
  | .unsupported occurs tag => do
      if occurs.isProhibited then return fields
      throw (.schema (.unsupportedTerm tag))

/-- Add the fields of several particles. -/
def flattenAll (enter : TypeRef → Build Nat) (optional : Bool)
    (fields : Fields) : List Particle → Build Fields
  | [] => return fields
  | particle :: rest => do
      let fields ← flatten enter optional fields particle
      flattenAll enter optional fields rest

end

/-- The node of the field of an attribute. -/
def attributeNode (a : AttributeUse) : Build Nat := do
  let node ← datatypeNode a.datatype
  if a.required then return node else optionalNode node

/-- Add the fields of the attributes of a type. -/
def addAttributes (fields : Fields) : List AttributeUse → Build Fields
  | [] => return fields
  | a :: rest => do
      let node ← attributeNode a
      addAttributes (fields.push a.name.name (.attribute a.name) node) rest

/-- The record that a type leads back to: that of its name, or, if it has none,
the one that is being built for it. -/
def openRecord? (b : Builder) (id : Nat) (type : ComplexType) : Option Nat :=
  match type.name with
  | some name => b.named.lookup name
  | none => b.anonymous.lookup id

/-- Add the record of a type and note it, so that the type leads back to it. -/
def beginType (id : Nat) (type : ComplexType) : Build Nat :=
  match type.name with
  | some name => do
      let node ← addNode (.record (.empty (some name) .type))
      modify fun b => { b with named := (name, node) :: b.named }
      return node
  | none => do
      let name ← newTypeName
      let node ← addNode (.record (.empty (some name) .type))
      modify fun b => { b with anonymous := (id, node) :: b.anonymous }
      return node

/-- A type without a name is not open any more. -/
def closeType (id : Nat) (type : ComplexType) : Build Unit :=
  if type.name.isNone then
    modify fun b => { b with anonymous := b.anonymous.filter (·.1 != id) }
  else return ()

/-- The field for the text of a type, if it has simple content. -/
def textFields (type : ComplexType) : Build Fields :=
  match type.simpleContent with
  | none => return {}
  | some datatype => do
      let node ← datatypeNode datatype
      return ({} : Fields).push textField .text node

/-- Add the fields of the content of a type. -/
def addContent (enter : TypeRef → Build Nat) (fields : Fields)
    (type : ComplexType) : Build Fields :=
  match type.content with
  | none => return fields
  | some content => flatten enter false fields content

/-- Add the field for the attributes of a type that have none of their own. -/
def addAttributeWildcard (fields : Fields) (type : ComplexType) :
    Build Fields :=
  if type.anyAttribute then do
    let node ← mapNode
    return fields.push wildcardField .attributeWildcard node
  else return fields

/-- The fields of a type. -/
def typeFields (enter : TypeRef → Build Nat) (type : ComplexType) :
    Build Fields := do
  let fields ← textFields type
  let fields ← addContent enter fields type
  let fields ← addAttributes fields type.attributes
  addAttributeWildcard fields type

/-- Make the node of a type.  Within a type no other is entered twice, so there
are never more types open than there are. -/
def typeNode (components : Components) : Nat → TypeRef → Build Nat
  | _, .simple datatype => datatypeNode datatype
  | 0, .complex _ => throw (.schema .noElements)
  | fuel + 1, .complex id => do
      let type := components.types[id]?.getD {}
      match openRecord? (← get) id type with
      | some node => return node
      | none =>
          let node ← beginType id type
          let fields ← typeFields (typeNode components fuel) type
          closeType id type
          setFields node fields
          return node

/-- Add the fields of a record with one optional field for each root. -/
def documentFields (components : Components) (fields : Fields) :
    List ElementDecl → Build Fields
  | [] => return fields
  | declaration :: rest => do
      let node ←
        typeNode components (components.types.size + 1) declaration.type
      let node ← optionalNode node
      documentFields components
        (fields.push declaration.name.name (.element declaration.name) node) rest

/-- Make the node for all documents that begin with one of the roots. -/
def rootNode (components : Components) : List ElementDecl → Build Nat
  | [only] => typeNode components (components.types.size + 1) only.type
  | roots => do
      let fields ← documentFields components {} roots
      let record :=
        Record.empty (some (.unqualified documentRecord)) .document
      addNode (.record (record.withFields fields.fields))

/-- The roots to build for: all, or the one that is asked for. -/
def chosenRoots (components : Components) (wanted : Option String) :
    Except Error (List ElementDecl) :=
  if components.roots.isEmpty then .error (.schema .noElements)
  else
    match wanted with
    | none => .ok components.roots
    | some name =>
        match components.roots.find? fun root =>
            root.name.name == name || root.name.text == name with
        | some root => .ok [root]
        | none => .error (.field (.noRootNamed name))

end Lowering

/-- Build the record schema of components, for all roots or for the one with a
name. -/
def Graph.ofComponents (components : Components) (wanted : Option String) :
    Except Error Graph := do
  let roots ← Lowering.chosenRoots components wanted
  let (root, builder) ← (Lowering.rootNode components roots).run {}
  return { builder.graph with root := some root }

end XmlRecords
