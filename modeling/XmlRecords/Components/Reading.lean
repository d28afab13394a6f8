import XmlRecords.Components.Declarations

/-!
# Reading schema documents

Schema documents are read into components.  References by name are followed to
the first declaration with that name, a complex type is read when it is first
referred to, and a type that is derived from another one is written out in full:
it begins with what it takes over from its base.
-/

namespace XmlRecords

/-- The types read so far, those of them that have names, those that belong to
elements with names, and those that are being read. -/
structure Reading where
  types : Array ComplexType := #[]
  named : List (QName × Nat) := []
  ofElements : List (QName × Nat) := []
  unfinished : List Nat := []

/-- Reading may fail, and it adds to the types read so far. -/
abbrev Reader := StateT Reading (Except Error)

namespace Reader

/-- Make room for a type that is going to be read. -/
def reserve (type : ComplexType) : Reader Nat := do
  let id := (← get).types.size
  modify fun r =>
    { r with types := r.types.push type, unfinished := id :: r.unfinished }
  return id

/-- Put a complete type into its place. -/
def complete (id : Nat) (type : ComplexType) : Reader Unit :=
  modify fun r =>
    { r with
      types := r.types.setIfInBounds id type
      unfinished := r.unfinished.erase id }

/-- The type with a number. -/
def typeAt (id : Nat) : Reader ComplexType :=
  return (← get).types[id]?.getD {}

end Reader

/-- Add an attribute, in the place of one with the same name if there is one. -/
def replaceAttribute (a : AttributeUse) : List AttributeUse → List AttributeUse
  | [] => [a]
  | old :: rest =>
      if old.name = a.name then a :: rest else old :: replaceAttribute a rest

/-- The simple type with a name in the schema language. -/
def builtinDatatype (name : String) : Datatype :=
  (Datatype.ofName? name).getD .other

/-- Read how often a particle may occur. -/
def readOccurs (setting : Setting) (node : Xml.ScopedElement) :
    Except Error Occurs := do
  let read := fun (value : String) => (Bounds.unsigned 32).read 10 value.toList
  let least ←
    match node.attribute? "minOccurs" with
    | none => pure 1
    | some value =>
        match read value with
        | .ok count => pure count.toNat
        | .error _ => setting.fail (.badMinOccurs value)
  let greatest ←
    match node.attribute? "maxOccurs" with
    | none => pure (some 1)
    | some "unbounded" => pure none
    | some value =>
        match read value with
        | .ok count => pure (some count.toNat)
        | .error _ => setting.fail (.badMaxOccurs value)
  return ⟨least, greatest⟩

/-- The first simple type that one of several parts settles; without any it is a
string. -/
def firstDatatype
    (step : Xml.ScopedElement → Except Error (Option Datatype)) :
    List Xml.ScopedElement → Except Error Datatype
  | [] => .ok .string
  | part :: rest => do
      match ← step part with
      | some datatype => return datatype
      | none => firstDatatype step rest

/-- Read a simple type: a restriction is what its base is, and lists and unions
are strings. -/
def readSimpleType (all : Declarations) :
    Nat → Declared → Except Error Datatype
  | 0, declared => declared.setting.fail .selfContained
  | fuel + 1, ⟨setting, node⟩ =>
      firstDatatype (fun part =>
        match part.name.name with
        | "restriction" =>
            match part.attribute? "base", part.component? "simpleType" with
            | some base, _ => do
                let name ← setting.resolve part base
                if name.ns = some schemaNamespace then
                  return some (builtinDatatype name.name)
                else
                  let declared ←
                    setting.lookup all.simpleTypes .simpleType name
                  return some (← readSimpleType all fuel declared)
            | none, some inner =>
                some <$> readSimpleType all fuel ⟨setting, inner⟩
            | none, none => .ok none
        | "list" | "union" => .ok (some .string)
        | _ => .ok none) node.components

/-- The compositor with a name. -/
def compositorNamed : String → Compositor
  | "choice" => .choice
  | "all" => .all
  | _ => .sequence

/-- Recognise the names of compositors. -/
def isCompositor (name : String) : Bool :=
  name == "sequence" || name == "choice" || name == "all"

/-- Recognise the parts that declare attributes. -/
def isAttributePart (name : String) : Bool :=
  name == "attribute" || name == "attributeGroup" || name == "anyAttribute"

namespace ComplexType

/-- Put a particle behind the content of a type. -/
def addContent (type : ComplexType) (particle : Particle) : ComplexType :=
  { type with
    content :=
      match type.content with
      | none => some particle
      | some base => some (.group .once .sequence [base, particle]) }

/-- Take over the attributes of a base. -/
def takeAttributes (type base : ComplexType) : ComplexType :=
  { type with
    attributes := type.attributes ++ base.attributes
    anyAttribute := type.anyAttribute || base.anyAttribute }

end ComplexType

mutual

/-- Read the type that a name stands for. -/
def readTypeRef (all : Declarations) (fuel : Nat) (setting : Setting)
    (name : QName) : Reader TypeRef :=
  match fuel with
  | 0 => setting.fail .selfContained
  | fuel + 1 => do
      if name.ns = some schemaNamespace then
        if name.name = "anyType" then return .simple .string
        else return .simple (builtinDatatype name.name)
      match all.complexTypes.lookup name with
      | some declared =>
          match (← get).named.lookup name with
          | some id => return .complex id
          | none =>
              let id ← Reader.reserve { name := some name }
              modify fun r => { r with named := (name, id) :: r.named }
              readComplexType all fuel id (some name) declared
              return .complex id
      | none =>
          match all.simpleTypes.lookup name with
          | some declared => return .simple (← readSimpleType all fuel declared)
          | none => setting.fail (.unknown .type name)

/-- Read a complex type into its place. -/
def readComplexType (all : Declarations) (fuel : Nat) (id : Nat)
    (name : Option QName) (declared : Declared) : Reader Unit :=
  match fuel with
  | 0 => declared.setting.fail .selfContained
  | fuel + 1 => do
      let type ← declared.node.components.foldlM (fun type part =>
        match part.name.name with
        | "complexContent" =>
            readComplexContent all fuel declared.setting part type
        | "simpleContent" =>
            readSimpleContent all fuel declared.setting part type
        | _ => readPart all fuel declared.setting part type)
        ({ name } : ComplexType)
      Reader.complete id type

/-- Read a part of a type: a particle or an attribute. -/
def readPart (all : Declarations) (fuel : Nat) (setting : Setting)
    (part : Xml.ScopedElement) (type : ComplexType) : Reader ComplexType :=
  match fuel with
  | 0 => setting.fail .selfContained
  | fuel + 1 =>
      match part.name.name with
      | "sequence" | "choice" | "all" | "group" => do
          return type.addContent (← readParticle all fuel setting part)
      | "attribute" => do
          match ← readAttributeUse all fuel setting part with
          | some a =>
              return { type with
                attributes := replaceAttribute a type.attributes }
          | none => return type
      | "attributeGroup" => readAttributeGroup all fuel setting part type
      | "anyAttribute" => return { type with anyAttribute := true }
      | _ => return type

/-- Read the base of a derivation.  The most general type is no base. -/
def readBase (all : Declarations) (fuel : Nat) (setting : Setting)
    (node : Xml.ScopedElement) : Reader (Option TypeRef) :=
  match fuel with
  | 0 => setting.fail .selfContained
  | fuel + 1 => do
      match node.attribute? "base" with
      | none => return none
      | some base =>
          let name ← setting.resolve node base
          if name = ⟨"anyType", some schemaNamespace⟩ then return none
          let type ← readTypeRef all fuel setting name
          match type with
          | .simple _ => return some type
          | .complex id =>
              if (← get).unfinished.contains id then
                setting.fail (.selfDerived name)
              else return some type

/-- Read a derivation with complex content.  An extension begins with the
content and the attributes of its base, a restriction with nothing. -/
def readComplexContent (all : Declarations) (fuel : Nat) (setting : Setting)
    (node : Xml.ScopedElement) (type : ComplexType) : Reader ComplexType :=
  match fuel with
  | 0 => setting.fail .selfContained
  | fuel + 1 =>
      node.components.foldlM (fun type derivation => do
        let base ← readBase all fuel setting derivation
        let kind := derivation.name.name
        if kind != "extension" && kind != "restriction" then return type
        let type ←
          match kind, base with
          | "extension", some (.complex id) => do
              let base ← Reader.typeAt id
              pure { type.takeAttributes base with
                content := base.content
                simpleContent := base.simpleContent }
          | _, _ => pure type
        derivation.components.foldlM (fun type part =>
          readPart all fuel setting part type) type) type

/-- Read a derivation with simple content. -/
def readSimpleContent (all : Declarations) (fuel : Nat) (setting : Setting)
    (node : Xml.ScopedElement) (type : ComplexType) : Reader ComplexType :=
  match fuel with
  | 0 => setting.fail .selfContained
  | fuel + 1 =>
      node.components.foldlM (fun type derivation => do
        let type ←
          match ← readBase all fuel setting derivation with
          | some (.simple datatype) =>
              pure { type with simpleContent := some datatype }
          | some (.complex id) => do
              let base ← Reader.typeAt id
              pure { type.takeAttributes base with
                simpleContent := base.simpleContent.or (some .string) }
          | none => pure { type with simpleContent := some .string }
        (derivation.components.filter fun part =>
          isAttributePart part.name.name).foldlM (fun type part =>
            readPart all fuel setting part type) type) type

/-- Read the declaration of an element, which may be a reference. -/
def readElementDecl (all : Declarations) (fuel : Nat) (declared : Declared)
    (isTop : Bool) : Reader ElementDecl :=
  let setting := declared.setting
  let node := declared.node
  match fuel with
  | 0 => setting.fail .selfContained
  | fuel + 1 =>
      match node.attribute? "ref", node.attribute? "name" with
      | some reference, _ => do
          let name ← setting.resolve node reference
          let target ← setting.lookup all.elements .element name
          readElementDecl all fuel target true
      | none, none => setting.fail .unnamedElement
      | none, some name => do
          let name : QName :=
            ⟨name, if isTop then setting.target
              else setting.localNamespace node setting.elementsQualified⟩
          match node.attribute? "type", node.component? "complexType",
            node.component? "simpleType" with
          | some type, _, _ => do
              let type ← setting.resolve node type
              return ⟨name, ← readTypeRef all fuel setting type⟩
          | none, some inner, _ => do
              let known := (← get).ofElements.lookup name
              match if isTop then known else none with
              | some id => return ⟨name, .complex id⟩
              | none =>
                  let id ← Reader.reserve {}
                  if isTop then
                    modify fun r =>
                      { r with ofElements := (name, id) :: r.ofElements }
                  readComplexType all fuel id none ⟨setting, inner⟩
                  return ⟨name, .complex id⟩
          | none, none, some inner => do
              return ⟨name, .simple
                (← readSimpleType all fuel ⟨setting, inner⟩)⟩
          | none, none, none => return ⟨name, .simple .string⟩

/-- Read a particle. -/
def readParticle (all : Declarations) (fuel : Nat) (setting : Setting)
    (node : Xml.ScopedElement) : Reader Particle :=
  match fuel with
  | 0 => setting.fail .selfContained
  | fuel + 1 => do
      let occurs ← readOccurs setting node
      match node.name.name with
      | "element" =>
          return .element occurs
            (← readElementDecl all fuel ⟨setting, node⟩ false)
      | "group" =>
          match node.attribute? "ref" with
          | none => setting.fail .groupWithoutReference
          | some reference =>
              let name ← setting.resolve node reference
              let group ← setting.lookup all.groups .group name
              match group.node.components.find? fun part =>
                  isCompositor part.name.name with
              | none => group.setting.fail (.emptyGroup name)
              | some body =>
                  return .group occurs (compositorNamed body.name.name)
                    (← readParticles all fuel ⟨group.setting, body⟩)
      | "any" => return .wildcard occurs
      | tag =>
          if isCompositor tag then
            return .group occurs (compositorNamed tag)
              (← readParticles all fuel ⟨setting, node⟩)
          else return .unsupported occurs tag

/-- Read the particles of a model group. -/
def readParticles (all : Declarations) (fuel : Nat) (group : Declared) :
    Reader (List Particle) :=
  match fuel with
  | 0 => group.setting.fail .selfContained
  | fuel + 1 =>
      group.node.components.mapM (readParticle all fuel group.setting)

/-- Read an attribute of a type, unless it is prohibited. -/
def readAttributeUse (all : Declarations) (fuel : Nat) (setting : Setting)
    (node : Xml.ScopedElement) : Reader (Option AttributeUse) :=
  match fuel with
  | 0 => setting.fail .selfContained
  | fuel + 1 => do
      let use := (node.attribute? "use").getD "optional"
      if use = "prohibited" then return none
      let (declared, name) ←
        match node.attribute? "ref", node.attribute? "name" with
        | some reference, _ => do
            let name ← setting.resolve node reference
            pure (← setting.lookup all.attributes .attribute name, name)
        | none, some name =>
            pure (⟨setting, node⟩, ⟨name,
              setting.localNamespace node setting.attributesQualified⟩)
        | none, none => setting.fail .unnamedAttribute
      let datatype ←
        match declared.node.attribute? "type",
          declared.node.component? "simpleType" with
        | some type, _ => do
            let type ← declared.setting.resolve declared.node type
            match ← readTypeRef all fuel declared.setting type with
            | .simple datatype => pure datatype
            | .complex _ =>
                declared.setting.fail (.complexAttribute name type)
        | none, some inner =>
            readSimpleType all fuel ⟨declared.setting, inner⟩
        | none, none => pure .string
      return some ⟨name, use == "required", datatype⟩

/-- Read the attributes of a group that is referred to. -/
def readAttributeGroup (all : Declarations) (fuel : Nat) (setting : Setting)
    (node : Xml.ScopedElement) (type : ComplexType) : Reader ComplexType :=
  match fuel with
  | 0 => setting.fail .selfContained
  | fuel + 1 =>
      match node.attribute? "ref" with
      | none => setting.fail .attributeGroupWithoutReference
      | some reference => do
          let name ← setting.resolve node reference
          let group ←
            setting.lookup all.attributeGroups .attributeGroup name
          (group.node.components.filter fun part =>
            isAttributePart part.name.name).foldlM (fun type part =>
              readPart all fuel group.setting part type) type

end

namespace Components

/-- The number of elements in schema documents. -/
def sizeOf (sources : List Source) : Nat :=
  sources.foldl (fun size source =>
    size + Xml.Tree.sizeOfList source.root.content + 1) 0

/-- Read the components of schema documents.  The way to a part of a type leads
through each type once, between two types it leads through each part once, and
each part takes a few steps. -/
def ofSources (sources : List Source) : Except Error Components := do
  let all ← Declarations.addSources {} sources
  let size := sizeOf sources + 2
  let fuel := 8 * size * size
  let readRoots : Reader (List ElementDecl) :=
    all.elements.mapM fun (_, declared) =>
      readElementDecl all fuel declared true
  let (roots, reading) ← readRoots.run {}
  return ⟨roots, reading.types⟩

/-- Read a schema of a single document, given as text. -/
def ofText (text : String) : Except Error Components := do
  ofSources [← Source.ofText "<memory>" text none]

/-- Read the schema whose entry document is at a path. -/
def load {m : Type → Type} [Monad m] (host : Host m) (path : String)
    (base : Option String) : m (Except Error Components) := do
  return (← Source.collect host path base).bind ofSources

end Components

end XmlRecords
