import XmlRecords.Components.Basic
import XmlRecords.Components.Source

/-!
# Declarations

The declarations at the top of schema documents, by kind and by name.  Of two
with the same name the first one counts.  Each keeps the setting that its
document gives to it, which decides on the names of what is declared in it and
on what the names mean that it refers to.
-/

namespace XmlRecords

/-- What the document around a declaration decides. -/
structure Setting where
  path : String
  target : Option String
  /-- The document took its namespace from the one that includes it. -/
  adopted : Bool
  elementsQualified : Bool
  attributesQualified : Bool

/-- A declaration and the setting it stands in. -/
structure Declared where
  setting : Setting
  node : Xml.ScopedElement

/-- The declarations of each kind, by name and in order. -/
structure Declarations where
  elements : List (QName × Declared) := []
  complexTypes : List (QName × Declared) := []
  simpleTypes : List (QName × Declared) := []
  groups : List (QName × Declared) := []
  attributeGroups : List (QName × Declared) := []
  attributes : List (QName × Declared) := []

/-- Add a declaration unless there is one with the same name. -/
def declare (table : List (QName × Declared)) (name : QName)
    (declared : Declared) : List (QName × Declared) :=
  if (table.lookup name).isSome then table else table ++ [(name, declared)]

namespace Setting

/-- The setting of a document. -/
def ofSource (source : Source) : Setting :=
  let isQualified := fun name =>
    source.root.attribute? name == some "qualified"
  { path := source.path
    target := source.targetNamespace
    adopted :=
      (source.root.attribute? "targetNamespace").isNone &&
        source.inherited.isSome
    elementsQualified := isQualified "elementFormDefault"
    attributesQualified := isQualified "attributeFormDefault" }

/-- Report a fault in the document of a setting. -/
def fail {α : Type} (setting : Setting) (fault : LoadFault) : Except Error α :=
  .error (.load setting.path fault)

/-- The name that a reference stands for.  A reference without a label is in the
default namespace; where there is none, a document that adopted its namespace
refers to that. -/
def resolve (setting : Setting) (node : Xml.ScopedElement) (value : String) :
    Except Error QName :=
  match Text.splitOnce ':' value.toList with
  | some (label, base) =>
      let label := String.ofList label
      match if label = "" then none else node.scope.lookup label with
      | some ns => .ok ⟨String.ofList base, some ns⟩
      | none => setting.fail (.undeclaredLabel label value)
  | none =>
      .ok ⟨value, (node.scope.lookup "").or
        (if setting.adopted then setting.target else none)⟩

/-- The namespace of a local declaration. -/
def localNamespace (setting : Setting) (node : Xml.ScopedElement)
    (qualified : Bool) : Option String :=
  let qualified :=
    match node.attribute? "form" with
    | some form => form == "qualified"
    | none => qualified
  if qualified then setting.target else none

/-- The declaration that a name stands for. -/
def lookup (setting : Setting) (table : List (QName × Declared))
    (kind : ComponentKind) (name : QName) : Except Error Declared :=
  match table.lookup name with
  | some declared => .ok declared
  | none => setting.fail (.unknown kind name)

end Setting

namespace Declarations

/-- Add a named declaration at the top of a document. -/
def add (setting : Setting) (all : Declarations) (node : Xml.ScopedElement) :
    Declarations :=
  match node.attribute? "name" with
  | none => all
  | some name =>
      let name : QName := ⟨name, setting.target⟩
      let declared : Declared := ⟨setting, node⟩
      match node.name.name with
      | "element" =>
          { all with elements := declare all.elements name declared }
      | "complexType" =>
          { all with complexTypes := declare all.complexTypes name declared }
      | "simpleType" =>
          { all with simpleTypes := declare all.simpleTypes name declared }
      | "group" => { all with groups := declare all.groups name declared }
      | "attributeGroup" =>
          { all with
            attributeGroups := declare all.attributeGroups name declared }
      | "attribute" =>
          { all with attributes := declare all.attributes name declared }
      | _ => all

/-- Add the declarations of documents. -/
def addSources : Declarations → List Source → Except Error Declarations
  | all, [] => .ok all
  | all, source :: rest =>
      if source.root.name = ⟨"schema", some schemaNamespace⟩ then
        addSources
          (source.root.components.foldl (add (Setting.ofSource source)) all) rest
      else
        .error (.load source.path (.wrongRoot source.root.name.name))

end Declarations

end XmlRecords
