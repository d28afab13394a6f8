import XmlRecords.Proofs.GlobalDeclarations
import XmlRecords.Proofs.References

/-!
# What definitions mean

Complex types are numbered before they are read, so what a definition means depends on
the numbers that were given out.  A ledger holds these, and where the type with each
number is defined.  The relations here say, for a ledger, what a definition is
translated to, without saying in which order definitions are read or how often.
-/

namespace XmlRecords

open Relation (ReflTransGen)

/-- References lead to a declaration from an element at the top of a document. -/
def Declarations.Reaches (all : Declarations) (declared : Declared) : Prop :=
  ∃ entry ∈ all.elements, ReflTransGen (Declared.Refers all) entry.2 declared

theorem Declarations.Reaches.refers {all : Declarations} {place next : Declared}
    (reaches : all.Reaches place) (refers : place.Refers all next) :
    all.Reaches next := by
  obtain ⟨entry, member, way⟩ := reaches
  exact ⟨entry, member, way.tail refers⟩

/-- The name of an element that is declared. -/
def Declared.elementName (declared : Declared) (isTop : Bool) (name : String) : QName :=
  ⟨name, if isTop then declared.setting.target
    else declared.setting.localNamespace declared.node declared.setting.elementsQualified⟩

/-- Where a complex type is defined, and its name if it has one. -/
structure Definition where
  name : Option QName
  declared : Declared

/-- A definition in schema documents: one with a name, or one in an element. -/
inductive Definition.Given (all : Declarations) : Definition → Prop where
  | named {name : QName} {declared : Declared} (reached : all.Reaches declared)
      (found : all.complexTypes.lookup name = some declared) :
      Given all ⟨some name, declared⟩
  | inside {element : Declared} {node : Xml.ScopedElement}
      (reached : all.Reaches element)
      (inner : element.node.component? "complexType" = some node) :
      Given all ⟨none, ⟨element.setting, node⟩⟩

/-- What has been read so far, and the definitions of the types in it. -/
structure Ledger where
  reading : Reading
  definitions : List Definition

namespace Ledger

/-- What the name of a type stands for. -/
inductive Denotes (all : Declarations) (ledger : Ledger) (name : QName) :
    TypeRef → Prop where
  | anything (most : name = ⟨"anyType", some schemaNamespace⟩) :
      Denotes all ledger name (.simple .string)
  | builtin (here : name.ns = some schemaNamespace) (other : name.name ≠ "anyType") :
      Denotes all ledger name (.simple (builtinDatatype name.name))
  | complex {declared : Declared} {id : Nat} (outside : name.ns ≠ some schemaNamespace)
      (found : all.complexTypes.lookup name = some declared)
      (known : ledger.reading.named.lookup name = some id) :
      Denotes all ledger name (.complex id)
  | simple {declared : Declared} {datatype : Datatype} {fuel : Nat}
      (outside : name.ns ≠ some schemaNamespace)
      (noComplex : all.complexTypes.lookup name = none)
      (found : all.simpleTypes.lookup name = some declared)
      (read : readSimpleType all fuel declared = .ok datatype) :
      Denotes all ledger name (.simple datatype)

/-- The element that a declaration stands for.  The type inside a declaration at the
top is the same for all that refer to the declaration. -/
inductive DeclaresElement (all : Declarations) (ledger : Ledger) :
    Declared → Bool → ElementDecl → Prop where
  | reference {declared target : Declared} {isTop : Bool} {name : QName}
      {element : ElementDecl} (referred : declared.named? "ref" = some name)
      (found : all.elements.lookup name = some target)
      (declares : DeclaresElement all ledger target true element) :
      DeclaresElement all ledger declared isTop element
  | typed {declared : Declared} {isTop : Bool} {name : String} {type : QName}
      {ref : TypeRef} (own : declared.node.attribute? "ref" = none)
      (named : declared.node.attribute? "name" = some name)
      (typed : declared.named? "type" = some type)
      (denotes : ledger.Denotes all type ref) :
      DeclaresElement all ledger declared isTop ⟨declared.elementName isTop name, ref⟩
  | complex {declared : Declared} {isTop : Bool} {name : String}
      {inner : Xml.ScopedElement} {id : Nat}
      (own : declared.node.attribute? "ref" = none)
      (named : declared.node.attribute? "name" = some name)
      (untyped : declared.node.attribute? "type" = none)
      (inside : declared.node.component? "complexType" = some inner)
      (defined : ledger.definitions[id]? = some ⟨none, ⟨declared.setting, inner⟩⟩)
      (shared : isTop = true →
        ledger.reading.ofElements.lookup (declared.elementName true name) = some id) :
      DeclaresElement all ledger declared isTop
        ⟨declared.elementName isTop name, .complex id⟩
  | simple {declared : Declared} {isTop : Bool} {name : String}
      {inner : Xml.ScopedElement} {datatype : Datatype} {fuel : Nat}
      (own : declared.node.attribute? "ref" = none)
      (named : declared.node.attribute? "name" = some name)
      (untyped : declared.node.attribute? "type" = none)
      (noComplex : declared.node.component? "complexType" = none)
      (inside : declared.node.component? "simpleType" = some inner)
      (read : readSimpleType all fuel ⟨declared.setting, inner⟩ = .ok datatype) :
      DeclaresElement all ledger declared isTop
        ⟨declared.elementName isTop name, .simple datatype⟩
  | text {declared : Declared} {isTop : Bool} {name : String}
      (own : declared.node.attribute? "ref" = none)
      (named : declared.node.attribute? "name" = some name)
      (untyped : declared.node.attribute? "type" = none)
      (noComplex : declared.node.component? "complexType" = none)
      (noSimple : declared.node.component? "simpleType" = none) :
      DeclaresElement all ledger declared isTop
        ⟨declared.elementName isTop name, .simple .string⟩

/-- The declaration of an attribute, and the name under which it is used. -/
inductive DeclaresAttribute (all : Declarations) (declared : Declared) :
    Declared → QName → Prop where
  | reference {target : Declared} {name : QName}
      (referred : declared.named? "ref" = some name)
      (found : all.attributes.lookup name = some target) :
      DeclaresAttribute all declared target name
  | own {name : String} (own : declared.node.attribute? "ref" = none)
      (named : declared.node.attribute? "name" = some name) :
      DeclaresAttribute all declared declared
        ⟨name, declared.setting.localNamespace declared.node
          declared.setting.attributesQualified⟩

/-- The simple type of an attribute. -/
inductive TypesAttribute (all : Declarations) (ledger : Ledger) (declared : Declared) :
    Datatype → Prop where
  | typed {type : QName} {datatype : Datatype}
      (typed : declared.named? "type" = some type)
      (denotes : ledger.Denotes all type (.simple datatype)) :
      TypesAttribute all ledger declared datatype
  | simple {inner : Xml.ScopedElement} {datatype : Datatype} {fuel : Nat}
      (untyped : declared.node.attribute? "type" = none)
      (inside : declared.node.component? "simpleType" = some inner)
      (read : readSimpleType all fuel ⟨declared.setting, inner⟩ = .ok datatype) :
      TypesAttribute all ledger declared datatype
  | text (untyped : declared.node.attribute? "type" = none)
      (noSimple : declared.node.component? "simpleType" = none) :
      TypesAttribute all ledger declared .string

/-- How an attribute is used. -/
def attributeUse (node : Xml.ScopedElement) : String :=
  (node.attribute? "use").getD "optional"

/-- The attribute that a part of a type stands for, unless it is prohibited. -/
inductive UsesAttribute (all : Declarations) (ledger : Ledger) (declared : Declared) :
    Option AttributeUse → Prop where
  | prohibited (use : attributeUse declared.node = "prohibited") :
      UsesAttribute all ledger declared none
  | used {target : Declared} {name : QName} {datatype : Datatype}
      (use : attributeUse declared.node ≠ "prohibited")
      (declares : DeclaresAttribute all declared target name)
      (types : ledger.TypesAttribute all target datatype) :
      UsesAttribute all ledger declared
        (some ⟨name, attributeUse declared.node == "required", datatype⟩)

mutual

/-- The particle that a part of a content model stands for. -/
inductive IsParticle (all : Declarations) (ledger : Ledger) :
    Declared → Particle → Prop where
  | element {declared : Declared} {occurs : Occurs} {element : ElementDecl}
      (tag : declared.node.name.name = "element")
      (often : readOccurs declared.setting declared.node = .ok occurs)
      (declares : ledger.DeclaresElement all declared false element) :
      IsParticle all ledger declared (.element occurs element)
  | group {declared group : Declared} {body : Xml.ScopedElement} {occurs : Occurs}
      {name : QName} {particles : List Particle}
      (tag : declared.node.name.name = "group")
      (often : readOccurs declared.setting declared.node = .ok occurs)
      (referred : declared.named? "ref" = some name)
      (found : all.groups.lookup name = some group)
      (inside : group.node.components.find? (isCompositor ·.name.name) = some body)
      (parts : AreParticles all ledger group.setting body.components particles) :
      IsParticle all ledger declared
        (.group occurs (compositorNamed body.name.name) particles)
  | wildcard {declared : Declared} {occurs : Occurs}
      (tag : declared.node.name.name = "any")
      (often : readOccurs declared.setting declared.node = .ok occurs) :
      IsParticle all ledger declared (.wildcard occurs)
  | compositor {declared : Declared} {occurs : Occurs} {particles : List Particle}
      (tag : isCompositor declared.node.name.name = true)
      (often : readOccurs declared.setting declared.node = .ok occurs)
      (parts : AreParticles all ledger declared.setting declared.node.components
        particles) :
      IsParticle all ledger declared
        (.group occurs (compositorNamed declared.node.name.name) particles)
  | unsupported {declared : Declared} {occurs : Occurs}
      (other : declared.node.name.name ∉ ["element", "group", "any"])
      (noCompositor : isCompositor declared.node.name.name = false)
      (often : readOccurs declared.setting declared.node = .ok occurs) :
      IsParticle all ledger declared (.unsupported occurs declared.node.name.name)

/-- The particles that parts of a model group stand for. -/
inductive AreParticles (all : Declarations) (ledger : Ledger) :
    Setting → List Xml.ScopedElement → List Particle → Prop where
  | nil {setting : Setting} : AreParticles all ledger setting [] []
  | cons {setting : Setting} {part : Xml.ScopedElement}
      {rest : List Xml.ScopedElement} {particle : Particle} {others : List Particle}
      (first : IsParticle all ledger ⟨setting, part⟩ particle)
      (further : AreParticles all ledger setting rest others) :
      AreParticles all ledger setting (part :: rest) (particle :: others)

end

mutual

/-- What a part of a type adds to it: a particle or attributes. -/
inductive AddsPart (all : Declarations) (ledger : Ledger) :
    Declared → ComplexType → ComplexType → Prop where
  | particle {declared : Declared} {type : ComplexType} {particle : Particle}
      (tag : declared.node.name.name ∈ ["sequence", "choice", "all", "group"])
      (means : ledger.IsParticle all declared particle) :
      AddsPart all ledger declared type (type.addContent particle)
  | attribute {declared : Declared} {type : ComplexType} {a : AttributeUse}
      (tag : declared.node.name.name = "attribute")
      (means : ledger.UsesAttribute all declared (some a)) :
      AddsPart all ledger declared type
        { type with attributes := replaceAttribute a type.attributes }
  | prohibited {declared : Declared} {type : ComplexType}
      (tag : declared.node.name.name = "attribute")
      (means : ledger.UsesAttribute all declared none) :
      AddsPart all ledger declared type type
  | attributeGroup {declared group : Declared} {type later : ComplexType}
      {name : QName} (tag : declared.node.name.name = "attributeGroup")
      (referred : declared.named? "ref" = some name)
      (found : all.attributeGroups.lookup name = some group)
      (parts : AddsParts all ledger group.setting
        (group.node.components.filter fun part => isAttributePart part.name.name)
        type later) :
      AddsPart all ledger declared type later
  | anyAttribute {declared : Declared} {type : ComplexType}
      (tag : declared.node.name.name = "anyAttribute") :
      AddsPart all ledger declared type { type with anyAttribute := true }
  | other {declared : Declared} {type : ComplexType}
      (tag : declared.node.name.name ∉ ["sequence", "choice", "all", "group",
        "attribute", "attributeGroup", "anyAttribute"]) :
      AddsPart all ledger declared type type

/-- What parts of a type add to it, one after the other. -/
inductive AddsParts (all : Declarations) (ledger : Ledger) :
    Setting → List Xml.ScopedElement → ComplexType → ComplexType → Prop where
  | nil {setting : Setting} {type : ComplexType} :
      AddsParts all ledger setting [] type type
  | cons {setting : Setting} {part : Xml.ScopedElement}
      {rest : List Xml.ScopedElement} {type between later : ComplexType}
      (first : AddsPart all ledger ⟨setting, part⟩ type between)
      (further : AddsParts all ledger setting rest between later) :
      AddsParts all ledger setting (part :: rest) type later

end

/-- The base of a derivation, which is complete. -/
inductive HasBase (all : Declarations) (ledger : Ledger) (declared : Declared) :
    Option TypeRef → Prop where
  | none (noBase : declared.node.attribute? "base" = none) :
      HasBase all ledger declared none
  | anything (named : declared.named? "base" = some ⟨"anyType", some schemaNamespace⟩) :
      HasBase all ledger declared none
  | some {name : QName} {base : TypeRef} (named : declared.named? "base" = some name)
      (other : name ≠ ⟨"anyType", some schemaNamespace⟩)
      (denotes : ledger.Denotes all name base)
      (complete : ∀ id, base = .complex id → id ∉ ledger.reading.unfinished) :
      HasBase all ledger declared (some base)

/-- What a derivation with complex content makes of a type: an extension begins with
the content and the attributes of its base. -/
inductive AddsDerivation (all : Declarations) (ledger : Ledger) (declared : Declared) :
    ComplexType → ComplexType → Prop where
  | ignored {type : ComplexType} {base : Option TypeRef}
      (kind : declared.node.name.name ∉ ["extension", "restriction"])
      (hasBase : ledger.HasBase all declared base) :
      AddsDerivation all ledger declared type type
  | extension {type base later : ComplexType} {id : Nat}
      (kind : declared.node.name.name = "extension")
      (hasBase : ledger.HasBase all declared (some (.complex id)))
      (taken : ledger.reading.types[id]? = some base)
      (parts : ledger.AddsParts all declared.setting declared.node.components
        { type.takeAttributes base with
          content := base.content
          simpleContent := base.simpleContent } later) :
      AddsDerivation all ledger declared type later
  | plain {type later : ComplexType} {base : Option TypeRef}
      (kind : declared.node.name.name = "restriction" ∨
        declared.node.name.name = "extension" ∧ ∀ id, base ≠ some (.complex id))
      (hasBase : ledger.HasBase all declared base)
      (parts : ledger.AddsParts all declared.setting declared.node.components type
        later) :
      AddsDerivation all ledger declared type later

/-- What a derivation with simple content makes of a type. -/
inductive AddsSimpleDerivation (all : Declarations) (ledger : Ledger)
    (declared : Declared) : ComplexType → ComplexType → Prop where
  | simple {type later : ComplexType} {datatype : Datatype}
      (hasBase : ledger.HasBase all declared (some (.simple datatype)))
      (parts : ledger.AddsParts all declared.setting
        (declared.node.components.filter fun part => isAttributePart part.name.name)
        { type with simpleContent := some datatype } later) :
      AddsSimpleDerivation all ledger declared type later
  | complex {type base later : ComplexType} {id : Nat}
      (hasBase : ledger.HasBase all declared (some (.complex id)))
      (taken : ledger.reading.types[id]? = some base)
      (parts : ledger.AddsParts all declared.setting
        (declared.node.components.filter fun part => isAttributePart part.name.name)
        { type.takeAttributes base with
          simpleContent := base.simpleContent.or (some .string) } later) :
      AddsSimpleDerivation all ledger declared type later
  | none {type later : ComplexType} (hasBase : ledger.HasBase all declared none)
      (parts : ledger.AddsParts all declared.setting
        (declared.node.components.filter fun part => isAttributePart part.name.name)
        { type with simpleContent := some .string } later) :
      AddsSimpleDerivation all ledger declared type later

/-- Parts change a type one after the other. -/
inductive Steps (step : Xml.ScopedElement → ComplexType → ComplexType → Prop) :
    List Xml.ScopedElement → ComplexType → ComplexType → Prop where
  | nil {type : ComplexType} : Steps step [] type type
  | cons {part : Xml.ScopedElement} {rest : List Xml.ScopedElement}
      {type between later : ComplexType} (first : step part type between)
      (further : Steps step rest between later) :
      Steps step (part :: rest) type later

/-- What a part of a definition makes of a type. -/
inductive AddsContent (all : Declarations) (ledger : Ledger) (setting : Setting)
    (part : Xml.ScopedElement) : ComplexType → ComplexType → Prop where
  | complex {type later : ComplexType} (tag : part.name.name = "complexContent")
      (each : Steps (fun derivation => ledger.AddsDerivation all ⟨setting, derivation⟩)
        part.components type later) :
      AddsContent all ledger setting part type later
  | simple {type later : ComplexType} (tag : part.name.name = "simpleContent")
      (each : Steps
        (fun derivation => ledger.AddsSimpleDerivation all ⟨setting, derivation⟩)
        part.components type later) :
      AddsContent all ledger setting part type later
  | part {type later : ComplexType} (tag : ¬ part.HoldsDerivations)
      (adds : ledger.AddsPart all ⟨setting, part⟩ type later) :
      AddsContent all ledger setting part type later

/-- The type that a definition is translated to. -/
def Defines (all : Declarations) (ledger : Ledger) (definition : Definition)
    (type : ComplexType) : Prop :=
  Steps (ledger.AddsContent all definition.declared.setting)
    definition.declared.node.components { name := definition.name } type

end Ledger

/-- Numbers in a reference are below a number. -/
def TypeRef.Within (count : Nat) : TypeRef → Prop
  | .simple _ => True
  | .complex id => id < count

/-- An element is declared somewhere in a particle. -/
inductive Particle.Declares : Particle → ElementDecl → Prop where
  | element {occurs : Occurs} {element : ElementDecl} :
      Declares (.element occurs element) element
  | group {occurs : Occurs} {compositor : Compositor} {particles : List Particle}
      {particle : Particle} {element : ElementDecl} (member : particle ∈ particles)
      (inside : Declares particle element) :
      Declares (.group occurs compositor particles) element

/-- Types of elements in a particle have numbers below a number. -/
def Particle.Within (count : Nat) (particle : Particle) : Prop :=
  ∀ element, particle.Declares element → element.type.Within count

/-- Types of elements in the content of a type have numbers below a number. -/
def ComplexType.Within (count : Nat) (type : ComplexType) : Prop :=
  ∀ particle, type.content = some particle → particle.Within count

section Within

variable {count more : Nat} {type base : ComplexType} {particle : Particle}

theorem TypeRef.Within.mono {ref : TypeRef} (within : ref.Within count)
    (le : count ≤ more) : ref.Within more := by
  cases ref with
  | simple datatype => trivial
  | complex id => exact Nat.lt_of_lt_of_le within le

theorem ComplexType.Within.mono (within : type.Within count) (le : count ≤ more) :
    type.Within more :=
  fun particle content element declares =>
    (within particle content element declares).mono le

theorem Particle.within_group {occurs : Occurs} {compositor : Compositor}
    {particles : List Particle} (each : ∀ particle ∈ particles, particle.Within count) :
    (Particle.group occurs compositor particles).Within count := by
  rintro element (_ | ⟨member, inside⟩)
  exact each _ member element inside

theorem ComplexType.Within.addContent (within : type.Within count)
    (more : particle.Within count) : (type.addContent particle).Within count := by
  rintro whole content
  rw [ComplexType.addContent] at content
  cases none : type.content with
  | none =>
      rw [none] at content
      cases content
      exact more
  | some base =>
      rw [none] at content
      cases content
      refine Particle.within_group fun particle member => ?_
      obtain rfl | rfl : particle = base ∨ particle = _ := by simpa using member
      · exact within _ none
      · exact more

end Within

namespace Ledger

/-- No number that was given out is above the last one. -/
structure Numbered (ledger : Ledger) (count : Nat) : Prop where
  named : ∀ name id, ledger.reading.named.lookup name = some id → id < count
  defined : ledger.definitions.length ≤ count

/-- Types that are complete refer to such numbers only. -/
def Closed (ledger : Ledger) (count : Nat) : Prop :=
  ∀ id type, id ∉ ledger.reading.unfinished →
    ledger.reading.types[id]? = some type → type.Within count

section Closed

variable {all : Declarations} {ledger : Ledger} {declared : Declared}
  {setting : Setting} {count : Nat}

theorem within_of_denotes (numbered : ledger.Numbered count) {name : QName}
    {ref : TypeRef} (denotes : ledger.Denotes all name ref) : ref.Within count := by
  cases denotes with
  | anything | builtin | simple => trivial
  | complex _ _ known => exact numbered.named name _ known

theorem within_of_declaresElement (numbered : ledger.Numbered count) {isTop : Bool}
    {element : ElementDecl} (declares : ledger.DeclaresElement all declared isTop element) :
    element.type.Within count := by
  induction declares with
  | reference _ _ _ ih => exact ih
  | typed _ _ _ denotes => exact within_of_denotes numbered denotes
  | complex _ _ _ _ defined _ =>
      exact Nat.lt_of_lt_of_le (List.getElem?_eq_some_iff.1 defined).1 numbered.defined
  | simple | text => trivial

mutual

theorem within_of_isParticle (numbered : ledger.Numbered count) {declared : Declared}
    {particle : Particle} :
    ledger.IsParticle all declared particle → particle.Within count
  | .element _ _ declares => by
      rintro _ ⟨⟩
      exact within_of_declaresElement numbered declares
  | .group _ _ _ _ _ parts =>
      Particle.within_group (within_of_areParticles numbered parts)
  | .wildcard _ _ => by rintro _ ⟨⟩
  | .compositor _ _ parts =>
      Particle.within_group (within_of_areParticles numbered parts)
  | .unsupported _ _ _ => by rintro _ ⟨⟩

theorem within_of_areParticles (numbered : ledger.Numbered count) {setting : Setting}
    {parts : List Xml.ScopedElement} {particles : List Particle} :
    ledger.AreParticles all setting parts particles →
      ∀ particle ∈ particles, particle.Within count
  | .nil => by simp
  | .cons first further =>
      List.forall_mem_cons.2 ⟨within_of_isParticle numbered first,
        within_of_areParticles numbered further⟩

end

/-- What is added to a type leaves its name, and keeps it within bounds. -/
def Refines (count : Nat) (type later : ComplexType) : Prop :=
  later.name = type.name ∧ (type.Within count → later.Within count)

theorem Refines.refl (type : ComplexType) : Refines count type type :=
  ⟨rfl, id⟩

theorem Refines.trans {type between later : ComplexType}
    (first : Refines count type between) (second : Refines count between later) :
    Refines count type later :=
  ⟨second.1.trans first.1, second.2 ∘ first.2⟩

mutual

theorem refines_of_addsPart (numbered : ledger.Numbered count) {declared : Declared}
    {type later : ComplexType} :
    ledger.AddsPart all declared type later → Refines count type later
  | .particle _ means =>
      ⟨rfl, fun within => within.addContent (within_of_isParticle numbered means)⟩
  | .attribute _ _ => ⟨rfl, id⟩
  | .prohibited _ _ => .refl type
  | .attributeGroup _ _ _ parts => refines_of_addsParts numbered parts
  | .anyAttribute _ => ⟨rfl, id⟩
  | .other _ => .refl type

theorem refines_of_addsParts (numbered : ledger.Numbered count) {setting : Setting}
    {parts : List Xml.ScopedElement} {type later : ComplexType} :
    ledger.AddsParts all setting parts type later → Refines count type later
  | .nil => .refl type
  | .cons first further =>
      (refines_of_addsPart numbered first).trans (refines_of_addsParts numbered further)

end

theorem refines_of_steps {step : Xml.ScopedElement → ComplexType → ComplexType → Prop}
    (each : ∀ part type later, step part type later → Refines count type later)
    {parts : List Xml.ScopedElement} {type later : ComplexType}
    (steps : Steps step parts type later) : Refines count type later := by
  induction steps with
  | nil => exact .refl _
  | cons first _ ih => exact (each _ _ _ first).trans ih

theorem not_unfinished_of_hasBase {base : Nat}
    (hasBase : ledger.HasBase all declared (some (.complex base))) :
    base ∉ ledger.reading.unfinished := by
  cases hasBase with
  | some _ _ _ complete => exact complete base rfl

theorem refines_of_addsDerivation (numbered : ledger.Numbered count)
    (closed : ledger.Closed count) {type later : ComplexType}
    (adds : ledger.AddsDerivation all declared type later) : Refines count type later := by
  cases adds with
  | ignored => exact .refl type
  | extension _ hasBase taken parts =>
      have within := closed _ _ (not_unfinished_of_hasBase hasBase) taken
      obtain ⟨named, further⟩ := refines_of_addsParts numbered parts
      exact ⟨named, fun _ => further within⟩
  | plain _ _ parts => exact refines_of_addsParts numbered parts

theorem refines_of_addsSimpleDerivation (numbered : ledger.Numbered count)
    {type later : ComplexType}
    (adds : ledger.AddsSimpleDerivation all declared type later) :
    Refines count type later := by
  cases adds with
  | simple _ parts | complex _ _ parts | none _ parts =>
      obtain ⟨named, further⟩ := refines_of_addsParts numbered parts
      exact ⟨named, further⟩

theorem refines_of_addsContent (numbered : ledger.Numbered count)
    (closed : ledger.Closed count) {part : Xml.ScopedElement} {type later : ComplexType}
    (adds : ledger.AddsContent all setting part type later) :
    Refines count type later := by
  cases adds with
  | complex _ each =>
      exact refines_of_steps
        (fun _ _ _ adds => refines_of_addsDerivation numbered closed adds) each
  | simple _ each =>
      exact refines_of_steps
        (fun _ _ _ adds => refines_of_addsSimpleDerivation numbered adds) each
  | part _ adds => exact refines_of_addsPart numbered adds

/-- A type that is defined has the name of its definition, and refers to numbers that
were given out. -/
theorem refines_of_defines (numbered : ledger.Numbered count)
    (closed : ledger.Closed count) {definition : Definition} {type : ComplexType}
    (defines : ledger.Defines all definition type) :
    type.name = definition.name ∧ type.Within count := by
  obtain ⟨named, within⟩ := refines_of_steps
    (fun _ _ _ adds => refines_of_addsContent numbered closed adds) defines
  exact ⟨named, within (by rintro _ ⟨⟩)⟩

end Closed

section Shared

variable {all : Declarations} {ledger : Ledger} {declared : Declared} {id other : Nat}

/-- All references to a type with a name use one number. -/
theorem eq_of_denotes {name : QName} (one : ledger.Denotes all name (.complex id))
    (two : ledger.Denotes all name (.complex other)) : id = other := by
  cases one with
  | complex _ _ known =>
      cases two with
      | complex _ _ known' => exact Option.some.inj (known.symm.trans known')

theorem attribute?_of_named? {key : String} {name : QName}
    (named : declared.named? key = some name) : declared.node.attribute? key ≠ none := by
  intro none
  rw [Declared.named?, none] at named
  cases named

/-- All references to an element at the top use one number for the type in it. -/
theorem eq_of_declaresElement {isTop : Bool} {element : ElementDecl}
    (one : ledger.DeclaresElement all declared isTop element) (top : isTop = true)
    (is : element.type = .complex id) {element' : ElementDecl}
    (two : ledger.DeclaresElement all declared true element')
    (is' : element'.type = .complex other) : id = other := by
  induction one with
  | reference referred found _ ih =>
      cases two with
      | reference referred' found' two =>
          cases referred.symm.trans referred'
          cases found.symm.trans found'
          exact ih rfl is two
      | typed own | complex own | simple own | text own =>
          exact absurd own (attribute?_of_named? referred)
  | typed own named typed denotes =>
      cases two with
      | reference referred _ _ => exact absurd own (attribute?_of_named? referred)
      | typed _ _ typed' denotes' =>
          cases typed.symm.trans typed'
          cases is
          cases is'
          exact eq_of_denotes denotes denotes'
      | complex _ _ untyped | simple _ _ untyped | text _ _ untyped =>
          exact absurd untyped (attribute?_of_named? typed)
  | complex own named untyped inside defined shared =>
      cases two with
      | reference referred _ _ => exact absurd own (attribute?_of_named? referred)
      | typed _ _ typed _ => exact absurd untyped (attribute?_of_named? typed)
      | complex _ named' _ _ _ shared' =>
          cases named.symm.trans named'
          cases is
          cases is'
          exact Option.some.inj ((shared top).symm.trans (shared' rfl))
      | simple => cases is'
      | text => cases is'
  | simple => cases is
  | text => cases is

end Shared

end Ledger

end XmlRecords
