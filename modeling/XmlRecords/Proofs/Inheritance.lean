import XmlRecords.Proofs.AddedParts
import XmlRecords.Proofs.CompleteComponents
import XmlRecords.Proofs.SelfDerivation

/-!
# Attributes of derived types

A type is derived from another one in four ways: by extension or by restriction, in
complex content or in simple content.  In three of them the attributes of the base are
taken over, and those that the derived type declares are put in their places or behind
them.  A restriction in complex content takes over nothing, and nowhere does it make a
difference that an attribute is prohibited.
-/

namespace XmlRecords

/-- A derivation in a definition, the content that it is in, and what comes behind. -/
structure Derivation where
  content : Xml.ScopedElement
  node : Xml.ScopedElement
  rest : List Xml.ScopedElement

namespace Derivation

/-- Recognise derivations in complex content. -/
def isComplex (derivation : Derivation) : Bool :=
  derivation.content.name.name == "complexContent"

/-- Recognise restrictions in complex content, to which nothing is handed on. -/
def isBare (derivation : Derivation) : Bool :=
  derivation.isComplex && derivation.node.name.name == "restriction"

/-- The parts of its own that a derived type has.  In simple content those are left out
that restrict the text. -/
def parts (derivation : Derivation) : List Xml.ScopedElement :=
  (if derivation.isComplex then derivation.node.components
    else derivation.node.components.filter fun part => isAttributePart part.name.name) ++
      derivation.rest

/-- The attributes that are handed on from a base. -/
def inherited (derivation : Derivation) (attributes : List AttributeUse) :
    List AttributeUse :=
  if derivation.isBare then [] else attributes

end Derivation

/-- The definition is that of a derived type. -/
structure Definition.DerivesBy (definition : Definition) (derivation : Derivation) :
    Prop where
  parts : definition.declared.node.components = derivation.content :: derivation.rest
  holds : derivation.content.HoldsDerivations
  single : derivation.content.components = [derivation.node]
  kind : derivation.node.name.name = "extension" ∨
    derivation.node.name.name = "restriction"
  alone : ∀ part ∈ derivation.rest, ¬ part.HoldsDerivations

/-- The definition has no derivation, or it is that of a derived type. -/
def Definition.Conforms (definition : Definition) : Prop :=
  (∀ part ∈ definition.declared.node.components, ¬ part.HoldsDerivations) ∨
    ∃ derivation, definition.DerivesBy derivation

namespace Ledger

variable {all : Declarations} {ledger : Ledger} {setting : Setting}
  {parts : List Xml.ScopedElement} {type later : ComplexType}
  {definition : Definition} {derivation : Derivation} {id : Nat}

/-- The type with a number. -/
def typeAt (ledger : Ledger) (id : Nat) : ComplexType :=
  ledger.reading.types[id]?.getD {}

/-- What a derived type begins with: in complex content with all that the base of an
extension has, and in simple content with the text and the attributes of the base. -/
inductive Begins (ledger : Ledger) (derivation : Derivation) (name : Option QName) :
    Option TypeRef → ComplexType → Prop where
  | bare {base : Option TypeRef} (complex : derivation.isComplex = true)
      (no : derivation.isBare = true ∨ ∀ id, base ≠ some (.complex id)) :
      Begins ledger derivation name base { name }
  | extension {id : Nat} (complex : derivation.isComplex = true)
      (handed : derivation.isBare = false) :
      Begins ledger derivation name (some (.complex id)) { ledger.typeAt id with name }
  | value {datatype : Datatype} (simple : derivation.isComplex = false) :
      Begins ledger derivation name (some (.simple datatype))
        { name, simpleContent := some datatype }
  | simple {id : Nat} (simple : derivation.isComplex = false) :
      Begins ledger derivation name (some (.complex id))
        { name
          attributes := (ledger.typeAt id).attributes
          anyAttribute := (ledger.typeAt id).anyAttribute
          simpleContent := (ledger.typeAt id).simpleContent.or (some .string) }
  | text (simple : derivation.isComplex = false) :
      Begins ledger derivation name none { name, simpleContent := some .string }

theorem AddsParts.append {others : List Xml.ScopedElement} {type between later : ComplexType}
    (first : ledger.AddsParts all setting parts type between)
    (second : ledger.AddsParts all setting others between later) :
    ledger.AddsParts all setting (parts ++ others) type later := by
  induction parts generalizing type with
  | nil =>
      cases first
      exact second
  | cons part rest ih =>
      cases first with
      | cons first further => exact .cons first (ih further)

/-- Where no part holds derivations, parts are added one after the other. -/
theorem addsParts_of_steps (none : ∀ part ∈ parts, ¬ part.HoldsDerivations)
    (steps : Steps (ledger.AddsContent all setting) parts type later) :
    ledger.AddsParts all setting parts type later := by
  induction steps with
  | nil => exact .nil
  | cons first _ ih =>
      obtain ⟨here, there⟩ := List.forall_mem_cons.1 none
      cases first with
      | complex tag _ => exact absurd (.inl tag) here
      | simple tag _ => exact absurd (.inr tag) here
      | part _ adds => exact .cons adds (ih there)

theorem typeAt_eq (taken : ledger.reading.types[id]? = some type) :
    ledger.typeAt id = type := by
  rw [typeAt, taken, Option.getD_some]

theorem exists_begins_of_addsDerivation {name : Option QName}
    (complex : derivation.isComplex = true)
    (kind : derivation.node.name.name ∈ ["extension", "restriction"])
    (adds : ledger.AddsDerivation all ⟨setting, derivation.node⟩ { name } later) :
    ∃ base start, ledger.HasBase all ⟨setting, derivation.node⟩ base ∧
      ledger.Begins derivation name base start ∧
      ledger.AddsParts all setting derivation.node.components start later := by
  cases adds with
  | ignored other => exact absurd kind other
  | extension kind hasBase taken parts =>
      have handed : derivation.isBare = false := by
        rw [Derivation.isBare, show derivation.node.name.name = "extension" from kind]
        simp
      refine ⟨_, _, hasBase, .extension complex handed, ?_⟩
      rw [typeAt_eq taken]
      simpa [ComplexType.takeAttributes] using parts
  | plain kind hasBase parts =>
      refine ⟨_, _, hasBase, .bare complex (kind.imp (fun restricts => ?_) (·.2)), parts⟩
      rw [Derivation.isBare, complex,
        show derivation.node.name.name = "restriction" from restricts]
      rfl

theorem exists_begins_of_addsSimpleDerivation {name : Option QName}
    (simple : derivation.isComplex = false)
    (adds : ledger.AddsSimpleDerivation all ⟨setting, derivation.node⟩ { name } later) :
    ∃ base start, ledger.HasBase all ⟨setting, derivation.node⟩ base ∧
      ledger.Begins derivation name base start ∧
      ledger.AddsParts all setting
        (derivation.node.components.filter fun part => isAttributePart part.name.name)
        start later := by
  cases adds with
  | simple hasBase parts => exact ⟨_, _, hasBase, .value simple, parts⟩
  | complex hasBase taken parts =>
      refine ⟨_, _, hasBase, .simple simple, ?_⟩
      rw [typeAt_eq taken]
      simpa [ComplexType.takeAttributes] using parts
  | none hasBase parts => exact ⟨_, _, hasBase, .text simple, parts⟩

/-- A type is defined as what it begins with and the parts of its own. -/
theorem exists_begins_of_defines (derives : definition.DerivesBy derivation)
    (defines : ledger.Defines all definition type) :
    ∃ base start,
      ledger.HasBase all ⟨definition.declared.setting, derivation.node⟩ base ∧
      ledger.Begins derivation definition.name base start ∧
      ledger.AddsParts all definition.declared.setting derivation.parts start type := by
  rw [Defines, derives.parts] at defines
  obtain _ | ⟨first, further⟩ := defines
  have rest := addsParts_of_steps derives.alone further
  rw [Derivation.parts]
  cases first with
  | complex tag each =>
      have complex : derivation.isComplex = true := beq_iff_eq.2 tag
      rw [derives.single] at each
      obtain _ | ⟨adds, ⟨⟩⟩ := each
      obtain ⟨base, start, hasBase, begins, parts⟩ :=
        exists_begins_of_addsDerivation complex (by simpa using derives.kind) adds
      rw [if_pos complex]
      exact ⟨base, start, hasBase, begins, parts.append rest⟩
  | simple tag each =>
      have simple : derivation.isComplex = false := by
        rw [Derivation.isComplex, tag]
        rfl
      rw [derives.single] at each
      obtain _ | ⟨adds, ⟨⟩⟩ := each
      obtain ⟨base, start, hasBase, begins, parts⟩ :=
        exists_begins_of_addsSimpleDerivation simple adds
      rw [if_neg (by simp [simple])]
      exact ⟨base, start, hasBase, begins, parts.append rest⟩
  | part tag _ => exact absurd derives.holds tag

theorem eq_complex_of_denotes {name : QName} {ref : TypeRef}
    (one : ledger.Denotes all name (.complex id)) (two : ledger.Denotes all name ref) :
    ref = .complex id := by
  cases one with
  | complex outside found known =>
      cases two with
      | anything most => exact absurd (congrArg QName.ns most) outside
      | builtin here _ => exact absurd here outside
      | complex _ _ known' => rw [Option.some.inj (known'.symm.trans known)]
      | simple _ noComplex _ _ => cases found.symm.trans noComplex

/-- A derivation has one base. -/
theorem eq_complex_of_hasBase {declared : Declared} {base : Option TypeRef}
    (one : ledger.HasBase all declared (some (.complex id)))
    (two : ledger.HasBase all declared base) : base = some (.complex id) := by
  cases one with
  | some named other denotes _ =>
      cases two with
      | none noBase => exact absurd noBase (attribute?_of_named? named)
      | anything most => exact absurd (Option.some.inj (named.symm.trans most)) other
      | some named' _ denotes' _ =>
          cases named.symm.trans named'
          rw [eq_complex_of_denotes denotes denotes']

/-- The attributes that a type derived from a complex type begins with. -/
theorem Begins.attributes {name : Option QName} {start : ComplexType}
    (begins : ledger.Begins derivation name (some (.complex id)) start) :
    start.attributes = derivation.inherited (ledger.typeAt id).attributes ∧
      start.anyAttribute = (!derivation.isBare && (ledger.typeAt id).anyAttribute) := by
  cases begins with
  | bare _ no =>
      have bare := no.resolve_right fun none => none id rfl
      simp [Derivation.inherited, bare]
  | extension _ handed => simp [Derivation.inherited, handed]
  | simple simple => simp [Derivation.inherited, Derivation.isBare, simple]

/-- Of each name a type has one attribute if its base has. -/
theorem nodup_names_of_defines (conforms : definition.Conforms)
    (defines : ledger.Defines all definition type)
    (bases : ∀ derivation id, definition.DerivesBy derivation →
      ledger.HasBase all ⟨definition.declared.setting, derivation.node⟩
        (some (.complex id)) → ((ledger.typeAt id).attributes.map (·.name)).Nodup) :
    (type.attributes.map (·.name)).Nodup := by
  have added : ∀ {parts : List Xml.ScopedElement} {start : ComplexType},
      (start.attributes.map (·.name)).Nodup →
        ledger.AddsParts all definition.declared.setting parts start type →
          (type.attributes.map (·.name)).Nodup := by
    intro parts start distinct adds
    obtain ⟨particles, items, _, _, rfl⟩ := exists_adding_of_addsParts adds
    exact (redeclares_redeclare _ _).nodup distinct
  rcases conforms with none | ⟨derivation, derives⟩
  · have nothing : (({ name := definition.name } : ComplexType).attributes.map
        (·.name)).Nodup := List.nodup_nil
    exact added nothing (addsParts_of_steps none defines)
  · obtain ⟨base, start, hasBase, begins, adds⟩ := exists_begins_of_defines derives defines
    refine added ?_ adds
    cases begins with
    | bare | value | text => exact List.nodup_nil
    | extension | simple => exact bases derivation _ derives hasBase

theorem exists_named_of_hasBase {declared : Declared}
    (hasBase : ledger.HasBase all declared (some (.complex id))) :
    ∃ name, declared.named? "base" = some name ∧ name.ns ≠ some schemaNamespace ∧
      ledger.reading.named.lookup name = some id := by
  cases hasBase with
  | some named _ denotes _ =>
      cases denotes with
      | complex outside _ known => exact ⟨_, named, outside, known⟩

end Ledger

namespace Components

open Ledger

variable {all : Declarations} {ledger : Ledger} {components : Components} {id : Nat}
  {definition : Definition}

/-- Bases lead to an end from all types that have been read. -/
theorem grounded_of_ofSources {sources : List Source}
    (read : ofSources sources = .ok components)
    (added : Declarations.addSources {} sources = .ok all) :
    ∀ type ∈ components.types, ∀ name, type.name = some name →
      Acc all.Derives name := by
  rw [ofSources] at read
  obtain ⟨all, added', read⟩ := Outcome.bind_eq_ok.1 read
  cases added.symm.trans added'
  obtain ⟨⟨roots, later⟩, ran, same⟩ := Outcome.bind_eq_ok.1 read
  cases same
  have rests := Reader.rests_of_mapM_readElementDecl
    (⟨rfl, by simp, by simp, by simp⟩ : Reader.Rests all {}) ran
  intro type member name named
  obtain ⟨id, found⟩ := rests.settled.names type member name named
  exact rests.settled.grounded name id found (by simp [rests.unfinished])

namespace Complete

theorem typeAt_eq (complete : Complete all ledger components) (id : Nat) :
    ledger.typeAt id = components.typeAt id := by
  rw [Ledger.typeAt, complete.types, Components.typeAt]

theorem defines (complete : Complete all ledger components)
    (defined : ledger.definitions[id]? = some definition) :
    components.types[id]? = some (components.typeAt id) ∧
      ledger.Defines all definition (components.typeAt id) := by
  have below : id < components.types.size :=
    complete.count ▸ (List.getElem?_eq_some_iff.1 defined).1
  have known : components.types[id]? = some (components.typeAt id) := by
    rw [Components.typeAt, Array.getElem?_eq_getElem below, Option.getD_some]
  exact ⟨known, complete.defined id definition _ defined known⟩

/-- The names of attributes are distinct in types from which bases lead to an end. -/
theorem nodup_names_of_acc (complete : Complete all ledger components)
    (sound : ledger.Sound all)
    (conforms : ∀ definition ∈ ledger.definitions, definition.Conforms) {name : QName}
    (grounded : Acc all.Derives name) {declared : Declared}
    (defined : ledger.definitions[id]? = some ⟨some name, declared⟩) :
    ((components.typeAt id).attributes.map (·.name)).Nodup := by
  induction grounded generalizing id declared with
  | intro name _ ih =>
      have member := List.mem_of_getElem? defined
      refine nodup_names_of_defines (conforms _ member) (complete.defines defined).2
        fun derivation base derives hasBase => ?_
      obtain ⟨other, named, outside, known⟩ := exists_named_of_hasBase hasBase
      obtain ⟨_, defined'⟩ := (sound.named other base).1 known
      rw [complete.typeAt_eq]
      refine ih other ?_ defined'
      cases sound.given _ member with
      | named _ found =>
          exact ⟨declared, derivation.content, derivation.node, found,
            by simp [derives.parts], derives.holds, by simp [derives.single], named,
            outside⟩

/-- Of each name a type has one attribute. -/
theorem nodup_names (complete : Complete all ledger components) (sound : ledger.Sound all)
    (grounded : ∀ type ∈ components.types, ∀ name, type.name = some name →
      Acc all.Derives name)
    (conforms : ∀ definition ∈ ledger.definitions, definition.Conforms)
    (defined : ledger.definitions[id]? = some definition) :
    ((components.typeAt id).attributes.map (·.name)).Nodup := by
  refine nodup_names_of_defines (conforms _ (List.mem_of_getElem? defined))
    (complete.defines defined).2 fun derivation base derives hasBase => ?_
  obtain ⟨name, _, _, known⟩ := exists_named_of_hasBase hasBase
  obtain ⟨declared, defined'⟩ := (sound.named name base).1 known
  have present := (complete.defines defined').1
  have named : (components.typeAt base).name = some name :=
    sound.names base _ _ defined' (complete.types ▸ present)
  rw [complete.typeAt_eq]
  exact complete.nodup_names_of_acc sound conforms
    (grounded _ (Array.mem_of_getElem? present) name named) defined'

/-- A type with a name is what its definition means. -/
theorem exists_definition (complete : Complete all ledger components)
    (sound : ledger.Sound all) {type : ComplexType} {name : QName}
    (known : components.types[id]? = some type) (named : type.name = some name) :
    ∃ declared, ledger.definitions[id]? = some ⟨some name, declared⟩ ∧
      all.complexTypes.lookup name = some declared := by
  have below : id < ledger.definitions.length :=
    complete.count ▸ (Array.getElem?_eq_some_iff.1 known).1
  have defined := List.getElem?_eq_getElem below
  have same := sound.names id _ type defined (complete.types ▸ known)
  generalize ledger.definitions[id] = definition at defined same
  obtain ⟨own, declared⟩ := definition
  obtain rfl : some name = own := named.symm.trans same
  cases sound.given _ (List.mem_of_getElem? defined) with
  | named _ found => exact ⟨declared, defined, found⟩

/-- The base of a derivation is the type with the name of the base. -/
theorem hasBase (complete : Complete all ledger components) (sound : ledger.Sound all)
    {place : Declared} {name : QName} (named : place.named? "base" = some name)
    (outside : name.ns ≠ some schemaNamespace) {type : ComplexType}
    (known : components.types[id]? = some type) (is : type.name = some name) :
    ledger.HasBase all place (some (.complex id)) := by
  obtain ⟨declared, defined, found⟩ := complete.exists_definition sound known is
  have known' := (sound.named name id).2 ⟨declared, defined⟩
  exact .some named (fun most => outside (congrArg QName.ns most))
    (.complex outside found known') (by simp [complete.finished])

end Complete

end Components

/-- The attributes that a derived type is to have: the last of its own of each name, and
those of its base that it neither declares again nor prohibits. -/
structure Inherits (base : List AttributeUse) (items : List AttributeItem)
    (attributes : List AttributeUse) : Prop where
  distinct : (attributes.map (·.name)).Nodup
  uses : ∀ a, a ∈ attributes ↔
    (usesOf items).reverse.find? (·.name == a.name) = some a ∨
      a ∈ base ∧ a.name ∉ (usesOf items).map (·.name) ∧ .barred (some a.name) ∉ items

/-- Attributes are inherited as they should be if of those that are not declared again
all are prohibited where nothing is handed on, and none is prohibited elsewhere. -/
theorem Derivation.inherits_iff (derivation : Derivation) {base : List AttributeUse}
    {items : List AttributeItem} {attributes : List AttributeUse}
    (redeclares : Redeclares (derivation.inherited base) (usesOf items) attributes)
    (distinct : (base.map (·.name)).Nodup) :
    Inherits base items attributes ↔
      ∀ a ∈ base, a.name ∉ (usesOf items).map (·.name) →
        (.barred (some a.name) ∈ items ↔ derivation.isBare = true) := by
  have handed : ∀ a, a ∈ derivation.inherited base ↔
      a ∈ base ∧ derivation.isBare = false := by
    intro a
    cases bare : derivation.isBare <;> simp [Derivation.inherited, bare]
  have distinctHanded : ((derivation.inherited base).map (·.name)).Nodup := by
    rw [Derivation.inherited]
    split
    · exact List.nodup_nil
    · exact distinct
  have member := redeclares.mem_iff distinctHanded
  constructor
  · intro inherits a inBase apart
    have absent : (usesOf items).reverse.find? (·.name == a.name) ≠ some a := by
      intro found
      exact apart (List.mem_map_of_mem
        (List.mem_reverse.1 (List.mem_of_find?_eq_some found)))
    have same := (member a).symm.trans (inherits.uses a)
    simp only [absent, handed, inBase, apart, false_or, true_and, not_false_eq_true,
      and_true] at same
    rw [← Bool.not_eq_false, same, not_not]
  · intro exactly
    refine ⟨redeclares.nodup distinctHanded, fun a => ?_⟩
    rw [member a, handed]
    refine or_congr_right ⟨?_, ?_⟩
    · rintro ⟨⟨inBase, given⟩, apart⟩
      exact ⟨inBase, apart, by simp [exactly a inBase apart, given]⟩
    · rintro ⟨inBase, apart, allowed⟩
      rw [exactly a inBase apart, Bool.not_eq_true] at allowed
      exact ⟨⟨inBase, allowed⟩, apart⟩

namespace Components

open Ledger

/-- What derived types have of attributes.  A type begins with the attributes of its
base, or with none if it is a restriction in complex content; those that it declares
take the places of attributes of the same names, or come behind.  So it inherits as it
should just if a restriction in complex content repeats or prohibits all attributes of
its base, and no other derived type prohibits one that it does not repeat.  Others may
be there if the type says so, or if its base does and hands it on.  In documents without
further parts beside derivations, each name comes once in every type. -/
theorem inherits_iff_of_ofSources {sources : List Source} {components : Components}
    (read : ofSources sources = .ok components) :
    ∃ all ledger, Declarations.addSources {} sources = .ok all ∧
      ledger.Sound all ∧ Complete all ledger components ∧
      ((∀ definition ∈ ledger.definitions, definition.Conforms) →
        ∀ type ∈ components.types, (type.attributes.map (·.name)).Nodup) ∧
      ∀ (id : Nat) (definition : Definition) (derivation : Derivation) (base : Nat),
        ledger.definitions[id]? = some definition → definition.DerivesBy derivation →
        ledger.HasBase all ⟨definition.declared.setting, derivation.node⟩
          (some (.complex base)) →
        ∃ items,
          ledger.ListsItems all definition.declared.setting derivation.parts items ∧
          Redeclares (derivation.inherited (components.typeAt base).attributes)
            (usesOf items) (components.typeAt id).attributes ∧
          ((components.typeAt id).anyAttribute = true ↔ .anything ∈ items ∨
            derivation.isBare = false ∧ (components.typeAt base).anyAttribute = true) ∧
          (((components.typeAt base).attributes.map (·.name)).Nodup →
            (Inherits (components.typeAt base).attributes items
                (components.typeAt id).attributes ↔
              ∀ a ∈ (components.typeAt base).attributes,
                a.name ∉ (usesOf items).map (·.name) →
                  (.barred (some a.name) ∈ items ↔ derivation.isBare = true))) := by
  obtain ⟨all, ledger, added, sound, complete⟩ := exists_complete_of_ofSources read
  refine ⟨all, ledger, added, sound, complete, ?_, ?_⟩
  · intro conforms type member
    obtain ⟨id, known⟩ := Array.getElem?_of_mem member
    have below : id < ledger.definitions.length :=
      complete.count ▸ (Array.getElem?_eq_some_iff.1 known).1
    have distinct := complete.nodup_names sound (grounded_of_ofSources read added)
      conforms (List.getElem?_eq_getElem below)
    rwa [Components.typeAt, known] at distinct
  · intro id definition derivation base defined derives hasBase
    obtain ⟨base', start, hasBase', begins, adds⟩ :=
      exists_begins_of_defines derives (complete.defines defined).2
    cases eq_complex_of_hasBase hasBase hasBase'
    obtain ⟨attributes, anyAttribute⟩ := begins.attributes
    rw [complete.typeAt_eq] at attributes anyAttribute
    obtain ⟨particles, items, _, lists, same⟩ := exists_adding_of_addsParts adds
    have redeclares : Redeclares
        (derivation.inherited (components.typeAt base).attributes) (usesOf items)
        (components.typeAt id).attributes := by
      rw [same, ← attributes]
      exact redeclares_redeclare _ _
    refine ⟨items, lists, redeclares, ?_, derivation.inherits_iff redeclares⟩
    simp [same, ComplexType.adding, anyAttribute, or_comm]

end Components

/-- The declaration of an attribute in a type. -/
def attributePart (name : String) (more : List (String × String)) : Xml.Tree :=
  schemaPart "attribute" (("name", name) :: more) []

/-- An attribute that is not prohibited is used. -/
theorem Ledger.exists_used_of_listsItem {all : Declarations} {ledger : Ledger}
    {declared : Declared} {items : List AttributeItem}
    (tag : declared.node.name.name = "attribute")
    (allowed : attributeUse declared.node ≠ "prohibited")
    (lists : ledger.ListsItem all declared items) : ∃ a, items = [.used a] := by
  cases lists with
  | used _ _ => exact ⟨_, rfl⟩
  | barred _ means =>
      cases means with
      | prohibited use => exact absurd use allowed
  | group other => exact absurd (tag.symm.trans other) (by decide)
  | anything other => exact absurd (tag.symm.trans other) (by decide)
  | other no => simp [tag, isAttributePart] at no

/-- A part of a schema document as an element. -/
def schemaElement (tag : String) (attributes : List (String × String))
    (content : List Xml.Tree) : Xml.ScopedElement :=
  ⟨⟨tag, some schemaNamespace⟩,
    attributes.map fun (name, value) => ⟨.unqualified name, value⟩, [], content⟩

/-- A derivation from the type with a name. -/
def derivationPart (content kind base : String) (parts : List Xml.Tree) : Xml.Tree :=
  schemaPart content [] [schemaPart kind [("base", base)] parts]

/-- A type that is derived from the one with a name. -/
def derivedPart (name content kind base : String) (parts : List Xml.Tree) : Xml.Tree :=
  schemaPart "complexType" [("name", name)] [derivationPart content kind base parts]

theorem derivesBy_derivedPart (own : Option QName) (setting : Setting)
    {content kind : String} (name base : String) (parts : List Xml.Tree)
    (holds : content = "complexContent" ∨ content = "simpleContent")
    (isKind : kind = "extension" ∨ kind = "restriction") :
    Definition.DerivesBy
      ⟨own, setting, schemaElement "complexType" [("name", name)]
        [derivationPart content kind base parts]⟩
      ⟨schemaElement content [] [schemaPart kind [("base", base)] parts],
        schemaElement kind [("base", base)] parts, []⟩ where
  parts := by
    rcases holds with rfl | rfl <;> rfl
  holds := holds
  single := by
    rcases isKind with rfl | rfl <;> rfl
  kind := isKind
  alone := by simp

/-- Pages are sheets with a language, and they may be numbered. -/
def pageSource : Source :=
  shapesSource [schemaPart "element" [("name", "page"), ("type", "page")] [],
    derivedPart "page" "complexContent" "extension" "sheet"
      [attributePart "lang" [("use", "required")], attributePart "number" []],
    schemaPart "complexType" [("name", "sheet")]
      [attributePart "lang" [], attributePart "id" []]]

/-- What pages are read into. -/
def pageComponents : Components where
  roots := [⟨⟨"page", none⟩, .complex 0⟩]
  types := #[
    { name := some ⟨"page", none⟩
      attributes := [⟨⟨"lang", none⟩, true, .string⟩, ⟨⟨"id", none⟩, false, .string⟩,
        ⟨⟨"number", none⟩, false, .string⟩] },
    { name := some ⟨"sheet", none⟩
      attributes := [⟨⟨"lang", none⟩, false, .string⟩, ⟨⟨"id", none⟩, false, .string⟩] }]

/-- Pages inherit what they do not declare again. -/
theorem inherits_page :
    Components.ofSources [pageSource] = .ok pageComponents ∧
      ∃ all ledger items, Components.Complete all ledger pageComponents ∧
        ledger.ListsItems all (Setting.ofSource pageSource)
          (schemaElement "extension" [("base", "sheet")]
            [attributePart "lang" [("use", "required")],
              attributePart "number" []]).components items ∧
        Inherits (pageComponents.typeAt 1).attributes items
          (pageComponents.typeAt 0).attributes := by
  have read : Components.ofSources [pageSource] = .ok pageComponents := rfl
  obtain ⟨all, ledger, added, sound, complete, _, derived⟩ :=
    Components.inherits_iff_of_ofSources read
  have first : pageComponents.types[0]? = some (pageComponents.typeAt 0) := rfl
  have second : pageComponents.types[1]? = some (pageComponents.typeAt 1) := rfl
  obtain ⟨declared, defined, found⟩ := complete.exists_definition sound first rfl
  cases added
  cases found
  obtain ⟨items, lists, _, _, inherits⟩ := derived 0 _ _ 1 defined
    (derivesBy_derivedPart _ _ "page" "sheet" _ (.inl rfl) (.inl rfl))
    (complete.hasBase sound rfl (by decide) second rfl)
  refine ⟨read, _, ledger, items, complete, lists, (inherits (by decide)).2 ?_⟩
  intro a _ _
  have none : .barred (some a.name) ∉ items := by
    obtain _ | ⟨first, _ | ⟨second, ⟨⟩⟩⟩ := lists
    obtain ⟨_, rfl⟩ := Ledger.exists_used_of_listsItem rfl (by decide) first
    obtain ⟨_, rfl⟩ := Ledger.exists_used_of_listsItem rfl (by decide) second
    simp
  exact iff_of_false none (by decide)

/-- Sketches are a restriction of shapes, which have numbers. -/
def sketchSource : Source :=
  shapesSource [schemaPart "element" [("name", "sketch"), ("type", "sketch")] [],
    derivedPart "sketch" "complexContent" "restriction" "shape" [],
    schemaPart "complexType" [("name", "shape")] [attributePart "id" []]]

/-- What sketches are read into. -/
def sketchComponents : Components where
  roots := [⟨⟨"sketch", none⟩, .complex 0⟩]
  types := #[{ name := some ⟨"sketch", none⟩ },
    { name := some ⟨"shape", none⟩
      attributes := [⟨⟨"id", none⟩, false, .string⟩] }]

/-- Titles are labels without the numbers that labels have. -/
def titleSource : Source :=
  shapesSource [schemaPart "element" [("name", "title"), ("type", "title")] [],
    schemaPart "simpleType" [("name", "code")] [schemaPart "list" [] []],
    derivedPart "label" "simpleContent" "extension" "code" [attributePart "id" []],
    derivedPart "title" "simpleContent" "restriction" "label"
      [attributePart "id" [("use", "prohibited")]]]

/-- What titles are read into. -/
def titleComponents : Components where
  roots := [⟨⟨"title", none⟩, .complex 0⟩]
  types := #[
    { name := some ⟨"title", none⟩
      attributes := [⟨⟨"id", none⟩, false, .string⟩]
      simpleContent := some .string },
    { name := some ⟨"label", none⟩
      attributes := [⟨⟨"id", none⟩, false, .string⟩]
      simpleContent := some .string }]

/-- Some derived type does not inherit attributes as it should. -/
def FailsToInherit (sources : List Source) : Prop :=
  ∃ components all ledger, Components.ofSources sources = .ok components ∧
    Declarations.addSources {} sources = .ok all ∧
    Components.Complete all ledger components ∧
    ∃ (id : Nat) (definition : Definition) (derivation : Derivation) (base : Nat),
      ledger.definitions[id]? = some definition ∧ definition.DerivesBy derivation ∧
      ledger.HasBase all ⟨definition.declared.setting, derivation.node⟩
        (some (.complex base)) ∧
      ∀ items, ledger.ListsItems all definition.declared.setting derivation.parts items →
        ¬ Inherits (components.typeAt base).attributes items
          (components.typeAt id).attributes

/-- It is enough that the first type is derived from the second, and that it does not
inherit what its parts leave. -/
theorem failsToInherit_of_derivedPart {sources : List Source} {components : Components}
    {all : Declarations} (read : Components.ofSources sources = .ok components)
    (added : Declarations.addSources {} sources = .ok all) {name content kind base : String}
    {parts : List Xml.Tree} {setting : Setting} {derived parent : ComplexType}
    {rest : List ComplexType} (types : components.types.toList = derived :: parent :: rest)
    (named : derived.name = some ⟨name, none⟩) (is : parent.name = some ⟨base, none⟩)
    (found : all.complexTypes.lookup ⟨name, none⟩ =
      some ⟨setting, schemaElement "complexType" [("name", name)]
        [derivationPart content kind base parts]⟩)
    (holds : content = "complexContent" ∨ content = "simpleContent")
    (isKind : kind = "extension" ∨ kind = "restriction")
    (resolved : Declared.named? ⟨setting, schemaElement kind [("base", base)] parts⟩
      "base" = some ⟨base, none⟩)
    (fails : ∀ ledger : Ledger, ∀ items,
      ledger.ListsItems all setting
        (Derivation.parts ⟨schemaElement content [] [schemaPart kind [("base", base)] parts],
          schemaElement kind [("base", base)] parts, []⟩) items →
        ¬ Inherits parent.attributes items derived.attributes) :
    FailsToInherit sources := by
  obtain ⟨all', ledger, added', sound, complete⟩ :=
    Components.exists_complete_of_ofSources read
  cases added.symm.trans added'
  have first : components.types[0]? = some derived := by
    rw [← Array.getElem?_toList, types, List.getElem?_cons_zero]
  have second : components.types[1]? = some parent := by
    rw [← Array.getElem?_toList, types, List.getElem?_cons_succ, List.getElem?_cons_zero]
  obtain ⟨declared, defined, found'⟩ := complete.exists_definition sound first named
  cases found.symm.trans found'
  refine ⟨components, all, ledger, read, added, complete, 0, _, _, 1, defined,
    derivesBy_derivedPart _ setting name base parts holds isKind,
    complete.hasBase sound resolved (by simp) second is, fun items lists => ?_⟩
  rw [Components.typeAt, Components.typeAt, first, second]
  exact fails ledger items lists

/-- Sketches have lost the numbers of shapes, and titles have kept those of labels. -/
theorem failsToInherit_sketch_title :
    FailsToInherit [sketchSource] ∧ FailsToInherit [titleSource] := by
  constructor
  · have read : Components.ofSources [sketchSource] = .ok sketchComponents := rfl
    refine failsToInherit_of_derivedPart read rfl rfl rfl rfl rfl (.inl rfl) (.inr rfl)
      rfl fun ledger items lists inherits => ?_
    cases lists
    have kept := inherits.uses ⟨⟨"id", none⟩, false, .string⟩
    simp [usesOf] at kept
  · have read : Components.ofSources [titleSource] = .ok titleComponents := rfl
    refine failsToInherit_of_derivedPart read rfl rfl rfl rfl rfl (.inr rfl) (.inr rfl)
      rfl fun ledger items lists inherits => ?_
    obtain rfl : items = [.barred (some ⟨"id", none⟩)] := by
      obtain _ | ⟨first, ⟨⟩⟩ := lists
      cases first with
      | used _ means =>
          cases means with
          | used use => exact absurd rfl use
      | barred => rfl
      | group tag => exact absurd tag (by decide)
      | anything tag => exact absurd tag (by decide)
      | other tag => exact absurd tag (by decide)
    have kept := inherits.uses ⟨⟨"id", none⟩, false, .string⟩
    simp [usesOf, AttributeItem.use?] at kept

end XmlRecords
