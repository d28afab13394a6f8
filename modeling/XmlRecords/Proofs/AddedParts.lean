import XmlRecords.Proofs.Plan
import XmlRecords.Proofs.Redeclaration
import XmlRecords.Proofs.Translation

/-!
# What parts add to a type

Of the parts of a definition some are particles and the others speak of attributes.  The
two do not depend on each other: particles are put behind the content one after the
other, and attributes are declared one after the other.  A derived type begins with what
it takes over from its base, and goes on with the parts of its own.
-/

namespace XmlRecords

/-- What is said of attributes: one is used, the one with a name is prohibited, or there
may be others. -/
inductive AttributeItem where
  | used (a : AttributeUse)
  | barred (name : Option QName)
  | anything
  deriving DecidableEq

namespace AttributeItem

/-- The attribute that is used. -/
def use? : AttributeItem → Option AttributeUse
  | .used a => some a
  | .barred _ | .anything => none

end AttributeItem

/-- The attributes that are used, in their order. -/
def usesOf (items : List AttributeItem) : List AttributeUse :=
  items.filterMap (·.use?)

/-- The name of the attribute that a part of a type is about. -/
def Declared.attributeName? (declared : Declared) : Option QName :=
  match declared.node.attribute? "ref", declared.node.attribute? "name" with
  | some _, _ => declared.named? "ref"
  | none, some name =>
      some ⟨name, declared.setting.localNamespace declared.node
        declared.setting.attributesQualified⟩
  | none, none => none

/-- Recognise the parts of a type that are particles. -/
def isContentPart (part : Xml.ScopedElement) : Bool :=
  ["sequence", "choice", "all", "group"].contains part.name.name

namespace Ledger

mutual

/-- What a part of a type says of attributes. -/
inductive ListsItem (all : Declarations) (ledger : Ledger) :
    Declared → List AttributeItem → Prop where
  | used {declared : Declared} {a : AttributeUse}
      (tag : declared.node.name.name = "attribute")
      (means : ledger.UsesAttribute all declared (some a)) :
      ListsItem all ledger declared [.used a]
  | barred {declared : Declared} (tag : declared.node.name.name = "attribute")
      (means : ledger.UsesAttribute all declared none) :
      ListsItem all ledger declared [.barred declared.attributeName?]
  | group {declared group : Declared} {name : QName} {items : List AttributeItem}
      (tag : declared.node.name.name = "attributeGroup")
      (referred : declared.named? "ref" = some name)
      (found : all.attributeGroups.lookup name = some group)
      (parts : ListsItems all ledger group.setting
        (group.node.components.filter fun part => isAttributePart part.name.name)
        items) :
      ListsItem all ledger declared items
  | anything {declared : Declared} (tag : declared.node.name.name = "anyAttribute") :
      ListsItem all ledger declared [.anything]
  | other {declared : Declared} (tag : isAttributePart declared.node.name.name = false) :
      ListsItem all ledger declared []

/-- What parts of a type say of attributes, one after the other. -/
inductive ListsItems (all : Declarations) (ledger : Ledger) :
    Setting → List Xml.ScopedElement → List AttributeItem → Prop where
  | nil {setting : Setting} : ListsItems all ledger setting [] []
  | cons {setting : Setting} {part : Xml.ScopedElement} {rest : List Xml.ScopedElement}
      {items others : List AttributeItem}
      (first : ListsItem all ledger ⟨setting, part⟩ items)
      (further : ListsItems all ledger setting rest others) :
      ListsItems all ledger setting (part :: rest) (items ++ others)

end

end Ledger

/-- Put a particle behind others. -/
def appendContent (content : Option Particle) (particle : Particle) : Option Particle :=
  match content with
  | none => some particle
  | some base => some (.group .once .sequence [base, particle])

/-- The fields of content that there may be. -/
def contentPlan (content : Option Particle) : List FieldPlan :=
  content.elim [] (Particle.plan false)

theorem contentPlan_appendContent (content : Option Particle) (particle : Particle) :
    contentPlan (appendContent content particle) =
      contentPlan content ++ particle.plan false := by
  cases content with
  | none => rfl
  | some base =>
      have sequence : (Compositor.sequence == Compositor.choice) = false := rfl
      simp [contentPlan, appendContent, Particle.plan, Particle.planAll, Occurs.once,
        Occurs.isProhibited, Occurs.isRepeated, sequence]

/-- The fields of particles that are put behind each other come one after the
other. -/
theorem contentPlan_foldl_appendContent (content : Option Particle)
    (particles : List Particle) :
    contentPlan (particles.foldl appendContent content) =
      contentPlan content ++ Particle.planAll false particles := by
  induction particles generalizing content with
  | nil => simp [Particle.planAll]
  | cons particle rest ih =>
      rw [List.foldl_cons, ih, contentPlan_appendContent, Particle.planAll,
        List.append_assoc]

namespace ComplexType

/-- Add particles and attributes to a type, each kind in its order. -/
def adding (type : ComplexType) (particles : List Particle)
    (items : List AttributeItem) : ComplexType :=
  { type with
    content := particles.foldl appendContent type.content
    attributes := redeclare type.attributes (usesOf items)
    anyAttribute := type.anyAttribute || items.contains .anything }

theorem adding_nil (type : ComplexType) : type.adding [] [] = type := by
  cases type
  simp [adding, usesOf, redeclare]

theorem adding_adding (type : ComplexType) (particles more : List Particle)
    (items others : List AttributeItem) :
    (type.adding particles items).adding more others =
      type.adding (particles ++ more) (items ++ others) := by
  simp [adding, usesOf, redeclare_append, Bool.or_assoc]

end ComplexType

namespace Ledger

variable {all : Declarations} {ledger : Ledger}

theorem AreParticles.append {setting : Setting} {parts others : List Xml.ScopedElement}
    {particles more : List Particle}
    (first : ledger.AreParticles all setting parts particles)
    (second : ledger.AreParticles all setting others more) :
    ledger.AreParticles all setting (parts ++ others) (particles ++ more) := by
  induction parts generalizing particles with
  | nil =>
      cases first
      exact second
  | cons part rest ih =>
      cases first with
      | cons first further => exact .cons first (ih further)

theorem filter_isContentPart_eq_nil (parts : List Xml.ScopedElement) :
    (parts.filter fun part => isAttributePart part.name.name).filter isContentPart =
      [] := by
  rw [List.filter_eq_nil_iff]
  intro part member content
  have speaks := (List.mem_filter.1 member).2
  simp only [isContentPart, List.contains_iff_mem, List.mem_cons, List.not_mem_nil,
    or_false] at content
  rcases content with tag | tag | tag | tag <;> simp [isAttributePart, tag] at speaks

mutual

/-- A part is a particle or speaks of attributes, and this is what it adds. -/
theorem exists_adding_of_addsPart {declared : Declared} {type later : ComplexType} :
    ledger.AddsPart all declared type later → ∃ particles items,
      ledger.AreParticles all declared.setting ([declared.node].filter isContentPart)
        particles ∧
      ledger.ListsItem all declared items ∧ later = type.adding particles items
  | @AddsPart.particle _ _ _ _ particle tag means => by
      have content : isContentPart declared.node = true := by
        rw [isContentPart, List.contains_iff_mem]
        exact tag
      refine ⟨[particle], [], ?_, .other ?_, ?_⟩
      · rw [List.filter_cons_of_pos content]
        exact .cons means .nil
      · simp only [List.mem_cons, List.not_mem_nil, or_false] at tag
        rcases tag with tag | tag | tag | tag <;> rw [tag] <;> rfl
      · simp [ComplexType.addContent, ComplexType.adding, usesOf, redeclare]
        rfl
  | .attribute tag means =>
      ⟨[], [.used _], by simpa [isContentPart, tag] using .nil, .used tag means,
        by simp [ComplexType.adding, usesOf, AttributeItem.use?, redeclare]⟩
  | .prohibited tag means =>
      ⟨[], [.barred _], by simpa [isContentPart, tag] using .nil, .barred tag means,
        by simp [ComplexType.adding, usesOf, AttributeItem.use?, redeclare]⟩
  | .attributeGroup tag referred found parts => by
      obtain ⟨particles, items, are, lists, same⟩ := exists_adding_of_addsParts parts
      rw [filter_isContentPart_eq_nil] at are
      cases are
      exact ⟨[], items, by simpa [isContentPart, tag] using .nil,
        .group tag referred found lists, same⟩
  | .anyAttribute tag =>
      ⟨[], [.anything], by simpa [isContentPart, tag] using .nil, .anything tag,
        by simp [ComplexType.adding, usesOf, AttributeItem.use?, redeclare]⟩
  | .other tag => by
      simp only [List.mem_cons, List.not_mem_nil, or_false, not_or] at tag
      exact ⟨[], [], by simpa [isContentPart, tag] using .nil,
        .other (by simp [isAttributePart, tag]), type.adding_nil.symm⟩

/-- What parts add, one after the other, is their particles and what they say of
attributes. -/
theorem exists_adding_of_addsParts {setting : Setting} {parts : List Xml.ScopedElement}
    {type later : ComplexType} :
    ledger.AddsParts all setting parts type later → ∃ particles items,
      ledger.AreParticles all setting (parts.filter isContentPart) particles ∧
      ledger.ListsItems all setting parts items ∧ later = type.adding particles items
  | .nil => ⟨[], [], .nil, .nil, type.adding_nil.symm⟩
  | .cons first further => by
      obtain ⟨particles, items, are, lists, same⟩ := exists_adding_of_addsPart first
      obtain ⟨more, others, areMore, listsOthers, rfl⟩ :=
        exists_adding_of_addsParts further
      have together := are.append areMore
      rw [← List.filter_append, List.singleton_append] at together
      exact ⟨particles ++ more, items ++ others, together, .cons lists listsOthers,
        by rw [same, ComplexType.adding_adding]⟩

end

end Ledger

end XmlRecords
