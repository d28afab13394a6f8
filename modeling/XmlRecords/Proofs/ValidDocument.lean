import Mathlib.Data.List.Forall2
import XmlRecords.Proofs.ContentLanguage
import XmlRecords.Transcode.Document

/-!
# Valid documents

An element is valid for a simple type if it holds nothing but text that can be
read, and for a complex type if its children spell a word of the content, its
attributes are declared or left open, and its text can be read where there is
simple content.  What a child is labelled with need not be what its name alone
would tell: a name may be declared at several places, or stand for a child that a
wildcard matches.  Labels are unambiguous where that makes no difference.
-/

namespace XmlRecords

/-- The text can be read as a value of a simple type. -/
def Datatype.Accepts (datatype : Datatype) (zone : Zone) (text : String) : Prop :=
  ∃ value, Value.readPrimitive zone datatype.primitive.1 datatype.primitive.2
    text = .ok value

namespace ComplexType

/-- The words of the content of a type. -/
def Spells (type : ComplexType) (word : List Label) : Prop :=
  match type.content with
  | none => word = []
  | some content => content.Spells word

/-- An attribute is declared or left open, and it can be read. -/
def Admits (type : ComplexType) (zone : Zone) (a : Attribute) : Prop :=
  (type.anyAttribute ∨ ∃ declared ∈ type.attributes, declared.name = a.name) ∧
    ∀ declared ∈ type.attributes, declared.name = a.name →
      declared.datatype.Accepts zone a.value

/-- Recognise the types with a wildcard for elements outside of repeated
groups. -/
def isOpen (type : ComplexType) : Bool :=
  type.plan.any (·.origin == .elementWildcard)

/-- Recognise the names whose first declaration outside of repeated groups is not
repeated. -/
def isSingle (type : ComplexType) (name : QName) : Bool :=
  (type.plan.find? (·.origin == .element name)).any (·.kind.isSingle)

/-- It makes no difference by which declaration of its name a child is matched:
all of them have one type, a wildcard is left to names without a declaration, and
a name whose first declaration is for one element has no other, or comes up
once. -/
structure Unambiguous (type : ComplexType) (children : List Element)
    (labels : List Label) : Prop where
  types : ∀ declaration, some declaration ∈ labels →
    ∀ other ∈ type.declarations, other.name = declaration.name →
      other.type = declaration.type
  wildcards : ∀ child, (child, none) ∈ children.zip labels →
    type.isOpen ∧ child.name ∉ type.declarations.map (·.name)
  singles : ∀ name, type.isSingle name →
    (type.declarations.map (·.name)).count name ≤ 1 ∨
      (children.map (·.name)).count name ≤ 1

end ComplexType

/-- The element is valid for a type.  Besides, `rule` holds of the children of
each element of a complex type and of what they are matched by. -/
inductive Components.Valid (components : Components) (zone : Zone)
    (rule : ComplexType → List Element → List Label → Prop) :
    TypeRef → Element → Prop where
  | simple {datatype : Datatype} {element : Element}
      (alone : element.children = [])
      (text : datatype.Accepts zone element.text) :
      Valid components zone rule (.simple datatype) element
  | complex {id : Nat} {type : ComplexType} {element : Element}
      {labels : List Label} (known : components.types[id]? = some type)
      (spelled : type.Spells labels)
      (length : element.children.length = labels.length)
      (named : ∀ child declaration,
        (child, some declaration) ∈ element.children.zip labels →
          child.name = declaration.name)
      (children : ∀ (child : Element) (declaration : ElementDecl),
        (child, some declaration) ∈ element.children.zip labels →
          Valid components zone rule declaration.type child)
      (attributes : ∀ a ∈ element.attributes, a.isMeta = false →
        type.Admits zone a)
      (text : ∀ datatype ∈ type.simpleContent,
        datatype.Accepts zone element.text)
      (ruled : rule type element.children labels) :
      Valid components zone rule (.complex id) element

theorem ComplexType.mem_declarations_of_spells {type : ComplexType}
    {word : List Label} (spells : type.Spells word) {declaration : ElementDecl}
    (member : some declaration ∈ word) : declaration ∈ type.declarations := by
  rw [Spells] at spells
  rw [declarations]
  cases content : type.content with
  | none =>
      rw [content] at spells
      subst spells
      cases member
  | some particle =>
      rw [content] at spells
      exact particle.mem_declarations_of_spells spells member

/-- Names come up among the children no more often than in the word, if only
declarations match them. -/
theorem count_name_le_count_spelledNames {children : List Element}
    {labels : List Label} {name : QName}
    (matched : List.Forall₂ (fun (child : Element) (label : Label) =>
      child.name = name → ∃ declaration, label = some declaration ∧
        declaration.name = name) children labels) :
    (children.map (·.name)).count name ≤ (spelledNames labels).count name := by
  induction matched with
  | nil => exact Nat.zero_le 0
  | @cons child label children labels first _ ih =>
      have split : spelledNames (label :: labels) =
          (label.map (·.name)).toList ++ spelledNames labels := by
        cases label <;> rfl
      rw [split, List.count_append, List.map_cons, List.count_cons]
      by_cases same : child.name = name
      · obtain ⟨declaration, rfl, named⟩ := first same
        simp only [same, named, beq_self_eq_true, if_true, Option.map_some,
          Option.toList_some, List.count_singleton_self]
        omega
      · simp only [beq_iff_eq, same, if_false]
        omega

/-- Of a name whose first declaration is for one element there is no more than one
child in an unambiguous word of the content. -/
theorem ComplexType.Unambiguous.count_name_le_one {type : ComplexType}
    {children : List Element} {labels : List Label}
    (unambiguous : type.Unambiguous children labels)
    (spells : type.Spells labels) (length : children.length = labels.length)
    (named : ∀ child declaration,
      (child, some declaration) ∈ children.zip labels →
        child.name = declaration.name)
    {name : QName} (single : type.isSingle name) :
    (children.map (·.name)).count name ≤ 1 := by
  rcases unambiguous.singles name single with once | once
  · rw [isSingle, Option.any_eq_true] at single
    obtain ⟨plan, first, single⟩ := single
    have origin : plan.origin = .element name := by
      simpa using List.find?_some first
    obtain ⟨content, same, planned⟩ :=
      exists_content_of_mem_plan (List.mem_of_find?_eq_some first)
        (.inr (.inr ⟨name, origin⟩))
    rw [declarations, same] at once
    rw [Spells, same] at spells
    have declared : name ∈ type.declarations.map (·.name) := by
      rw [declarations, same]
      exact (content.isFor_of_mem_plan planned).name_mem origin
    refine Nat.le_trans (count_name_le_count_spelledNames ?_)
      (content.count_spelledNames_le_one planned origin single once spells)
    rw [List.forall₂_iff_zip]
    refine ⟨length, fun {child label} paired here => ?_⟩
    cases label with
    | none =>
        rw [← here] at declared
        exact absurd declared (unambiguous.wildcards child paired).2
    | some declaration =>
        exact ⟨declaration, rfl, (named child declaration paired).symm.trans here⟩
  · exact once

end XmlRecords
