import XmlRecords.Proofs.Names
import XmlRecords.Graph.Lowering

/-!
# Plans of records

Which fields a record has follows from what the record is for, without regard to
the graph: a type, a repeated group or the choice of a document element.  The
text of a type comes first, then its content in document order, then its
attributes, and last whatever attributes are left.  The plan of a particle is
computed by recursion on the particle alone; a reference to a type is not
followed.
-/

namespace XmlRecords

open Lowering

/-- What a field holds: one element or attribute of a type, one that may be
missing, any number of elements, the rounds of a repeated group, or what a
wildcard matches. -/
inductive FieldKind where
  | one (type : TypeRef)
  | optional (type : TypeRef)
  | many (type : TypeRef)
  | rounds (compositor : Compositor) (particles : List Particle)
  | texts

/-- What holds the elements or attributes of a type, by how many there may be. -/
def FieldKind.ofOccurrence (repeated optional : Bool) (type : TypeRef) :
    FieldKind :=
  if repeated then .many type else if optional then .optional type else .one type

/-- A field that a record is going to have. -/
structure FieldPlan where
  raw : String
  origin : Origin
  kind : FieldKind

namespace FieldPlan

/-- The field for a declared element. -/
def ofElement (repeated optional : Bool) (declaration : ElementDecl) : FieldPlan :=
  ⟨declaration.name.name, .element declaration.name,
    .ofOccurrence repeated optional declaration.type⟩

/-- The field for a declared attribute. -/
def ofAttribute (a : AttributeUse) : FieldPlan :=
  ⟨a.name.name, .attribute a.name,
    .ofOccurrence false (!a.required) (.simple a.datatype)⟩

/-- The field for the text of simple content. -/
def ofText (datatype : Datatype) : FieldPlan :=
  ⟨textField, .text, .one (.simple datatype)⟩

/-- The field for the rounds of a repeated group. -/
def ofGroup (compositor : Compositor) (particles : List Particle) : FieldPlan :=
  ⟨groupField, .group, .rounds compositor particles⟩

/-- The field for what a wildcard matches. -/
def ofWildcard (origin : Origin) : FieldPlan := ⟨wildcardField, origin, .texts⟩

/-- Recognise the fields for wildcards, of which there is one of each kind. -/
def isWildcard (plan : FieldPlan) : Bool :=
  plan.origin == .elementWildcard || plan.origin == .attributeWildcard

end FieldPlan

mutual

/-- The fields of a particle.  In a group that need not occur as a whole nothing
is required. -/
def Particle.plan (optional : Bool) : Particle → List FieldPlan
  | .element occurs declaration =>
      if occurs.isProhibited then []
      else [.ofElement occurs.isRepeated (occurs.least == 0 || optional)
        declaration]
  | .group occurs compositor particles =>
      if occurs.isProhibited then []
      else if occurs.isRepeated then [.ofGroup compositor particles]
      else
        Particle.planAll
          (optional || occurs.least == 0 || compositor == .choice) particles
  | .wildcard occurs =>
      if occurs.isProhibited then [] else [.ofWildcard .elementWildcard]
  | .unsupported _ _ => []

/-- The fields of several particles. -/
def Particle.planAll (optional : Bool) : List Particle → List FieldPlan
  | [] => []
  | particle :: rest => particle.plan optional ++ Particle.planAll optional rest

end

/-- The fields of a complex type. -/
def ComplexType.plan (type : ComplexType) : List FieldPlan :=
  type.simpleContent.toList.map .ofText ++
    (type.content.elim [] (Particle.plan false) ++
      (type.attributes.map .ofAttribute ++
        if type.anyAttribute then [.ofWildcard .attributeWildcard] else []))

/-- Plan one more field.  A second wildcard of a kind is merged into the
first. -/
def addPlan (plans : List FieldPlan) (plan : FieldPlan) : List FieldPlan :=
  if plan.isWildcard && plans.any (·.origin == plan.origin) then plans
  else plans ++ [plan]

/-- Plan more fields. -/
def mergePlans (plans more : List FieldPlan) : List FieldPlan :=
  more.foldl addPlan plans

/-- What a record is for: a complex type by its number, the rounds of a repeated
group, or the choice of a document element. -/
inductive Role where
  | type (id : Nat)
  | group (compositor : Compositor) (particles : List Particle)
  | document (roots : List ElementDecl)

/-- What a record for a role stands for. -/
def Role.source : Role → RecordSource
  | .type _ => .type
  | .group compositor _ => .group compositor
  | .document _ => .document

namespace Components

/-- The complex type with a number. -/
def typeAt (components : Components) (id : Nat) : ComplexType :=
  components.types[id]?.getD {}

/-- The fields that belong to a role, as they come. -/
def rolePlan (components : Components) : Role → List FieldPlan
  | .type id => (components.typeAt id).plan
  | .group compositor particles =>
      Particle.planAll (compositor == .choice) particles
  | .document roots => roots.map (.ofElement false true)

/-- The fields of a record for a role. -/
def plan (components : Components) (role : Role) : List FieldPlan :=
  mergePlans [] (components.rolePlan role)

/-- No two complex types have one name. -/
def NamesDistinct (components : Components) : Prop :=
  (components.types.toList.filterMap (·.name)).Nodup

instance (components : Components) : Decidable components.NamesDistinct :=
  inferInstanceAs (Decidable (List.Nodup _))

end Components

theorem mergePlans_append (plans first second : List FieldPlan) :
    mergePlans plans (first ++ second) =
      mergePlans (mergePlans plans first) second :=
  List.foldl_append

theorem mem_of_mem_addPlan {plans : List FieldPlan} {plan other : FieldPlan} :
    other ∈ addPlan plans plan → other ∈ plans ∨ other = plan := by
  rw [addPlan]
  split
  · exact .inl
  · simp

theorem mem_addPlan_of_mem {plans : List FieldPlan} {plan other : FieldPlan}
    (member : other ∈ plans) : other ∈ addPlan plans plan := by
  rw [addPlan]
  split
  · exact member
  · exact List.mem_append_left _ member

theorem exists_mem_addPlan (plans : List FieldPlan) (plan : FieldPlan) :
    ∃ other ∈ addPlan plans plan, other.origin = plan.origin := by
  rw [addPlan]
  split
  · next merged =>
      simp only [Bool.and_eq_true, List.any_eq_true, beq_iff_eq] at merged
      exact merged.2
  · exact ⟨plan, by simp, rfl⟩

theorem mem_of_mem_mergePlans {plans more : List FieldPlan} {plan : FieldPlan}
    (member : plan ∈ mergePlans plans more) : plan ∈ plans ∨ plan ∈ more := by
  induction more generalizing plans with
  | nil => exact .inl member
  | cons first rest ih =>
      rcases ih member with member | member
      · rcases mem_of_mem_addPlan member with member | rfl
        · exact .inl member
        · exact .inr List.mem_cons_self
      · exact .inr (List.mem_cons_of_mem _ member)

theorem mem_mergePlans_of_mem {plans : List FieldPlan} (more : List FieldPlan)
    {plan : FieldPlan} (member : plan ∈ plans) :
    plan ∈ mergePlans plans more := by
  induction more generalizing plans with
  | nil => exact member
  | cons first rest ih => exact ih (mem_addPlan_of_mem member)

/-- Of each planned field one for the same origin is left, and no field is left
out but wildcards. -/
theorem exists_mem_mergePlans (plans : List FieldPlan) {more : List FieldPlan}
    {plan : FieldPlan} (member : plan ∈ more) :
    ∃ other ∈ mergePlans plans more,
      other.origin = plan.origin ∧ (plan.isWildcard = false → other = plan) := by
  induction more generalizing plans with
  | nil => cases member
  | cons first rest ih =>
      rcases List.mem_cons.1 member with rfl | member
      · by_cases wildcard : plan.isWildcard
        · obtain ⟨other, present, same⟩ := exists_mem_addPlan plans plan
          exact ⟨other, mem_mergePlans_of_mem rest present, same, by simp [wildcard]⟩
        · have present : plan ∈ addPlan plans plan := by simp [addPlan, wildcard]
          exact ⟨plan, mem_mergePlans_of_mem rest present, rfl, fun _ => rfl⟩
      · exact ih (addPlan plans first) member

/-- Of the fields for elements the first of a name stays the first. -/
theorem find?_mergePlans (plans more : List FieldPlan) (name : QName) :
    (mergePlans plans more).find? (·.origin == .element name) =
      (plans.find? (·.origin == .element name)).or
        (more.find? (·.origin == .element name)) := by
  induction more generalizing plans with
  | nil => simp [mergePlans]
  | cons plan rest ih =>
      have later := ih (addPlan plans plan)
      have step : (addPlan plans plan).find? (·.origin == .element name) =
          (plans.find? (·.origin == .element name)).or
            ([plan].find? (·.origin == .element name)) := by
        rw [addPlan]
        split
        · next merged =>
            -- What is merged is a wildcard, so it is not for the name.
            rw [Bool.and_eq_true] at merged
            have wildcard := merged.1
            have apart : (plan.origin == .element name) = false := by
              rw [beq_eq_false_iff_ne]
              intro same
              simp [FieldPlan.isWildcard, same] at wildcard
            simp [apart]
        · exact List.find?_append
      rw [step, Option.or_assoc, ← List.find?_append] at later
      exact later

mutual

/-- The declarations of elements in a particle that may occur. -/
def Particle.declarations : Particle → List ElementDecl
  | .element occurs declaration =>
      if occurs.isProhibited then [] else [declaration]
  | .group occurs _ particles =>
      if occurs.isProhibited then [] else Particle.declarationsOfAll particles
  | .wildcard _ | .unsupported _ _ => []

/-- The declarations of elements in several particles. -/
def Particle.declarationsOfAll : List Particle → List ElementDecl
  | [] => []
  | particle :: rest =>
      particle.declarations ++ Particle.declarationsOfAll rest

end

namespace FieldPlan

/-- The field is for one of some declarations, for the rounds of a group of them,
or for a wildcard. -/
inductive IsFor (declarations : List ElementDecl) : FieldPlan → Prop where
  | element (repeated optional : Bool) {declaration : ElementDecl}
      (declared : declaration ∈ declarations) :
      IsFor declarations (.ofElement repeated optional declaration)
  | group (compositor : Compositor) {particles : List Particle}
      (declared : Particle.declarationsOfAll particles ⊆ declarations) :
      IsFor declarations (.ofGroup compositor particles)
  | wildcard : IsFor declarations (.ofWildcard .elementWildcard)

/-- The field takes elements of a declaration, in rounds of a group if need
be. -/
inductive Offers (declaration : ElementDecl) : FieldPlan → Prop where
  | element (repeated optional : Bool) :
      Offers declaration (.ofElement repeated optional declaration)
  | group (compositor : Compositor) {particles : List Particle}
      (declared : declaration ∈ Particle.declarationsOfAll particles) :
      Offers declaration (.ofGroup compositor particles)

theorem IsFor.mono {declarations more : List ElementDecl} {plan : FieldPlan}
    (isFor : plan.IsFor declarations) (subset : declarations ⊆ more) :
    plan.IsFor more := by
  cases isFor with
  | element repeated optional declared =>
      exact .element repeated optional (subset declared)
  | group compositor declared =>
      exact .group compositor (List.Subset.trans declared subset)
  | wildcard => exact .wildcard

theorem IsFor.origin_cases {declarations : List ElementDecl} {plan : FieldPlan}
    (isFor : plan.IsFor declarations) :
    plan.origin = .elementWildcard ∨ plan.origin = .group ∨
      ∃ name, plan.origin = .element name := by
  cases isFor <;> simp [ofElement, ofGroup, ofWildcard]

theorem Offers.isWildcard {declaration : ElementDecl} {plan : FieldPlan}
    (offers : plan.Offers declaration) : plan.isWildcard = false := by
  cases offers <;> rfl

end FieldPlan

mutual

/-- A particle has fields for its own declarations alone. -/
theorem Particle.isFor_of_mem_plan (particle : Particle) {optional : Bool}
    {plan : FieldPlan} (planned : plan ∈ particle.plan optional) :
    plan.IsFor particle.declarations := by
  cases particle with
  | element occurs declaration =>
      rw [Particle.plan] at planned
      rw [Particle.declarations]
      split at planned
      · cases planned
      · next allowed =>
          rw [List.mem_singleton.1 planned, if_neg allowed]
          exact .element _ _ List.mem_cons_self
  | group occurs compositor particles =>
      rw [Particle.plan] at planned
      rw [Particle.declarations]
      split at planned
      · cases planned
      · next allowed =>
          rw [if_neg allowed]
          split at planned
          · rw [List.mem_singleton.1 planned]
            exact .group compositor (List.Subset.refl _)
          · exact Particle.isFor_of_mem_planAll particles planned
  | wildcard occurs =>
      rw [Particle.plan] at planned
      split at planned
      · cases planned
      · rw [List.mem_singleton.1 planned]
        exact .wildcard
  | unsupported occurs tag => simp [Particle.plan] at planned

theorem Particle.isFor_of_mem_planAll (particles : List Particle)
    {optional : Bool} {plan : FieldPlan}
    (planned : plan ∈ Particle.planAll optional particles) :
    plan.IsFor (Particle.declarationsOfAll particles) := by
  cases particles with
  | nil => simp [Particle.planAll] at planned
  | cons particle rest =>
      rw [Particle.planAll, List.mem_append] at planned
      rw [Particle.declarationsOfAll]
      rcases planned with planned | planned
      · exact (Particle.isFor_of_mem_plan particle planned).mono
          (List.subset_append_left _ _)
      · exact (Particle.isFor_of_mem_planAll rest planned).mono
          (List.subset_append_right _ _)

end

mutual

/-- For each declaration in a particle there is a field. -/
theorem Particle.exists_offers (particle : Particle) (optional : Bool)
    {declaration : ElementDecl} (declared : declaration ∈ particle.declarations) :
    ∃ plan ∈ particle.plan optional, plan.Offers declaration := by
  cases particle with
  | element occurs other =>
      rw [Particle.declarations] at declared
      rw [Particle.plan]
      split at declared
      · cases declared
      · next allowed =>
          rw [List.mem_singleton.1 declared, if_neg allowed]
          exact ⟨_, List.mem_cons_self, .element _ _⟩
  | group occurs compositor particles =>
      rw [Particle.declarations] at declared
      rw [Particle.plan]
      split at declared
      · cases declared
      · next allowed =>
          rw [if_neg allowed]
          split
          · exact ⟨_, List.mem_cons_self, .group compositor declared⟩
          · exact Particle.exists_offers_of_all particles _ declared
  | wildcard occurs => simp [Particle.declarations] at declared
  | unsupported occurs tag => simp [Particle.declarations] at declared

theorem Particle.exists_offers_of_all (particles : List Particle)
    (optional : Bool) {declaration : ElementDecl}
    (declared : declaration ∈ Particle.declarationsOfAll particles) :
    ∃ plan ∈ Particle.planAll optional particles, plan.Offers declaration := by
  cases particles with
  | nil => simp [Particle.declarationsOfAll] at declared
  | cons particle rest =>
      rw [Particle.declarationsOfAll, List.mem_append] at declared
      rw [Particle.planAll]
      rcases declared with declared | declared
      · obtain ⟨plan, planned, offers⟩ :=
          Particle.exists_offers particle optional declared
        exact ⟨plan, List.mem_append_left _ planned, offers⟩
      · obtain ⟨plan, planned, offers⟩ :=
          Particle.exists_offers_of_all rest optional declared
        exact ⟨plan, List.mem_append_right _ planned, offers⟩

end

/-- The declarations of elements in the content of a type. -/
def ComplexType.declarations (type : ComplexType) : List ElementDecl :=
  type.content.elim [] Particle.declarations

namespace ComplexType

variable {type : ComplexType} {plan : FieldPlan}

/-- A field of a type is for its text, its content, an attribute or whatever
attributes are left. -/
theorem mem_plan_cases (planned : plan ∈ type.plan) :
    (∃ datatype ∈ type.simpleContent, plan = .ofText datatype) ∨
    (∃ content, type.content = some content ∧ plan ∈ content.plan false) ∨
    (∃ declared ∈ type.attributes, plan = .ofAttribute declared) ∨
    type.anyAttribute ∧ plan = .ofWildcard .attributeWildcard := by
  rw [ComplexType.plan, List.mem_append, List.mem_append, List.mem_append]
    at planned
  rcases planned with planned | planned | planned | planned
  · obtain ⟨datatype, listed, rfl⟩ := List.mem_map.1 planned
    exact .inl ⟨datatype, Option.mem_toList.1 listed, rfl⟩
  · cases content : type.content with
    | none =>
        rw [content] at planned
        cases planned
    | some particle =>
        rw [content] at planned
        exact .inr (.inl ⟨particle, rfl, planned⟩)
  · obtain ⟨declared, listed, rfl⟩ := List.mem_map.1 planned
    exact .inr (.inr (.inl ⟨declared, listed, rfl⟩))
  · split at planned
    · next isOpen =>
        exact .inr (.inr (.inr ⟨isOpen, List.mem_singleton.1 planned⟩))
    · cases planned

theorem exists_content_of_mem_plan (planned : plan ∈ type.plan)
    (children : plan.origin = .elementWildcard ∨ plan.origin = .group ∨
      ∃ name, plan.origin = .element name) :
    ∃ content, type.content = some content ∧ plan ∈ content.plan false := by
  rcases mem_plan_cases planned with
    ⟨_, _, rfl⟩ | inContent | ⟨_, _, rfl⟩ | ⟨_, rfl⟩
  · simp [FieldPlan.ofText] at children
  · exact inContent
  · simp [FieldPlan.ofAttribute] at children
  · simp [FieldPlan.ofWildcard] at children

theorem exists_attribute_of_mem_plan (planned : plan ∈ type.plan) {name : QName}
    (origin : plan.origin = .attribute name) :
    ∃ declared ∈ type.attributes,
      plan = .ofAttribute declared ∧ declared.name = name := by
  rcases mem_plan_cases planned with
    ⟨_, _, rfl⟩ | ⟨content, _, planned⟩ | ⟨declared, listed, rfl⟩ | ⟨_, rfl⟩
  · cases origin
  · have children := (content.isFor_of_mem_plan planned).origin_cases
    simp [origin] at children
  · cases origin
    exact ⟨declared, listed, rfl, rfl⟩
  · cases origin

theorem exists_text_of_mem_plan (planned : plan ∈ type.plan)
    (origin : plan.origin = .text) :
    ∃ datatype ∈ type.simpleContent, plan = .ofText datatype := by
  rcases mem_plan_cases planned with
    inText | ⟨content, _, planned⟩ | ⟨_, _, rfl⟩ | ⟨_, rfl⟩
  · exact inText
  · have children := (content.isFor_of_mem_plan planned).origin_cases
    simp [origin] at children
  · cases origin
  · cases origin

end ComplexType

end XmlRecords
