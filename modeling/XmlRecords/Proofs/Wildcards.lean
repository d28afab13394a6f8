import XmlRecords.Proofs.Acceptance
import XmlRecords.Proofs.Refusals

/-!
# Wildcards

A wildcard of a content model becomes a field of the record that it is planned for.
That is the record of a type only if the wildcard is in no repeated group, and
only then it catches what is not declared.  A wildcard in a repeated group has a
field in the record of the rounds, and a child that is not declared does not get
there.
-/

namespace XmlRecords

mutual

/-- A wildcard is in the particle and may occur.  Those in repeated groups count
only with `inRounds`. -/
def Particle.holdsWildcard (inRounds : Bool) : Particle → Bool
  | .wildcard occurs => !occurs.isProhibited
  | .group occurs _ particles =>
      !occurs.isProhibited && (inRounds || !occurs.isRepeated) &&
        Particle.anyHoldsWildcard inRounds particles
  | .element _ _ | .unsupported _ _ => false

/-- Such a wildcard is in one of several particles. -/
def Particle.anyHoldsWildcard (inRounds : Bool) : List Particle → Bool
  | [] => false
  | particle :: rest =>
      particle.holdsWildcard inRounds || Particle.anyHoldsWildcard inRounds rest

end

mutual

/-- What is planned for a wildcard is planned for one outside of repeated groups. -/
theorem Particle.any_elementWildcard_plan (particle : Particle) (optional : Bool) :
    (particle.plan optional).any (·.origin == .elementWildcard) =
      particle.holdsWildcard false := by
  cases particle with
  | element occurs declaration =>
      rw [Particle.plan, holdsWildcard]
      split
      · rfl
      · rfl
  | group occurs compositor particles =>
      rw [Particle.plan, holdsWildcard]
      by_cases prohibited : occurs.isProhibited
      · simp [prohibited]
      · by_cases repeated : occurs.isRepeated
        · simp [prohibited, repeated, FieldPlan.ofGroup]
        · simpa [prohibited, repeated] using
            Particle.any_elementWildcard_planAll particles _
  | wildcard occurs =>
      rw [Particle.plan, holdsWildcard]
      by_cases prohibited : occurs.isProhibited
      · simp [prohibited]
      · simp [prohibited, FieldPlan.ofWildcard]
  | unsupported occurs tag => rfl

theorem Particle.any_elementWildcard_planAll (particles : List Particle)
    (optional : Bool) :
    (Particle.planAll optional particles).any (·.origin == .elementWildcard) =
      Particle.anyHoldsWildcard false particles := by
  cases particles with
  | nil => rfl
  | cons particle rest =>
      rw [Particle.planAll, anyHoldsWildcard, List.any_append,
        Particle.any_elementWildcard_plan particle optional,
        Particle.any_elementWildcard_planAll rest optional]

end

theorem ComplexType.isOpen_eq (type : ComplexType) :
    type.isOpen = type.content.any (Particle.holdsWildcard false) := by
  have text : (type.simpleContent.toList.map FieldPlan.ofText).any
      (·.origin == .elementWildcard) = false := by
    cases type.simpleContent <;> rfl
  have attributes : (type.attributes.map FieldPlan.ofAttribute).any
      (·.origin == .elementWildcard) = false := by
    simp [FieldPlan.ofAttribute]
  have others : (if type.anyAttribute
      then [FieldPlan.ofWildcard .attributeWildcard] else []).any
        (·.origin == .elementWildcard) = false := by
    split <;> rfl
  rw [isOpen, plan, List.any_append, List.any_append, List.any_append, text,
    attributes, others]
  cases type.content with
  | none => rfl
  | some particle => simp [particle.any_elementWildcard_plan]

namespace Components

/-- The content for a role has a wildcard outside of repeated groups. -/
def isOpen (components : Components) : Role → Bool
  | .type id => (components.typeAt id).content.any (Particle.holdsWildcard false)
  | .group _ particles => Particle.anyHoldsWildcard false particles
  | .document _ => false

theorem any_elementWildcard_plan (components : Components) (role : Role) :
    (components.plan role).any (·.origin == .elementWildcard) =
      components.isOpen role := by
  have merged : (components.plan role).any (·.origin == .elementWildcard) =
      (components.rolePlan role).any (·.origin == .elementWildcard) := by
    rw [Bool.eq_iff_iff, List.any_eq_true, List.any_eq_true]
    constructor
    · rintro ⟨plan, planned, origin⟩
      exact ⟨plan, mem_rolePlan_of_mem_plan planned, origin⟩
    · rintro ⟨plan, planned, origin⟩
      obtain ⟨other, kept, same, _⟩ := exists_mem_mergePlans [] planned
      exact ⟨other, kept, same ▸ origin⟩
  rw [merged]
  cases role with
  | type id => exact (components.typeAt id).isOpen_eq
  | group compositor particles =>
      exact Particle.any_elementWildcard_planAll particles _
  | document roots => simp [rolePlan, isOpen, FieldPlan.ofElement]

end Components

namespace Graph

variable {components : Components} {same : Nat → Nat → Prop} {graph : Graph}
  {roles : Nat → Role} {roots : List ElementDecl} {root id : Nat}
  {allowed : QName → Prop} {record : Record} {name : QName} {zone : Zone}

namespace Depicts

/-- A record has a field for a wildcard if there is one for it. -/
theorem isSome_elementWildcard
    (depicts : graph.Depicts components same roots roles root)
    (lowered : graph.Lowered allowed root)
    (found : graph.record? id = some record) :
    record.elementWildcard.isSome = components.isOpen (roles id) := by
  rw [(lowered.indexed found).elementWildcard_eq, List.findIdx?_isSome,
    any_origin_eq (depicts.follows id record found).fields,
    components.any_elementWildcard_plan]

/-- A child is unmatched just when it is not declared and there is no wildcard. -/
theorem route?_eq_none_iff
    (depicts : graph.Depicts components same roots roles root)
    (lowered : graph.Lowered allowed root)
    (found : graph.record? id = some record) :
    graph.route? record name = none ↔
      name ∉ (components.declarations (roles id)).map (·.name) ∧
        components.isOpen (roles id) = false := by
  rw [← depicts.isSome_elementWildcard lowered found, Option.isSome_eq_false_iff,
    Option.isNone_iff_eq_none]
  by_cases declared : name ∈ (components.declarations (roles id)).map (·.name)
  · obtain ⟨route, _, routed, _⟩ := depicts.exists_route lowered found declared
    simp [routed, declared]
  · simp [depicts.route?_eq_wildcard lowered found declared, declared]

/-- What is sent to the field for a wildcard is what is not declared. -/
theorem sentTo_elementWildcard
    (depicts : graph.Depicts components same roots roles root)
    (lowered : graph.Lowered allowed root)
    (found : graph.record? id = some record) {index : Nat}
    (wildcard : record.elementWildcard = some index) (children : List Element) :
    graph.sentTo record index children = children.filter fun child =>
      child.name ∉ (components.declarations (roles id)).map (·.name) := by
  obtain ⟨field, listed, origin, _⟩ :=
    lowered.isTextMap_of_elementWildcard found wildcard
  rw [sentTo]
  apply List.filter_congr
  intro child _
  rw [decide_eq_decide]
  by_cases declared :
      child.name ∈ (components.declarations (roles id)).map (·.name)
  · obtain ⟨route, _, routed, leads, _⟩ :=
      depicts.exists_route lowered found declared
    have apart := leads.index_ne_of_elementWildcard listed origin
    simp [routed, declared, apart]
  · simp [depicts.route?_eq_wildcard lowered found declared, wildcard, declared,
      Route.index]

end Depicts

/-- A child that is not declared is caught by a wildcard outside of repeated groups,
and by no other.  With such a wildcard, a record keeps all children that are not
declared, each key where it first came with the markup that came last.  Without one
it is refused.  So if a child matches no field, the element that it is in has no
such wildcard. -/
theorem undeclared_of_ofComponents {components : Components}
    {wanted : Option String} {graph : Graph}
    (built : ofComponents components wanted = .ok graph) :
    ∃ roots roles root,
      Lowering.chosenRoots components wanted = .ok roots ∧
      graph.Depicts components components.SharesName roots roles root ∧
      ∀ id record, graph.record? id = some record →
        (∀ name, graph.route? record name = none ↔
          name ∉ (components.declarations (roles id)).map (·.name) ∧
            components.isOpen (roles id) = false) ∧
        (∀ zone element value, graph.convert zone id element = .ok value →
          ∃ slots : Slots, value = .record slots ∧
            (components.isOpen (roles id) = true →
              ∃ index entries, record.elementWildcard = some index ∧
                slots.get? index = some (.map entries) ∧
                Captures ((element.children.filter fun child =>
                    child.name ∉
                      (components.declarations (roles id)).map (·.name)).map
                  fun child => (child.name.name, child.innerMarkup)) entries) ∧
            (components.isOpen (roles id) = false →
              ∀ child ∈ element.children, child.name ∈
                (components.declarations (roles id)).map (·.name))) ∧
        (record.source = .type → ∀ zone element name title,
          graph.convert zone id element =
              .error (.field (.unknownElement name title)) →
            ∃ node inner, graph.Matched id element node inner ∧
              name ∈ inner.children.map (·.name) ∧
              name ∉ (components.declarations (roles node)).map (·.name) ∧
              components.isOpen (roles node) = false) := by
  obtain ⟨roots, roles, root, chosen, lowered, depicts⟩ :=
    exists_lowered_depicts_of_ofComponents
      (Lowering.identifies_sharesName components) built
  refine ⟨roots, roles, root, chosen, depicts, fun id record found => ⟨?_, ?_, ?_⟩⟩
  · exact fun name => depicts.route?_eq_none_iff lowered found
  · intro zone element value converted
    obtain ⟨slots, rfl, distributes⟩ :=
      lowered.distributes_of_convert found converted
    refine ⟨slots, rfl, ?_, ?_⟩
    · intro isOpen
      rw [← depicts.isSome_elementWildcard lowered found] at isOpen
      obtain ⟨index, wildcard⟩ := Option.isSome_iff_exists.1 isOpen
      obtain ⟨field, listed, origin, _⟩ :=
        lowered.isTextMap_of_elementWildcard found wildcard
      obtain ⟨entries, held, captures⟩ :=
        (distributes.receives listed (.inr (.inr origin))).exists_entries origin
      rw [depicts.sentTo_elementWildcard lowered found wildcard] at captures
      exact ⟨index, entries, wildcard, held, captures⟩
    · intro closed child member
      by_contra undeclared
      exact distributes.matched child member
        ((depicts.route?_eq_none_iff lowered found).2 ⟨undeclared, closed⟩)
  · intro type zone element name title failed
    obtain ⟨node, inner, other, matched, found', _, misfits⟩ :=
      lowered.exists_misfits_of_convert (.inr ⟨record, found, type⟩) failed
    cases misfits with
    | unmatched member unrouted =>
        obtain ⟨undeclared, closed⟩ :=
          (depicts.route?_eq_none_iff lowered found').1 unrouted
        exact ⟨node, inner, matched, List.mem_map_of_mem member, undeclared, closed⟩

/-- A row keeps two children under one key, and the later one counts. -/
theorem undeclared_row :
    ofComponents rowComponents none = .ok rowGraph ∧
    ∃ roles root, ∃ slots : Slots,
      rowGraph.Depicts rowComponents rowComponents.SharesName rowComponents.roots
        roles root ∧
      rowComponents.isOpen (roles 0) = true ∧
      rowGraph.convert .utc 0 (rowOf ["c", "a", "d", "c"]) = .ok (.record slots) ∧
      ∃ entries, slots.get? 2 = some (.map entries) ∧
        Captures [("c", ""), ("d", ""), ("c", "")] entries := by
  have built : ofComponents rowComponents none = .ok rowGraph := by
    rfl
  obtain ⟨roots, roles, root, chosen, depicts, each⟩ :=
    undeclared_of_ofComponents built
  cases chosen
  have role := depicts.role_root rfl rfl
  cases depicts.rooted
  obtain ⟨value, converted⟩ : ∃ value,
      rowGraph.convert .utc 0 (rowOf ["c", "a", "d", "c"]) = .ok value := ⟨_, rfl⟩
  obtain ⟨slots, rfl, caught, _⟩ := (each 0 _ rfl).2.1 _ _ _ converted
  have isOpen : rowComponents.isOpen (roles 0) = true := by
    rw [role]
    decide
  obtain ⟨index, entries, wildcard, held, captures⟩ := caught isOpen
  cases wildcard
  rw [role] at captures
  exact ⟨built, roles, 0, slots, depicts, isOpen, converted, entries, held, captures⟩

end Graph

/-- Rounds of one text and of anything. -/
def openRounds : List Particle :=
  [.group ⟨1, none⟩ .sequence [.element .once (textDecl "a"), .wildcard ⟨0, some 1⟩]]

/-- A wildcard that may occur does not catch a child, because it is in a repeated
group. -/
theorem refuses_undeclared_in_rounds :
    ((rowsOf openRounds).typeAt 0).content.any (Particle.holdsWildcard true) = true ∧
    ∃ graph record, Graph.ofComponents (rowsOf openRounds) none = .ok graph ∧
      graph.record? 0 = some record ∧ record.source = .type ∧
      ⟨"b", none⟩ ∈ (rowOf ["a", "b"]).children.map (·.name) ∧
      graph.convert .utc 0 (rowOf ["a", "b"]) =
        .error (.field (.unknownElement ⟨"b", none⟩ record.title)) :=
  ⟨by decide, _, _, rfl, rfl, rfl, by decide, rfl⟩

end XmlRecords
