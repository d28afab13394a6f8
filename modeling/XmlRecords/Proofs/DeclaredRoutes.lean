import Mathlib.Data.List.Forall2
import XmlRecords.Proofs.Arrivals
import XmlRecords.Proofs.PlannedGraph

/-!
# Routes to declared elements

In a graph that follows its components a name is routed to a field for a
declaration of that name if there is one in the content, and to the wildcard
otherwise.  Groups come behind the records that they belong to, which bounds the
search for a name.
-/

namespace XmlRecords

open Lowering

theorem exists_getElem?_of_forall₂ {α β : Type} {related : α → β → Prop}
    {xs : List α} {ys : List β} (together : List.Forall₂ related xs ys)
    {index : Nat} {y : β} (listed : ys[index]? = some y) :
    ∃ x, xs[index]? = some x ∧ related x y := by
  induction together generalizing index with
  | nil => simp at listed
  | @cons x y' xs ys first _ ih =>
      cases index with
      | zero =>
          cases listed
          exact ⟨x, rfl, first⟩
      | succ index => exact ih listed

namespace Components

variable {components : Components} {role : Role} {plan : FieldPlan}

/-- The declarations of elements that belong to a role. -/
def declarations (components : Components) : Role → List ElementDecl
  | .type id => (components.typeAt id).declarations
  | .group _ particles => Particle.declarationsOfAll particles
  | .document roots => roots

theorem mem_rolePlan_of_mem_plan (planned : plan ∈ components.plan role) :
    plan ∈ components.rolePlan role := by
  rcases mem_of_mem_mergePlans planned with none | planned
  · cases none
  · exact planned

theorem isFor_of_mem_plan (planned : plan ∈ components.plan role)
    (children : (∃ name, plan.origin = .element name) ∨ plan.origin = .group) :
    plan.IsFor (components.declarations role) := by
  have planned := mem_rolePlan_of_mem_plan planned
  cases role with
  | type id =>
      have inContent : plan.origin = .elementWildcard ∨ plan.origin = .group ∨
          ∃ name, plan.origin = .element name := .inr children.symm
      obtain ⟨content, same, planned⟩ :=
        ComplexType.exists_content_of_mem_plan planned inContent
      rw [declarations, ComplexType.declarations, same]
      exact content.isFor_of_mem_plan planned
  | group compositor particles =>
      exact Particle.isFor_of_mem_planAll particles planned
  | document roots =>
      obtain ⟨declaration, declared, rfl⟩ := List.mem_map.1 planned
      exact .element false true declared

theorem exists_offers {declaration : ElementDecl}
    (declared : declaration ∈ components.declarations role) :
    ∃ plan ∈ components.plan role, plan.Offers declaration := by
  have planned : ∃ plan ∈ components.rolePlan role, plan.Offers declaration := by
    cases role with
    | type id =>
        rw [declarations, ComplexType.declarations] at declared
        rw [rolePlan, ComplexType.plan]
        cases content : (components.typeAt id).content with
        | none =>
            rw [content] at declared
            cases declared
        | some particle =>
            rw [content] at declared
            obtain ⟨plan, planned, offers⟩ :=
              particle.exists_offers false declared
            exact ⟨plan, List.mem_append_right _
              (List.mem_append_left _ planned), offers⟩
    | group compositor particles =>
        exact Particle.exists_offers_of_all particles _ declared
    | document roots =>
        exact ⟨_, List.mem_map_of_mem declared, .element false true⟩
  obtain ⟨plan, planned, offers⟩ := planned
  obtain ⟨other, kept, _, same⟩ := exists_mem_mergePlans [] planned
  rw [same offers.isWildcard] at kept
  exact ⟨plan, kept, offers⟩

end Components

namespace Graph

variable {components : Components} {same : Nat → Nat → Prop} {graph : Graph}
  {roles : Nat → Role} {roots : List ElementDecl} {root id : Nat}
  {allowed : QName → Prop} {record : Record}

/-- A graph from components is well built, and it depicts them. -/
theorem exists_lowered_depicts_of_ofComponents
    (identifies : Identifies components same) {wanted : Option String}
    (built : ofComponents components wanted = .ok graph) :
    ∃ roots roles root, chosenRoots components wanted = .ok roots ∧
      graph.Lowered (fun _ => True) root ∧
      graph.Depicts components same roots roles root := by
  obtain ⟨root, lowered⟩ := exists_lowered_ofComponents built
  obtain ⟨roots, roles, root', chosen, depicts⟩ :=
    exists_depicts_of_ofComponents identifies built
  cases lowered.rooted.symm.trans depicts.rooted
  exact ⟨roots, roles, root, chosen, lowered, depicts⟩

namespace Follows

theorem exists_plan (follows : graph.Follows components same roles id record)
    {index : Nat} {field : Field} (listed : record.fields[index]? = some field) :
    ∃ plan, (components.plan (roles id))[index]? = some plan ∧
      graph.Keeps same roles plan field :=
  exists_getElem?_of_forall₂ follows.fields listed

theorem exists_field (follows : graph.Follows components same roles id record)
    {plan : FieldPlan} (planned : plan ∈ components.plan (roles id)) :
    ∃ (index : Nat) (field : Field), record.fields[index]? = some field ∧
      graph.Keeps same roles plan field := by
  obtain ⟨index, listed⟩ := List.getElem?_of_mem planned
  obtain ⟨field, found, kept⟩ :=
    exists_getElem?_of_forall₂ follows.fields.flip listed
  exact ⟨index, field, found, kept⟩

end Follows

theorem isSome_groupRoute? {next : Record → Option Route} {fields : List Field}
    {field : Field} {item : Record} (member : field ∈ fields)
    (rounds : graph.groupItem? field = some item) (leadsOn : (next item).isSome)
    (place : Nat) : (graph.groupRoute? next place fields).isSome := by
  induction fields generalizing place with
  | nil => cases member
  | cons first rest ih =>
      rw [groupRoute?]
      split
      · next plain =>
          rcases List.mem_cons.1 member with rfl | member
          · cases plain.symm.trans rounds
          · exact ih member (place + 1)
      · next other isItem =>
          split
          · rfl
          · next noRoute =>
              rcases List.mem_cons.1 member with rfl | member
              · cases isItem.symm.trans rounds
                rw [noRoute] at leadsOn
                cases leadsOn
              · exact ih member (place + 1)

theorem exists_of_groupRoute?_eq_some {next : Record → Option Route}
    {fields : List Field} {place : Nat} {route : Route}
    (routed : graph.groupRoute? next place fields = some route) :
    ∃ index item rest, route = .group index item rest ∧
      next item = some rest := by
  induction fields generalizing place with
  | nil => cases routed
  | cons first others ih =>
      rw [groupRoute?] at routed
      split at routed
      · exact ih routed
      · next item _ =>
          split at routed
          · next rest leadsOn =>
              cases routed
              exact ⟨place, item, rest, rfl, leadsOn⟩
          · exact ih routed

/-- A name that is followed to a field is that of the field. -/
theorem origin_of_namedRoute? {name : QName} {fuel : Nat} {route : Route}
    {field : Field} (routed : graph.namedRoute? name fuel record = some route)
    (leads : graph.Leads record route field) : field.origin = .element name := by
  induction fuel generalizing record route with
  | zero => cases routed
  | succ fuel ih =>
      rw [namedRoute?] at routed
      split at routed
      · next index named =>
          cases routed
          obtain ⟨found, listed, origin⟩ := Record.exists_field_of_findIdx? named
          cases leads with
          | field listed' _ _ =>
              cases listed.symm.trans listed'
              exact origin
      · obtain ⟨index, item, rest, rfl, leadsOn⟩ :=
          exists_of_groupRoute?_eq_some routed
        cases leads with
        | group _ _ _ inner => exact ih leadsOn inner

theorem origin_of_route? {name : QName} {route : Route} {field : Field}
    (routed : graph.route? record name = some route)
    (leads : graph.Leads record route field) : field.origin = .element name := by
  rw [route?, Option.or_eq_some_iff] at routed
  rcases routed with routed | ⟨_, routed⟩
  · exact origin_of_namedRoute? routed leads
  · obtain ⟨index, _, rfl⟩ := Option.map_eq_some_iff.1 routed
    cases leads

/-- A field that goes directly to an element is the first for its name. -/
theorem elementField?_of_route? {name : QName} {index : Nat}
    (routed : graph.route? record name = some (.field index)) :
    record.elementField? name = some index := by
  rw [route?, namedRoute?, Option.or_eq_some_iff] at routed
  rcases routed with routed | ⟨_, routed⟩
  · split at routed
    · next named =>
        cases routed
        exact named
    · obtain ⟨_, _, _, impossible, _⟩ := exists_of_groupRoute?_eq_some routed
      cases impossible
  · obtain ⟨_, _, impossible⟩ := Option.map_eq_some_iff.1 routed
    cases impossible

/-- The rounds of a group have a record with the role of the group, behind the
record that the group belongs to. -/
theorem Lowered.exists_item (lowered : graph.Lowered allowed root)
    (found : graph.record? id = some record) {field : Field}
    (member : field ∈ record.fields) (origin : field.origin = .group)
    {compositor : Compositor} {particles : List Particle}
    (realizes : graph.Realizes same roles (.rounds compositor particles)
      field.node) :
    ∃ node item, graph.groupItem? field = some item ∧
      graph.record? node = some item ∧ roles node = .group compositor particles ∧
        id < node := by
  obtain ⟨node, item, array, isItem, role⟩ := realizes
  obtain ⟨node', _, rounds, array', _, isItem', behind⟩ :=
    lowered.exists_round found member origin
  cases array.symm.trans array'
  cases isItem.symm.trans isItem'
  exact ⟨node, item, rounds, isItem, role, behind⟩

namespace Depicts

/-- A name that is declared is found. -/
theorem isSome_namedRoute?
    (depicts : graph.Depicts components same roots roles root)
    (lowered : graph.Lowered allowed root) {declaration : ElementDecl}
    {fuel : Nat} (found : graph.record? id = some record)
    (declared : declaration ∈ components.declarations (roles id))
    (enough : graph.nodes.size - id < fuel) :
    (graph.namedRoute? declaration.name fuel record).isSome := by
  induction fuel generalizing id record with
  | zero => cases enough
  | succ fuel ih =>
      have follows := depicts.follows id record found
      obtain ⟨plan, planned, offers⟩ := Components.exists_offers declared
      obtain ⟨index, field, listed, origin, realizes⟩ :=
        follows.exists_field planned
      have member := List.mem_of_getElem? listed
      rw [namedRoute?]
      split
      · rfl
      · next unnamed =>
          cases offers with
          | element repeated optional =>
              have absent := List.findIdx?_eq_none_iff.1 unnamed field member
              rw [origin] at absent
              simp [FieldPlan.ofElement] at absent
          | group compositor within =>
              obtain ⟨node, item, rounds, isItem, role, behind⟩ :=
                lowered.exists_item found member origin realizes
              -- The record of the group comes behind, so the search ends.
              refine isSome_groupRoute? member rounds ?_ 0
              have inside := lt_size_of_node? (record?_eq_some_iff.1 isItem)
              exact ih isItem (by rw [role]; exact within) (by omega)

/-- A route leads to a field for a declaration. -/
theorem exists_declaration_of_leads
    (depicts : graph.Depicts components same roots roles root)
    (lowered : graph.Lowered allowed root) {route : Route} {field : Field}
    (leads : graph.Leads record route field)
    (found : graph.record? id = some record) :
    ∃ declaration ∈ components.declarations (roles id),
      ∃ repeated optional, field.origin = .element declaration.name ∧
        graph.Realizes same roles
          (.ofOccurrence repeated optional declaration.type) field.node := by
  induction leads generalizing id with
  | @field record index field name listed origin closed =>
      obtain ⟨plan, planned, kept⟩ :=
        (depicts.follows id record found).exists_plan listed
      have isFor := Components.isFor_of_mem_plan (List.mem_of_getElem? planned)
        (.inl ⟨name, kept.1.symm.trans origin⟩)
      cases isFor with
      | element repeated optional declared =>
          exact ⟨_, declared, repeated, optional, kept⟩
      | group compositor declared => cases origin.symm.trans kept.1
      | wildcard => cases origin.symm.trans kept.1
  | @group record index outer _ item rest field listed _ rounds inner ih =>
      have origin := origin_of_groupItem? rounds
      obtain ⟨plan, planned, kept⟩ :=
        (depicts.follows id record found).exists_plan listed
      have isFor := Components.isFor_of_mem_plan (List.mem_of_getElem? planned)
        (.inr (kept.1.symm.trans origin))
      cases isFor with
      | element repeated optional declared => cases origin.symm.trans kept.1
      | group compositor within =>
          obtain ⟨node, item', rounds', isItem, role, _⟩ :=
            lowered.exists_item found (List.mem_of_getElem? listed) origin
              kept.2
          cases rounds.symm.trans rounds'
          obtain ⟨declaration, declared, realized⟩ := ih isItem
          rw [role] at declared
          exact ⟨declaration, within declared, realized⟩
      | wildcard => cases origin.symm.trans kept.1

/-- A name that is declared is routed to a field for a declaration of it. -/
theorem exists_route (depicts : graph.Depicts components same roots roles root)
    (lowered : graph.Lowered allowed root)
    (found : graph.record? id = some record) {name : QName}
    (declared : name ∈
      (components.declarations (roles id)).map (·.name)) :
    ∃ route field, graph.route? record name = some route ∧
      graph.Leads record route field ∧
      ∃ declaration ∈ components.declarations (roles id),
        ∃ repeated optional, declaration.name = name ∧
          graph.Realizes same roles
            (.ofOccurrence repeated optional declaration.type) field.node := by
  obtain ⟨wanted, listed, rfl⟩ := List.mem_map.1 declared
  have finds := depicts.isSome_namedRoute? lowered found listed
    (Nat.lt_succ_of_le (Nat.sub_le graph.nodes.size id))
  obtain ⟨route, named⟩ := Option.isSome_iff_exists.1 finds
  have routed : graph.route? record wanted.name = some route := by
    rw [route?, named, Option.some_or]
  obtain ⟨_, field, leads, _⟩ := lowered.leads_of_namedRoute? found named
  obtain ⟨declaration, declared, repeated, optional, origin, realizes⟩ :=
    depicts.exists_declaration_of_leads lowered leads found
  have own := origin_of_namedRoute? named leads
  rw [own, Origin.element.injEq] at origin
  exact ⟨route, field, routed, leads, declaration, declared, repeated, optional,
    origin.symm, realizes⟩

/-- A name that is not declared is left to the wildcard. -/
theorem route?_eq_wildcard
    (depicts : graph.Depicts components same roots roles root)
    (lowered : graph.Lowered allowed root)
    (found : graph.record? id = some record) {name : QName}
    (absent : name ∉ (components.declarations (roles id)).map (·.name)) :
    graph.route? record name = record.elementWildcard.map .wildcard := by
  rw [route?]
  cases named : graph.namedRoute? name (graph.nodes.size + 1) record with
  | none => rfl
  | some route =>
      obtain ⟨_, field, leads, _⟩ := lowered.leads_of_namedRoute? found named
      obtain ⟨declaration, declared, _, _, origin, _⟩ :=
        depicts.exists_declaration_of_leads lowered leads found
      rw [origin_of_namedRoute? named leads, Origin.element.injEq] at origin
      exact absurd (List.mem_map.2 ⟨declaration, declared, origin.symm⟩) absent

end Depicts

end Graph

end XmlRecords
