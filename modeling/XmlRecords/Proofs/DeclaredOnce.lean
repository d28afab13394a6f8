import XmlRecords.Proofs.ContentLanguage
import XmlRecords.Proofs.GroupRounds

/-!
# Names that are declared once

The fields of a record share out the names that are declared in its content: the
field of an element has its name, and the field of a repeated group has those in the
group.  A name that is declared once belongs to one field, and children of that name
go there.
-/

namespace XmlRecords

theorem eq_of_count_flatMap_le_one {α β : Type} [DecidableEq β] {f : α → List β}
    {xs : List α} {first second : Nat} {x y : α} {b : β}
    (once : (xs.flatMap f).count b ≤ 1) (here : xs[first]? = some x)
    (there : xs[second]? = some y) (inFirst : b ∈ f x) (inSecond : b ∈ f y) :
    first = second := by
  induction xs generalizing first second with
  | nil => cases here
  | cons z rest ih =>
      have later : ∀ {index : Nat} {w : α}, rest[index]? = some w → b ∈ f w →
          0 < (rest.flatMap f).count b := by
        intro index w listed within
        rw [List.count_pos_iff]
        exact List.mem_flatMap.2 ⟨w, List.mem_of_getElem? listed, within⟩
      rw [List.flatMap_cons, List.count_append] at once
      cases first with
      | zero =>
          cases here
          have atFront := List.count_pos_iff.2 inFirst
          cases second with
          | zero => rfl
          | succ second =>
              have behind := later there inSecond
              omega
      | succ first =>
          cases second with
          | zero =>
              cases there
              have atFront := List.count_pos_iff.2 inSecond
              have behind := later here inFirst
              omega
          | succ second => rw [ih (by omega) here there]

/-! ## The names of a plan -/

namespace FieldPlan

/-- The names of the declarations that a field is for. -/
def names (plan : FieldPlan) : List QName :=
  match plan.origin, plan.kind with
  | .element name, _ => [name]
  | .group, .rounds _ particles =>
      (Particle.declarationsOfAll particles).map (·.name)
  | _, _ => []

theorem origin_of_mem_names {plan : FieldPlan} {name : QName}
    (named : name ∈ plan.names) :
    (∃ name, plan.origin = .element name) ∨ plan.origin = .group := by
  rw [names] at named
  split at named
  · next origin => exact .inl ⟨_, origin⟩
  · next origin _ => exact .inr origin
  · cases named

theorem origin_of_isSingle {plan : FieldPlan} {name : QName}
    (named : name ∈ plan.names) (single : plan.kind.isSingle = true) :
    plan.origin = .element name := by
  rw [names] at named
  split at named
  · next origin => rw [origin, List.mem_singleton.1 named]
  · next kind =>
      rw [kind] at single
      cases single
  · cases named

theorem names_of_isWildcard {plan : FieldPlan} (wildcard : plan.isWildcard = true) :
    plan.names = [] := by
  rw [isWildcard, Bool.or_eq_true, beq_iff_eq, beq_iff_eq] at wildcard
  rcases wildcard with origin | origin
  · rw [names, origin]
  · rw [names, origin]

end FieldPlan

mutual

/-- The fields of a particle share out the names in it. -/
theorem Particle.flatMap_names_plan (particle : Particle) (optional : Bool) :
    (particle.plan optional).flatMap FieldPlan.names =
      particle.declarations.map (·.name) := by
  cases particle with
  | element occurs declaration =>
      rw [Particle.plan, Particle.declarations]
      split
      · rfl
      · rfl
  | group occurs compositor particles =>
      rw [Particle.plan, Particle.declarations]
      split
      · rfl
      · split
        · rw [List.flatMap_singleton]
          rfl
        · exact Particle.flatMap_names_planAll particles _
  | wildcard occurs =>
      rw [Particle.plan, Particle.declarations]
      split <;> rfl
  | unsupported occurs tag => simp [Particle.plan, Particle.declarations]

theorem Particle.flatMap_names_planAll (particles : List Particle)
    (optional : Bool) :
    (Particle.planAll optional particles).flatMap FieldPlan.names =
      (Particle.declarationsOfAll particles).map (·.name) := by
  cases particles with
  | nil => simp [Particle.planAll, Particle.declarationsOfAll]
  | cons particle rest =>
      rw [Particle.planAll, Particle.declarationsOfAll, List.flatMap_append,
        List.map_append, Particle.flatMap_names_plan particle optional,
        Particle.flatMap_names_planAll rest optional]

end

theorem flatMap_names_mergePlans (plans more : List FieldPlan) :
    (mergePlans plans more).flatMap FieldPlan.names =
      plans.flatMap FieldPlan.names ++ more.flatMap FieldPlan.names := by
  induction more generalizing plans with
  | nil => simp [mergePlans]
  | cons plan rest ih =>
      have step : (addPlan plans plan).flatMap FieldPlan.names =
          plans.flatMap FieldPlan.names ++ plan.names := by
        rw [addPlan]
        split
        · next merged =>
            rw [Bool.and_eq_true] at merged
            rw [FieldPlan.names_of_isWildcard merged.1, List.append_nil]
        · rw [List.flatMap_append, List.flatMap_singleton]
      rw [List.flatMap_cons, ← List.append_assoc, ← step]
      exact ih (addPlan plans plan)

/-- The fields of a type share out the names in its content. -/
theorem ComplexType.flatMap_names_plan (type : ComplexType) :
    type.plan.flatMap FieldPlan.names = type.declarations.map (·.name) := by
  have text : (type.simpleContent.toList.map FieldPlan.ofText).flatMap
      FieldPlan.names = [] := by
    cases type.simpleContent <;> rfl
  have attributes : (type.attributes.map FieldPlan.ofAttribute).flatMap
      FieldPlan.names = [] := by
    rw [List.flatMap_map, List.flatMap_eq_nil_iff]
    intro a _
    rfl
  have others : (if type.anyAttribute
      then [FieldPlan.ofWildcard .attributeWildcard] else []).flatMap
        FieldPlan.names = [] := by
    split <;> rfl
  rw [plan, declarations, List.flatMap_append, List.flatMap_append,
    List.flatMap_append, text, attributes, others]
  cases type.content with
  | none => rfl
  | some particle => simpa using particle.flatMap_names_plan false

/-- The fields for a role share out the names that belong to it. -/
theorem Components.flatMap_names_plan (components : Components) (role : Role) :
    (components.plan role).flatMap FieldPlan.names =
      (components.declarations role).map (·.name) := by
  rw [plan, flatMap_names_mergePlans, List.flatMap_nil, List.nil_append]
  cases role with
  | type id => exact (components.typeAt id).flatMap_names_plan
  | group compositor particles =>
      exact Particle.flatMap_names_planAll particles _
  | document roots =>
      rw [rolePlan, declarations, List.flatMap_map]
      induction roots with
      | nil => rfl
      | cons declaration rest ih =>
          rw [List.flatMap_cons, ih]
          rfl

namespace Graph

variable {components : Components} {same : Nat → Nat → Prop} {graph : Graph}
  {roles : Nat → Role} {roots : List ElementDecl} {root id : Nat}
  {allowed : QName → Prop} {record : Record} {name : QName}

namespace Depicts

/-- A route to a field for an element begins at a field that has its name. -/
theorem exists_plan_of_leads
    (depicts : graph.Depicts components same roots roles root)
    (lowered : graph.Lowered allowed root)
    (found : graph.record? id = some record) {route : Route} {field : Field}
    (leads : graph.Leads record route field)
    (origin : field.origin = .element name) :
    ∃ plan, (components.plan (roles id))[route.index]? = some plan ∧
      name ∈ plan.names := by
  have follows := depicts.follows id record found
  cases leads with
  | field listed origin' closed =>
      obtain ⟨plan, planned, kept⟩ := follows.exists_plan listed
      refine ⟨plan, planned, ?_⟩
      rw [FieldPlan.names, ← kept.1, origin]
      exact List.mem_cons_self
  | group listed array rounds inner =>
      obtain ⟨plan, planned, kept⟩ := follows.exists_plan listed
      refine ⟨plan, planned, ?_⟩
      have group := origin_of_groupItem? rounds
      have isFor := Components.isFor_of_mem_plan (List.mem_of_getElem? planned)
        (.inr (kept.1.symm.trans group))
      cases isFor with
      | element => cases group.symm.trans kept.1
      | wildcard => cases group.symm.trans kept.1
      | group compositor within =>
          obtain ⟨node, item, rounds', isItem, role, _⟩ := lowered.exists_item
            found (List.mem_of_getElem? listed) group kept.2
          cases rounds.symm.trans rounds'
          obtain ⟨declaration, declared, _, _, origin', _⟩ :=
            depicts.exists_declaration_of_leads lowered inner isItem
          rw [role] at declared
          rw [origin, Origin.element.injEq] at origin'
          exact List.mem_map.2 ⟨declaration, declared, origin'.symm⟩

/-- A name that is declared once goes to the field that has it. -/
theorem exists_route_of_mem_names
    (depicts : graph.Depicts components same roots roles root)
    (lowered : graph.Lowered allowed root)
    (found : graph.record? id = some record) {index : Nat} {plan : FieldPlan}
    (planned : (components.plan (roles id))[index]? = some plan)
    (named : name ∈ plan.names)
    (once : ((components.declarations (roles id)).map (·.name)).count name ≤ 1) :
    ∃ route field, graph.route? record name = some route ∧
      graph.Leads record route field ∧ route.index = index := by
  have shares := components.flatMap_names_plan (roles id)
  have declared : name ∈ (components.declarations (roles id)).map (·.name) := by
    rw [← shares]
    exact List.mem_flatMap.2 ⟨plan, List.mem_of_getElem? planned, named⟩
  obtain ⟨route, field, routed, leads, _⟩ :=
    depicts.exists_route lowered found declared
  obtain ⟨other, planned', named'⟩ := depicts.exists_plan_of_leads lowered found
    leads (origin_of_route? routed leads)
  rw [← shares] at once
  exact ⟨route, field, routed, leads,
    eq_of_count_flatMap_le_one once planned' planned named' named⟩

end Depicts

end Graph

end XmlRecords
