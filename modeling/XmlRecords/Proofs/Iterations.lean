import XmlRecords.Proofs.Acceptance
import XmlRecords.Proofs.DeclaredOnce
import XmlRecords.Proofs.RecordContents

/-!
# Rounds and iterations

The children of a repeated sequence come in iterations of the sequence.  The rounds
of the group do not follow the content model: a round goes on until an element comes
again that it has one place for.  So the rounds are the iterations just when each
iteration begins with such an element, one that the iteration in front of it has too.
-/

namespace XmlRecords

/-- The element with its text alone. -/
def Element.withoutChildren (element : Element) : Element :=
  { element with
    content := element.content.filter fun item => item.element?.isNone }

namespace Element

@[simp] theorem children_withoutChildren (element : Element) :
    element.withoutChildren.children = [] := by
  rw [children, withoutChildren, List.filterMap_eq_nil_iff]
  intro item member
  simpa using (List.mem_filter.1 member).2

@[simp] theorem text_withoutChildren (element : Element) :
    element.withoutChildren.text = element.text := by
  rw [text, text, withoutChildren, List.filterMap_filter]
  congr 3
  funext item
  cases item <;> rfl

end Element

mutual

/-- An element of the name is in the particle, not repeated and outside of repeated
groups. -/
def Particle.holdsOne (name : QName) : Particle → Bool
  | .element occurs declaration =>
      !occurs.isProhibited && !occurs.isRepeated && declaration.name == name
  | .group occurs _ particles =>
      !occurs.isProhibited && !occurs.isRepeated &&
        Particle.anyHoldsOne name particles
  | .wildcard _ | .unsupported _ _ => false

/-- Such an element is in one of several particles. -/
def Particle.anyHoldsOne (name : QName) : List Particle → Bool
  | [] => false
  | particle :: rest =>
      particle.holdsOne name || Particle.anyHoldsOne name rest

end

/-- The children are an iteration of a sequence: a word of it in which each child
goes by a declaration of its name. -/
def Particle.IsIteration (particles : List Particle) (run : List Element) : Prop :=
  ∃ word : List ElementDecl,
    Particle.SpellsAll .sequence particles (word.map some) ∧
    run.map (·.name) = word.map (·.name)

mutual

/-- What is not repeated has a field for one element. -/
theorem Particle.holdsOne_iff (particle : Particle) (optional : Bool)
    (name : QName) :
    particle.holdsOne name = true ↔ ∃ plan ∈ particle.plan optional,
      plan.origin = .element name ∧ plan.kind.isSingle = true := by
  cases particle with
  | element occurs declaration =>
      rw [holdsOne, Particle.plan]
      by_cases prohibited : occurs.isProhibited
      · simp [prohibited]
      · simp [prohibited, FieldPlan.ofElement, FieldKind.isSingle_ofOccurrence,
          and_comm]
  | group occurs compositor particles =>
      rw [holdsOne, Particle.plan]
      by_cases prohibited : occurs.isProhibited
      · simp [prohibited]
      · by_cases repeated : occurs.isRepeated
        · simp [prohibited, repeated, FieldPlan.ofGroup]
        · simpa [prohibited, repeated] using
            Particle.anyHoldsOne_iff particles _ name
  | wildcard occurs =>
      rw [holdsOne, Particle.plan]
      by_cases prohibited : occurs.isProhibited
      · simp [prohibited]
      · simp [prohibited, FieldPlan.ofWildcard]
  | unsupported occurs tag => simp [holdsOne, Particle.plan]

theorem Particle.anyHoldsOne_iff (particles : List Particle) (optional : Bool)
    (name : QName) :
    Particle.anyHoldsOne name particles = true ↔
      ∃ plan ∈ Particle.planAll optional particles,
        plan.origin = .element name ∧ plan.kind.isSingle = true := by
  cases particles with
  | nil => simp [anyHoldsOne, Particle.planAll]
  | cons particle rest =>
      rw [anyHoldsOne, Particle.planAll, Bool.or_eq_true,
        Particle.holdsOne_iff particle optional name,
        Particle.anyHoldsOne_iff rest optional name]
      simp only [List.mem_append, or_and_right, exists_or]

end

/-- What an iteration of a sequence consists of is declared in the sequence. -/
theorem Particle.IsIteration.declared {particles : List Particle}
    {run : List Element} (iteration : Particle.IsIteration particles run) :
    ∀ child ∈ run,
      child.name ∈ (Particle.declarationsOfAll particles).map (·.name) := by
  obtain ⟨word, spells, names⟩ := iteration
  intro child member
  have named : child.name ∈ run.map (·.name) := List.mem_map_of_mem member
  rw [names] at named
  obtain ⟨declaration, within, same⟩ := List.mem_map.1 named
  refine List.mem_map.2 ⟨declaration, ?_, same⟩
  exact Particle.mem_declarationsOfAll_of_spells .sequence particles spells
    (List.mem_map_of_mem within)

/-- In an iteration there is one child at most of a name that is not repeated. -/
theorem Particle.IsIteration.count_le_one {particles : List Particle}
    {run : List Element} (iteration : Particle.IsIteration particles run)
    {name : QName}
    (once : ((Particle.declarationsOfAll particles).map (·.name)).count name ≤ 1)
    (single : Particle.anyHoldsOne name particles = true) :
    (run.map (·.name)).count name ≤ 1 := by
  obtain ⟨word, spells, names⟩ := iteration
  obtain ⟨plan, planned, origin, single⟩ :=
    (Particle.anyHoldsOne_iff particles false name).1 single
  have few := Particle.count_spelledNames_le_one_of_all .sequence particles planned
    origin single once spells
  rw [spelledNames, List.filterMap_map] at few
  rw [names, ← List.filterMap_eq_map]
  exact few

namespace Components

variable {components : Components} {particles : List Particle} {index : Nat}
  {plan : FieldPlan} {name : QName}

theorem kind_ne_texts_of_mem_names {role : Role}
    (planned : (components.plan role)[index]? = some plan)
    (named : name ∈ plan.names) : plan.kind ≠ .texts := by
  have isFor := isFor_of_mem_plan (List.mem_of_getElem? planned)
    (FieldPlan.origin_of_mem_names named)
  cases isFor with
  | element repeated optional declared =>
      cases repeated <;> cases optional <;> nofun
  | group compositor within => nofun
  | wildcard => cases named

/-- A name that is declared once is not repeated just when the field that has it is
for one element. -/
theorem anyHoldsOne_iff
    (planned : (components.plan (.group .sequence particles))[index]? = some plan)
    (named : name ∈ plan.names)
    (once : ((Particle.declarationsOfAll particles).map (·.name)).count name ≤ 1) :
    plan.kind.isSingle = true ↔ Particle.anyHoldsOne name particles = true := by
  rw [Particle.anyHoldsOne_iff particles false name]
  constructor
  · intro single
    exact ⟨plan, mem_rolePlan_of_mem_plan (List.mem_of_getElem? planned),
      FieldPlan.origin_of_isSingle named single, single⟩
  · rintro ⟨other, planned', origin, single⟩
    -- Only one of the fields has the name.
    obtain ⟨kept, member, _, same⟩ := exists_mem_mergePlans [] planned'
    rw [same (by rw [FieldPlan.isWildcard, origin]; rfl)] at member
    obtain ⟨place, merged⟩ := List.getElem?_of_mem member
    have named' : name ∈ other.names := by
      rw [FieldPlan.names, origin]
      exact List.mem_cons_self
    have shares := components.flatMap_names_plan (.group .sequence particles)
    rw [declarations] at shares
    rw [← shares] at once
    obtain rfl := eq_of_count_flatMap_le_one once planned merged named named'
    cases planned.symm.trans merged
    exact single

end Components

namespace Graph

variable {components : Components} {same : Nat → Nat → Prop} {graph : Graph}
  {roles : Nat → Role} {roots : List ElementDecl} {root id : Nat}
  {allowed : QName → Prop} {record item : Record} {name : QName} {zone : Zone}
  {particles : List Particle} {run : List Element} {child : Element}

/-- The field at a place of a record is for the rounds of a sequence, and the names
in the sequence are declared only there, and once. -/
structure HoldsSequence (graph : Graph) (components : Components)
    (roles : Nat → Role) (id : Nat) (record : Record) (index : Nat) (item : Record)
    (particles : List Particle) : Prop where
  found : graph.record? id = some record
  group : ∃ field, record.fields[index]? = some field ∧
    graph.groupItem? field = some item ∧
    roles (graph.elementType field.node) = .group .sequence particles
  once : ∀ declaration ∈ Particle.declarationsOfAll particles,
    ((components.declarations (roles id)).map (·.name)).count declaration.name = 1

theorem Represents.ne_array {type : TypeRef}
    (represents : graph.Represents same roles type id) (node : Nat) :
    graph.node? id ≠ some (.array node) := by
  intro array
  cases type with
  | simple datatype => cases array.symm.trans represents
  | complex number =>
      obtain ⟨r, _, isRecord, _⟩ := represents
      cases array.symm.trans (record?_eq_some_iff.1 isRecord)

/-- What holds one element or the texts of a wildcard is no array. -/
theorem Realizes.ne_array_iff {kind : FieldKind}
    (realizes : graph.Realizes same roles kind id) :
    (∀ node, graph.node? id ≠ some (.array node)) ↔
      kind.isSingle = true ∨ kind = .texts := by
  cases kind with
  | one type => simpa [FieldKind.isSingle] using realizes.ne_array
  | optional type =>
      obtain ⟨inner, wrapped, _⟩ := realizes
      simp [FieldKind.isSingle, wrapped]
  | many type =>
      obtain ⟨node, array, _⟩ := realizes
      simp [FieldKind.isSingle, array]
  | rounds compositor particles =>
      obtain ⟨node, _, array, _⟩ := realizes
      simp [FieldKind.isSingle, array]
  | texts =>
      obtain ⟨values, map, _⟩ := realizes
      simp [map]

namespace Depicts

/-- In the rounds of a sequence a name that is declared once goes to a field for one
element just when it is not repeated in the sequence. -/
theorem isArrayField_eq_false_iff_of_declared
    (depicts : graph.Depicts components same roots roles root)
    (lowered : graph.Lowered allowed root)
    (found : graph.record? id = some item)
    (role : roles id = .group .sequence particles)
    (declared : name ∈ (Particle.declarationsOfAll particles).map (·.name))
    (once : ((Particle.declarationsOfAll particles).map (·.name)).count name ≤ 1) :
    ∃ route field, graph.route? item name = some route ∧
      graph.Leads item route field ∧
      (graph.isArrayField item route.index = false ↔
        Particle.anyHoldsOne name particles = true) := by
  have shares := components.flatMap_names_plan (.group .sequence particles)
  rw [Components.declarations] at shares
  rw [← shares] at declared
  obtain ⟨plan, planned, named⟩ := List.mem_flatMap.1 declared
  obtain ⟨index, planned⟩ := List.getElem?_of_mem planned
  rw [← role] at planned
  obtain ⟨route, last, routed, leads, rfl⟩ := depicts.exists_route_of_mem_names
    lowered found planned named (by rwa [role])
  obtain ⟨field, listed, kept⟩ := exists_getElem?_of_forall₂
    (depicts.follows id item found).fields.flip planned
  rw [role] at planned
  refine ⟨route, last, routed, leads, ?_⟩
  rw [graph.isArrayField_eq_false_iff listed, kept.2.ne_array_iff,
    or_iff_left (Components.kind_ne_texts_of_mem_names planned named),
    Components.anyHoldsOne_iff planned named once]

/-- Where a field for one element is, only children of one name are sent. -/
theorem name_eq_of_single {first second : QName} {route other : Route}
    {field last : Field} (routed : graph.route? item first = some route)
    (routed' : graph.route? item second = some other)
    (leads : graph.Leads item route field) (leads' : graph.Leads item other last)
    (same : route.index = other.index)
    (single : graph.isArrayField item route.index = false) : first = second := by
  have plain : ∀ {route : Route} {field : Field}, graph.Leads item route field →
      graph.isArrayField item route.index = false →
        item.fields[route.index]? = some field := by
    intro route field leads single
    cases leads with
    | field listed _ _ => exact listed
    | group listed array _ _ =>
        exact absurd array ((isArrayField_eq_false_iff listed).1 single _)
  have here := plain leads single
  rw [same] at here single
  have there := plain leads' single
  cases here.symm.trans there
  have origin := (origin_of_route? routed leads).symm.trans
    (origin_of_route? routed' leads')
  simpa using origin

/-- An iteration of a sequence fits into a round of it. -/
theorem fitsRound_of_isIteration
    (depicts : graph.Depicts components same roots roles root)
    (lowered : graph.Lowered allowed root)
    (found : graph.record? id = some item)
    (role : roles id = .group .sequence particles)
    (once : ∀ name, name ∈ (Particle.declarationsOfAll particles).map (·.name) →
      ((Particle.declarationsOfAll particles).map (·.name)).count name ≤ 1)
    (iteration : Particle.IsIteration particles run) :
    graph.FitsRound item run where
  single := by
    intro index single
    by_cases nothing : graph.sentTo item index run = []
    · rw [nothing]
      exact Nat.zero_le 1
    obtain ⟨first, sent⟩ := List.exists_mem_of_ne_nil _ nothing
    obtain ⟨member, here⟩ := mem_sentTo.1 sent
    have declared := iteration.declared first member
    obtain ⟨route, field, routed, leads, single_iff⟩ :=
      depicts.isArrayField_eq_false_iff_of_declared lowered found role declared
        (once _ declared)
    rw [routed, Option.map_some, Option.some.injEq] at here
    subst here
    refine Nat.le_trans ?_
      (iteration.count_le_one (once _ declared) (single_iff.1 single))
    -- All that is sent there has one name.
    rw [sentTo, ← List.countP_eq_length_filter, List.count, List.countP_map]
    apply List.countP_mono_left
    intro other member' there
    have declared' := iteration.declared other member'
    obtain ⟨route', field', routed', leads', _⟩ :=
      depicts.isArrayField_eq_false_iff_of_declared lowered found role declared'
        (once _ declared')
    rw [decide_eq_true_eq, routed', Option.map_some, Option.some.injEq] at there
    have same := name_eq_of_single routed routed' leads leads' there.symm single
    simp [same]
  together := by
    intro choice
    rw [(depicts.follows id item found).source, role] at choice
    cases choice

/-- A declared child does not fit in with an iteration just when it is not repeated
in the sequence and there is one of its name. -/
theorem not_fitsRound_concat_iff
    (depicts : graph.Depicts components same roots roles root)
    (lowered : graph.Lowered allowed root)
    (found : graph.record? id = some item)
    (role : roles id = .group .sequence particles)
    (once : ∀ name, name ∈ (Particle.declarationsOfAll particles).map (·.name) →
      ((Particle.declarationsOfAll particles).map (·.name)).count name ≤ 1)
    (iteration : Particle.IsIteration particles run)
    (declared : child.name ∈
      (Particle.declarationsOfAll particles).map (·.name)) :
    ¬ graph.FitsRound item (run ++ [child]) ↔
      Particle.anyHoldsOne child.name particles = true ∧
        child.name ∈ run.map (·.name) := by
  have fits := depicts.fitsRound_of_isIteration lowered found role once iteration
  have noChoice : item.source ≠ .group .choice := by
    intro choice
    rw [(depicts.follows id item found).source, role] at choice
    cases choice
  obtain ⟨route, field, routed, leads, single_iff⟩ :=
    depicts.isArrayField_eq_false_iff_of_declared lowered found role declared
      (once _ declared)
  rw [fitsRound_concat_iff routed, single_iff]
  constructor
  · intro misfit
    by_contra going
    refine misfit ⟨fits, fun single => ?_, fun choice => absurd choice noChoice⟩
    refine List.eq_nil_iff_forall_not_mem.2 fun other sent => ?_
    obtain ⟨member, there⟩ := mem_sentTo.1 sent
    have declared' := iteration.declared other member
    obtain ⟨route', field', routed', leads', _⟩ :=
      depicts.isArrayField_eq_false_iff_of_declared lowered found role declared'
        (once _ declared')
    rw [routed', Option.map_some, Option.some.injEq] at there
    have same := name_eq_of_single routed routed' leads leads' there.symm
      (single_iff.2 single)
    exact going ⟨single, List.mem_map.2 ⟨other, member, same.symm⟩⟩
  · rintro ⟨single, again⟩ ⟨_, free, _⟩
    obtain ⟨other, member, same⟩ := List.mem_map.1 again
    have sent : other ∈ graph.sentTo item route.index run := by
      refine mem_sentTo.2 ⟨member, ?_⟩
      rw [same, routed, Option.map_some]
    rw [free single] at sent
    cases sent

end Depicts

namespace HoldsSequence

variable {index : Nat}

/-- The rounds of a sequence have a record for it, and its names are those of the
field. -/
theorem exists_plan
    (holds : graph.HoldsSequence components roles id record index item particles)
    (depicts : graph.Depicts components same roots roles root)
    (lowered : graph.Lowered allowed root) :
    ∃ node plan, graph.record? node = some item ∧
      roles node = .group .sequence particles ∧
      (components.plan (roles id))[index]? = some plan ∧
      plan.names = (Particle.declarationsOfAll particles).map (·.name) := by
  obtain ⟨field, listed, isGroup, role⟩ := holds.group
  have group := origin_of_groupItem? isGroup
  obtain ⟨node, array, below, isRound, _⟩ :=
    lowered.exists_round_of_groupItem? holds.found (List.mem_of_getElem? listed)
      isGroup
  rw [below] at role
  obtain ⟨plan, planned, kept⟩ :=
    (depicts.follows id record holds.found).exists_plan listed
  refine ⟨node, plan, isRound, role, planned, ?_⟩
  have isFor := Components.isFor_of_mem_plan (List.mem_of_getElem? planned)
    (.inr (kept.1.symm.trans group))
  cases isFor with
  | element => cases group.symm.trans kept.1
  | wildcard => cases group.symm.trans kept.1
  | group compositor within =>
      obtain ⟨node', _, array', _, role'⟩ := kept.2
      cases array.symm.trans array'
      cases role.symm.trans role'
      rfl

theorem count_le_one
    (holds : graph.HoldsSequence components roles id record index item particles)
    (declared : name ∈ (Particle.declarationsOfAll particles).map (·.name)) :
    ((components.declarations (roles id)).map (·.name)).count name ≤ 1 := by
  obtain ⟨declaration, member, rfl⟩ := List.mem_map.1 declared
  exact (holds.once declaration member).le

/-- What a record sends to a sequence is what is declared in it. -/
theorem sentTo_eq
    (holds : graph.HoldsSequence components roles id record index item particles)
    (depicts : graph.Depicts components same roots roles root)
    (lowered : graph.Lowered allowed root) (children : List Element) :
    graph.sentTo record index children = children.filter fun child =>
      child.name ∈ (Particle.declarationsOfAll particles).map (·.name) := by
  obtain ⟨node, plan, isItem, role, planned, names⟩ :=
    holds.exists_plan depicts lowered
  obtain ⟨field, listed, isGroup, _⟩ := holds.group
  rw [sentTo]
  apply List.filter_congr
  intro child member
  rw [decide_eq_decide]
  constructor
  · intro here
    obtain ⟨rest, _, goes⟩ := lowered.exists_rest_of_mem_sentTo holds.found listed
      isGroup (mem_sentTo.2 ⟨member, here⟩)
    have routed := (lowered.route?_eq_iff isItem).2 (.named goes)
    rcases lowered.leads_of_route? isItem routed with
      ⟨_, last, leads, _⟩ | ⟨_, rfl, _⟩
    · obtain ⟨declaration, declared, _, _, origin, _⟩ :=
        depicts.exists_declaration_of_leads lowered leads isItem
      rw [origin_of_route? routed leads, Origin.element.injEq] at origin
      rw [role] at declared
      exact List.mem_map.2 ⟨declaration, declared, origin.symm⟩
    · cases goes
  · intro declared
    obtain ⟨route, _, routed, _, same⟩ := depicts.exists_route_of_mem_names lowered
      holds.found planned (names ▸ declared) (holds.count_le_one declared)
    rw [routed, Option.map_some, same]

/-- In the record of the rounds names are declared once too. -/
theorem count_le_one_of_item
    (holds : graph.HoldsSequence components roles id record index item particles)
    (depicts : graph.Depicts components same roots roles root)
    (lowered : graph.Lowered allowed root)
    (declared : name ∈ (Particle.declarationsOfAll particles).map (·.name)) :
    ((Particle.declarationsOfAll particles).map (·.name)).count name ≤ 1 := by
  obtain ⟨_, plan, _, _, planned, names⟩ := holds.exists_plan depicts lowered
  have once := holds.count_le_one declared
  rw [← components.flatMap_names_plan] at once
  rw [← names]
  have listed : plan.names ∈ (components.plan (roles id)).map FieldPlan.names :=
    List.mem_map_of_mem (List.mem_of_getElem? planned)
  exact ((List.sublist_flatten_of_mem listed).count_le name).trans once

/-- Where all children are for a sequence, only their own conversions matter. -/
theorem qualifies_iff
    (holds : graph.HoldsSequence components roles id record index item particles)
    (depicts : graph.Depicts components same roots roles root)
    (lowered : graph.Lowered allowed root) {element : Element}
    (declared : ∀ child ∈ element.children,
      child.name ∈ (Particle.declarationsOfAll particles).map (·.name)) :
    graph.Qualifies zone record element ↔
      graph.Qualifies zone record element.withoutChildren ∧
      ∀ child ∈ element.children, ∀ route field,
        graph.route? record child.name = some route →
          graph.Leads record route field →
            ∃ value, graph.convert zone (graph.elementType field.node) child =
              .ok value := by
  have texts : ∀ index field, record.text = some index →
      record.fields[index]? = some field →
        graph.convert zone field.node element.withoutChildren =
          graph.convert zone field.node element := by
    intro index field isText listed
    obtain ⟨kind, logical, primitive⟩ :=
      lowered.primitive_of_text holds.found isText listed
    rw [convert_primitive primitive, convert_primitive primitive,
      Element.text_withoutChildren]
  have sent : ∀ child ∈ element.children,
      (graph.route? record child.name).map Route.index = some index := by
    intro child member
    have all := holds.sentTo_eq depicts lowered element.children
    rw [List.filter_eq_self.2 fun child member => by simpa using declared child member]
      at all
    exact (mem_sentTo.1 (all ▸ member)).2
  obtain ⟨group, listed, isGroup, _⟩ := holds.group
  constructor
  · intro qualifies
    refine ⟨⟨by simp, by simp [sentTo], by simp, qualifies.named,
      qualifies.unnamed, ?_⟩, qualifies.converts⟩
    intro index field isText listed
    rw [texts index field isText listed]
    exact qualifies.text index field isText listed
  · rintro ⟨qualifies, converts⟩
    refine ⟨?_, ?_, converts, qualifies.named, qualifies.unnamed, ?_⟩
    · intro child member unrouted
      have here := sent child member
      rw [unrouted] at here
      cases here
    · intro other field name listed' origin _
      have nothing : graph.sentTo record other element.children = [] := by
        refine List.eq_nil_iff_forall_not_mem.2 fun child there => ?_
        obtain ⟨member, there⟩ := mem_sentTo.1 there
        cases (sent child member).symm.trans there
        cases listed.symm.trans listed'
        cases (origin_of_groupItem? isGroup).symm.trans origin
      rw [nothing]
      exact Nat.zero_le 1
    · intro index field isText listed
      rw [← texts index field isText listed]
      exact qualifies.text index field isText listed

/-- The rounds of a sequence are its iterations just when no iteration is empty and
each begins with an element that is not repeated and that is in the iteration in
front of it too. -/
theorem rounds_eq_iff
    (holds : graph.HoldsSequence components roles id record index item particles)
    (depicts : graph.Depicts components same roots roles root)
    (lowered : graph.Lowered allowed root) {children : List Element}
    {iterations runs : List (List Element)}
    (divides : Divides (graph.FitsRound item)
      (graph.sentTo record index children) runs)
    (whole : (children.filter fun child =>
      child.name ∈ (Particle.declarationsOfAll particles).map (·.name)) =
        iterations.flatten)
    (each : ∀ run ∈ iterations, Particle.IsIteration particles run) :
    runs = iterations ↔ (∀ run ∈ iterations, run ≠ []) ∧
      iterations.IsChain fun run next => ∀ child ∈ next.head?,
        Particle.anyHoldsOne child.name particles = true ∧
          child.name ∈ run.map (·.name) := by
  obtain ⟨node, _, isItem, role, _, _⟩ := holds.exists_plan depicts lowered
  have once : ∀ name, name ∈ (Particle.declarationsOfAll particles).map (·.name) →
      ((Particle.declarationsOfAll particles).map (·.name)).count name ≤ 1 :=
    fun _ => holds.count_le_one_of_item depicts lowered
  rw [holds.sentTo_eq depicts lowered, whole] at divides
  -- Where a round of the group ends is said by the names alone.
  have ends : ∀ run next, run ∈ iterations → next ∈ iterations →
      ((∀ child ∈ next.head?, ¬ graph.FitsRound item (run ++ [child])) ↔
        ∀ child ∈ next.head?, Particle.anyHoldsOne child.name particles = true ∧
          child.name ∈ run.map (·.name)) := by
    intro run next member member'
    refine forall₂_congr fun child first => ?_
    have declared := (each next member').declared child
      (List.mem_of_mem_head? first)
    exact depicts.not_fitsRound_concat_iff lowered isItem role once
      (each run member) declared
  rw [← List.IsChain.iff_of_mem_imp fun run next member member' =>
    ends run next member member']
  constructor
  · rintro rfl
    exact ⟨divides.occupied, divides.ends⟩
  · rintro ⟨occupied, chain⟩
    have inherits := inherits_fitsRound graph item
    refine divides.eq inherits (.of_ends inherits rfl occupied ?_ chain)
    intro run member
    exact depicts.fitsRound_of_isIteration lowered isItem role once
      (each run member)

end HoldsSequence

/-- Children of a sequence fail by themselves or not at all.  However they come in
iterations, they are cut into rounds at each element that is not repeated and comes
again.  So the rounds are the iterations just when no iteration is empty and each
begins with such an element, which is in the iteration in front of it too. -/
theorem rounds_eq_iterations_iff_of_ofComponents {components : Components}
    {wanted : Option String} {graph : Graph}
    (built : ofComponents components wanted = .ok graph) :
    ∃ roots roles root,
      Lowering.chosenRoots components wanted = .ok roots ∧
      graph.Depicts components components.SharesName roots roles root ∧
      ∀ id record index item particles,
        graph.HoldsSequence components roles id record index item particles →
        (∀ zone element, (∀ child ∈ element.children,
            child.name ∈ (Particle.declarationsOfAll particles).map (·.name)) →
          ((∃ value, graph.convert zone id element = .ok value) ↔
            (∃ value, graph.convert zone id element.withoutChildren = .ok value) ∧
            ∀ child ∈ element.children, ∀ route field,
              graph.route? record child.name = some route →
                graph.Leads record route field →
                  ∃ value, graph.convert zone (graph.elementType field.node) child =
                    .ok value)) ∧
        (∀ zone element value, graph.convert zone id element = .ok value →
          ∃ slots, value = .record slots ∧
            graph.Distributes zone record element.children slots) ∧
        ∀ zone children slots iterations,
          graph.Distributes zone record children slots →
          (children.filter fun child =>
            child.name ∈ (Particle.declarationsOfAll particles).map (·.name)) =
              iterations.flatten →
          (∀ run ∈ iterations, Particle.IsIteration particles run) →
            ∃ rounds : List (List Element × Slots),
              slots.get? index =
                some (.array (rounds.map fun round => .record round.2)) ∧
              Divides (graph.FitsRound item) (graph.sentTo record index children)
                (rounds.map (·.1)) ∧
              (∀ round ∈ rounds,
                graph.Distributes zone item round.1 round.2) ∧
              (rounds.map (·.1) = iterations ↔
                (∀ run ∈ iterations, run ≠ []) ∧
                iterations.IsChain fun run next => ∀ child ∈ next.head?,
                  Particle.anyHoldsOne child.name particles = true ∧
                    child.name ∈ run.map (·.name)) := by
  obtain ⟨roots, roles, root, chosen, lowered, depicts⟩ :=
    exists_lowered_depicts_of_ofComponents
      (Lowering.identifies_sharesName components) built
  refine ⟨roots, roles, root, chosen, depicts, ?_⟩
  intro id record index item particles holds
  have converts_iff : ∀ zone element,
      (∃ value, graph.convert zone id element = .ok value) ↔
        graph.Qualifies zone record element := by
    intro zone element
    constructor
    · rintro ⟨value, converted⟩
      exact lowered.qualifies_of_convert holds.found converted
    · exact lowered.exists_convert_of_qualifies holds.found
  refine ⟨?_, ?_, ?_⟩
  · intro zone element declared
    rw [converts_iff, converts_iff]
    exact holds.qualifies_iff depicts lowered declared
  · intro zone element value converted
    exact lowered.distributes_of_convert holds.found converted
  · intro zone children slots iterations distributes whole each
    obtain ⟨field, listed, isGroup, _⟩ := holds.group
    have group := origin_of_groupItem? isGroup
    obtain ⟨rounds, held, divides, eachRound, _⟩ :=
      (distributes.receives listed (.inr (.inl group))).exists_rounds isGroup
    exact ⟨rounds, held, divides, eachRound,
      holds.rounds_eq_iff depicts lowered divides whole each⟩

end Graph

/-- Pairs of texts whose first text may be missing. -/
def pairParticles : List Particle :=
  [.element ⟨0, some 1⟩ (textDecl "a"), .element .once (textDecl "b")]

/-- Lists of pairs. -/
def pairComponents : Components where
  roots := [⟨⟨"pairs", none⟩, .complex 0⟩]
  types := #[{ content := some (.group ⟨1, none⟩ .sequence pairParticles) }]

/-- A record of a list of pairs. -/
def pairListRecord : Record :=
  ⟨some ⟨"type0", none⟩, .type, [⟨"group", .group, 4⟩], none, none, none⟩

/-- A record of a pair. -/
def pairRoundRecord : Record :=
  ⟨some ⟨"group0", none⟩, .group .sequence,
    [⟨"a", .element ⟨"a", none⟩, 3⟩, ⟨"b", .element ⟨"b", none⟩, 2⟩],
    none, none, none⟩

/-- The graph of lists of pairs. -/
def pairGraph : Graph where
  nodes := #[.record pairListRecord, .record pairRoundRecord, .primitive .string none,
    .optional 2, .array 1]
  root := some 0

theorem ofComponents_pairComponents :
    Graph.ofComponents pairComponents none = .ok pairGraph := by
  rfl

theorem Graph.holdsSequence_pairGraph {roles : Nat → Role} {root : Nat}
    (depicts : pairGraph.Depicts pairComponents pairComponents.SharesName
      pairComponents.roots roles root) :
    pairGraph.HoldsSequence pairComponents roles 0 pairListRecord 0 pairRoundRecord
      pairParticles := by
  have role := depicts.role_root rfl rfl
  cases depicts.rooted
  have planned := (depicts.follows 0 _ rfl).fields
  rw [role] at planned
  have plan : pairComponents.plan (.type 0) =
      [.ofGroup .sequence pairParticles] := rfl
  rw [plan] at planned
  obtain ⟨kept, _⟩ := List.forall₂_cons.1 planned
  obtain ⟨node, _, array, _, role'⟩ := kept.2
  cases array
  refine ⟨rfl, ⟨_, rfl, rfl, role'⟩, ?_⟩
  rw [role]
  decide

/-- A text of a pair. -/
def pairText (name text : String) : Element := ⟨⟨name, none⟩, [], [.text text]⟩

/-- A list of texts of pairs. -/
def pairsOf (texts : List Element) : Element :=
  ⟨⟨"pairs", none⟩, [], texts.map .ofElement⟩

theorem isIteration_pairParticles {run : List Element} :
    Particle.IsIteration pairParticles run ↔
      run.map (·.name) = [⟨"b", none⟩] ∨
        run.map (·.name) = [⟨"a", none⟩, ⟨"b", none⟩] := by
  constructor
  · rintro ⟨word, ⟨first, _, missing, ⟨second, _, once, ⟨_, rfl⟩, rfl⟩, whole⟩, names⟩
    cases once.of_once
    rcases missing.eq_nil_or_spells rfl with rfl | rfl
    · have spelled : word.map some = [textDecl "b"].map some := whole.symm
      rw [List.map_injective_iff.2 (Option.some_injective _) spelled] at names
      exact .inl names
    · have spelled : word.map some = [textDecl "a", textDecl "b"].map some :=
        whole.symm
      rw [List.map_injective_iff.2 (Option.some_injective _) spelled] at names
      exact .inr names
  · have last : Particle.SpellsAll .sequence
        [.element .once (textDecl "b")] [some (textDecl "b")] :=
      ⟨[_], [], .once rfl, ⟨by simp, rfl⟩, rfl⟩
    rintro (names | names)
    · have missing : (Particle.element ⟨0, some 1⟩ (textDecl "a")).Spells [] :=
        ⟨[], rfl, by simp, by simp, by simp⟩
      exact ⟨[textDecl "b"], ⟨[], _, missing, last, rfl⟩, names⟩
    · have first : (Particle.element ⟨0, some 1⟩ (textDecl "a")).Spells
          [some (textDecl "a")] := ⟨[[_]], rfl, by simp, by simp, by simp⟩
      exact ⟨[textDecl "a", textDecl "b"], ⟨[_], _, first, last, rfl⟩, names⟩

/-- Pairs begin with a pair, and its first text tells which. -/
theorem exists_pair_of_flatten {iterations : List (List Element)} {first : Element}
    {others : List Element} (whole : iterations.flatten = first :: others)
    (each : ∀ run ∈ iterations, Particle.IsIteration pairParticles run) :
    (first.name = ⟨"b", none⟩ ∧ ∃ rest, iterations = [first] :: rest ∧
      rest.flatten = others) ∨
    (first.name = ⟨"a", none⟩ ∧ ∃ second rest,
      iterations = [first, second] :: rest ∧ second :: rest.flatten = others) := by
  cases iterations with
  | nil => cases whole
  | cons run rest =>
      rcases isIteration_pairParticles.1 (each run List.mem_cons_self) with
        names | names
      · obtain ⟨x, rfl, name⟩ := List.map_eq_singleton_iff.1 names
        obtain ⟨rfl, later⟩ := List.cons.inj whole
        exact .inl ⟨name, rest, rfl, later⟩
      · obtain ⟨x, _, rfl, name, names⟩ := List.map_eq_cons_iff.1 names
        obtain ⟨y, rfl, _⟩ := List.map_eq_singleton_iff.1 names
        obtain ⟨rfl, later⟩ := List.cons.inj whole
        exact .inr ⟨name, y, rest, rfl, later⟩

namespace Graph

/-- Two pairs with both texts are two rounds, and they can be converted. -/
theorem rounds_pairs :
    ofComponents pairComponents none = .ok pairGraph ∧
    ∃ roles, ∃ slots : Slots, ∃ rounds : List (List Element × Slots),
        pairGraph.HoldsSequence pairComponents roles 0 pairListRecord 0 pairRoundRecord
          pairParticles ∧
        pairGraph.convert .utc 0 (pairsOf [pairText "a" "1", pairText "b" "2",
          pairText "a" "3", pairText "b" "4"]) = .ok (.record slots) ∧
        slots.get? 0 =
          some (.array (rounds.map fun round => .record round.2)) ∧
        rounds.map (·.1) = [[pairText "a" "1", pairText "b" "2"],
          [pairText "a" "3", pairText "b" "4"]] := by
  obtain ⟨roots, roles, root, chosen, depicts, each⟩ :=
    rounds_eq_iterations_iff_of_ofComponents ofComponents_pairComponents
  cases chosen
  have holds := holdsSequence_pairGraph depicts
  obtain ⟨_, distributes, cuts⟩ := each _ _ _ _ _ holds
  obtain ⟨value, converted⟩ : ∃ value, pairGraph.convert .utc 0
      (pairsOf [pairText "a" "1", pairText "b" "2",
        pairText "a" "3", pairText "b" "4"]) = .ok value := ⟨_, rfl⟩
  obtain ⟨slots, rfl, distributed⟩ := distributes _ _ _ converted
  obtain ⟨rounds, held, _, _, same⟩ := cuts .utc _ slots
    [[pairText "a" "1", pairText "b" "2"], [pairText "a" "3", pairText "b" "4"]]
    distributed rfl (by simp [isIteration_pairParticles, pairText])
  refine ⟨ofComponents_pairComponents, roles, slots, rounds, holds, converted,
    held, same.2 ⟨by simp, ?_⟩⟩
  have single : Particle.anyHoldsOne ⟨"a", none⟩ pairParticles = true := by
    decide
  simpa [pairText] using single

/-- The first of two pairs has no first text, so it takes that of the second. -/
theorem rounds_pairs_ne_iterations :
    ofComponents pairComponents none = .ok pairGraph ∧
    ∃ roles root, ∃ slots : Slots,
      pairGraph.Depicts pairComponents pairComponents.SharesName
        pairComponents.roots roles root ∧
      pairGraph.HoldsSequence pairComponents roles 0 pairListRecord 0 pairRoundRecord
        pairParticles ∧
      (∀ iterations : List (List Element),
        iterations.flatten =
            [pairText "b" "1", pairText "a" "2", pairText "b" "3"] ∧
          (∀ run ∈ iterations, Particle.IsIteration pairParticles run) ↔
        iterations = [[pairText "b" "1"], [pairText "a" "2", pairText "b" "3"]]) ∧
      pairGraph.convert .utc 0 (pairsOf
        [pairText "b" "1", pairText "a" "2", pairText "b" "3"]) =
          .ok (.record slots) ∧
      ¬ ∃ rounds : List (List Element × Slots),
        slots.get? 0 =
            some (.array (rounds.map fun round => .record round.2)) ∧
          rounds.map (·.1) =
            [[pairText "b" "1"], [pairText "a" "2", pairText "b" "3"]] ∧
          ∀ round ∈ rounds,
            pairGraph.Distributes .utc pairRoundRecord round.1 round.2 := by
  obtain ⟨roots, roles, root, chosen, depicts⟩ := exists_depicts_of_ofComponents
    (Lowering.identifies_sharesName pairComponents) ofComponents_pairComponents
  cases chosen
  have converted : pairGraph.convert .utc 0 (pairsOf
      [pairText "b" "1", pairText "a" "2", pairText "b" "3"]) =
        .ok (.record [some (.array [
          .record [some (.string "2"), some (.string "1")],
          .record [none, some (.string "3")]])]) := rfl
  refine ⟨ofComponents_pairComponents, roles, root, _, depicts,
    holdsSequence_pairGraph depicts, ?_, converted, ?_⟩
  · intro iterations
    constructor
    · rintro ⟨whole, each⟩
      rcases exists_pair_of_flatten whole each with
        ⟨_, rest, rfl, later⟩ | ⟨name, _⟩
      · have eachLater := (List.forall_mem_cons.1 each).2
        rcases exists_pair_of_flatten later eachLater with
          ⟨name, _⟩ | ⟨_, second, rest, rfl, last⟩
        · exact absurd name (by decide)
        · obtain ⟨rfl, done⟩ := List.cons.inj last
          cases rest with
          | nil => rfl
          | cons run rest =>
              obtain ⟨rfl, _⟩ := List.append_eq_nil_iff.1 done
              have empty := each [] (by simp)
              simp [isIteration_pairParticles] at empty
      · exact absurd name (by decide)
    · rintro rfl
      simp [isIteration_pairParticles, pairText]
  · rintro ⟨rounds, held, runs, each⟩
    obtain ⟨⟨_, slots⟩, others, rfl, rfl, _⟩ := List.map_eq_cons_iff.1 runs
    have items := Value.array.inj (Option.some.inj held)
    obtain rfl := Value.record.inj (List.cons.inj items).1
    have listed : pairRoundRecord.fields[0]? = some _ := rfl
    have received := (each _ List.mem_cons_self).receives listed (.inl ⟨_, rfl⟩)
    change Receives _ _ _ [] (some (.string "2")) at received
    cases received

end Graph

end XmlRecords
