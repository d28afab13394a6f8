import XmlRecords.Proofs.LoweredGraph
import XmlRecords.Proofs.PlannedGraph

/-!
# Lowered graphs are well-formed

A record has one field at most for text and for either kind of wildcard, since no
plan has more: a type has one text, and wildcards of a kind are merged.  The
names of its fields were handed out by one namer, and what its fields lead to is
known from lowering.  Together with the rules that references keep this is all
that a reader of a graph relies on.
-/

namespace XmlRecords

open Lowering

theorem count_addPlan_le (origin : Origin) (plans : List FieldPlan)
    (plan : FieldPlan) :
    ((addPlan plans plan).map (·.origin)).count origin ≤
      (plans.map (·.origin)).count origin + [plan.origin].count origin := by
  rw [addPlan]
  split
  · exact Nat.le_add_right _ _
  · rw [List.map_append, List.count_append]
    exact Nat.le_refl _

theorem count_mergePlans_le (origin : Origin) (plans more : List FieldPlan) :
    ((mergePlans plans more).map (·.origin)).count origin ≤
      (plans.map (·.origin)).count origin +
        (more.map (·.origin)).count origin := by
  induction more generalizing plans with
  | nil => exact Nat.le_add_right _ _
  | cons plan rest ih =>
      have first := count_addPlan_le origin plans plan
      have later := ih (addPlan plans plan)
      have together : ((plan :: rest).map (·.origin)).count origin =
          [plan.origin].count origin + (rest.map (·.origin)).count origin := by
        rw [List.map_cons, ← List.singleton_append, List.count_append]
      rw [together]
      exact later.trans (by omega)

/-- Wildcards of a kind are merged into one. -/
theorem count_wildcard_addPlan_le_one {origin : Origin} {plans : List FieldPlan}
    (wildcard : origin = .elementWildcard ∨ origin = .attributeWildcard)
    (single : (plans.map (·.origin)).count origin ≤ 1) (plan : FieldPlan) :
    ((addPlan plans plan).map (·.origin)).count origin ≤ 1 := by
  by_cases here : plan.origin = origin
  · have isWildcard : plan.isWildcard := by
      rcases wildcard with rfl | rfl <;> simp [FieldPlan.isWildcard, here]
    rw [addPlan, isWildcard, Bool.true_and, here]
    split
    · exact single
    · next missing =>
        have absent : (plans.map (·.origin)).count origin = 0 := by
          rw [List.count_eq_zero]
          intro member
          obtain ⟨other, present, same⟩ := List.mem_map.1 member
          exact missing (List.any_eq_true.2 ⟨other, present, beq_iff_eq.2 same⟩)
        rw [List.map_append, List.count_append, absent, List.map_singleton, here]
        simp
  · have bound := count_addPlan_le origin plans plan
    have apart : [plan.origin].count origin = 0 :=
      List.count_eq_zero.2 (by simpa [eq_comm] using here)
    omega

theorem count_wildcard_mergePlans_le_one {origin : Origin}
    {plans : List FieldPlan}
    (wildcard : origin = .elementWildcard ∨ origin = .attributeWildcard)
    (single : (plans.map (·.origin)).count origin ≤ 1) (more : List FieldPlan) :
    ((mergePlans plans more).map (·.origin)).count origin ≤ 1 := by
  induction more generalizing plans with
  | nil => exact single
  | cons plan rest ih =>
      exact ih (count_wildcard_addPlan_le_one wildcard single plan)

theorem Particle.text_not_mem_planAll (optional : Bool)
    (particles : List Particle) :
    .text ∉ (Particle.planAll optional particles).map (·.origin) := by
  intro member
  obtain ⟨plan, planned, same⟩ := List.mem_map.1 member
  have children := (Particle.isFor_of_mem_planAll particles planned).origin_cases
  simp [same] at children

/-- A type has no more text than its simple content. -/
theorem ComplexType.count_text_plan_le_one (type : ComplexType) :
    (type.plan.map (·.origin)).count .text ≤ 1 := by
  have content : .text ∉
      (type.content.elim [] (Particle.plan false)).map (·.origin) := by
    cases type.content with
    | none => simp
    | some particle =>
        intro member
        obtain ⟨plan, planned, same⟩ := List.mem_map.1 member
        have children := (particle.isFor_of_mem_plan planned).origin_cases
        simp [same] at children
  have attributes : .text ∉
      (type.attributes.map FieldPlan.ofAttribute).map (·.origin) := by
    simp [FieldPlan.ofAttribute]
  have others : .text ∉ (if type.anyAttribute
      then [FieldPlan.ofWildcard .attributeWildcard] else []).map (·.origin) := by
    split <;> simp [FieldPlan.ofWildcard]
  rw [ComplexType.plan, List.map_append, List.map_append, List.map_append,
    List.count_append, List.count_append, List.count_append,
    List.count_eq_zero.2 content, List.count_eq_zero.2 attributes,
    List.count_eq_zero.2 others]
  cases type.simpleContent <;> simp [FieldPlan.ofText]

theorem Components.count_text_plan_le_one (components : Components)
    (role : Role) :
    ((components.plan role).map (·.origin)).count .text ≤ 1 := by
  refine (count_mergePlans_le .text [] (components.rolePlan role)).trans ?_
  rw [List.map_nil, List.count_nil, Nat.zero_add]
  cases role with
  | type id => exact (components.typeAt id).count_text_plan_le_one
  | group compositor particles =>
      have absent := Particle.text_not_mem_planAll (compositor == .choice)
        particles
      exact (List.count_eq_zero.2 absent).trans_le (Nat.zero_le 1)
  | document roots =>
      have absent : .text ∉
          (roots.map (FieldPlan.ofElement false true)).map (·.origin) := by
        simp [FieldPlan.ofElement]
      exact (List.count_eq_zero.2 absent).trans_le (Nat.zero_le 1)

/-- Where an origin comes up once at most, its place is found. -/
theorem findIdx?_origin_eq_some_iff {fields : List Field} {origin : Origin}
    (single : (fields.map (·.origin)).count origin ≤ 1) (index : Nat) :
    fields.findIdx? (·.origin == origin) = some index ↔
      ∃ field, fields[index]? = some field ∧ field.origin = origin := by
  refine ⟨Record.exists_field_of_findIdx?, ?_⟩
  rintro ⟨field, found, same⟩
  induction fields generalizing index with
  | nil => simp at found
  | cons first rest ih =>
      rw [List.map_cons, List.count_cons] at single
      by_cases here : first.origin = origin
      · simp only [here, beq_self_eq_true, if_true] at single
        have absent : origin ∉ rest.map (·.origin) := by
          rw [← List.count_eq_zero]
          omega
        cases index with
        | zero => simp [List.findIdx?_cons, here]
        | succ index =>
            have member : field ∈ rest := List.mem_of_getElem? found
            exact absurd (List.mem_map.2 ⟨field, member, same⟩) absent
      · simp only [beq_iff_eq, here, if_false, Nat.add_zero] at single
        cases index with
        | zero =>
            cases found
            exact absurd same here
        | succ index =>
            simp [List.findIdx?_cons, here, ih single index found]

namespace Graph

/-- What readers rely on in a record: its fields have distinct valid names, the
special places are those of the only fields for text and for what has no field of
its own, and these fields and those of groups lead to the right kinds of nodes. -/
structure WellFormedRecord (graph : Graph) (r : Record) : Prop where
  distinct : (r.fields.map (·.name)).Nodup
  names : ∀ field ∈ r.fields, FieldName.IsName field.name ∧
    FieldName.isReserved field.name = false
  text : ∀ index, r.text = some index ↔
    ∃ field, r.fields[index]? = some field ∧ field.origin = .text
  elementWildcard : ∀ index, r.elementWildcard = some index ↔
    ∃ field, r.fields[index]? = some field ∧ field.origin = .elementWildcard
  attributeWildcard : ∀ index, r.attributeWildcard = some index ↔
    ∃ field, r.fields[index]? = some field ∧ field.origin = .attributeWildcard
  wildcards : ∀ field ∈ r.fields,
    field.origin = .elementWildcard ∨ field.origin = .attributeWildcard →
      ∃ values, graph.node? field.node = some (.map values)
  texts : ∀ field ∈ r.fields, field.origin = .text →
    graph.IsPrimitive field.node
  groups : ∀ field ∈ r.fields, field.origin = .group →
    ∃ item, graph.node? field.node = some (.array item) ∧ graph.IsRound item

/-- What readers rely on in a graph: its references stay within it, its wrappers
are behind what they are around and never around each other, each primitive has
one node, only the root stands for the choice of a document element, and its
records are well-formed. -/
structure WellFormed (graph : Graph) : Prop where
  rooted : ∃ root, graph.root = some root ∧ root < graph.nodes.size
  closed : ∀ id node, graph.node? id = some node →
    ∀ target ∈ node.targets, target < graph.nodes.size
  optionals : ∀ id inner, graph.node? id = some (.optional inner) →
    inner < id ∧ (graph.IsPrimitive inner ∨ ∃ r, graph.record? inner = some r)
  arrays : ∀ id item, graph.node? id = some (.array item) →
    item < id ∧ (graph.IsPrimitive item ∨ ∃ r, graph.record? item = some r)
  maps : ∀ id values, graph.node? id = some (.map values) →
    values < id ∧ graph.node? values = some (.primitive .string none)
  primitives : ∀ kind logical id other,
    graph.node? id = some (.primitive kind logical) →
      graph.node? other = some (.primitive kind logical) → id = other
  documents : ∀ id r, graph.record? id = some r → r.source = .document →
    graph.root = some id
  records : ∀ id r, graph.record? id = some r → graph.WellFormedRecord r

variable {graph : Graph} {id : Nat}

theorem IsBase.primitive_or_record (base : graph.IsBase id) :
    graph.IsPrimitive id ∨ ∃ r, graph.record? id = some r :=
  base.imp_right fun ⟨r, found, _⟩ => ⟨r, found⟩

theorem IsRound.exists_record (round : graph.IsRound id) :
    ∃ r, graph.record? id = some r := by
  obtain ⟨r, _, found, _⟩ := round
  exact ⟨r, found⟩

/-- A record that follows its role is well-formed if its fields hold what their
origins ask for. -/
theorem Follows.wellFormed {components : Components} {same : Nat → Nat → Prop}
    {roles : Nat → Role} {r : Record}
    (follows : graph.Follows components same roles id r) (indexed : r.Indexed)
    (holds : ∀ field ∈ r.fields, graph.Holds id field.origin field.node) :
    graph.WellFormedRecord r := by
  have origins := map_origin_eq follows.fields
  obtain ⟨valid, distinct⟩ := Namer.claimAll_distinct {}
    ((components.plan (roles id)).map (·.raw))
  rw [← follows.names] at valid distinct
  have text : (r.fields.map (·.origin)).count .text ≤ 1 :=
    origins ▸ components.count_text_plan_le_one (roles id)
  have wildcard : ∀ origin,
      origin = .elementWildcard ∨ origin = .attributeWildcard →
        (r.fields.map (·.origin)).count origin ≤ 1 := by
    intro origin isWildcard
    rw [origins]
    exact count_wildcard_mergePlans_le_one isWildcard (by simp) _
  refine ⟨distinct, ?_, ?_, ?_, ?_, ?_, ?_, ?_⟩
  · intro field member
    obtain ⟨free, isName⟩ := valid field.name (List.mem_map_of_mem member)
    exact ⟨isName, Namer.isReserved_of_isFree free⟩
  · intro index
    rw [← indexed]
    exact findIdx?_origin_eq_some_iff text index
  · intro index
    rw [← indexed]
    exact findIdx?_origin_eq_some_iff (wildcard _ (.inl rfl)) index
  · intro index
    rw [← indexed]
    exact findIdx?_origin_eq_some_iff (wildcard _ (.inr rfl)) index
  · intro field member isWildcard
    have held := holds field member
    rcases isWildcard with same | same
    all_goals
      rw [same] at held
      obtain ⟨values, found, _⟩ := held
      exact ⟨values, found⟩
  · intro field member same
    have held := holds field member
    rw [same] at held
    exact held
  · intro field member same
    have held := holds field member
    rw [same] at held
    obtain ⟨item, found, round, _⟩ := held
    exact ⟨item, found, round⟩

theorem Depicts.wellFormedRecord {components : Components} {same : Nat → Nat → Prop}
    {graph : Graph} {roots : List ElementDecl} {roles : Nat → Role}
    {root first : Nat} {allowed : QName → Prop}
    (depicts : graph.Depicts components same roots roles root)
    (lowered : graph.Lowered allowed first) {id : Nat} {r : Record}
    (found : graph.record? id = some r) : graph.WellFormedRecord r := by
  have fits := lowered.fits id _ (record?_eq_some_iff.1 found)
  exact (depicts.follows id r found).wellFormed (fits.indexed r rfl) (fits.holds r rfl)

/-- Whatever graph is made from components is well-formed. -/
theorem wellFormed_ofComponents {components : Components}
    {wanted : Option String} {graph : Graph}
    (built : ofComponents components wanted = .ok graph) : graph.WellFormed := by
  obtain ⟨root, lowered⟩ := exists_lowered_ofComponents built
  obtain ⟨_, roles, _, _, depicts⟩ :=
    exists_depicts_of_ofComponents (Lowering.identifies_any components) built
  have below : ∀ id node, graph.node? id = some node → node.isWrapper →
      ∀ target ∈ node.targets, target < id := lowered.linked.descends
  refine ⟨⟨root, lowered.rooted, lowered.linked.known root (by simp)⟩,
    lowered.linked.closed, ?_, ?_, ?_, depicts.interned, ?_, ?_⟩
  · intro id inner found
    have base : graph.IsBase inner := (lowered.fits id _ found).wraps
    exact ⟨below id _ found rfl inner (by simp [Node.targets]),
      base.primitive_or_record⟩
  · intro id item found
    have wraps : graph.IsBase item ∨ graph.IsRound item :=
      (lowered.fits id _ found).wraps
    refine ⟨below id _ found rfl item (by simp [Node.targets]), ?_⟩
    rcases wraps with base | round
    · exact base.primitive_or_record
    · exact .inr round.exists_record
  · intro id values found
    exact ⟨below id _ found rfl values (by simp [Node.targets]),
      (lowered.fits id _ found).wraps⟩
  · intro id r found document
    rw [lowered.documents id r found document]
    exact lowered.rooted
  · intro id r found
    exact depicts.wellFormedRecord lowered found

theorem wellFormed_reportGraph :
    ofComponents reportComponents none = .ok reportGraph ∧
      reportGraph.WellFormed :=
  ⟨ofComponents_reportComponents,
    wellFormed_ofComponents ofComponents_reportComponents⟩

end Graph

end XmlRecords
