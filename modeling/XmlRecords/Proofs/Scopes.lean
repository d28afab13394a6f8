import XmlRecords.Proofs.Coverage
import XmlRecords.Proofs.Roles

/-!
# Scopes of types without names

While a type without a name is open, whatever refers to it leads to the record
that is being made for it.  Records are completed in the reverse order in which
they were begun, so all that was made for a type stands in one stretch of the
graph: from its record to where the graph ended when that was complete.
-/

namespace XmlRecords

open Lowering

/-- What the record is for that a field of a kind leads to. -/
def FieldKind.role? : FieldKind → Option Role
  | .one (.complex type) | .optional (.complex type) | .many (.complex type) =>
      some (.type type)
  | .rounds compositor particles => some (.group compositor particles)
  | .one (.simple _) | .optional (.simple _) | .many (.simple _) | .texts => none

namespace Graph

variable {components : Components} {same : Nat → Nat → Prop}
  {graph later : Graph} {roles roles' : Nat → Role} {opened opened' : List Nat}
  {kind : FieldKind} {id target type first start stop : Nat}

theorem Represents.lt_size {type : TypeRef}
    (represents : graph.Represents same roles type id) :
    id < graph.nodes.size := by
  obtain ⟨_, found, _⟩ := represents.exists_node
  exact lt_size_of_node? found

/-- What was planned for a field is in the graph. -/
theorem Realizes.lt_size (realizes : graph.Realizes same roles kind id) :
    id < graph.nodes.size := by
  cases kind with
  | one type => exact Represents.lt_size realizes
  | optional type | many type =>
      obtain ⟨_, found, _⟩ := realizes
      exact lt_size_of_node? found
  | rounds compositor particles =>
      obtain ⟨_, _, found, _⟩ := realizes
      exact lt_size_of_node? found
  | texts =>
      obtain ⟨_, found, _⟩ := realizes
      exact lt_size_of_node? found

theorem forall_lt_size_of_keeps {plans : List FieldPlan} {fields : List Field}
    (kept : List.Forall₂ (graph.Keeps same roles) plans fields) :
    ∀ field ∈ fields, field.node < graph.nodes.size := by
  induction kept with
  | nil => simp
  | cons first _ ih => exact List.forall_mem_cons.2 ⟨first.2.lt_size, ih⟩

/-- A field for a type leads to the record with a number. -/
def Heeds (graph : Graph) (type target : Nat) (kind : FieldKind) (id : Nat) :
    Prop :=
  kind.role? = some (.type type) → graph.StandsFor id target

theorem Heeds.mono (growth : graph.Extends later)
    (heeds : graph.Heeds type target kind id) :
    later.Heeds type target kind id :=
  fun role => (heeds role).mono growth

/-- The node holds what was planned for a field, a field for an open type leads to
the record that is being made, and all records from a number on are behind the
node. -/
structure Suits (graph : Graph) (same : Nat → Nat → Prop) (roles : Nat → Role)
    (scope : List (Nat × Nat)) (start : Nat) (kind : FieldKind) (id : Nat) :
    Prop where
  realizes : graph.Realizes same roles kind id
  heeds : ∀ type target, scope.lookup type = some target →
    graph.Heeds type target kind id
  covered : graph.Covered start [id]

namespace Suits

variable {scope : List (Nat × Nat)} {type : TypeRef} {inner : Nat}

theorem of_role?_eq_none (realizes : graph.Realizes same roles kind id)
    (plain : kind.role? = none) (covered : graph.Covered start [id]) :
    graph.Suits same roles scope start kind id :=
  ⟨realizes, fun _ _ _ role => by simp [plain] at role, covered⟩

/-- A wrapper leads to where the node in it leads. -/
theorem wrapped (suits : graph.Suits same roles scope start (.one type) inner)
    {wrapper : Node}
    (wraps : wrapper = .optional inner ∨ wrapper = .array inner)
    (role : kind.role? = (FieldKind.one type).role?)
    (realizes : (graph.add wrapper).2.Realizes same roles kind
      graph.nodes.size) :
    (graph.add wrapper).2.Suits same roles scope start kind graph.nodes.size := by
  obtain ⟨node, found, plain⟩ := Represents.exists_node suits.realizes
  refine ⟨realizes, ?_, suits.covered.wrap found plain wraps⟩
  intro number target known isRole
  have leads := (suits.heeds number target known
    (role.symm.trans isRole)).eq_of_isWrapper_eq_false found plain
  refine .inr ?_
  rw [node?_add_size, leads]
  exact wraps.imp (congrArg some) (congrArg some)

theorem optional (suits : graph.Suits same roles scope start (.one type) inner) :
    (graph.add (.optional inner)).2.Suits same roles scope start (.optional type)
      graph.nodes.size := by
  refine suits.wrapped (.inl rfl) (by cases type <;> rfl)
    ⟨inner, node?_add_size _ _, ?_⟩
  exact (Continues.of_extends (.add graph _) roles).represents suits.realizes

theorem many (suits : graph.Suits same roles scope start (.one type) inner) :
    (graph.add (.array inner)).2.Suits same roles scope start (.many type)
      graph.nodes.size := by
  refine suits.wrapped (.inr rfl) (by cases type <;> rfl)
    ⟨inner, node?_add_size _ _, ?_⟩
  exact (Continues.of_extends (.add graph _) roles).represents suits.realizes

end Suits

/-- Of a type there is a record at the beginning of a stretch of the graph where
every record is complete, leads no further than the stretch, and leads to the
beginning for the type.  Every other record there is in a field of one in front
of it. -/
structure Encloses (graph : Graph) (components : Components) (roles : Nat → Role)
    (opened : List Nat) (type first stop : Nat) : Prop where
  begins : first < stop
  ends : stop ≤ graph.nodes.size
  complete : ∀ id ∈ opened, id < first ∨ stop ≤ id
  heeds : ∀ id r, first ≤ id → id < stop → graph.record? id = some r →
    List.Forall₂ (fun plan field => graph.Heeds type first plan.kind field.node)
      (components.plan (roles id)) r.fields
  within : ∀ id r, first ≤ id → id < stop → graph.record? id = some r →
    ∀ field ∈ r.fields, field.node < stop
  covered : ∀ id r, first < id → id < stop → graph.record? id = some r →
    ∃ owner, first ≤ owner ∧ owner < id ∧ graph.HasField owner id

/-- A stretch of complete records stays as it is. -/
theorem Encloses.mono (growth : graph.Continues roles later roles')
    (settled : graph.Settled opened later)
    (fewer : ∀ id ∈ opened', id ∈ opened ∨ graph.nodes.size ≤ id)
    (encloses : graph.Encloses components roles opened type first stop) :
    later.Encloses components roles' opened' type first stop := by
  have inside := encloses.ends
  have closed : ∀ id, first ≤ id → id < stop → id ∉ opened := by
    intro id behind before isOpen
    rcases encloses.complete id isOpen with apart | apart <;> omega
  have present : ∀ id r, first ≤ id → id < stop → later.record? id = some r →
      graph.record? id = some r := by
    intro id r behind before found
    obtain ⟨r', old⟩ := growth.grows.exists_record_of_lt (by omega) found
    have kept := settled id r' (closed id behind before) old
    rwa [Option.some.inj (found.symm.trans kept)]
  refine ⟨encloses.begins, inside.trans growth.grows.size_le, ?_, ?_, ?_, ?_⟩
  · intro id isOpen
    rcases fewer id isOpen with isOpen | new
    · exact encloses.complete id isOpen
    · exact .inr (inside.trans new)
  · intro id r behind before found
    rw [growth.roles id (by omega)]
    have heeds :=
      encloses.heeds id r behind before (present id r behind before found)
    exact heeds.imp fun _ _ heeds => heeds.mono growth.grows
  · intro id r behind before found
    exact encloses.within id r behind before (present id r behind before found)
  · intro id r behind before found
    obtain ⟨owner, after, inFront, has⟩ := encloses.covered id r behind before
      (present id r (Nat.le_of_lt behind) before found)
    exact ⟨owner, after, inFront,
      has.mono growth.grows settled (closed owner after (by omega))⟩

end Graph

namespace Lowering

variable {components : Components} {b c : Builder} {roles roles' : Nat → Role}
  {opened opened' : List Nat}

/-- What lowering keeps of the records that are open, the last begun first: every
complete record behind that of an open type heeds it, and each complete record of
a type without a name encloses what was made for it. -/
structure Builder.Scoped (components : Components) (b : Builder)
    (roles : Nat → Role) (opened : List Nat) : Prop where
  stacked : (b.graph.nodes.size :: opened).Pairwise (· > ·)
  heeded : ∀ type node, b.anonymous.lookup type = some node →
    ∀ id r, node < id → id ∉ opened → b.graph.record? id = some r →
      List.Forall₂ (fun plan field =>
          b.graph.Heeds type node plan.kind field.node)
        (components.plan (roles id)) r.fields
  enclosed : ∀ id r type, b.graph.record? id = some r → id ∉ opened →
    roles id = .type type → (components.typeAt type).name = none →
      ∃ stop, b.graph.Encloses components roles opened type id stop

namespace Builder.Scoped

theorem empty (components : Components) (roles : Nat → Role) :
    ({} : Builder).Scoped components roles [] where
  stacked := List.pairwise_singleton _ _
  heeded := by simp
  enclosed := by simp [Graph.record?, Graph.node?]

theorem lt_size (nested : b.Scoped components roles opened) :
    ∀ id ∈ opened, id < b.graph.nodes.size :=
  (List.pairwise_cons.1 nested.stacked).1

theorem lt_head {owner : Nat}
    (nested : b.Scoped components roles (owner :: opened)) :
    ∀ id ∈ owner :: opened, id < owner + 1 := by
  have stacked := (List.pairwise_cons.1 nested.stacked).2
  intro id isOpen
  rcases List.mem_cons.1 isOpen with rfl | isOpen
  · exact Nat.lt_succ_self _
  · exact Nat.lt_succ_of_lt ((List.pairwise_cons.1 stacked).1 id isOpen)

/-- The scopes stay as they are while no record is completed. -/
theorem mono (nested : b.Scoped components roles opened)
    (growth : b.graph.Continues roles c.graph roles')
    (settled : b.graph.Settled opened c.graph)
    (stacked : (c.graph.nodes.size :: opened').Pairwise (· > ·))
    (fewer : ∀ id ∈ opened', id ∈ opened ∨ b.graph.nodes.size ≤ id)
    (old : ∀ id r, id ∉ opened' → c.graph.record? id = some r →
      id ∉ opened ∧ b.graph.record? id = some r)
    (scope : ∀ type node, c.anonymous.lookup type = some node →
      b.anonymous.lookup type = some node ∨ c.graph.nodes.size ≤ node + 1) :
    c.Scoped components roles' opened' where
  stacked := stacked
  heeded := by
    intro type node known id r behind closed found
    obtain ⟨closed, present⟩ := old id r closed found
    rcases scope type node known with known | last
    · rw [growth.role (Graph.record?_eq_some_iff.1 present)]
      exact (nested.heeded type node known id r behind closed present).imp
        fun _ _ heeds => heeds.mono growth.grows
    · have inside := Graph.lt_size_of_node? (Graph.record?_eq_some_iff.1 found)
      omega
  enclosed := by
    intro id r type found closed role unnamed
    obtain ⟨closed, present⟩ := old id r closed found
    rw [growth.role (Graph.record?_eq_some_iff.1 present)] at role
    obtain ⟨stop, encloses⟩ :=
      nested.enclosed id r type present closed role unnamed
    exact ⟨stop, encloses.mono growth settled fewer⟩

/-- A record is begun, of which the table of the open types may know. -/
theorem begin {begun : Record} (nested : b.Scoped components roles opened)
    (role : Role) (graph : c.graph = (b.graph.add (.record begun)).2)
    (scope : ∀ type id, c.anonymous.lookup type = some id →
      b.anonymous.lookup type = some id ∨ id = b.graph.nodes.size) :
    c.Scoped components (Function.update roles b.graph.nodes.size role)
      (b.graph.nodes.size :: opened) := by
  refine nested.mono (graph ▸ .add b.graph roles _ role)
    (graph ▸ .add b.graph opened _) ?_ ?_ ?_ ?_
  · rw [graph, Graph.size_add, List.pairwise_cons]
    refine ⟨fun id isOpen => ?_, nested.stacked⟩
    rcases List.mem_cons.1 isOpen with rfl | isOpen
    · exact Nat.lt_succ_self _
    · exact Nat.lt_succ_of_lt (nested.lt_size id isOpen)
  · intro id isOpen
    rcases List.mem_cons.1 isOpen with rfl | isOpen
    · exact .inr (Nat.le_refl _)
    · exact .inl isOpen
  · intro id r closed found
    rw [List.mem_cons, not_or] at closed
    rcases Graph.record?_add_record_cases (graph ▸ found) with new | present
    · exact absurd new.1 closed.1
    · exact ⟨closed.2, present⟩
  · intro type id known
    refine (scope type id known).imp_right fun new => ?_
    rw [graph, Graph.size_add, new]

/-- The record that was begun last is completed.  All behind it was made while it
was open, so it heeds the type of the record, as its own fields do. -/
theorem finish {owner : Nat} {fields : List Field} {begun : Record}
    (nested : b.Scoped components roles (owner :: opened))
    (found : b.graph.record? owner = some begun)
    (inside : ∀ id r, (b.graph.setFields owner fields).record? id = some r →
      id ∉ opened → ∀ field ∈ r.fields, field.node < b.graph.nodes.size)
    (heeds : ∀ type node, b.anonymous.lookup type = some node →
      List.Forall₂ (fun plan field =>
          b.graph.Heeds type node plan.kind field.node)
        (components.plan (roles owner)) fields)
    (covered : b.graph.Covered (owner + 1) (fields.map (·.node)))
    (own : ∀ type, roles owner = .type type →
      (components.typeAt type).name = none →
        b.anonymous.lookup type = some owner) :
    ({ b with graph := b.graph.setFields owner fields } : Builder).Scoped
      components roles opened := by
  have growth : b.graph.Continues roles (b.graph.setFields owner fields)
      roles := .of_extends (.setFields b.graph owner fields) roles
  have stacked := (List.pairwise_cons.1 nested.stacked).2
  have onTop := (List.pairwise_cons.1 stacked).1
  have heeded : ∀ type node, b.anonymous.lookup type = some node →
      ∀ id r, node < id ∨ id = owner → id ∉ opened →
        (b.graph.setFields owner fields).record? id = some r →
          List.Forall₂ (fun plan field =>
              (b.graph.setFields owner fields).Heeds type node plan.kind
                field.node)
            (components.plan (roles id)) r.fields := by
    intro type node known id r place closed found
    rcases Graph.record?_setFields_cases found with
      ⟨rfl, old, _, rfl⟩ | ⟨elsewhere, present⟩
    · exact (heeds type node known).imp fun _ _ heeds => heeds.mono growth.grows
    · exact (nested.heeded type node known id r (place.resolve_right elsewhere)
        (by simp [elsewhere, closed]) present).imp
          fun _ _ heeds => heeds.mono growth.grows
  constructor
  · rw [Graph.size_setFields, List.pairwise_cons]
    exact ⟨fun id isOpen => nested.lt_size id (List.mem_cons_of_mem _ isOpen),
      (List.pairwise_cons.1 stacked).2⟩
  · intro type node known id r behind closed found
    exact heeded type node known id r (.inl behind) closed found
  · intro id r type isRecord closed role unnamed
    rcases Graph.record?_setFields_cases isRecord with
      ⟨rfl, old, _, rfl⟩ | ⟨elsewhere, present⟩
    · have closed' : ∀ other, id ≤ other → other ∉ opened := by
        intro other behind isOpen
        have := onTop other isOpen
        omega
      refine ⟨b.graph.nodes.size, nested.lt_size id List.mem_cons_self,
        (Graph.size_setFields ..).ge,
        fun other isOpen => .inl (onTop other isOpen), ?_, ?_, ?_⟩
      · intro other r' behind _ found'
        exact heeded type id (own type role unnamed) other r' (by omega)
          (closed' other behind) found'
      · intro other r' behind _ found'
        exact inside other r' found' (closed' other behind)
      · intro other r' behind _ found'
        exact covered.finish found other r' behind found'
    · obtain ⟨stop, encloses⟩ := nested.enclosed id r type present
        (by simp [elsewhere, closed]) role unnamed
      exact ⟨stop, encloses.mono growth (.setFields fields)
        fun other isOpen => .inl (List.mem_cons_of_mem _ isOpen)⟩

end Builder.Scoped

end Lowering

end XmlRecords
