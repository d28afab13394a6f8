import XmlRecords.Proofs.Lowering
import XmlRecords.Proofs.Plan

/-!
# Roles of records

An assignment of roles to nodes says what every record of a graph is for.  A
record follows its role if its fields are those that are planned for the role,
under the names that are handed out in this order, and each of them leads to a
node for what was planned.  All this is kept while the graph grows and roles are
given to new records.
-/

namespace XmlRecords

namespace Graph

variable {components : Components} {same : Nat → Nat → Prop}
  {graph later : Graph} {roles roles' : Nat → Role} {id : Nat}

/-- The node is for a type: it is the primitive that a simple type becomes, or a
record for a complex type that is the `same`. -/
def Represents (graph : Graph) (same : Nat → Nat → Prop) (roles : Nat → Role) :
    TypeRef → Nat → Prop
  | .simple datatype, id =>
      graph.node? id =
        some (.primitive datatype.primitive.1 datatype.primitive.2)
  | .complex type, id =>
      ∃ r other, graph.record? id = some r ∧ roles id = .type other ∧
        same type other

/-- The node holds what was planned for a field. -/
def Realizes (graph : Graph) (same : Nat → Nat → Prop) (roles : Nat → Role) :
    FieldKind → Nat → Prop
  | .one type, id => graph.Represents same roles type id
  | .optional type, id =>
      ∃ inner, graph.node? id = some (.optional inner) ∧
        graph.Represents same roles type inner
  | .many type, id =>
      ∃ item, graph.node? id = some (.array item) ∧
        graph.Represents same roles type item
  | .rounds compositor particles, id =>
      ∃ item r, graph.node? id = some (.array item) ∧
        graph.record? item = some r ∧ roles item = .group compositor particles
  | .texts, id => graph.IsTextMap id

/-- The field is the planned one. -/
def Keeps (graph : Graph) (same : Nat → Nat → Prop) (roles : Nat → Role)
    (plan : FieldPlan) (field : Field) : Prop :=
  field.origin = plan.origin ∧ graph.Realizes same roles plan.kind field.node

/-- The record with a number has the fields that belong to its role, in their
order and under the names that are handed out in this order. -/
structure Follows (graph : Graph) (components : Components)
    (same : Nat → Nat → Prop) (roles : Nat → Role) (id : Nat) (r : Record) :
    Prop where
  source : r.source = (roles id).source
  names : r.fields.map (·.name) =
    (({} : Namer).claimAll ((components.plan (roles id)).map (·.raw))).1
  fields : List.Forall₂ (graph.Keeps same roles) (components.plan (roles id))
    r.fields

/-- A later state of a graph, where nodes that there were keep their roles. -/
structure Continues (graph : Graph) (roles : Nat → Role) (later : Graph)
    (roles' : Nat → Role) : Prop where
  grows : graph.Extends later
  roles : ∀ id < graph.nodes.size, roles' id = roles id

namespace Continues

theorem refl (graph : Graph) (roles : Nat → Role) :
    graph.Continues roles graph roles :=
  ⟨.refl graph, fun _ _ => rfl⟩

theorem of_extends (growth : graph.Extends later) (roles : Nat → Role) :
    graph.Continues roles later roles :=
  ⟨growth, fun _ _ => rfl⟩

theorem trans {last : Graph} {roles'' : Nat → Role}
    (one : graph.Continues roles later roles')
    (two : later.Continues roles' last roles'') :
    graph.Continues roles last roles'' where
  grows := one.grows.trans two.grows
  roles := by
    intro id inside
    have insideLater := Nat.lt_of_lt_of_le inside one.grows.size_le
    rw [two.roles id insideLater, one.roles id inside]

/-- Nothing leads to the number of a new node yet, so it can get any role. -/
theorem add (graph : Graph) (roles : Nat → Role) (node : Node) (role : Role) :
    graph.Continues roles (graph.add node).2
      (Function.update roles graph.nodes.size role) where
  grows := .add graph node
  roles := fun _ inside =>
    Function.update_of_ne (Nat.ne_of_lt inside) role roles

theorem role (growth : graph.Continues roles later roles') {node : Node}
    (found : graph.node? id = some node) : roles' id = roles id :=
  growth.roles id (lt_size_of_node? found)

theorem represents (growth : graph.Continues roles later roles') {type : TypeRef}
    (represents : graph.Represents same roles type id) :
    later.Represents same roles' type id := by
  cases type with
  | simple datatype => exact growth.grows.primitive represents
  | complex type =>
      obtain ⟨r, other, found, role, matching⟩ := represents
      obtain ⟨r', found', _⟩ := growth.grows.record found
      have kept := growth.role (record?_eq_some_iff.1 found)
      exact ⟨r', other, found', kept.trans role, matching⟩

theorem realizes (growth : graph.Continues roles later roles') {kind : FieldKind}
    (realizes : graph.Realizes same roles kind id) :
    later.Realizes same roles' kind id := by
  cases kind with
  | one type => exact growth.represents realizes
  | optional type =>
      obtain ⟨inner, found, represents⟩ := realizes
      exact ⟨inner, growth.grows.wrapper found rfl,
        growth.represents represents⟩
  | many type =>
      obtain ⟨item, found, represents⟩ := realizes
      exact ⟨item, growth.grows.wrapper found rfl,
        growth.represents represents⟩
  | rounds compositor particles =>
      obtain ⟨item, r, found, isRecord, role⟩ := realizes
      obtain ⟨r', isRecord', _⟩ := growth.grows.record isRecord
      have kept := growth.role (record?_eq_some_iff.1 isRecord)
      exact ⟨item, r', growth.grows.wrapper found rfl, isRecord',
        kept.trans role⟩
  | texts => exact growth.grows.isTextMap realizes

theorem keeps (growth : graph.Continues roles later roles') {plan : FieldPlan}
    {field : Field} (keeps : graph.Keeps same roles plan field) :
    later.Keeps same roles' plan field :=
  ⟨keeps.1, growth.realizes keeps.2⟩

theorem follows (growth : graph.Continues roles later roles') {r : Record}
    (inside : id < graph.nodes.size)
    (follows : graph.Follows components same roles id r) :
    later.Follows components same roles' id r where
  source := (growth.roles id inside).symm ▸ follows.source
  names := (growth.roles id inside).symm ▸ follows.names
  fields := (growth.roles id inside).symm ▸ follows.fields.imp
    fun _ _ => growth.keeps

end Continues

theorem map_origin_eq {plans : List FieldPlan} {fields : List Field}
    (kept : List.Forall₂ (graph.Keeps same roles) plans fields) :
    fields.map (·.origin) = plans.map (·.origin) := by
  induction kept with
  | nil => rfl
  | cons first _ ih => rw [List.map_cons, List.map_cons, ih, first.1]

theorem any_origin_eq {plans : List FieldPlan} {fields : List Field}
    (kept : List.Forall₂ (graph.Keeps same roles) plans fields)
    (origin : Origin) :
    fields.any (·.origin == origin) = plans.any (·.origin == origin) := by
  have together := congrArg (List.any · (· == origin)) (map_origin_eq kept)
  rwa [List.any_map, List.any_map] at together

theorem Represents.exists_node {type : TypeRef}
    (represents : graph.Represents same roles type id) :
    ∃ node, graph.node? id = some node ∧ node.isWrapper = false := by
  cases type with
  | simple datatype => exact ⟨_, represents, rfl⟩
  | complex type =>
      obtain ⟨r, _, found, _⟩ := represents
      exact ⟨_, record?_eq_some_iff.1 found, rfl⟩

end Graph

end XmlRecords
