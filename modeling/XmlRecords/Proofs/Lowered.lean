import XmlRecords.Graph.Lowering
import XmlRecords.Graph.Provenance
import XmlRecords.Proofs.Growth

/-!
# What lowering makes

Of a graph that comes from components it is known what every node is for:
wrappers stand around primitives and records alone, and the origin of a field
tells what kind of node the field leads to.  None of this is lost while the graph
grows.
-/

namespace XmlRecords

mutual

/-- The names of the elements in a particle. -/
def Particle.names : Particle → List QName
  | .element _ declaration => [declaration.name]
  | .group _ _ particles => Particle.namesOfList particles
  | .wildcard _ | .unsupported _ _ => []

/-- The names of the elements in several particles. -/
def Particle.namesOfList : List Particle → List QName
  | [] => []
  | particle :: rest => particle.names ++ Particle.namesOfList rest

end

/-- The names of the elements and attributes of a complex type. -/
def ComplexType.names (type : ComplexType) : List QName :=
  (type.content.elim [] Particle.names) ++ type.attributes.map (·.name)

/-- The names of all elements and attributes in components. -/
def Components.names (components : Components) : List QName :=
  components.roots.map (·.name) ++
    components.types.toList.flatMap ComplexType.names

namespace Graph

variable {graph later : Graph}

/-- The node is a primitive. -/
def IsPrimitive (graph : Graph) (id : Nat) : Prop :=
  ∃ kind logical, graph.node? id = some (.primitive kind logical)

/-- The node is the record of a type. -/
def IsType (graph : Graph) (id : Nat) : Prop :=
  ∃ r, graph.record? id = some r ∧ r.source = .type

/-- The node stands for a type: it is a primitive or a record. -/
def IsBase (graph : Graph) (id : Nat) : Prop :=
  graph.IsPrimitive id ∨ graph.IsType id

/-- The node is the record of a repeated group. -/
def IsRound (graph : Graph) (id : Nat) : Prop :=
  ∃ r compositor, graph.record? id = some r ∧ r.source = .group compositor

/-- The node is a map to text. -/
def IsTextMap (graph : Graph) (id : Nat) : Prop :=
  ∃ values, graph.node? id = some (.map values) ∧
    graph.node? values = some (.primitive .string none)

/-- The node is for content that may be missing. -/
def IsOptional (graph : Graph) (id : Nat) : Prop :=
  ∃ inner, graph.node? id = some (.optional inner)

/-- The node is what a field of an origin holds in the record with a number.
The rounds of a group come behind the record that the group belongs to. -/
def Holds (graph : Graph) (owner : Nat) : Origin → Nat → Prop
  | .element _, id =>
      graph.IsBase id ∨ ∃ inner, graph.IsBase inner ∧
        (graph.node? id = some (.array inner) ∨
          graph.node? id = some (.optional inner))
  | .attribute _, id =>
      graph.IsPrimitive id ∨ ∃ inner, graph.IsPrimitive inner ∧
        graph.node? id = some (.optional inner)
  | .elementWildcard, id | .attributeWildcard, id => graph.IsTextMap id
  | .group, id =>
      ∃ item, graph.node? id = some (.array item) ∧ graph.IsRound item ∧
        owner < item
  | .text, id => graph.IsPrimitive id

/-- What is around a wrapper: optional and repeated content is that of a type or
of a group, and the values of a map are text. -/
def Wraps (graph : Graph) : Node → Prop
  | .optional inner => graph.IsBase inner
  | .array item => graph.IsBase item ∨ graph.IsRound item
  | .map values => graph.node? values = some (.primitive .string none)
  | _ => True

namespace Extends

theorem isPrimitive {id : Nat} (growth : graph.Extends later)
    (primitive : graph.IsPrimitive id) : later.IsPrimitive id := by
  obtain ⟨kind, logical, found⟩ := primitive
  exact ⟨kind, logical, growth.primitive found⟩

theorem isType {id : Nat} (growth : graph.Extends later)
    (type : graph.IsType id) : later.IsType id := by
  obtain ⟨r, found, source⟩ := type
  obtain ⟨r', found', _, same⟩ := growth.record found
  exact ⟨r', found', same.trans source⟩

theorem isBase {id : Nat} (growth : graph.Extends later)
    (base : graph.IsBase id) : later.IsBase id :=
  base.imp growth.isPrimitive growth.isType

theorem isRound {id : Nat} (growth : graph.Extends later)
    (round : graph.IsRound id) : later.IsRound id := by
  obtain ⟨r, compositor, found, source⟩ := round
  obtain ⟨r', found', _, same⟩ := growth.record found
  exact ⟨r', compositor, found', same.trans source⟩

theorem isTextMap {id : Nat} (growth : graph.Extends later)
    (map : graph.IsTextMap id) : later.IsTextMap id := by
  obtain ⟨values, found, text⟩ := map
  exact ⟨values, growth.wrapper found rfl, growth.primitive text⟩

theorem isOptional {id : Nat} (growth : graph.Extends later)
    (optional : graph.IsOptional id) : later.IsOptional id := by
  obtain ⟨inner, found⟩ := optional
  exact ⟨inner, growth.wrapper found rfl⟩

theorem holds {owner id : Nat} {origin : Origin}
    (growth : graph.Extends later) (holds : graph.Holds owner origin id) :
    later.Holds owner origin id := by
  cases origin with
  | element name =>
      rcases holds with base | ⟨inner, base, found⟩
      · exact .inl (growth.isBase base)
      · exact .inr ⟨inner, growth.isBase base,
          found.imp (growth.wrapper · rfl) (growth.wrapper · rfl)⟩
  | «attribute» name =>
      rcases holds with primitive | ⟨inner, primitive, found⟩
      · exact .inl (growth.isPrimitive primitive)
      · exact .inr ⟨inner, growth.isPrimitive primitive,
          growth.wrapper found rfl⟩
  | elementWildcard => exact growth.isTextMap holds
  | attributeWildcard => exact growth.isTextMap holds
  | group =>
      obtain ⟨item, found, round, behind⟩ := holds
      exact ⟨item, growth.wrapper found rfl, growth.isRound round, behind⟩
  | text => exact growth.isPrimitive holds

theorem wraps {node : Node} (growth : graph.Extends later)
    (wraps : graph.Wraps node) : later.Wraps node := by
  cases node with
  | optional inner => exact growth.isBase wraps
  | array item => exact wraps.imp growth.isBase growth.isRound
  | map values => exact growth.primitive wraps
  | _ => trivial

end Extends

/-- A table leads to records of types alone. -/
def ListsTypes {κ : Type} [BEq κ] (graph : Graph) (table : List (κ × Nat)) :
    Prop :=
  ∀ key id, table.lookup key = some id → graph.IsType id

namespace ListsTypes

variable {κ : Type} [BEq κ] {table : List (κ × Nat)}

theorem mono (growth : graph.Extends later)
    (types : graph.ListsTypes table) : later.ListsTypes table :=
  fun key id found => growth.isType (types key id found)

theorem cons {key : κ} {id : Nat} (types : graph.ListsTypes table)
    (type : graph.IsType id) : graph.ListsTypes ((key, id) :: table) := by
  intro other value found
  rw [List.lookup_cons] at found
  split at found
  · exact Option.some.inj found ▸ type
  · exact types other value found

end ListsTypes

theorem IsType.lt_size {id : Nat} (type : graph.IsType id) :
    id < graph.nodes.size := by
  obtain ⟨r, found, _⟩ := type
  exact lt_size_of_node? (record?_eq_some_iff.1 found)

theorem IsBase.exists_node {id : Nat} (base : graph.IsBase id) :
    ∃ node, graph.node? id = some node ∧ node.isWrapper = false := by
  rcases base with ⟨kind, logical, found⟩ | ⟨r, found, _⟩
  · exact ⟨_, found, rfl⟩
  · exact ⟨_, record?_eq_some_iff.1 found, rfl⟩

theorem IsRound.exists_node {id : Nat} (round : graph.IsRound id) :
    ∃ node, graph.node? id = some node ∧ node.isWrapper = false := by
  obtain ⟨r, _, found, _⟩ := round
  exact ⟨_, record?_eq_some_iff.1 found, rfl⟩

end Graph

namespace Lowering

/-- Fields that were pushed one after the other. -/
inductive Fields.Made : Fields → Prop where
  | empty : Made {}
  | push {all : Fields} (made : Made all) (raw : String) (origin : Origin)
      (node : Nat) : Made (all.push raw origin node)

/-- A push adds a field for the origin at the end, or nothing where there is a
wildcard already. -/
theorem Fields.push_fields (all : Fields) (raw : String) (origin : Origin)
    (node : Nat) :
    (all.push raw origin node).fields = all.fields ∨
      ∃ name, (all.push raw origin node).fields =
        all.fields ++ [⟨name, origin, node⟩] := by
  rw [Fields.push]
  split
  · exact .inl rfl
  · exact .inr ⟨_, rfl⟩

/-- What is known of a node by its place in a graph that was lowered from
components with names that are allowed.  The fields of a record were pushed one
after the other and hold what their origins ask for. -/
structure NodeFits (allowed : QName → Prop) (graph : Graph) (id : Nat)
    (node : Node) : Prop where
  suited : node.Suited
  wraps : graph.Wraps node
  named : ∀ r, node = .record r → r.name.isSome
  indexed : ∀ r, node = .record r → r.Indexed
  made : ∀ r, node = .record r → ∃ all : Fields, all.Made ∧ all.fields = r.fields
  names : ∀ r, node = .record r → ∀ field ∈ r.fields,
    ∀ name ∈ field.origin.name?, allowed name
  holds : ∀ r, node = .record r → ∀ field ∈ r.fields,
    graph.Holds id field.origin field.node

namespace NodeFits

variable {allowed : QName → Prop} {graph later : Graph} {id : Nat} {node : Node}

theorem mono (growth : graph.Extends later)
    (fits : NodeFits allowed graph id node) :
    NodeFits allowed later id node where
  suited := fits.suited
  wraps := growth.wraps fits.wraps
  named := fits.named
  indexed := fits.indexed
  made := fits.made
  names := fits.names
  holds := fun r same field member =>
    growth.holds (fits.holds r same field member)

theorem primitive {kind : Primitive} {logical : Option Logical}
    (suited : (Node.primitive kind logical).Suited) :
    NodeFits allowed graph id (.primitive kind logical) := by
  refine ⟨suited, trivial, ?_, ?_, ?_, ?_, ?_⟩
  all_goals
    intro r same
    cases same

theorem wrapper (isWrapper : node.isWrapper) (wraps : graph.Wraps node) :
    NodeFits allowed graph id node := by
  have plain : ∀ r, node ≠ .record r := by
    rintro r rfl
    cases isWrapper
  refine ⟨?_, wraps, ?_, ?_, ?_, ?_, ?_⟩
  · cases node with
    | primitive kind logical => cases isWrapper
    | _ => trivial
  all_goals
    intro r same
    exact absurd same (plain r)

theorem emptyRecord (name : QName) (source : RecordSource) :
    NodeFits allowed graph id (.record (.empty (some name) source)) := by
  refine ⟨trivial, trivial, ?_, ?_, ?_, ?_, ?_⟩
  all_goals
    intro r same
    cases same
  · rfl
  · rfl
  · exact ⟨{}, .empty, rfl⟩
  · simp [Record.empty]
  · simp [Record.empty]

/-- A record gets fields that fit. -/
theorem withFields {r : Record} {all : Fields}
    (fits : NodeFits allowed graph id (.record r)) (made : all.Made)
    (names : ∀ field ∈ all.fields, ∀ name ∈ field.origin.name?, allowed name)
    (holds : ∀ field ∈ all.fields,
      graph.Holds id field.origin field.node) :
    NodeFits allowed graph id (.record (r.withFields all.fields)) := by
  refine ⟨trivial, trivial, ?_, ?_, ?_, ?_, ?_⟩
  all_goals
    intro r' same
    cases same
  · exact fits.named r rfl
  · rfl
  · exact ⟨all, made, rfl⟩
  · exact names
  · exact holds

/-- All nodes fit after one was added that does. -/
theorem add (others : ∀ id node, graph.node? id = some node →
      NodeFits allowed graph id node)
    (fits : NodeFits allowed graph graph.nodes.size node) (other : Node)
    (found : (graph.add node).2.node? id = some other) :
    NodeFits allowed (graph.add node).2 id other := by
  rw [Graph.node?_add] at found
  apply mono (Graph.Extends.add graph node)
  split at found
  · next same =>
      cases found
      exact same ▸ fits
  · exact others id other found

end NodeFits

end Lowering

end XmlRecords
