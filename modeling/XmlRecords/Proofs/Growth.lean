import Mathlib.Data.List.Count
import XmlRecords.Components.Basic

/-!
# How graphs grow

A graph grows by nodes that refer to nodes in front of them and by records that
get their fields late.  While it grows some nodes wait to be referred to.  What
is kept all the time is that references stay within the graph, that wrappers
refer to the nodes in front of them, that no wrapper is shared, and that each
primitive has one node.
-/

namespace XmlRecords

/-- The places of the special fields of a record are noted. -/
def Record.Indexed (r : Record) : Prop := r.withFields r.fields = r

theorem Record.indexed_withFields (r : Record) (fields : List Field) :
    (r.withFields fields).Indexed :=
  rfl

namespace Record.Indexed

variable {r : Record}

theorem elementWildcard_eq (indexed : r.Indexed) :
    r.elementWildcard = r.fields.findIdx? (·.origin == .elementWildcard) :=
  (congrArg Record.elementWildcard indexed).symm

theorem attributeWildcard_eq (indexed : r.Indexed) :
    r.attributeWildcard = r.fields.findIdx? (·.origin == .attributeWildcard) :=
  (congrArg Record.attributeWildcard indexed).symm

theorem text_eq (indexed : r.Indexed) :
    r.text = r.fields.findIdx? (·.origin == .text) :=
  (congrArg Record.text indexed).symm

end Record.Indexed

theorem Record.exists_field_of_findIdx? {fields : List Field} {origin : Origin}
    {index : Nat} (found : fields.findIdx? (·.origin == origin) = some index) :
    ∃ field, fields[index]? = some field ∧ field.origin = origin := by
  rw [List.findIdx?_eq_some_iff_getElem] at found
  obtain ⟨inside, same, _⟩ := found
  exact ⟨_, List.getElem?_eq_getElem inside, eq_of_beq same⟩

namespace Node

/-- The nodes that a node refers to, in order. -/
def targets : Node → List Nat
  | .primitive _ _ => []
  | .record r => r.fields.map (·.node)
  | .array item => [item]
  | .optional inner => [inner]
  | .map values => [values]

/-- Recognise the nodes that stand around another one. -/
def isWrapper : Node → Bool
  | .array _ | .optional _ | .map _ => true
  | _ => false

/-- What of a node is settled when it is added: everything but the fields of a
record. -/
def outline : Node → Node
  | .record r => .record (.empty r.name r.source)
  | node => node

/-- Give a node its fields, if it is a record. -/
def withFields (fields : List Field) : Node → Node
  | .record r => .record (r.withFields fields)
  | node => node

@[simp]
theorem outline_withFields (fields : List Field) (node : Node) :
    (node.withFields fields).outline = node.outline := by
  cases node <;> rfl

@[simp]
theorem isWrapper_withFields (fields : List Field) (node : Node) :
    (node.withFields fields).isWrapper = node.isWrapper := by
  cases node <;> rfl

/-- A wrapper is settled when it is added. -/
theorem eq_of_outline_eq {node other : Node} (wrapper : other.isWrapper)
    (same : node.outline = other.outline) : node = other := by
  cases node <;> cases other <;> simp_all [outline, isWrapper]

end Node

namespace Graph

variable {graph : Graph} {pending : List Nat}

@[simp]
theorem size_add (graph : Graph) (node : Node) :
    (graph.add node).2.nodes.size = graph.nodes.size + 1 := by
  simp [add]

theorem node?_add (graph : Graph) (node : Node) (id : Nat) :
    (graph.add node).2.node? id =
      if id = graph.nodes.size then some node else graph.node? id := by
  simp [add, node?, Array.getElem?_push]

theorem node?_add_of_lt (node : Node) {id : Nat}
    (inside : id < graph.nodes.size) :
    (graph.add node).2.node? id = graph.node? id := by
  rw [node?_add, if_neg (Nat.ne_of_lt inside)]

@[simp]
theorem node?_add_size (graph : Graph) (node : Node) :
    (graph.add node).2.node? graph.nodes.size = some node := by
  rw [node?_add, if_pos rfl]

theorem lt_size_of_node? {id : Nat} {node : Node}
    (found : graph.node? id = some node) : id < graph.nodes.size := by
  rw [node?, Array.getElem?_eq_some_iff] at found
  exact found.1

theorem exists_node?_of_lt {id : Nat} (inside : id < graph.nodes.size) :
    ∃ node, graph.node? id = some node :=
  ⟨graph.nodes[id], by simp [node?, inside]⟩

theorem record?_eq_some_iff {id : Nat} {r : Record} :
    graph.record? id = some r ↔ graph.node? id = some (.record r) := by
  rw [record?]
  cases graph.node? id with
  | none => simp
  | some node => cases node <;> simp [Node.record?]

@[simp]
theorem size_setFields (graph : Graph) (id : Nat) (fields : List Field) :
    (graph.setFields id fields).nodes.size = graph.nodes.size := by
  rw [setFields]
  split <;> simp

theorem node?_setFields (graph : Graph) (id : Nat) (fields : List Field)
    (other : Nat) :
    (graph.setFields id fields).node? other =
      if other = id then (graph.node? id).map (Node.withFields fields)
      else graph.node? other := by
  rw [setFields]
  cases found : graph.record? id with
  | none =>
      rw [record?] at found
      by_cases same : other = id
      · subst same
        rw [if_pos rfl]
        cases present : graph.node? other with
        | none => rfl
        | some node =>
            rw [present] at found
            cases node with
            | record r => cases found
            | _ => rfl
      · rw [if_neg same]
  | some r =>
      rw [record?_eq_some_iff] at found
      have inside := lt_size_of_node? found
      rw [found]
      simp only [node?, Array.getElem?_setIfInBounds, inside, if_true,
        Option.map_some, Node.withFields, eq_comm]

/-- A later state of a graph that grows: more nodes, and those that there were
keep their outlines. -/
def Extends (graph later : Graph) : Prop :=
  ∀ id node, graph.node? id = some node →
    ∃ node', later.node? id = some node' ∧ node'.outline = node.outline

namespace Extends

theorem refl (graph : Graph) : graph.Extends graph :=
  fun _ node found => ⟨node, found, rfl⟩

theorem trans {first second third : Graph} (one : first.Extends second)
    (two : second.Extends third) : first.Extends third := by
  intro id node found
  obtain ⟨node', found', same'⟩ := one id node found
  obtain ⟨node'', found'', same''⟩ := two id node' found'
  exact ⟨node'', found'', same''.trans same'⟩

theorem add (graph : Graph) (node : Node) :
    graph.Extends (graph.add node).2 := by
  intro id other found
  refine ⟨other, ?_, rfl⟩
  rw [node?_add_of_lt node (lt_size_of_node? found), found]

theorem setFields (graph : Graph) (id : Nat) (fields : List Field) :
    graph.Extends (graph.setFields id fields) := by
  intro other node found
  rw [node?_setFields]
  by_cases same : other = id
  · subst same
    exact ⟨node.withFields fields, by simp [found], by simp⟩
  · exact ⟨node, by rw [if_neg same, found], rfl⟩

theorem setRoot (graph : Graph) (root : Option Nat) :
    graph.Extends { graph with root } :=
  fun _ node found => ⟨node, found, rfl⟩

variable {later : Graph}

/-- Wrappers stay as they are. -/
theorem wrapper {id : Nat} {node : Node} (growth : graph.Extends later)
    (found : graph.node? id = some node) (isWrapper : node.isWrapper) :
    later.node? id = some node := by
  obtain ⟨node', found', same⟩ := growth id node found
  rw [found', Node.eq_of_outline_eq isWrapper same]

/-- Primitives stay as they are. -/
theorem primitive {id : Nat} {kind : Primitive} {logical : Option Logical}
    (growth : graph.Extends later)
    (found : graph.node? id = some (.primitive kind logical)) :
    later.node? id = some (.primitive kind logical) := by
  obtain ⟨node', found', same⟩ := growth id _ found
  rw [found']
  cases node' <;> simp_all [Node.outline]

/-- Records keep their names and sources. -/
theorem record {id : Nat} {r : Record} (growth : graph.Extends later)
    (found : graph.record? id = some r) :
    ∃ r', later.record? id = some r' ∧ r'.name = r.name ∧
      r'.source = r.source := by
  rw [record?_eq_some_iff] at found
  obtain ⟨node', found', same⟩ := growth id _ found
  cases node' with
  | record r' =>
      simp only [Node.outline, Record.empty, Node.record.injEq,
        Record.mk.injEq] at same
      exact ⟨r', record?_eq_some_iff.2 found', same.1, same.2.1⟩
  | _ => simp [Node.outline] at same

theorem size_le (growth : graph.Extends later) :
    graph.nodes.size ≤ later.nodes.size := by
  by_contra smaller
  obtain ⟨node, found⟩ : ∃ node, graph.node? later.nodes.size = some node :=
    exists_node?_of_lt (Nat.lt_of_not_le smaller)
  obtain ⟨node', found', _⟩ := growth _ node found
  exact Nat.lt_irrefl _ (lt_size_of_node? found')

end Extends

/-- All references from nodes to nodes. -/
def references (graph : Graph) : List Nat :=
  graph.nodes.toList.flatMap Node.targets

theorem references_add (graph : Graph) (node : Node) :
    (graph.add node).2.references = graph.references ++ node.targets := by
  simp [references, add]

/-- References into a list of nodes, one of which was replaced: those of the new
node come on top at most. -/
theorem count_flatMap_set_le (target : Nat) (node : Node) :
    ∀ (nodes : List Node) (id : Nat),
      ((nodes.set id node).flatMap Node.targets).count target ≤
        (nodes.flatMap Node.targets).count target +
          node.targets.count target := by
  intro nodes
  induction nodes with
  | nil =>
      intro id
      simp
  | cons first rest ih =>
      intro id
      cases id with
      | zero =>
          simp only [List.set_cons_zero, List.flatMap_cons, List.count_append]
          omega
      | succ id =>
          have below := ih id
          simp only [List.set_cons_succ, List.flatMap_cons,
            List.count_append]
          omega

theorem count_references_setFields_le (graph : Graph) (id : Nat)
    (fields : List Field) (target : Nat) :
    (graph.setFields id fields).references.count target ≤
      graph.references.count target +
        (fields.map (·.node)).count target := by
  rw [setFields]
  split
  · next r _ =>
      have below := count_flatMap_set_le target
        (.record (r.withFields fields)) graph.nodes.toList id
      simpa [references, Node.targets, Record.withFields] using below
  · exact Nat.le_add_right _ _

/-- The rules that references keep while some nodes wait for one. -/
structure Linked (graph : Graph) (pending : List Nat) : Prop where
  closed : ∀ id node, graph.node? id = some node →
    ∀ target ∈ node.targets, target < graph.nodes.size
  known : ∀ target ∈ pending, target < graph.nodes.size
  descends : ∀ id node, graph.node? id = some node → node.isWrapper →
    ∀ target ∈ node.targets, target < id
  unshared : ∀ id node, graph.node? id = some node → node.isWrapper →
    (pending ++ graph.references).count id ≤ 1

namespace Linked

theorem empty : ({} : Graph).Linked [] where
  closed := by simp [node?]
  known := by simp
  descends := by simp [node?]
  unshared := by simp [node?]

/-- Fewer nodes may wait. -/
theorem mono {fewer : List Nat} (linked : graph.Linked pending)
    (below : ∀ id, fewer.count id ≤ pending.count id) :
    graph.Linked fewer where
  closed := linked.closed
  known := by
    intro target member
    apply linked.known target
    exact List.count_pos_iff.1
      (Nat.lt_of_lt_of_le (List.count_pos_iff.2 member) (below target))
  descends := linked.descends
  unshared := by
    intro id node found wrapper
    have atMost := linked.unshared id node found wrapper
    have := below id
    rw [List.count_append] at atMost ⊢
    omega

/-- A node that is no wrapper can be referred to at any time. -/
theorem visit {id : Nat} {node : Node} (linked : graph.Linked pending)
    (found : graph.node? id = some node) (plain : node.isWrapper = false) :
    graph.Linked (id :: pending) where
  closed := linked.closed
  known := by
    intro target member
    rcases List.mem_cons.1 member with same | member
    · exact same ▸ lt_size_of_node? found
    · exact linked.known target member
  descends := linked.descends
  unshared := by
    intro other node' found' wrapper
    have differs : id ≠ other := by
      rintro rfl
      simp_all
    have atMost := linked.unshared other node' found' wrapper
    rwa [List.cons_append, List.count_cons_of_ne differs]

theorem not_mem_references_of_size_le {id : Nat}
    (linked : graph.Linked pending) (outside : graph.nodes.size ≤ id) :
    id ∉ pending ++ graph.references := by
  rw [List.mem_append, not_or]
  constructor
  · intro member
    exact Nat.not_lt_of_le outside (linked.known id member)
  · intro member
    obtain ⟨node, present, member⟩ := List.mem_flatMap.1 member
    obtain ⟨place, inside, rfl⟩ := List.getElem_of_mem present
    apply Nat.not_lt_of_le outside
    apply linked.closed place _ _ id member
    simp [node?]

/-- Add a node, the references of which were waited for. -/
theorem add {node : Node} (linked : graph.Linked (node.targets ++ pending)) :
    (graph.add node).2.Linked (graph.nodes.size :: pending) where
  closed := by
    intro id other found target member
    rw [size_add]
    rw [node?_add] at found
    split at found
    · cases found
      exact Nat.lt_succ_of_lt
        (linked.known target (List.mem_append_left _ member))
    · exact Nat.lt_succ_of_lt (linked.closed id other found target member)
  known := by
    intro target member
    rw [size_add]
    rcases List.mem_cons.1 member with same | member
    · exact same ▸ Nat.lt_succ_self _
    · exact Nat.lt_succ_of_lt
        (linked.known target (List.mem_append_right _ member))
  descends := by
    intro id other found wrapper target member
    rw [node?_add] at found
    split at found
    · next same =>
        cases found
        exact same ▸ linked.known target (List.mem_append_left _ member)
    · exact linked.descends id other found wrapper target member
  unshared := by
    intro id other found wrapper
    rw [references_add]
    by_cases new : id = graph.nodes.size
    · have absent := linked.not_mem_references_of_size_le (Nat.le_of_eq new.symm)
      simp only [List.mem_append, not_or] at absent
      simp only [List.cons_append, List.count_cons, List.count_append, new,
        beq_self_eq_true, if_true]
      rw [new] at absent
      have inNode := List.count_eq_zero.2 absent.1.1
      have inGraph := List.count_eq_zero.2 absent.1.2
      have inPending := List.count_eq_zero.2 absent.2
      omega
    · rw [node?_add, if_neg new] at found
      have atMost := linked.unshared id other found wrapper
      rw [List.cons_append, List.count_cons_of_ne (Ne.symm new)]
      simp only [List.count_append] at atMost ⊢
      omega

/-- Give a record the fields that were waited for. -/
theorem setFields {id : Nat} {fields : List Field}
    (linked : graph.Linked (fields.map (·.node) ++ pending)) :
    (graph.setFields id fields).Linked pending where
  closed := by
    intro other node found target member
    rw [size_setFields]
    rw [node?_setFields] at found
    split at found
    · obtain ⟨old, foundOld, rfl⟩ := Option.map_eq_some_iff.1 found
      cases old with
      | record r =>
          exact linked.known target (List.mem_append_left _ member)
      | _ => exact linked.closed _ _ foundOld target member
    · exact linked.closed other node found target member
  known := by
    intro target member
    rw [size_setFields]
    exact linked.known target (List.mem_append_right _ member)
  descends := by
    intro other node found wrapper target member
    rw [node?_setFields] at found
    split at found
    · next same =>
        obtain ⟨old, foundOld, rfl⟩ := Option.map_eq_some_iff.1 found
        cases old with
        | record r => simp [Node.withFields, Node.isWrapper] at wrapper
        | primitive kind logical =>
            simp [Node.withFields, Node.targets] at member
        | _ =>
            exact same ▸ linked.descends _ _ foundOld wrapper target member
    · exact linked.descends other node found wrapper target member
  unshared := by
    intro other node found wrapper
    have old : ∃ node', graph.node? other = some node' ∧ node'.isWrapper := by
      rw [node?_setFields] at found
      split at found
      · next same =>
          obtain ⟨old, foundOld, rfl⟩ := Option.map_eq_some_iff.1 found
          exact ⟨old, same ▸ foundOld, by simpa using wrapper⟩
      · exact ⟨node, found, wrapper⟩
    obtain ⟨node', found', wrapper'⟩ := old
    have atMost := linked.unshared other node' found' wrapper'
    have below := count_references_setFields_le graph id fields other
    simp only [List.count_append] at atMost ⊢
    omega

end Linked

/-- A table lists the nodes of all primitives. -/
def Interned (graph : Graph)
    (table : List ((Primitive × Option Logical) × Nat)) : Prop :=
  ∀ key id, table.lookup key = some id ↔
    graph.node? id = some (.primitive key.1 key.2)

namespace Interned

variable {table : List ((Primitive × Option Logical) × Nat)}

theorem empty : ({} : Graph).Interned [] := by
  intro key id
  simp [node?]

theorem add_primitive {kind : Primitive} {logical : Option Logical}
    (interned : graph.Interned table)
    (missing : table.lookup (kind, logical) = none) :
    (graph.add (.primitive kind logical)).2.Interned
      (((kind, logical), graph.nodes.size) :: table) := by
  intro key id
  rw [node?_add, List.lookup_cons]
  by_cases same : key = (kind, logical)
  · subst same
    by_cases new : id = graph.nodes.size
    · simp [new]
    · have absent := (interned (kind, logical) id).not.1 (by simp [missing])
      simp [new, Ne.symm new, absent]
  · rw [beq_false_of_ne same, interned key id]
    by_cases new : id = graph.nodes.size
    · subst new
      have outside : graph.node? graph.nodes.size = none := by simp [node?]
      have differs : ¬ (kind = key.1 ∧ logical = key.2) := by
        rintro ⟨rfl, rfl⟩
        exact same rfl
      simp [outside, differs]
    · simp [new]

theorem add_other {node : Node} (interned : graph.Interned table)
    (other : ∀ kind logical, node ≠ .primitive kind logical) :
    (graph.add node).2.Interned table := by
  intro key id
  rw [interned key id, node?_add]
  by_cases new : id = graph.nodes.size
  · subst new
    have outside : graph.node? graph.nodes.size = none := by simp [node?]
    simp [outside, other]
  · rw [if_neg new]

theorem setFields (interned : graph.Interned table) (id : Nat)
    (fields : List Field) : (graph.setFields id fields).Interned table := by
  intro key other
  rw [interned key other, node?_setFields]
  by_cases same : other = id
  · subst same
    cases graph.node? other with
    | none => simp
    | some node => cases node <;> simp [Node.withFields]
  · rw [if_neg same]

/-- Each primitive has one node. -/
theorem unique {kind : Primitive} {logical : Option Logical} {id other : Nat}
    (interned : graph.Interned table)
    (found : graph.node? id = some (.primitive kind logical))
    (again : graph.node? other = some (.primitive kind logical)) :
    id = other := by
  have first := (interned (kind, logical) id).2 found
  have second := (interned (kind, logical) other).2 again
  exact Option.some.inj (first.symm.trans second)

end Interned

end Graph

/-- The kind of primitives that a meaning belongs to. -/
def Logical.kind : Logical → Primitive
  | .timestampMillis => .long
  | .hex | .base64 => .bytes

/-- A primitive has the meaning of its kind, if it has one. -/
def Node.Suited : Node → Prop
  | .primitive kind logical => ∀ meaning ∈ logical, meaning.kind = kind
  | _ => True

theorem Node.suited_datatype (datatype : Datatype) :
    (Node.primitive datatype.primitive.1 datatype.primitive.2).Suited := by
  cases datatype <;> simp [Node.Suited, Datatype.primitive, Logical.kind]

end XmlRecords
