import XmlRecords.Proofs.Lowered
import XmlRecords.Proofs.Runs

/-!
# The invariant of lowering

Every step of lowering keeps what is known of the nodes, of the references
between them and of the tables of primitives and types.  A step that makes a
node leaves that node waiting to be referred to; fields keep their nodes waiting
until their record gets them.
-/

namespace XmlRecords

namespace Lowering

variable {allowed : QName → Prop}

/-- What lowering keeps while some nodes wait to be referred to. -/
structure Builder.Sound (allowed : QName → Prop) (b : Builder)
    (pending : List Nat) : Prop where
  linked : b.graph.Linked pending
  interned : b.graph.Interned b.primitives
  fits : ∀ id node, b.graph.node? id = some node →
    NodeFits allowed b.graph id node
  sources : ∀ id r, b.graph.record? id = some r → r.source ≠ .document
  named : b.graph.ListsTypes b.named
  anonymous : b.graph.ListsTypes b.anonymous

namespace Builder.Sound

variable {b c : Builder} {pending fewer : List Nat}

theorem empty : ({} : Builder).Sound allowed [] where
  linked := .empty
  interned := .empty
  fits := by simp [Graph.node?]
  sources := by simp [Graph.record?, Graph.node?]
  named := by simp [Graph.ListsTypes]
  anonymous := by simp [Graph.ListsTypes]

theorem mono (sound : b.Sound allowed pending)
    (below : ∀ id, fewer.count id ≤ pending.count id) :
    b.Sound allowed fewer :=
  { sound with linked := sound.linked.mono below }

/-- What else the state holds does not matter. -/
theorem congr (sound : b.Sound allowed pending) (graph : c.graph = b.graph)
    (primitives : c.primitives = b.primitives) (named : c.named = b.named)
    (anonymous : c.anonymous = b.anonymous) : c.Sound allowed pending where
  linked := graph ▸ sound.linked
  interned := graph ▸ primitives ▸ sound.interned
  fits := graph ▸ sound.fits
  sources := graph ▸ sound.sources
  named := graph ▸ named ▸ sound.named
  anonymous := graph ▸ anonymous ▸ sound.anonymous

theorem visit {id : Nat} {node : Node} (sound : b.Sound allowed pending)
    (found : b.graph.node? id = some node) (plain : node.isWrapper = false) :
    b.Sound allowed (id :: pending) :=
  { sound with linked := sound.linked.visit found plain }

/-- A node is added that fits, and the table of primitives is kept up. -/
theorem add {node : Node} (sound : b.Sound allowed (node.targets ++ pending))
    (graph : c.graph = (b.graph.add node).2)
    (interned : c.graph.Interned c.primitives)
    (fits : NodeFits allowed b.graph b.graph.nodes.size node)
    (source : ∀ r, node = .record r → r.source ≠ .document)
    (named : c.named = b.named) (anonymous : c.anonymous = b.anonymous) :
    c.Sound allowed (b.graph.nodes.size :: pending) where
  linked := by
    rw [graph]
    exact sound.linked.add
  interned := interned
  fits := by
    intro id other found
    rw [graph] at found ⊢
    exact NodeFits.add sound.fits fits other found
  sources := by
    intro id r found
    rw [graph, Graph.record?_eq_some_iff, Graph.node?_add] at found
    split at found
    · exact source r (Option.some.inj found)
    · exact sound.sources id r (Graph.record?_eq_some_iff.2 found)
  named := by
    rw [graph, named]
    exact sound.named.mono (Graph.Extends.add b.graph node)
  anonymous := by
    rw [graph, anonymous]
    exact sound.anonymous.mono (Graph.Extends.add b.graph node)

/-- A record gets fields that fit. -/
theorem setFields {owner : Nat} {all : Fields}
    (sound : b.Sound allowed (all.fields.map (·.node) ++ pending))
    (made : all.Made)
    (names : ∀ field ∈ all.fields, ∀ name ∈ field.origin.name?, allowed name)
    (holds : ∀ field ∈ all.fields,
      b.graph.Holds owner field.origin field.node) :
    ({ b with graph := b.graph.setFields owner all.fields } : Builder).Sound
      allowed pending where
  linked := sound.linked.setFields
  interned := sound.interned.setFields owner all.fields
  fits := by
    intro id node found
    apply NodeFits.mono (Graph.Extends.setFields b.graph owner all.fields)
    rw [Graph.node?_setFields] at found
    split at found
    · next same =>
        obtain ⟨old, foundOld, rfl⟩ := Option.map_eq_some_iff.1 found
        have fitsOld := sound.fits owner old foundOld
        cases old with
        | record r => exact same ▸ fitsOld.withFields made names holds
        | _ => exact same ▸ fitsOld
    · exact sound.fits id node found
  sources := by
    intro id r found
    rw [Graph.record?_eq_some_iff, Graph.node?_setFields] at found
    split at found
    · obtain ⟨old, foundOld, same⟩ := Option.map_eq_some_iff.1 found
      cases old with
      | record r' =>
          cases same
          exact sound.sources owner r' (Graph.record?_eq_some_iff.2 foundOld)
      | _ => cases same
    · exact sound.sources id r (Graph.record?_eq_some_iff.2 found)
  named := sound.named.mono (.setFields b.graph owner all.fields)
  anonymous := sound.anonymous.mono (.setFields b.graph owner all.fields)

end Builder.Sound

/-- A step has led from one state to another and has made, or found, a node of a
kind, which now waits to be referred to. -/
structure Entered (allowed : QName → Prop) (b : Builder)
    (pending : List Nat) (kind : Graph → Nat → Prop) (id : Nat)
    (c : Builder) : Prop where
  sound : c.Sound allowed (id :: pending)
  growth : b.graph.Extends c.graph
  kind : kind c.graph id

theorem addNode_eq_ok {node : Node} {b c : Builder} {id : Nat} :
    (addNode node).run b = .ok (id, c) ↔
      id = b.graph.nodes.size ∧
        c = { b with graph := (b.graph.add node).2 } := by
  constructor
  · intro ended
    cases ended
    exact ⟨rfl, rfl⟩
  · rintro ⟨rfl, rfl⟩
    rfl

/-- Add a wrapper around the node that was entered last. -/
theorem entered_wrapper {node : Node} {b c : Builder} {pending : List Nat}
    {id : Nat} (ended : (addNode node).run b = .ok (id, c))
    (sound : b.Sound allowed (node.targets ++ pending))
    (isWrapper : node.isWrapper) (wraps : b.graph.Wraps node) :
    Entered allowed b pending (fun graph id => graph.node? id = some node)
      id c := by
  obtain ⟨rfl, rfl⟩ := addNode_eq_ok.1 ended
  have plain : ∀ kind logical, node ≠ .primitive kind logical := by
    rintro kind logical rfl
    cases isWrapper
  have noRecord : ∀ r, node ≠ .record r := by
    rintro r rfl
    cases isWrapper
  constructor
  · exact sound.add rfl (sound.interned.add_other plain)
      (.wrapper isWrapper wraps) (fun r same => absurd same (noRecord r))
      rfl rfl
  · exact Graph.Extends.add b.graph node
  · exact Graph.node?_add_size b.graph node

/-- Add a record that has no fields yet. -/
theorem entered_record {name : QName} {source : RecordSource} {b c : Builder}
    {pending : List Nat} {id : Nat}
    (ended : (addNode (.record (.empty (some name) source))).run b =
      .ok (id, c))
    (sound : b.Sound allowed pending) (notDocument : source ≠ .document) :
    Entered allowed b pending
      (fun graph id => graph.record? id = some (.empty (some name) source))
      id c := by
  obtain ⟨rfl, rfl⟩ := addNode_eq_ok.1 ended
  constructor
  · have waits : b.Sound allowed
        ((Node.record (.empty (some name) source)).targets ++ pending) := sound
    refine waits.add rfl (sound.interned.add_other ?_)
      (.emptyRecord name source) ?_ rfl rfl
    · simp
    · intro r same
      cases same
      exact notDocument
  · exact Graph.Extends.add b.graph _
  · exact Graph.record?_eq_some_iff.2 (Graph.node?_add_size b.graph _)

theorem entered_primitive {kind : Primitive} {logical : Option Logical}
    {b c : Builder} {pending : List Nat} {id : Nat}
    (ended : (primitiveNode kind logical).run b = .ok (id, c))
    (sound : b.Sound allowed pending)
    (suited : (Node.primitive kind logical).Suited) :
    Entered allowed b pending
      (fun graph id => graph.node? id = some (.primitive kind logical))
      id c := by
  rw [primitiveNode, Run.get_bind] at ended
  cases found : b.primitives.lookup (kind, logical) with
  | some known =>
      rw [found] at ended
      obtain ⟨rfl, rfl⟩ := Run.pure_eq_ok.1 ended
      have present := (sound.interned (kind, logical) id).1 found
      exact ⟨sound.visit present rfl, .refl _, present⟩
  | none =>
      rw [found] at ended
      cases ended
      constructor
      · exact sound.add rfl (sound.interned.add_primitive found)
          (.primitive suited) (by simp) rfl rfl
      · exact Graph.Extends.add _ _
      · exact Graph.node?_add_size _ _

theorem entered_datatype {datatype : Datatype} {b c : Builder}
    {pending : List Nat} {id : Nat}
    (ended : (datatypeNode datatype).run b = .ok (id, c))
    (sound : b.Sound allowed pending) :
    Entered allowed b pending Graph.IsPrimitive id c := by
  obtain ⟨sound, growth, found⟩ :=
    entered_primitive ended sound (Node.suited_datatype datatype)
  exact ⟨sound, growth, _, _, found⟩

theorem entered_map {b c : Builder} {pending : List Nat} {id : Nat}
    (ended : mapNode.run b = .ok (id, c)) (sound : b.Sound allowed pending) :
    Entered allowed b pending Graph.IsTextMap id c := by
  rw [mapNode, Run.bind_eq_ok] at ended
  obtain ⟨values, between, first, ended⟩ := ended
  obtain ⟨sound, growth, text⟩ :=
    entered_primitive first sound (by simp [Node.Suited])
  obtain ⟨sound, growth', found⟩ :=
    entered_wrapper ended sound rfl text
  exact ⟨sound, growth.trans growth', values, found, growth'.primitive text⟩

/-- A node of a type becomes optional by a node of its own. -/
theorem entered_optional {b c : Builder} {pending : List Nat} {inner id : Nat}
    (ended : (optionalNode inner).run b = .ok (id, c))
    (sound : b.Sound allowed (inner :: pending))
    (base : b.graph.IsBase inner) :
    Entered allowed b pending
      (fun graph id => graph.node? id = some (.optional inner)) id c := by
  rw [optionalNode, Run.get_bind] at ended
  obtain ⟨node, found, plain⟩ := base.exists_node
  rw [found] at ended
  have added : (addNode (.optional inner)).run b = .ok (id, c) := by
    cases node <;> first | exact ended | cases plain
  exact entered_wrapper added sound rfl base

/-- The fields of a record that is being made, all of whose nodes wait. -/
structure Filling (allowed : QName → Prop) (b : Builder) (owner : Nat)
    (pending : List Nat) (all : Fields) : Prop where
  sound : b.Sound allowed (all.fields.map (·.node) ++ pending)
  made : all.Made
  names : ∀ field ∈ all.fields, ∀ name ∈ field.origin.name?, allowed name
  holds : ∀ field ∈ all.fields, b.graph.Holds owner field.origin field.node

namespace Filling

variable {b c : Builder} {owner : Nat} {pending : List Nat} {all : Fields}

theorem start (owner : Nat) (sound : b.Sound allowed pending) :
    Filling allowed b owner pending {} where
  sound := sound
  made := .empty
  names := by simp
  holds := by simp

/-- A field is pushed whose node was entered last. -/
theorem push {origin : Origin} {id : Nat} (filling : Filling allowed b owner pending all)
    (raw : String)
    (entered : Entered allowed b (all.fields.map (·.node) ++ pending)
      (fun graph id => graph.Holds owner origin id) id c)
    (name : ∀ name ∈ origin.name?, allowed name) :
    Filling allowed c owner pending (all.push raw origin id) := by
  have made := filling.made.push raw origin id
  have kept : ∀ field ∈ all.fields,
      c.graph.Holds owner field.origin field.node :=
    fun field member => entered.growth.holds (filling.holds field member)
  rcases all.push_fields raw origin id with same | ⟨title, more⟩
  · refine ⟨?_, made, ?_, ?_⟩
    · rw [same]
      exact entered.sound.mono fun _ => List.count_le_count_cons
    · rw [same]
      exact filling.names
    · rw [same]
      exact kept
  · refine ⟨?_, made, ?_, ?_⟩
    · rw [more]
      apply entered.sound.mono
      intro other
      simp only [List.map_append, List.map_cons, List.map_nil,
        List.count_append, List.count_cons, List.count_nil]
      omega
    · rw [more]
      intro field member
      rcases List.mem_append.1 member with member | member
      · exact filling.names field member
      · rw [List.mem_singleton.1 member]
        exact name
    · rw [more]
      intro field member
      rcases List.mem_append.1 member with member | member
      · exact kept field member
      · rw [List.mem_singleton.1 member]
        exact entered.kind

/-- The record gets its fields. -/
theorem finish (filling : Filling allowed b owner pending all) :
    ({ b with graph := b.graph.setFields owner all.fields } : Builder).Sound
      allowed pending :=
  filling.sound.setFields filling.made filling.names filling.holds

end Filling

end Lowering

end XmlRecords
