import XmlRecords.Proofs.Agreement
import XmlRecords.Proofs.RoundTrip
import XmlRecords.Transcode.Stream

/-!
# Graphs that lead the same ways

A graph and a copy of it lead from their nodes to copies of the same nodes, and
from their records along the same routes.  The bounds on their searches differ
with their sizes, so it is asked for that the bound of the copy is high enough
for the graph itself.
-/

namespace XmlRecords

namespace Graph

/-- A graph and a copy of it that is large enough to be searched. -/
structure Twins (graph copy : Graph) (place : Nat → Nat) : Prop where
  mirrors : copy.Mirrors graph place
  linked : ∃ pending, graph.Linked pending
  copyLinked : ∃ pending, copy.Linked pending
  routes : ∀ id r name, graph.Reachable id → graph.record? id = some r →
    graph.namedRoute? name (graph.nodes.size + 1) r =
      graph.namedRoute? name (copy.nodes.size + 1) r
  steps : ∀ zone element children id, graph.Reachable id →
    graph.convertWith zone element children (graph.nodes.size + 1) id =
      graph.convertWith zone element children (copy.nodes.size + 1) id

/-- A record that can be reached and its copy. -/
def Paired (graph : Graph) (place : Nat → Nat) (r s : Record) : Prop :=
  ∃ id, graph.Reachable id ∧ graph.record? id = some r ∧
    s = r.copied (graph.recordName id) place

namespace Paired

variable {graph : Graph} {place : Nat → Nat} {r s : Record}

theorem fields (paired : graph.Paired place r s) :
    s.fields = r.fields.map (Field.moved place) := by
  obtain ⟨id, _, _, rfl⟩ := paired
  rfl

theorem source (paired : graph.Paired place r s) : s.source = r.source := by
  obtain ⟨id, _, _, rfl⟩ := paired
  rfl

theorem elementWildcard (paired : graph.Paired place r s) :
    s.elementWildcard = r.elementWildcard := by
  obtain ⟨id, _, _, rfl⟩ := paired
  rfl

theorem attributeWildcard (paired : graph.Paired place r s) :
    s.attributeWildcard = r.attributeWildcard := by
  obtain ⟨id, _, _, rfl⟩ := paired
  rfl

theorem text (paired : graph.Paired place r s) : s.text = r.text := by
  obtain ⟨id, _, _, rfl⟩ := paired
  rfl

theorem reachable (paired : graph.Paired place r s) {field : Field}
    (member : field ∈ r.fields) : graph.Reachable field.node := by
  obtain ⟨id, reachable, found, _⟩ := paired
  exact .target reachable (record?_eq_some_iff.1 found)
    (List.mem_map.2 ⟨field, member, rfl⟩)

theorem getElem? (paired : graph.Paired place r s) (index : Nat) :
    s.fields[index]? = r.fields[index]?.map (Field.moved place) := by
  rw [paired.fields, List.getElem?_map]

theorem elementField? (paired : graph.Paired place r s) (name : QName) :
    s.elementField? name = r.elementField? name := by
  rw [Record.elementField?, paired.fields, List.findIdx?_map]
  rfl

theorem attributeField? (paired : graph.Paired place r s) (name : QName) :
    s.attributeField? name = r.attributeField? name := by
  rw [Record.attributeField?, paired.fields, List.findIdx?_map]
  rfl

end Paired

/-- Routes into a record and into its copy. -/
inductive SameRoute (graph : Graph) (place : Nat → Nat) :
    Route → Route → Prop where
  | field (index : Nat) : SameRoute graph place (.field index) (.field index)
  | group (index : Nat) {item item' : Record} {rest rest' : Route}
      (items : graph.Paired place item item')
      (more : SameRoute graph place rest rest') :
      SameRoute graph place (.group index item rest) (.group index item' rest')
  | wildcard (index : Nat) :
      SameRoute graph place (.wildcard index) (.wildcard index)

theorem SameRoute.index_eq {graph : Graph} {place : Nat → Nat}
    {route route' : Route} (same : graph.SameRoute place route route') :
    route'.index = route.index := by
  cases same <;> rfl

namespace Twins

variable {graph copy : Graph} {place : Nat → Nat}

theorem elementType (twins : graph.Twins copy place) {id : Nat}
    (reachable : graph.Reachable id) :
    graph.Reachable (graph.elementType id) ∧
      copy.elementType (place id) = place (graph.elementType id) := by
  obtain ⟨_, linked⟩ := twins.linked
  obtain ⟨_, copyLinked⟩ := twins.copyLinked
  exact twins.mirrors.elementType linked copyLinked reachable

theorem requiredType (twins : graph.Twins copy place) {id : Nat}
    (reachable : graph.Reachable id) :
    graph.Reachable (graph.requiredType id) ∧
      copy.requiredType (place id) = place (graph.requiredType id) := by
  obtain ⟨_, linked⟩ := twins.linked
  obtain ⟨_, copyLinked⟩ := twins.copyLinked
  induction id using Nat.strong_induction_on with
  | _ id ih =>
      obtain ⟨node, found, present⟩ := twins.mirrors.nodes id reachable
      by_cases optional : ∃ inner, node = .optional inner
      · obtain ⟨inner, rfl⟩ := optional
        have below := linked.descends id _ found rfl inner List.mem_cons_self
        rw [requiredType_optional linked found,
          requiredType_optional copyLinked present]
        exact ih inner below (.target reachable found List.mem_cons_self)
      · have required : ∀ inner, node ≠ .optional inner :=
          fun inner same => optional ⟨inner, same⟩
        have copied : ∀ inner,
            node.copied (graph.recordName id) place ≠ .optional inner := by
          intro inner same
          cases node with
          | optional other => exact required other rfl
          | _ => cases same
        rw [requiredType_of_ne_optional found required,
          requiredType_of_ne_optional present copied]
        exact ⟨reachable, rfl⟩

theorem record? (twins : graph.Twins copy place) {id : Nat}
    (reachable : graph.Reachable id) :
    Option.Rel (graph.Paired place) (graph.record? id)
      (copy.record? (place id)) := by
  obtain ⟨node, found, present⟩ := twins.mirrors.nodes id reachable
  cases node with
  | record r =>
      rw [record?_eq_some_iff.2 found, record?_eq_some_iff.2 present]
      exact .some ⟨id, reachable, record?_eq_some_iff.2 found, rfl⟩
  | _ =>
      rw [Graph.record?, Graph.record?, found, present]
      exact .none

theorem groupItem? (twins : graph.Twins copy place) {field : Field}
    (reachable : graph.Reachable field.node) :
    Option.Rel (graph.Paired place) (graph.groupItem? field)
      (copy.groupItem? (field.moved place)) := by
  obtain ⟨below, same⟩ := twins.elementType reachable
  rw [Graph.groupItem?, Graph.groupItem?, Field.moved]
  split
  · rw [same]
    exact twins.record? below
  · exact .none

theorem groupRoute? (twins : graph.Twins copy place)
    {next next' : Record → Option Route}
    (follows : ∀ r s, graph.Paired place r s →
      Option.Rel (graph.SameRoute place) (next r) (next' s))
    (index : Nat) {fields : List Field}
    (reachable : ∀ field ∈ fields, graph.Reachable field.node) :
    Option.Rel (graph.SameRoute place) (graph.groupRoute? next index fields)
      (copy.groupRoute? next' index (fields.map (Field.moved place))) := by
  induction fields generalizing index with
  | nil => exact .none
  | cons field rest ih =>
      obtain ⟨first, others⟩ := List.forall_mem_cons.1 reachable
      have more := ih (index + 1) others
      rw [List.map_cons, Graph.groupRoute?, Graph.groupRoute?]
      have found := twins.groupItem? first
      generalize graph.groupItem? field = here,
        copy.groupItem? (field.moved place) = there at found ⊢
      cases found with
      | none => exact more
      | @some item item' items =>
          have led := follows item item' items
          dsimp only
          generalize next item = route, next' item' = route' at led ⊢
          cases led with
          | none => exact more
          | some same => exact .some (SameRoute.group index items same)

theorem namedRoute? (twins : graph.Twins copy place) (name : QName)
    (fuel : Nat) {r s : Record} (paired : graph.Paired place r s) :
    Option.Rel (graph.SameRoute place) (graph.namedRoute? name fuel r)
      (copy.namedRoute? name fuel s) := by
  induction fuel generalizing r s with
  | zero => exact .none
  | succ fuel ih =>
      rw [Graph.namedRoute?, Graph.namedRoute?, paired.elementField?]
      cases r.elementField? name with
      | some index => exact .some (.field index)
      | none =>
          rw [paired.fields]
          exact twins.groupRoute? (fun _ _ items => ih items) 0
            fun _ member => paired.reachable member

theorem route? (twins : graph.Twins copy place) (name : QName) {r s : Record}
    (paired : graph.Paired place r s) :
    Option.Rel (graph.SameRoute place) (graph.route? r name)
      (copy.route? s name) := by
  obtain ⟨id, reachable, found, _⟩ := id paired
  rw [Graph.route?, Graph.route?, twins.routes id r name reachable found,
    paired.elementWildcard]
  have named := twins.namedRoute? name (copy.nodes.size + 1) paired
  generalize graph.namedRoute? name (copy.nodes.size + 1) r = route,
    copy.namedRoute? name (copy.nodes.size + 1) s = route' at named ⊢
  cases named with
  | some same => exact .some same
  | none =>
      cases r.elementWildcard with
      | none => exact .none
      | some index => exact .some (.wildcard index)

end Twins

end Graph

end XmlRecords
