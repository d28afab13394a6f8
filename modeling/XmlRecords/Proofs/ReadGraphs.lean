import XmlRecords.Proofs.Denotation
import XmlRecords.Proofs.Walk
import XmlRecords.Proofs.Wrappers

/-!
# Graphs that are read

While a type is read, records that have begun have no fields yet, and nodes refer to
them all the same.  In the graph that is left everything is in place: nodes refer to
nodes of the graph, wrappers to nodes in front of them, so that going down through them
ends and the graph can be written, each record is filled in as it is described, no two
have one name, each name denotes the record that began under it before, and each
primitive has one node.
-/

namespace XmlRecords

namespace Node

/-- What a wrapper for optional or repeated content is around. -/
def content? : Node → Option Nat
  | .optional inner | .array inner => some inner
  | _ => none

/-- What a wrapper for optional content is around. -/
def required? : Node → Option Nat
  | .optional inner => some inner
  | _ => none

end Node

namespace Graph

/-- Going down from a node, as long as it leads to others, ends at a node. -/
inductive Peels (graph : Graph) (inside? : Node → Option Nat) : Nat → Nat → Prop where
  | stop {id : Nat} {node : Node} (found : graph.node? id = some node)
      (last : inside? node = none) : Peels graph inside? id id
  | step {id inner last : Nat} {node : Node} (found : graph.node? id = some node)
      (leads : inside? node = some inner) (rest : Peels graph inside? inner last) :
      Peels graph inside? id last

variable {graph : Graph} {pending : List Nat} {id : Nat}

/-- There is one end. -/
theorem Peels.unique {inside? : Node → Option Nat} {last other : Nat}
    (one : graph.Peels inside? id last) (two : graph.Peels inside? id other) :
    last = other := by
  induction one with
  | stop found stops =>
      cases two with
      | stop => rfl
      | step found' leads =>
          cases found.symm.trans found'
          cases stops.symm.trans leads
  | step found leads _ ih =>
      cases two with
      | stop found' stops =>
          cases found.symm.trans found'
          cases stops.symm.trans leads
      | step found' leads' rest =>
          cases found.symm.trans found'
          cases leads.symm.trans leads'
          exact ih rest

theorem Peels.eq_iff {inside? : Node → Option Nat} {last other : Nat}
    (ends : graph.Peels inside? id last) :
    graph.Peels inside? id other ↔ other = last := by
  constructor
  · intro again
    exact again.unique ends
  · rintro rfl
    exact ends

theorem peels_elementType (linked : graph.Linked pending)
    (inside : id < graph.nodes.size) :
    graph.Peels Node.content? id (graph.elementType id) := by
  induction id using Nat.strongRecOn with
  | ind id ih =>
      obtain ⟨node, found⟩ := exists_node?_of_lt inside
      cases node with
      | optional inner =>
          have below := linked.descends id _ found rfl inner List.mem_cons_self
          rw [elementType_optional linked found]
          exact .step found rfl (ih inner below (below.trans inside))
      | array item =>
          have below := linked.descends id _ found rfl item List.mem_cons_self
          rw [elementType_array linked found]
          exact .step found rfl (ih item below (below.trans inside))
      | map values =>
          rw [elementType_map found]
          exact .stop found rfl
      | primitive kind logical | record r =>
          rw [elementType_of_isWrapper_eq_false found rfl]
          exact .stop found rfl

theorem peels_requiredType (linked : graph.Linked pending)
    (inside : id < graph.nodes.size) :
    graph.Peels Node.required? id (graph.requiredType id) := by
  induction id using Nat.strongRecOn with
  | ind id ih =>
      obtain ⟨node, found⟩ := exists_node?_of_lt inside
      by_cases optional : ∃ inner, node = .optional inner
      · obtain ⟨inner, rfl⟩ := optional
        have below := linked.descends id _ found rfl inner List.mem_cons_self
        rw [requiredType_optional linked found]
        exact .step found rfl (ih inner below (below.trans inside))
      · have required : ∀ inner, node ≠ .optional inner :=
          fun inner same => optional ⟨inner, same⟩
        rw [requiredType_of_ne_optional found required]
        refine .stop found ?_
        cases node with
        | optional inner => exact absurd rfl (required inner)
        | _ => rfl

/-- Everything in a graph is in place, as it is when the graph has been read from a
written type. -/
structure ReadFrom (graph : Graph) (text : TypeText) : Prop where
  rooted : ∃ root ∈ graph.root, root < graph.nodes.size
  closed : ∀ id node, graph.node? id = some node →
    ∀ target ∈ node.targets, target < graph.nodes.size
  descends : ∀ id node, graph.node? id = some node → node.isWrapper →
    ∀ target ∈ node.targets, target < id
  elementType : ∀ id < graph.nodes.size, ∀ last,
    graph.Peels Node.content? id last ↔ last = graph.elementType id
  requiredType : ∀ id < graph.nodes.size, ∀ last,
    graph.Peels Node.required? id last ↔ last = graph.requiredType id
  written : ∃ root ∈ graph.root, ∃ type order, graph.toTypeText = .ok type ∧
    SchemaWriter.Writes graph [root] [] [type] order
  denoted : ∃ root ∈ graph.root, ∃ records, Denote graph [] [text] [root] records ∧
    ∀ id r, graph.record? id = some r → ∃ d ∈ records, d.node = id ∧ d.Fills r
  names : ∀ id other r s, graph.record? id = some r → graph.record? other = some s →
    r.name.map (·.name) = s.name.map (·.name) → id = other
  primitives : ∀ id other kind logical,
    graph.node? id = some (.primitive kind logical) →
      graph.node? other = some (.primitive kind logical) → id = other

/-- A written type is read as a node that it denotes, and every record is one of those
described. -/
theorem exists_denote_of_ofTypeText {text : TypeText}
    (read : ofTypeText text = .ok graph) :
    ∃ root ∈ graph.root, ∃ records, Denote graph [] [text] [root] records ∧
      ∀ id r, graph.record? id = some r → ∃ d ∈ records, d.node = id ∧ d.Fills r := by
  obtain ⟨⟨root, progress⟩, ended, same⟩ := Outcome.bind_eq_ok.1 read
  cases same
  have keeps : progress.graph.KeepsFrom 0 { progress.graph with root := some root } :=
    fun _ _ found _ => found
  obtain ⟨records, denote, notes⟩ :=
    SchemaReader.denoted_typeNode text .empty .empty ended keeps
  refine ⟨root, rfl, records, denote, ?_⟩
  intro id r found
  obtain ⟨d, listed, rfl⟩ := notes.complete id r found
  rcases denote.filled d listed with before | ⟨r', found', fills⟩
  · cases before
  · cases found.symm.trans found'
    exact ⟨d, listed, rfl, fills⟩

/-- Records that are filled in as those described have as many names as these. -/
theorem eq_of_name_eq {text : TypeText} {root other : Nat} {r s : Record}
    {records : List Description} (denote : Denote graph [] [text] [root] records)
    (filled : ∀ id r, graph.record? id = some r →
      ∃ d ∈ records, d.node = id ∧ d.Fills r)
    (found : graph.record? id = some r) (again : graph.record? other = some s)
    (same : r.name.map (·.name) = s.name.map (·.name)) : id = other := by
  obtain ⟨d, listed, rfl, fills⟩ := filled id r found
  obtain ⟨e, listed', rfl, fills'⟩ := filled other s again
  have titles : d.title = e.title := by
    simpa [fills.name, fills'.name] using same
  have distinct := denote.distinct List.nodup_nil
  rw [List.inj_on_of_nodup_map distinct listed listed' titles]

/-- A graph that is read is closed: everything in it is in place. -/
theorem readFrom_of_ofTypeText {text : TypeText} (read : ofTypeText text = .ok graph) :
    graph.ReadFrom text := by
  obtain ⟨root, writable⟩ := writable_of_ofTypeText read
  obtain ⟨root', rooted', records, denote, filled⟩ := exists_denote_of_ofTypeText read
  obtain ⟨table, interned⟩ := writable.interned
  have linked := writable.linked
  exact {
    rooted := ⟨root, writable.rooted, linked.known root List.mem_cons_self⟩
    closed := linked.closed
    descends := linked.descends
    elementType := fun _ inside _ => (peels_elementType linked inside).eq_iff
    requiredType := fun _ inside _ => (peels_requiredType linked inside).eq_iff
    written := ⟨root, writable.rooted, writes_toTypeText writable.rooted linked⟩
    denoted := ⟨root', rooted', records, denote, filled⟩
    names := fun _ _ _ _ => eq_of_name_eq denote filled
    primitives := fun _ _ _ _ => interned.unique }

/-- Nodes of a tree: a record that is referred to from within, an open and an optional
field. -/
def nodeText : TypeText :=
  .record "Node" none none [
    .field "at" (.long (some timestampMillisName)) "element at" false,
    .field "child" (.array (.name "Node")) "element child" false,
    .field "others" (.map (.name "string")) "element-wildcard" false,
    .field "raw" (.union [.name "null", .bytes none]) "attribute raw" true]

/-- The graph of nodes of a tree. -/
def nodeGraph : Graph where
  nodes := #[
    .record ⟨some ⟨"Node", none⟩, .type,
      [⟨"at", .element ⟨"at", none⟩, 1⟩, ⟨"child", .element ⟨"child", none⟩, 2⟩,
        ⟨"others", .elementWildcard, 4⟩, ⟨"raw", .attribute ⟨"raw", none⟩, 6⟩],
      some 2, none, none⟩,
    .primitive .long (some .timestampMillis), .array 0, .primitive .string none,
    .map 3, .primitive .bytes (some .base64), .optional 5]
  root := some 0

theorem readFrom_nodeText :
    ofTypeText nodeText = .ok nodeGraph ∧ nodeGraph.ReadFrom nodeText := by
  have read : ofTypeText nodeText = .ok nodeGraph := by rfl
  exact ⟨read, readFrom_of_ofTypeText read⟩

end Graph

end XmlRecords
