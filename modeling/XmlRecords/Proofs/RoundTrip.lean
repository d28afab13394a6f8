import Mathlib.Data.Set.Function
import XmlRecords.Proofs.Copying
import XmlRecords.Proofs.Walk
import XmlRecords.Proofs.Wrappers

/-!
# Written graphs are read back

A graph that was lowered or read is written and read back as a copy of what its
root leads to: the same nodes in other places, with records under the names that
were handed out for them.  The copy is written as the graph was.
-/

namespace XmlRecords

namespace Graph

/-- The nodes that the root leads to. -/
inductive Reachable (graph : Graph) : Nat → Prop where
  | root {id : Nat} (rooted : graph.root = some id) : Reachable graph id
  | target {id target : Nat} {node : Node} (reachable : Reachable graph id)
      (found : graph.node? id = some node) (refers : target ∈ node.targets) :
      Reachable graph target

/-- A graph is a copy of what the root of another leads to. -/
structure Mirrors (copy graph : Graph) (place : Nat → Nat) : Prop where
  bijective : Set.BijOn place {id | graph.Reachable id}
    {id | id < copy.nodes.size}
  root : copy.root = graph.root.map place
  nodes : ∀ id, graph.Reachable id → ∃ node, graph.node? id = some node ∧
    copy.node? (place id) = some (node.copied (graph.recordName id) place)

/-- Graphs that the program makes: from components with plain names, and from
written types. -/
inductive Obtained (graph : Graph) : Prop where
  | lowered {components : Components} {wanted : Option String}
      (plain : ∀ name ∈ components.names, name.Plain)
      (built : ofComponents components wanted = .ok graph)
  | read {text : TypeText} (ended : ofTypeText text = .ok graph)

theorem Obtained.writable {graph : Graph} (obtained : graph.Obtained) :
    ∃ root, graph.Writable root := by
  cases obtained with
  | lowered plain built =>
      obtain ⟨root, lowered⟩ := lowered_ofComponents plain built
      exact ⟨root, lowered.writable⟩
  | read ended => exact writable_of_ofTypeText ended

end Graph

namespace SchemaWriter

variable {graph copy : Graph} {place : Nat → Nat} {ids order last : List Nat}
  {texts : List TypeText}

/-- Only what can be reached is written. -/
theorem Writes.reachable (writes : Writes graph ids order texts last)
    (reachable : ∀ id ∈ ids, graph.Reachable id)
    (before : ∀ id ∈ order, graph.Reachable id) :
    ∀ id ∈ last, graph.Reachable id := by
  induction writes with
  | done => exact before
  | again _ _ _ _ ih =>
      exact ih (List.forall_mem_cons.1 reachable).2 before
  | primitive _ _ _ ih =>
      obtain ⟨first, rest⟩ := List.forall_mem_cons.1 reachable
      exact ih rest (List.forall_mem_append.2
        ⟨before, List.forall_mem_singleton.2 first⟩)
  | record found _ _ _ ihFields ih =>
      obtain ⟨first, rest⟩ := List.forall_mem_cons.1 reachable
      have fields := ihFields (fun _ member => .target first found member)
        (List.forall_mem_append.2 ⟨before, List.forall_mem_singleton.2 first⟩)
      exact ih rest fields
  | wrapper found _ around _ _ _ ihInside ih =>
      obtain ⟨first, rest⟩ := List.forall_mem_cons.1 reachable
      have inside := ihInside (fun _ member =>
        .target first found (around ▸ member)) before
      exact ih rest (List.forall_mem_append.2
        ⟨inside, List.forall_mem_singleton.2 first⟩)

/-- Nodes of a graph that are copied in another, records under their names and
no two in one place. -/
structure CopiedIn (graph copy : Graph) (place : Nat → Nat) (ids : List Nat) :
    Prop where
  nodes : ∀ id ∈ ids, ∃ node, graph.node? id = some node ∧
    copy.node? (place id) = some (node.copied (graph.recordName id) place)
  names : ∀ id ∈ ids, ∀ r, graph.record? id = some r →
    copy.recordName (place id) = graph.recordName id
  injective : ∀ id ∈ ids, ∀ other ∈ ids, place id = place other → id = other

namespace CopiedIn

theorem node? (copied : CopiedIn graph copy place last) {id : Nat} {node : Node}
    (member : id ∈ last) (found : graph.node? id = some node) :
    copy.node? (place id) = some (node.copied (graph.recordName id) place) := by
  obtain ⟨node', found', present⟩ := copied.nodes id member
  rw [found] at found'
  cases found'
  exact present

theorem isOptional (copied : CopiedIn graph copy place last) {id : Nat}
    (member : id ∈ last) :
    copy.isOptional (place id) = graph.isOptional id := by
  obtain ⟨node, found, present⟩ := copied.nodes id member
  rw [Graph.isOptional, Graph.isOptional, found, present]
  cases node <;> rfl

theorem fieldTexts (copied : CopiedIn graph copy place last)
    (fields : List Field) (types : List TypeText)
    (targets : fields.map (·.node) ⊆ last) :
    List.zipWith (fieldText copy) (fields.map (Field.moved place)) types =
      List.zipWith (fieldText graph) fields types := by
  induction fields generalizing types with
  | nil => rfl
  | cons field rest ih =>
      cases types with
      | nil => rfl
      | cons type types =>
          obtain ⟨member, others⟩ := List.cons_subset.1 targets
          rw [List.map_cons, List.zipWith_cons_cons, List.zipWith_cons_cons,
            ih types others, fieldText, fieldText, Field.moved,
            copied.isOptional member]

theorem recordText (copied : CopiedIn graph copy place last) {id : Nat}
    {r : Record} (types : List TypeText) (member : id ∈ last)
    (found : graph.node? id = some (.record r))
    (targets : r.fields.map (·.node) ⊆ last) :
    recordText copy (place id) (r.copied (graph.recordName id) place) types =
      recordText graph id r types := by
  rw [SchemaWriter.recordText, SchemaWriter.recordText, Record.copied,
    copied.fieldTexts r.fields types targets,
    copied.names id member r (Graph.record?_eq_some_iff.2 found)]
  rfl

theorem nameText (copied : CopiedIn graph copy place last) {id : Nat}
    {node : Node} (member : id ∈ last) (found : graph.node? id = some node)
    (plain : node.isWrapper = false) :
    nameText copy (place id) (node.copied (graph.recordName id) place) =
      nameText graph id node := by
  cases node with
  | primitive kind logical => rfl
  | record r =>
      have same := copied.names id member r (Graph.record?_eq_some_iff.2 found)
      exact congrArg TypeText.name same
  | _ => cases plain

theorem notMem_map (copied : CopiedIn graph copy place last) {id : Nat}
    (member : id ∈ last) (within : order ⊆ last) (fresh : id ∉ order) :
    place id ∉ order.map place := by
  intro listed
  obtain ⟨other, noted, same⟩ := List.mem_map.1 listed
  exact fresh (copied.injective other (within noted) id member same ▸ noted)

end CopiedIn

theorem wrapperText_copied (type : TypeText) (name : String)
    (place : Nat → Nat) (node : Node) :
    wrapperText type (node.copied name place) = wrapperText type node := by
  cases node <;> rfl

/-- What is written of nodes is also what is written of their copies. -/
theorem Writes.copied {final : List Nat}
    (copied : CopiedIn graph copy place final)
    (writes : Writes graph ids order texts last) (within : last ⊆ final) :
    Writes copy (ids.map place) (order.map place) texts (last.map place) := by
  induction writes with
  | done => exact .done _
  | again found plain member more ih =>
      have inFinal := within (more.isPrefix.subset member)
      have written := Writes.again (copied.node? inFinal found)
        (by rwa [Node.isWrapper_copied]) (List.mem_map.2 ⟨_, member, rfl⟩)
        (ih within)
      rwa [copied.nameText inFinal found plain] at written
  | primitive found fresh more ih =>
      have noted := List.Subset.trans more.isPrefix.subset within
      obtain ⟨before, inFinal⟩ := List.append_subset.1 noted
      have inFinal := inFinal (List.mem_singleton.2 rfl)
      refine .primitive (copied.node? inFinal found)
        (copied.notMem_map inFinal before fresh) ?_
      simpa using ih within
  | @record id r _ _ between _ types _ found fresh fields more ihFields ih =>
      have middle := List.Subset.trans more.isPrefix.subset within
      have noted := List.Subset.trans fields.isPrefix.subset middle
      obtain ⟨before, inFinal⟩ := List.append_subset.1 noted
      have inFinal := inFinal (List.mem_singleton.2 rfl)
      have targets : r.fields.map (·.node) ⊆ final :=
        List.Subset.trans fields.mem_last middle
      rw [← copied.recordText types inFinal found targets]
      refine .record (copied.node? inFinal found)
        (copied.notMem_map inFinal before fresh) ?_ (ih within)
      simpa [Function.comp_def, Field.moved, Record.copied] using ihFields middle
  | wrapper found isWrapper around inside fresh more ihInside ih =>
      have noted := List.Subset.trans more.isPrefix.subset within
      obtain ⟨middle, inFinal⟩ := List.append_subset.1 noted
      have inFinal := inFinal (List.mem_singleton.2 rfl)
      have written := Writes.wrapper (copied.node? inFinal found)
        (by rwa [Node.isWrapper_copied])
        (by rw [Node.targets_copied, around]; rfl) (ihInside middle)
        (copied.notMem_map inFinal middle fresh) (by simpa using ih within)
      rwa [wrapperText_copied] at written

end SchemaWriter

namespace Graph

open SchemaReader SchemaWriter FieldName

variable {graph copy : Graph} {place : Nat → Nat} {root : Nat}

/-- Reading has made a copy when no record is open any more. -/
theorem mirrors_of_copies {last : List Nat} {p : Progress}
    (rooted : graph.root = some root)
    (copies : Copies graph last [] p) (member : root ∈ last)
    (reachable : ∀ id ∈ last, graph.Reachable id) :
    Mirrors { p.graph with root := some (last.idxOf root) } graph
      last.idxOf := by
  have noted : ∀ id, graph.Reachable id → id ∈ last := by
    intro id reach
    induction reach with
    | root rooted' =>
        rw [rooted] at rooted'
        cases rooted'
        exact member
    | target _ found refers ih =>
        cases copies.copied _ ih with
        | begun isOpen => cases isOpen
        | finished _ found' targets =>
            rw [found] at found'
            cases found'
            exact targets refers
  refine ⟨⟨?_, ?_, ?_⟩, ?_, ?_⟩
  · intro id reach
    rw [Set.mem_ofPred_eq, copies.size]
    exact List.idxOf_lt_length_of_mem (noted id reach)
  · intro id reach other _ same
    exact (List.idxOf_inj (noted id reach)).1 same
  · intro index inside
    rw [Set.mem_ofPred_eq, copies.size] at inside
    exact ⟨last[index], reachable _ (List.getElem_mem inside),
      copies.nodup.idxOf_getElem index inside⟩
  · rw [rooted]
    rfl
  · intro id reach
    cases copies.copied id (noted id reach) with
    | begun isOpen => cases isOpen
    | finished _ found _ present => exact ⟨_, found, present⟩

namespace Mirrors

theorem node? (mirrors : copy.Mirrors graph place) {id : Nat} {node : Node}
    (reachable : graph.Reachable id) (found : graph.node? id = some node) :
    copy.node? (place id) =
      some (node.copied (graph.recordName id) place) := by
  obtain ⟨node', found', present⟩ := mirrors.nodes id reachable
  rw [found] at found'
  cases found'
  exact present

/-- Every record of a copy is that of a record. -/
theorem exists_record (mirrors : copy.Mirrors graph place) {index : Nat}
    {s : Record} (found : copy.record? index = some s) :
    ∃ id r, graph.Reachable id ∧ graph.record? id = some r ∧
      place id = index ∧
        s.name = some ⟨graph.recordName id, r.name.bind (·.ns)⟩ := by
  rw [record?_eq_some_iff] at found
  obtain ⟨id, reachable, rfl⟩ :=
    mirrors.bijective.surjOn (lt_size_of_node? found)
  obtain ⟨node, original, present⟩ := mirrors.nodes id reachable
  rw [found] at present
  cases node with
  | record r =>
      cases present
      exact ⟨id, r, reachable, record?_eq_some_iff.2 original, rfl, rfl⟩
  | _ => cases present

/-- The records of a copy are written under the names of their originals. -/
theorem recordName (mirrors : copy.Mirrors graph place) {id : Nat} {r : Record}
    (reachable : graph.Reachable id) (found : graph.record? id = some r) :
    copy.recordName (place id) = graph.recordName id := by
  have present := mirrors.node? reachable (record?_eq_some_iff.1 found)
  rw [recordName_eq _ _ (record?_eq_some_iff.2 present)]
  · rfl
  · intro index s listed
    obtain ⟨other, t, _, original, rfl, named⟩ := mirrors.exists_record listed
    exact ⟨_, named, isName_recordName original⟩
  · intro index index' s s' listed listed' same
    obtain ⟨first, t, _, original, rfl, named⟩ := mirrors.exists_record listed
    obtain ⟨second, t', _, original', rfl, named'⟩ :=
      mirrors.exists_record listed'
    rw [named, named'] at same
    rw [recordName_injective original original' (Option.some.inj same)]

theorem copiedIn (mirrors : copy.Mirrors graph place) {ids : List Nat}
    (reachable : ∀ id ∈ ids, graph.Reachable id) :
    CopiedIn graph copy place ids where
  nodes := fun id member => mirrors.nodes id (reachable id member)
  names := fun id member _ found =>
    mirrors.recordName (reachable id member) found
  injective := fun id member other listed same =>
    mirrors.bijective.injOn (reachable id member) (reachable other listed) same

/-- Below their wrappers, nodes lead to the copies of what they lead to. -/
theorem elementType (mirrors : copy.Mirrors graph place) {pending : List Nat}
    {pending' : List Nat} (linked : graph.Linked pending)
    (copyLinked : copy.Linked pending') {id : Nat}
    (reachable : graph.Reachable id) :
    graph.Reachable (graph.elementType id) ∧
      copy.elementType (place id) = place (graph.elementType id) := by
  induction id using Nat.strong_induction_on with
  | _ id ih =>
      obtain ⟨node, found, present⟩ := mirrors.nodes id reachable
      cases node with
      | array inner =>
          have below := linked.descends id _ found rfl inner List.mem_cons_self
          rw [elementType_array linked found,
            elementType_array copyLinked present]
          exact ih inner below (.target reachable found List.mem_cons_self)
      | optional inner =>
          have below := linked.descends id _ found rfl inner List.mem_cons_self
          rw [elementType_optional linked found,
            elementType_optional copyLinked present]
          exact ih inner below (.target reachable found List.mem_cons_self)
      | map values =>
          rw [elementType_map found, elementType_map present]
          exact ⟨reachable, rfl⟩
      | primitive kind logical =>
          rw [elementType_of_isWrapper_eq_false found rfl,
            elementType_of_isWrapper_eq_false present rfl]
          exact ⟨reachable, rfl⟩
      | record r =>
          rw [elementType_of_isWrapper_eq_false found rfl,
            elementType_of_isWrapper_eq_false present rfl]
          exact ⟨reachable, rfl⟩

end Mirrors

/-- A graph that can be written is written and read back as a copy, which is
written in the same way. -/
theorem Writable.exists_copy (writable : graph.Writable root) :
    ∃ text copy place, graph.toTypeText = .ok text ∧
      ofTypeText text = .ok copy ∧ copy.Mirrors graph place ∧
        copy.toTypeText = .ok text := by
  obtain ⟨text, last, written, writes⟩ :=
    writes_toTypeText writable.rooted writable.linked
  obtain ⟨p, reading, copies⟩ := copies_of_writes writable writes .empty
  obtain ⟨_, _, _, same, first, alone⟩ := exists_of_mapM_typeNode_cons reading
  obtain ⟨rfl, rfl⟩ := Run.pure_eq_ok.1 alone
  cases same
  have reachable : ∀ id ∈ last, graph.Reachable id :=
    writes.reachable (List.forall_mem_singleton.2 (.root writable.rooted))
      (by simp)
  have mirrors := mirrors_of_copies writable.rooted copies
    (writes.mem_last root List.mem_cons_self) reachable
  have read : ofTypeText text =
      .ok { p.graph with root := some (last.idxOf root) } := by
    rw [ofTypeText, first]
    rfl
  refine ⟨text, _, last.idxOf, written, read, mirrors, ?_⟩
  obtain ⟨root', copyWritable⟩ := writable_of_ofTypeText read
  obtain ⟨text', last', written', writes'⟩ :=
    writes_toTypeText copyWritable.rooted copyWritable.linked
  have copyWrites := writes.copied (mirrors.copiedIn reachable)
    (List.Subset.refl last)
  cases copyWritable.rooted
  obtain ⟨types, _⟩ := writes'.deterministic copyWrites
  cases types
  exact written'

/-- Every graph that the program makes is written and read back as a copy of what
its root leads to, with records under the distinct names that were handed out for
them.  Nodes lead to one node below their wrappers where they did, and the copy is
written as the graph was. -/
theorem exists_copy_of_obtained {graph : Graph} (obtained : graph.Obtained) :
    ∃ text copy place, graph.toTypeText = .ok text ∧
      ofTypeText text = .ok copy ∧
      copy.Mirrors graph place ∧
      (∀ id r, graph.record? id = some r →
        (id, graph.recordName id) ∈ graph.recordNames) ∧
      (graph.recordNames.map (·.2)).Nodup ∧
      (∀ first second, graph.Reachable first → graph.Reachable second →
        (copy.elementType (place first) = copy.elementType (place second) ↔
          graph.elementType first = graph.elementType second)) ∧
      copy.toTypeText = .ok text := by
  obtain ⟨root, writable⟩ := obtained.writable
  obtain ⟨text, copy, place, written, read, mirrors, again⟩ :=
    writable.exists_copy
  obtain ⟨root', copyWritable⟩ := writable_of_ofTypeText read
  refine ⟨text, copy, place, written, read, mirrors,
    fun _ _ => mem_recordNames, graph.recordNames_distinct, ?_, again⟩
  intro first second isFirst isSecond
  obtain ⟨here, firstCopy⟩ :=
    mirrors.elementType writable.linked copyWritable.linked isFirst
  obtain ⟨there, secondCopy⟩ :=
    mirrors.elementType writable.linked copyWritable.linked isSecond
  rw [firstCopy, secondCopy]
  constructor
  · exact mirrors.bijective.injOn here there
  · exact congrArg place

/-- A type of trees, which contains itself. -/
def treeComponents : Components where
  roots := [⟨⟨"root", none⟩, .complex 0⟩]
  types := #[{
    name := some ⟨"string", some "urn:tree"⟩
    attributes := [⟨⟨"raw", none⟩, false, .hexBinary⟩]
    content := some (.group .once .sequence
      [.element ⟨0, none⟩ ⟨⟨"child", none⟩, .complex 0⟩]) }]

/-- The graph of trees. -/
def treeGraph : Graph where
  nodes := #[
    .record ⟨some ⟨"string", some "urn:tree"⟩, .type,
      [⟨"child", .element ⟨"child", none⟩, 1⟩,
        ⟨"raw", .attribute ⟨"raw", none⟩, 3⟩], none, none, none⟩,
    .array 0, .primitive .bytes (some .hex), .optional 2]
  root := some 0

theorem ofComponents_treeComponents :
    ofComponents treeComponents none = .ok treeGraph := by
  rfl

theorem plain_names_treeComponents :
    ∀ name ∈ treeComponents.names, name.Plain := by
  decide

theorem exists_copy_treeGraph :
    treeGraph.Obtained ∧ ∃ text copy place,
      treeGraph.toTypeText = .ok text ∧ ofTypeText text = .ok copy ∧
        copy.Mirrors treeGraph place ∧ copy.toTypeText = .ok text := by
  have obtained : treeGraph.Obtained :=
    .lowered plain_names_treeComponents ofComponents_treeComponents
  obtain ⟨text, copy, place, written, read, mirrors, _, _, _, again⟩ :=
    exists_copy_of_obtained obtained
  exact ⟨obtained, text, copy, place, written, read, mirrors, again⟩

end Graph

end XmlRecords
