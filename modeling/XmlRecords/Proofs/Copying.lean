import Mathlib.Data.List.Basic
import XmlRecords.Proofs.Reading
import XmlRecords.Proofs.Writing

/-!
# Reading what was written

Reading the texts of a walk through a graph makes a copy of what was walked
through: the nodes of the copy stand in the order that was noted on the way, and
they refer to each other as the nodes of the graph do.  In the middle of it some
records are open, which have been begun but have no fields yet.
-/

namespace XmlRecords

/-- The field with its type in another place. -/
def Field.moved (place : Nat → Nat) (field : Field) : Field :=
  { field with node := place field.node }

/-- The record under another name in its namespace, with the types of its fields
in other places. -/
def Record.copied (name : String) (place : Nat → Nat) (r : Record) : Record :=
  { r with
    name := some ⟨name, r.name.bind (·.ns)⟩
    fields := r.fields.map (Field.moved place) }

/-- The node with what it refers to in other places. -/
def Node.copied (name : String) (place : Nat → Nat) : Node → Node
  | .primitive kind logical => .primitive kind logical
  | .record r => .record (r.copied name place)
  | .array item => .array (place item)
  | .optional inner => .optional (place inner)
  | .map values => .map (place values)

@[simp]
theorem Node.isWrapper_copied (name : String) (place : Nat → Nat) (node : Node) :
    (node.copied name place).isWrapper = node.isWrapper := by
  cases node <;> rfl

@[simp]
theorem Node.targets_copied (name : String) (place : Nat → Nat) (node : Node) :
    (node.copied name place).targets = node.targets.map place := by
  cases node with
  | record r => simp [copied, Record.copied, targets, Field.moved]
  | _ => rfl

theorem Node.copied_congr {name : String} {place place' : Nat → Nat}
    {node : Node} (same : ∀ target ∈ node.targets, place target = place' target) :
    node.copied name place = node.copied name place' := by
  cases node with
  | primitive kind logical => rfl
  | record r =>
      have moved : ∀ field ∈ r.fields,
          Field.moved place field = Field.moved place' field := by
        intro field member
        rw [Field.moved, Field.moved,
          same field.node (List.mem_map.2 ⟨field, member, rfl⟩)]
      simp only [copied, Record.copied, List.map_congr_left moved]
  | array item => rw [copied, copied, same item List.mem_cons_self]
  | optional inner => rw [copied, copied, same inner List.mem_cons_self]
  | map values => rw [copied, copied, same values List.mem_cons_self]

theorem Record.withFields_moved {r : Record} (indexed : r.Indexed)
    (name : String) (place : Nat → Nat) :
    (Record.empty (some ⟨name, r.name.bind (·.ns)⟩) r.source).withFields
        (r.fields.map (Field.moved place)) = r.copied name place := by
  have origins : ∀ origin : Origin,
      (r.fields.map (Field.moved place)).findIdx? (·.origin == origin) =
        r.fields.findIdx? (·.origin == origin) := by
    intro origin
    rw [List.findIdx?_map]
    rfl
  rw [Indexed] at indexed
  rw [withFields, origins, origins, origins]
  conv_rhs => rw [copied, ← indexed]
  rfl

namespace SchemaReader

open SchemaWriter

theorem sourceNamed?_sourceText (source : RecordSource) :
    sourceNamed? (sourceText source) = some source := by
  cases source with
  | group compositor => cases compositor <;> rfl
  | _ => rfl

theorem ofName?_eq_none {name : String}
    (free : FieldName.isReserved name = false) : Primitive.ofName? name = none := by
  rw [Primitive.ofName?, List.find?_eq_none]
  intro kind _ same
  rw [beq_iff_eq] at same
  subst same
  revert free
  cases kind <;> decide

theorem typeNode_primitiveText {kind : Primitive} {logical : Option Logical}
    (suited : ∀ meaning ∈ logical, meaning.kind = kind) :
    typeNode (primitiveText kind logical) = primitiveNode kind logical := by
  cases logical with
  | none => cases kind <;> rfl
  | some meaning =>
      obtain rfl := suited meaning rfl
      cases meaning <;> rfl

variable {p q r : Progress}

theorem typeNode_wrapperText {type : TypeText} {node : Node} {name : String}
    {target id : Nat} (isWrapper : node.isWrapper)
    (inside : (typeNode type).run p = .ok (target, q))
    (adding : (addNode (node.copied name fun _ => target)).run q =
      .ok (id, r)) :
    (typeNode (wrapperText type node)).run p = .ok (id, r) := by
  cases node with
  | array item =>
      rw [wrapperText, typeNode]
      exact Run.bind_eq_ok.2 ⟨_, _, inside, adding⟩
  | optional inner =>
      rw [wrapperText, typeNode]
      exact Run.bind_eq_ok.2 ⟨_, _, inside, adding⟩
  | map values =>
      rw [wrapperText, typeNode]
      exact Run.bind_eq_ok.2 ⟨_, _, inside, adding⟩
  | _ => cases isWrapper

theorem typeNode_recordText {title : String} {ns source : Option String}
    {texts : List FieldText} {id : Nat} {fields : List Field}
    (beginning : (beginRecord title ns source).run p = .ok (id, q))
    (filling : (fieldNodes title texts).run q = .ok (fields, r)) :
    (typeNode (.record title ns source texts)).run p =
      .ok (id, { r with graph := r.graph.setFields id fields }) := by
  rw [typeNode]
  exact Run.bind_eq_ok.2 ⟨_, _, beginning,
    Run.bind_eq_ok.2 ⟨_, _, filling, rfl⟩⟩

theorem mapM_typeNode_cons {text : TypeText} {texts : List TypeText} {id : Nat}
    {ids : List Nat} (first : (typeNode text).run p = .ok (id, q))
    (more : (texts.mapM typeNode).run q = .ok (ids, r)) :
    ((text :: texts).mapM typeNode).run p = .ok (id :: ids, r) := by
  rw [List.mapM_cons]
  exact Run.bind_eq_ok.2 ⟨_, _, first,
    Run.bind_eq_ok.2 ⟨_, _, more, Run.pure_eq_ok.2 ⟨rfl, rfl⟩⟩⟩

theorem exists_of_mapM_typeNode_cons {text : TypeText} {texts : List TypeText}
    {ids : List Nat}
    (ended : ((text :: texts).mapM typeNode).run p = .ok (ids, r)) :
    ∃ id rest q, ids = id :: rest ∧ (typeNode text).run p = .ok (id, q) ∧
      (texts.mapM typeNode).run q = .ok (rest, r) := by
  rw [List.mapM_cons] at ended
  obtain ⟨id, q, first, ended⟩ := Run.bind_eq_ok.1 ended
  obtain ⟨rest, last, more, ended⟩ := Run.bind_eq_ok.1 ended
  obtain ⟨rfl, rfl⟩ := Run.pure_eq_ok.1 ended
  exact ⟨id, rest, q, rfl, first, more⟩

/-- Written fields are read as they were, with the places of their types. -/
theorem fieldNodes_zipWith (graph : Graph) (title : String) (place : Nat → Nat)
    {fields : List Field} {types : List TypeText}
    (plain : ∀ field ∈ fields, ∀ name ∈ field.origin.name?, name.Plain)
    (ended : (types.mapM typeNode).run p =
      .ok ((fields.map (·.node)).map place, q)) :
    (fieldNodes title (List.zipWith (fieldText graph) fields types)).run p =
      .ok (fields.map (Field.moved place), q) := by
  induction fields generalizing types p with
  | nil =>
      cases types with
      | nil =>
          obtain ⟨_, rfl⟩ := Run.pure_eq_ok.1 ended
          exact Run.pure_eq_ok.2 ⟨rfl, rfl⟩
      | cons type types =>
          obtain ⟨_, _, _, impossible, _⟩ := exists_of_mapM_typeNode_cons ended
          cases impossible
  | cons field rest ih =>
      cases types with
      | nil => cases (Run.pure_eq_ok.1 ended).1
      | cons type types =>
          obtain ⟨id, ids, between, same, first, more⟩ :=
            exists_of_mapM_typeNode_cons ended
          cases same
          have others := ih (fun field member => plain field
            (List.mem_cons_of_mem _ member)) more
          have origin := Origin.ofProvenance?_provenance
            (plain field List.mem_cons_self)
          rw [List.zipWith_cons_cons, fieldText, fieldNodes, origin]
          exact Run.bind_eq_ok.2 ⟨_, _, first,
            Run.bind_eq_ok.2 ⟨_, _, others, Run.pure_eq_ok.2 ⟨rfl, rfl⟩⟩⟩

/-- A table leads from keys to the places of nodes in an order. -/
def Lists {κ : Type} [BEq κ] (table : List (κ × Nat)) (order : List Nat)
    (keyed : κ → Nat → Prop) : Prop :=
  ∀ key place, table.lookup key = some place ↔
    ∃ id, order[place]? = some id ∧ keyed key id

namespace Lists

variable {κ : Type} [BEq κ] {table : List (κ × Nat)}
  {order : List Nat} {keyed : κ → Nat → Prop} {key : κ} {id : Nat}

theorem lookup_of_mem (lists : Lists table order keyed) (member : id ∈ order)
    (isKeyed : keyed key id) : table.lookup key = some (order.idxOf id) :=
  (lists key _).2 ⟨id, List.getElem?_idxOf member, isKeyed⟩

theorem lookup_eq_none (lists : Lists table order keyed)
    (absent : ∀ other ∈ order, ¬ keyed key other) :
    table.lookup key = none := by
  rw [Option.eq_none_iff_forall_ne_some]
  intro place found
  obtain ⟨other, listed, isKeyed⟩ := (lists key place).1 found
  exact absent other (List.mem_of_getElem? listed) isKeyed

theorem lookup_append (lists : Lists table order keyed)
    (unkeyed : ¬ keyed key id) (place : Nat) :
    table.lookup key = some place ↔
      ∃ other, (order ++ [id])[place]? = some other ∧ keyed key other := by
  rw [lists key place]
  constructor
  · rintro ⟨other, listed, isKeyed⟩
    exact ⟨other, List.getElem?_append_left
      (List.getElem?_eq_some_iff.1 listed).1 ▸ listed, isKeyed⟩
  · rintro ⟨other, listed, isKeyed⟩
    rw [List.getElem?_append] at listed
    split at listed
    · exact ⟨other, listed, isKeyed⟩
    · rw [List.getElem?_singleton] at listed
      split at listed
      · cases listed
        exact absurd isKeyed unkeyed
      · cases listed

/-- A node is noted that has no key. -/
theorem skip (lists : Lists table order keyed) (unkeyed : ∀ key, ¬ keyed key id) :
    Lists table (order ++ [id]) keyed :=
  fun key place => lists.lookup_append (unkeyed key) place

/-- A node is noted with its key, which belongs to no other. -/
theorem add [LawfulBEq κ] (lists : Lists table order keyed)
    (isKeyed : keyed key id) (only : ∀ other, keyed other id → other = key)
    (absent : ∀ other ∈ order, ¬ keyed key other) :
    Lists ((key, order.length) :: table) (order ++ [id]) keyed := by
  intro other place
  rw [List.lookup_cons]
  by_cases same : other = key
  · subst same
    rw [beq_self_eq_true]
    constructor
    · intro found
      cases found
      exact ⟨id, List.getElem?_concat_length, isKeyed⟩
    · rintro ⟨node, listed, nodeKeyed⟩
      rw [List.getElem?_append] at listed
      split at listed
      · exact absurd nodeKeyed (absent node (List.mem_of_getElem? listed))
      · next behind =>
          rw [List.getElem?_singleton] at listed
          split at listed
          · next first =>
              have last : place = order.length := by omega
              rw [last]
          · cases listed
  · rw [beq_false_of_ne same]
    exact lists.lookup_append (fun isOther => same (only other isOther)) place

end Lists

/-- How a node has been copied: a record has been begun, or it and any other node
is there as it should be. -/
inductive Copied (graph : Graph) (order opened : List Nat) (copy : Graph)
    (id : Nat) : Prop where
  | begun {r : Record} (isOpen : id ∈ opened)
      (found : graph.node? id = some (.record r))
      (present : copy.node? (order.idxOf id) = some (.record (.empty
        (some ⟨graph.recordName id, r.name.bind (·.ns)⟩) r.source)))
  | finished {node : Node} (closed : id ∉ opened)
      (found : graph.node? id = some node)
      (targets : node.targets ⊆ order)
      (present : copy.node? (order.idxOf id) =
        some (node.copied (graph.recordName id) order.idxOf))

/-- What reading has made when the nodes in an order have been noted. -/
structure Copies (graph : Graph) (order opened : List Nat) (p : Progress) :
    Prop where
  nodup : order.Nodup
  size : p.graph.nodes.size = order.length
  known : opened ⊆ order
  copied : ∀ id ∈ order, Copied graph order opened p.graph id
  records : Lists p.records order fun name id =>
    (∃ r, graph.record? id = some r) ∧ name = graph.recordName id
  primitives : Lists p.primitives order fun key id =>
    graph.node? id = some (.primitive key.1 key.2)

variable {graph : Graph} {order opened opened' : List Nat} {id new : Nat}

theorem Copied.append {copy : Graph} {node : Node}
    (copied : Copied graph order opened copy id) (member : id ∈ order)
    (size : copy.nodes.size = order.length) (same : id ∈ opened' ↔ id ∈ opened) :
    Copied graph (order ++ [new]) opened' (copy.add node).2 id := by
  have place : ∀ other ∈ order, (order ++ [new]).idxOf other = order.idxOf other :=
    fun other member => List.idxOf_append_of_mem member
  have inside : order.idxOf id < copy.nodes.size :=
    size ▸ List.idxOf_lt_length_of_mem member
  cases copied with
  | begun isOpen found present =>
      refine .begun (same.2 isOpen) found ?_
      rw [place id member, Graph.node?_add_of_lt node inside, present]
  | @finished other closed found targets present =>
      refine .finished (mt same.1 closed) found
        (List.Subset.trans targets (List.subset_append_left _ _)) ?_
      rw [place id member, Graph.node?_add_of_lt node inside, present,
        Node.copied_congr fun target listed => place target (targets listed)]

namespace Copies

theorem empty : Copies graph [] [] {} where
  nodup := List.nodup_nil
  size := rfl
  known := List.Subset.refl _
  copied := by simp
  records := by simp [Lists]
  primitives := by simp [Lists]

/-- A node is noted, and the tables are kept up. -/
theorem add {node : Node} (copies : Copies graph order opened p)
    (fresh : id ∉ order) (isGraph : q.graph = (p.graph.add node).2)
    (isOpened : opened' ⊆ id :: opened) (kept : opened ⊆ opened')
    (copied : Copied graph (order ++ [id]) opened' q.graph id)
    (records : Lists q.records (order ++ [id]) fun name id =>
      (∃ r, graph.record? id = some r) ∧ name = graph.recordName id)
    (primitives : Lists q.primitives (order ++ [id]) fun key id =>
      graph.node? id = some (.primitive key.1 key.2)) :
    Copies graph (order ++ [id]) opened' q where
  nodup := List.nodup_append_comm.1 (List.nodup_cons.2 ⟨fresh, copies.nodup⟩)
  size := by
    rw [isGraph, Graph.size_add, copies.size, List.length_append,
      List.length_singleton]
  known := by
    intro other member
    rcases List.mem_cons.1 (isOpened member) with rfl | member
    · simp
    · exact List.mem_append_left _ (copies.known member)
  copied := by
    intro other member
    rcases List.mem_append.1 member with member | member
    · have differs : other ≠ id := ne_of_mem_of_not_mem member fresh
      rw [isGraph]
      refine (copies.copied other member).append member copies.size ⟨?_, ?_⟩
      · intro isOpen
        exact (List.mem_cons.1 (isOpened isOpen)).resolve_left differs
      · exact fun isOpen => kept isOpen
    · rwa [List.mem_singleton.1 member]
  records := records
  primitives := primitives

theorem addPrimitive {kind : Primitive} {logical : Option Logical}
    (copies : Copies graph order opened p)
    (interned : ∃ table, graph.Interned table)
    (found : graph.node? id = some (.primitive kind logical))
    (fresh : id ∉ order) :
    ∃ q, (primitiveNode kind logical).run p = .ok (order.length, q) ∧
      Copies graph (order ++ [id]) opened q := by
  have absent : ∀ other ∈ order,
      graph.node? other ≠ some (.primitive kind logical) := by
    obtain ⟨table, interned⟩ := interned
    intro other member present
    exact fresh (interned.unique found present ▸ member)
  have missing : p.primitives.lookup (kind, logical) = none :=
    copies.primitives.lookup_eq_none absent
  refine ⟨{ p with
    graph := (p.graph.add (.primitive kind logical)).2
    primitives := ((kind, logical), p.graph.nodes.size) :: p.primitives }, ?_, ?_⟩
  · rw [primitiveNode, Run.get_bind, missing, ← copies.size]
    rfl
  · apply copies.add fresh rfl (List.subset_cons_self _ _) (List.Subset.refl _)
    · refine .finished (fun isOpen => fresh (copies.known isOpen)) found
        (List.nil_subset _) ?_
      rw [List.idxOf_append_of_notMem fresh, List.idxOf_cons_self, Nat.add_zero,
        ← copies.size, Graph.node?_add_size]
      rfl
    · apply copies.records.skip
      rintro name ⟨⟨r, present⟩, _⟩
      rw [Graph.record?_eq_some_iff, found] at present
      cases present
    · rw [copies.size]
      apply copies.primitives.add found _ absent
      intro key present
      rw [found] at present
      cases present
      rfl

theorem beginRecord {r : Record} (copies : Copies graph order opened p)
    (found : graph.node? id = some (.record r)) (fresh : id ∉ order) :
    ∃ q, (beginRecord (graph.recordName id) (r.name.bind (·.ns))
        (sourceText r.source)).run p = .ok (order.length, q) ∧
      Copies graph (order ++ [id]) (id :: opened) q := by
  have isRecord := Graph.record?_eq_some_iff.2 found
  have absent : ∀ other ∈ order, ¬ ((∃ s, graph.record? other = some s) ∧
      graph.recordName id = graph.recordName other) := by
    rintro other member ⟨⟨s, present⟩, same⟩
    exact fresh (Graph.recordName_injective isRecord present same ▸ member)
  have missing : p.records.lookup (graph.recordName id) = none :=
    copies.records.lookup_eq_none absent
  refine ⟨{ p with
    graph := (p.graph.add (.record (.empty
      (some ⟨graph.recordName id, r.name.bind (·.ns)⟩) r.source))).2
    records := (graph.recordName id, p.graph.nodes.size) :: p.records }, ?_, ?_⟩
  · exact beginRecord_eq_ok.2 ⟨missing, r.source,
      sourceNamed?_sourceText r.source, copies.size.symm, rfl⟩
  · apply copies.add fresh rfl (List.Subset.refl _) (List.subset_cons_self _ _)
    · refine .begun List.mem_cons_self found ?_
      rw [List.idxOf_append_of_notMem fresh, List.idxOf_cons_self, Nat.add_zero,
        ← copies.size, Graph.node?_add_size]
    · rw [copies.size]
      exact copies.records.add ⟨⟨r, isRecord⟩, rfl⟩ (fun _ isOther => isOther.2)
        absent
    · apply copies.primitives.skip
      intro key present
      rw [found] at present
      cases present

theorem addWrapper {node : Node} {inner : Nat}
    (copies : Copies graph order opened p)
    (found : graph.node? id = some node) (isWrapper : node.isWrapper)
    (around : node.targets = [inner]) (inside : inner ∈ order)
    (fresh : id ∉ order) :
    ∃ q, (addNode (node.copied (graph.recordName id)
        fun _ => order.idxOf inner)).run p = .ok (order.length, q) ∧
      Copies graph (order ++ [id]) opened q := by
  have targets : node.targets ⊆ order := by
    rw [around]
    exact List.cons_subset.2 ⟨inside, List.nil_subset _⟩
  refine ⟨_, addNode_eq_ok.2 ⟨copies.size.symm, rfl⟩, ?_⟩
  apply copies.add fresh rfl (List.subset_cons_self _ _) (List.Subset.refl _)
  · refine .finished (fun isOpen => fresh (copies.known isOpen)) found
      (List.Subset.trans targets (List.subset_append_left _ _)) ?_
    rw [List.idxOf_append_of_notMem fresh, List.idxOf_cons_self, Nat.add_zero,
      ← copies.size, Graph.node?_add_size]
    congr 1
    apply Node.copied_congr
    intro target member
    rw [List.idxOf_append_of_mem (targets member)]
    rw [around, List.mem_singleton] at member
    rw [member]
  · apply copies.records.skip
    rintro name ⟨⟨r, present⟩, _⟩
    rw [Graph.record?_eq_some_iff, found] at present
    cases present
    cases isWrapper
  · apply copies.primitives.skip
    intro key present
    rw [found] at present
    cases present
    cases isWrapper

/-- The record that was begun last gets its fields. -/
theorem setFields {r : Record} (copies : Copies graph order (id :: opened) p)
    (found : graph.node? id = some (.record r)) (indexed : r.Indexed)
    (closed : id ∉ opened) (targets : r.fields.map (·.node) ⊆ order) :
    Copies graph order opened { p with
      graph := p.graph.setFields (order.idxOf id)
        (r.fields.map (Field.moved order.idxOf)) } := by
  have member : id ∈ order := copies.known List.mem_cons_self
  have begun : p.graph.node? (order.idxOf id) = some (.record (.empty
      (some ⟨graph.recordName id, r.name.bind (·.ns)⟩) r.source)) := by
    cases copies.copied id member with
    | begun _ found' present =>
        rw [found] at found'
        cases found'
        exact present
    | finished notOpen => exact absurd List.mem_cons_self notOpen
  refine ⟨copies.nodup, ?_, ?_, ?_, copies.records, copies.primitives⟩
  · rw [Graph.size_setFields, copies.size]
  · exact fun other isOpen => copies.known (List.mem_cons_of_mem _ isOpen)
  · intro other listed
    by_cases same : other = id
    · subst same
      refine .finished closed found targets ?_
      rw [Graph.node?_setFields, if_pos rfl, begun, Option.map_some,
        Node.withFields, Record.withFields_moved indexed]
      rfl
    · have place : order.idxOf other ≠ order.idxOf id := by
        intro samePlace
        exact same ((List.idxOf_inj listed).1 samePlace)
      cases copies.copied other listed with
      | begun isOpen found present =>
          refine .begun ((List.mem_cons.1 isOpen).resolve_left same) found ?_
          rw [Graph.node?_setFields, if_neg place, present]
      | finished closed found targets present =>
          refine .finished (fun isOpen => closed (List.mem_cons_of_mem _ isOpen))
            found targets ?_
          rw [Graph.node?_setFields, if_neg place, present]

end Copies

/-- What is written for a node that was noted leads to its copy. -/
theorem typeNode_nameText {node : Node} (copies : Copies graph order opened p)
    (readable : node.Readable) (found : graph.node? id = some node)
    (plain : node.isWrapper = false) (member : id ∈ order) :
    (typeNode (nameText graph id node)).run p =
      .ok (order.idxOf id, p) := by
  cases node with
  | primitive kind logical =>
      have known : p.primitives.lookup (kind, logical) =
          some (order.idxOf id) :=
        copies.primitives.lookup_of_mem member found
      rw [nameText, typeNode_primitiveText readable, primitiveNode,
        Run.get_bind, known]
      rfl
  | record r =>
      have isRecord := Graph.record?_eq_some_iff.2 found
      have known : p.records.lookup (graph.recordName id) =
          some (order.idxOf id) :=
        copies.records.lookup_of_mem member ⟨⟨r, isRecord⟩, rfl⟩
      have noPrimitive := ofName?_eq_none (Graph.isName_recordName isRecord).2
      have written : nameText graph id (.record r) =
          .name (graph.recordName id) := rfl
      rw [written, typeNode, namedNode, noPrimitive]
      simp only [Run.get_bind, known]
      rfl
  | _ => cases plain

/-- A node has the place at which it was noted. -/
theorem idxOf_noted {last : List Nat} (fresh : id ∉ order)
    (noted : order ++ [id] <+: last) : last.idxOf id = order.length := by
  rw [← noted.idxOf_eq_of_mem (by simp), List.idxOf_append_of_notMem fresh,
    List.idxOf_cons_self, Nat.add_zero]

/-- Reading makes copies of all nodes that were written, in the order that was
noted, and refers to them. -/
theorem copies_of_writes {root : Nat} (writable : graph.Writable root)
    {ids last : List Nat} {texts : List TypeText}
    (writes : Writes graph ids order texts last)
    (copies : Copies graph order opened p) :
    ∃ q, (texts.mapM typeNode).run p = .ok (ids.map last.idxOf, q) ∧
      Copies graph last opened q := by
  induction writes generalizing opened p with
  | done => exact ⟨p, rfl, copies⟩
  | again found plain member more ih =>
      obtain ⟨q, ended, copied⟩ := ih copies
      have first := typeNode_nameText copies (writable.readable _ _ found)
        found plain member
      rw [more.isPrefix.idxOf_eq_of_mem member] at first
      exact ⟨q, mapM_typeNode_cons first ended, copied⟩
  | primitive found fresh more ih =>
      obtain ⟨between, first, copied⟩ :=
        copies.addPrimitive writable.interned found fresh
      obtain ⟨q, ended, copied⟩ := ih copied
      rw [← typeNode_primitiveText (writable.readable _ _ found),
        ← idxOf_noted fresh more.isPrefix] at first
      exact ⟨q, mapM_typeNode_cons first ended, copied⟩
  | @record id r _ _ between last _ _ found fresh fields more ihFields ih =>
      obtain ⟨begun, beginning, opening⟩ := copies.beginRecord found fresh
      obtain ⟨filled, filling, filledCopies⟩ := ihFields opening
      obtain ⟨indexed, _, plain⟩ := writable.readable _ _ found
      have closed : id ∉ opened := fun isOpen => fresh (copies.known isOpen)
      have finished := filledCopies.setFields found indexed closed
        fields.mem_last
      obtain ⟨q, ended, copied⟩ := ih finished
      have fieldsEnded := fieldNodes_zipWith graph (graph.recordName id)
        between.idxOf plain filling
      rw [← idxOf_noted fresh fields.isPrefix] at beginning
      have first := typeNode_recordText beginning fieldsEnded
      have member : id ∈ between := fields.isPrefix.subset (by simp)
      rw [more.isPrefix.idxOf_eq_of_mem member] at first ended
      exact ⟨q, mapM_typeNode_cons first ended, copied⟩
  | wrapper found isWrapper around inside fresh more ihInside ih =>
      obtain ⟨within, reading, withinCopies⟩ := ihInside copies
      obtain ⟨_, _, _, same, innerEnded, alone⟩ :=
        exists_of_mapM_typeNode_cons reading
      obtain ⟨rfl, rfl⟩ := Run.pure_eq_ok.1 alone
      cases same
      obtain ⟨wrapped, adding, wrappedCopies⟩ := withinCopies.addWrapper found
        isWrapper around (inside.mem_last _ List.mem_cons_self) fresh
      obtain ⟨q, ended, copied⟩ := ih wrappedCopies
      rw [← idxOf_noted fresh more.isPrefix] at adding
      have first := typeNode_wrapperText isWrapper innerEnded adding
      exact ⟨q, mapM_typeNode_cons first ended, copied⟩

end SchemaReader

end XmlRecords
