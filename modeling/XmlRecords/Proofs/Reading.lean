import XmlRecords.Proofs.LoweredGraph
import XmlRecords.Proofs.Origins
import XmlRecords.Proofs.Runs
import XmlRecords.SchemaText.Reader

/-!
# Graphs that can be written

A graph can be written and read back when its references keep their rules, each
primitive has one node, and every node can be read.  Graphs from components
are of that kind if no name in the components has an opening brace, and graphs
that were read are.
-/

namespace XmlRecords

/-- What a node needs so that its written form is read as the same. -/
def Node.Readable : Node → Prop
  | .primitive kind logical => ∀ meaning ∈ logical, meaning.kind = kind
  | .record r => r.Indexed ∧ r.name.isSome ∧
      ∀ field ∈ r.fields, ∀ name ∈ field.origin.name?, name.Plain
  | _ => True

/-- A graph that can be written and read back. -/
structure Graph.Writable (graph : Graph) (root : Nat) : Prop where
  rooted : graph.root = some root
  linked : graph.Linked [root]
  interned : ∃ table, graph.Interned table
  readable : ∀ id node, graph.node? id = some node → node.Readable

theorem Lowering.NodeFits.readable {graph : Graph} {id : Nat} {node : Node}
    (fits : NodeFits QName.Plain graph id node) : node.Readable := by
  cases node with
  | primitive kind logical => exact fits.suited
  | record r =>
      exact ⟨fits.indexed r rfl, fits.named r rfl, fits.names r rfl⟩
  | _ => trivial

theorem Graph.Lowered.writable {graph : Graph} {root : Nat}
    (lowered : graph.Lowered QName.Plain root) : graph.Writable root where
  rooted := lowered.rooted
  linked := lowered.linked
  interned := lowered.interned
  readable := fun id node found => (lowered.fits id node found).readable

namespace FieldText

/-- The name of a written field. -/
def name : FieldText → String
  | .field title _ _ _ => title

/-- The type of a written field. -/
def type : FieldText → TypeText
  | .field _ type _ _ => type

/-- What a written field comes from, if that is known. -/
def origin? : FieldText → Option Origin
  | .field _ _ source _ => Origin.ofProvenance? source

end FieldText

namespace SchemaReader

/-- What reading keeps while some nodes wait to be referred to. -/
structure Progress.Sound (p : Progress) (pending : List Nat) : Prop where
  linked : p.graph.Linked pending
  interned : p.graph.Interned p.primitives
  readable : ∀ id node, p.graph.node? id = some node → node.Readable
  records : ∀ name id, p.records.lookup name = some id →
    ∃ r, p.graph.record? id = some r

/-- A step of reading that leaves some nodes waiting. -/
structure Reads (p : Progress) (pending : List Nat) (ids : List Nat)
    (q : Progress) : Prop where
  sound : q.Sound (ids ++ pending)
  growth : p.graph.Extends q.graph

variable {p q : Progress} {pending : List Nat} {id : Nat}

namespace Progress.Sound

theorem empty : ({} : Progress).Sound [] where
  linked := .empty
  interned := .empty
  readable := by simp [Graph.node?]
  records := by simp

theorem mono {fewer : List Nat} (sound : p.Sound pending)
    (below : ∀ id, fewer.count id ≤ pending.count id) : p.Sound fewer :=
  { sound with linked := sound.linked.mono below }

/-- A node is added that can be read, and the tables are kept up. -/
theorem add {node : Node} (sound : p.Sound (node.targets ++ pending))
    (graph : q.graph = (p.graph.add node).2)
    (interned : q.graph.Interned q.primitives) (readable : node.Readable)
    (records : ∀ name id, q.records.lookup name = some id →
      p.records.lookup name = some id ∨
        id = p.graph.nodes.size ∧ ∃ r, node = .record r) :
    q.Sound (p.graph.nodes.size :: pending) where
  linked := graph ▸ sound.linked.add
  interned := interned
  readable := by
    intro id other found
    rw [graph, Graph.node?_add] at found
    split at found
    · cases found
      exact readable
    · exact sound.readable id other found
  records := by
    intro name id found
    rw [graph]
    rcases records name id found with known | ⟨rfl, r, rfl⟩
    · obtain ⟨r, old⟩ := sound.records name id known
      obtain ⟨r', present, _⟩ := (Graph.Extends.add p.graph node).record old
      exact ⟨r', present⟩
    · exact ⟨r, Graph.record?_eq_some_iff.2 (Graph.node?_add_size _ _)⟩

theorem setFields (id : Nat) {fields : List Field}
    (sound : p.Sound (fields.map (·.node) ++ pending))
    (plain : ∀ field ∈ fields, ∀ name ∈ field.origin.name?, name.Plain) :
    ({ p with graph := p.graph.setFields id fields } : Progress).Sound
      pending where
  linked := sound.linked.setFields
  interned := sound.interned.setFields id fields
  readable := by
    intro other node found
    rw [Graph.node?_setFields] at found
    split at found
    · obtain ⟨old, foundOld, rfl⟩ := Option.map_eq_some_iff.1 found
      have readable := sound.readable id old foundOld
      cases old with
      | record r => exact ⟨r.indexed_withFields fields, readable.2.1, plain⟩
      | _ => exact readable
    · exact sound.readable other node found
  records := by
    intro name other found
    obtain ⟨r, old⟩ := sound.records name other found
    obtain ⟨r', present, _⟩ :=
      (Graph.Extends.setFields p.graph id fields).record old
    exact ⟨r', present⟩

end Progress.Sound

theorem addNode_eq_ok {node : Node} :
    (addNode node).run p = .ok (id, q) ↔
      id = p.graph.nodes.size ∧
        q = { p with graph := (p.graph.add node).2 } := by
  constructor
  · intro ended
    cases ended
    exact ⟨rfl, rfl⟩
  · rintro ⟨rfl, rfl⟩
    rfl

/-- Add a wrapper around the node that was read last. -/
theorem reads_wrapper {node : Node}
    (ended : (addNode node).run p = .ok (id, q))
    (sound : p.Sound (node.targets ++ pending))
    (isWrapper : node.isWrapper) : Reads p pending [id] q := by
  obtain ⟨rfl, rfl⟩ := addNode_eq_ok.1 ended
  have plain : ∀ kind logical, node ≠ .primitive kind logical := by
    rintro kind logical rfl
    cases isWrapper
  have readable : node.Readable := by
    cases node with
    | primitive kind logical => cases isWrapper
    | record r => cases isWrapper
    | _ => trivial
  exact ⟨sound.add rfl (sound.interned.add_other plain) readable
    (fun _ _ known => .inl known), Graph.Extends.add p.graph node⟩

theorem reads_primitive {kind : Primitive} {logical : Option Logical}
    (ended : (primitiveNode kind logical).run p = .ok (id, q))
    (sound : p.Sound pending)
    (suited : ∀ meaning ∈ logical, meaning.kind = kind) :
    Reads p pending [id] q := by
  rw [primitiveNode, Run.get_bind] at ended
  cases found : p.primitives.lookup (kind, logical) with
  | some known =>
      rw [found] at ended
      obtain ⟨rfl, rfl⟩ := Run.pure_eq_ok.1 ended
      have present := (sound.interned (kind, logical) id).1 found
      exact ⟨{ sound with linked := sound.linked.visit present rfl }, .refl _⟩
  | none =>
      rw [found] at ended
      obtain ⟨added, between, adding, ended⟩ := Run.bind_eq_ok.1 ended
      obtain ⟨rfl, rfl⟩ := addNode_eq_ok.1 adding
      rw [Run.modify_bind] at ended
      obtain ⟨rfl, rfl⟩ := Run.pure_eq_ok.1 ended
      have waits : p.Sound ((Node.primitive kind logical).targets ++ pending) :=
        sound
      exact ⟨waits.add rfl (sound.interned.add_primitive found) suited
        (fun _ _ known => .inl known), Graph.Extends.add p.graph _⟩

theorem reads_namedNode {name : String}
    (ended : (namedNode name).run p = .ok (id, q)) (sound : p.Sound pending) :
    Reads p pending [id] q := by
  unfold namedNode at ended
  split at ended
  · exact reads_primitive ended sound (by simp)
  · rw [Run.get_bind] at ended
    split at ended
    · next known =>
        obtain ⟨rfl, rfl⟩ := Run.pure_eq_ok.1 ended
        obtain ⟨r, found⟩ := sound.records name id known
        have linked := sound.linked.visit
          (Graph.record?_eq_some_iff.1 found) rfl
        exact ⟨{ sound with linked }, .refl _⟩
    · exact absurd ended Run.throw_ne_ok

theorem reads_longNode {logicalType : Option String}
    (ended : (longNode logicalType).run p = .ok (id, q))
    (sound : p.Sound pending) : Reads p pending [id] q := by
  unfold longNode at ended
  split at ended
  · exact reads_primitive ended sound (by simp)
  · split at ended
    · exact reads_primitive ended sound (by simp [Logical.kind])
    · exact absurd ended Run.throw_ne_ok

theorem reads_bytesNode {xmlEncoding : Option String}
    (ended : (bytesNode xmlEncoding).run p = .ok (id, q))
    (sound : p.Sound pending) : Reads p pending [id] q := by
  unfold bytesNode at ended
  split at ended
  · exact reads_primitive ended sound (by simp [Logical.kind])
  · exact reads_primitive ended sound (by simp [Logical.kind])
  · exact reads_primitive ended sound (by simp [Logical.kind])
  · exact absurd ended Run.throw_ne_ok

theorem beginRecord_eq_ok {name : String} {ns source : Option String} :
    (beginRecord name ns source).run p = .ok (id, q) ↔
      p.records.lookup name = none ∧ ∃ kind, sourceNamed? source = some kind ∧
        id = p.graph.nodes.size ∧ q = { p with
          graph := (p.graph.add
            (.record (.empty (some ⟨name, ns⟩) kind))).2
          records := (name, p.graph.nodes.size) :: p.records } := by
  rw [beginRecord, Run.get_bind]
  cases known : p.records.lookup name with
  | some other =>
      simp only [Option.isSome_some, if_true, reduceCtorEq, false_and,
        iff_false]
      intro ended
      cases ended
  | none =>
      simp only [Option.isSome_none, Bool.false_eq_true, if_false, true_and]
      cases sourceNamed? source with
      | none =>
          simp only [reduceCtorEq, false_and, exists_false, iff_false]
          intro ended
          cases ended
      | some kind =>
          simp only [Option.some.injEq, exists_eq_left']
          constructor
          · intro ended
            cases ended
            exact ⟨rfl, rfl⟩
          · rintro ⟨rfl, rfl⟩
            rfl

theorem reads_beginRecord {name : String} {ns source : Option String}
    (ended : (beginRecord name ns source).run p = .ok (id, q))
    (sound : p.Sound pending) :
    q.Sound pending ∧ p.graph.Extends q.graph ∧
      ∃ r, q.graph.record? id = some r := by
  obtain ⟨_, kind, _, rfl, rfl⟩ := beginRecord_eq_ok.1 ended
  have readable :
      (Node.record (.empty (some ⟨name, ns⟩) kind)).Readable :=
    ⟨rfl, rfl, by simp [Record.empty]⟩
  have waits : p.Sound
      ((Node.record (.empty (some ⟨name, ns⟩) kind)).targets ++ pending) :=
    sound
  have added := waits.add (q := { p with
      graph := (p.graph.add (.record (.empty (some ⟨name, ns⟩) kind))).2
      records := (name, p.graph.nodes.size) :: p.records }) rfl
    (sound.interned.add_other (by simp)) readable (by
      intro other id found
      rw [List.lookup_cons] at found
      split at found
      · exact .inr ⟨(Option.some.inj found).symm, _, rfl⟩
      · exact .inl found)
  refine ⟨{ added with linked := ?_ }, .add _ _, _,
    Graph.record?_eq_some_iff.2 (Graph.node?_add_size _ _)⟩
  exact added.linked.mono fun _ => List.count_le_count_cons

theorem arms_of_union {arms : List TypeText}
    (ended : (typeNode (.union arms)).run p = .ok (id, q)) :
    ∃ inner, arms = [.name "null", inner] := by
  by_contra other
  rw [typeNode.eq_3 arms (fun inner same => other ⟨inner, same⟩)] at ended
  exact Run.throw_ne_ok ended

mutual

theorem reads_typeNode (text : TypeText) {p q : Progress} {pending : List Nat}
    {id : Nat} (sound : p.Sound pending)
    (ended : (typeNode text).run p = .ok (id, q)) : Reads p pending [id] q := by
  cases text with
  | name name => exact reads_namedNode ended sound
  | union arms =>
      obtain ⟨inner, rfl⟩ := arms_of_union ended
      rw [typeNode] at ended
      obtain ⟨target, between, reading, ended⟩ := Run.bind_eq_ok.1 ended
      have first := reads_typeNode inner sound reading
      have second := reads_wrapper ended first.sound rfl
      exact ⟨second.sound, first.growth.trans second.growth⟩
  | record title ns source texts =>
      rw [typeNode] at ended
      obtain ⟨record, begun, beginning, ended⟩ := Run.bind_eq_ok.1 ended
      obtain ⟨fields, filled, filling, ended⟩ := Run.bind_eq_ok.1 ended
      rw [Run.modify_bind] at ended
      obtain ⟨rfl, rfl⟩ := Run.pure_eq_ok.1 ended
      obtain ⟨sound, growth, r, found⟩ := reads_beginRecord beginning sound
      obtain ⟨reads, plain⟩ := reads_fieldNodes title texts sound filling
      have growth' := reads.growth.trans
        (Graph.Extends.setFields filled.graph id fields)
      have finished := reads.sound.setFields id plain
      obtain ⟨r', found', _⟩ := growth'.record found
      have linked := finished.linked.visit
        (Graph.record?_eq_some_iff.1 found') rfl
      exact ⟨{ finished with linked }, growth.trans growth'⟩
  | array items =>
      rw [typeNode] at ended
      obtain ⟨target, between, reading, ended⟩ := Run.bind_eq_ok.1 ended
      have first := reads_typeNode items sound reading
      have second := reads_wrapper ended first.sound rfl
      exact ⟨second.sound, first.growth.trans second.growth⟩
  | map values =>
      rw [typeNode] at ended
      obtain ⟨target, between, reading, ended⟩ := Run.bind_eq_ok.1 ended
      have first := reads_typeNode values sound reading
      have second := reads_wrapper ended first.sound rfl
      exact ⟨second.sound, first.growth.trans second.growth⟩
  | long logicalType => exact reads_longNode ended sound
  | bytes xmlEncoding => exact reads_bytesNode ended sound
  | plain kind => exact reads_namedNode ended sound

theorem reads_fieldNodes (record : String) (texts : List FieldText)
    {p q : Progress} {pending : List Nat} {fields : List Field}
    (sound : p.Sound pending)
    (ended : (fieldNodes record texts).run p = .ok (fields, q)) :
    Reads p pending (fields.map (·.node)) q ∧
      ∀ field ∈ fields, ∀ name ∈ field.origin.name?, name.Plain := by
  match texts with
  | [] =>
      rw [fieldNodes] at ended
      obtain ⟨rfl, rfl⟩ := Run.pure_eq_ok.1 ended
      exact ⟨⟨sound, .refl _⟩, by simp⟩
  | .field title type source nullDefault :: rest =>
      rw [fieldNodes] at ended
      cases read : Origin.ofProvenance? source with
      | none =>
          rw [read] at ended
          exact absurd ended Run.throw_ne_ok
      | some origin =>
          rw [read] at ended
          obtain ⟨node, between, reading, ended⟩ := Run.bind_eq_ok.1 ended
          obtain ⟨others, last, readingRest, ended⟩ := Run.bind_eq_ok.1 ended
          obtain ⟨rfl, rfl⟩ := Run.pure_eq_ok.1 ended
          have first := reads_typeNode type sound reading
          obtain ⟨second, plain⟩ :=
            reads_fieldNodes record rest first.sound readingRest
          constructor
          · refine ⟨second.sound.mono ?_, first.growth.trans second.growth⟩
            intro id
            simp only [List.map_cons, List.cons_append, List.count_cons,
              List.count_append, List.count_nil]
            omega
          · intro field member
            rcases List.mem_cons.1 member with rfl | member
            · exact Origin.plain_of_ofProvenance? read
            · exact plain field member

end

end SchemaReader

/-- A graph that was read can be written. -/
theorem Graph.writable_of_ofTypeText {text : TypeText} {graph : Graph}
    (read : ofTypeText text = .ok graph) : ∃ root, graph.Writable root := by
  rw [ofTypeText] at read
  cases ended : (SchemaReader.typeNode text).run {} with
  | error e =>
      rw [ended] at read
      cases read
  | ok result =>
      obtain ⟨root, progress⟩ := result
      rw [ended] at read
      cases read
      obtain ⟨sound, _⟩ := SchemaReader.reads_typeNode text .empty ended
      exact ⟨root, rfl, { sound.linked with }, ⟨_, sound.interned⟩,
        sound.readable⟩

end XmlRecords
