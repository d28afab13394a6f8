import XmlRecords.Proofs.Coverage
import XmlRecords.Proofs.Reading
import XmlRecords.Proofs.Writing

/-!
# What written types stand for

A written type stands for a node of a graph.  A name that is no primitive's stands
for the record of that name that has begun before, which may have been described to
its end or still be around the name.  So the relation goes through a text in its
order, with the descriptions that have begun.

Reading makes such nodes.  The graph at hand is of no use for that, since the records
around a type have no fields yet.  The relation is about any graph in which the nodes
that the type adds stay as they are.
-/

namespace XmlRecords

/-- A field has the name and the origin that are written of it. -/
def FieldText.Tells (text : FieldText) (made : Field) : Prop :=
  made.name = text.name ∧ text.origin? = some made.origin

namespace TypeText

/-- The name that a type is written as, if it is one. -/
def name? : TypeText → Option String
  | .name title | .plain title => some title
  | _ => none

/-- The primitive that a type is written as, if it is one. -/
def primitive? : TypeText → Option (Primitive × Option Logical)
  | .name title | .plain title => (Primitive.ofName? title).map (·, none)
  | .long none => some (.long, none)
  | .long (some meaning) =>
      if meaning = timestampMillisName then some (.long, some .timestampMillis)
      else none
  | .bytes none | .bytes (some "base64") => some (.bytes, some .base64)
  | .bytes (some "hex") => some (.bytes, some .hex)
  | _ => none

end TypeText

/-- A record as it is described, and its node. -/
structure Description where
  title : String
  ns : Option String
  source : Option String
  fields : List FieldText
  node : Nat

namespace Description

/-- What is written of a record. -/
def text (d : Description) : TypeText := .record d.title d.ns d.source d.fields

/-- A record is filled in as it is described. -/
structure Fills (d : Description) (r : Record) : Prop where
  name : r.name = some ⟨d.title, d.ns⟩
  source : SchemaReader.sourceNamed? d.source = some r.source
  fields : List.Forall₂ FieldText.Tells d.fields r.fields
  indexed : r.Indexed

end Description

/-- Written types denote nodes of a graph, one after the other, where some records
have begun, and others begin on the way. -/
inductive Denote (graph : Graph) :
    List Description → List TypeText → List Nat → List Description → Prop where
  | done (begun : List Description) : Denote graph begun [] [] begun
  | primitive {begun after : List Description} {text : TypeText}
      {texts : List TypeText} {kind : Primitive} {logical : Option Logical}
      {id : Nat} {ids : List Nat} (told : text.primitive? = some (kind, logical))
      (found : graph.node? id = some (.primitive kind logical))
      (more : Denote graph begun texts ids after) :
      Denote graph begun (text :: texts) (id :: ids) after
  | reference {begun after : List Description} {d : Description} {text : TypeText}
      {texts : List TypeText} {ids : List Nat} (told : text.name? = some d.title)
      (unknown : Primitive.ofName? d.title = none) (listed : d ∈ begun)
      (more : Denote graph begun texts ids after) :
      Denote graph begun (text :: texts) (d.node :: ids) after
  | record {begun between after : List Description} {d : Description} {r : Record}
      {texts : List TypeText} {ids : List Nat} (new : d.title ∉ begun.map (·.title))
      (found : graph.record? d.node = some r) (fills : d.Fills r)
      (fields : Denote graph (d :: begun) (d.fields.map (·.type))
        (r.fields.map (·.node)) between)
      (more : Denote graph between texts ids after) :
      Denote graph begun (d.text :: texts) (d.node :: ids) after
  | wrapper {begun between after : List Description} {node : Node}
      {type : TypeText} {texts : List TypeText} {id inner : Nat} {ids : List Nat}
      (found : graph.node? id = some node) (isWrapper : node.isWrapper)
      (around : node.targets = [inner])
      (inside : Denote graph begun [type] [inner] between)
      (more : Denote graph between texts ids after) :
      Denote graph begun (SchemaWriter.wrapperText type node :: texts) (id :: ids)
        after

namespace Denote

variable {graph : Graph} {begun between after : List Description}
  {texts texts' : List TypeText} {ids ids' : List Nat}

theorem append (first : Denote graph begun texts ids between)
    (second : Denote graph between texts' ids' after) :
    Denote graph begun (texts ++ texts') (ids ++ ids') after := by
  induction first with
  | done => exact second
  | primitive told found _ ih => exact .primitive told found (ih second)
  | reference told unknown listed _ ih =>
      exact .reference told unknown listed (ih second)
  | record new found fills fields _ _ ih =>
      exact .record new found fills fields (ih second)
  | wrapper found isWrapper around inside _ _ ih =>
      exact .wrapper found isWrapper around inside (ih second)

/-- Whatever begins on the way is filled in. -/
theorem filled (denote : Denote graph begun texts ids after) :
    ∀ d ∈ after, d ∈ begun ∨ ∃ r, graph.record? d.node = some r ∧ d.Fills r := by
  induction denote with
  | done => exact fun d listed => .inl listed
  | primitive _ _ _ ih | reference _ _ _ _ ih => exact ih
  | record _ found fills _ _ ihFields ih =>
      intro d listed
      refine (ih d listed).elim (fun early => ?_) .inr
      refine (ihFields d early).elim (fun here => ?_) .inr
      rcases List.mem_cons.1 here with rfl | before
      · exact .inr ⟨_, found, fills⟩
      · exact .inl before
  | wrapper _ _ _ _ _ ihInside ih =>
      intro d listed
      exact (ih d listed).elim (ihInside d) .inr

/-- No two records begin under one name. -/
theorem distinct (denote : Denote graph begun texts ids after)
    (before : (begun.map (·.title)).Nodup) : (after.map (·.title)).Nodup := by
  induction denote with
  | done => exact before
  | primitive _ _ _ ih | reference _ _ _ _ ih => exact ih before
  | record new _ _ _ _ ihFields ih => exact ih (ihFields (before.cons new))
  | wrapper _ _ _ _ _ ihInside ih => exact ih (ihInside before)

end Denote

namespace Graph

variable {graph middle later : Graph} {first next id : Nat}

/-- A graph changes into another by further nodes, and by fields for records in front
of a place. -/
def KeepsFrom (graph : Graph) (first : Nat) (later : Graph) : Prop :=
  ∀ id node, graph.node? id = some node → first ≤ id ∨ node.record? = none →
    later.node? id = some node

namespace KeepsFrom

theorem refl (graph : Graph) (first : Nat) : graph.KeepsFrom first graph :=
  fun _ _ found _ => found

theorem trans (one : graph.KeepsFrom first middle) (two : middle.KeepsFrom first later) :
    graph.KeepsFrom first later :=
  fun id node found behind => two id node (one id node found behind) behind

theorem mono (keeps : graph.KeepsFrom first later) (further : first ≤ next) :
    graph.KeepsFrom next later :=
  fun id node found behind =>
    keeps id node found (behind.imp_left further.trans)

theorem add (graph : Graph) (node : Node) : graph.KeepsFrom 0 (graph.add node).2 := by
  intro id other found _
  rw [node?_add_of_lt node (lt_size_of_node? found), found]

/-- Fields of one record leave all behind it. -/
theorem setFields (graph : Graph) (id : Nat) (fields : List Field) :
    graph.KeepsFrom (id + 1) (graph.setFields id fields) := by
  intro other node found behind
  rw [node?_setFields]
  split
  · next here =>
      subst here
      have plain := behind.resolve_left (Nat.not_succ_le_self other)
      rw [found]
      cases node with
      | record r => cases plain
      | _ => rfl
  · exact found

/-- Fields of a record that was added later leave all nodes. -/
theorem setFields_of_size_le (keeps : graph.KeepsFrom 0 later)
    (new : graph.nodes.size ≤ id) (fields : List Field) :
    graph.KeepsFrom 0 (later.setFields id fields) := by
  intro other node found _
  have before := lt_size_of_node? found
  rw [node?_setFields, if_neg (by omega)]
  exact keeps other node found (.inl (Nat.zero_le other))

theorem size_le (keeps : graph.KeepsFrom 0 later) :
    graph.nodes.size ≤ later.nodes.size := by
  by_contra smaller
  obtain ⟨node, found⟩ := exists_node?_of_lt (Nat.lt_of_not_le smaller)
  have kept := keeps _ node found (.inl (Nat.zero_le _))
  exact Nat.lt_irrefl _ (lt_size_of_node? kept)

end KeepsFrom

end Graph

namespace SchemaReader

variable {α β : Type} {p q : Progress} {begun : List Description} {id : Nat}
  {kind : Primitive} {logical : Option Logical}

section Keeping

/-- A reader changes no node that there was. -/
def Keeping (reader : Read α) : Prop :=
  ∀ p q a, reader.run p = .ok (a, q) → p.graph.KeepsFrom 0 q.graph

namespace Keeping

theorem pure (a : α) : Keeping (pure a : Read α) := by
  intro p q b ended
  obtain ⟨-, rfl⟩ := Run.pure_eq_ok.1 ended
  exact .refl _ _

theorem fail (fault : FormatFault) : Keeping (fail fault : Read α) :=
  fun _ _ _ ended => absurd ended Run.throw_ne_ok

theorem bind {reader : Read α} {next : α → Read β} (first : Keeping reader)
    (later : ∀ a, Keeping (next a)) : Keeping (reader >>= next) := by
  intro p q b ended
  obtain ⟨a, between, here, there⟩ := Run.bind_eq_ok.1 ended
  exact (first p between a here).trans (later a between q b there)

theorem addNode (node : Node) : Keeping (addNode node) := by
  intro p q id ended
  obtain ⟨-, rfl⟩ := addNode_eq_ok.1 ended
  exact .add _ _

theorem primitiveNode (kind : Primitive) (logical : Option Logical) :
    Keeping (primitiveNode kind logical) := by
  intro p q id ended
  rw [SchemaReader.primitiveNode, Run.get_bind] at ended
  split at ended
  · obtain ⟨-, rfl⟩ := Run.pure_eq_ok.1 ended
    exact .refl _ _
  · obtain ⟨added, between, adding, ended⟩ := Run.bind_eq_ok.1 ended
    obtain ⟨-, rfl⟩ := addNode_eq_ok.1 adding
    rw [Run.modify_bind] at ended
    obtain ⟨-, rfl⟩ := Run.pure_eq_ok.1 ended
    exact .add _ _

theorem namedNode (name : String) : Keeping (namedNode name) := by
  unfold SchemaReader.namedNode
  split
  · exact primitiveNode _ _
  · intro p q id ended
    rw [Run.get_bind] at ended
    split at ended
    · exact pure _ p q id ended
    · exact fail _ p q id ended

theorem longNode (logicalType : Option String) : Keeping (longNode logicalType) := by
  unfold SchemaReader.longNode
  split
  · exact primitiveNode _ _
  · split
    · exact primitiveNode _ _
    · exact fail _

theorem bytesNode (xmlEncoding : Option String) : Keeping (bytesNode xmlEncoding) := by
  unfold SchemaReader.bytesNode
  split
  · exact primitiveNode _ _
  · exact primitiveNode _ _
  · exact primitiveNode _ _
  · exact fail _

theorem beginRecord (name : String) (ns source : Option String) :
    Keeping (beginRecord name ns source) := by
  intro p q id ended
  obtain ⟨_, kind, _, -, rfl⟩ := beginRecord_eq_ok.1 ended
  exact .add _ _

end Keeping

mutual

theorem keeping_typeNode (text : TypeText) : Keeping (typeNode text) := by
  cases text with
  | name name => exact .namedNode name
  | union arms =>
      intro p q id ended
      obtain ⟨inner, rfl⟩ := arms_of_union ended
      rw [typeNode] at ended
      exact (keeping_typeNode inner).bind (fun _ => .addNode _) p q id ended
  | record title ns source texts =>
      intro p q id ended
      rw [typeNode] at ended
      obtain ⟨record, between, beginning, ended⟩ := Run.bind_eq_ok.1 ended
      obtain ⟨fields, last, filling, ended⟩ := Run.bind_eq_ok.1 ended
      rw [Run.modify_bind] at ended
      obtain ⟨rfl, rfl⟩ := Run.pure_eq_ok.1 ended
      have new : p.graph.nodes.size ≤ id := by
        obtain ⟨_, kind, _, same, -⟩ := beginRecord_eq_ok.1 beginning
        exact same.ge
      have kept := (Keeping.beginRecord title ns source _ _ _ beginning).trans
        (keeping_fieldNodes title texts _ _ _ filling)
      exact kept.setFields_of_size_le new fields
  | array items =>
      rw [typeNode]
      exact (keeping_typeNode items).bind fun _ => .addNode _
  | map values =>
      rw [typeNode]
      exact (keeping_typeNode values).bind fun _ => .addNode _
  | long logicalType => exact .longNode logicalType
  | bytes xmlEncoding => exact .bytesNode xmlEncoding
  | plain kind => exact .namedNode kind

theorem keeping_fieldNodes (record : String) (texts : List FieldText) :
    Keeping (fieldNodes record texts) := by
  match texts with
  | [] =>
      rw [fieldNodes]
      exact .pure []
  | .field title type source nullDefault :: rest =>
      rw [fieldNodes]
      split
      · exact .fail _
      · exact (keeping_typeNode type).bind fun _ =>
          (keeping_fieldNodes record rest).bind fun _ => .pure _

end

end Keeping

section Denoting

/-- The reader has noted the records that have begun, and there are no others. -/
structure Progress.Notes (p : Progress) (begun : List Description) : Prop where
  records : p.records = begun.map fun d => (d.title, d.node)
  complete : ∀ id r, p.graph.record? id = some r → ∃ d ∈ begun, d.node = id

namespace Progress.Notes

theorem empty : ({} : Progress).Notes [] where
  records := rfl
  complete := by simp [Graph.record?, Graph.node?]

/-- A node that is no record is added. -/
theorem add {node : Node} (notes : p.Notes begun) (plain : node.record? = none)
    (records : q.records = p.records) (graph : q.graph = (p.graph.add node).2) :
    q.Notes begun where
  records := records.trans notes.records
  complete := by
    intro id r found
    rw [graph, Graph.record?_eq_some_iff, Graph.node?_add] at found
    split at found
    · cases found
      cases plain
    · exact notes.complete id r (Graph.record?_eq_some_iff.2 found)

theorem setFields (notes : p.Notes begun) (id : Nat) (fields : List Field) :
    ({ p with graph := p.graph.setFields id fields } : Progress).Notes begun where
  records := notes.records
  complete := by
    intro other r found
    rcases Graph.record?_setFields_cases found with ⟨rfl, old, present, _⟩ | ⟨_, present⟩
    · exact notes.complete other old present
    · exact notes.complete other r present

theorem beginRecord {name : String} {ns source : Option String}
    (notes : p.Notes begun) (fields : List FieldText)
    (ended : (beginRecord name ns source).run p = .ok (id, q)) :
    q.Notes (⟨name, ns, source, fields, id⟩ :: begun) := by
  obtain ⟨_, kind, _, rfl, rfl⟩ := beginRecord_eq_ok.1 ended
  constructor
  · simp [notes.records]
  · intro id r found
    rw [Graph.record?_eq_some_iff, Graph.node?_add] at found
    split at found
    · next here => exact ⟨_, List.mem_cons_self, here.symm⟩
    · obtain ⟨d, listed, same⟩ :=
        notes.complete id r (Graph.record?_eq_some_iff.2 found)
      exact ⟨d, List.mem_cons_of_mem _ listed, same⟩

theorem not_mem_of_lookup {name : String} (notes : p.Notes begun)
    (absent : p.records.lookup name = none) : name ∉ begun.map (·.title) := by
  rw [notes.records, List.lookup_eq_none_iff] at absent
  intro listed
  obtain ⟨d, member, rfl⟩ := List.mem_map.1 listed
  simpa using absent _ (List.mem_map.2 ⟨d, member, rfl⟩)

theorem exists_of_lookup {name : String} (notes : p.Notes begun)
    (known : p.records.lookup name = some id) :
    ∃ d ∈ begun, d.title = name ∧ d.node = id := by
  rw [notes.records] at known
  obtain ⟨before, after, split, _⟩ := List.lookup_eq_some_iff.1 known
  have listed : (name, id) ∈ begun.map fun d => (d.title, d.node) := by
    rw [split]
    exact List.mem_append_right _ List.mem_cons_self
  obtain ⟨d, member, same⟩ := List.mem_map.1 listed
  cases same
  exact ⟨d, member, rfl, rfl⟩

end Progress.Notes

theorem primitiveNode_eq_ok (interned : p.graph.Interned p.primitives)
    (notes : p.Notes begun)
    (ended : (primitiveNode kind logical).run p = .ok (id, q)) :
    q.graph.node? id = some (.primitive kind logical) ∧ q.Notes begun := by
  rw [primitiveNode, Run.get_bind] at ended
  split at ended
  · next known =>
      obtain ⟨rfl, rfl⟩ := Run.pure_eq_ok.1 ended
      exact ⟨(interned (kind, logical) id).1 known, notes⟩
  · obtain ⟨added, between, adding, ended⟩ := Run.bind_eq_ok.1 ended
    obtain ⟨rfl, rfl⟩ := addNode_eq_ok.1 adding
    rw [Run.modify_bind] at ended
    obtain ⟨rfl, rfl⟩ := Run.pure_eq_ok.1 ended
    exact ⟨Graph.node?_add_size _ _, notes.add rfl rfl rfl⟩

/-- What reading has made of written types, as it shows in a later graph. -/
def Denoted (final : Graph) (begun : List Description) (texts : List TypeText)
    (ids : List Nat) (q : Progress) : Prop :=
  ∃ after, Denote final begun texts ids after ∧ q.Notes after

variable {final : Graph} {pending : List Nat} {first : Nat}

theorem denoted_primitiveNode {text : TypeText}
    (told : text.primitive? = some (kind, logical)) (sound : p.Sound pending)
    (notes : p.Notes begun) (ended : (primitiveNode kind logical).run p = .ok (id, q))
    (keeps : q.graph.KeepsFrom first final) : Denoted final begun [text] [id] q := by
  obtain ⟨found, noted⟩ := primitiveNode_eq_ok sound.interned notes ended
  exact ⟨begun, .primitive told (keeps id _ found (.inr rfl)) (.done begun), noted⟩

theorem denoted_namedNode {name : String} {text : TypeText}
    (named : text.name? = some name)
    (told : text.primitive? = (Primitive.ofName? name).map (·, none))
    (sound : p.Sound pending) (notes : p.Notes begun)
    (ended : (namedNode name).run p = .ok (id, q))
    (keeps : q.graph.KeepsFrom first final) : Denoted final begun [text] [id] q := by
  unfold namedNode at ended
  split at ended
  · next kind known =>
      rw [known, Option.map_some] at told
      exact denoted_primitiveNode told sound notes ended keeps
  · next unknown =>
      rw [Run.get_bind] at ended
      split at ended
      · next known =>
          obtain ⟨rfl, rfl⟩ := Run.pure_eq_ok.1 ended
          obtain ⟨d, listed, rfl, rfl⟩ := notes.exists_of_lookup known
          exact ⟨begun, .reference named unknown listed (.done begun), notes⟩
      · exact absurd ended Run.throw_ne_ok

theorem denoted_longNode {logicalType : Option String} (sound : p.Sound pending)
    (notes : p.Notes begun) (ended : (longNode logicalType).run p = .ok (id, q))
    (keeps : q.graph.KeepsFrom first final) :
    Denoted final begun [.long logicalType] [id] q := by
  unfold longNode at ended
  split at ended
  · exact denoted_primitiveNode rfl sound notes ended keeps
  · next name =>
      split at ended
      · next meaning =>
          have told : (TypeText.long (some name)).primitive? =
              some (.long, some .timestampMillis) := if_pos meaning
          exact denoted_primitiveNode told sound notes ended keeps
      · exact absurd ended Run.throw_ne_ok

theorem denoted_bytesNode {xmlEncoding : Option String} (sound : p.Sound pending)
    (notes : p.Notes begun) (ended : (bytesNode xmlEncoding).run p = .ok (id, q))
    (keeps : q.graph.KeepsFrom first final) :
    Denoted final begun [.bytes xmlEncoding] [id] q := by
  unfold bytesNode at ended
  split at ended
  · exact denoted_primitiveNode rfl sound notes ended keeps
  · exact denoted_primitiveNode rfl sound notes ended keeps
  · exact denoted_primitiveNode rfl sound notes ended keeps
  · exact absurd ended Run.throw_ne_ok

/-- A wrapper is put around what has been read. -/
theorem denoted_wrapper {type : TypeText} {node : Node} {inner : Nat}
    (isWrapper : node.isWrapper) (around : node.targets = [inner])
    (inside : p.graph.KeepsFrom first final → Denoted final begun [type] [inner] p)
    (adding : (addNode node).run p = .ok (id, q))
    (keeps : q.graph.KeepsFrom first final) :
    Denoted final begun [SchemaWriter.wrapperText type node] [id] q := by
  obtain ⟨rfl, rfl⟩ := addNode_eq_ok.1 adding
  have kept := Graph.KeepsFrom.add p.graph node
  obtain ⟨after, denote, notes⟩ := inside ((kept.mono (Nat.zero_le first)).trans keeps)
  have plain : node.record? = none := by
    cases node with
    | record r => cases isWrapper
    | _ => rfl
  have found := keeps _ node (Graph.node?_add_size p.graph node) (.inr plain)
  exact ⟨after, .wrapper found isWrapper around denote (.done after),
    notes.add plain rfl rfl⟩

mutual

/-- Reading makes a node that the written type denotes in any graph that keeps what
the type adds. -/
theorem denoted_typeNode (text : TypeText) {p q : Progress} {pending : List Nat}
    {begun : List Description} {id : Nat} {final : Graph} (sound : p.Sound pending)
    (notes : p.Notes begun) (ended : (typeNode text).run p = .ok (id, q))
    (keeps : q.graph.KeepsFrom p.graph.nodes.size final) :
    Denoted final begun [text] [id] q := by
  cases text with
  | name name => exact denoted_namedNode rfl rfl sound notes ended keeps
  | union arms =>
      obtain ⟨inner, rfl⟩ := arms_of_union ended
      rw [typeNode] at ended
      obtain ⟨target, between, reading, adding⟩ := Run.bind_eq_ok.1 ended
      exact denoted_wrapper rfl rfl
        (denoted_typeNode inner sound notes reading) adding keeps
  | record title ns source texts =>
      rw [typeNode] at ended
      obtain ⟨record, started, beginning, ended⟩ := Run.bind_eq_ok.1 ended
      obtain ⟨fields, last, filling, ended⟩ := Run.bind_eq_ok.1 ended
      rw [Run.modify_bind] at ended
      obtain ⟨rfl, rfl⟩ := Run.pure_eq_ok.1 ended
      have soundStart := (reads_beginRecord beginning sound).1
      have notesStart := notes.beginRecord texts beginning
      obtain ⟨absent, kind, named, rfl, rfl⟩ := beginRecord_eq_ok.1 beginning
      -- The record is the first node that is added; its fields are set behind all others.
      have keptFields : last.graph.KeepsFrom (p.graph.nodes.size + 1) final :=
        (Graph.KeepsFrom.setFields _ _ _).trans (keeps.mono (Nat.le_succ _))
      rw [← Graph.size_add] at keptFields
      obtain ⟨⟨after, denote, notesLast⟩, tells⟩ :=
        denoted_fieldNodes title texts soundStart notesStart filling keptFields
      have present := keeping_fieldNodes title texts _ _ _ filling p.graph.nodes.size _
        (Graph.node?_add_size _ _) (.inl (Nat.zero_le _))
      have filled : (last.graph.setFields _ fields).record? _ = some _ :=
        Graph.record?_setFields_self (Graph.record?_eq_some_iff.2 present)
      have found := keeps _ _ (Graph.record?_eq_some_iff.1 filled) (.inl le_rfl)
      refine ⟨after, ?_, notesLast.setFields _ fields⟩
      exact .record (d := ⟨title, ns, source, texts, p.graph.nodes.size⟩)
        (notes.not_mem_of_lookup absent) (Graph.record?_eq_some_iff.2 found)
        ⟨rfl, named, tells, rfl⟩ denote (.done after)
  | array items =>
      rw [typeNode] at ended
      obtain ⟨target, between, reading, adding⟩ := Run.bind_eq_ok.1 ended
      exact denoted_wrapper rfl rfl
        (denoted_typeNode items sound notes reading) adding keeps
  | map values =>
      rw [typeNode] at ended
      obtain ⟨target, between, reading, adding⟩ := Run.bind_eq_ok.1 ended
      exact denoted_wrapper rfl rfl
        (denoted_typeNode values sound notes reading) adding keeps
  | long logicalType => exact denoted_longNode sound notes ended keeps
  | bytes xmlEncoding => exact denoted_bytesNode sound notes ended keeps
  | plain kind => exact denoted_namedNode rfl rfl sound notes ended keeps

theorem denoted_fieldNodes (record : String) (texts : List FieldText)
    {p q : Progress} {pending : List Nat} {begun : List Description}
    {fields : List Field} {final : Graph} (sound : p.Sound pending)
    (notes : p.Notes begun) (ended : (fieldNodes record texts).run p = .ok (fields, q))
    (keeps : q.graph.KeepsFrom p.graph.nodes.size final) :
    Denoted final begun (texts.map (·.type)) (fields.map (·.node)) q ∧
      List.Forall₂ FieldText.Tells texts fields := by
  match texts with
  | [] =>
      rw [fieldNodes] at ended
      obtain ⟨rfl, rfl⟩ := Run.pure_eq_ok.1 ended
      exact ⟨⟨begun, .done begun, notes⟩, .nil⟩
  | .field title type source nullDefault :: rest =>
      rw [fieldNodes] at ended
      split at ended
      · exact absurd ended Run.throw_ne_ok
      · next origin known =>
          obtain ⟨node, between, reading, ended⟩ := Run.bind_eq_ok.1 ended
          obtain ⟨others, last, readingRest, ended⟩ := Run.bind_eq_ok.1 ended
          obtain ⟨rfl, rfl⟩ := Run.pure_eq_ok.1 ended
          have growth := (keeping_typeNode type _ _ _ reading).size_le
          have keptRest := keeping_fieldNodes record rest _ _ _ readingRest
          obtain ⟨middle, denote, noted⟩ := denoted_typeNode type sound notes reading
            ((keptRest.mono (Nat.zero_le _)).trans keeps)
          obtain ⟨⟨after, denoteRest, notesLast⟩, tells⟩ :=
            denoted_fieldNodes record rest (reads_typeNode type sound reading).sound noted
              readingRest (keeps.mono growth)
          exact ⟨⟨after, denote.append denoteRest, notesLast⟩, .cons ⟨rfl, known⟩ tells⟩

end

end Denoting

end SchemaReader

end XmlRecords
