import XmlRecords.Proofs.ReadableText
import XmlRecords.Proofs.Termination

/-!
# Names that are read as others

A name with an opening brace in its local part may be read back as a name in a
namespace.  So a graph with such names is not read back as a copy of itself, but as a
copy of the graph with the names that are read in their place.  The kinds of fields and
what they lead to stay the same, and so do the orders in which transcoding goes down.
-/

namespace XmlRecords

namespace Origin

/-- The origin without the name that it carries. -/
def bare : Origin → Origin
  | .element _ => .element (.unqualified "")
  | .attribute _ => .attribute (.unqualified "")
  | origin => origin

theorem plain_bare (origin : Origin) : ∀ name ∈ origin.bare.name?, name.Plain := by
  cases origin <;> simp [bare, name?, QName.Plain, QName.unqualified]

/-- What an origin is read as when it has been written.  It loses its name if it is not
read at all. -/
def reread (origin : Origin) : Origin := (ofProvenance? origin.provenance).getD origin.bare

theorem plain_reread (origin : Origin) : ∀ name ∈ origin.reread.name?, name.Plain := by
  rw [reread]
  cases read : ofProvenance? origin.provenance with
  | none => exact plain_bare origin
  | some other => exact plain_of_ofProvenance? read

/-- An origin is read as one of its kind. -/
theorem bare_reread (origin : Origin) : origin.reread.bare = origin.bare := by
  cases origin with
  | element name =>
      rw [reread, ofProvenance?_element]
      cases readName? name.text.toList <;> rfl
  | «attribute» name =>
      rw [reread, ofProvenance?_attribute]
      cases readName? name.text.toList <;> rfl
  | _ => rfl

theorem reread_eq_iff {origin kind : Origin} (nameless : kind.name? = none) :
    origin.reread = kind ↔ origin = kind := by
  have same := bare_reread origin
  cases origin <;> cases kind <;> cases read : reread _ <;> simp_all [bare, name?]

/-- An origin that is read is written in the same way again. -/
theorem provenance_reread {origin : Origin}
    (read : (ofProvenance? origin.provenance).isSome) :
    origin.reread.provenance = origin.provenance := by
  have written : ∀ {name other : QName}, readName? name.text.toList = some other →
      other.text = name.text :=
    fun found => String.toList_inj.1 (text_of_readName? found)
  cases origin with
  | element name =>
      rw [reread]
      rw [ofProvenance?_element, Option.isSome_map] at read
      obtain ⟨other, found⟩ := Option.isSome_iff_exists.1 read
      rw [ofProvenance?_element, found]
      exact congrArg ("element " ++ ·) (written found)
  | «attribute» name =>
      rw [reread]
      rw [ofProvenance?_attribute, Option.isSome_map] at read
      obtain ⟨other, found⟩ := Option.isSome_iff_exists.1 read
      rw [ofProvenance?_attribute, found]
      exact congrArg ("attribute " ++ ·) (written found)
  | _ => rfl

end Origin

/-- A field with the origin that is read in place of its own. -/
def Field.reread (field : Field) : Field := { field with origin := field.origin.reread }

/-- A record with the origins that are read in place of its own. -/
def Record.reread (r : Record) : Record := { r with fields := r.fields.map Field.reread }

theorem Record.indexed_reread {r : Record} (indexed : r.Indexed) : r.reread.Indexed := by
  have same : ∀ kind : Origin, kind.name? = none →
      (r.fields.map Field.reread).findIdx? (·.origin == kind) =
        r.fields.findIdx? (·.origin == kind) := by
    intro kind nameless
    rw [List.findIdx?_map]
    congr 1
    funext field
    exact decide_eq_decide.2 (Origin.reread_eq_iff nameless)
  rw [Indexed, reread, withFields, same _ rfl, same _ rfl, same _ rfl,
    ← indexed.elementWildcard_eq, ← indexed.attributeWildcard_eq, ← indexed.text_eq]

namespace Node

/-- A node with the origins that are read in place of its own. -/
def reread : Node → Node
  | .record r => .record r.reread
  | node => node

@[simp]
theorem targets_reread (node : Node) : node.reread.targets = node.targets := by
  cases node with
  | record r => simp [reread, Record.reread, targets, Field.reread]
  | _ => rfl

@[simp]
theorem isWrapper_reread (node : Node) : node.reread.isWrapper = node.isWrapper := by
  cases node <;> rfl

theorem reread_eq_primitive_iff {node : Node} {kind : Primitive} {logical : Option Logical} :
    node.reread = .primitive kind logical ↔ node = .primitive kind logical := by
  cases node <;> simp [reread]

end Node

namespace Graph

variable {graph : Graph} {root id : Nat} {allowed : QName → Prop}

/-- A graph with the origins that are read in place of its own. -/
def reread (graph : Graph) : Graph := { graph with nodes := graph.nodes.map Node.reread }

@[simp]
theorem node?_reread (graph : Graph) (id : Nat) :
    graph.reread.node? id = (graph.node? id).map Node.reread := by
  simp [reread, node?]

@[simp]
theorem record?_reread (graph : Graph) (id : Nat) :
    graph.reread.record? id = (graph.record? id).map Record.reread := by
  rw [record?, record?, node?_reread]
  cases graph.node? id with
  | none => rfl
  | some node => cases node <;> rfl

@[simp]
theorem size_reread (graph : Graph) : graph.reread.nodes.size = graph.nodes.size := by
  simp [reread]

theorem references_reread (graph : Graph) : graph.reread.references = graph.references := by
  simp [references, reread, List.flatMap_map]

theorem Linked.reread {pending : List Nat} (linked : graph.Linked pending) :
    graph.reread.Linked pending where
  closed := by
    intro id node found target member
    rw [node?_reread, Option.map_eq_some_iff] at found
    obtain ⟨old, found, rfl⟩ := found
    rw [size_reread]
    exact linked.closed id old found target (by simpa using member)
  known := by
    rw [size_reread]
    exact linked.known
  descends := by
    intro id node found wrapper target member
    rw [node?_reread, Option.map_eq_some_iff] at found
    obtain ⟨old, found, rfl⟩ := found
    exact linked.descends id old found (by simpa using wrapper) target (by simpa using member)
  unshared := by
    intro id node found wrapper
    rw [node?_reread, Option.map_eq_some_iff] at found
    obtain ⟨old, found, rfl⟩ := found
    rw [references_reread]
    exact linked.unshared id old found (by simpa using wrapper)

theorem Interned.reread {table : List ((Primitive × Option Logical) × Nat)}
    (interned : graph.Interned table) : graph.reread.Interned table := by
  intro key id
  rw [interned key id, node?_reread, Option.map_eq_some_iff]
  constructor
  · exact fun found => ⟨_, found, rfl⟩
  · rintro ⟨node, found, same⟩
    rw [found, Node.reread_eq_primitive_iff.1 same]

/-- A graph that was lowered can be written with the names that are read. -/
theorem Lowered.writable_reread (lowered : graph.Lowered allowed root) :
    graph.reread.Writable root where
  rooted := lowered.rooted
  linked := lowered.linked.reread
  interned := by
    obtain ⟨table, interned⟩ := lowered.interned
    exact ⟨table, interned.reread⟩
  readable := by
    intro id node found
    rw [node?_reread, Option.map_eq_some_iff] at found
    obtain ⟨old, found, rfl⟩ := found
    have fits := lowered.fits id old found
    cases old with
    | primitive kind logical => exact fits.suited
    | record r =>
        refine ⟨Record.indexed_reread (fits.indexed r rfl), fits.named r rfl, ?_⟩
        intro field member
        obtain ⟨old, _, rfl⟩ := List.mem_map.1 member
        exact old.origin.plain_reread
    | _ => trivial

end Graph

namespace TypeText

mutual

/-- All origins in a written type can be read. -/
def HasOrigins : TypeText → Prop
  | .union arms => HaveOrigins arms
  | .record _ _ _ fields => FieldsHaveOrigins fields
  | .array inner | .map inner => inner.HasOrigins
  | _ => True

/-- All origins in written types can be read. -/
def HaveOrigins : List TypeText → Prop
  | [] => True
  | type :: rest => type.HasOrigins ∧ HaveOrigins rest

/-- All origins of and in written fields can be read. -/
def FieldsHaveOrigins : List FieldText → Prop
  | [] => True
  | .field _ type source _ :: rest =>
      (Origin.ofProvenance? source).isSome ∧ type.HasOrigins ∧ FieldsHaveOrigins rest

end

end TypeText

namespace SchemaReader

mutual

/-- What is read has origins that can be read. -/
theorem hasOrigins_of_typeNode (text : TypeText) {p q : Progress} {id : Nat}
    (ended : (typeNode text).run p = .ok (id, q)) : text.HasOrigins := by
  cases text with
  | union arms =>
      obtain ⟨inner, rfl⟩ := arms_of_union ended
      rw [typeNode] at ended
      obtain ⟨target, between, reading, ended⟩ := Run.bind_eq_ok.1 ended
      exact ⟨trivial, hasOrigins_of_typeNode inner reading, trivial⟩
  | record title ns source texts =>
      rw [typeNode] at ended
      obtain ⟨record, begun, beginning, ended⟩ := Run.bind_eq_ok.1 ended
      obtain ⟨fields, filled, filling, ended⟩ := Run.bind_eq_ok.1 ended
      exact haveOrigins_of_fieldNodes title texts filling
  | array items =>
      rw [typeNode] at ended
      obtain ⟨target, between, reading, ended⟩ := Run.bind_eq_ok.1 ended
      exact hasOrigins_of_typeNode items reading
  | map values =>
      rw [typeNode] at ended
      obtain ⟨target, between, reading, ended⟩ := Run.bind_eq_ok.1 ended
      exact hasOrigins_of_typeNode values reading
  | _ => trivial

theorem haveOrigins_of_fieldNodes (record : String) (texts : List FieldText)
    {p q : Progress} {fields : List Field}
    (ended : (fieldNodes record texts).run p = .ok (fields, q)) :
    TypeText.FieldsHaveOrigins texts := by
  match texts with
  | [] => trivial
  | .field title type source nullDefault :: rest =>
      rw [fieldNodes] at ended
      cases read : Origin.ofProvenance? source with
      | none =>
          rw [read] at ended
          exact absurd ended Run.throw_ne_ok
      | some origin =>
          rw [read] at ended
          obtain ⟨node, between, reading, ended⟩ := Run.bind_eq_ok.1 ended
          obtain ⟨others, last, readingRest, ended⟩ := Run.bind_eq_ok.1 ended
          exact ⟨by rw [read]; rfl, hasOrigins_of_typeNode type reading,
            haveOrigins_of_fieldNodes record rest readingRest⟩

end

end SchemaReader

namespace SchemaWriter

theorem isOptional_reread (graph : Graph) (id : Nat) :
    graph.reread.isOptional id = graph.isOptional id := by
  rw [Graph.isOptional, Graph.isOptional, Graph.node?_reread]
  cases graph.node? id with
  | none => rfl
  | some node => cases node <;> rfl

theorem fieldTexts_reread {graph : Graph}
    {write write' : Nat → List Nat → TypeText × List Nat}
    (same : ∀ id written, (write id written).1.HasOrigins →
      write' id written = write id written)
    (fields : List Field) (written : List Nat)
    (origins : TypeText.FieldsHaveOrigins (fieldTexts graph write written fields).1) :
    fieldTexts graph.reread write' written (fields.map Field.reread) =
      fieldTexts graph write written fields := by
  induction fields generalizing written with
  | nil => rfl
  | cons field rest ih =>
      obtain ⟨own, inside, others⟩ := origins
      have first := same field.node written inside
      have source := Origin.provenance_reread own
      rw [List.map_cons, fieldTexts, fieldTexts]
      simp only [Field.reread, first, source, isOptional_reread]
      rw [ih _ others]

/-- A graph is written as with the names that are read in place of its own, provided that
they are read. -/
theorem typeText_reread (graph : Graph) (names : List (Nat × String)) (fuel id : Nat)
    (written : List Nat) (origins : (typeText graph names fuel id written).1.HasOrigins) :
    typeText graph.reread names fuel id written = typeText graph names fuel id written := by
  induction fuel generalizing id written with
  | zero => rfl
  | succ fuel ih =>
      rw [typeText] at origins
      rw [typeText, typeText, Graph.node?_reread]
      cases found : graph.node? id with
      | none => rfl
      | some node =>
          simp only [found] at origins
          cases node with
          | primitive kind logical => rfl
          | record r =>
              simp only [Option.map_some, Node.reread, Record.reread]
              simp only at origins
              split
              · rfl
              · next unwritten =>
                  rw [if_neg unwritten] at origins
                  rw [fieldTexts_reread ih r.fields (id :: written) origins]
          | array item =>
              simp only [Option.map_some, Node.reread, ih item written origins]
          | optional inner =>
              simp only [Option.map_some, Node.reread, ih inner written origins.2.1]
          | map values =>
              simp only [Option.map_some, Node.reread, ih values written origins]

end SchemaWriter

namespace Graph

variable {graph copy : Graph} {root id : Nat} {allowed : QName → Prop}

theorem claimRecordNames_reread (namer : Namer) (nodes : List (Node × Nat)) :
    claimRecordNames namer (nodes.map fun (node, id) => (node.reread, id)) =
      claimRecordNames namer nodes := by
  induction nodes generalizing namer with
  | nil => rfl
  | cons entry rest ih =>
      obtain ⟨node, id⟩ := entry
      cases node with
      | record r =>
          change claimRecordNames namer
            ((.record r.reread, id) :: rest.map fun (node, id) => (node.reread, id)) = _
          rw [claimRecordNames, claimRecordNames, show r.reread.name = r.name from rfl]
          simp only [ih]
      | _ => exact ih namer

theorem recordNames_reread (graph : Graph) :
    graph.reread.recordNames = graph.recordNames := by
  rw [recordNames, recordNames, reread, Array.toList_map, List.zipIdx_map]
  exact claimRecordNames_reread {} _

/-- A graph whose text is read is written as with the names that are read. -/
theorem toTypeText_reread {text : TypeText} (written : graph.toTypeText = .ok text)
    (read : ofTypeText text = .ok copy) : graph.reread.toTypeText = .ok text := by
  have origins : text.HasOrigins := by
    rw [ofTypeText] at read
    cases ended : (SchemaReader.typeNode text).run {} with
    | error e =>
        rw [ended] at read
        cases read
    | ok result => exact SchemaReader.hasOrigins_of_typeNode text ended
  unfold toTypeText at written ⊢
  cases rooted : graph.root with
  | none =>
      rw [rooted] at written
      cases written
  | some root =>
      rw [rooted] at written
      cases written
      simp only [show graph.reread.root = some root from rooted, recordNames_reread,
        size_reread, SchemaWriter.typeText_reread graph _ _ _ _ origins]

/-- Whatever is read from the text of a graph that was lowered is a copy of the graph with
the names that are read. -/
theorem Lowered.mirrors_reread (lowered : graph.Lowered allowed root) {text : TypeText}
    (written : graph.toTypeText = .ok text) (read : ofTypeText text = .ok copy) :
    ∃ place, copy.Mirrors graph.reread place := by
  obtain ⟨text', copy', place, written', read', mirrors, _⟩ :=
    lowered.writable_reread.exists_copy
  cases (toTypeText_reread written read).symm.trans written'
  cases read.symm.trans read'
  exact ⟨place, mirrors⟩

theorem elementType_reread (graph : Graph) (id : Nat) :
    graph.reread.elementType id = graph.elementType id := by
  rw [elementType, elementType, size_reread]
  generalize graph.nodes.size + 1 = fuel
  induction fuel generalizing id with
  | zero => rfl
  | succ fuel ih =>
      rw [stripWrappers, stripWrappers, node?_reread]
      cases graph.node? id with
      | none => rfl
      | some node =>
          cases node with
          | array item => exact ih item
          | optional inner => exact ih inner
          | _ => rfl

theorem groupItem?_reread (graph : Graph) (field : Field) :
    graph.reread.groupItem? field.reread = (graph.groupItem? field).map Record.reread := by
  have group : field.origin.reread = .group ↔ field.origin = .group :=
    Origin.reread_eq_iff rfl
  rw [groupItem?, groupItem?, Field.reread]
  simp only [group, elementType_reread, record?_reread]
  split <;> rfl

theorem IsPrimitive.reread (primitive : graph.IsPrimitive id) :
    graph.reread.IsPrimitive id := by
  obtain ⟨kind, logical, found⟩ := primitive
  exact ⟨kind, logical, by rw [node?_reread, found]; rfl⟩

theorem Grounded.reread (grounded : graph.Grounded) : graph.reread.Grounded where
  linked := by
    obtain ⟨pending, linked⟩ := grounded.linked
    exact ⟨pending, linked.reread⟩
  rounds := by
    obtain ⟨rank, descends⟩ := grounded.rounds
    refine ⟨rank, ?_⟩
    intro id record found field member item isItem
    rw [record?_reread, Option.map_eq_some_iff] at found
    obtain ⟨r, found, rfl⟩ := found
    obtain ⟨own, listed, rfl⟩ := List.mem_map.1 member
    rw [groupItem?_reread, Option.map_eq_some_iff] at isItem
    obtain ⟨other, isItem, rfl⟩ := isItem
    rw [elementType_reread]
    exact descends id r found own listed other isItem
  texts := by
    intro id record found index field text listed
    rw [record?_reread, Option.map_eq_some_iff] at found
    obtain ⟨r, found, rfl⟩ := found
    rw [Record.reread, List.getElem?_map, Option.map_eq_some_iff] at listed
    obtain ⟨own, listed, rfl⟩ := listed
    exact (grounded.texts id r found index own text listed).reread

theorem Mirrors.exists_original {place : Nat → Nat} (mirrors : copy.Mirrors graph place)
    {record : Record} (found : copy.record? id = some record) :
    ∃ original r, graph.Reachable original ∧ graph.record? original = some r ∧
      place original = id ∧ record = r.copied (graph.recordName original) place := by
  obtain ⟨original, r, reachable, isRecord, rfl, _⟩ := mirrors.exists_record found
  have present := mirrors.node? reachable (record?_eq_some_iff.1 isRecord)
  rw [record?_eq_some_iff.1 found] at present
  cases present
  exact ⟨original, r, reachable, isRecord, rfl, rfl⟩

theorem Mirrors.exists_groupItem? {place : Nat → Nat} (mirrors : copy.Mirrors graph place)
    {pending pending' : List Nat} (linked : graph.Linked pending)
    (copyLinked : copy.Linked pending') {field : Field} {item : Record}
    (reachable : graph.Reachable field.node)
    (isItem : copy.groupItem? (field.moved place) = some item) :
    ∃ original, graph.groupItem? field = some original := by
  obtain ⟨below, same⟩ := mirrors.elementType linked copyLinked reachable
  rw [groupItem?] at isItem
  split at isItem
  · next group =>
      rw [show (field.moved place).node = place field.node from rfl, same] at isItem
      obtain ⟨original, r, inside, isRecord, together, _⟩ := mirrors.exists_original isItem
      cases mirrors.bijective.injOn inside below together
      have grouped : field.origin = .group := group
      exact ⟨r, by rw [groupItem?, if_pos grouped, isRecord]⟩
  · cases isItem

/-- A copy of a graph goes down in the orders of the graph. -/
theorem Grounded.of_mirrors {place : Nat → Nat} {pending : List Nat}
    (grounded : graph.Grounded) (mirrors : copy.Mirrors graph place)
    (copyLinked : copy.Linked pending) : copy.Grounded where
  linked := ⟨pending, copyLinked⟩
  rounds := by
    obtain ⟨rank, descends⟩ := grounded.rounds
    obtain ⟨_, linked⟩ := grounded.linked
    -- Each node of the copy stands where its original does.
    have original : ∀ id, graph.Reachable id →
        Function.invFunOn place {id | graph.Reachable id} (place id) = id := fun id inside =>
      mirrors.bijective.injOn.leftInvOn_invFunOn inside
    refine ⟨fun id => rank (Function.invFunOn place {id | graph.Reachable id} id), ?_⟩
    intro id record found field member item isItem
    obtain ⟨owner, r, reachable, isRecord, rfl, rfl⟩ := mirrors.exists_original found
    obtain ⟨own, listed, rfl⟩ := List.mem_map.1 member
    have inside : graph.Reachable own.node :=
      .target reachable (record?_eq_some_iff.1 isRecord) (List.mem_map.2 ⟨own, listed, rfl⟩)
    obtain ⟨below, same⟩ := mirrors.elementType linked copyLinked inside
    obtain ⟨other, leads⟩ := mirrors.exists_groupItem? linked copyLinked inside isItem
    have lower := descends owner r isRecord own listed other leads
    dsimp only
    rwa [show (own.moved place).node = place own.node from rfl, same, original _ below,
      original _ reachable]
  texts := by
    intro id record found index field text listed
    obtain ⟨owner, r, reachable, isRecord, rfl, rfl⟩ := mirrors.exists_original found
    rw [Record.copied, List.getElem?_map, Option.map_eq_some_iff] at listed
    obtain ⟨own, listed, rfl⟩ := listed
    obtain ⟨kind, logical, primitive⟩ := grounded.texts owner r isRecord index own text listed
    have inside : graph.Reachable own.node :=
      .target reachable (record?_eq_some_iff.1 isRecord)
        (List.mem_map.2 ⟨own, List.mem_of_getElem? listed, rfl⟩)
    exact ⟨kind, logical, mirrors.node? inside primitive⟩

/-- Whatever circles the types of components form, transcoding with the graph that is
built from them ends, and so does transcoding with the graph that its text is read as. -/
theorem ends_of_ofComponents {components : Components} {wanted : Option String}
    (built : ofComponents components wanted = .ok graph) :
    graph.Ends ∧ ∀ text copy, graph.toText = .ok text → ofText text.toList = .ok copy →
      copy.Ends := by
  obtain ⟨root, lowered⟩ := exists_lowered_ofComponents built
  refine ⟨lowered.grounded.ends, ?_⟩
  intro text copy texted read
  cases written : graph.toTypeText with
  | error e =>
      rw [toText, written] at texted
      cases texted
  | ok type =>
      obtain ⟨texted', readable⟩ := ofText_of_toTypeText written
      cases texted.symm.trans texted'
      rw [read] at readable
      split at readable
      · obtain ⟨place, mirrors⟩ := lowered.mirrors_reread written readable.symm
        obtain ⟨_, copyWritable⟩ := writable_of_ofTypeText readable.symm
        exact (lowered.grounded.reread.of_mirrors mirrors copyWritable.linked).ends
      · cases readable

/-- A report contains rounds of a group that contain reports. -/
theorem ends_reportGraph :
    reportGraph.Ends ∧ ∃ text copy, reportGraph.toText = .ok text ∧
      ofText text.toList = .ok copy ∧ copy.Ends := by
  obtain ⟨ends, copies⟩ := ends_of_ofComponents ofComponents_reportComponents
  obtain ⟨type, text, copy, place, written, texted, mirrors, read⟩ :=
    ofText_of_ofComponents (by decide) ofComponents_reportComponents
  have nesting : reportGraph.toTypeText.toOption.map (·.toJson.nesting) = some 12 := by
    decide +kernel
  have shallow : type.toJson.nesting = 12 := by
    simpa [written, Except.toOption] using nesting
  rw [if_pos (by rw [shallow]; decide)] at read
  exact ⟨ends, text, copy, texted, read, copies text copy texted read⟩

end Graph

end XmlRecords
