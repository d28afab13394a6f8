import XmlRecords.Proofs.Congruence
import XmlRecords.Proofs.DeclaredRoutes

/-!
# What is left over

A document is matched against a graph from its document element on: where an
element is matched against a record, each child is matched along its route.
An element that is matched against a record finds a place in it for all that it
has, or the document is refused.  An element that is matched against a primitive
is read as its text; its children and attributes are dropped.
-/

namespace XmlRecords

namespace Element

/-- An element with nothing but its text. -/
def bare (e : Element) : Element :=
  ⟨e.name, [], e.content.filter fun item => item.text?.isSome⟩

/-- The element has no children, and no attributes that carry data. -/
def IsBare (e : Element) : Prop :=
  e.children = [] ∧ ∀ a ∈ e.attributes, a.isMeta

theorem text_bare (e : Element) : e.bare.text = e.text := by
  have same : ∀ content : List Content,
      (content.filter fun item => item.text?.isSome).filterMap Content.text? =
        content.filterMap Content.text? := by
    intro content
    rw [List.filterMap_filter]
    congr
    funext item
    cases item <;> rfl
  rw [Element.text, Element.text, bare, same]

end Element

namespace Graph

variable {graph : Graph} {allowed : QName → Prop} {root id : Nat}
  {record : Record}

/-- The node that a document element with a name is matched against. -/
def documentNode? (graph : Graph) (name : QName) : Option Nat := do
  let root ← graph.root
  match graph.documentRecord? root with
  | none => some root
  | some choice => do
      let index ← choice.elementField? name
      let field ← choice.fields[index]?
      some (graph.elementType field.node)

/-- The elements that are matched against nodes once one of them is: the children
of an element that is matched against a record are matched along their routes.
What goes to a wildcard is kept as markup and not matched. -/
inductive Matched (graph : Graph) (id : Nat) (element : Element) :
    Nat → Element → Prop where
  | whole : Matched graph id element id element
  | child {node : Nat} {outer child : Element} {record : Record} {route : Route}
      {field : Field} (above : Matched graph id element node outer)
      (found : graph.record? node = some record)
      (member : child ∈ outer.children)
      (routed : graph.route? record child.name = some route)
      (leads : graph.Leads record route field) :
      Matched graph id element (graph.elementType field.node) child

/-- A record has a place for a child with a name: a field for the element, be it
in the rounds of a repeated group, or a wildcard. -/
def TakesChild (graph : Graph) (record : Record) (name : QName) : Prop :=
  (∃ route field, graph.Leads record route field ∧
    field.origin = .element name) ∨
  ∃ field ∈ record.fields, field.origin = .elementWildcard

/-- A record has a place for an attribute with a name: a field for it or a
wildcard. -/
def TakesAttribute (record : Record) (name : QName) : Prop :=
  ∃ field ∈ record.fields,
    field.origin = .attribute name ∨ field.origin = .attributeWildcard

/-- The node has a place for each child of the element, and for each attribute
that carries data. -/
def Accounts (graph : Graph) (id : Nat) (element : Element) : Prop :=
  (∀ child ∈ element.children, ∃ record,
    graph.record? id = some record ∧ graph.TakesChild record child.name) ∧
  ∀ a ∈ element.attributes, a.isMeta = false → ∃ record,
    graph.record? id = some record ∧ TakesAttribute record a.name

/-- A route to a field determines the field. -/
theorem Leads.field_eq {route : Route} {field other : Field}
    (leads : graph.Leads record route field)
    (again : graph.Leads record route other) : field = other := by
  induction leads with
  | field listed origin closed =>
      cases again with
      | field listed' origin' closed' =>
          exact Option.some.inj (listed.symm.trans listed')
  | group listed array rounds inner ih =>
      cases again with
      | group listed' array' rounds' inner' => exact ih inner'

theorem record?_eq_none_of_isPrimitive (primitive : graph.IsPrimitive id) :
    graph.record? id = none := by
  obtain ⟨kind, logical, found⟩ := primitive
  rw [record?, found]
  rfl

/-- A primitive has no place for anything. -/
theorem accounts_iff_of_isPrimitive (primitive : graph.IsPrimitive id)
    (element : Element) : graph.Accounts id element ↔ element.IsBare := by
  simp only [Accounts, record?_eq_none_of_isPrimitive primitive, reduceCtorEq,
    false_and, exists_false, Element.IsBare, Bool.not_eq_false, imp_false,
    ← List.eq_nil_iff_forall_not_mem]

/-- What a primitive has no place for is dropped. -/
theorem convert_bare (primitive : graph.IsPrimitive id) (zone : Zone)
    (element : Element) :
    graph.convert zone id element.bare = graph.convert zone id element := by
  obtain ⟨kind, logical, found⟩ := primitive
  rw [convert_primitive found, convert_primitive found, element.text_bare]

namespace Lowered

/-- What a field for an element holds is below its wrappers a primitive or a
record. -/
theorem isBase_elementType (lowered : graph.Lowered allowed root) {owner : Nat}
    {name : QName} (holds : graph.Holds owner (.element name) id) :
    graph.IsBase (graph.elementType id) := by
  rcases holds with base | ⟨inner, base, array | optional⟩
  · obtain ⟨node, found, plain⟩ := base.exists_node
    rwa [elementType_of_isWrapper_eq_false found plain]
  · obtain ⟨node, found, plain⟩ := base.exists_node
    rwa [elementType_array lowered.linked array,
      elementType_of_isWrapper_eq_false found plain]
  · obtain ⟨node, found, plain⟩ := base.exists_node
    rwa [elementType_optional lowered.linked optional,
      elementType_of_isWrapper_eq_false found plain]

/-- A child with a route to a field is matched against a primitive or a record. -/
theorem isBase_of_route? (lowered : graph.Lowered allowed root)
    (found : graph.record? id = some record) {name : QName} {route : Route}
    {field : Field} (routed : graph.route? record name = some route)
    (leads : graph.Leads record route field) :
    graph.IsBase (graph.elementType field.node) := by
  rcases lowered.leads_of_route? found routed with
    ⟨owner, other, leadsOther, holds⟩ | ⟨index, rfl, _⟩
  · exact lowered.isBase_elementType (leads.field_eq leadsOther ▸ holds)
  · cases leads

/-- A child with a route to a field becomes a value of the node below the
wrappers of the field. -/
theorem exists_convert_child (lowered : graph.Lowered allowed root)
    (found : graph.record? id = some record) {zone : Zone}
    {element child : Element} {value : Value}
    (converted : graph.convert zone id element = .ok value)
    (member : child ∈ element.children) {route : Route} {field : Field}
    (routed : graph.route? record child.name = some route)
    (leads : graph.Leads record route field) :
    graph.IsBase (graph.elementType field.node) ∧
      ∃ inner, graph.convert zone (graph.elementType field.node) child =
        .ok inner := by
  obtain ⟨placed, slots, rfl, placing, _⟩ :=
    lowered.exists_slots_of_convert found converted
  obtain ⟨emitted, arrived⟩ :=
    (Placed.start lowered found zone).append lowered found placing
  rw [List.nil_append] at arrived
  refine ⟨lowered.isBase_of_route? found routed leads, ?_⟩
  obtain ⟨index, listed⟩ := List.getElem?_of_mem member
  obtain ⟨one, _, other, routed', along⟩ :=
    exists_getElem?_of_forall₂ arrived.converted.flip listed
  cases routed.symm.trans routed'
  rw [convertAlong_eq zone child leads] at along
  obtain ⟨inner, ended, _⟩ := Outcome.map_eq_ok.1 along
  exact ⟨inner, ended⟩

/-- Every element that is matched became a value of its node, which is a
primitive or a record. -/
theorem exists_convert_of_matched (lowered : graph.Lowered allowed root)
    {zone : Zone} {element inner : Element} {value : Value} {node : Nat}
    (base : graph.IsBase id)
    (converted : graph.convert zone id element = .ok value)
    (matched : graph.Matched id element node inner) :
    graph.IsBase node ∧ ∃ made, graph.convert zone node inner = .ok made := by
  induction matched with
  | whole => exact ⟨base, value, converted⟩
  | child above found member routed leads ih =>
      obtain ⟨_, made, ended⟩ := ih
      exact lowered.exists_convert_child found ended member routed leads

/-- A record takes every child that has a route. -/
theorem takesChild_of_route? (lowered : graph.Lowered allowed root)
    (found : graph.record? id = some record) {name : QName} {route : Route}
    (routed : graph.route? record name = some route) :
    graph.TakesChild record name := by
  rcases lowered.leads_of_route? found routed with
    ⟨_, field, leads, _⟩ | ⟨index, _, wildcard⟩
  · exact .inl ⟨route, field, leads, origin_of_route? routed leads⟩
  · obtain ⟨field, listed, origin, _⟩ :=
      lowered.isTextMap_of_elementWildcard found wildcard
    exact .inr ⟨field, List.mem_of_getElem? listed, origin⟩

/-- A record takes every attribute that has been put into it. -/
theorem takesAttribute_of_placeAttributes (indexed : record.Indexed)
    {zone : Zone} {slots next : Slots} {attributes : List Attribute}
    (placing : graph.placeAttributes zone record slots attributes = .ok next) :
    ∀ a ∈ attributes, a.isMeta = false → TakesAttribute record a.name := by
  induction attributes generalizing slots with
  | nil => simp
  | cons first rest ih =>
      intro a member isData
      rcases placeAttributes_cons_eq_ok placing with
        ⟨isMeta, placing⟩ | ⟨_, between, here, others⟩
      · rcases List.mem_cons.1 member with rfl | member
        · cases isMeta.symm.trans isData
        · exact ih placing a member isData
      · rcases List.mem_cons.1 member with rfl | member
        · rcases placeAttribute_cases indexed here with
            ⟨_, field, _, _, listed, origin, _⟩ | ⟨_, _, field, _, listed, origin, _⟩
          · exact ⟨field, List.mem_of_getElem? listed, .inl origin⟩
          · exact ⟨field, List.mem_of_getElem? listed, .inr origin⟩
        · exact ih others a member isData

/-- Where an element becomes a value of a record, nothing is left over. -/
theorem accounts_of_convert_record (lowered : graph.Lowered allowed root)
    (found : graph.record? id = some record) {zone : Zone} {element : Element}
    {value : Value} (converted : graph.convert zone id element = .ok value) :
    graph.Accounts id element := by
  obtain ⟨placed, filled, _, rfl, placing, filling, _⟩ :=
    (lowered.convert_record_eq_ok found).1 converted
  constructor
  · intro child member
    obtain ⟨emitted, arrived⟩ :=
      (Placed.start lowered found zone).append lowered found placing
    obtain ⟨index, listed⟩ := List.getElem?_of_mem member
    obtain ⟨_, _, route, routed, _⟩ :=
      exists_getElem?_of_forall₂ arrived.converted.flip listed
    exact ⟨record, found, lowered.takesChild_of_route? found routed⟩
  · intro a member isData
    exact ⟨record, found, takesAttribute_of_placeAttributes
      (lowered.indexed found) filling a member isData⟩

/-- Document elements of a name are matched against a node that is a primitive or a
record, if the name is known.  The value is what such an element becomes there, or holds
that in the field that was chosen. -/
theorem transcodeRoot_cases (lowered : graph.Lowered allowed root)
    (settings : Settings) (name : QName) :
    (∀ element : Element, element.name = name →
      graph.transcodeRoot settings root element =
        (do checkDepth settings element
            .error (.field (.unknownRoot name)))) ∨
    ∃ start wrap, graph.documentNode? name = some start ∧
      graph.IsBase start ∧
      (∀ element : Element, element.name = name →
        graph.transcodeRoot settings root element =
          (do checkDepth settings element
              (graph.convert settings.zone start element).map wrap)) ∧
      ((start = root ∧ wrap = fun inner => inner) ∨
        ∃ choice index field, graph.documentRecord? root = some choice ∧
          choice.fields[index]? = some field ∧
          graph.node? field.node = some (.optional start) ∧
          wrap = fun inner => .record
            (Slots.put (choice.fields.map fun _ => none) index inner)) := by
  rw [documentNode?, lowered.rooted]
  simp only [transcodeRoot, bind, Option.bind_some]
  cases isChoice : graph.documentRecord? root with
  | none =>
      have base : graph.IsBase root := by
        rcases lowered.rootKind with base | ⟨choice, found, document⟩
        · exact base
        · rw [documentRecord?, found, Option.filter_some, document] at isChoice
          cases isChoice
      refine .inr ⟨root, _, rfl, base, fun element _ => ?_, .inl ⟨rfl, rfl⟩⟩
      cases graph.convert settings.zone root element <;> rfl
  | some choice =>
      obtain ⟨found, document⟩ := source_of_documentRecord? isChoice
      dsimp only
      cases named : choice.elementField? name with
      | none =>
          refine .inl ?_
          rintro element rfl
          rw [documentField, named]
          rfl
      | some index =>
          obtain ⟨field, listed, _⟩ := Record.exists_field_of_findIdx? named
          obtain ⟨start, optional⟩ := lowered.choices choice found document
            field (List.mem_of_getElem? listed)
          have base : graph.IsBase start := (lowered.fits _ _ optional).wraps
          obtain ⟨_, present, plain⟩ := base.exists_node
          refine .inr ⟨start, _, ?_, base, ?_,
            .inr ⟨choice, index, field, rfl, listed, optional, rfl⟩⟩
          · rw [Option.bind_some, listed, Option.bind_some,
              elementType_optional lowered.linked optional,
              elementType_of_isWrapper_eq_false present plain]
          · rintro element rfl
            simp only [documentField, named, listed,
              lowered.convert_optional optional, Except.bind]
            cases graph.convert settings.zone start element <;> rfl

theorem exists_start (lowered : graph.Lowered allowed root) {settings : Settings}
    {element : Element} {value : Value}
    (transcoded : graph.transcodeRoot settings root element = .ok value) :
    ∃ start inner, graph.documentNode? element.name = some start ∧
      graph.IsBase start ∧
      graph.convert settings.zone start element = .ok inner ∧
      ((start = root ∧ inner = value) ∨
        ∃ choice index field, graph.documentRecord? root = some choice ∧
          choice.fields[index]? = some field ∧
          graph.node? field.node = some (.optional start) ∧
          value = .record
            (Slots.put (choice.fields.map fun _ => none) index inner)) := by
  rcases lowered.transcodeRoot_cases settings element.name with
    unknown | ⟨start, wrap, starts, base, same, standing⟩
  · rw [unknown element rfl] at transcoded
    obtain ⟨_, _, impossible⟩ := Outcome.bind_eq_ok.1 transcoded
    cases impossible
  · rw [same element rfl] at transcoded
    obtain ⟨_, _, transcoded⟩ := Outcome.bind_eq_ok.1 transcoded
    obtain ⟨inner, converted, rfl⟩ := Outcome.map_eq_ok.1 transcoded
    refine ⟨start, inner, starts, base, converted, ?_⟩
    rcases standing with ⟨rfl, rfl⟩ |
      ⟨choice, index, field, isChoice, listed, optional, rfl⟩
    · exact .inl ⟨rfl, rfl⟩
    · exact .inr ⟨choice, index, field, isChoice, listed, optional, rfl⟩

end Lowered

/-- In a document that is transcoded, each element that is matched against a
record has nothing left over: the record has a place for every child and for
every attribute that carries data.  Everything is accounted for just when the
elements that are matched against primitives are bare; of the others these keep
nothing but the text. -/
theorem accounts_iff_of_transcodeDocument {components : Components}
    {wanted : Option String} {graph : Graph}
    (built : ofComponents components wanted = .ok graph) {settings : Settings}
    {element : Element} {value : Value}
    (transcoded : graph.transcodeDocument settings element = .ok value) :
    ∃ start, graph.documentNode? element.name = some start ∧
      ∀ node inner, graph.Matched start element node inner →
        graph.IsBase node ∧
        (graph.Accounts node inner ↔
          (graph.IsPrimitive node → inner.IsBare)) ∧
        (graph.IsPrimitive node → ∀ zone,
          graph.convert zone node inner =
            graph.convert zone node inner.bare) := by
  obtain ⟨root, lowered⟩ := exists_lowered_ofComponents built
  rw [transcodeDocument, rootNode, lowered.rooted] at transcoded
  obtain ⟨start, _, starts, base, converted, _⟩ :=
    lowered.exists_start transcoded
  refine ⟨start, starts, fun node inner matched => ?_⟩
  obtain ⟨isBase, made, ended⟩ :=
    lowered.exists_convert_of_matched base converted matched
  refine ⟨isBase, ?_, fun primitive zone =>
    (convert_bare primitive zone inner).symm⟩
  rcases isBase with primitive | ⟨record, found, _⟩
  · rw [accounts_iff_of_isPrimitive primitive]
    exact ⟨fun bare _ => bare, fun bare => bare primitive⟩
  · have accounts := lowered.accounts_of_convert_record found ended
    refine ⟨fun _ primitive => ?_, fun _ => accounts⟩
    cases found.symm.trans (record?_eq_none_of_isPrimitive primitive)

theorem accounts_report :
    ∃ value, reportGraph.transcodeDocument {} report = .ok value ∧
      reportGraph.Accounts 0 report := by
  obtain ⟨value, transcoded⟩ :
      ∃ value, reportGraph.transcodeDocument {} report = .ok value := ⟨_, rfl⟩
  obtain ⟨start, starts, each⟩ := accounts_iff_of_transcodeDocument
    ofComponents_reportComponents transcoded
  cases starts
  obtain ⟨_, accounts, _⟩ := each 0 report .whole
  refine ⟨value, transcoded, accounts.2 ?_⟩
  rintro ⟨_, _, found⟩
  cases found

end Graph

/-- Tallies of one count. -/
def tallyComponents : Components where
  roots := [⟨⟨"tally", none⟩, .complex 0⟩]
  types := #[{
    content := some (.group .once .sequence
      [.element .once ⟨⟨"count", none⟩, .simple .int⟩]) }]

/-- The graph of tallies. -/
def tallyGraph : Graph where
  nodes := #[
    .record ⟨some ⟨"type0", none⟩, .type,
      [⟨"count", .element ⟨"count", none⟩, 1⟩], none, none, none⟩,
    .primitive .int none]
  root := some 0

theorem ofComponents_tallyComponents :
    Graph.ofComponents tallyComponents none = .ok tallyGraph := by
  rfl

/-- A tally with some content. -/
def tallyOf (content : List Content) : Element := ⟨⟨"tally", none⟩, [], content⟩

/-- A count with a unit and a remark. -/
def remarkedCount : Element :=
  ⟨⟨"count", none⟩, [⟨⟨"unit", none⟩, "kg"⟩],
    [.text "5", .element ⟨"remark", none⟩ [] []]⟩

/-- A count has no place for a unit and a remark, and both are dropped. -/
theorem transcodes_remarkedCount :
    Graph.ofComponents tallyComponents none = .ok tallyGraph ∧
    tallyGraph.transcodeDocument {} (tallyOf [.ofElement remarkedCount]) =
      .ok (.record [some (.int 5)]) ∧
    tallyGraph.Matched 0 (tallyOf [.ofElement remarkedCount]) 1 remarkedCount ∧
    ¬ tallyGraph.Accounts 1 remarkedCount := by
  refine ⟨ofComponents_tallyComponents, rfl, ?_, ?_⟩
  · have leads : tallyGraph.Leads ⟨some ⟨"type0", none⟩, .type,
        [⟨"count", .element ⟨"count", none⟩, 1⟩], none, none, none⟩ (.field 0)
        ⟨"count", .element ⟨"count", none⟩, 1⟩ :=
      .field rfl rfl (by rintro _ ⟨⟩)
    exact .child .whole rfl List.mem_cons_self rfl leads
  · rw [Graph.accounts_iff_of_isPrimitive ⟨.int, none, rfl⟩]
    rintro ⟨noChildren, _⟩
    cases noChildren

end XmlRecords
