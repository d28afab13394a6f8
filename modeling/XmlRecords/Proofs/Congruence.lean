import XmlRecords.Proofs.PlannedGraph
import XmlRecords.Proofs.SplitDocument

/-!
# Values have the shape of their nodes

A value that was made against a node is congruent with it.  The slots of a record
are filled in place from its children, its attributes and its text, at last in the
rounds of groups within groups; what each step keeps is that a slot that is set is
congruent with its field, and that what is repeated or open is set from the
beginning.  Children have fewer levels than their element, which is what the
induction is on.
-/

namespace XmlRecords

/-- The kind of primitive that a value is of, if it is of one. -/
def Value.kind? : Value → Option Primitive
  | .boolean _ => some .boolean
  | .int _ => some .int
  | .long _ => some .long
  | .float _ => some .float
  | .double _ => some .double
  | .bytes _ => some .bytes
  | .string _ => some .string
  | .array _ | .map _ | .record _ => none

theorem Value.kind?_of_readPrimitive {zone : Zone} {kind : Primitive}
    {logical : Option Logical} {text : String} {value : Value}
    (read : readPrimitive zone kind logical text = .ok value) :
    value.kind? = some kind := by
  cases kind <;> simp only [readPrimitive] at read
  case boolean =>
    cases read
    rfl
  case string =>
    cases read
    rfl
  case long =>
    split at read
    all_goals
      obtain ⟨_, _, rfl⟩ := Outcome.map_eq_ok.1 read
      rfl
  case bytes =>
    split at read
    all_goals
      obtain ⟨_, _, rfl⟩ := Outcome.map_eq_ok.1 read
      rfl
  all_goals
    obtain ⟨_, _, rfl⟩ := Outcome.map_eq_ok.1 read
    rfl

theorem Outcome.exists_of_mem_mapM {ε α β : Type} {f : α → Except ε β}
    {xs : List α} {ys : List β} (mapped : xs.mapM f = .ok ys) :
    ∀ y ∈ ys, ∃ x ∈ xs, f x = .ok y := by
  induction xs generalizing ys with
  | nil =>
      cases mapped
      simp
  | cons x rest ih =>
      rw [List.mapM_cons] at mapped
      obtain ⟨first, here, mapped⟩ := Outcome.bind_eq_ok.1 mapped
      obtain ⟨others, there, same⟩ := Outcome.bind_eq_ok.1 mapped
      cases same
      intro y member
      rcases List.mem_cons.1 member with rfl | member
      · exact ⟨x, List.mem_cons_self, here⟩
      · obtain ⟨x', listed, ended⟩ := ih there y member
        exact ⟨x', List.mem_cons_of_mem _ listed, ended⟩

namespace Graph

/-- The node is for what is repeated or open. -/
def IsCollection (graph : Graph) (id : Nat) : Prop :=
  (∃ item, graph.node? id = some (.array item)) ∨
    ∃ values, graph.node? id = some (.map values)

/-- The value is congruent with the node: it is of the kind of a primitive, an
array of what is congruent with the items, a map, or a record with one slot for
each field.  A slot that is set is congruent with its field; in all records but
the one for the choice of a document element, arrays and maps are set.  What is
optional is congruent with what it is around. -/
inductive Congruent (graph : Graph) : Nat → Value → Prop where
  | primitive {id : Nat} {value : Value} {kind : Primitive}
      {logical : Option Logical}
      (found : graph.node? id = some (.primitive kind logical))
      (kind : value.kind? = some kind) : Congruent graph id value
  | optional {id inner : Nat} {value : Value}
      (found : graph.node? id = some (.optional inner))
      (present : Congruent graph inner value) : Congruent graph id value
  | array {id item : Nat} {items : List Value}
      (found : graph.node? id = some (.array item))
      (each : ∀ value ∈ items, Congruent graph item value) :
      Congruent graph id (.array items)
  | map {id values : Nat} {entries : List (String × String)}
      (found : graph.node? id = some (.map values)) :
      Congruent graph id (.map entries)
  | record {id : Nat} {record : Record} {slots : Slots}
      (found : graph.record? id = some record)
      (length : slots.length = record.fields.length)
      (each : ∀ (index : Nat) (field : Field) (value : Value),
        record.fields[index]? = some field → slots.get? index = some value →
          Congruent graph field.node value)
      (complete : record.source ≠ .document →
        ∀ (index : Nat) (field : Field), record.fields[index]? = some field →
          graph.IsCollection field.node → slots.get? index ≠ none) :
      Congruent graph id (.record slots)

/-- The slots of a record are filled with what is congruent with its fields, and
what is repeated or open is set. -/
structure Filled (graph : Graph) (record : Record) (slots : Slots) : Prop where
  length : slots.length = record.fields.length
  each : ∀ (index : Nat) (field : Field) (value : Value),
    record.fields[index]? = some field → slots.get? index = some value →
      graph.Congruent field.node value
  complete : ∀ (index : Nat) (field : Field),
    record.fields[index]? = some field → graph.IsCollection field.node →
      slots.get? index ≠ none

variable {graph : Graph} {allowed : QName → Prop} {root id : Nat}
  {record : Record} {slots next : Slots}

theorem Filled.congruent (filled : graph.Filled record slots)
    (found : graph.record? id = some record) :
    graph.Congruent id (.record slots) :=
  .record found filled.length filled.each fun _ => filled.complete

namespace Congruent

variable {value : Value}

theorem items {item : Nat} {items : List Value}
    (congruent : graph.Congruent id (.array items))
    (found : graph.node? id = some (.array item)) :
    ∀ value ∈ items, graph.Congruent item value := by
  cases congruent with
  | primitive found' kind => cases kind
  | optional found' _ => cases found.symm.trans found'
  | array found' each =>
      cases found.symm.trans found'
      exact each

theorem exists_slots (congruent : graph.Congruent id value)
    (found : graph.record? id = some record) (source : record.source ≠ .document) :
    ∃ slots, value = .record slots ∧ graph.Filled record slots := by
  have node := record?_eq_some_iff.1 found
  cases congruent with
  | primitive found' _ => cases node.symm.trans found'
  | optional found' _ => cases node.symm.trans found'
  | array found' _ => cases node.symm.trans found'
  | map found' => cases node.symm.trans found'
  | record found' length each complete =>
      cases found.symm.trans found'
      exact ⟨_, rfl, length, each, complete source⟩

end Congruent

theorem filled_emptySlots (record : Record) :
    graph.Filled record (graph.emptySlots record) where
  length := List.length_map _
  each := by
    intro index field value listed held
    rw [get?_emptySlots listed, emptySlot] at held
    split at held
    · next item array =>
        cases held
        exact .array array (by simp)
    · next values map =>
        cases held
        exact .map map
    · cases held
  complete := by
    intro index field listed collection
    rw [get?_emptySlots listed, emptySlot]
    rcases collection with ⟨item, array⟩ | ⟨values, map⟩
    · simp [array]
    · simp [map]

namespace Filled

variable {index : Nat} {field : Field} {value : Value}

theorem put (filled : graph.Filled record slots)
    (listed : record.fields[index]? = some field)
    (congruent : graph.Congruent field.node value) :
    graph.Filled record (slots.put index value) where
  length := (Slots.length_put ..).trans filled.length
  each := by
    intro other last held listed' found
    have inside : index < slots.length := by
      rw [filled.length]
      exact (List.getElem?_eq_some_iff.1 listed).1
    by_cases same : other = index
    · subst same
      rw [Slots.get?_put inside] at found
      cases found
      cases listed.symm.trans listed'
      exact congruent
    · rw [Slots.get?_put_of_ne same] at found
      exact filled.each other last held listed' found
  complete := by
    intro other last listed' collection
    have inside : index < slots.length := by
      rw [filled.length]
      exact (List.getElem?_eq_some_iff.1 listed).1
    by_cases same : other = index
    · subst same
      simp [Slots.get?_put inside]
    · rw [Slots.get?_put_of_ne same]
      exact filled.complete other last listed' collection

theorem putEntry (filled : graph.Filled record slots)
    (listed : record.fields[index]? = some field)
    (map : graph.IsTextMap field.node) (key text : String) :
    graph.Filled record (slots.putEntry index key text) := by
  obtain ⟨values, found, _⟩ := map
  rw [Slots.putEntry]
  split
  · exact filled.put listed (.map found)
  · exact filled

theorem putItem {item : Nat} (filled : graph.Filled record slots)
    (listed : record.fields[index]? = some field)
    (array : graph.node? field.node = some (.array item))
    (congruent : graph.Congruent item value) :
    graph.Filled record (slots.putItem index value) := by
  rw [Slots.putItem]
  split
  · next items held =>
      have each := (filled.each index field _ listed held).items array
      apply filled.put listed (.array array _)
      intro other member
      rcases List.mem_append.1 member with member | member
      · exact each other member
      · rw [List.mem_singleton.1 member]
        exact congruent
  · exact filled

end Filled

/-- The round that a child goes to is filled like all others. -/
theorem filled_currentRound {item : Record} {target : Nat}
    {rounds front : List Value} {round : Slots}
    (each : ∀ value ∈ rounds, ∃ inner,
      value = .record inner ∧ graph.Filled item inner)
    (current : graph.currentRound item target rounds = (front, round)) :
    graph.Filled item round ∧ front ⊆ rounds := by
  rw [currentRound] at current
  split at current
  · next slots last =>
      split at current
      · cases current
        exact ⟨filled_emptySlots item, List.Subset.refl _⟩
      · cases current
        obtain ⟨inner, same, filled⟩ := each _ (List.mem_of_getLast? last)
        cases same
        exact ⟨filled, List.dropLast_subset _⟩
  · cases current
    exact ⟨filled_emptySlots item, List.Subset.refl _⟩

theorem exists_field_of_documentField {choice : Record} {name : QName}
    {index node : Nat}
    (selected : documentField choice name = .ok (index, node)) :
    ∃ field, choice.fields[index]? = some field ∧ field.node = node := by
  rw [documentField] at selected
  split at selected
  · cases selected
  · split at selected
    · next field listed =>
        cases selected
        exact ⟨field, listed, rfl⟩
    · cases selected

namespace Lowered

theorem round_of_groupItem? (lowered : graph.Lowered allowed root)
    (found : graph.record? id = some record) {index : Nat} {outer : Field}
    {item : Record} (listed : record.fields[index]? = some outer)
    (rounds : graph.groupItem? outer = some item) :
    ∃ node compositor, graph.node? outer.node = some (.array node) ∧
      graph.record? node = some item ∧ item.source = .group compositor := by
  obtain ⟨node, array, _, isItem, _⟩ :=
    lowered.exists_round_of_groupItem? found (List.mem_of_getElem? listed) rounds
  have holds := lowered.holds found listed
  rw [origin_of_groupItem? rounds] at holds
  obtain ⟨node', array', ⟨item', compositor, isItem', source⟩, _⟩ := holds
  cases array.symm.trans array'
  cases isItem.symm.trans isItem'
  exact ⟨node, compositor, array, isItem, source⟩

/-- A child that becomes what is congruent keeps the slots of a record filled,
whatever groups are on its route. -/
theorem filled_place_of_leads (lowered : graph.Lowered allowed root) {child : Child}
    (converts : ∀ node value, child.convert node = .ok value →
      graph.Congruent node value) {route : Route} {field : Field}
    (leads : graph.Leads record route field)
    (found : graph.record? id = some record) (filled : graph.Filled record slots)
    (placed : graph.place child record route slots = .ok next) :
    graph.Filled record next := by
  induction leads generalizing id slots next with
  | @field record index field name listed origin closed =>
      rcases place_field_eq_ok listed placed with
        ⟨item, value, array, converted, rfl⟩ | ⟨_, _, value, converted, rfl⟩
      · exact filled.putItem listed array (converts item value converted)
      · exact filled.put listed (converts field.node value converted)
  | @group record index outer _ item rest field listed _ rounds inner ih =>
      rcases place_group_eq_ok placed with
        ⟨values, front, round, last, held, current, placing, rfl⟩ | ⟨_, rfl⟩
      · obtain ⟨node, compositor, array, isItem, source⟩ :=
          lowered.round_of_groupItem? found listed rounds
        have each := (filled.each index outer _ listed held).items array
        have records : ∀ value ∈ values, ∃ inner,
            value = .record inner ∧ graph.Filled item inner :=
          fun value member =>
            (each value member).exists_slots isItem (by simp [source])
        -- Only the current round changes, the others stay as they are.
        obtain ⟨isFilled, subset⟩ := filled_currentRound records current
        have after := ih isItem isFilled placing
        apply filled.put listed (.array array _)
        intro value member
        rcases List.mem_append.1 member with member | member
        · exact each value (subset member)
        · rw [List.mem_singleton.1 member]
          exact after.congruent isItem
      · exact filled

theorem filled_placeChildren (lowered : graph.Lowered allowed root)
    (found : graph.record? id = some record) {children : List Child}
    (converts : ∀ child ∈ children, ∀ node value,
      child.convert node = .ok value → graph.Congruent node value)
    (filled : graph.Filled record slots)
    (placed : graph.placeChildren record slots children = .ok next) :
    graph.Filled record next := by
  induction children generalizing slots with
  | nil =>
      cases placed
      exact filled
  | cons child rest ih =>
      obtain ⟨route, between, routed, first, others⟩ :=
        placeChildren_cons_eq_ok placed
      refine ih (fun child member => converts child
        (List.mem_cons_of_mem _ member)) ?_ others
      rcases lowered.leads_of_route? found routed with
        ⟨owner, field, leads, _⟩ | ⟨index, rfl, wildcard⟩
      · exact lowered.filled_place_of_leads
          (converts child List.mem_cons_self) leads found filled first
      · obtain ⟨field, listed, _, map⟩ :=
          lowered.isTextMap_of_elementWildcard found wildcard
        cases first
        exact filled.putEntry listed map _ _

theorem congruent_of_readAttribute (lowered : graph.Lowered allowed root)
    {owner : Nat} {name : QName} (holds : graph.Holds owner (.attribute name) id)
    {zone : Zone} {text : String} {value : Value}
    (read : graph.readAttribute zone id text = .ok value) :
    graph.Congruent id value := by
  rw [readAttribute] at read
  rcases holds with ⟨kind, logical, found⟩ | ⟨inner, ⟨kind, logical, found⟩, wrapped⟩
  · rw [elementType_of_isWrapper_eq_false found rfl, found] at read
    exact .primitive found (Value.kind?_of_readPrimitive read)
  · rw [elementType_optional lowered.linked wrapped,
      elementType_of_isWrapper_eq_false found rfl, found] at read
    exact .optional wrapped
      (.primitive found (Value.kind?_of_readPrimitive read))

theorem filled_placeAttributes (lowered : graph.Lowered allowed root)
    (found : graph.record? id = some record) {zone : Zone}
    {attributes : List Attribute} (filled : graph.Filled record slots)
    (placed : graph.placeAttributes zone record slots attributes = .ok next) :
    graph.Filled record next := by
  induction attributes generalizing slots with
  | nil =>
      cases placed
      exact filled
  | cons a rest ih =>
      rcases placeAttributes_cons_eq_ok placed with
        ⟨_, placed⟩ | ⟨_, between, first, others⟩
      · exact ih filled placed
      · refine ih ?_ others
        rcases placeAttribute_cases (lowered.indexed found) first with
          ⟨index, field, value, _, listed, origin, read, rfl⟩ |
          ⟨_, index, field, _, listed, origin, rfl⟩
        · have holds := lowered.holds found listed
          rw [origin] at holds
          exact filled.put listed (lowered.congruent_of_readAttribute holds read)
        · have map := lowered.holds found listed
          rw [origin] at map
          exact filled.putEntry listed map _ _

/-- What an element becomes against the record with a number, if its children
become what is congruent. -/
theorem congruent_of_convert_record (lowered : graph.Lowered allowed root)
    (found : graph.record? id = some record) {zone : Zone} {element : Element}
    {value : Value}
    (converts : ∀ child ∈ element.children, ∀ node value,
      graph.convert zone node child = .ok value → graph.Congruent node value)
    (converted : graph.convert zone id element = .ok value) :
    graph.Congruent id value := by
  obtain ⟨placed, filled, slots, rfl, placing, filling, puts⟩ :=
    (lowered.convert_record_eq_ok found).1 converted
  have children : graph.Filled record placed := by
    refine lowered.filled_placeChildren found ?_ (filled_emptySlots record)
      placing
    intro child member
    obtain ⟨inner, listed, rfl⟩ := List.mem_map.1 member
    exact converts inner listed
  have attributes := lowered.filled_placeAttributes found children filling
  cases puts with
  | none _ => exact attributes.congruent found
  | field _ listed primitive read =>
      have congruent := Congruent.primitive primitive
        (Value.kind?_of_readPrimitive read)
      exact (attributes.put listed congruent).congruent found

theorem congruent_of_convert_base (lowered : graph.Lowered allowed root)
    {zone : Zone} {element : Element} {value : Value}
    (converts : ∀ child ∈ element.children, ∀ node value,
      graph.convert zone node child = .ok value → graph.Congruent node value)
    (base : graph.IsBase id)
    (converted : graph.convert zone id element = .ok value) :
    graph.Congruent id value := by
  rcases base with ⟨kind, logical, found⟩ | ⟨record, found, _⟩
  · rw [convert_primitive found] at converted
    exact .primitive found (Value.kind?_of_readPrimitive converted)
  · exact lowered.congruent_of_convert_record found converts converted

/-- Whatever an element becomes against a node is congruent with the node, by
induction on the levels of the element. -/
theorem congruent_of_convert (lowered : graph.Lowered allowed root) {zone : Zone}
    {element : Element} {value : Value}
    (converted : graph.convert zone id element = .ok value) :
    graph.Congruent id value := by
  induction levels : element.depth using Nat.strong_induction_on
    generalizing id element value with
  | _ n ih =>
      have converts : ∀ child ∈ element.children, ∀ node value,
          graph.convert zone node child = .ok value →
            graph.Congruent node value := by
        intro child member node value converted
        have fewer := depth_lt_of_mem_children member
        exact ih child.depth (levels ▸ fewer) converted rfl
      cases found : graph.node? id with
      | none =>
          rw [convert, convertWith, found] at converted
          cases converted
      | some node =>
          cases node with
          | primitive kind logical =>
              exact lowered.congruent_of_convert_base converts
                (.inl ⟨kind, logical, found⟩) converted
          | record r =>
              exact lowered.congruent_of_convert_record
                (record?_eq_some_iff.2 found) converts converted
          | optional inner =>
              rw [lowered.convert_optional found] at converted
              exact .optional found (lowered.congruent_of_convert_base converts
                (lowered.fits id _ found).wraps converted)
          | array item =>
              rw [convert_array found] at converted
              obtain ⟨items, mapped, rfl⟩ := Outcome.map_eq_ok.1 converted
              refine .array found fun value member => ?_
              obtain ⟨child, listed, ended⟩ :=
                Outcome.exists_of_mem_mapM mapped value member
              exact converts child listed item value ended
          | map values =>
              rw [convert, convertWith, found] at converted
              cases converted
              exact .map found

theorem congruent_of_transcodeRoot (lowered : graph.Lowered allowed root)
    {settings : Settings} {element : Element} {value : Value}
    (transcoded : graph.transcodeRoot settings root element = .ok value) :
    graph.Congruent root value := by
  obtain ⟨_, _, transcoded⟩ := Outcome.bind_eq_ok.1 transcoded
  split at transcoded
  · exact lowered.congruent_of_convert transcoded
  · next choice isChoice =>
      obtain ⟨⟨index, inner⟩, selected, transcoded⟩ :=
        Outcome.bind_eq_ok.1 transcoded
      obtain ⟨inSlot, converted, same⟩ := Outcome.bind_eq_ok.1 transcoded
      cases same
      obtain ⟨found, document⟩ := source_of_documentRecord? isChoice
      obtain ⟨field, listed, rfl⟩ := exists_field_of_documentField selected
      -- All slots but the one for the document element are unset.
      have unset : ∀ other, Slots.get? (choice.fields.map fun _ => none) other =
          none := by
        intro other
        rw [Slots.get?, List.getElem?_map]
        cases choice.fields[other]? <;> rfl
      refine .record found (by simp [Slots.put]) ?_
        fun notDocument => absurd document notDocument
      intro other last held listed' holds
      by_cases same : other = index
      · subst same
        rw [Slots.get?_put (by
          simpa using (List.getElem?_eq_some_iff.1 listed).1)] at holds
        cases holds
        cases listed.symm.trans listed'
        exact lowered.congruent_of_convert converted
      · rw [Slots.get?_put_of_ne same, unset] at holds
        cases holds

theorem congruent_of_transcodeChild (lowered : graph.Lowered allowed root)
    (found : graph.record? id = some record) {settings : Settings}
    {child : Element} {node : Nat} {value : Value}
    (transcoded : graph.transcodeChild settings record child =
      .ok (node, value)) :
    graph.Congruent node value := by
  obtain ⟨_, _, transcoded⟩ := Outcome.bind_eq_ok.1 transcoded
  split at transcoded
  · cases transcoded
  · next route routed =>
      rcases lowered.leads_of_route? found routed with
        ⟨owner, field, leads, _⟩ | ⟨index, rfl, wildcard⟩
      · rw [convertAlong_eq settings.zone child leads] at transcoded
        obtain ⟨inner, converted, same⟩ := Outcome.map_eq_ok.1 transcoded
        cases same
        exact lowered.congruent_of_convert converted
      · obtain ⟨field, listed, _, values, map, text⟩ :=
          lowered.isTextMap_of_elementWildcard found wildcard
        rw [convertAlong, listed, Option.bind_some, map] at transcoded
        cases transcoded
        exact .primitive text rfl

end Lowered

/-- Whatever is transcoded against a node of a graph that was made from components
is congruent with the node: an element against any node, a document against the
root, and a child of an element against the node that is returned with its
value. -/
theorem congruent_of_ofComponents {components : Components}
    {wanted : Option String} {graph : Graph}
    (built : ofComponents components wanted = .ok graph) (settings : Settings)
    (element : Element) :
    (∀ node value, graph.transcode settings node element = .ok value →
      graph.Congruent node value) ∧
    (∀ value, graph.transcodeDocument settings element = .ok value →
      ∃ root, graph.root = some root ∧ graph.Congruent root value) ∧
    ∀ id record node value, graph.record? id = some record →
      graph.transcodeChild settings record element = .ok (node, value) →
        graph.Congruent node value := by
  obtain ⟨root, lowered⟩ := exists_lowered_ofComponents built
  refine ⟨?_, ?_, ?_⟩
  · intro node value transcoded
    obtain ⟨_, _, converted⟩ := Outcome.bind_eq_ok.1 transcoded
    exact lowered.congruent_of_convert converted
  · intro value transcoded
    rw [transcodeDocument, rootNode, lowered.rooted] at transcoded
    exact ⟨root, lowered.rooted, lowered.congruent_of_transcodeRoot transcoded⟩
  · intro id record node value found transcoded
    exact lowered.congruent_of_transcodeChild found transcoded

end Graph

/-- A report with a note, a report of its own, and something else. -/
def report : Element :=
  ⟨⟨"report", none⟩, [⟨⟨"id", none⟩, "7"⟩, ⟨⟨"lang", none⟩, "en"⟩], [
    .element ⟨"note", none⟩ [⟨⟨"id", none⟩, "1"⟩] [.text "a"],
    .element ⟨"report", none⟩ [⟨⟨"id", none⟩, "8"⟩]
      [.element ⟨"note", none⟩ [] [.text "c"]],
    .element ⟨"author", none⟩ [] [.text "b"]]⟩

theorem congruent_report :
    ∃ value, reportGraph.transcodeDocument {} report = .ok value ∧
      reportGraph.Congruent 0 value := by
  have transcoded : reportGraph.transcodeDocument {} report = .ok (.record [
      some (.array [
        .record [some (.record [some (.string "a"), some (.int 1)]), none],
        .record [none, some (.record [
          some (.array [
            .record [some (.record [some (.string "c"), none]), none]]),
          some (.map []), some (.int 8), some (.map [])])]]),
      some (.map [("author", "b")]), some (.int 7),
      some (.map [("lang", "en")])]) := by
    rfl
  obtain ⟨_, documents, _⟩ := Graph.congruent_of_ofComponents
    ofComponents_reportComponents {} report
  obtain ⟨root, rooted, congruent⟩ := documents _ transcoded
  cases rooted
  exact ⟨_, transcoded, congruent⟩

end XmlRecords
