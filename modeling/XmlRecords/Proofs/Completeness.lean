import XmlRecords.Proofs.Matching
import XmlRecords.Proofs.WellFormed

/-!
# What records lack

A value is complete if every record in it has a value for whatever is required.
Transcoding does not ask for that.  It puts into a record what the element has,
so a value is complete just when all elements that are matched against records
supply what these require.  In a repeated group each round needs what the group
requires, so there have to be as many children on a route as rounds.
-/

namespace XmlRecords

namespace Route

/-- The slots of the records in which a route ends, in all rounds of the groups on
the way. -/
def rounds : Route → Slots → List Slots
  | .field _, slots | .wildcard _, slots => [slots]
  | .group index _ rest, slots =>
      (slots.items index).flatMap fun round => rest.rounds round.slots

/-- The place of the field of a record that a route ends with. -/
def last : Route → Nat
  | .field index | .wildcard index => index
  | .group _ _ rest => rest.last

end Route

namespace Graph

variable {graph : Graph} {allowed : QName → Prop} {root id : Nat}
  {record : Record} {slots next : Slots}

/-- The node is neither for what may be missing nor for what is repeated or
open. -/
def IsRequired (graph : Graph) (id : Nat) : Prop :=
  ∃ node, graph.node? id = some node ∧ node.isWrapper = false

/-- In all records of the value but the one for the choice of a document element,
whatever is required is set. -/
inductive Complete (graph : Graph) : Nat → Value → Prop where
  | primitive {id : Nat} {value : Value} (found : graph.IsPrimitive id) :
      Complete graph id value
  | optional {id inner : Nat} {value : Value}
      (found : graph.node? id = some (.optional inner))
      (present : Complete graph inner value) : Complete graph id value
  | array {id item : Nat} {items : List Value}
      (found : graph.node? id = some (.array item))
      (each : ∀ value ∈ items, Complete graph item value) :
      Complete graph id (.array items)
  | map {id values : Nat} {value : Value}
      (found : graph.node? id = some (.map values)) : Complete graph id value
  | record {id : Nat} {record : Record} {slots : Slots}
      (found : graph.record? id = some record)
      (each : ∀ (index : Nat) (field : Field) (value : Value),
        record.fields[index]? = some field → slots.get? index = some value →
          Complete graph field.node value)
      (whole : record.source ≠ .document →
        ∀ (index : Nat) (field : Field), record.fields[index]? = some field →
          graph.IsRequired field.node → slots.get? index ≠ none) :
      Complete graph id (.record slots)

theorem IsRequired.ne_array (required : graph.IsRequired id) (item : Nat) :
    graph.node? id ≠ some (.array item) := by
  obtain ⟨node, found, plain⟩ := required
  intro array
  cases found.symm.trans array
  cases plain

theorem IsRequired.ne_map (required : graph.IsRequired id) (values : Nat) :
    graph.node? id ≠ some (.map values) := by
  obtain ⟨node, found, plain⟩ := required
  intro map
  cases found.symm.trans map
  cases plain

theorem complete_optional_iff {inner : Nat} {value : Value}
    (found : graph.node? id = some (.optional inner)) :
    graph.Complete id value ↔ graph.Complete inner value := by
  refine ⟨fun complete => ?_, .optional found⟩
  cases complete with
  | primitive isPrimitive =>
      obtain ⟨_, _, found'⟩ := isPrimitive
      cases found.symm.trans found'
  | optional found' present =>
      cases found.symm.trans found'
      exact present
  | array found' _ => cases found.symm.trans found'
  | map found' => cases found.symm.trans found'
  | record found' _ _ =>
      cases found.symm.trans (record?_eq_some_iff.1 found')

theorem complete_array_iff {item : Nat} {items : List Value}
    (found : graph.node? id = some (.array item)) :
    graph.Complete id (.array items) ↔
      ∀ value ∈ items, graph.Complete item value := by
  refine ⟨fun complete => ?_, .array found⟩
  cases complete with
  | primitive isPrimitive =>
      obtain ⟨_, _, found'⟩ := isPrimitive
      cases found.symm.trans found'
  | optional found' _ => cases found.symm.trans found'
  | array found' each =>
      cases found.symm.trans found'
      exact each
  | map found' => cases found.symm.trans found'

theorem complete_record_iff (found : graph.record? id = some record) :
    graph.Complete id (.record slots) ↔
      (∀ (index : Nat) (field : Field) (value : Value),
        record.fields[index]? = some field → slots.get? index = some value →
          graph.Complete field.node value) ∧
      (record.source ≠ .document → ∀ (index : Nat) (field : Field),
        record.fields[index]? = some field → graph.IsRequired field.node →
          slots.get? index ≠ none) := by
  refine ⟨fun complete => ?_, fun ⟨each, whole⟩ => .record found each whole⟩
  have node := record?_eq_some_iff.1 found
  cases complete with
  | primitive isPrimitive =>
      obtain ⟨_, _, found'⟩ := isPrimitive
      cases node.symm.trans found'
  | optional found' _ => cases node.symm.trans found'
  | map found' => cases node.symm.trans found'
  | record found' each whole =>
      cases found.symm.trans found'
      exact ⟨each, whole⟩

/-! ## Rounds -/

/-- Where one element is expected, the values along a route are those in the slots
that it ends in. -/
theorem valuesAlong_eq_filterMap {route : Route} {field : Field}
    (leads : graph.Leads record route field)
    (single : ∀ item, graph.node? field.node ≠ some (.array item))
    (slots : Slots) :
    graph.valuesAlong record route slots =
      (route.rounds slots).filterMap (Slots.get? · route.last) := by
  induction leads generalizing slots with
  | @field record index field name listed origin closed =>
      have noArray := (isArrayField_eq_false_iff listed).2 single
      rw [valuesAlong, noArray, Route.rounds, Route.last]
      cases held : slots.get? index <;> simp [held]
  | group listed array rounds inner ih =>
      rw [valuesAlong, Route.rounds, Route.last, List.filterMap_flatMap]
      simp only [ih single]

/-- What is required is set in all rounds just when there are as many values as
rounds. -/
theorem forall_rounds_iff {route : Route} {field : Field}
    (leads : graph.Leads record route field)
    (required : graph.IsRequired field.node) (slots : Slots) :
    (∀ round ∈ route.rounds slots, Slots.get? round route.last ≠ none) ↔
      (graph.valuesAlong record route slots).length =
        (route.rounds slots).length := by
  rw [valuesAlong_eq_filterMap leads required.ne_array,
    List.filterMap_length_eq_length]
  simp only [ne_eq, Option.isSome_iff_ne_none]

/-- What came along the routes into a record is complete, and what is required
came in every round. -/
def CompleteAlong (graph : Graph) (record : Record) (slots : Slots) : Prop :=
  ∀ route field, graph.Leads record route field →
    (graph.IsRequired field.node →
      ∀ round ∈ route.rounds slots, Slots.get? round route.last ≠ none) ∧
    ∀ value ∈ graph.valuesAlong record route slots,
      graph.Complete (graph.elementType field.node) value

theorem mem_rounds_group {index : Nat} {item : Record} {rest : Route}
    {round : Slots} :
    round ∈ (Route.group index item rest).rounds slots ↔
      ∃ value ∈ slots.items index, round ∈ rest.rounds value.slots :=
  List.mem_flatMap

theorem mem_valuesAlong_group {index : Nat} {item : Record} {rest : Route}
    {value : Value} :
    value ∈ graph.valuesAlong record (.group index item rest) slots ↔
      ∃ round ∈ slots.items index,
        value ∈ graph.valuesAlong item rest round.slots := by
  rw [valuesAlong, List.mem_flatMap]

namespace Lowered

/-- What is in the field for an element is complete just when the values along the
route to the field are. -/
theorem complete_inSlot_iff (lowered : graph.Lowered allowed root) {owner : Nat}
    {name : QName} {index : Nat} {field : Field}
    (listed : record.fields[index]? = some field)
    (holds : graph.Holds owner (.element name) field.node)
    (arrays : ∀ item, graph.node? field.node = some (.array item) →
      ∃ items, slots.get? index = some (.array items)) :
    (∀ value, slots.get? index = some value →
      graph.Complete field.node value) ↔
      ∀ value ∈ graph.valuesAlong record (.field index) slots,
        graph.Complete (graph.elementType field.node) value := by
  have single : (∀ item, graph.node? field.node ≠ some (.array item)) →
      graph.valuesAlong record (.field index) slots =
        (slots.get? index).toList := by
    intro single
    rw [valuesAlong, isArrayField, listed, Option.bind_some]
    split
    · next item array => exact absurd array (single item)
    · rfl
  rcases holds with base | ⟨inner, base, array | optional⟩
  · obtain ⟨node, found, plain⟩ := base.exists_node
    rw [elementType_of_isWrapper_eq_false found plain,
      single (IsRequired.ne_array ⟨node, found, plain⟩)]
    simp
  · obtain ⟨node, found, plain⟩ := base.exists_node
    obtain ⟨items, held⟩ := arrays inner array
    rw [elementType_array lowered.linked array,
      elementType_of_isWrapper_eq_false found plain, valuesAlong,
      isArrayField, listed, Option.bind_some, array, if_pos rfl,
      Slots.items_of_get? held]
    simp only [held, Option.some.injEq, forall_eq', Value.items,
      complete_array_iff array]
  · obtain ⟨node, found, plain⟩ := base.exists_node
    rw [elementType_optional lowered.linked optional,
      elementType_of_isWrapper_eq_false found plain, single (by simp [optional])]
    simp [complete_optional_iff optional]

/-- A field beside the children holds nothing that could lack anything. -/
theorem complete_of_not_isForChildren (lowered : graph.Lowered allowed root)
    (found : graph.record? id = some record) {index : Nat} {field : Field}
    (listed : record.fields[index]? = some field)
    (aside : ¬ IsForChildren field) (value : Value) :
    graph.Complete field.node value := by
  have holds := lowered.holds found listed
  rw [IsForChildren, not_or, not_or, not_exists] at aside
  obtain ⟨noElement, noGroup, noWildcard⟩ := aside
  cases origin : field.origin with
  | element name => exact absurd origin (noElement name)
  | «attribute» name =>
      rw [origin] at holds
      rcases holds with primitive | ⟨inner, primitive, optional⟩
      · exact .primitive primitive
      · exact .optional optional (.primitive primitive)
  | elementWildcard => exact absurd origin noWildcard
  | attributeWildcard =>
      rw [origin] at holds
      obtain ⟨values, map, _⟩ := holds
      exact .map map
  | group => exact absurd origin noGroup
  | text =>
      rw [origin] at holds
      exact .primitive holds

end Lowered

/-- The records of repeated groups have fields for children alone. -/
def GroupsOfChildren (graph : Graph) : Prop :=
  ∀ id record compositor, graph.record? id = some record →
    record.source = .group compositor → ∀ field ∈ record.fields,
      IsForChildren field

/-- The rounds of all groups of a record are complete just when what came along the
routes into them is. -/
def RoundsAgree (graph : Graph) (record : Record) (slots : Slots) : Prop :=
  ∀ (index : Nat) (field : Field) (item : Record) (node : Nat),
    record.fields[index]? = some field →
      graph.node? field.node = some (.array node) →
        graph.groupItem? field = some item → ∀ value ∈ slots.items index,
          (graph.Complete node value ↔ graph.CompleteAlong item value.slots)

/-- The rounds of a group are complete if what came along the routes into the record
around them is. -/
theorem complete_group_of_along {index node : Nat} {field : Field} {item : Record}
    {items : List Value} (agree : graph.RoundsAgree record slots)
    (along : graph.CompleteAlong record slots)
    (listed : record.fields[index]? = some field)
    (array : graph.node? field.node = some (.array node))
    (leadsOn : graph.groupItem? field = some item)
    (held : slots.get? index = some (.array items)) :
    graph.Complete field.node (.array items) := by
  refine .array array fun round member => ?_
  have inItems : round ∈ slots.items index := by
    rwa [Slots.items_of_get? held]
  refine (agree index field item node listed array leadsOn round inItems).2
    fun route last leads => ?_
  obtain ⟨required, values⟩ := along _ last (.group listed array leadsOn leads)
  exact ⟨fun isRequired inner member => required isRequired inner
      (mem_rounds_group.2 ⟨round, inItems, member⟩),
    fun value member => values value
      (mem_valuesAlong_group.2 ⟨round, inItems, member⟩)⟩

namespace Lowered

/-- What came along the routes into a record is complete if all that the record
holds is, and if nothing is missing that is required. -/
theorem completeAlong_of_each (lowered : graph.Lowered allowed root)
    (found : graph.record? id = some record)
    (arrays : ∀ (index : Nat) (field : Field) (item : Nat),
      record.fields[index]? = some field →
        graph.node? field.node = some (.array item) →
          ∃ items, slots.get? index = some (.array items))
    (agree : graph.RoundsAgree record slots)
    (each : ∀ (index : Nat) (field : Field) (value : Value),
      record.fields[index]? = some field → slots.get? index = some value →
        graph.Complete field.node value)
    (whole : ∀ (index : Nat) (field : Field), record.fields[index]? = some field →
      graph.IsRequired field.node → slots.get? index ≠ none) :
    graph.CompleteAlong record slots := by
  intro route field leads
  cases leads with
  | @field _ index _ name listed origin closed =>
      have holds := lowered.holds found listed
      rw [origin] at holds
      refine ⟨fun required round member => ?_, ?_⟩
      · rw [Route.rounds, List.mem_singleton] at member
        subst member
        exact whole index field listed required
      · rw [← lowered.complete_inSlot_iff listed holds
          (fun item => arrays index field item listed)]
        exact fun value => each index field value listed
  | @group _ index outer node item rest _ listed array leadsOn inner =>
      obtain ⟨items, held⟩ := arrays index outer node listed array
      have all := (complete_array_iff array).1 (each index outer _ listed held)
      have along : ∀ value ∈ slots.items index,
          graph.CompleteAlong item value.slots := by
        intro value member
        refine (agree index outer item node listed array leadsOn value
          member).1 (all value ?_)
        rwa [Slots.items_of_get? held] at member
      refine ⟨fun required round member => ?_, fun value member => ?_⟩
      · obtain ⟨value, isRound, member⟩ := mem_rounds_group.1 member
        exact (along value isRound rest field inner).1 required round member
      · obtain ⟨round, isRound, member⟩ := mem_valuesAlong_group.1 member
        exact (along round isRound rest field inner).2 value member

/-- Each field of a record holds what is complete if what came along the routes into
the record is. -/
theorem complete_of_along (lowered : graph.Lowered allowed root)
    (found : graph.record? id = some record)
    (arrays : ∀ (index : Nat) (field : Field) (item : Nat),
      record.fields[index]? = some field →
        graph.node? field.node = some (.array item) →
          ∃ items, slots.get? index = some (.array items))
    (agree : graph.RoundsAgree record slots)
    (along : graph.CompleteAlong record slots) {index : Nat} {field : Field}
    {value : Value} (listed : record.fields[index]? = some field)
    (held : slots.get? index = some value) : graph.Complete field.node value := by
  by_cases children : IsForChildren field
  · have holds := lowered.holds found listed
    rcases children with ⟨name, origin⟩ | origin | origin
    · rw [origin] at holds
      have leads : graph.Leads record (.field index) field :=
        .field listed origin (ne_map_of_holds holds)
      exact (lowered.complete_inSlot_iff listed holds
        (fun item => arrays index field item listed)).2
          (along _ field leads).2 value held
    · obtain ⟨node, item, leadsOn, array, _⟩ :=
        lowered.exists_round found (List.mem_of_getElem? listed) origin
      obtain ⟨items, held'⟩ := arrays index field node listed array
      cases held.symm.trans held'
      exact complete_group_of_along agree along listed array leadsOn held
    · rw [origin] at holds
      obtain ⟨values, map, _⟩ := holds
      exact .map map
  · exact lowered.complete_of_not_isForChildren found listed children value

/-- A required field for children is set if what came along the routes into its
record is complete. -/
theorem get?_ne_none_of_along (lowered : graph.Lowered allowed root)
    (found : graph.record? id = some record)
    (along : graph.CompleteAlong record slots) {index : Nat} {field : Field}
    (listed : record.fields[index]? = some field)
    (children : IsForChildren field) (required : graph.IsRequired field.node) :
    slots.get? index ≠ none := by
  have holds := lowered.holds found listed
  rcases children with ⟨name, origin⟩ | origin | origin
  · rw [origin] at holds
    have leads : graph.Leads record (.field index) field :=
      .field listed origin (ne_map_of_holds holds)
    exact (along _ field leads).1 required slots (by simp [Route.rounds])
  · rw [origin] at holds
    obtain ⟨item, array, _⟩ := holds
    exact absurd array (required.ne_array item)
  · rw [origin] at holds
    obtain ⟨values, map, _⟩ := holds
    exact absurd map (required.ne_map values)

/-- A record is complete when all is that came along its routes, and when nothing
is missing beside the children. -/
theorem complete_iff_along (lowered : graph.Lowered allowed root)
    (groups : graph.GroupsOfChildren) (found : graph.record? id = some record)
    (source : record.source ≠ .document) (shaped : graph.Shaped record slots) :
    graph.Complete id (.record slots) ↔
      graph.CompleteAlong record slots ∧
      ∀ (index : Nat) (field : Field), record.fields[index]? = some field →
        ¬ IsForChildren field → graph.IsRequired field.node →
          slots.get? index ≠ none := by
  induction shaped generalizing id with
  | @mk record slots length arrays records rounds ih =>
      -- A round of a group has nothing beside its children.
      have agree : graph.RoundsAgree record slots := by
        intro index field item node listed array leads value member
        obtain ⟨node', compositor, array', isItem, group⟩ :=
          lowered.round_of_groupItem? found listed leads
        cases array.symm.trans array'
        obtain ⟨inner, rfl⟩ := records index field item listed leads value member
        have children := groups node item compositor isItem group
        rw [ih index field item inner listed leads member isItem (by simp [group])]
        refine and_iff_left fun other last listed' aside => ?_
        exact absurd (children last (List.mem_of_getElem? listed')) aside
      rw [complete_record_iff found]
      constructor
      · rintro ⟨each, whole⟩
        exact ⟨lowered.completeAlong_of_each found arrays agree each (whole source),
          fun index field listed _ => whole source index field listed⟩
      · rintro ⟨along, aside⟩
        refine ⟨fun index field value =>
          lowered.complete_of_along found arrays agree along, ?_⟩
        intro _ index field listed required
        by_cases children : IsForChildren field
        · exact lowered.get?_ne_none_of_along found along listed children required
        · exact aside index field listed children required

end Lowered

end Graph

end XmlRecords
