import XmlRecords.Proofs.Growth
import XmlRecords.Proofs.Runs
import XmlRecords.Transcode.Record
import XmlRecords.Value.Json

/-!
# Values along routes

A child that is put into a record comes behind the values that are there along
its route already.  Along every other route there are the same values as before,
whether or not the routes go through the same groups.

What a child, an attribute, or the first of several does to the slots of a record when
it can be put there is said once for each of them (`place_field_eq_ok`,
`place_group_eq_ok`, `placeAttribute_cases`, and the lemmas on lists that begin with a
child or an attribute).
-/

namespace XmlRecords

/-- The slots of a value, if it is a record. -/
def Value.slots : Value → Slots
  | .record slots => slots
  | _ => []

/-- The items of a value, if it is an array. -/
def Value.items : Value → List Value
  | .array items => items
  | _ => []

namespace Slots

variable {slots : Slots} {index other : Nat} {value : Value}

/-- The items of the array in a slot. -/
def items (slots : Slots) (index : Nat) : List Value :=
  (slots.get? index).elim [] Value.items

theorem items_of_get? (found : slots.get? index = some value) :
    slots.items index = value.items := by
  rw [Slots.items, found]
  rfl

theorem lt_length_of_get? (found : slots.get? index = some value) :
    index < slots.length := by
  rcases Nat.lt_or_ge index slots.length with inside | outside
  · exact inside
  · rw [get?, List.getElem?_eq_none outside] at found
    cases found

theorem length_put (slots : Slots) (index : Nat) (value : Value) :
    (slots.put index value).length = slots.length :=
  List.length_set

theorem get?_put (inside : index < slots.length) (value : Value) :
    (slots.put index value).get? index = some value := by
  rw [get?, put, List.getElem?_set_self inside]
  rfl

theorem get?_put_of_ne (differs : other ≠ index) (slots : Slots)
    (value : Value) : (slots.put index value).get? other = slots.get? other := by
  rw [get?, put, List.getElem?_set_ne differs.symm]
  rfl

theorem items_put (inside : index < slots.length) (value : Value) :
    (slots.put index value).items index = value.items :=
  items_of_get? (get?_put inside value)

theorem items_put_of_ne (differs : other ≠ index) (slots : Slots)
    (value : Value) : (slots.put index value).items other = slots.items other := by
  rw [items, items, get?_put_of_ne differs]

theorem putItem_of_get? {items : List Value}
    (array : slots.get? index = some (.array items)) (value : Value) :
    slots.putItem index value = slots.put index (.array (items ++ [value])) := by
  rw [putItem, array]

theorem putEntry_of_get? {entries : List (String × String)}
    (map : slots.get? index = some (.map entries)) (key text : String) :
    slots.putEntry index key text =
      slots.put index (.map (Association.insert key text entries)) := by
  rw [putEntry, map]

theorem get?_putItem_of_ne {other : Nat} (differs : other ≠ index)
    (slots : Slots) (value : Value) :
    (slots.putItem index value).get? other = slots.get? other := by
  rw [putItem]
  split
  · exact get?_put_of_ne differs slots _
  · rfl

theorem get?_putEntry_of_ne {other : Nat} (differs : other ≠ index)
    (slots : Slots) (key text : String) :
    (slots.putEntry index key text).get? other = slots.get? other := by
  rw [putEntry]
  split
  · exact get?_put_of_ne differs slots _
  · rfl

theorem length_putEntry (slots : Slots) (index : Nat) (key text : String) :
    (slots.putEntry index key text).length = slots.length := by
  rw [putEntry]
  split
  · exact length_put ..
  · rfl

end Slots

namespace Graph

variable {graph : Graph}

/-- A route leads from a record to a field for an element, through the rounds of
any number of groups. -/
inductive Leads (graph : Graph) : Record → Route → Field → Prop where
  | field {record : Record} {index : Nat} {field : Field} {name : QName}
      (listed : record.fields[index]? = some field)
      (origin : field.origin = .element name)
      (closed : ∀ values, graph.node? field.node ≠ some (.map values)) :
      Leads graph record (.field index) field
  | group {record : Record} {index : Nat} {outer : Field} {node : Nat}
      {item : Record} {rest : Route} {field : Field}
      (listed : record.fields[index]? = some outer)
      (array : graph.node? outer.node = some (.array node))
      (rounds : graph.groupItem? outer = some item)
      (inner : Leads graph item rest field) :
      Leads graph record (.group index item rest) field

/-- The slots of a record are in shape: what is repeated has an array, and the
rounds of a group are records whose slots are in shape. -/
inductive Shaped (graph : Graph) : Record → Slots → Prop where
  | mk {record : Record} {slots : Slots}
      (length : slots.length = record.fields.length)
      (arrays : ∀ (index : Nat) (field : Field) (item : Nat),
        record.fields[index]? = some field →
          graph.node? field.node = some (.array item) →
            ∃ items, slots.get? index = some (.array items))
      (records : ∀ (index : Nat) (field : Field) (item : Record),
        record.fields[index]? = some field →
          graph.groupItem? field = some item →
            ∀ round ∈ slots.items index, ∃ inner, round = .record inner)
      (rounds : ∀ (index : Nat) (field : Field) (item : Record)
        (inner : Slots), record.fields[index]? = some field →
          graph.groupItem? field = some item →
            .record inner ∈ slots.items index → Shaped graph item inner) :
      Shaped graph record slots

/-- The values along a route: in all rounds of the groups on the way, the items
of an array, or what is in a slot by itself. -/
def valuesAlong (graph : Graph) (record : Record) : Route → Slots → List Value
  | .field index, slots =>
      if graph.isArrayField record index then slots.items index
      else (slots.get? index).toList
  | .group index item rest, slots =>
      (slots.items index).flatMap fun round =>
        graph.valuesAlong item rest round.slots
  | .wildcard index, slots =>
      match slots.get? index with
      | some (.map entries) => entries.map fun entry => .string entry.2
      | _ => []

theorem valuesAlong_congr {record : Record} {route : Route} {slots next : Slots}
    (same : next.get? route.index = slots.get? route.index) :
    graph.valuesAlong record route next =
      graph.valuesAlong record route slots := by
  cases route with
  | field index =>
      replace same : next.get? index = slots.get? index := same
      rw [valuesAlong, valuesAlong, Slots.items, Slots.items, same]
  | group index item rest =>
      replace same : next.get? index = slots.get? index := same
      rw [valuesAlong, valuesAlong, Slots.items, Slots.items, same]
  | wildcard index =>
      replace same : next.get? index = slots.get? index := same
      rw [valuesAlong, valuesAlong, same]

/-- A value arrives behind the others along its route, and nowhere else. -/
structure Arrives (graph : Graph) (record : Record) (route : Route)
    (value : Value) (slots next : Slots) : Prop where
  shaped : graph.Shaped record next
  own : graph.valuesAlong record route next =
    graph.valuesAlong record route slots ++ [value]
  others : ∀ other field, graph.Leads record other field → other ≠ route →
    graph.valuesAlong record other next = graph.valuesAlong record other slots
  apart : ∀ index, index ≠ route.index → next.get? index = slots.get? index

theorem isArrayField_eq_true_iff {record : Record} {index : Nat} {field : Field}
    (listed : record.fields[index]? = some field) :
    graph.isArrayField record index = true ↔
      ∃ item, graph.node? field.node = some (.array item) := by
  rw [isArrayField, listed, Option.bind_some]
  constructor
  · intro isArray
    split at isArray
    · next item array => exact ⟨item, array⟩
    · cases isArray
  · rintro ⟨item, array⟩
    rw [array]

theorem isArrayField_eq_false_iff {record : Record} {index : Nat} {field : Field}
    (listed : record.fields[index]? = some field) :
    graph.isArrayField record index = false ↔
      ∀ item, graph.node? field.node ≠ some (.array item) := by
  rw [Bool.eq_false_iff, ne_eq, isArrayField_eq_true_iff listed, not_exists]

theorem itemNode_eq_self {id : Nat}
    (single : ∀ item, graph.node? id ≠ some (.array item)) :
    Value.itemNode graph id = id := by
  rw [Value.itemNode]
  split
  · next item array => exact absurd array (single item)
  · rfl

theorem groupItem?_of_element {field : Field} {name : QName}
    (origin : field.origin = .element name) : graph.groupItem? field = none := by
  rw [groupItem?, origin]
  rfl

theorem origin_of_groupItem? {field : Field} {item : Record}
    (rounds : graph.groupItem? field = some item) : field.origin = .group := by
  rw [groupItem?] at rounds
  split at rounds
  · next group => exact group
  · cases rounds

theorem get?_emptySlots {record : Record} {index : Nat} {field : Field}
    (listed : record.fields[index]? = some field) :
    (graph.emptySlots record).get? index = graph.emptySlot field := by
  rw [Slots.get?, emptySlots, List.getElem?_map, listed]
  rfl

theorem items_emptySlots {record : Record} {index : Nat} {field : Field}
    (listed : record.fields[index]? = some field) :
    (graph.emptySlots record).items index = [] := by
  rw [Slots.items, get?_emptySlots listed, emptySlot]
  split <;> rfl

theorem shaped_emptySlots (record : Record) :
    graph.Shaped record (graph.emptySlots record) := by
  refine .mk (List.length_map _) ?_ ?_ ?_
  · intro index field item listed array
    refine ⟨[], ?_⟩
    rw [get?_emptySlots listed, emptySlot, array]
  · intro index field item listed _ round member
    rw [items_emptySlots listed] at member
    cases member
  · intro index field item inner listed _ member
    rw [items_emptySlots listed] at member
    cases member

theorem valuesAlong_emptySlots {record : Record} {route : Route} {field : Field}
    (leads : graph.Leads record route field) :
    graph.valuesAlong record route (graph.emptySlots record) = [] := by
  cases leads with
  | field listed origin closed =>
      rw [valuesAlong, items_emptySlots listed, get?_emptySlots listed,
        isArrayField, listed, Option.bind_some, emptySlot]
      cases found : graph.node? field.node with
      | none => rfl
      | some node =>
          cases node with
          | map values => exact absurd found (closed values)
          | _ => rfl
  | group listed array rounds inner =>
      rw [valuesAlong, items_emptySlots listed]
      rfl

/-- A slot that is filled as its field asks for keeps the slots in shape. -/
theorem Shaped.put {record : Record} {slots : Slots} {index : Nat} {field : Field}
    {value : Value} (shaped : graph.Shaped record slots)
    (listed : record.fields[index]? = some field)
    (array : ∀ item, graph.node? field.node = some (.array item) →
      ∃ items, value = .array items)
    (rounds : ∀ item, graph.groupItem? field = some item →
      ∀ round ∈ value.items, ∃ inner,
        round = .record inner ∧ graph.Shaped item inner) :
    graph.Shaped record (slots.put index value) := by
  obtain ⟨length, arrays, records, shapes⟩ := shaped
  have inside : index < slots.length := by
    rw [length]
    exact List.getElem?_eq_some_iff.1 listed |>.1
  refine .mk ((Slots.length_put ..).trans length) ?_ ?_ ?_
  · intro other field' item listed' array'
    by_cases same : other = index
    · subst same
      obtain rfl := Option.some.inj (listed.symm.trans listed')
      obtain ⟨items, rfl⟩ := array item array'
      exact ⟨items, Slots.get?_put inside _⟩
    · rw [Slots.get?_put_of_ne same]
      exact arrays other field' item listed' array'
  · intro other field' item listed' leads round member
    by_cases same : other = index
    · subst same
      obtain rfl := Option.some.inj (listed.symm.trans listed')
      rw [Slots.items_put inside] at member
      obtain ⟨inner, isRecord, _⟩ := rounds item leads round member
      exact ⟨inner, isRecord⟩
    · rw [Slots.items_put_of_ne same] at member
      exact records other field' item listed' leads round member
  · intro other field' item inner listed' leads member
    by_cases same : other = index
    · subst same
      obtain rfl := Option.some.inj (listed.symm.trans listed')
      rw [Slots.items_put inside] at member
      obtain ⟨inner', isRecord, shape⟩ := rounds item leads _ member
      cases isRecord
      exact shape
    · rw [Slots.items_put_of_ne same] at member
      exact shapes other field' item inner listed' leads member

/-- The round that a child goes to is in shape.  Together with the rounds in front
of it, it has the values of all rounds. -/
theorem currentRound_eq {item : Record} {target : Nat}
    {rounds front : List Value} {round : Slots}
    (shapes : ∀ value ∈ rounds, ∃ inner,
      value = .record inner ∧ graph.Shaped item inner)
    (current : graph.currentRound item target rounds = (front, round)) :
    graph.Shaped item round ∧ front ⊆ rounds ∧
      ∀ route field, graph.Leads item route field →
        (rounds.flatMap fun value =>
            graph.valuesAlong item route value.slots) =
          (front.flatMap fun value =>
            graph.valuesAlong item route value.slots) ++
              graph.valuesAlong item route round := by
  have fresh : graph.Shaped item (graph.emptySlots item) ∧ rounds ⊆ rounds ∧
      ∀ route field, graph.Leads item route field →
        (rounds.flatMap fun value =>
            graph.valuesAlong item route value.slots) =
          (rounds.flatMap fun value =>
            graph.valuesAlong item route value.slots) ++
              graph.valuesAlong item route (graph.emptySlots item) := by
    refine ⟨shaped_emptySlots item, List.Subset.refl _, ?_⟩
    intro route field leads
    rw [valuesAlong_emptySlots leads, List.append_nil]
  cases last : rounds.getLast? with
  | none =>
      rw [currentRound, last] at current
      cases current
      exact fresh
  | some value =>
      obtain ⟨inner, rfl, shape⟩ := shapes value (List.mem_of_getLast? last)
      rw [currentRound, last] at current
      dsimp only at current
      split at current
      · cases current
        exact fresh
      · cases current
        refine ⟨shape, List.dropLast_subset _, ?_⟩
        intro route field leads
        have together : rounds = rounds.dropLast ++ [.record round] := by
          obtain ⟨front, rfl⟩ := List.getLast?_eq_some_iff.1 last
          rw [List.dropLast_concat]
        calc
          _ = (rounds.dropLast ++ [Value.record round]).flatMap
              fun value => graph.valuesAlong item route value.slots := by
            rw [← together]
          _ = _ := by
            rw [List.flatMap_append, List.flatMap_singleton]
            rfl

/-- A route to a field begins at that field, and no other route does. -/
theorem Leads.index_ne {record : Record} {index : Nat} {other : Route}
    {field last : Field} (leads : graph.Leads record (.field index) field)
    (leadsOther : graph.Leads record other last)
    (differs : other ≠ .field index) : other.index ≠ index := by
  rintro rfl
  cases leads with
  | field listed origin closed =>
      cases leadsOther with
      | field listed' origin' closed' => exact differs rfl
      | group listed' array rounds inner =>
          obtain rfl := Option.some.inj (listed.symm.trans listed')
          rw [groupItem?_of_element origin] at rounds
          cases rounds

/-- A value in the slot of a field for an element arrives there. -/
theorem arrives_field {record : Record} {index : Nat} {field : Field}
    {slots : Slots} {value inSlot : Value}
    (leads : graph.Leads record (.field index) field)
    (shaped : graph.Shaped record (slots.put index inSlot))
    (own : graph.valuesAlong record (.field index) (slots.put index inSlot) =
      graph.valuesAlong record (.field index) slots ++ [value]) :
    graph.Arrives record (.field index) value slots (slots.put index inSlot) where
  shaped := shaped
  own := own
  others := fun _ _ leadsOther differs => valuesAlong_congr
    (Slots.get?_put_of_ne (leads.index_ne leadsOther differs) slots inSlot)
  apart := fun _ differs => Slots.get?_put_of_ne differs slots inSlot

/-- Where elements may be repeated, a value arrives behind the others. -/
theorem arrives_item {record : Record} {index item : Nat} {field : Field}
    {slots : Slots} (leads : graph.Leads record (.field index) field)
    (shaped : graph.Shaped record slots)
    (array : graph.node? field.node = some (.array item)) (value : Value) :
    graph.Arrives record (.field index) value slots
      (slots.putItem index value) := by
  have leads' := leads
  cases leads' with
  | field listed origin closed =>
      obtain ⟨_, arrays, _, _⟩ := id shaped
      obtain ⟨items, held⟩ := arrays index field item listed array
      have inside : index < slots.length := Slots.lt_length_of_get? held
      have isArray := (isArrayField_eq_true_iff listed).2 ⟨item, array⟩
      rw [Slots.putItem_of_get? held]
      apply arrives_field leads
      · apply shaped.put listed
        · intro _ _
          exact ⟨_, rfl⟩
        · intro round leadsOn
          rw [groupItem?_of_element origin] at leadsOn
          cases leadsOn
      · rw [valuesAlong, valuesAlong, if_pos isArray, if_pos isArray,
          Slots.items_put inside, Slots.items_of_get? held]
        rfl

/-- Where one element is expected, a value arrives in a slot that is free. -/
theorem arrives_single {record : Record} {index : Nat} {field : Field}
    {slots : Slots} (leads : graph.Leads record (.field index) field)
    (shaped : graph.Shaped record slots)
    (single : ∀ item, graph.node? field.node ≠ some (.array item))
    (free : slots.get? index = none) (value : Value) :
    graph.Arrives record (.field index) value slots (slots.put index value) := by
  have leads' := leads
  cases leads' with
  | field listed origin closed =>
      obtain ⟨length, _, _, _⟩ := id shaped
      have inside : index < slots.length := by
        rw [length]
        exact (List.getElem?_eq_some_iff.1 listed).1
      have noArray := (isArrayField_eq_false_iff listed).2 single
      apply arrives_field leads
      · apply shaped.put listed
        · intro item array
          exact absurd array (single item)
        · intro round leadsOn
          rw [groupItem?_of_element origin] at leadsOn
          cases leadsOn
      · rw [valuesAlong, valuesAlong, noArray, free, Slots.get?_put inside]
        rfl

/-- A child for a field comes behind the others in its array, or into its slot if that
is not set yet. -/
theorem place_field_eq_ok {child : Child} {record : Record} {index : Nat}
    {field : Field} {slots next : Slots}
    (listed : record.fields[index]? = some field)
    (placed : graph.place child record (.field index) slots = .ok next) :
    (∃ item value, graph.node? field.node = some (.array item) ∧
      child.convert item = .ok value ∧ next = slots.putItem index value) ∨
    ((∀ item, graph.node? field.node ≠ some (.array item)) ∧
      slots.get? index = none ∧ ∃ value, child.convert field.node = .ok value ∧
        next = slots.put index value) := by
  rw [place, listed] at placed
  dsimp only at placed
  split at placed
  · next item array =>
      obtain ⟨value, converted, same⟩ := Outcome.map_eq_ok.1 placed
      exact .inl ⟨item, value, array, converted, same.symm⟩
  · next single =>
      split at placed
      · cases placed
      · next free =>
          obtain ⟨value, converted, same⟩ := Outcome.map_eq_ok.1 placed
          exact .inr ⟨single, by simpa using free, value, converted, same.symm⟩

/-- A child for a group goes on into the current one of its rounds. -/
theorem place_group_eq_ok {child : Child} {record item : Record} {index : Nat}
    {rest : Route} {slots next : Slots}
    (placed : graph.place child record (.group index item rest) slots = .ok next) :
    (∃ rounds front round filled, slots.get? index = some (.array rounds) ∧
      graph.currentRound item rest.index rounds = (front, round) ∧
      graph.place child item rest round = .ok filled ∧
      next = slots.put index (.array (front ++ [.record filled]))) ∨
    ((∀ rounds, slots.get? index ≠ some (.array rounds)) ∧ next = slots) := by
  rw [place] at placed
  split at placed
  · next rounds held =>
      cases current : graph.currentRound item rest.index rounds with
      | mk front round =>
          rw [current] at placed
          obtain ⟨filled, placing, same⟩ := Outcome.bind_eq_ok.1 placed
          cases same
          exact .inl ⟨rounds, front, round, filled, held, current, placing, rfl⟩
  · next none =>
      cases placed
      exact .inr ⟨none, rfl⟩

theorem place_group_eq_ok_of_held {child : Child} {record item : Record} {index : Nat}
    {rest : Route} {slots next : Slots} {rounds : List Value}
    (held : slots.get? index = some (.array rounds))
    (placed : graph.place child record (.group index item rest) slots = .ok next) :
    ∃ front round filled, graph.currentRound item rest.index rounds = (front, round) ∧
      graph.place child item rest round = .ok filled ∧
        next = slots.put index (.array (front ++ [.record filled])) := by
  rcases place_group_eq_ok placed with
    ⟨rounds', front, round, filled, held', current, placing, same⟩ | ⟨absent, _⟩
  · cases held.symm.trans held'
    exact ⟨front, round, filled, current, placing, same⟩
  · exact absurd held (absent rounds)

theorem place_field_arrives {child : Child} {record : Record} {index : Nat}
    {field : Field} {slots next : Slots}
    (leads : graph.Leads record (.field index) field)
    (shaped : graph.Shaped record slots)
    (placed : graph.place child record (.field index) slots = .ok next) :
    ∃ value, child.convert (Value.itemNode graph field.node) = .ok value ∧
      graph.Arrives record (.field index) value slots next := by
  have listed : record.fields[index]? = some field := by
    cases leads with
    | field listed origin closed => exact listed
  rcases place_field_eq_ok listed placed with
    ⟨item, value, array, converted, rfl⟩ | ⟨single, free, value, converted, rfl⟩
  · exact ⟨value, by rw [Value.itemNode, array, converted],
      arrives_item leads shaped array value⟩
  · exact ⟨value, by rw [itemNode_eq_self single, converted],
      arrives_single leads shaped single free value⟩

theorem Shaped.of_mem_items {record item : Record} {index : Nat} {outer : Field}
    {slots : Slots} {items : List Value} (shaped : graph.Shaped record slots)
    (listed : record.fields[index]? = some outer)
    (rounds : graph.groupItem? outer = some item)
    (held : slots.get? index = some (.array items)) :
    ∀ value ∈ items, ∃ inner,
      value = .record inner ∧ graph.Shaped item inner := by
  obtain ⟨_, _, records, shapes⟩ := shaped
  intro value member
  have inItems : value ∈ slots.items index := by
    rw [Slots.items_of_get? held]
    exact member
  obtain ⟨inner, rfl⟩ := records index outer item listed rounds value inItems
  exact ⟨inner, rfl, shapes index outer item inner listed rounds inItems⟩

/-- A value that arrives in a round of a group arrives in the record that the
group belongs to. -/
theorem arrives_round {record item : Record} {index target : Nat}
    {outer last : Field} {rest : Route} {slots round filled : Slots}
    {items front : List Value} {value : Value}
    (shaped : graph.Shaped record slots)
    (listed : record.fields[index]? = some outer)
    (rounds : graph.groupItem? outer = some item)
    (leads : graph.Leads item rest last)
    (held : slots.get? index = some (.array items))
    (current : graph.currentRound item target items = (front, round))
    (arrives : graph.Arrives item rest value round filled) :
    graph.Arrives record (.group index item rest) value slots
      (slots.put index (.array (front ++ [.record filled]))) := by
  have inside : index < slots.length := Slots.lt_length_of_get? held
  have itemsHeld : slots.items index = items := Slots.items_of_get? held
  have shapes := shaped.of_mem_items listed rounds held
  obtain ⟨_, subset, together⟩ := currentRound_eq shapes current
  refine ⟨?_, ?_, ?_, ?_⟩
  · apply shaped.put listed
    · intro _ _
      exact ⟨_, rfl⟩
    · intro item' leadsOn other member
      obtain rfl := Option.some.inj (rounds.symm.trans leadsOn)
      rw [Value.items, List.mem_append, List.mem_singleton] at member
      rcases member with member | rfl
      · exact shapes other (subset member)
      · exact ⟨filled, rfl, arrives.shaped⟩
  · rw [valuesAlong, valuesAlong, itemsHeld, Slots.items_put inside,
      together rest last leads, Value.items, List.flatMap_append,
      List.flatMap_singleton, List.append_assoc, ← arrives.own]
    rfl
  · intro other field leadsOther differs
    by_cases sameIndex : other.index = index
    · cases leadsOther with
      | @field _ place _ _ listed' origin closed =>
          obtain rfl : place = index := sameIndex
          obtain rfl := Option.some.inj (listed.symm.trans listed')
          rw [groupItem?_of_element origin] at rounds
          cases rounds
      | @group _ place _ _ _ _ _ listed' array' rounds' inner' =>
          obtain rfl : place = index := sameIndex
          obtain rfl := Option.some.inj (listed.symm.trans listed')
          obtain rfl := Option.some.inj (rounds.symm.trans rounds')
          have restDiffers := fun same => differs (congrArg _ same)
          rw [valuesAlong, valuesAlong, itemsHeld, Slots.items_put inside,
            together _ field inner', Value.items, List.flatMap_append,
            List.flatMap_singleton, ← arrives.others _ field inner' restDiffers]
          rfl
    · exact valuesAlong_congr (Slots.get?_put_of_ne sameIndex slots _)
  · intro other differs
    exact Slots.get?_put_of_ne differs slots _

/-- A child that is put into a record along a route becomes a value of the node
that the route leads to, and arrives along this route alone. -/
theorem place_arrives {child : Child} {record : Record} {route : Route}
    {field : Field} {slots next : Slots}
    (leads : graph.Leads record route field)
    (shaped : graph.Shaped record slots)
    (placed : graph.place child record route slots = .ok next) :
    ∃ value, child.convert (Value.itemNode graph field.node) = .ok value ∧
      graph.Arrives record route value slots next := by
  induction leads generalizing slots next with
  | field listed origin closed =>
      exact place_field_arrives (.field listed origin closed) shaped placed
  | @group record index outer node item rest field listed array rounds inner ih =>
      obtain ⟨_, arrays, _, _⟩ := id shaped
      obtain ⟨items, held⟩ := arrays index outer node listed array
      obtain ⟨front, round, filled, current, placing, rfl⟩ :=
        place_group_eq_ok_of_held held placed
      obtain ⟨roundShaped, _, _⟩ :=
        currentRound_eq (shaped.of_mem_items listed rounds held) current
      obtain ⟨value, converted, arrives⟩ := ih roundShaped placing
      exact ⟨value, converted,
        arrives_round shaped listed rounds inner held current arrives⟩

theorem placeChildren_cons_eq_ok {record : Record} {slots last : Slots}
    {child : Child} {rest : List Child}
    (placing : graph.placeChildren record slots (child :: rest) = .ok last) :
    ∃ route between, graph.route? record child.element.name = some route ∧
      graph.place child record route slots = .ok between ∧
        graph.placeChildren record between rest = .ok last := by
  rw [placeChildren] at placing
  split at placing
  · cases placing
  · next route routed =>
      obtain ⟨between, first, others⟩ := Outcome.bind_eq_ok.1 placing
      exact ⟨route, between, routed, first, others⟩

/-- An attribute is read into its field, or kept by the wildcard. -/
theorem placeAttribute_cases {record : Record} (indexed : record.Indexed)
    {zone : Zone} {slots next : Slots} {a : Attribute}
    (placing : graph.placeAttribute zone record slots a = .ok next) :
    (∃ index field value, record.attributeField? a.name = some index ∧
      record.fields[index]? = some field ∧
      field.origin = .attribute a.name ∧
      graph.readAttribute zone field.node a.value = .ok value ∧
      next = slots.put index value) ∨
    (record.attributeField? a.name = none ∧ ∃ index field,
      record.attributeWildcard = some index ∧
      record.fields[index]? = some field ∧ field.origin = .attributeWildcard ∧
      next = slots.putEntry index a.name.name a.value) := by
  rw [placeAttribute] at placing
  split at placing
  · next index named =>
      obtain ⟨field, listed, origin⟩ := Record.exists_field_of_findIdx? named
      rw [listed] at placing
      obtain ⟨value, read, same⟩ := Outcome.map_eq_ok.1 placing
      exact .inl ⟨index, field, value, named, listed, origin, read, same.symm⟩
  · next unnamed =>
      split at placing
      · next index wildcard =>
          obtain ⟨field, listed, origin⟩ := Record.exists_field_of_findIdx?
            (indexed.attributeWildcard_eq.symm.trans wildcard)
          cases placing
          exact .inr ⟨unnamed, index, field, wildcard, listed, origin, rfl⟩
      · cases placing

/-- An attribute that carries no data is passed over. -/
theorem placeAttributes_cons_eq_ok {zone : Zone} {record : Record}
    {slots last : Slots} {a : Attribute} {rest : List Attribute}
    (placing : graph.placeAttributes zone record slots (a :: rest) = .ok last) :
    (a.isMeta = true ∧ graph.placeAttributes zone record slots rest = .ok last) ∨
    (a.isMeta = false ∧ ∃ between,
      graph.placeAttribute zone record slots a = .ok between ∧
        graph.placeAttributes zone record between rest = .ok last) := by
  rw [placeAttributes] at placing
  split at placing
  · next isMeta => exact .inl ⟨isMeta, placing⟩
  · next isData =>
      exact .inr ⟨eq_false_of_ne_true isData, Outcome.bind_eq_ok.1 placing⟩

end Graph

end XmlRecords
