import XmlRecords.Proofs.FirstMatches

/-!
# Slots that suit their fields

Whatever the fields of a record are for and whatever their types are, children and
attributes keep one thing of its slots: there is an array or a map where one is put
into it, and for groups and wildcards only where the field is one.  It holds in the
rounds of groups as well.
-/

namespace XmlRecords

namespace Graph

variable {graph : Graph} {name : QName} {record item : Record} {index : Nat}
  {field : Field} {route : Route} {slots next : Slots}

/-- Decide whether the field at a place is a map. -/
def isMapField (graph : Graph) (record : Record) (index : Nat) : Bool :=
  match record.fields[index]?.bind fun field => graph.node? field.node with
  | some (.map _) => true
  | _ => false

theorem isMapField_eq_true_iff (listed : record.fields[index]? = some field) :
    graph.isMapField record index = true ↔
      ∃ values, graph.node? field.node = some (.map values) := by
  rw [isMapField, listed, Option.bind_some]
  constructor
  · intro isMap
    split at isMap
    · next values map => exact ⟨values, map⟩
    · cases isMap
  · rintro ⟨values, map⟩
    rw [map]

/-- A name is followed through groups to a field for an element of that name. -/
inductive Passes (graph : Graph) (name : QName) : Record → Route → Prop where
  | field {record : Record} {index : Nat} {field : Field}
      (listed : record.fields[index]? = some field)
      (origin : field.origin = .element name) :
      Passes graph name record (.field index)
  | group {record item : Record} {index : Nat} {field : Field} {rest : Route}
      (listed : record.fields[index]? = some field)
      (rounds : graph.groupItem? field = some item)
      (inner : Passes graph name item rest) :
      Passes graph name record (.group index item rest)

theorem passes_of_namedRoute? {fuel : Nat}
    (routed : graph.namedRoute? name fuel record = some route) :
    graph.Passes name record route := by
  induction fuel generalizing record route with
  | zero => cases routed
  | succ fuel ih =>
      rw [namedRoute?] at routed
      split at routed
      · next index named =>
          cases routed
          obtain ⟨field, listed, origin⟩ :=
            Record.exists_field_of_findIdx? named
          exact .field listed origin
      · rcases graph.groupRoute?_cases (graph.namedRoute? name fuel) 0
            record.fields with
          ⟨index, field, item, rest, first, rounds, leadsOn, found⟩ | ⟨none, _⟩
        · rw [found, Nat.zero_add] at routed
          cases routed
          exact .group first.listed rounds (ih leadsOn)
        · rw [none] at routed
          cases routed

/-- A child is followed to a field for its name, or goes to a wildcard. -/
theorem passes_of_route? (indexed : record.Indexed)
    (routed : graph.route? record name = some route) :
    graph.Passes name record route ∨
      ∃ index field, route = .wildcard index ∧
        record.fields[index]? = some field ∧
          field.origin = .elementWildcard := by
  rw [route?, Option.or_eq_some_iff] at routed
  rcases routed with routed | ⟨_, routed⟩
  · exact .inl (passes_of_namedRoute? routed)
  · obtain ⟨index, wildcard, rfl⟩ := Option.map_eq_some_iff.1 routed
    rw [indexed.elementWildcard_eq] at wildcard
    obtain ⟨field, listed, origin⟩ := Record.exists_field_of_findIdx? wildcard
    exact .inr ⟨index, field, rfl, listed, origin⟩

/-! ## What slots hold -/

/-- A slot holds an array or a map where a child or an attribute is put into one,
and only where the field asks for it. -/
structure SuitsField (graph : Graph) (field : Field) (slot : Option Value) :
    Prop where
  element : ∀ name item, field.origin = .element name →
    graph.node? field.node = some (.array item) →
      ∃ items, slot = some (.array items)
  group : field.origin = .group →
    ((∃ items, slot = some (.array items)) ↔
      ∃ item, graph.node? field.node = some (.array item))
  wildcard :
    field.origin = .elementWildcard ∨ field.origin = .attributeWildcard →
      ((∃ entries, slot = some (.map entries)) ↔
        ∃ values, graph.node? field.node = some (.map values))

/-- The slots of a record suit its fields, and so do those of its rounds. -/
inductive Suited (graph : Graph) : Record → Slots → Prop where
  | mk {record : Record} {slots : Slots}
      (length : slots.length = record.fields.length)
      (each : ∀ (index : Nat) (field : Field),
        record.fields[index]? = some field →
          graph.SuitsField field (slots.get? index))
      (records : ∀ (index : Nat) (field : Field) (item : Record),
        record.fields[index]? = some field →
          graph.groupItem? field = some item →
            ∀ round ∈ slots.items index, ∃ inner, round = .record inner)
      (rounds : ∀ (index : Nat) (field : Field) (item : Record)
        (inner : Slots), record.fields[index]? = some field →
          graph.groupItem? field = some item →
            .record inner ∈ slots.items index → Suited graph item inner) :
      Suited graph record slots

theorem suitsField_emptySlot (graph : Graph) (field : Field) :
    graph.SuitsField field (graph.emptySlot field) := by
  rw [emptySlot]
  constructor
  · intro _ item _ array
    rw [array]
    exact ⟨[], rfl⟩
  · intro _
    split <;> simp_all
  · intro _
    split <;> simp_all

theorem suited_emptySlots (graph : Graph) (record : Record) :
    graph.Suited record (graph.emptySlots record) := by
  refine .mk (List.length_map _) ?_ ?_ ?_
  · intro index field listed
    rw [get?_emptySlots listed]
    exact suitsField_emptySlot graph field
  · intro index field item listed _ round among
    rw [items_emptySlots listed] at among
    cases among
  · intro index field item inner listed _ among
    rw [items_emptySlots listed] at among
    cases among

namespace Suited

/-- A value that suits its field, with rounds that do, may be put into a slot. -/
theorem put {value : Value} (suited : graph.Suited record slots)
    (listed : record.fields[index]? = some field)
    (suits : graph.SuitsField field (some value))
    (rounds : ∀ item, graph.groupItem? field = some item →
      ∀ round ∈ value.items, ∃ inner,
        round = .record inner ∧ graph.Suited item inner) :
    graph.Suited record (slots.put index value) := by
  obtain ⟨length, each, records, inside⟩ := suited
  have here : index < slots.length := by
    rw [length]
    exact (List.getElem?_eq_some_iff.1 listed).1
  refine .mk ((Slots.length_put ..).trans length) ?_ ?_ ?_
  · intro other field' listed'
    by_cases same : other = index
    · subst same
      obtain rfl := Option.some.inj (listed.symm.trans listed')
      rwa [Slots.get?_put here]
    · rw [Slots.get?_put_of_ne same]
      exact each other field' listed'
  · intro other field' item listed' isRound round among
    by_cases same : other = index
    · subst same
      obtain rfl := Option.some.inj (listed.symm.trans listed')
      rw [Slots.items_put here] at among
      obtain ⟨inner, isRecord, _⟩ := rounds item isRound round among
      exact ⟨inner, isRecord⟩
    · rw [Slots.items_put_of_ne same] at among
      exact records other field' item listed' isRound round among
  · intro other field' item inner listed' isRound among
    by_cases same : other = index
    · subst same
      obtain rfl := Option.some.inj (listed.symm.trans listed')
      rw [Slots.items_put here] at among
      obtain ⟨inner', isRecord, suited'⟩ := rounds item isRound _ among
      cases isRecord
      exact suited'
    · rw [Slots.items_put_of_ne same] at among
      exact inside other field' item inner listed' isRound among

theorem suitsField (suited : graph.Suited record slots)
    (listed : record.fields[index]? = some field) :
    graph.SuitsField field (slots.get? index) := by
  obtain ⟨_, each, _, _⟩ := suited
  exact each index field listed

theorem of_mem_items {items : List Value} (suited : graph.Suited record slots)
    (listed : record.fields[index]? = some field)
    (isRound : graph.groupItem? field = some item)
    (held : slots.get? index = some (.array items)) :
    ∀ round ∈ items, ∃ inner,
      round = .record inner ∧ graph.Suited item inner := by
  obtain ⟨_, _, records, rounds⟩ := suited
  intro round among
  have inSlot : round ∈ slots.items index := by
    rw [Slots.items_of_get? held]
    exact among
  obtain ⟨inner, rfl⟩ := records index field item listed isRound round inSlot
  exact ⟨inner, rfl, rounds index field item inner listed isRound inSlot⟩

/-- The round that a child goes to suits its record. -/
theorem currentRound {target : Nat} {rounds front : List Value} {round : Slots}
    (each : ∀ value ∈ rounds, ∃ inner,
      value = .record inner ∧ graph.Suited item inner)
    (current : graph.currentRound item target rounds = (front, round)) :
    graph.Suited item round ∧ front ⊆ rounds := by
  rw [Graph.currentRound] at current
  split at current
  · next slots last =>
      split at current
      · cases current
        exact ⟨suited_emptySlots graph item, List.Subset.refl _⟩
      · cases current
        obtain ⟨inner, same, suited⟩ := each _ (List.mem_of_getLast? last)
        cases same
        exact ⟨suited, List.dropLast_subset _⟩
  · cases current
    exact ⟨suited_emptySlots graph item, List.Subset.refl _⟩

/-- An entry is put into a map or nowhere, so a wildcard keeps its form. -/
theorem putEntry (suited : graph.Suited record slots)
    (listed : record.fields[index]? = some field)
    (wildcard :
      field.origin = .elementWildcard ∨ field.origin = .attributeWildcard)
    (key text : String) :
    graph.Suited record (slots.putEntry index key text) := by
  rw [Slots.putEntry]
  split
  · next entries held =>
      have map := ((suited.suitsField listed).wildcard wildcard).1 ⟨entries, held⟩
      refine suited.put listed ⟨?_, ?_, fun _ => ?_⟩ ?_
      · intro name item origin
        simp [origin] at wildcard
      · intro origin
        simp [origin] at wildcard
      · exact iff_of_true ⟨_, rfl⟩ map
      · intro item isRound
        simp [origin_of_groupItem? isRound] at wildcard
  · exact suited

/-- A child that is placed leaves slots that suit their fields. -/
theorem place {child : Child} (suited : graph.Suited record slots)
    (passes : graph.Passes name record route)
    (placed : graph.place child record route slots = .ok next) :
    graph.Suited record next := by
  induction passes generalizing slots next with
  | @field record index field listed origin =>
      have plain : ∀ value : Value,
          (∀ item, graph.node? field.node = some (.array item) →
            ∃ items, value = .array items) →
          graph.Suited record (slots.put index value) := by
        intro value array
        refine suited.put listed ⟨?_, ?_, ?_⟩ ?_
        · intro _ item _ isArray
          obtain ⟨items, rfl⟩ := array item isArray
          exact ⟨items, rfl⟩
        · simp [origin]
        · simp [origin]
        · intro item isRound
          rw [groupItem?_of_element origin] at isRound
          cases isRound
      rcases place_field_eq_ok listed placed with
        ⟨item, value, array, _, rfl⟩ | ⟨single, _, value, _, rfl⟩
      · rw [Slots.putItem]
        split
        · exact plain _ fun _ _ => ⟨_, rfl⟩
        · exact suited
      · exact plain value fun item array => absurd array (single item)
  | @group record item index field rest listed isRound inner ih =>
      rcases place_group_eq_ok placed with
        ⟨items, front, round, filled, held, current, placing, rfl⟩ | ⟨_, rfl⟩
      · have group := origin_of_groupItem? isRound
        have array := ((suited.suitsField listed).group group).1 ⟨items, held⟩
        have each := suited.of_mem_items listed isRound held
        obtain ⟨suitedRound, subset⟩ := currentRound each current
        have suitedFilled := ih suitedRound placing
        refine suited.put listed ⟨?_, fun _ => ?_, ?_⟩ ?_
        · simp [group]
        · exact iff_of_true ⟨_, rfl⟩ array
        · simp [group]
        · intro item' isRound' value among
          obtain rfl := Option.some.inj (isRound.symm.trans isRound')
          rcases List.mem_append.1 among with early | last
          · exact each value (subset early)
          · rw [List.mem_singleton.1 last]
            exact ⟨filled, rfl, suitedFilled⟩
      · exact suited

/-- So do children that are placed one after the other. -/
theorem placeChildren {children : List Child} (indexed : record.Indexed)
    (suited : graph.Suited record slots)
    (placed : graph.placeChildren record slots children = .ok next) :
    graph.Suited record next := by
  induction children generalizing slots with
  | nil =>
      cases placed
      exact suited
  | cons child rest ih =>
      obtain ⟨route, between, routed, here, later⟩ :=
        placeChildren_cons_eq_ok placed
      refine ih ?_ later
      rcases passes_of_route? indexed routed with
        passes | ⟨index, field, rfl, listed, origin⟩
      · exact suited.place passes here
      · cases here
        exact suited.putEntry listed (.inl origin) _ _

theorem placeAttribute {zone : Zone} {a : Attribute} (indexed : record.Indexed)
    (suited : graph.Suited record slots)
    (placed : graph.placeAttribute zone record slots a = .ok next) :
    graph.Suited record next := by
  rcases placeAttribute_cases indexed placed with
    ⟨index, field, value, _, listed, origin, _, rfl⟩ |
    ⟨_, index, field, _, listed, origin, rfl⟩
  · refine suited.put listed ⟨?_, ?_, ?_⟩ ?_
    · simp [origin]
    · simp [origin]
    · simp [origin]
    · intro item isRound
      simp [origin_of_groupItem? isRound] at origin
  · exact suited.putEntry listed (.inr origin) _ _

theorem placeAttributes {zone : Zone} {attributes : List Attribute}
    (indexed : record.Indexed) (suited : graph.Suited record slots)
    (placed : graph.placeAttributes zone record slots attributes = .ok next) :
    graph.Suited record next := by
  induction attributes generalizing slots with
  | nil =>
      cases placed
      exact suited
  | cons a rest ih =>
      rcases placeAttributes_cons_eq_ok placed with
        ⟨_, placed⟩ | ⟨_, between, here, later⟩
      · exact ih suited placed
      · exact ih (suited.placeAttribute indexed here) later

end Suited

end Graph

end XmlRecords
