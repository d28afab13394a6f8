import XmlRecords.Proofs.Completeness

/-!
# What elements supply

Children, attributes and text go to different slots of a record, so each of them
is looked at by itself.  A slot for an attribute is set if there is such an
attribute, the slot for text is always set, and along a route there are as many
values as children.
-/

namespace XmlRecords

namespace Graph

variable {components : Components} {same : Nat → Nat → Prop}
  {roots : List ElementDecl} {roles : Nat → Role} {graph : Graph}
  {allowed : QName → Prop} {root id : Nat} {record : Record}
  {slots next : Slots}

/-- The element has what a record requires: the attributes, and on each route to
something required as many children as the groups on the way have rounds. -/
structure Supplies (graph : Graph) (record : Record) (element : Element)
    (slots : Slots) : Prop where
  children : ∀ route field, graph.Leads record route field →
    graph.IsRequired field.node →
      (graph.routed record route element.children).length =
        (route.rounds slots).length
  attributes : ∀ index field name, record.fields[index]? = some field →
    field.origin = .attribute name → graph.IsRequired field.node →
      ∃ a ∈ element.attributes,
        a.isMeta = false ∧ record.attributeField? a.name = some index

/-- All elements that are matched against records supply what these require. -/
def AllSupplied (graph : Graph) (zone : Zone) (id : Nat) (element : Element) :
    Prop :=
  ∀ node inner record slots, graph.Matched id element node inner →
    graph.record? node = some record →
      graph.convert zone node inner = .ok (.record slots) →
        graph.Supplies record inner slots

/-! ## Slots beside the children -/

/-- A child changes no slot but the one that its route begins with. -/
theorem get?_place {child : Child} {route : Route} {index : Nat}
    (placing : graph.place child record route slots = .ok next)
    (differs : index ≠ route.index) : next.get? index = slots.get? index := by
  cases route with
  | field first =>
      cases listed : record.fields[first]? with
      | none =>
          rw [place, listed] at placing
          cases placing
          rfl
      | some field =>
          rcases place_field_eq_ok listed placing with
            ⟨_, value, _, _, rfl⟩ | ⟨_, _, value, _, rfl⟩
          · exact Slots.get?_putItem_of_ne differs slots value
          · exact Slots.get?_put_of_ne differs slots value
  | group first item rest =>
      rcases place_group_eq_ok placing with
        ⟨_, _, _, filled, _, _, _, rfl⟩ | ⟨_, rfl⟩
      · exact Slots.get?_put_of_ne differs slots _
      · rfl
  | wildcard first =>
      rw [place] at placing
      cases placing
      exact Slots.get?_putEntry_of_ne differs slots _ _

/-- Children change no slot beside those for children. -/
theorem Lowered.get?_placeChildren (lowered : graph.Lowered allowed root)
    (found : graph.record? id = some record) {children : List Child}
    (placing : graph.placeChildren record slots children = .ok next)
    {index : Nat} {field : Field} (listed : record.fields[index]? = some field)
    (aside : ¬ IsForChildren field) : next.get? index = slots.get? index := by
  induction children generalizing slots with
  | nil =>
      cases placing
      rfl
  | cons child rest ih =>
      obtain ⟨route, between, routed, first, others⟩ :=
        placeChildren_cons_eq_ok placing
      rw [ih others]
      refine get?_place first ?_
      rintro rfl
      rcases lowered.leads_of_route? found routed with
        ⟨_, last, leads, _⟩ | ⟨place, rfl, wildcard⟩
      · obtain ⟨other, listed', kind⟩ := leads.origin
        cases listed.symm.trans listed'
        exact aside (kind.imp_right .inl)
      · obtain ⟨other, listed', origin, _⟩ :=
          lowered.isTextMap_of_elementWildcard found wildcard
        cases listed.symm.trans listed'
        exact aside (.inr (.inr origin))

theorem length_placeAttribute {zone : Zone} {a : Attribute}
    (placing : graph.placeAttribute zone record slots a = .ok next) :
    next.length = slots.length := by
  rw [placeAttribute] at placing
  split at placing
  · split at placing
    · cases placing
      rfl
    · obtain ⟨value, _, rfl⟩ := Outcome.map_eq_ok.1 placing
      exact Slots.length_put ..
  · split at placing
    · cases placing
      exact Slots.length_putEntry ..
    · cases placing

theorem length_placeAttributes {zone : Zone} {attributes : List Attribute}
    (placing : graph.placeAttributes zone record slots attributes = .ok next) :
    next.length = slots.length := by
  induction attributes generalizing slots with
  | nil =>
      cases placing
      rfl
  | cons a rest ih =>
      rcases placeAttributes_cons_eq_ok placing with
        ⟨_, placing⟩ | ⟨_, between, first, others⟩
      · exact ih placing
      · rw [ih others, length_placeAttribute first]

/-- A slot for an attribute is set once such an attribute has come. -/
theorem get?_placeAttribute_eq_none_iff (indexed : record.Indexed) {zone : Zone}
    {a : Attribute} (length : slots.length = record.fields.length)
    (placing : graph.placeAttribute zone record slots a = .ok next)
    {index : Nat} {field : Field} {name : QName}
    (listed : record.fields[index]? = some field)
    (origin : field.origin = .attribute name) :
    next.get? index = none ↔
      slots.get? index = none ∧ record.attributeField? a.name ≠ some index := by
  rcases placeAttribute_cases indexed placing with
    ⟨other, _, value, named, _, _, _, rfl⟩ |
    ⟨unnamed, other, _, _, listed', origin', rfl⟩
  · by_cases here : index = other
    · subst here
      have inside : index < slots.length :=
        length ▸ (List.getElem?_eq_some_iff.1 listed).1
      simp [Slots.get?_put inside, named]
    · simp [Slots.get?_put_of_ne here, named, Ne.symm here]
  · have apart : index ≠ other := by
      rintro rfl
      cases listed.symm.trans listed'
      cases origin.symm.trans origin'
    simp [Slots.get?_putEntry_of_ne apart, unnamed]

theorem get?_placeAttributes_eq_none_iff (indexed : record.Indexed) {zone : Zone}
    {attributes : List Attribute}
    (length : slots.length = record.fields.length)
    (placing : graph.placeAttributes zone record slots attributes = .ok next)
    {index : Nat} {field : Field} {name : QName}
    (listed : record.fields[index]? = some field)
    (origin : field.origin = .attribute name) :
    next.get? index = none ↔ slots.get? index = none ∧
      ∀ a ∈ attributes, a.isMeta = false →
        record.attributeField? a.name ≠ some index := by
  induction attributes generalizing slots with
  | nil =>
      cases placing
      simp
  | cons a rest ih =>
      rcases placeAttributes_cons_eq_ok placing with
        ⟨isMeta, placing⟩ | ⟨isData, between, first, others⟩
      · rw [ih length placing]
        simp [isMeta]
      · rw [ih ((length_placeAttribute first).trans length) others,
          get?_placeAttribute_eq_none_iff indexed length first listed origin]
        simp [isData, and_assoc]

theorem PutsText.get?_eq {zone : Zone} {text : String}
    (puts : graph.PutsText zone record text slots next)
    (indexed : record.Indexed) {index : Nat} {field : Field}
    (listed : record.fields[index]? = some field)
    (origin : field.origin ≠ .text) : next.get? index = slots.get? index := by
  cases puts with
  | none => rfl
  | field isText _ _ _ =>
      refine Slots.get?_put_of_ne ?_ slots _
      rintro rfl
      obtain ⟨other, listed', isForText⟩ := Record.exists_field_of_findIdx?
        (indexed.text_eq.symm.trans isText)
      cases listed.symm.trans listed'
      exact origin isForText

theorem PutsText.isSome_get? {zone : Zone} {text : String}
    (puts : graph.PutsText zone record text slots next)
    (length : slots.length = record.fields.length) {index : Nat} {field : Field}
    (listed : record.fields[index]? = some field)
    (isText : record.text = some index) : (next.get? index).isSome := by
  cases puts with
  | none noText => cases isText.symm.trans noText
  | field isText' _ _ _ =>
      cases isText.symm.trans isText'
      rw [Slots.get?_put (length ▸ (List.getElem?_eq_some_iff.1 listed).1)]
      rfl

/-- What is required beside the children is there once the attributes are; the
text always is. -/
theorem Lowered.forall_aside_iff (lowered : graph.Lowered allowed root)
    (wellFormed : graph.WellFormedRecord record)
    (found : graph.record? id = some record) {zone : Zone} {text : String}
    {children : List Child} {attributes : List Attribute} {placed filled : Slots}
    (length : placed.length = record.fields.length)
    (placing : graph.placeChildren record (graph.emptySlots record) children =
      .ok placed)
    (filling : graph.placeAttributes zone record placed attributes = .ok filled)
    (puts : graph.PutsText zone record text filled slots) :
    (∀ (index : Nat) (field : Field), record.fields[index]? = some field →
      ¬ IsForChildren field → graph.IsRequired field.node →
        slots.get? index ≠ none) ↔
    ∀ index field name, record.fields[index]? = some field →
      field.origin = .attribute name → graph.IsRequired field.node →
        ∃ a ∈ attributes,
          a.isMeta = false ∧ record.attributeField? a.name = some index := by
  have indexed := lowered.indexed found
  -- A slot for a required attribute is set by attributes alone.
  have here : ∀ (index : Nat) (field : Field) (name : QName),
      record.fields[index]? = some field → field.origin = .attribute name →
        graph.IsRequired field.node →
          (slots.get? index ≠ none ↔ ∃ a ∈ attributes,
            a.isMeta = false ∧ record.attributeField? a.name = some index) := by
    intro index field name listed origin required
    have aside : ¬ IsForChildren field := by simp [IsForChildren, origin]
    have start : placed.get? index = none := by
      rw [lowered.get?_placeChildren found placing listed aside,
        get?_emptySlots listed, emptySlot]
      split
      · next item array => exact absurd array (required.ne_array item)
      · next values map => exact absurd map (required.ne_map values)
      · rfl
    rw [puts.get?_eq indexed listed (by simp [origin]), ne_eq,
      get?_placeAttributes_eq_none_iff indexed length filling listed origin]
    simp [start]
  constructor
  · intro each index field name listed origin required
    exact (here index field name listed origin required).1
      (each index field listed (by simp [IsForChildren, origin]) required)
  · intro each index field listed aside required
    rw [IsForChildren, not_or, not_or, not_exists] at aside
    obtain ⟨noElement, noGroup, noWildcard⟩ := aside
    cases origin : field.origin with
    | element name => exact absurd origin (noElement name)
    | «attribute» name =>
        exact (here index field name listed origin required).2
          (each index field name listed origin required)
    | elementWildcard => exact absurd origin noWildcard
    | attributeWildcard =>
        obtain ⟨values, map⟩ := wellFormed.wildcards field
          (List.mem_of_getElem? listed) (.inr origin)
        exact absurd map (required.ne_map values)
    | group => exact absurd origin noGroup
    | text =>
        refine Option.isSome_iff_ne_none.1 (puts.isSome_get? ?_ listed
          ((wellFormed.text index).2 ⟨field, listed, origin⟩))
        rw [length_placeAttributes filling, length]

/-! ## Slots for children -/

theorem Lowered.isForChildren_of_array (lowered : graph.Lowered allowed root)
    (found : graph.record? id = some record) {index item : Nat} {field : Field}
    (listed : record.fields[index]? = some field)
    (array : graph.node? field.node = some (.array item)) :
    IsForChildren field := by
  have holds := lowered.holds found listed
  cases origin : field.origin with
  | element name => exact .inl ⟨name, origin⟩
  | group => exact .inr (.inl origin)
  | elementWildcard => exact .inr (.inr origin)
  | «attribute» name =>
      rw [origin] at holds
      rcases holds with ⟨_, _, primitive⟩ | ⟨_, _, optional⟩
      · cases array.symm.trans primitive
      · cases array.symm.trans optional
  | attributeWildcard =>
      rw [origin] at holds
      obtain ⟨_, map, _⟩ := holds
      cases array.symm.trans map
  | text =>
      rw [origin] at holds
      obtain ⟨_, _, primitive⟩ := holds
      cases array.symm.trans primitive

theorem Completes.length_eq {zone : Zone} {attributes : List Attribute}
    {placed : Slots}
    (completes : graph.Completes zone record attributes placed slots) :
    slots.length = placed.length := by
  cases completes with
  | plain filling => exact length_placeAttributes filling
  | withText filling _ same =>
      rw [same, Slots.length_put, length_placeAttributes filling]

/-- Attributes and text leave what came from the children in shape. -/
theorem Lowered.shaped_of_completes (lowered : graph.Lowered allowed root)
    (found : graph.record? id = some record) {zone : Zone}
    {attributes : List Attribute} {placed : Slots}
    (shaped : graph.Shaped record placed)
    (completes : graph.Completes zone record attributes placed slots) :
    graph.Shaped record slots := by
  obtain ⟨length, arrays, records, rounds⟩ := shaped
  have unchanged : ∀ {index : Nat} {field : Field},
      record.fields[index]? = some field → IsForChildren field →
        slots.get? index = placed.get? index :=
    completes.get?_eq (lowered.indexed found)
  have ofGroup : ∀ {index : Nat} {field : Field} {item : Record},
      record.fields[index]? = some field → graph.groupItem? field = some item →
        slots.items index = placed.items index := by
    intro index field item listed leads
    rw [Slots.items, Slots.items,
      unchanged listed (.inr (.inl (origin_of_groupItem? leads)))]
  refine .mk (completes.length_eq.trans length) ?_ ?_ ?_
  · intro index field item listed array
    rw [unchanged listed (lowered.isForChildren_of_array found listed array)]
    exact arrays index field item listed array
  · intro index field item listed leads round member
    rw [ofGroup listed leads] at member
    exact records index field item listed leads round member
  · intro index field item inner listed leads member
    rw [ofGroup listed leads] at member
    exact rounds index field item inner listed leads member

theorem length_arrivals {route : Route} {children : List Element}
    {emitted : List Emitted} (together : children.length = emitted.length) :
    (graph.arrivals record route children emitted).length =
      (graph.routed record route children).length := by
  induction children generalizing emitted with
  | nil => rfl
  | cons child rest ih =>
      cases emitted with
      | nil => cases together
      | cons one emitted =>
          rw [arrivals_cons, List.length_append, ih (Nat.succ.inj together),
            Graph.routed, Graph.routed, List.filter_cons]
          by_cases here : graph.route? record child.name = some route
          · simp [here, Nat.add_comm]
          · simp [here]

/-- What arrived along a route is what the children on it become by
themselves. -/
theorem forall_mem_arrivals_iff {zone : Zone} {children : List Element}
    {emitted : List Emitted} {route : Route} {field : Field}
    (leads : graph.Leads record route field)
    (converted : List.Forall₂ (fun child one => ∃ route,
      graph.route? record child.name = some route ∧
        graph.convertAlong zone child record route =
          .ok (one.node, one.value)) children emitted) (p : Value → Prop) :
    (∀ value ∈ graph.arrivals record route children emitted, p value) ↔
      ∀ child ∈ children, graph.route? record child.name = some route →
        ∀ made, graph.convert zone (graph.elementType field.node) child =
          .ok made → p made := by
  induction converted with
  | nil => simp [arrivals]
  | @cons child one children emitted first _ ih =>
      rw [arrivals_cons, List.forall_mem_append, ih, List.forall_mem_cons]
      refine and_congr_left fun _ => ?_
      obtain ⟨own, routed, along⟩ := first
      by_cases here : own = route
      · subst here
        rw [convertAlong_eq zone child leads] at along
        obtain ⟨made, ended, same⟩ := Outcome.map_eq_ok.1 along
        have same : made = one.value := (Prod.mk.inj same).2
        simp [routed, ended, same]
      · simp [routed, here]

/-! ## Elements and their children -/

/-- A record is complete just when the element supplies what it requires and what
the children become on their routes is complete. -/
theorem Lowered.complete_iff_supplies (lowered : graph.Lowered allowed root)
    (groups : graph.GroupsOfChildren) (wellFormed : graph.WellFormedRecord record)
    (found : graph.record? id = some record)
    (source : record.source ≠ .document) {zone : Zone} {element : Element}
    {value : Value} (converted : graph.convert zone id element = .ok value) :
    ∃ slots, value = .record slots ∧
      (graph.Complete id value ↔ graph.Supplies record element slots ∧
        ∀ child ∈ element.children, ∀ route field,
          graph.route? record child.name = some route →
            graph.Leads record route field →
              ∀ made, graph.convert zone (graph.elementType field.node) child =
                .ok made → graph.Complete (graph.elementType field.node) made) := by
  obtain ⟨placed, filled, slots, rfl, placing, filling, puts⟩ :=
    (lowered.convert_record_eq_ok found).1 converted
  obtain ⟨emitted, arrived⟩ :=
    (Placed.start lowered found zone).append lowered found placing
  rw [List.nil_append] at arrived
  have completes := puts.completes filling
  have shaped := lowered.shaped_of_completes found arrived.shaped completes
  have length : placed.length = record.fields.length := by
    obtain ⟨length, _, _, _⟩ := arrived.shaped
    exact length
  have along : ∀ route field, graph.Leads record route field →
      graph.valuesAlong record route slots =
        graph.arrivals record route element.children emitted := by
    intro route field leads
    obtain ⟨first, listed, kind⟩ := leads.origin
    rw [← arrived.along route field leads]
    exact valuesAlong_congr (completes.get?_eq (lowered.indexed found) listed
      (kind.imp_right .inl))
  have count : ∀ route, (graph.arrivals record route element.children
      emitted).length = (graph.routed record route element.children).length :=
    fun _ => length_arrivals arrived.converted.length_eq
  refine ⟨slots, rfl, (lowered.complete_iff_along groups found source
    shaped).trans ?_⟩
  rw [lowered.forall_aside_iff wellFormed found length placing filling puts]
  constructor
  · rintro ⟨complete, attributes⟩
    refine ⟨⟨fun route field leads required => ?_, attributes⟩, ?_⟩
    · have full := (forall_rounds_iff leads required slots).1
        ((complete route field leads).1 required)
      rwa [along route field leads, count] at full
    · intro child member route field routed leads
      have each := (complete route field leads).2
      rw [along route field leads,
        forall_mem_arrivals_iff leads arrived.converted] at each
      exact each child member routed
  · rintro ⟨supplies, each⟩
    refine ⟨fun route field leads => ⟨fun required => ?_, ?_⟩,
      supplies.attributes⟩
    · rw [forall_rounds_iff leads required, along route field leads, count]
      exact supplies.children route field leads required
    · rw [along route field leads,
        forall_mem_arrivals_iff leads arrived.converted]
      exact fun child member routed =>
        each child member route field routed leads

/-- What is matched once an element is, is matched once the elements around it
are. -/
theorem Matched.trans {node last : Nat} {element inner innermost : Element}
    (above : graph.Matched id element node inner)
    (below : graph.Matched node inner last innermost) :
    graph.Matched id element last innermost := by
  induction below with
  | whole => exact above
  | child _ found member routed leads ih =>
      exact .child ih found member routed leads

/-- What is matched once an element is, is the element itself or is matched once
one of its children is. -/
theorem matched_iff {node : Nat} {element inner : Element} :
    graph.Matched id element node inner ↔
      (node = id ∧ inner = element) ∨
      ∃ record child route field, graph.record? id = some record ∧
        child ∈ element.children ∧
        graph.route? record child.name = some route ∧
        graph.Leads record route field ∧
        graph.Matched (graph.elementType field.node) child node inner := by
  constructor
  · intro matched
    induction matched with
    | whole => exact .inl ⟨rfl, rfl⟩
    | @child node outer child record route field _ found member routed leads ih =>
        refine .inr ?_
        rcases ih with ⟨rfl, rfl⟩ |
          ⟨record', child', route', field', found', member', routed', leads', inside⟩
        · exact ⟨record, child, route, field, found, member, routed, leads, .whole⟩
        · exact ⟨record', child', route', field', found', member', routed',
            leads', .child inside found member routed leads⟩
  · rintro (⟨rfl, rfl⟩ | ⟨record, child, route, field, found, member, routed,
      leads, inside⟩)
    · exact .whole
    · exact .trans (.child .whole found member routed leads) inside

theorem allSupplied_of_isPrimitive (primitive : graph.IsPrimitive id)
    (zone : Zone) (element : Element) : graph.AllSupplied zone id element := by
  intro node inner record slots matched found _
  have none := record?_eq_none_of_isPrimitive primitive
  rcases matched_iff.1 matched with ⟨rfl, rfl⟩ | ⟨_, _, _, _, found', _⟩
  · cases none.symm.trans found
  · cases none.symm.trans found'

theorem allSupplied_iff (found : graph.record? id = some record) {zone : Zone}
    {element : Element}
    (converted : graph.convert zone id element = .ok (.record slots)) :
    graph.AllSupplied zone id element ↔ graph.Supplies record element slots ∧
      ∀ child ∈ element.children, ∀ route field,
        graph.route? record child.name = some route →
          graph.Leads record route field →
            graph.AllSupplied zone (graph.elementType field.node) child := by
  constructor
  · intro all
    refine ⟨all id element record slots .whole found converted, ?_⟩
    intro child member route field routed leads node inner _ _ inside
    exact all node inner _ _
      (.trans (.child .whole found member routed leads) inside)
  · rintro ⟨supplies, each⟩ node inner record' slots' matched found' converted'
    rcases matched_iff.1 matched with ⟨rfl, rfl⟩ |
      ⟨other, child, route, field, again, member, routed, leads, inside⟩
    · cases found.symm.trans found'
      cases converted.symm.trans converted'
      exact supplies
    · cases found.symm.trans again
      exact each child member route field routed leads node inner record' slots'
        inside found' converted'

theorem IsBase.primitive_or_ne_document (base : graph.IsBase id) :
    graph.IsPrimitive id ∨ ∃ record, graph.record? id = some record ∧
      record.source ≠ .document := by
  rcases base with primitive | ⟨record, found, source⟩
  · exact .inl primitive
  · exact .inr ⟨record, found, by simp [source]⟩

/-- A record is complete just when everything in it is supplied, by induction on
the levels of the element. -/
theorem Lowered.complete_iff_allSupplied (lowered : graph.Lowered allowed root)
    (groups : graph.GroupsOfChildren)
    (wellFormed : ∀ id record, graph.record? id = some record →
      graph.WellFormedRecord record)
    (kind : graph.IsPrimitive id ∨ ∃ record, graph.record? id = some record ∧
      record.source ≠ .document) {zone : Zone} {element : Element}
    {value : Value} (converted : graph.convert zone id element = .ok value) :
    graph.Complete id value ↔ graph.AllSupplied zone id element := by
  induction levels : element.depth using Nat.strong_induction_on
    generalizing id element value with
  | _ n ih =>
      rcases kind with primitive | ⟨record, found, source⟩
      · exact iff_of_true (.primitive primitive)
          (allSupplied_of_isPrimitive primitive zone element)
      · obtain ⟨slots, rfl, complete⟩ := lowered.complete_iff_supplies groups
          (wellFormed id record found) found source converted
        rw [complete, allSupplied_iff found converted]
        refine and_congr_right fun _ => forall₂_congr fun child member =>
          forall₂_congr fun route field => forall₂_congr fun routed leads => ?_
        have fewer := depth_lt_of_mem_children member
        obtain ⟨base, made, ended⟩ :=
          lowered.exists_convert_child found converted member routed leads
        have here := ih child.depth (levels ▸ fewer)
          base.primitive_or_ne_document ended rfl
        refine ⟨fun each => here.1 (each made ended), fun all other ended' => ?_⟩
        cases ended.symm.trans ended'
        exact here.2 all

theorem Depicts.groupsOfChildren
    (depicts : graph.Depicts components same roots roles root) :
    graph.GroupsOfChildren := by
  intro id record compositor found source field member
  have follows := depicts.follows id record found
  obtain ⟨index, listed⟩ := List.getElem?_of_mem member
  obtain ⟨plan, planned, origin, _⟩ := follows.exists_plan listed
  have planned := Components.mem_rolePlan_of_mem_plan
    (List.mem_of_getElem? planned)
  have role := follows.source.symm.trans source
  cases isGroup : roles id with
  | type _ =>
      rw [isGroup] at role
      cases role
  | document _ =>
      rw [isGroup] at role
      cases role
  | group compositor particles =>
      rw [isGroup] at planned
      have children := (Particle.isFor_of_mem_planAll particles planned).origin_cases
      rw [← origin] at children
      rw [IsForChildren]
      tauto

/-- A choice is complete just when what was chosen is. -/
theorem complete_choice_iff {choice : Record} {index start : Nat} {field : Field}
    (isChoice : graph.documentRecord? root = some choice)
    (listed : choice.fields[index]? = some field)
    (optional : graph.node? field.node = some (.optional start)) (value : Value) :
    graph.Complete root
      (.record (Slots.put (choice.fields.map fun _ => none) index value)) ↔
      graph.Complete start value := by
  obtain ⟨found, document⟩ := source_of_documentRecord? isChoice
  have inside : index < (choice.fields.map fun _ => (none : Option Value)).length := by
    simpa using (List.getElem?_eq_some_iff.1 listed).1
  rw [complete_record_iff found, ← complete_optional_iff optional]
  constructor
  · rintro ⟨each, _⟩
    exact each index field value listed (Slots.get?_put inside value)
  · intro chosen
    refine ⟨fun other last held listed' holds => ?_,
      fun notDocument => absurd document notDocument⟩
    by_cases here : other = index
    · subst here
      rw [Slots.get?_put inside] at holds
      cases holds
      cases listed.symm.trans listed'
      exact chosen
    · rw [Slots.get?_put_of_ne here, Slots.get?, List.getElem?_map] at holds
      cases unset : choice.fields[other]? <;> rw [unset] at holds <;> cases holds

/-- An element that is transcoded against a record becomes complete just when all
elements that are matched against records supply what these require: attributes,
and in each round of a repeated group one child for each of its elements that may
not be missing.  The same holds for documents. -/
theorem complete_iff_of_ofComponents {components : Components}
    {wanted : Option String} {graph : Graph}
    (built : ofComponents components wanted = .ok graph) (settings : Settings)
    (element : Element) :
    (∀ id record value, graph.record? id = some record →
      record.source ≠ .document →
        graph.transcode settings id element = .ok value →
          (graph.Complete id value ↔
            graph.AllSupplied settings.zone id element)) ∧
    ∀ value, graph.transcodeDocument settings element = .ok value →
      ∃ root start, graph.root = some root ∧
        graph.documentNode? element.name = some start ∧
        (graph.Complete root value ↔
          graph.AllSupplied settings.zone start element) := by
  obtain ⟨_, roles, root, _, lowered, depicts⟩ :=
    exists_lowered_depicts_of_ofComponents (Lowering.identifies_any components) built
  have wellFormed : ∀ id record, graph.record? id = some record →
      graph.WellFormedRecord record :=
    fun _ _ found => depicts.wellFormedRecord lowered found
  constructor
  · intro id record value found source transcoded
    obtain ⟨_, _, converted⟩ := Outcome.bind_eq_ok.1 transcoded
    exact lowered.complete_iff_allSupplied depicts.groupsOfChildren wellFormed
      (.inr ⟨record, found, source⟩) converted
  · intro value transcoded
    rw [transcodeDocument, rootNode, lowered.rooted] at transcoded
    obtain ⟨start, inner, starts, base, converted, standing⟩ :=
      lowered.exists_start transcoded
    refine ⟨root, start, lowered.rooted, starts, ?_⟩
    rw [← lowered.complete_iff_allSupplied depicts.groupsOfChildren wellFormed
      base.primitive_or_ne_document converted]
    rcases standing with ⟨rfl, rfl⟩ |
      ⟨choice, index, field, isChoice, listed, optional, rfl⟩
    · rfl
    · exact complete_choice_iff isChoice listed optional inner

end Graph

/-- A count of five. -/
def countOfFive : Content := .element ⟨"count", none⟩ [] [.text "5"]

theorem complete_tally :
    tallyGraph.Complete 0 (.record [some (.int 5)]) := by
  have found : tallyGraph.record? 0 = some ⟨some ⟨"type0", none⟩, .type,
      [⟨"count", .element ⟨"count", none⟩, 1⟩], none, none, none⟩ := rfl
  refine .record found ?_ ?_
  · intro index field value listed held
    cases index with
    | zero =>
        cases listed
        exact .primitive ⟨.int, none, rfl⟩
    | succ index => simp at listed
  · intro _ index field listed _
    cases index with
    | zero => simp [Slots.get?]
    | succ index => simp at listed

theorem allSupplied_tally :
    tallyGraph.transcodeDocument {} (tallyOf [countOfFive]) =
      .ok (.record [some (.int 5)]) ∧
    tallyGraph.AllSupplied .utc 0 (tallyOf [countOfFive]) := by
  have transcoded : tallyGraph.transcodeDocument {} (tallyOf [countOfFive]) =
      .ok (.record [some (.int 5)]) := by
    rfl
  obtain ⟨_, documents⟩ := Graph.complete_iff_of_ofComponents
    ofComponents_tallyComponents {} (tallyOf [countOfFive])
  obtain ⟨root, start, rooted, starts, complete⟩ := documents _ transcoded
  cases rooted
  cases starts
  exact ⟨transcoded, complete.1 complete_tally⟩

/-- Without its count a tally is transcoded all the same, and written with a null
where there has to be a number. -/
theorem transcodes_emptyTally :
    Graph.ofComponents tallyComponents none = .ok tallyGraph ∧
    tallyGraph.transcode {} 0 (tallyOf []) = .ok (.record [none]) ∧
    tallyGraph.node? 1 = some (.primitive .int none) ∧
    ¬ tallyGraph.Complete 0 (.record [none]) ∧
    Value.toJson tallyGraph 0 (.record [none]) =
      .object [("count", .null)] := by
  refine ⟨ofComponents_tallyComponents, rfl, rfl, ?_, rfl⟩
  intro complete
  have whole := ((Graph.complete_record_iff rfl).1 complete).2
  exact whole (by simp) 0 ⟨"count", .element ⟨"count", none⟩, 1⟩ rfl
    ⟨_, rfl, rfl⟩ rfl

end XmlRecords
