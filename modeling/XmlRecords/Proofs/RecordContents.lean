import XmlRecords.Proofs.Refusals

/-!
# What a record holds

An element becomes a value of a record just when each part of it qualifies: every
child is matched and can be converted, no field for one element gets two, and
every attribute and the text can be read.  Then the record holds just that, each part
in the slot of its field, whatever the order in which children of different fields
come.
-/

namespace XmlRecords

/-- The attributes that carry data and have no field of their own. -/
def Record.otherAttributes (record : Record) (attributes : List Attribute) :
    List Attribute :=
  attributes.filter fun a => !a.isMeta && (record.attributeField? a.name).isNone

namespace Graph

variable {graph : Graph} {allowed : QName → Prop} {root id : Nat}
  {record : Record} {zone : Zone} {slots next : Slots} {element : Element}
  {attributes : List Attribute} {a : Attribute}

/-- Each part of an element qualifies for a record. -/
structure Qualifies (graph : Graph) (zone : Zone) (record : Record)
    (element : Element) : Prop where
  matched : ∀ child ∈ element.children, graph.route? record child.name ≠ none
  single : ∀ index field name, record.fields[index]? = some field →
    field.origin = .element name → graph.isArrayField record index = false →
      (graph.sentTo record index element.children).length ≤ 1
  converts : ∀ child ∈ element.children, ∀ route field,
    graph.route? record child.name = some route →
      graph.Leads record route field →
        ∃ value, graph.convert zone (graph.elementType field.node) child =
          .ok value
  named : ∀ a ∈ element.attributes, a.isMeta = false → ∀ index field,
    record.attributeField? a.name = some index →
      record.fields[index]? = some field →
        ∃ value, graph.readAttribute zone field.node a.value = .ok value
  unnamed : ∀ a ∈ element.attributes, a.isMeta = false →
    record.attributeField? a.name = none →
      ∃ field ∈ record.fields, field.origin = .attributeWildcard
  text : ∀ index field, record.text = some index →
    record.fields[index]? = some field →
      ∃ value, graph.convert zone field.node element = .ok value

/-- The slots hold what each part of an element becomes. -/
structure Holdings (graph : Graph) (zone : Zone) (record : Record)
    (element : Element) (slots : Slots) : Prop where
  children : graph.Distributes zone record element.children slots
  named : ∀ a ∈ element.attributes, a.isMeta = false → ∀ index field,
    record.attributeField? a.name = some index →
      record.fields[index]? = some field →
        ∃ value, graph.readAttribute zone field.node a.value = .ok value ∧
          slots.get? index = some value
  absent : ∀ index field name, record.fields[index]? = some field →
    field.origin = .attribute name →
      (∀ a ∈ element.attributes, a.isMeta = false →
        record.attributeField? a.name ≠ some index) → slots.get? index = none
  unnamed : ∀ index, record.attributeWildcard = some index →
    ∃ entries, slots.get? index = some (.map entries) ∧
      Captures ((record.otherAttributes element.attributes).map fun a =>
        (a.name.name, a.value)) entries
  text : ∀ index field, record.text = some index →
    record.fields[index]? = some field →
      ∃ value, graph.convert zone field.node element = .ok value ∧
        slots.get? index = some value

/-! ## Attributes one after the other -/

/-- Attributes that go elsewhere leave a slot for an attribute as it is. -/
theorem get?_placeAttributes_of_ne (indexed : record.Indexed)
    (placing : graph.placeAttributes zone record slots attributes = .ok next)
    {index : Nat} {field : Field} {name : QName}
    (listed : record.fields[index]? = some field)
    (origin : field.origin = .attribute name)
    (others : ∀ a ∈ attributes, a.isMeta = false →
      record.attributeField? a.name ≠ some index) :
    next.get? index = slots.get? index := by
  induction attributes generalizing slots with
  | nil =>
      cases placing
      rfl
  | cons a rest ih =>
      obtain ⟨first, others⟩ := List.forall_mem_cons.1 others
      rcases placeAttributes_cons_eq_ok placing with
        ⟨_, placing⟩ | ⟨isData, between, here, later⟩
      · exact ih placing others
      · rw [ih later others]
        rcases placeAttribute_cases indexed here with
          ⟨other, _, value, named, _, _, _, rfl⟩ |
          ⟨_, other, _, _, listed', origin', rfl⟩
        · refine Slots.get?_put_of_ne ?_ slots value
          rintro rfl
          exact first isData named
        · refine Slots.get?_putEntry_of_ne ?_ slots _ _
          rintro rfl
          cases listed.symm.trans listed'
          cases origin.symm.trans origin'

/-- Of distinct attributes, each that has a field is read into it. -/
theorem exists_read_of_placeAttributes (indexed : record.Indexed)
    (length : slots.length = record.fields.length)
    (placing : graph.placeAttributes zone record slots attributes = .ok next)
    (distinct : (attributes.map (·.name)).Nodup) (member : a ∈ attributes)
    (isData : a.isMeta = false) {index : Nat} {field : Field}
    (named : record.attributeField? a.name = some index)
    (listed : record.fields[index]? = some field) :
    ∃ value, graph.readAttribute zone field.node a.value = .ok value ∧
      next.get? index = some value := by
  induction attributes generalizing slots with
  | nil => cases member
  | cons first rest ih =>
      rw [List.map_cons, List.nodup_cons] at distinct
      obtain ⟨fresh, distinct⟩ := distinct
      rcases placeAttributes_cons_eq_ok placing with
        ⟨isMeta, placing⟩ | ⟨_, between, here, later⟩
      · rcases List.mem_cons.1 member with rfl | member
        · cases isData.symm.trans isMeta
        · exact ih length placing distinct member
      · rcases List.mem_cons.1 member with rfl | member
        · rcases placeAttribute_cases indexed here with
            ⟨other, field', value, named', listed', origin, read, rfl⟩ |
            ⟨unnamed, _⟩
          · cases named.symm.trans named'
            cases listed.symm.trans listed'
            refine ⟨value, read, ?_⟩
            have inside : index < slots.length :=
              length ▸ (List.getElem?_eq_some_iff.1 listed).1
            rw [get?_placeAttributes_of_ne indexed later listed origin,
              Slots.get?_put inside]
            -- Another attribute for the field would have the same name.
            intro second member _ again
            obtain ⟨field'', listed'', origin'⟩ :=
              Record.exists_field_of_findIdx? again
            cases listed.symm.trans listed''
            rw [origin, Origin.attribute.injEq] at origin'
            exact fresh (List.mem_map.2 ⟨second, member, origin'.symm⟩)
          · cases named.symm.trans unnamed
        · exact ih ((length_placeAttribute here).trans length) later distinct
            member

/-- The wildcard keeps the attributes without a field behind those that it has. -/
theorem exists_captures_of_placeAttributes (indexed : record.Indexed)
    (placing : graph.placeAttributes zone record slots attributes = .ok next)
    {index : Nat} (wildcard : record.attributeWildcard = some index)
    {captured entries : List (String × String)}
    (held : slots.get? index = some (.map entries))
    (captures : Captures captured entries) :
    ∃ entries, next.get? index = some (.map entries) ∧
      Captures (captured ++ (record.otherAttributes attributes).map fun a =>
        (a.name.name, a.value)) entries := by
  induction attributes generalizing slots captured entries with
  | nil =>
      cases placing
      exact ⟨entries, held, by simpa [Record.otherAttributes] using captures⟩
  | cons a rest ih =>
      rcases placeAttributes_cons_eq_ok placing with
        ⟨isMeta, placing⟩ | ⟨isData, between, here, later⟩
      · simpa [Record.otherAttributes, isMeta] using ih placing held captures
      · rcases placeAttribute_cases indexed here with
          ⟨other, field, value, named, listed, origin, _, rfl⟩ |
          ⟨unnamed, other, _, wildcard', _, _, rfl⟩
        · have apart : index ≠ other := by
            rintro rfl
            obtain ⟨field', listed', origin'⟩ := Record.exists_field_of_findIdx?
              (indexed.attributeWildcard_eq.symm.trans wildcard)
            cases listed.symm.trans listed'
            cases origin.symm.trans origin'
          have unchanged := (Slots.get?_put_of_ne apart slots value).trans held
          simpa [Record.otherAttributes, named] using
            ih later unchanged captures
        · cases wildcard.symm.trans wildcard'
          have put : (slots.putEntry index a.name.name a.value).get? index =
              some (.map (Association.insert a.name.name a.value entries)) := by
            rw [Slots.putEntry_of_get? held,
              Slots.get?_put (Slots.lt_length_of_get? held)]
          simpa [Record.otherAttributes, isData, unnamed] using
            ih later put (captures.concat a.name.name a.value)

/-- Attributes that have been put into a record have a field that reads them, or
there is a wildcard. -/
theorem reads_of_placeAttributes (indexed : record.Indexed)
    (placing : graph.placeAttributes zone record slots attributes = .ok next)
    (member : a ∈ attributes) (isData : a.isMeta = false) :
    (∀ index field, record.attributeField? a.name = some index →
      record.fields[index]? = some field →
        ∃ value, graph.readAttribute zone field.node a.value = .ok value) ∧
    (record.attributeField? a.name = none →
      ∃ field ∈ record.fields, field.origin = .attributeWildcard) := by
  induction attributes generalizing slots with
  | nil => cases member
  | cons first rest ih =>
      rcases placeAttributes_cons_eq_ok placing with
        ⟨isMeta, placing⟩ | ⟨_, between, here, later⟩
      · rcases List.mem_cons.1 member with rfl | member
        · cases isData.symm.trans isMeta
        · exact ih placing member
      · rcases List.mem_cons.1 member with rfl | member
        · rcases placeAttribute_cases indexed here with
            ⟨other, field', value, named', listed', _, read, _⟩ |
            ⟨unnamed, _, field, _, listed, origin, _⟩
          · refine ⟨?_, fun unnamed => ?_⟩
            · intro index field named listed
              cases named.symm.trans named'
              cases listed.symm.trans listed'
              exact ⟨value, read⟩
            · cases named'.symm.trans unnamed
          · refine ⟨fun index field named _ => ?_, fun _ => ?_⟩
            · cases named.symm.trans unnamed
            · exact ⟨field, List.mem_of_getElem? listed, origin⟩
        · exact ih later member

namespace Lowered

/-! ## Qualifying for a record -/

/-- What qualifies for a record is not refused. -/
theorem exists_convert_of_qualifies (lowered : graph.Lowered allowed root)
    (found : graph.record? id = some record)
    (qualifies : graph.Qualifies zone record element) :
    ∃ value, graph.convert zone id element = .ok value := by
  cases converted : graph.convert zone id element with
  | ok value => exact ⟨value, rfl⟩
  | error error =>
      cases lowered.refuses_of_convert found converted with
      | misfit misfits =>
          cases misfits with
          | unmatched member unrouted =>
              exact absurd unrouted (qualifies.matched _ member)
          | repeated member routed single several =>
              obtain ⟨_, named⟩ : ∃ name, record.elementField? name = some _ :=
                ⟨_, elementField?_of_route? routed⟩
              obtain ⟨field, listed, origin⟩ :=
                Record.exists_field_of_findIdx? named
              have few := qualifies.single _ field _ listed origin single
              exact absurd several (Nat.not_lt.2 few)
          | unknownAttribute member isData unnamed closed =>
              obtain ⟨field, listed, origin⟩ :=
                qualifies.unnamed _ member isData unnamed
              rw [(lowered.indexed found).attributeWildcard_eq,
                List.findIdx?_eq_none_iff] at closed
              have differs := closed field listed
              simp [origin] at differs
      | child member routed leads failed =>
          obtain ⟨value, converts⟩ := qualifies.converts _ member _ _ routed leads
          cases converts.symm.trans failed
      | unread member isData named listed failed =>
          obtain ⟨value, reads⟩ := qualifies.named _ member isData _ _ named listed
          cases reads.symm.trans failed
      | text isText listed failed =>
          obtain ⟨value, reads⟩ := qualifies.text _ _ isText listed
          cases reads.symm.trans failed

theorem qualifies_of_convert (lowered : graph.Lowered allowed root)
    (found : graph.record? id = some record) {value : Value}
    (converted : graph.convert zone id element = .ok value) :
    graph.Qualifies zone record element := by
  obtain ⟨slots, _, distributes⟩ := lowered.distributes_of_convert found converted
  obtain ⟨placed, filled, _, _, placing, filling, puts⟩ :=
    (lowered.convert_record_eq_ok found).1 converted
  have indexed := lowered.indexed found
  constructor
  · exact distributes.matched
  · intro index field name listed origin single
    have received := distributes.receives listed (.inl ⟨name, origin⟩)
    have noArray := (isArrayField_eq_false_iff listed).1 single
    rcases received.cases_single origin noArray with
      ⟨none, _⟩ | ⟨child, _, one, _⟩
    · rw [none]
      exact Nat.zero_le 1
    · rw [one]
      exact Nat.le_refl 1
  · intro child member route field routed leads
    exact (lowered.exists_convert_child found converted member routed leads).2
  · intro a member isData
    exact (reads_of_placeAttributes indexed filling member isData).1
  · intro a member isData
    exact (reads_of_placeAttributes indexed filling member isData).2
  · intro index field isText listed
    cases puts with
    | none noText => cases isText.symm.trans noText
    | field isText' listed' primitive read =>
        cases isText.symm.trans isText'
        cases listed.symm.trans listed'
        exact ⟨_, (convert_primitive primitive zone element).trans read⟩

/-- The wildcard for attributes keeps those that have no field of their own. -/
theorem exists_captures_of_fill (lowered : graph.Lowered allowed root)
    (found : graph.record? id = some record) {placed filled : Slots} {text : String}
    {children : List Child}
    (placing : graph.placeChildren record (graph.emptySlots record) children =
      .ok placed)
    (filling : graph.placeAttributes zone record placed attributes = .ok filled)
    (puts : graph.PutsText zone record text filled slots) {index : Nat}
    (wildcard : record.attributeWildcard = some index) :
    ∃ entries, slots.get? index = some (.map entries) ∧
      Captures ((record.otherAttributes attributes).map fun a =>
        (a.name.name, a.value)) entries := by
  have indexed := lowered.indexed found
  obtain ⟨field, listed, origin⟩ := Record.exists_field_of_findIdx?
    (indexed.attributeWildcard_eq.symm.trans wildcard)
  have aside : ¬ IsForChildren field := by simp [IsForChildren, origin]
  have holds := lowered.holds found listed
  rw [origin] at holds
  obtain ⟨values, map, _⟩ := holds
  have start : placed.get? index = some (.map []) := by
    rw [lowered.get?_placeChildren found placing listed aside,
      get?_emptySlots listed, emptySlot, map]
  rw [puts.get?_eq indexed listed (by simp [origin])]
  exact exists_captures_of_placeAttributes indexed filling wildcard start .nil

/-- A record value holds what its element has. -/
theorem holdings_of_convert (lowered : graph.Lowered allowed root)
    (found : graph.record? id = some record)
    (distinct : (element.attributes.map (·.name)).Nodup) {value : Value}
    (converted : graph.convert zone id element = .ok value) :
    ∃ slots, value = .record slots ∧
      graph.Holdings zone record element slots := by
  obtain ⟨slots, rfl, distributes⟩ := lowered.distributes_of_convert found converted
  obtain ⟨placed, filled, _, same, placing, filling, puts⟩ :=
    (lowered.convert_record_eq_ok found).1 converted
  cases same
  have indexed := lowered.indexed found
  have length : placed.length = record.fields.length := by
    have completed := (puts.completes filling).length_eq
    rw [← completed, distributes.length_eq]
  refine ⟨slots, rfl, distributes, ?_, ?_, ?_, ?_⟩
  · intro a member isData index field named listed
    obtain ⟨field', listed', origin⟩ := Record.exists_field_of_findIdx? named
    cases listed.symm.trans listed'
    rw [puts.get?_eq indexed listed (by simp [origin])]
    exact exists_read_of_placeAttributes indexed length filling distinct member
      isData named listed
  · intro index field name listed origin others
    have aside : ¬ IsForChildren field := by simp [IsForChildren, origin]
    rw [puts.get?_eq indexed listed (by simp [origin]),
      get?_placeAttributes_of_ne indexed filling listed origin others,
      lowered.get?_placeChildren found placing listed aside,
      get?_emptySlots listed, emptySlot]
    have holds := lowered.holds found listed
    rw [origin] at holds
    rcases holds with ⟨_, _, found⟩ | ⟨_, _, found⟩
    · rw [found]
    · rw [found]
  · exact fun index => lowered.exists_captures_of_fill found placing filling puts
  · intro index field isText listed
    cases puts with
    | none noText => cases isText.symm.trans noText
    | field isText' listed' primitive read =>
        cases isText.symm.trans isText'
        cases listed.symm.trans listed'
        refine ⟨_, (convert_primitive primitive zone element).trans read, ?_⟩
        have inside : index < filled.length := by
          rw [length_placeAttributes filling, length]
          exact (List.getElem?_eq_some_iff.1 listed).1
        rw [Slots.get?_put inside]

end Lowered

/-- Children go by the first match.  An element becomes a value of a record just when
each part of it qualifies for the record, and then the record holds just these
parts. -/
theorem convert_iff_of_ofComponents {components : Components}
    {wanted : Option String} {graph : Graph}
    (built : ofComponents components wanted = .ok graph) {id : Nat}
    {record : Record} (found : graph.record? id = some record) (zone : Zone)
    {element : Element}
    (distinct : (element.attributes.map (·.name)).Nodup) :
    (∀ name route, graph.route? record name = route ↔
      graph.Sorts record name route) ∧
    ((∃ value, graph.convert zone id element = .ok value) ↔
      graph.Qualifies zone record element) ∧
    ∀ value, graph.convert zone id element = .ok value →
      ∃ slots, value = .record slots ∧
        graph.Holdings zone record element slots := by
  obtain ⟨root, lowered⟩ := exists_lowered_ofComponents built
  refine ⟨fun name route => lowered.route?_eq_iff found, ?_, fun value =>
    lowered.holdings_of_convert found distinct⟩
  constructor
  · rintro ⟨value, converted⟩
    exact lowered.qualifies_of_convert found converted
  · exact lowered.exists_convert_of_qualifies found

theorem qualifies_report :
    ofComponents reportComponents none = .ok reportGraph ∧
    (report.attributes.map (·.name)).Nodup ∧
    ∃ record slots, reportGraph.record? 0 = some record ∧
      reportGraph.Qualifies .utc record report ∧
      reportGraph.convert .utc 0 report = .ok (.record slots) ∧
      reportGraph.Holdings .utc record report slots := by
  have distinct : (report.attributes.map (·.name)).Nodup := by decide
  have found : reportGraph.record? 0 = some _ := rfl
  obtain ⟨_, converts, holdings⟩ := convert_iff_of_ofComponents
    ofComponents_reportComponents found .utc distinct
  obtain ⟨value, converted⟩ :
      ∃ value, reportGraph.convert .utc 0 report = .ok value := ⟨_, rfl⟩
  obtain ⟨slots, rfl, holds⟩ := holdings value converted
  exact ⟨ofComponents_reportComponents, distinct, _, slots, rfl,
    converts.1 ⟨_, converted⟩, converted, holds⟩

/-- A report whose number is none. -/
def misnumberedReport : Element := ⟨⟨"report", none⟩, [⟨⟨"id", none⟩, "x"⟩], []⟩

/-- An attribute with a field is not left to the wildcard if it cannot be read. -/
theorem refuses_misnumberedReport :
    ofComponents reportComponents none = .ok reportGraph ∧
    ∃ record, reportGraph.record? 0 = some record ∧
      misnumberedReport.children = [] ∧
      (misnumberedReport.attributes.map (·.name)).Nodup ∧
      record.text = none ∧
      (∀ a ∈ misnumberedReport.attributes, a.isMeta = false →
        (∃ index field value, record.attributeField? a.name = some index ∧
          record.fields[index]? = some field ∧
          reportGraph.readAttribute .utc field.node a.value = .ok value) ∨
        record.attributeWildcard ≠ none) ∧
      ¬ ∃ value, reportGraph.convert .utc 0 misnumberedReport = .ok value := by
  refine ⟨ofComponents_reportComponents, _, rfl, rfl, by decide, rfl, ?_, ?_⟩
  · intro a _ _
    exact .inr (by simp)
  · rintro ⟨value, converted⟩
    have failed : ∃ error, reportGraph.convert .utc 0 misnumberedReport =
        .error error := ⟨_, rfl⟩
    obtain ⟨error, failed⟩ := failed
    cases converted.symm.trans failed

end Graph

end XmlRecords
