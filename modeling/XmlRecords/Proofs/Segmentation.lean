import XmlRecords.Proofs.Refusals

/-!
# Groups are cut into rounds

What an element sends to a repeated group is cut into rounds without loss, and into
as few of them as there can be.  This holds for every group of every record that an
element of a document is matched against.
-/

namespace XmlRecords

namespace Graph

variable {graph : Graph} {allowed : QName → Prop} {root id : Nat}
  {record : Record} {zone : Zone} {element : Element}

/-- Each repeated group of a record holds the rounds that divide what is sent to it,
and each round holds what its part becomes. -/
def Segments (graph : Graph) (zone : Zone) (record : Record)
    (children : List Element) (slots : Slots) : Prop :=
  ∀ index field item, record.fields[index]? = some field →
    graph.groupItem? field = some item →
      ∃ rounds : List (List Element × Slots),
        slots.get? index =
          some (.array (rounds.map fun round => .record round.2)) ∧
        Divides (graph.FitsRound item) (graph.sentTo record index children)
          (rounds.map (·.1)) ∧
        (∀ round ∈ rounds, graph.Distributes zone item round.1 round.2) ∧
        (item.source = .group .choice →
          ∀ round ∈ rounds, ∃! index, InUse item round.2 index)

theorem Lowered.segments_of_convert (lowered : graph.Lowered allowed root)
    (found : graph.record? id = some record) {value : Value}
    (converted : graph.convert zone id element = .ok value) :
    ∃ slots, value = .record slots ∧
      graph.Segments zone record element.children slots := by
  obtain ⟨slots, rfl, distributes⟩ :=
    lowered.distributes_of_convert found converted
  refine ⟨slots, rfl, fun index field item listed isGroup => ?_⟩
  have group := origin_of_groupItem? isGroup
  exact (distributes.receives listed (.inr (.inl group))).exists_rounds isGroup

/-- A child that cannot be put into a round of a group cannot be converted. -/
theorem Lowered.convert_eq_error_of_group (lowered : graph.Lowered allowed root)
    (found : graph.record? id = some record) {child : Element} {index : Nat}
    {item : Record} {rest : Route} {slots : Slots} {error : Error}
    (routed : graph.route? record child.name = some (.group index item rest))
    (placing : graph.place (graph.childOf zone child) record
      (.group index item rest) slots = .error error) :
    ∃ field, graph.Leads record (.group index item rest) field ∧
      graph.convert zone (graph.elementType field.node) child =
        .error error := by
  rcases lowered.leads_of_route? found routed with
    ⟨owner, field, leads, holds⟩ | ⟨_, impossible, _⟩
  · refine ⟨field, leads, ?_⟩
    rw [lowered.convert_elementType holds zone child]
    exact leads.convert_eq_error_of_group placing
  · cases impossible

/-- Wherever an element becomes a value of a record, its groups are cut into rounds;
so they are everywhere in a document that is transcoded.  In the rounds of a group
only a child itself can be at fault, and if an element comes more than once, it does so
directly in an element that is matched against the record of a type. -/
theorem segments_of_ofComponents {components : Components}
    {wanted : Option String} {graph : Graph}
    (built : ofComponents components wanted = .ok graph) (settings : Settings)
    (element : Element) :
    (∀ id record value, graph.record? id = some record →
      graph.convert settings.zone id element = .ok value →
        ∃ slots, value = .record slots ∧
          graph.Segments settings.zone record element.children slots) ∧
    (∀ value, graph.transcodeDocument settings element = .ok value →
      ∃ start, graph.documentNode? element.name = some start ∧
        ∀ node inner record, graph.Matched start element node inner →
          graph.record? node = some record →
            ∃ slots, graph.convert settings.zone node inner =
                .ok (.record slots) ∧
              graph.Segments settings.zone record inner.children slots) ∧
    (∀ id record index item rest slots error, graph.record? id = some record →
      graph.route? record element.name = some (.group index item rest) →
        graph.place (graph.childOf settings.zone element) record
            (.group index item rest) slots = .error error →
          ∃ field, graph.Leads record (.group index item rest) field ∧
            graph.convert settings.zone (graph.elementType field.node) element =
              .error error) ∧
    ∀ name title, graph.transcodeDocument settings element =
        .error (.field (.repeatedElement name title)) →
      ∃ start node inner record index,
        graph.documentNode? element.name = some start ∧
        graph.Matched start element node inner ∧
        graph.record? node = some record ∧ record.source = .type ∧
        title = record.title ∧
        graph.route? record name = some (.field index) ∧
        graph.isArrayField record index = false ∧
        1 < (graph.sentTo record index inner.children).length := by
  obtain ⟨root, lowered⟩ := exists_lowered_ofComponents built
  refine ⟨?_, ?_, ?_, ?_⟩
  · intro id record value found converted
    exact lowered.segments_of_convert found converted
  · intro value transcoded
    rw [transcodeDocument, rootNode, lowered.rooted] at transcoded
    obtain ⟨start, _, starts, base, converted, _⟩ :=
      lowered.exists_start transcoded
    refine ⟨start, starts, fun node inner record matched found => ?_⟩
    obtain ⟨_, made, ended⟩ :=
      lowered.exists_convert_of_matched base converted matched
    obtain ⟨slots, rfl, segments⟩ := lowered.segments_of_convert found ended
    exact ⟨slots, ended, segments⟩
  · intro id record index item rest slots error found routed placing
    exact lowered.convert_eq_error_of_group found routed placing
  · intro name title failed
    rw [transcodeDocument, rootNode, lowered.rooted] at failed
    obtain ⟨start, node, inner, record, starts, matched, found, type, misfits⟩ :=
      lowered.exists_misfits_of_transcodeRoot failed (by simp)
    cases misfits with
    | repeated member routed single several =>
        exact ⟨start, node, inner, record, _, starts, matched, found, type, rfl,
          routed, single, several⟩

/-- A note whose number is none. -/
def misnumberedNote : Element := ⟨⟨"note", none⟩, [⟨⟨"id", none⟩, "x"⟩], []⟩

/-- A report with a note and a report has two rounds.  A note whose number is none
is itself at fault in its round, and a tally is at fault for a second count. -/
theorem segments_report :
    ofComponents reportComponents none = .ok reportGraph ∧
    ofComponents tallyComponents none = .ok tallyGraph ∧
    ∃ record field item slots,
      ∃ rounds : List (List Element × Slots),
        reportGraph.transcodeDocument {} report = .ok (.record slots) ∧
        reportGraph.record? 0 = some record ∧
        record.fields[0]? = some field ∧
        reportGraph.groupItem? field = some item ∧
        item.source = .group .choice ∧
        Divides (reportGraph.FitsRound item)
          (reportGraph.sentTo record 0 report.children) (rounds.map (·.1)) ∧
        rounds.length = 2 ∧
        (∃ (error : Error) (field : Field),
          reportGraph.place (reportGraph.childOf .utc misnumberedNote) record
            (.group 0 item (.field 0)) [some (.array [])] = .error error ∧
          reportGraph.convert .utc (reportGraph.elementType field.node)
            misnumberedNote = .error error) ∧
        ∃ node inner record index,
          tallyGraph.transcodeDocument {} (tallyOf [countOfFive, countOfFive]) =
            .error (.field (.repeatedElement ⟨"count", none⟩ "type0")) ∧
          tallyGraph.Matched 0 (tallyOf [countOfFive, countOfFive]) node inner ∧
          1 < (tallyGraph.sentTo record index inner.children).length := by
  obtain ⟨_, documents, _⟩ :=
    segments_of_ofComponents ofComponents_reportComponents {} report
  obtain ⟨_, _, inRounds, _⟩ :=
    segments_of_ofComponents ofComponents_reportComponents {} misnumberedNote
  obtain ⟨_, _, _, failures⟩ := segments_of_ofComponents
    ofComponents_tallyComponents {} (tallyOf [countOfFive, countOfFive])
  have transcoded : ∃ slots,
      reportGraph.transcodeDocument {} report = .ok (.record slots) ∧
      reportGraph.convert .utc 0 report = .ok (.record slots) ∧
      (Slots.items slots 0).length = 2 := ⟨_, rfl, rfl, rfl⟩
  obtain ⟨slots, transcoded, converted, two⟩ := transcoded
  obtain ⟨start, starts, each⟩ := documents _ transcoded
  cases starts
  obtain ⟨slots', converted', segments⟩ := each 0 report _ .whole rfl
  cases converted.symm.trans converted'
  obtain ⟨rounds, held, divides, _, _⟩ := segments 0 _ _ rfl rfl
  rw [Slots.items_of_get? held, Value.items, List.length_map] at two
  obtain ⟨field, _, failed⟩ :=
    inRounds 0 _ 0 _ (.field 0) [some (.array [])] _ rfl rfl rfl
  obtain ⟨start, node, inner, record, index, starts, matched, found, _, _, _, _,
    several⟩ := failures ⟨"count", none⟩ "type0" rfl
  cases starts
  refine ⟨ofComponents_reportComponents, ofComponents_tallyComponents, _, _, _,
    slots, rounds, transcoded, rfl, rfl, rfl, rfl, divides, two,
    ⟨_, field, rfl, failed⟩, node, inner, record, index, rfl, matched, several⟩

end Graph

end XmlRecords
