import XmlRecords.Proofs.ContentFaults
import XmlRecords.Proofs.FreePlaces
import XmlRecords.Proofs.GroupRounds

/-!
# Why elements are refused

Where an element does not become a value of a record, something about the element
itself does not fit, or a child, an attribute or the text cannot be converted by
itself.  Nothing is ever in the way within the rounds of a group.  So a document in
which something does not fit has an element that is at fault for it, and this
element is matched against the record of a type.
-/

namespace XmlRecords

namespace Graph

variable {graph : Graph} {allowed : QName → Prop} {root id : Nat}
  {record : Record} {zone : Zone} {slots next : Slots} {element : Element}
  {error : Error}

/-- What about an element does not fit into a record: a child that is not matched, a
child that comes again where there is a field for one, or an attribute that is not
known. -/
inductive Misfits (graph : Graph) (record : Record) (element : Element) :
    FieldFault → Prop where
  | unmatched {child : Element} (member : child ∈ element.children)
      (unrouted : graph.route? record child.name = none) :
      Misfits graph record element (.unknownElement child.name record.title)
  | repeated {child : Element} {index : Nat} (member : child ∈ element.children)
      (routed : graph.route? record child.name = some (.field index))
      (single : graph.isArrayField record index = false)
      (several : 1 < (graph.sentTo record index element.children).length) :
      Misfits graph record element (.repeatedElement child.name record.title)
  | unknownAttribute {a : Attribute} (member : a ∈ element.attributes)
      (isData : a.isMeta = false) (unnamed : record.attributeField? a.name = none)
      (closed : record.attributeWildcard = none) :
      Misfits graph record element (.unknownAttribute a.name record.title)

/-- Why a record refuses an element: something does not fit, or something cannot be
converted. -/
inductive Refuses (graph : Graph) (zone : Zone) (record : Record)
    (element : Element) : Error → Prop where
  | misfit {fault : FieldFault} (misfits : graph.Misfits record element fault) :
      Refuses graph zone record element (.field fault)
  | child {child : Element} {route : Route} {field : Field} {error : Error}
      (member : child ∈ element.children)
      (routed : graph.route? record child.name = some route)
      (leads : graph.Leads record route field)
      (failed : graph.convert zone (graph.elementType field.node) child =
        .error error) : Refuses graph zone record element error
  | unread {a : Attribute} {index : Nat} {field : Field} {error : Error}
      (member : a ∈ element.attributes) (isData : a.isMeta = false)
      (named : record.attributeField? a.name = some index)
      (listed : record.fields[index]? = some field)
      (failed : graph.readAttribute zone field.node a.value = .error error) :
      Refuses graph zone record element error
  | text {index : Nat} {field : Field} {error : Error}
      (isText : record.text = some index)
      (listed : record.fields[index]? = some field)
      (failed : graph.convert zone field.node element = .error error) :
      Refuses graph zone record element error

/-! ## The steps of filling a record -/

/-- A child that cannot be put along its route cannot be converted, or it goes
directly to a field for one element that is set. -/
theorem Leads.place_eq_error {child : Child} {route : Route} {field : Field}
    (leads : graph.Leads record route field)
    (placing : graph.place child record route slots = .error error) :
    child.convert (Value.itemNode graph field.node) = .error error ∨
      ∃ index, route = .field index ∧
        graph.isArrayField record index = false ∧
        (slots.get? index).isSome = true ∧
        error = .field
          (.repeatedElement child.element.name record.title) := by
  induction leads generalizing slots with
  | @field record index field name listed origin closed =>
      rw [place, listed] at placing
      dsimp only at placing
      split at placing
      · next item array =>
          refine .inl ?_
          rw [Value.itemNode, array]
          exact Outcome.map_eq_error.1 placing
      · next other single =>
          have noArray := (isArrayField_eq_false_iff listed).2 single
          split at placing
          · next taken =>
              cases placing
              exact .inr ⟨index, rfl, noArray, taken, rfl⟩
          · refine .inl ?_
            rw [itemNode_eq_self single]
            exact Outcome.map_eq_error.1 placing
  | @group record index outer node item rest field listed array rounds inner ih =>
      rw [place] at placing
      split at placing
      · next values held =>
          cases current : graph.currentRound item rest.index values with
          | mk front round =>
              rw [current] at placing
              rcases Outcome.bind_eq_error.1 placing with failed | ⟨_, _, failed⟩
              · rcases ih failed with failed | ⟨target, rfl, single, taken, _⟩
                · exact .inl failed
                · -- A round in which the slot is taken would be over.
                  cases inner with
                  | field listed' _ closed =>
                      rw [get?_currentRound listed' single closed current] at taken
                      cases taken
              · cases failed
      · cases placing

/-- In the rounds of a group no child is in the way of another. -/
theorem Leads.convert_eq_error_of_group {child : Child} {index : Nat}
    {item : Record} {rest : Route} {field : Field}
    (leads : graph.Leads record (.group index item rest) field)
    (placing : graph.place child record (.group index item rest) slots =
      .error error) :
    child.convert (Value.itemNode graph field.node) = .error error := by
  rcases leads.place_eq_error placing with failed | ⟨_, impossible, _⟩
  · exact failed
  · cases impossible

theorem placeAttributes_eq_error {attributes : List Attribute}
    (filling : graph.placeAttributes zone record slots attributes =
      .error error) :
    ∃ a ∈ attributes, a.isMeta = false ∧
      ((∃ index field, record.attributeField? a.name = some index ∧
        record.fields[index]? = some field ∧
        graph.readAttribute zone field.node a.value = .error error) ∨
      record.attributeField? a.name = none ∧ record.attributeWildcard = none ∧
        error = .field (.unknownAttribute a.name record.title)) := by
  induction attributes generalizing slots with
  | nil => cases filling
  | cons a rest ih =>
      rw [placeAttributes] at filling
      split at filling
      · obtain ⟨other, member, later⟩ := ih filling
        exact ⟨other, List.mem_cons_of_mem _ member, later⟩
      · next isData =>
          rw [Bool.not_eq_true] at isData
          rcases Outcome.bind_eq_error.1 filling with failed | ⟨_, _, others⟩
          · refine ⟨a, List.mem_cons_self, isData, ?_⟩
            rw [placeAttribute] at failed
            split at failed
            · next index named =>
                split at failed
                · cases failed
                · next field listed =>
                    exact .inl ⟨index, field, named, listed,
                      Outcome.map_eq_error.1 failed⟩
            · next unnamed =>
                split at failed
                · cases failed
                · next closed =>
                    cases failed
                    exact .inr ⟨unnamed, closed, rfl⟩
          · obtain ⟨other, member, later⟩ := ih others
            exact ⟨other, List.mem_cons_of_mem _ member, later⟩

namespace Lowered

/-- Why a child cannot be put into a record behind the others. -/
theorem refuses_of_place (lowered : graph.Lowered allowed root)
    (found : graph.record? id = some record) {done rest : List Element}
    {child : Element} (whole : element.children = done ++ child :: rest)
    (distributes : graph.Distributes zone record done slots) {route : Route}
    (routed : graph.route? record child.name = some route)
    (placing : graph.place (graph.childOf zone child) record route slots =
      .error error) : graph.Refuses zone record element error := by
  have member : child ∈ element.children := by simp [whole]
  rcases lowered.leads_of_route? found routed with
    ⟨owner, field, leads, holds⟩ | ⟨index, rfl, _⟩
  · rcases leads.place_eq_error placing with
      failed | ⟨index, rfl, single, taken, rfl⟩
    · apply Refuses.child member routed leads
      rwa [lowered.convert_elementType holds zone child]
    · refine .misfit (.repeated member routed single ?_)
      obtain ⟨first, listed, arm⟩ : ∃ first,
          record.fields[index]? = some first ∧ isArm first = true := by
        cases leads with
        | field listed origin _ => exact ⟨field, listed, by rw [isArm, origin]⟩
      have received := distributes.receives listed (isForChildren_of_isArm arm)
      have before := (lowered.isSome_iff found listed arm single received).1 taken
      rw [← List.length_pos_iff] at before
      have here : (graph.route? record child.name).map Route.index =
          some index := by rw [routed, Option.map_some, Route.index]
      rw [whole, sentTo, List.filter_append, List.length_append,
        List.filter_cons_of_pos (by simpa using here), List.length_cons]
      rw [sentTo] at before
      omega
  · rw [place] at placing
    cases placing

theorem refuses_of_placeChildren (lowered : graph.Lowered allowed root)
    (found : graph.record? id = some record) {done rest : List Element}
    (whole : element.children = done ++ rest)
    (distributes : graph.Distributes zone record done slots)
    (placing : graph.placeChildren record slots
      (rest.map (graph.childOf zone)) = .error error) :
    graph.Refuses zone record element error := by
  induction rest generalizing slots done with
  | nil => cases placing
  | cons child rest ih =>
      rw [List.map_cons, placeChildren] at placing
      split at placing
      · next unrouted =>
          have member : child ∈ element.children := by simp [whole]
          cases placing
          exact .misfit (.unmatched member unrouted)
      · next route routed =>
          replace routed : graph.route? record child.name = some route := routed
          rcases Outcome.bind_eq_error.1 placing with failed | ⟨between, first, others⟩
          · exact lowered.refuses_of_place found whole distributes routed failed
          · have together := lowered.distributes_place found routed distributes first
            exact ih (whole.trans (List.append_cons ..)) together others

/-- Where an element does not become a value of a record, the record refuses it. -/
theorem refuses_of_convert (lowered : graph.Lowered allowed root)
    (found : graph.record? id = some record)
    (failed : graph.convert zone id element = .error error) :
    graph.Refuses zone record element error := by
  rw [convert, convertWith, record?_eq_some_iff.1 found, childrenOf_eq] at failed
  rcases Outcome.bind_eq_error.1 failed with failed | ⟨placed, _, failed⟩
  · have whole : element.children = [] ++ element.children := rfl
    exact lowered.refuses_of_placeChildren found whole
      (lowered.distributes_emptySlots found zone) failed
  rcases Outcome.bind_eq_error.1 failed with failed | ⟨filled, _, failed⟩
  · obtain ⟨a, member, isData, ⟨index, field, named, listed, failed⟩ |
      ⟨unnamed, closed, rfl⟩⟩ := placeAttributes_eq_error failed
    · exact .unread member isData named listed failed
    · exact .misfit (.unknownAttribute member isData unnamed closed)
  · split at failed
    · next index field isText bound =>
        rw [isText, Option.bind_some] at bound
        obtain ⟨kind, logical, primitive⟩ :=
          lowered.primitive_of_text found isText bound
        rcases Outcome.bind_eq_error.1 failed with failed | ⟨_, _, failed⟩
        · refine .text isText bound ?_
          obtain ⟨fuel, steps⟩ := Nat.exists_eq_succ_of_ne_zero
            (Nat.ne_of_gt (Nat.zero_lt_of_lt (lt_size_of_node? primitive)))
          rw [steps, convertWith, primitive] at failed
          rw [convert_primitive primitive]
          exact failed
        · cases failed
    · cases failed

/-! ## The element at fault -/

theorem failsOnLiteral_readAttribute (lowered : graph.Lowered allowed root)
    {owner : Nat} {name : QName} (holds : graph.Holds owner (.attribute name) id)
    (zone : Zone) (text : String) :
    FailsOnLiteral (graph.readAttribute zone id text) := by
  rw [readAttribute]
  rcases holds with ⟨kind, logical, found⟩ |
    ⟨inner, ⟨kind, logical, found⟩, optional⟩
  · rw [elementType_of_isWrapper_eq_false found rfl, found]
    exact Value.failsOnLiteral_readPrimitive zone kind logical text
  · rw [elementType_optional lowered.linked optional,
      elementType_of_isWrapper_eq_false found rfl, found]
    exact Value.failsOnLiteral_readPrimitive zone kind logical text

/-- Where an element becomes no value because something does not fit, something does
not fit in an element within it that is matched against the record of a type, by
induction on the levels of the element. -/
theorem exists_misfits_of_convert (lowered : graph.Lowered allowed root)
    (base : graph.IsBase id) {fault : FieldFault}
    (failed : graph.convert zone id element = .error (.field fault)) :
    ∃ node inner record, graph.Matched id element node inner ∧
      graph.record? node = some record ∧ record.source = .type ∧
      graph.Misfits record inner fault := by
  induction levels : element.depth using Nat.strong_induction_on
    generalizing id element with
  | _ n ih =>
      rcases base with ⟨kind, logical, found⟩ | ⟨record, found, type⟩
      · rw [convert_primitive found] at failed
        obtain ⟨_, _, _, impossible⟩ :=
          Value.failsOnLiteral_readPrimitive _ _ _ _ _ failed
        cases impossible
      · cases lowered.refuses_of_convert found failed with
        | misfit misfits => exact ⟨id, element, record, .whole, found, type, misfits⟩
        | @child child route field _ member routed leads failed =>
            have base : graph.IsBase (graph.elementType field.node) := by
              rcases lowered.leads_of_route? found routed with
                ⟨_, other, leadsOther, holds⟩ | ⟨index, rfl, _⟩
              · exact lowered.isBase_elementType (leads.field_eq leadsOther ▸ holds)
              · cases leads
            have fewer := depth_lt_of_mem_children member
            obtain ⟨node, inner, other, matched, found', type', misfits⟩ :=
              ih child.depth (levels ▸ fewer) base failed rfl
            have step := Matched.child .whole found member routed leads
            exact ⟨node, inner, other, step.trans matched, found', type', misfits⟩
        | unread _ _ named listed failed =>
            obtain ⟨field, listed', origin⟩ := Record.exists_field_of_findIdx? named
            cases listed.symm.trans listed'
            have holds := lowered.holds found listed
            rw [origin] at holds
            obtain ⟨_, _, _, impossible⟩ :=
              lowered.failsOnLiteral_readAttribute holds _ _ _ failed
            cases impossible
        | text isText listed failed =>
            obtain ⟨kind, logical, primitive⟩ :=
              lowered.primitive_of_text found isText listed
            rw [convert_primitive primitive] at failed
            obtain ⟨_, _, _, impossible⟩ :=
              Value.failsOnLiteral_readPrimitive _ _ _ _ _ failed
            cases impossible

/-- A document in which something does not fit has an element that is at fault for
it, if its document element is known. -/
theorem exists_misfits_of_transcodeRoot (lowered : graph.Lowered allowed root)
    {settings : Settings} {fault : FieldFault}
    (failed : graph.transcodeRoot settings root element = .error (.field fault))
    (known : ∀ name, fault ≠ .unknownRoot name) :
    ∃ start node inner record, graph.documentNode? element.name = some start ∧
      graph.Matched start element node inner ∧
      graph.record? node = some record ∧ record.source = .type ∧
      graph.Misfits record inner fault := by
  have elsewhere : checkDepth settings element ≠ .error (.field fault) := by
    rw [checkDepth]
    split <;> simp
  rcases lowered.transcodeRoot_cases settings element.name with
    unknown | ⟨start, wrap, starts, base, same, _⟩
  · rw [unknown element rfl] at failed
    rcases Outcome.bind_eq_error.1 failed with failed | ⟨_, _, failed⟩
    · exact absurd failed elsewhere
    · cases failed
      exact absurd rfl (known _)
  · rw [same element rfl] at failed
    rcases Outcome.bind_eq_error.1 failed with failed | ⟨_, _, failed⟩
    · exact absurd failed elsewhere
    · obtain ⟨node, inner, record, misfits⟩ :=
        lowered.exists_misfits_of_convert base (Outcome.map_eq_error.1 failed)
      exact ⟨start, node, inner, record, starts, misfits⟩

end Lowered

end Graph

end XmlRecords
