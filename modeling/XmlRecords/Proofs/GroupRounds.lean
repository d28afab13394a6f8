import XmlRecords.Proofs.Distribution
import XmlRecords.Proofs.Supply

/-!
# Rounds of groups

The slots of the current round decide whether a child still goes there.  They tell
what the round has received so far: a slot is in use just when something was sent to
it.  So a round goes on exactly as long as its children fit together, and the
children of an element are at each point distributed among the fields.
-/

namespace XmlRecords

namespace Graph

variable {graph : Graph} {allowed : QName → Prop} {root id : Nat}
  {record item : Record} {zone : Zone} {slots next : Slots}
  {children run : List Element} {child : Element} {name : QName}

/-! ## Routes into rounds -/

/-- A name goes to a field that the children of a choice compete for. -/
theorem Goes.exists_arm {route : Route} (goes : graph.Goes name record route) :
    ∃ field, record.fields[route.index]? = some field ∧ isArm field = true := by
  cases goes with
  | field first => exact ⟨_, first.listed, by rw [isArm, first.holds]⟩
  | group _ first rounds _ =>
      exact ⟨_, first.listed, by rw [isArm, origin_of_groupItem? rounds]⟩

theorem isForChildren_of_isArm {field : Field} (arm : isArm field = true) :
    IsForChildren field := by
  rw [isArm] at arm
  split at arm
  · next name origin => exact .inl ⟨name, origin⟩
  · next origin => exact .inr (.inl origin)
  · cases arm

namespace Lowered

/-- What a record accepts goes to one of its arms. -/
theorem exists_route_of_accepts (lowered : graph.Lowered allowed root)
    (found : graph.record? id = some record)
    (accepts : graph.Accepts name record) :
    ∃ route field, graph.route? record name = some route ∧
      record.fields[route.index]? = some field ∧ isArm field = true := by
  have sorts := lowered.sorts_route? found name
  cases routed : graph.route? record name with
  | none =>
      rw [routed] at sorts
      cases sorts with
      | unmatched refused _ => exact absurd accepts refused
  | some route =>
      rw [routed] at sorts
      cases sorts with
      | named goes =>
          obtain ⟨field, listed, arm⟩ := goes.exists_arm
          exact ⟨route, field, rfl, listed, arm⟩
      | wildcard refused _ => exact absurd accepts refused

/-- What is sent to a group goes on in its rounds. -/
theorem exists_rest_of_mem_sentTo (lowered : graph.Lowered allowed root)
    (found : graph.record? id = some record) {index : Nat} {field : Field}
    (listed : record.fields[index]? = some field)
    (isGroup : graph.groupItem? field = some item)
    (sent : child ∈ graph.sentTo record index children) :
    ∃ rest, graph.route? record child.name = some (.group index item rest) ∧
      graph.Goes child.name item rest := by
  obtain ⟨_, route, routed, same⟩ := by
    simpa only [mem_sentTo, Option.map_eq_some_iff] using sent
  subst same
  have group := origin_of_groupItem? isGroup
  cases (lowered.route?_eq_iff found).1 routed with
  | named goes =>
      cases goes with
      | field first =>
          cases listed.symm.trans first.listed
          cases group.symm.trans first.holds
      | group _ first rounds inner =>
          cases listed.symm.trans first.listed
          cases isGroup.symm.trans rounds
          exact ⟨_, routed, inner⟩
  | wildcard _ first =>
      cases listed.symm.trans first.listed
      cases group.symm.trans first.holds

/-! ## Slots in use -/

/-- What a child becomes is in use. -/
theorem isPopulated_of_convert (lowered : graph.Lowered allowed root)
    {owner : Nat} (holds : graph.Holds owner (.element name) id)
    {value : Value}
    (converted : graph.convert zone (graph.elementType id) child = .ok value)
    {index : Nat} (held : slots.get? index = some value) :
    slots.isPopulated index = true := by
  have congruent := lowered.congruent_of_convert converted
  rw [Slots.isPopulated, held]
  rcases lowered.isBase_elementType holds with
    ⟨kind, logical, found⟩ | ⟨record, found, source⟩
  · cases congruent with
    | primitive _ kind => cases value <;> first | rfl | cases kind
    | optional found' _ => cases found.symm.trans found'
    | array found' _ => cases found.symm.trans found'
    | map found' => cases found.symm.trans found'
    | record found' _ _ _ =>
        cases found.symm.trans (record?_eq_some_iff.1 found')
  · have noChoice : record.source ≠ .document := by simp [source]
    obtain ⟨inner, rfl, _⟩ := congruent.exists_slots found noChoice
    rfl

/-- A slot that the children of a choice compete for is in use just when a child was
sent to it. -/
theorem isPopulated_iff (lowered : graph.Lowered allowed root)
    (found : graph.record? id = some record) {index : Nat} {field : Field}
    (listed : record.fields[index]? = some field) (arm : isArm field = true)
    (receives : graph.Receives zone field children (slots.get? index)) :
    slots.isPopulated index = true ↔ children ≠ [] := by
  have holds := lowered.holds found listed
  cases held : slots.get? index with
  | none =>
      rw [held] at receives
      cases receives
      simp [Slots.isPopulated, held]
  | some value =>
      rw [held] at receives
      cases receives with
      | one origin _ converted =>
          rw [origin] at holds
          simp [lowered.isPopulated_of_convert holds converted held]
      | items _ _ converted =>
          have together := converted.length_eq
          simp [Slots.isPopulated, held, ← List.length_eq_zero_iff, together]
      | rounds isGroup divides _ _ =>
          simp [Slots.isPopulated, held, ← divides.eq_nil_iff]
      | texts origin _ =>
          rw [isArm, origin] at arm
          cases arm

/-- A slot for one element is set just when an element was sent to it. -/
theorem isSome_iff (lowered : graph.Lowered allowed root)
    (found : graph.record? id = some record) {index : Nat} {field : Field}
    (listed : record.fields[index]? = some field) (arm : isArm field = true)
    (single : graph.isArrayField record index = false)
    (receives : graph.Receives zone field children (slots.get? index)) :
    (slots.get? index).isSome = true ↔ children ≠ [] := by
  rw [isArrayField_eq_false_iff listed] at single
  generalize slots.get? index = held at receives
  cases receives with
  | missing => simp
  | one => simp
  | items _ array _ => exact absurd array (single _)
  | rounds isGroup _ _ _ =>
      obtain ⟨_, _, array, _⟩ := lowered.round_of_groupItem? found listed isGroup
      exact absurd array (single _)
  | texts origin _ =>
      rw [isArm, origin] at arm
      cases arm

/-- In a round of a choice one slot is in use: that of the field to which all of its
children are sent. -/
theorem existsUnique_inUse (lowered : graph.Lowered allowed root)
    (found : graph.record? id = some item)
    (choice : item.source = .group .choice)
    (distributes : graph.Distributes zone item run slots)
    (fits : graph.FitsRound item run) (occupied : run ≠ [])
    (accepted : ∀ child ∈ run, graph.Accepts child.name item) :
    ∃! index, InUse item slots index := by
  obtain ⟨first, member⟩ := List.exists_mem_of_ne_nil run occupied
  obtain ⟨route, field, routed, listed, arm⟩ :=
    lowered.exists_route_of_accepts found (accepted first member)
  have here : (graph.route? item first.name).map Route.index =
      some route.index := by rw [routed, Option.map_some]
  refine ⟨route.index, ⟨field, listed, arm, ?_⟩, ?_⟩
  · have received := distributes.receives listed (isForChildren_of_isArm arm)
    refine (lowered.isPopulated_iff found listed arm received).2 ?_
    exact List.ne_nil_of_mem (mem_sentTo.2 ⟨member, here⟩)
  · rintro index ⟨other, listed', arm', populated⟩
    have received := distributes.receives listed' (isForChildren_of_isArm arm')
    obtain ⟨second, sent⟩ := List.exists_mem_of_ne_nil _
      ((lowered.isPopulated_iff found listed' arm' received).1 populated)
    obtain ⟨member', there⟩ := mem_sentTo.1 sent
    have same := fits.together choice first member second member'
    rw [here, there, Option.some.injEq] at same
    exact same.symm

/-- A round is over for a child just when the child does not fit in with those that
it has received. -/
theorem isRoundOver_iff (lowered : graph.Lowered allowed root)
    (found : graph.record? id = some item)
    (distributes : graph.Distributes zone item run slots)
    (fits : graph.FitsRound item run)
    (accepted : ∀ other ∈ run, graph.Accepts other.name item) {route : Route}
    (goes : graph.Goes child.name item route) :
    graph.isRoundOver item slots route.index = true ↔
      ¬ graph.FitsRound item (run ++ [child]) := by
  have routed := (lowered.route?_eq_iff found).2 (.named goes)
  obtain ⟨field, listed, arm⟩ := goes.exists_arm
  have received := distributes.receives listed (isForChildren_of_isArm arm)
  rw [isRoundOver, fitsRound_concat_iff routed]
  simp only [Bool.or_eq_true, Bool.and_eq_true, Bool.not_eq_true', beq_iff_eq,
    List.any_eq_true, bne_iff_ne, Prod.exists, List.mk_mem_zipIdx_iff_getElem?]
  constructor
  · rintro ended ⟨_, free, together⟩
    rcases ended with ⟨single, taken⟩ | ⟨choice, other, index, listed', differs⟩
    · exact (lowered.isSome_iff found listed arm single received).1 taken
        (free single)
    · obtain ⟨⟨differs, arm'⟩, populated⟩ := differs
      have received' :=
        distributes.receives listed' (isForChildren_of_isArm arm')
      obtain ⟨sent, member⟩ := List.exists_mem_of_ne_nil _
        ((lowered.isPopulated_iff found listed' arm' received').1 populated)
      obtain ⟨member, here⟩ := mem_sentTo.1 member
      rw [together choice sent member, Option.some.injEq] at here
      exact differs here.symm
  · intro misfit
    by_contra going
    push Not at going
    obtain ⟨free, apart⟩ := going
    refine misfit ⟨fits, ?_, ?_⟩
    · intro single
      by_contra taken
      exact free single ((lowered.isSome_iff found listed arm single received).2
        taken)
    · intro choice other member
      obtain ⟨route', field', routed', listed', arm'⟩ :=
        lowered.exists_route_of_accepts found (accepted other member)
      rw [routed', Option.map_some, Option.some.injEq]
      by_contra differs
      have received' :=
        distributes.receives listed' (isForChildren_of_isArm arm')
      refine apart choice field' route'.index listed' ⟨differs, arm'⟩ ?_
      refine (lowered.isPopulated_iff found listed' arm' received').2 ?_
      apply List.ne_nil_of_mem
      exact mem_sentTo.2 ⟨member, by rw [routed', Option.map_some]⟩

/-! ## Children are distributed -/

/-- The round that a child goes to, with the rounds in front of it, divides what was
sent to the group and the child. -/
theorem exists_currentRound (lowered : graph.Lowered allowed root)
    (found : graph.record? id = some item)
    {rounds : List (List Element × Slots)}
    (divides : Divides (graph.FitsRound item) children (rounds.map (·.1)))
    (each : ∀ round ∈ rounds, graph.Distributes zone item round.1 round.2)
    (accepted : ∀ other ∈ children, graph.Accepts other.name item) {route : Route}
    (goes : graph.Goes child.name item route) :
    ∃ (before : List (List Element × Slots)) (run : List Element) (held : Slots),
      graph.currentRound item route.index
          (rounds.map fun round => .record round.2) =
        (before.map fun round => .record round.2, held) ∧
      (∀ round ∈ before, graph.Distributes zone item round.1 round.2) ∧
      graph.Distributes zone item run held ∧
      Divides (graph.FitsRound item) (children ++ [child])
        (before.map (·.1) ++ [run ++ [child]]) := by
  have inherits := inherits_fitsRound graph item
  have alone := fitsRound_singleton graph item child
  have fresh := lowered.distributes_emptySlots found zone
  rcases List.eq_nil_or_concat' rounds with rfl | ⟨before, ⟨run, held⟩, rfl⟩
  · exact ⟨[], [], _, rfl, each, fresh, divides.begin inherits alone (by simp)⟩
  · obtain ⟨eachBefore, eachLast⟩ := List.forall_mem_append.1 each
    have distributes := eachLast _ List.mem_cons_self
    rw [List.map_append, List.map_singleton] at divides
    have member : run ∈ before.map (·.1) ++ [run] := List.mem_concat_self
    have ends_iff := lowered.isRoundOver_iff found distributes
      (divides.fit run member)
      (by
        intro other within
        rw [← divides.whole] at accepted
        exact accepted other (List.mem_flatten.2 ⟨run, member, within⟩)) goes
    rw [currentRound, List.map_append, List.map_singleton,
      List.getLast?_concat]
    dsimp only
    split
    · next isOver =>
        refine ⟨before ++ [(run, held)], [], _, by simp, each, fresh, ?_⟩
        rw [List.map_append, List.map_singleton]
        refine divides.begin inherits alone ?_
        rw [List.getLast?_concat]
        rintro _ ⟨⟩
        exact ends_iff.1 isOver
    · next goesOn =>
        refine ⟨before, run, held, by simp, eachBefore, distributes, ?_⟩
        apply divides.extend inherits
        exact not_not.1 fun misfit => goesOn (ends_iff.2 misfit)

/-- A child that is put into the slot of a field for its element is received there. -/
theorem receives_field (lowered : graph.Lowered allowed root)
    (found : graph.record? id = some record) {index : Nat} {field : Field}
    (listed : record.fields[index]? = some field)
    (origin : field.origin = .element name)
    (receives : graph.Receives zone field children (slots.get? index))
    (placing : graph.place (graph.childOf zone child) record (.field index)
      slots = .ok next) :
    ∃ value, next = slots.put index value ∧
      graph.Receives zone field (children ++ [child]) (some value) := by
  have holds := lowered.holds found listed
  rw [origin] at holds
  have same := lowered.convert_elementType holds zone child
  rcases place_field_eq_ok listed placing with
    ⟨item, value, array, converted', rfl⟩ | ⟨single, free, value, converted, rfl⟩
  · obtain ⟨values, held, converted⟩ := receives.exists_items origin array
    refine ⟨_, Slots.putItem_of_get? held value, .items origin array ?_⟩
    refine List.rel_append converted (.cons ?_ .nil)
    rw [same, Value.itemNode, array]
    exact converted'
  · rcases receives.cases_single origin single with ⟨rfl, _⟩ | ⟨_, _, _, taken, _⟩
    · refine ⟨value, rfl, .one origin single ?_⟩
      rwa [same, itemNode_eq_self single]
    · cases free.symm.trans taken

/-- Rounds that divide children and distribute them are what a group receives. -/
theorem receives_rounds (lowered : graph.Lowered allowed root)
    (found : graph.record? id = some item) {field : Field}
    (isGroup : graph.groupItem? field = some item)
    {rounds : List (List Element × Slots)}
    (divides : Divides (graph.FitsRound item) children (rounds.map (·.1)))
    (each : ∀ round ∈ rounds, graph.Distributes zone item round.1 round.2)
    (accepted : ∀ child ∈ children, graph.Accepts child.name item) :
    graph.Receives zone field children
      (some (.array (rounds.map fun round => .record round.2))) := by
  refine .rounds isGroup divides each ?_
  intro choice round member
  have listed := List.mem_map_of_mem (f := (·.1)) member
  refine lowered.existsUnique_inUse found choice (each round member)
    (divides.fit _ listed) (divides.occupied _ listed) ?_
  intro child within
  rw [← divides.whole] at accepted
  exact accepted child (List.mem_flatten.2 ⟨_, listed, within⟩)

/-- A child that is put into a round of a group is received by the group. -/
theorem receives_group (lowered : graph.Lowered allowed root)
    (found : graph.record? id = some item) {index : Nat} {field : Field}
    {route : Route} (isGroup : graph.groupItem? field = some item)
    (accepted : ∀ other ∈ children, graph.Accepts other.name item)
    (goes : graph.Goes child.name item route)
    (inner : ∀ run held after, graph.Distributes zone item run held →
      graph.place (graph.childOf zone child) item route held = .ok after →
        graph.Distributes zone item (run ++ [child]) after)
    (receives : graph.Receives zone field children (slots.get? index))
    (placing : graph.place (graph.childOf zone child) record
      (.group index item route) slots = .ok next) :
    ∃ value, next = slots.put index value ∧
      graph.Receives zone field (children ++ [child]) (some value) := by
  obtain ⟨rounds, held, divides, each, _⟩ := receives.exists_rounds isGroup
  obtain ⟨before, run, round, current, eachBefore, distributes, divides⟩ :=
    lowered.exists_currentRound found divides each accepted goes
  obtain ⟨_, _, after, current', placed, rfl⟩ := place_group_eq_ok_of_held held placing
  cases current.symm.trans current'
  refine ⟨_, rfl, ?_⟩
  have last := inner run round after distributes placed
  have together : Divides (graph.FitsRound item) (children ++ [child])
      ((before ++ [(run ++ [child], after)]).map (·.1)) := by simpa using divides
  have put := lowered.receives_rounds found isGroup together
    (List.forall_mem_append.2 ⟨eachBefore, by simpa using last⟩)
    (List.forall_mem_append.2 ⟨accepted, by simpa using goes.accepts⟩)
  rwa [List.map_append, List.map_singleton] at put

/-- A child with a field of its own is distributed with the others, by induction on
the groups on its route. -/
theorem distributes_place_of_leads (lowered : graph.Lowered allowed root)
    {route : Route} {field : Field} (leads : graph.Leads record route field)
    (found : graph.record? id = some record)
    (goes : graph.Goes child.name record route)
    (distributes : graph.Distributes zone record children slots)
    (placing : graph.place (graph.childOf zone child) record route slots =
      .ok next) :
    graph.Distributes zone record (children ++ [child]) next := by
  induction leads generalizing id children slots next with
  | @field record index field name listed origin closed =>
      have received := distributes.receives listed (.inl ⟨name, origin⟩)
      obtain ⟨value, rfl, receives⟩ :=
        lowered.receives_field found listed origin received placing
      exact distributes.put ((lowered.route?_eq_iff found).2 (.named goes)) listed
        receives
  | @group record index outer node item rest field listed array rounds _ ih =>
      have group := origin_of_groupItem? rounds
      obtain ⟨node, _, _, isItem, _⟩ :=
        lowered.round_of_groupItem? found listed rounds
      have received := distributes.receives listed (.inr (.inl group))
      have accepted : ∀ other ∈ graph.sentTo record index children,
          graph.Accepts other.name item := by
        intro other sent
        obtain ⟨_, _, inner⟩ :=
          lowered.exists_rest_of_mem_sentTo found listed rounds sent
        exact inner.accepts
      have routed := (lowered.route?_eq_iff found).2 (.named goes)
      cases goes with
      | group _ _ _ inner =>
          obtain ⟨value, rfl, receives⟩ := lowered.receives_group isItem rounds
            accepted inner (fun _ _ _ => ih isItem inner) received placing
          exact distributes.put routed listed receives

theorem distributes_place (lowered : graph.Lowered allowed root)
    (found : graph.record? id = some record) {route : Route}
    (routed : graph.route? record child.name = some route)
    (distributes : graph.Distributes zone record children slots)
    (placing : graph.place (graph.childOf zone child) record route slots =
      .ok next) :
    graph.Distributes zone record (children ++ [child]) next := by
  rcases lowered.leads_of_route? found routed with
    ⟨_, field, leads, _⟩ | ⟨index, rfl, wildcard⟩
  · cases (lowered.route?_eq_iff found).1 routed with
    | named goes =>
        exact lowered.distributes_place_of_leads leads found goes distributes
          placing
    | wildcard _ _ => cases leads
  · obtain ⟨field, listed, origin, _⟩ :=
      lowered.isTextMap_of_elementWildcard found wildcard
    obtain ⟨entries, held, captures⟩ :=
      (distributes.receives listed (.inr (.inr origin))).exists_entries origin
    rw [place, Slots.putEntry_of_get? held] at placing
    cases placing
    refine distributes.put routed listed (.texts origin ?_)
    rw [List.map_append]
    exact captures.concat _ _

/-- Children that are put into a record one after the other are distributed with
those in front of them. -/
theorem distributes_placeChildren (lowered : graph.Lowered allowed root)
    (found : graph.record? id = some record) {rest : List Element}
    (distributes : graph.Distributes zone record children slots)
    (placing : graph.placeChildren record slots
      (rest.map (graph.childOf zone)) = .ok next) :
    graph.Distributes zone record (children ++ rest) next := by
  induction rest generalizing slots children with
  | nil =>
      cases placing
      rwa [List.append_nil]
  | cons child rest ih =>
      obtain ⟨route, between, routed, first, others⟩ :=
        placeChildren_cons_eq_ok placing
      rw [List.append_cons]
      exact ih (lowered.distributes_place found routed distributes first) others

/-- The slots of a record value hold what the children of its element become. -/
theorem distributes_of_convert (lowered : graph.Lowered allowed root)
    (found : graph.record? id = some record) {element : Element} {value : Value}
    (converted : graph.convert zone id element = .ok value) :
    ∃ slots, value = .record slots ∧
      graph.Distributes zone record element.children slots := by
  obtain ⟨placed, slots, rfl, placing, completes⟩ :=
    lowered.exists_slots_of_convert found converted
  have distributes := lowered.distributes_placeChildren found
    (lowered.distributes_emptySlots found zone) placing
  refine ⟨slots, rfl, distributes.congr completes.length_eq ?_⟩
  intro index field listed forChildren
  exact completes.get?_eq (lowered.indexed found) listed forChildren

end Lowered

end Graph

end XmlRecords
