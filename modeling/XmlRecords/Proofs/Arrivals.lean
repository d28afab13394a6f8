import XmlRecords.Proofs.Placing
import XmlRecords.Proofs.Searches
import XmlRecords.Transcode.Stream

/-!
# Where children arrive

The children of an element arrive in its record one after the other, each along
its route and with the value that it has by itself.  Attributes and text go to
slots that no route leads to.
-/

namespace XmlRecords

namespace Graph

variable {graph : Graph} {allowed : QName → Prop} {root id : Nat}
  {record : Record}

/-- The children of an element that take a route. -/
def routed (graph : Graph) (record : Record) (route : Route)
    (children : List Element) : List Element :=
  children.filter fun child => graph.route? record child.name = some route

/-- What the children that take a route have become. -/
def arrivals (graph : Graph) (record : Record) (route : Route)
    (children : List Element) (emitted : List Emitted) : List Value :=
  ((children.zip emitted).filter fun arrived =>
    graph.route? record arrived.1.name = some route).map fun arrived =>
      arrived.2.value

/-- The map that children without a field of their own are put into. -/
def openMap (children : List Element) : List (String × String) :=
  Association.ofList
    (children.map fun child => (child.name.name, child.innerMarkup))

/-- A child prepared to be put into a record. -/
def childOf (graph : Graph) (zone : Zone) (element : Element) : Child :=
  ⟨element, fun node => graph.convert zone node element⟩

theorem childrenOf_eq (graph : Graph) (zone : Zone) (content : List Content) :
    graph.childrenOf zone content =
      (content.filterMap Content.element?).map (graph.childOf zone) := by
  induction content with
  | nil => rfl
  | cons item rest ih =>
      rw [childrenOf, ih]
      cases item with
      | text value => rfl
      | element name attributes content => rfl

theorem convert_primitive {kind : Primitive} {logical : Option Logical}
    (found : graph.node? id = some (.primitive kind logical)) (zone : Zone)
    (element : Element) :
    graph.convert zone id element =
      Value.readPrimitive zone kind logical element.text := by
  rw [convert, convertWith, found]

theorem convert_array {item : Nat}
    (found : graph.node? id = some (.array item)) (zone : Zone)
    (element : Element) :
    graph.convert zone id element =
      (element.children.mapM (graph.convert zone item)).map .array := by
  rw [convert, convertWith, found, childrenOf_eq]
  dsimp only
  rw [List.mapM_map]
  rfl

theorem openMap_concat (children : List Element) (child : Element) :
    openMap (children ++ [child]) =
      Association.insert child.name.name child.innerMarkup
        (openMap children) := by
  rw [openMap, Association.ofList, List.map_append, List.foldl_append]
  rfl

/-- A route begins at a field for an element or for a group. -/
theorem Leads.origin {route : Route} {field : Field}
    (leads : graph.Leads record route field) :
    ∃ first, record.fields[route.index]? = some first ∧
      ((∃ name, first.origin = .element name) ∨ first.origin = .group) := by
  cases leads with
  | @field _ _ _ name listed origin closed =>
      exact ⟨field, listed, .inl ⟨name, origin⟩⟩
  | group listed array rounds inner =>
      exact ⟨_, listed, .inr (origin_of_groupItem? rounds)⟩

theorem Leads.index_ne_of_elementWildcard {route : Route} {field other : Field}
    {index : Nat} (leads : graph.Leads record route field)
    (listed : record.fields[index]? = some other)
    (origin : other.origin = .elementWildcard) : route.index ≠ index := by
  rintro rfl
  obtain ⟨first, listed', kind⟩ := leads.origin
  obtain rfl := Option.some.inj (listed.symm.trans listed')
  rcases kind with ⟨name, kind⟩ | kind
  · cases kind.symm.trans origin
  · cases kind.symm.trans origin

theorem convertAlong_eq {route : Route} {field : Field} (zone : Zone)
    (child : Element) (leads : graph.Leads record route field) :
    graph.convertAlong zone child record route =
      (graph.convert zone (graph.elementType field.node) child).map
        (graph.elementType field.node, ·) := by
  induction leads with
  | field listed origin closed => rw [convertAlong, listed]
  | group listed array rounds inner ih => rw [convertAlong, ih]

namespace Lowered

/-- What may be missing is made like what is there. -/
theorem convert_optional (lowered : graph.Lowered allowed root) {inner : Nat}
    (optional : graph.node? id = some (.optional inner)) (zone : Zone)
    (element : Element) :
    graph.convert zone id element = graph.convert zone inner element := by
  have base : graph.IsBase inner := (lowered.fits id _ optional).wraps
  have below := lowered.linked.descends id _ optional rfl inner
    List.mem_cons_self
  have inside := lt_size_of_node? optional
  have low := height_of_isBase base
  have step : graph.convert zone id element = graph.convertWith zone element
      (graph.childrenOf zone element.content) graph.nodes.size inner := by
    rw [convert, convertWith, optional]
  rw [step, convert]
  exact lowered.convertWith_eq zone element _ (by omega) (by omega)

/-- Below all wrappers there is the same to match an element against as below
those for repeated content. -/
theorem convert_elementType (lowered : graph.Lowered allowed root)
    {owner : Nat} {name : QName} (holds : graph.Holds owner (.element name) id)
    (zone : Zone) (child : Element) :
    graph.convert zone (graph.elementType id) child =
      graph.convert zone (Value.itemNode graph id) child := by
  rcases holds with base | ⟨inner, base, array | optional⟩
  · obtain ⟨node, found, plain⟩ := base.exists_node
    have same : Value.itemNode graph id = id := by
      rw [Value.itemNode, found]
      cases node <;> first | rfl | cases plain
    rw [elementType_of_isWrapper_eq_false found plain, same]
  · obtain ⟨node, found, plain⟩ := base.exists_node
    rw [elementType_array lowered.linked array,
      elementType_of_isWrapper_eq_false found plain, Value.itemNode, array]
  · obtain ⟨node, found, plain⟩ := base.exists_node
    rw [elementType_optional lowered.linked optional,
      elementType_of_isWrapper_eq_false found plain, Value.itemNode, optional]
    exact (lowered.convert_optional optional zone child).symm

/-- A field for an element does not hold a map. -/
theorem ne_map_of_holds {owner : Nat} {name : QName}
    (holds : graph.Holds owner (.element name) id) (values : Nat) :
    graph.node? id ≠ some (.map values) := by
  intro map
  rcases holds with base | ⟨inner, _, array | optional⟩
  · obtain ⟨node, found, plain⟩ := base.exists_node
    cases found.symm.trans map
    cases plain
  · cases array.symm.trans map
  · cases optional.symm.trans map

theorem holds (lowered : graph.Lowered allowed root)
    (found : graph.record? id = some record) {index : Nat} {field : Field}
    (listed : record.fields[index]? = some field) :
    graph.Holds id field.origin field.node :=
  (lowered.fits id _ (record?_eq_some_iff.1 found)).holds record rfl field
    (List.mem_of_getElem? listed)

theorem leads_of_groupRoute? (lowered : graph.Lowered allowed root)
    (found : graph.record? id = some record) {name : QName}
    {next : Record → Option Route}
    (inner : ∀ id item, graph.record? id = some item → ∀ route,
      next item = some route → ∃ owner field, graph.Leads item route field ∧
        graph.Holds owner (.element name) field.node)
    {place : Nat} {fields : List Field} {route : Route}
    (suffix : record.fields.drop place = fields)
    (routed : graph.groupRoute? next place fields = some route) :
    ∃ owner field, graph.Leads record route field ∧
      graph.Holds owner (.element name) field.node := by
  induction fields generalizing place with
  | nil => cases routed
  | cons first rest ih =>
      have listed : record.fields[place]? = some first := by
        rw [← List.head?_drop, suffix]
        rfl
      have remaining : record.fields.drop (place + 1) = rest := by
        rw [← List.drop_drop, suffix]
        rfl
      rw [groupRoute?] at routed
      split at routed
      · exact ih remaining routed
      · next item rounds =>
          split at routed
          · next further leadsOn =>
              cases routed
              obtain ⟨node, array, _, isItem, _⟩ :=
                lowered.exists_round_of_groupItem? found
                  (List.mem_of_getElem? listed) rounds
              obtain ⟨owner, field, leads, holds⟩ :=
                inner node item isItem further leadsOn
              exact ⟨owner, field, .group listed array rounds leads, holds⟩
          · exact ih remaining routed

/-- A name that is followed leads to a field for an element of that name. -/
theorem leads_of_namedRoute? (lowered : graph.Lowered allowed root)
    {name : QName} {fuel : Nat} {route : Route}
    (found : graph.record? id = some record)
    (routed : graph.namedRoute? name fuel record = some route) :
    ∃ owner field, graph.Leads record route field ∧
      graph.Holds owner (.element name) field.node := by
  induction fuel generalizing id record route with
  | zero => cases routed
  | succ fuel ih =>
      rw [namedRoute?] at routed
      split at routed
      · next index named =>
          cases routed
          obtain ⟨field, listed, origin⟩ :=
            Record.exists_field_of_findIdx? named
          have holds := lowered.holds found listed
          rw [origin] at holds
          exact ⟨id, field, .field listed origin (ne_map_of_holds holds), holds⟩
      · exact lowered.leads_of_groupRoute? found
          (fun _ _ isItem _ leadsOn => ih isItem leadsOn) List.drop_zero routed

/-- A child takes a route to a field for its name, or goes to the wildcard. -/
theorem leads_of_route? (lowered : graph.Lowered allowed root)
    (found : graph.record? id = some record) {name : QName} {route : Route}
    (routed : graph.route? record name = some route) :
    (∃ owner field, graph.Leads record route field ∧
      graph.Holds owner (.element name) field.node) ∨
    ∃ index, route = .wildcard index ∧ record.elementWildcard = some index := by
  rw [route?, Option.or_eq_some_iff] at routed
  rcases routed with routed | ⟨_, routed⟩
  · exact .inl (lowered.leads_of_namedRoute? found routed)
  · obtain ⟨index, wildcard, rfl⟩ := Option.map_eq_some_iff.1 routed
    exact .inr ⟨index, rfl, wildcard⟩

theorem isTextMap_of_elementWildcard (lowered : graph.Lowered allowed root)
    (found : graph.record? id = some record) {index : Nat}
    (wildcard : record.elementWildcard = some index) :
    ∃ field, record.fields[index]? = some field ∧
      field.origin = .elementWildcard ∧ graph.IsTextMap field.node := by
  obtain ⟨field, listed, origin⟩ := Record.exists_field_of_findIdx?
    ((lowered.indexed found).elementWildcard_eq.symm.trans wildcard)
  have holds := lowered.holds found listed
  rw [origin] at holds
  exact ⟨field, listed, origin, holds⟩

end Lowered

theorem routed_concat (route : Route) (children : List Element)
    (child : Element) :
    graph.routed record route (children ++ [child]) =
      graph.routed record route children ++
        if graph.route? record child.name = some route then [child] else [] := by
  rw [routed, routed, List.filter_append, List.filter_singleton]
  by_cases here : graph.route? record child.name = some route
  · simp [here]
  · simp [here]

theorem arrivals_cons {route : Route} (child : Element) (one : Emitted)
    (children : List Element) (emitted : List Emitted) :
    graph.arrivals record route (child :: children) (one :: emitted) =
      (if graph.route? record child.name = some route then [one.value]
        else []) ++ graph.arrivals record route children emitted := by
  rw [arrivals, arrivals, List.zip_cons_cons, List.filter_cons]
  by_cases here : graph.route? record child.name = some route
  · simp [here]
  · simp [here]

theorem arrivals_concat {route : Route} {children : List Element}
    {emitted : List Emitted} (together : children.length = emitted.length)
    (child : Element) (one : Emitted) :
    graph.arrivals record route (children ++ [child]) (emitted ++ [one]) =
      graph.arrivals record route children emitted ++
        if graph.route? record child.name = some route then [one.value]
        else [] := by
  have last : graph.arrivals record route [child] [one] =
      (if graph.route? record child.name = some route then [one.value]
        else []) ++ [] := arrivals_cons child one [] []
  rw [List.append_nil] at last
  rw [← last, arrivals, List.zip_append together, List.filter_append,
    List.map_append]
  rfl

/-- The children of an element have been put into the slots of its record. -/
structure Placed (graph : Graph) (zone : Zone) (record : Record) (slots : Slots)
    (children : List Element) (emitted : List Emitted) : Prop where
  shaped : graph.Shaped record slots
  converted : List.Forall₂ (fun child one => ∃ route,
    graph.route? record child.name = some route ∧
      graph.convertAlong zone child record route = .ok (one.node, one.value))
    children emitted
  along : ∀ route field, graph.Leads record route field →
    graph.valuesAlong record route slots =
      graph.arrivals record route children emitted
  rest : ∀ index, record.elementWildcard = some index →
    slots.get? index =
      some (.map (openMap (graph.routed record (.wildcard index) children)))

namespace Placed

variable {zone : Zone} {slots next : Slots} {children : List Element}
  {emitted : List Emitted} {child : Element}

theorem start (lowered : graph.Lowered allowed root)
    (found : graph.record? id = some record) (zone : Zone) :
    graph.Placed zone record (graph.emptySlots record) [] [] where
  shaped := shaped_emptySlots record
  converted := .nil
  along := fun route field leads => valuesAlong_emptySlots leads
  rest := by
    intro index wildcard
    obtain ⟨field, listed, _, values, map, _⟩ :=
      lowered.isTextMap_of_elementWildcard found wildcard
    rw [get?_emptySlots listed, emptySlot, map]
    rfl

/-- A child with a field of its own is put behind the others. -/
theorem concat_leads (placed : graph.Placed zone record slots children emitted)
    (lowered : graph.Lowered allowed root)
    (found : graph.record? id = some record) {route : Route} {owner : Nat}
    {field : Field} (routed : graph.route? record child.name = some route)
    (leads : graph.Leads record route field)
    (holds : graph.Holds owner (.element child.name) field.node)
    (placing : graph.place (graph.childOf zone child) record route slots =
      .ok next) :
    ∃ one, graph.Placed zone record next (children ++ [child])
      (emitted ++ [one]) := by
  obtain ⟨value, converted, arrives⟩ :=
    place_arrives leads placed.shaped placing
  have length := placed.converted.length_eq
  refine ⟨⟨graph.elementType field.node, value⟩, arrives.shaped, ?_, ?_, ?_⟩
  · refine List.rel_append placed.converted (.cons ⟨route, routed, ?_⟩ .nil)
    rw [convertAlong_eq zone child leads, lowered.convert_elementType holds]
    exact Outcome.map_eq_ok.2 ⟨value, converted, rfl⟩
  · intro other last leadsOther
    rw [arrivals_concat length, routed, ← placed.along other last leadsOther]
    by_cases same : route = other
    · subst same
      rw [if_pos rfl, arrives.own]
    · rw [if_neg (by simpa using same), List.append_nil]
      exact arrives.others other last leadsOther (Ne.symm same)
  · intro index wildcard
    obtain ⟨other, listed, origin, _⟩ :=
      lowered.isTextMap_of_elementWildcard found wildcard
    have apart := leads.index_ne_of_elementWildcard listed origin
    have different : ¬ route = .wildcard index := by
      rintro rfl
      exact apart rfl
    rw [arrives.apart index apart.symm, placed.rest index wildcard,
      routed_concat, routed, if_neg (by simpa using different),
      List.append_nil]

/-- A child without a field of its own is put into the map behind the others. -/
theorem concat_wildcard
    (placed : graph.Placed zone record slots children emitted)
    (lowered : graph.Lowered allowed root)
    (found : graph.record? id = some record) {index : Nat}
    (routed : graph.route? record child.name = some (.wildcard index))
    (wildcard : record.elementWildcard = some index)
    (placing : graph.place (graph.childOf zone child) record (.wildcard index)
      slots = .ok next) :
    ∃ one, graph.Placed zone record next (children ++ [child])
      (emitted ++ [one]) := by
  obtain ⟨field, listed, origin, values, map, _⟩ :=
    lowered.isTextMap_of_elementWildcard found wildcard
  have held := placed.rest index wildcard
  have inside : index < slots.length := Slots.lt_length_of_get? held
  have length := placed.converted.length_eq
  have filled : next = slots.put index (.map (openMap
      (graph.routed record (.wildcard index) children ++ [child]))) := by
    rw [place, Slots.putEntry_of_get? held] at placing
    cases placing
    rw [openMap_concat]
    rfl
  subst filled
  refine ⟨⟨values, .string child.innerMarkup⟩, ?_, ?_, ?_, ?_⟩
  · apply placed.shaped.put listed
    · intro item array
      cases map.symm.trans array
    · intro item rounds
      cases (origin_of_groupItem? rounds).symm.trans origin
  · refine List.rel_append placed.converted (.cons ⟨_, routed, ?_⟩ .nil)
    rw [convertAlong, listed, Option.bind_some, map]
  · intro other last leadsOther
    have apart := leadsOther.index_ne_of_elementWildcard listed origin
    have different : ¬ Route.wildcard index = other := by
      rintro rfl
      exact apart rfl
    rw [arrivals_concat length, routed, ← placed.along other last leadsOther,
      if_neg (by simpa using different), List.append_nil]
    exact valuesAlong_congr (Slots.get?_put_of_ne apart slots _)
  · intro other wildcard'
    obtain rfl := Option.some.inj (wildcard.symm.trans wildcard')
    rw [Slots.get?_put inside, routed_concat, routed, if_pos rfl]

/-- Children are put into a record one behind the other. -/
theorem append (placed : graph.Placed zone record slots children emitted)
    (lowered : graph.Lowered allowed root)
    (found : graph.record? id = some record) {rest : List Element}
    (placing : graph.placeChildren record slots (rest.map (graph.childOf zone)) =
      .ok next) :
    ∃ all, graph.Placed zone record next (children ++ rest) all := by
  induction rest generalizing slots children emitted with
  | nil =>
      cases placing
      rw [List.append_nil]
      exact ⟨emitted, placed⟩
  | cons child rest ih =>
      obtain ⟨route, between, routed, first, others⟩ :=
        placeChildren_cons_eq_ok placing
      replace routed : graph.route? record child.name = some route := routed
      have step : ∃ one, graph.Placed zone record between
          (children ++ [child]) (emitted ++ [one]) := by
        rcases lowered.leads_of_route? found routed with
          ⟨owner, field, leads, holds⟩ | ⟨index, rfl, wildcard⟩
        · exact placed.concat_leads lowered found routed leads holds first
        · exact placed.concat_wildcard lowered found routed wildcard first
      obtain ⟨one, placed'⟩ := step
      rw [List.append_cons]
      exact ih placed' others

end Placed

end Graph

end XmlRecords
