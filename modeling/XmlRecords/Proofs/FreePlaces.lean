import XmlRecords.Proofs.DeclaredRoutes

/-!
# Free places

The children of an element can be put into a record one after the other, if each
of them has a route and can be converted, and no two of them go to one slot for
one element.  Within the rounds of groups nothing is ever in the way, since a new
round is begun where a slot is taken.
-/

namespace XmlRecords

namespace Graph

variable {graph : Graph} {allowed : QName → Prop} {root id : Nat}
  {record : Record} {zone : Zone}

/-- In the round that a child goes to, the slot for one element is free. -/
theorem get?_currentRound {item : Record} {target : Nat} {field : Field}
    {rounds front : List Value} {round : Slots}
    (listed : item.fields[target]? = some field)
    (single : graph.isArrayField item target = false)
    (closed : ∀ values, graph.node? field.node ≠ some (.map values))
    (current : graph.currentRound item target rounds = (front, round)) :
    round.get? target = none := by
  have fresh : (graph.emptySlots item).get? target = none := by
    rw [get?_emptySlots listed, emptySlot]
    split
    · next node array =>
        exact absurd array ((isArrayField_eq_false_iff listed).1 single node)
    · next values map => exact absurd map (closed values)
    · rfl
  rw [currentRound] at current
  split at current
  · next slots _ =>
      split at current
      · cases current
        exact fresh
      · next going =>
          cases current
          rw [isRoundOver, single, Bool.not_false, Bool.true_and,
            Bool.not_eq_true, Bool.or_eq_false_iff] at going
          simpa using going.1
  · cases current
    exact fresh

/-- A child that can be converted finds a place along its route, if the slot for one
element that the route ends in outside of groups is free. -/
theorem exists_place_of_leads (child : Child) {route : Route} {field : Field}
    {slots : Slots} (leads : graph.Leads record route field)
    (shaped : graph.Shaped record slots)
    (converts : ∃ value,
      child.convert (Value.itemNode graph field.node) = .ok value)
    (free : ∀ index, route = .field index →
      graph.isArrayField record index = false → slots.get? index = none) :
    ∃ next, graph.place child record route slots = .ok next := by
  induction leads generalizing slots with
  | @field record index field name listed origin closed =>
      obtain ⟨value, converted⟩ := converts
      rw [place, listed]
      dsimp only
      cases found : graph.node? field.node with
      | some node =>
          cases node with
          | array item =>
              rw [Value.itemNode, found] at converted
              exact ⟨_, Outcome.map_eq_ok.2 ⟨value, converted, rfl⟩⟩
          | _ =>
              have single : graph.isArrayField record index = false := by
                rw [isArrayField, listed, Option.bind_some, found]
              rw [Value.itemNode, found] at converted
              rw [free index rfl single]
              exact ⟨_, Outcome.map_eq_ok.2 ⟨value, converted, rfl⟩⟩
      | none =>
          have single : graph.isArrayField record index = false := by
            rw [isArrayField, listed, Option.bind_some, found]
          rw [Value.itemNode, found] at converted
          rw [free index rfl single]
          exact ⟨_, Outcome.map_eq_ok.2 ⟨value, converted, rfl⟩⟩
  | @group record index outer node item rest field listed array rounds inner ih =>
      obtain ⟨_, arrays, _, _⟩ := id shaped
      obtain ⟨items, held⟩ := arrays index outer node listed array
      rw [place, held]
      dsimp only
      cases current : graph.currentRound item rest.index items with
      | mk front round =>
          obtain ⟨roundShaped, _, _⟩ :=
            currentRound_eq (shaped.of_mem_items listed rounds held) current
          have placed : ∃ next, graph.place child item rest round = .ok next := by
            apply ih roundShaped converts
            -- Had the slot been taken, another round would have been begun.
            rintro target rfl single
            cases inner with
            | field listed' _ closed =>
                exact get?_currentRound listed' single closed current
          obtain ⟨next, placing⟩ := placed
          exact ⟨_, Outcome.bind_eq_ok.2 ⟨next, placing, rfl⟩⟩

theorem arrivals_eq_nil {route : Route} {children : List Element}
    {emitted : List Emitted}
    (others : ∀ child ∈ children,
      graph.route? record child.name ≠ some route) :
    graph.arrivals record route children emitted = [] := by
  rw [arrivals, List.map_eq_nil_iff, List.filter_eq_nil_iff]
  intro arrived member
  simpa using others arrived.1 (List.of_mem_zip member).1

/-- The child can be put into the record if nothing is in its way. -/
def Finds (graph : Graph) (zone : Zone) (record : Record) (child : Element) :
    Prop :=
  (∃ route field, graph.route? record child.name = some route ∧
    graph.Leads record route field ∧
    ∃ value, graph.convert zone (Value.itemNode graph field.node) child =
      .ok value) ∨
  ∃ index, graph.route? record child.name = some (.wildcard index)

/-- No two of the children go to one slot for one element. -/
def Separate (graph : Graph) (record : Record) (children : List Element) :
    Prop :=
  ∀ name index, graph.route? record name = some (.field index) →
    graph.isArrayField record index = false →
      (children.map (·.name)).count name ≤ 1

/-- The slot for one element that a child goes to is free if no child in front has
its name. -/
theorem Placed.get?_eq_none {slots : Slots} {done rest : List Element}
    {child : Element} {emitted : List Emitted} {index : Nat} {field : Field}
    (placed : graph.Placed zone record slots done emitted)
    (separate : graph.Separate record (done ++ child :: rest))
    (routed : graph.route? record child.name = some (.field index))
    (leads : graph.Leads record (.field index) field)
    (single : graph.isArrayField record index = false) :
    slots.get? index = none := by
  have others : ∀ other ∈ done,
      graph.route? record other.name ≠ some (.field index) := by
    intro other member same
    have name : other.name = child.name := by
      have origin := (origin_of_route? same leads).symm.trans
        (origin_of_route? routed leads)
      simpa using origin
    have once := separate child.name index routed single
    have present : 0 < (done.map (·.name)).count child.name := by
      rw [List.count_pos_iff, ← name]
      exact List.mem_map_of_mem member
    rw [List.map_append, List.map_cons, List.count_append, List.count_cons_self]
      at once
    omega
  have along := placed.along _ _ leads
  rw [arrivals_eq_nil others, valuesAlong, single, if_neg Bool.false_ne_true]
    at along
  exact Option.toList_eq_nil_iff.1 along

/-- Children can be put into a record one after the other, if each of them finds a
place and they do not get in each other's way. -/
theorem Placed.exists_placeChildren (lowered : graph.Lowered allowed root)
    (found : graph.record? id = some record) {slots : Slots}
    {done rest : List Element} {emitted : List Emitted}
    (placed : graph.Placed zone record slots done emitted)
    (finds : ∀ child ∈ rest, graph.Finds zone record child)
    (separate : graph.Separate record (done ++ rest)) :
    ∃ next, graph.placeChildren record slots
      (rest.map (graph.childOf zone)) = .ok next := by
  induction rest generalizing slots done emitted with
  | nil => exact ⟨slots, rfl⟩
  | cons child rest ih =>
      have step : ∃ route between,
          graph.route? record child.name = some route ∧
            graph.place (graph.childOf zone child) record route slots =
              .ok between := by
        rcases finds child List.mem_cons_self with
          ⟨route, field, routed, leads, converts⟩ | ⟨index, routed⟩
        · obtain ⟨between, placing⟩ := exists_place_of_leads
            (graph.childOf zone child) leads placed.shaped converts (by
              rintro index rfl single
              exact placed.get?_eq_none separate routed leads single)
          exact ⟨route, between, routed, placing⟩
        · exact ⟨_, _, routed, rfl⟩
      obtain ⟨route, between, routed, placing⟩ := step
      have first : graph.placeChildren record slots
          ([child].map (graph.childOf zone)) = .ok between := by
        rw [List.map_singleton, placeChildren, childOf, routed]
        exact Outcome.bind_eq_ok.2 ⟨between, placing, rfl⟩
      obtain ⟨all, placed'⟩ := placed.append lowered found first
      obtain ⟨next, others⟩ := ih placed'
        (fun child member => finds child (List.mem_cons_of_mem _ member))
        (by rwa [List.append_assoc, List.singleton_append])
      refine ⟨next, ?_⟩
      rw [List.map_cons, placeChildren, childOf, routed]
      exact Outcome.bind_eq_ok.2 ⟨between, placing, others⟩

theorem exists_placeAttributes_of_each {attributes : List Attribute}
    (each : ∀ a ∈ attributes, a.isMeta = false → ∀ slots,
      ∃ next, graph.placeAttribute zone record slots a = .ok next)
    (slots : Slots) :
    ∃ next, graph.placeAttributes zone record slots attributes = .ok next := by
  induction attributes generalizing slots with
  | nil => exact ⟨slots, rfl⟩
  | cons a rest ih =>
      have later := ih fun a member => each a (List.mem_cons_of_mem _ member)
      rw [placeAttributes]
      split
      · exact later slots
      · next isData =>
          rw [Bool.not_eq_true] at isData
          obtain ⟨between, first⟩ := each a List.mem_cons_self isData slots
          obtain ⟨next, others⟩ := later between
          exact ⟨next, Outcome.bind_eq_ok.2 ⟨between, first, others⟩⟩

end Graph

end XmlRecords
