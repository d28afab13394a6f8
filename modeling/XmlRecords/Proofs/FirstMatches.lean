import XmlRecords.Proofs.DeclaredRoutes

/-!
# First matches

A child goes to the first field for an element of its name; where there is none,
into the first repeated group whose rounds accept the name; and where there is no
such group either, to the first wildcard.  The search for a route is bounded, and
it finds just this.
-/

namespace XmlRecords

/-- The field at a place is the first of which something is true. -/
structure IsFirst (good : Field → Prop) (fields : List Field) (index : Nat)
    (field : Field) : Prop where
  listed : fields[index]? = some field
  holds : good field
  before : ∀ other ∈ fields.take index, ¬ good other

namespace IsFirst

variable {good good' : Field → Prop} {fields : List Field} {index other : Nat}
  {field last : Field}

theorem mem (first : IsFirst good fields index field) : field ∈ fields :=
  List.mem_of_getElem? first.listed

theorem zero (holds : good field) : IsFirst good (field :: fields) 0 field where
  listed := rfl
  holds := holds
  before := by simp

theorem succ (first : IsFirst good fields index field) (fails : ¬ good last) :
    IsFirst good (last :: fields) (index + 1) field where
  listed := first.listed
  holds := first.holds
  before := by
    rw [List.take_succ_cons]
    exact List.forall_mem_cons.2 ⟨fails, first.before⟩

theorem congr (first : IsFirst good fields index field)
    (same : ∀ field ∈ fields, good field ↔ good' field) :
    IsFirst good' fields index field where
  listed := first.listed
  holds := (same field first.mem).1 first.holds
  before := by
    intro other member holds
    exact first.before other member
      ((same other (List.mem_of_mem_take member)).2 holds)

theorem le_of_good (first : IsFirst good fields index field)
    (listed : fields[other]? = some last) (holds : good last) : index ≤ other := by
  rcases Nat.lt_or_ge other index with earlier | later
  · refine absurd holds (first.before last ?_)
    exact List.mem_of_getElem? ((List.getElem?_take_of_lt earlier).trans listed)
  · exact later

theorem index_eq (first : IsFirst good fields index field)
    (again : IsFirst good fields other last) : index = other :=
  Nat.le_antisymm (first.le_of_good again.listed again.holds)
    (again.le_of_good first.listed first.holds)

theorem exists_of_findIdx? {origin : Origin}
    (found : fields.findIdx? (·.origin == origin) = some index) :
    ∃ field, IsFirst (·.origin = origin) fields index field := by
  induction fields generalizing index with
  | nil => cases found
  | cons field rest ih =>
      by_cases here : field.origin = origin
      · simp [List.findIdx?_cons, here] at found
        subst found
        exact ⟨field, .zero here⟩
      · simp only [List.findIdx?_cons, beq_eq_false_iff_ne.2 here,
          Bool.false_eq_true, if_false, Option.map_eq_some_iff] at found
        obtain ⟨index, found, rfl⟩ := found
        obtain ⟨last, first⟩ := ih found
        exact ⟨last, first.succ here⟩

end IsFirst

namespace Graph

/-- The record has a field for an element of the name, or a group whose rounds
accept it. -/
inductive Accepts (graph : Graph) (name : QName) : Record → Prop where
  | field {record : Record} {field : Field} (member : field ∈ record.fields)
      (origin : field.origin = .element name) : Accepts graph name record
  | group {record item : Record} {field : Field} (member : field ∈ record.fields)
      (rounds : graph.groupItem? field = some item)
      (inner : Accepts graph name item) : Accepts graph name record

/-- The field is for a group whose rounds accept the name. -/
def LeadsOn (graph : Graph) (name : QName) (field : Field) : Prop :=
  ∃ item, graph.groupItem? field = some item ∧ graph.Accepts name item

/-- A name goes to the first field for an element of that name, or else into the
first group whose rounds accept it and there on in the same way. -/
inductive Goes (graph : Graph) (name : QName) : Record → Route → Prop where
  | field {record : Record} {index : Nat} {field : Field}
      (first : IsFirst (·.origin = .element name) record.fields index field) :
      Goes graph name record (.field index)
  | group {record item : Record} {index : Nat} {field : Field} {rest : Route}
      (unnamed : ∀ field ∈ record.fields, field.origin ≠ .element name)
      (first : IsFirst (graph.LeadsOn name) record.fields index field)
      (rounds : graph.groupItem? field = some item)
      (inner : Goes graph name item rest) :
      Goes graph name record (.group index item rest)

/-- How a record sorts children of a name: by the first match, or else to the first
wildcard.  Without either they are not matched. -/
inductive Sorts (graph : Graph) (record : Record) (name : QName) :
    Option Route → Prop where
  | named {route : Route} (goes : graph.Goes name record route) :
      Sorts graph record name (some route)
  | wildcard {index : Nat} {field : Field} (refused : ¬ graph.Accepts name record)
      (first : IsFirst (·.origin = .elementWildcard) record.fields index field) :
      Sorts graph record name (some (.wildcard index))
  | unmatched (refused : ¬ graph.Accepts name record)
      (closed : ∀ field ∈ record.fields, field.origin ≠ .elementWildcard) :
      Sorts graph record name none

variable {graph : Graph} {allowed : QName → Prop} {root id : Nat}
  {record : Record} {name : QName}

theorem Goes.accepts {route : Route} (goes : graph.Goes name record route) :
    graph.Accepts name record := by
  induction goes with
  | field first => exact .field first.mem first.holds
  | group _ first rounds _ ih => exact .group first.mem rounds ih

theorem Goes.eq {route other : Route} (goes : graph.Goes name record route)
    (again : graph.Goes name record other) : route = other := by
  induction goes generalizing other with
  | field first =>
      cases again with
      | field first' => rw [first.index_eq first']
      | group unnamed => exact absurd first.holds (unnamed _ first.mem)
  | group unnamed first rounds inner ih =>
      cases again with
      | field first' => exact absurd first'.holds (unnamed _ first'.mem)
      | group _ first' rounds' inner' =>
          obtain rfl := first.index_eq first'
          cases first.listed.symm.trans first'.listed
          cases rounds.symm.trans rounds'
          rw [ih inner']

theorem Sorts.eq {route other : Option Route}
    (sorts : graph.Sorts record name route)
    (again : graph.Sorts record name other) : route = other := by
  cases sorts with
  | named goes =>
      cases again with
      | named goes' => rw [goes.eq goes']
      | wildcard refused => exact absurd goes.accepts refused
      | unmatched refused => exact absurd goes.accepts refused
  | wildcard refused first =>
      cases again with
      | named goes' => exact absurd goes'.accepts refused
      | wildcard _ first' => rw [first.index_eq first']
      | unmatched _ closed => exact absurd first.holds (closed _ first.mem)
  | unmatched refused closed =>
      cases again with
      | named goes' => exact absurd goes'.accepts refused
      | wildcard _ first' => exact absurd first'.holds (closed _ first'.mem)
      | unmatched => rfl

/-- The search among groups finds the first through which it goes on. -/
theorem groupRoute?_cases (graph : Graph) (next : Record → Option Route)
    (place : Nat) (fields : List Field) :
    (∃ index field item rest,
      IsFirst (fun field => ∃ item, graph.groupItem? field = some item ∧
        (next item).isSome) fields index field ∧
      graph.groupItem? field = some item ∧ next item = some rest ∧
      graph.groupRoute? next place fields =
        some (.group (place + index) item rest)) ∨
    (graph.groupRoute? next place fields = none ∧
      ∀ field ∈ fields, ∀ item, graph.groupItem? field = some item →
        next item = none) := by
  induction fields generalizing place with
  | nil => exact .inr ⟨rfl, by simp⟩
  | cons field rest ih =>
      have later : (∀ item, graph.groupItem? field = some item →
          next item = none) → graph.groupRoute? next place (field :: rest) =
            graph.groupRoute? next (place + 1) rest := by
        intro fails
        rw [groupRoute?]
        cases isGroup : graph.groupItem? field with
        | none => rfl
        | some item => simp only [fails item isGroup]
      by_cases fails : ∀ item, graph.groupItem? field = some item →
          next item = none
      · rw [later fails]
        rcases ih (place + 1) with
          ⟨index, last, item, route, first, rounds, leads, found⟩ | ⟨none, all⟩
        · refine .inl ⟨index + 1, last, item, route, first.succ ?_, rounds, leads, ?_⟩
          · rintro ⟨item, isGroup, leads⟩
            rw [fails item isGroup] at leads
            cases leads
          · rw [found, Nat.add_assoc, Nat.add_comm 1]
        · exact .inr ⟨none, List.forall_mem_cons.2 ⟨fails, all⟩⟩
      · push Not at fails
        obtain ⟨item, isGroup, leads⟩ := fails
        obtain ⟨route, leads⟩ := Option.ne_none_iff_exists'.1 leads
        refine .inl ⟨0, field, item, route, .zero ⟨item, isGroup, ?_⟩, isGroup,
          leads, ?_⟩
        · rw [leads]
          rfl
        · simp only [groupRoute?, isGroup, leads, Nat.add_zero]

namespace Lowered

/-- The bounded search for a name ends where the name goes. -/
theorem goes_or_refused (lowered : graph.Lowered allowed root) (name : QName)
    {fuel : Nat} (found : graph.record? id = some record)
    (enough : graph.nodes.size - id < fuel) :
    (∃ route, graph.namedRoute? name fuel record = some route ∧
      graph.Goes name record route) ∨
    (graph.namedRoute? name fuel record = none ∧
      ¬ graph.Accepts name record) := by
  induction fuel generalizing id record with
  | zero => exact absurd enough (Nat.not_lt_zero _)
  | succ fuel ih =>
      rw [namedRoute?]
      cases named : record.elementField? name with
      | some index =>
          obtain ⟨field, first⟩ := IsFirst.exists_of_findIdx? named
          exact .inl ⟨_, rfl, .field first⟩
      | none =>
          have unnamed : ∀ field ∈ record.fields,
              field.origin ≠ .element name := by
            intro field member
            simpa using List.findIdx?_eq_none_iff.1 named field member
          -- The rounds of a group come behind, so the search is bounded.
          have rounds : ∀ field ∈ record.fields, ∀ item,
              graph.groupItem? field = some item →
                (∃ route, graph.namedRoute? name fuel item = some route ∧
                  graph.Goes name item route) ∨
                (graph.namedRoute? name fuel item = none ∧
                  ¬ graph.Accepts name item) := by
            intro field member item isGroup
            obtain ⟨node, _, _, isItem, behind⟩ :=
              lowered.exists_round_of_groupItem? found member isGroup
            have inside := lt_size_of_node? (record?_eq_some_iff.1 isItem)
            exact ih isItem (by omega)
          rcases groupRoute?_cases graph (graph.namedRoute? name fuel) 0
            record.fields with
            ⟨index, field, item, rest, first, isGroup, leads, same⟩ | ⟨same, all⟩
          · refine .inl ⟨.group index item rest, by simpa using same, ?_⟩
            refine .group unnamed (first.congr ?_) isGroup ?_
            · intro field member
              apply exists_congr
              intro item
              apply and_congr_right
              intro isGroup
              rcases rounds field member item isGroup with
                ⟨route, leads, goes⟩ | ⟨fails, refused⟩
              · simp [leads, goes.accepts]
              · simp [fails, refused]
            · rcases rounds field first.mem item isGroup with
                ⟨route, leads', goes⟩ | ⟨fails, _⟩
              · cases leads.symm.trans leads'
                exact goes
              · cases leads.symm.trans fails
          · refine .inr ⟨same, ?_⟩
            intro accepts
            cases accepts with
            | field member origin => exact unnamed _ member origin
            | group member isGroup inner =>
                rcases rounds _ member _ isGroup with
                  ⟨route, leads, _⟩ | ⟨_, refused⟩
                · cases leads.symm.trans (all _ member _ isGroup)
                · exact refused inner

/-- Routes are by the first match. -/
theorem sorts_route? (lowered : graph.Lowered allowed root)
    (found : graph.record? id = some record) (name : QName) :
    graph.Sorts record name (graph.route? record name) := by
  have wildcard := (lowered.indexed found).elementWildcard_eq
  rw [route?]
  rcases lowered.goes_or_refused name found
    (Nat.lt_succ_of_le (Nat.sub_le graph.nodes.size id)) with
    ⟨route, named, goes⟩ | ⟨named, refused⟩
  · rw [named]
    exact .named goes
  · rw [named, Option.none_or]
    cases isOpen : record.elementWildcard with
    | some index =>
        obtain ⟨field, first⟩ :=
          IsFirst.exists_of_findIdx? (wildcard.symm.trans isOpen)
        exact .wildcard refused first
    | none =>
        refine .unmatched refused ?_
        intro field member
        rw [isOpen] at wildcard
        simpa using List.findIdx?_eq_none_iff.1 wildcard.symm field member

theorem route?_eq_iff (lowered : graph.Lowered allowed root)
    (found : graph.record? id = some record) {route : Option Route} :
    graph.route? record name = route ↔ graph.Sorts record name route := by
  have sorts := lowered.sorts_route? found name
  constructor
  · rintro rfl
    exact sorts
  · exact sorts.eq

end Lowered

end Graph

end XmlRecords
