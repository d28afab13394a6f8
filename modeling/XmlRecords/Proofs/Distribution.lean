import XmlRecords.Proofs.Divisions
import XmlRecords.Proofs.FirstMatches
import XmlRecords.Proofs.Matching

/-!
# How children are distributed

The children of an element are distributed among the fields of a record: each
field receives those that are sent to it, in the order of the document.  A field
for one element receives at most one of them, an array receives all of them, and a
wildcard keeps their markup.  What a repeated group receives is divided into
rounds, and each round distributes its part among the fields of its own record.  A
round of a choice has one field in use.
-/

namespace XmlRecords

/-- What a map holds of entries that came one after the other: each key is in the
place at which it first came, with the text that came last. -/
structure Captures (captured entries : List (String × String)) : Prop where
  keys : entries.map (·.1) = (captured.map (·.1)).eraseDups
  texts : ∀ key, entries.lookup key = captured.reverse.lookup key

namespace Captures

theorem nil : Captures [] [] where
  keys := rfl
  texts := fun _ => rfl

theorem concat {captured entries : List (String × String)}
    (captures : Captures captured entries) (key text : String) :
    Captures (captured ++ [(key, text)])
      (Association.insert key text entries) where
  keys := by
    rw [Association.keys_insert, captures.keys, List.map_append,
      List.eraseDups_append]
    by_cases known : key ∈ captured.map (·.1)
    · simp_all [List.removeAll]
    · simp_all [List.removeAll, List.eraseDups_cons]
  texts := by
    intro other
    rw [Association.lookup_insert, captures.texts, List.reverse_append,
      List.reverse_singleton, List.singleton_append, List.lookup_cons]
    by_cases here : other = key
    · simp [here]
    · rw [if_neg here, beq_false_of_ne here]

end Captures

namespace Graph

/-- The children that are sent to the field at a place. -/
def sentTo (graph : Graph) (record : Record) (index : Nat)
    (children : List Element) : List Element :=
  children.filter fun child =>
    (graph.route? record child.name).map Route.index = some index

/-- The children can be together in one round: none of its fields for one element
is sent two, and in a choice all of them are sent to one field. -/
structure FitsRound (graph : Graph) (item : Record) (children : List Element) :
    Prop where
  single : ∀ index, graph.isArrayField item index = false →
    (graph.sentTo item index children).length ≤ 1
  together : item.source = .group .choice →
    ∀ child ∈ children, ∀ other ∈ children,
      (graph.route? item child.name).map Route.index =
        (graph.route? item other.name).map Route.index

/-- The slot is one that the children of a choice compete for, and it is in use. -/
def InUse (item : Record) (slots : Slots) (index : Nat) : Prop :=
  ∃ field, item.fields[index]? = some field ∧ isArm field = true ∧
    slots.isPopulated index = true

mutual

/-- The slots hold what the children become: every child has a route, and each slot
for children holds what its field receives. -/
inductive Distributes (graph : Graph) (zone : Zone) :
    Record → List Element → Slots → Prop where
  | mk {record : Record} {children : List Element} {slots : Slots}
      (length : slots.length = record.fields.length)
      (matched : ∀ child ∈ children, graph.route? record child.name ≠ none)
      (receives : ∀ (index : Nat) (field : Field),
        record.fields[index]? = some field → IsForChildren field →
          Receives graph zone field (graph.sentTo record index children)
            (slots.get? index)) :
      Distributes graph zone record children slots

/-- A field receives children. -/
inductive Receives (graph : Graph) (zone : Zone) :
    Field → List Element → Option Value → Prop where
  | missing {field : Field} {name : QName}
      (origin : field.origin = .element name)
      (single : ∀ item, graph.node? field.node ≠ some (.array item)) :
      Receives graph zone field [] none
  | one {field : Field} {name : QName} {child : Element} {value : Value}
      (origin : field.origin = .element name)
      (single : ∀ item, graph.node? field.node ≠ some (.array item))
      (converted : graph.convert zone (graph.elementType field.node) child =
        .ok value) :
      Receives graph zone field [child] (some value)
  | items {field : Field} {name : QName} {item : Nat} {children : List Element}
      {values : List Value} (origin : field.origin = .element name)
      (array : graph.node? field.node = some (.array item))
      (converted : List.Forall₂ (fun child value =>
        graph.convert zone (graph.elementType field.node) child = .ok value)
        children values) :
      Receives graph zone field children (some (.array values))
  | rounds {field : Field} {item : Record} {children : List Element}
      {rounds : List (List Element × Slots)}
      (isGroup : graph.groupItem? field = some item)
      (divides : Divides (graph.FitsRound item) children (rounds.map (·.1)))
      (each : ∀ round ∈ rounds, Distributes graph zone item round.1 round.2)
      (exclusive : item.source = .group .choice →
        ∀ round ∈ rounds, ∃! index, InUse item round.2 index) :
      Receives graph zone field children
        (some (.array (rounds.map fun round => .record round.2)))
  | texts {field : Field} {children : List Element}
      {entries : List (String × String)} (origin : field.origin = .elementWildcard)
      (captures : Captures
        (children.map fun child => (child.name.name, child.innerMarkup)) entries) :
      Receives graph zone field children (some (.map entries))

end

variable {graph : Graph} {allowed : QName → Prop} {root id : Nat}
  {record item : Record} {zone : Zone} {slots next : Slots}
  {children run : List Element} {child : Element}

theorem sentTo_concat (record : Record) (index : Nat) (children : List Element)
    (child : Element) :
    graph.sentTo record index (children ++ [child]) =
      graph.sentTo record index children ++
        if (graph.route? record child.name).map Route.index = some index
        then [child] else [] := by
  rw [sentTo, sentTo, List.filter_append, List.filter_singleton]
  by_cases here :
      (graph.route? record child.name).map Route.index = some index
  · simp [here]
  · simp [here]

theorem mem_sentTo {index : Nat} :
    child ∈ graph.sentTo record index children ↔ child ∈ children ∧
      (graph.route? record child.name).map Route.index = some index := by
  rw [sentTo, List.mem_filter, decide_eq_true_eq]

/-! ## What fits into a round -/

theorem inherits_fitsRound (graph : Graph) (item : Record) :
    Divides.Inherits (graph.FitsRound item) := by
  intro short long part fits
  constructor
  · intro index single
    exact (part.filter _).length_le.trans (fits.single index single)
  · intro choice child member other member'
    exact fits.together choice child (part.subset member) other
      (part.subset member')

theorem fitsRound_singleton (graph : Graph) (item : Record) (child : Element) :
    graph.FitsRound item [child] where
  single := fun _ _ => List.length_filter_le ..
  together := by
    rintro _ _ (_ | _) _ (_ | _)
    · rfl
    all_goals contradiction

/-- A child fits in with others if its field has room for it and, in a choice, all
others are in that field. -/
theorem fitsRound_concat_iff {route : Route}
    (routed : graph.route? item child.name = some route) :
    graph.FitsRound item (run ++ [child]) ↔ graph.FitsRound item run ∧
      (graph.isArrayField item route.index = false →
        graph.sentTo item route.index run = []) ∧
      (item.source = .group .choice → ∀ other ∈ run,
        (graph.route? item other.name).map Route.index = some route.index) := by
  constructor
  · intro fits
    refine ⟨inherits_fitsRound graph item _ _
      (List.sublist_append_left run [child]) fits, ?_, ?_⟩
    · intro single
      have few := fits.single route.index single
      rw [sentTo_concat, routed, Option.map_some, if_pos rfl,
        List.length_append, List.length_singleton] at few
      exact List.length_eq_zero_iff.1 (by omega)
    · intro choice other member
      have same := fits.together choice other (List.mem_append_left _ member)
        child List.mem_concat_self
      rwa [routed, Option.map_some] at same
  · rintro ⟨fits, free, together⟩
    constructor
    · intro index single
      rw [sentTo_concat, routed, Option.map_some]
      by_cases here : some route.index = some index
      · cases here
        rw [if_pos rfl, free single]
        exact Nat.le_refl 1
      · rw [if_neg here, List.append_nil]
        exact fits.single index single
    · intro choice
      have all : ∀ other ∈ run ++ [child],
          (graph.route? item other.name).map Route.index =
            some route.index := by
        apply List.forall_mem_append.2 ⟨together choice, ?_⟩
        intro other member
        rw [List.mem_singleton.1 member, routed, Option.map_some]
      intro first member second member'
      rw [all first member, all second member']

/-! ## What each kind of field holds -/

namespace Receives

variable {field : Field} {name : QName} {held : Option Value}

/-- A field for one element is not set, or holds what the only child has become. -/
theorem cases_single (receives : graph.Receives zone field children held)
    (origin : field.origin = .element name)
    (single : ∀ item, graph.node? field.node ≠ some (.array item)) :
    (children = [] ∧ held = none) ∨ ∃ child value,
      children = [child] ∧ held = some value ∧
        graph.convert zone (graph.elementType field.node) child = .ok value := by
  cases receives with
  | missing _ _ => exact .inl ⟨rfl, rfl⟩
  | one _ _ converted => exact .inr ⟨_, _, rfl, rfl, converted⟩
  | items _ array _ => exact absurd array (single _)
  | rounds isGroup _ _ _ => cases origin.symm.trans (origin_of_groupItem? isGroup)
  | texts origin' _ => cases origin.symm.trans origin'

/-- An array for elements holds what the children have become. -/
theorem exists_items (receives : graph.Receives zone field children held)
    (origin : field.origin = .element name) {item : Nat}
    (array : graph.node? field.node = some (.array item)) :
    ∃ values, held = some (.array values) ∧
      List.Forall₂ (fun child value =>
        graph.convert zone (graph.elementType field.node) child = .ok value)
        children values := by
  cases receives with
  | missing _ single => exact absurd array (single _)
  | one _ single _ => exact absurd array (single _)
  | items _ _ converted => exact ⟨_, rfl, converted⟩
  | rounds isGroup _ _ _ => cases origin.symm.trans (origin_of_groupItem? isGroup)
  | texts origin' _ => cases origin.symm.trans origin'

/-- A group holds the rounds that its children are divided into. -/
theorem exists_rounds (receives : graph.Receives zone field children held)
    (isGroup : graph.groupItem? field = some item) :
    ∃ rounds : List (List Element × Slots),
      held = some (.array (rounds.map fun round => .record round.2)) ∧
      Divides (graph.FitsRound item) children (rounds.map (·.1)) ∧
      (∀ round ∈ rounds, graph.Distributes zone item round.1 round.2) ∧
      (item.source = .group .choice →
        ∀ round ∈ rounds, ∃! index, InUse item round.2 index) := by
  have group := origin_of_groupItem? isGroup
  cases receives with
  | missing origin _ => cases group.symm.trans origin
  | one origin _ _ => cases group.symm.trans origin
  | items origin _ _ => cases group.symm.trans origin
  | texts origin _ => cases group.symm.trans origin
  | rounds isGroup' divides each exclusive =>
      cases isGroup.symm.trans isGroup'
      exact ⟨_, rfl, divides, each, exclusive⟩

/-- A wildcard holds the markup of its children. -/
theorem exists_entries (receives : graph.Receives zone field children held)
    (origin : field.origin = .elementWildcard) :
    ∃ entries, held = some (.map entries) ∧ Captures
      (children.map fun child => (child.name.name, child.innerMarkup)) entries := by
  cases receives with
  | missing origin' _ => cases origin.symm.trans origin'
  | one origin' _ _ => cases origin.symm.trans origin'
  | items origin' _ _ => cases origin.symm.trans origin'
  | rounds isGroup _ _ _ => cases origin.symm.trans (origin_of_groupItem? isGroup)
  | texts _ captures => exact ⟨_, rfl, captures⟩

end Receives

/-! ## One child more -/

theorem Distributes.length_eq
    (distributes : graph.Distributes zone record children slots) :
    slots.length = record.fields.length := by
  cases distributes with
  | mk length _ _ => exact length

theorem Distributes.matched
    (distributes : graph.Distributes zone record children slots) :
    ∀ child ∈ children, graph.route? record child.name ≠ none := by
  cases distributes with
  | mk _ matched _ => exact matched

theorem Distributes.receives
    (distributes : graph.Distributes zone record children slots) {index : Nat}
    {field : Field} (listed : record.fields[index]? = some field)
    (forChildren : IsForChildren field) :
    graph.Receives zone field (graph.sentTo record index children)
      (slots.get? index) := by
  cases distributes with
  | mk _ _ receives => exact receives index field listed forChildren

/-- What is done beside the slots for children does not matter. -/
theorem Distributes.congr
    (distributes : graph.Distributes zone record children slots)
    (length : next.length = slots.length)
    (same : ∀ (index : Nat) (field : Field),
      record.fields[index]? = some field → IsForChildren field →
        next.get? index = slots.get? index) :
    graph.Distributes zone record children next := by
  refine .mk (length.trans distributes.length_eq) distributes.matched ?_
  intro index field listed forChildren
  rw [same index field listed forChildren]
  exact distributes.receives listed forChildren

/-- A child changes what one field has received. -/
theorem Distributes.put
    (distributes : graph.Distributes zone record children slots) {route : Route}
    (routed : graph.route? record child.name = some route) {field : Field}
    (listed : record.fields[route.index]? = some field) {value : Value}
    (receives : graph.Receives zone field
      (graph.sentTo record route.index children ++ [child]) (some value)) :
    graph.Distributes zone record (children ++ [child])
      (slots.put route.index value) := by
  have length := distributes.length_eq
  have inside : route.index < slots.length := by
    rw [length]
    exact (List.getElem?_eq_some_iff.1 listed).1
  have matched : ∀ other ∈ children ++ [child],
      graph.route? record other.name ≠ none := by
    refine List.forall_mem_append.2 ⟨distributes.matched, ?_⟩
    simp [routed]
  refine .mk ((Slots.length_put ..).trans length) matched ?_
  intro index other listed' forChildren
  rw [sentTo_concat, routed, Option.map_some]
  by_cases here : some route.index = some index
  · cases here
    cases listed.symm.trans listed'
    rw [if_pos rfl, Slots.get?_put inside]
    exact receives
  · have differs : index ≠ route.index := fun same => here (same ▸ rfl)
    rw [if_neg here, List.append_nil, Slots.get?_put_of_ne differs]
    exact distributes.receives listed' forChildren

/-- Without children, arrays and maps are empty and the other slots are not set. -/
theorem Lowered.distributes_emptySlots (lowered : graph.Lowered allowed root)
    (found : graph.record? id = some record) (zone : Zone) :
    graph.Distributes zone record [] (graph.emptySlots record) := by
  refine .mk (List.length_map _) (by simp) ?_
  intro index field listed forChildren
  rw [get?_emptySlots listed, emptySlot]
  have holds := lowered.holds found listed
  rcases forChildren with ⟨name, origin⟩ | origin | origin
  · rw [origin] at holds
    have noMap := ne_map_of_holds holds
    split
    · next item array => exact .items origin array .nil
    · next values map => exact absurd map (noMap values)
    · next single _ => exact .missing origin single
  · obtain ⟨node, item, isGroup, array, _⟩ :=
      lowered.exists_round found (List.mem_of_getElem? listed) origin
    rw [array]
    have divides : Divides (graph.FitsRound item) []
        (([] : List (List Element × Slots)).map (·.1)) :=
      .nil (inherits_fitsRound graph item)
    exact .rounds isGroup divides (by simp) (by simp)
  · rw [origin] at holds
    obtain ⟨values, map, _⟩ := holds
    rw [map]
    exact .texts origin .nil

end Graph

end XmlRecords
