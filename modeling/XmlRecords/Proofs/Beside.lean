import XmlRecords.Proofs.Arrivals

/-!
# Attributes and text beside children

Attributes and text go to slots that no route leads to, so what has arrived from
the children of an element is still there when its record is complete.  An
element becomes a record in these steps: children, attributes, text.
-/

namespace XmlRecords

namespace Graph

variable {graph : Graph} {allowed : QName → Prop} {root id : Nat}
  {record : Record}

/-- The field is for children. -/
def IsForChildren (field : Field) : Prop :=
  (∃ name, field.origin = .element name) ∨ field.origin = .group ∨
    field.origin = .elementWildcard

theorem ne_of_isForChildren {index other : Nat} {field last : Field}
    (children : IsForChildren field)
    (listed : record.fields[index]? = some field)
    (listedOther : record.fields[other]? = some last)
    (aside : (∃ name, last.origin = .attribute name) ∨
      last.origin = .attributeWildcard ∨ last.origin = .text) :
    index ≠ other := by
  rintro rfl
  obtain rfl := Option.some.inj (listed.symm.trans listedOther)
  rcases children with ⟨_, origin⟩ | origin | origin
  all_goals
    rw [origin] at aside
    simp at aside

/-- An attribute changes no slot of a field for children. -/
theorem get?_placeAttribute (indexed : record.Indexed) {zone : Zone}
    {slots next : Slots} {a : Attribute}
    (placing : graph.placeAttribute zone record slots a = .ok next)
    {index : Nat} {field : Field} (listed : record.fields[index]? = some field)
    (children : IsForChildren field) :
    next.get? index = slots.get? index := by
  rcases placeAttribute_cases indexed placing with
    ⟨other, last, value, _, listedOther, origin, _, rfl⟩ |
    ⟨_, other, last, _, listedOther, origin, rfl⟩
  · have apart :=
      ne_of_isForChildren children listed listedOther (.inl ⟨_, origin⟩)
    exact Slots.get?_put_of_ne apart slots value
  · have apart :=
      ne_of_isForChildren children listed listedOther (.inr (.inl origin))
    exact Slots.get?_putEntry_of_ne apart slots _ _

theorem get?_placeAttributes (indexed : record.Indexed) {zone : Zone}
    {slots next : Slots} {attributes : List Attribute}
    (placing : graph.placeAttributes zone record slots attributes = .ok next)
    {index : Nat} {field : Field} (listed : record.fields[index]? = some field)
    (children : IsForChildren field) :
    next.get? index = slots.get? index := by
  induction attributes generalizing slots with
  | nil =>
      cases placing
      rfl
  | cons a rest ih =>
      rcases placeAttributes_cons_eq_ok placing with
        ⟨_, placing⟩ | ⟨_, between, first, others⟩
      · exact ih placing
      · rw [ih others, get?_placeAttribute indexed first listed children]

/-- Whether an attribute has a place does not depend on what is there. -/
theorem exists_placeAttribute {zone : Zone} {slots next : Slots} {a : Attribute}
    (placing : graph.placeAttribute zone record slots a = .ok next)
    (other : Slots) :
    ∃ after, graph.placeAttribute zone record other a = .ok after := by
  rw [placeAttribute] at placing ⊢
  cases named : record.attributeField? a.name with
  | some index =>
      rw [named] at placing
      dsimp only at placing ⊢
      split at placing
      · exact ⟨other, rfl⟩
      · obtain ⟨value, read, _⟩ := Outcome.map_eq_ok.1 placing
        exact ⟨_, Outcome.map_eq_ok.2 ⟨value, read, rfl⟩⟩
  | none =>
      rw [named] at placing
      dsimp only at placing ⊢
      split at placing
      · exact ⟨_, rfl⟩
      · cases placing

/-- Slots that first children, then attributes and last text were put into. -/
inductive Completes (graph : Graph) (zone : Zone) (record : Record)
    (attributes : List Attribute) (placed slots : Slots) : Prop where
  | plain (filling : graph.placeAttributes zone record placed attributes =
      .ok slots) : Completes graph zone record attributes placed slots
  | withText {filled : Slots} {index : Nat} {text : Value}
      (filling : graph.placeAttributes zone record placed attributes =
        .ok filled)
      (isText : record.text = some index) (same : slots = filled.put index text) :
      Completes graph zone record attributes placed slots

namespace Completes

variable {zone : Zone} {attributes : List Attribute} {placed slots : Slots}

theorem get?_eq (completes : graph.Completes zone record attributes placed slots)
    (indexed : record.Indexed) {index : Nat} {field : Field}
    (listed : record.fields[index]? = some field)
    (children : IsForChildren field) : slots.get? index = placed.get? index := by
  cases completes with
  | plain filling => exact get?_placeAttributes indexed filling listed children
  | @withText filled other text filling isText same =>
      subst same
      obtain ⟨last, listedOther, origin⟩ := Record.exists_field_of_findIdx?
        (indexed.text_eq.symm.trans isText)
      have apart := ne_of_isForChildren children listed listedOther
        (.inr (.inr origin))
      rw [Slots.get?_put_of_ne apart,
        get?_placeAttributes indexed filling listed children]

end Completes

/-- The field for text, if there is one, is put what it reads from a text. -/
inductive PutsText (graph : Graph) (zone : Zone) (record : Record)
    (text : String) (filled : Slots) : Slots → Prop where
  | none (noText : record.text = none) :
      PutsText graph zone record text filled filled
  | field {index : Nat} {field : Field} {kind : Primitive}
      {logical : Option Logical} {value : Value}
      (isText : record.text = some index)
      (listed : record.fields[index]? = some field)
      (primitive : graph.node? field.node = some (.primitive kind logical))
      (read : Value.readPrimitive zone kind logical text = .ok value) :
      PutsText graph zone record text filled (filled.put index value)

theorem PutsText.completes {zone : Zone} {text : String} {placed filled slots : Slots}
    {attributes : List Attribute}
    (puts : graph.PutsText zone record text filled slots)
    (filling : graph.placeAttributes zone record placed attributes =
      .ok filled) : graph.Completes zone record attributes placed slots := by
  cases puts with
  | none _ => exact .plain filling
  | field isText _ _ _ => exact .withText filling isText rfl

/-- An element becomes a value of a record just when its children find their
places, its attributes are taken, and its text can be read. -/
theorem Lowered.convert_record_eq_ok (lowered : graph.Lowered allowed root)
    (found : graph.record? id = some record) {zone : Zone} {element : Element}
    {value : Value} :
    graph.convert zone id element = .ok value ↔
      ∃ placed filled slots, value = .record slots ∧
        graph.placeChildren record (graph.emptySlots record)
          (element.children.map (graph.childOf zone)) = .ok placed ∧
        graph.placeAttributes zone record placed element.attributes =
          .ok filled ∧
        graph.PutsText zone record element.text filled slots := by
  -- The step from the record to its text is not the last one.
  have steps : ∀ {node : Nat} {kind : Primitive} {logical : Option Logical},
      graph.node? node = some (.primitive kind logical) →
        ∃ fuel, graph.nodes.size = fuel + 1 := by
    intro node kind logical primitive
    exact Nat.exists_eq_succ_of_ne_zero
      (Nat.ne_of_gt (Nat.zero_lt_of_lt (lt_size_of_node? primitive)))
  rw [convert, convertWith, record?_eq_some_iff.1 found, childrenOf_eq]
  constructor
  · intro converted
    obtain ⟨placed, placing, rest⟩ := Outcome.bind_eq_ok.1 converted
    obtain ⟨filled, filling, rest⟩ := Outcome.bind_eq_ok.1 rest
    split at rest
    · next index field isText bound =>
        rw [isText, Option.bind_some] at bound
        obtain ⟨kind, logical, primitive⟩ :=
          lowered.primitive_of_text found isText bound
        obtain ⟨fuel, steps⟩ := steps primitive
        obtain ⟨text, reading, same⟩ := Outcome.bind_eq_ok.1 rest
        cases same
        rw [steps, convertWith, primitive] at reading
        exact ⟨placed, filled, _, rfl, placing, filling,
          .field isText bound primitive reading⟩
    · next unread =>
        cases rest
        refine ⟨placed, filled, filled, rfl, placing, filling, .none ?_⟩
        cases isText : record.text with
        | none => rfl
        | some index =>
            obtain ⟨field, listed, _⟩ := Record.exists_field_of_findIdx?
              ((lowered.indexed found).text_eq.symm.trans isText)
            refine absurd ?_ (unread index field isText)
            rw [isText, Option.bind_some, listed]
  · rintro ⟨placed, filled, slots, rfl, placing, filling, puts⟩
    refine Outcome.bind_eq_ok.2 ⟨placed, placing,
      Outcome.bind_eq_ok.2 ⟨filled, filling, ?_⟩⟩
    cases puts with
    | none noText =>
        rw [noText]
        rfl
    | field isText listed primitive read =>
        obtain ⟨fuel, steps⟩ := steps primitive
        rw [isText, Option.bind_some, listed]
        refine Outcome.bind_eq_ok.2 ⟨_, ?_, rfl⟩
        rw [steps, convertWith, primitive]
        exact read

/-- A value of a record has slots that the children of its element were put into,
and that were completed from its attributes and its text. -/
theorem Lowered.exists_slots_of_convert (lowered : graph.Lowered allowed root)
    (found : graph.record? id = some record) {zone : Zone} {element : Element}
    {value : Value} (converted : graph.convert zone id element = .ok value) :
    ∃ placed slots, value = .record slots ∧
      graph.placeChildren record (graph.emptySlots record)
        (element.children.map (graph.childOf zone)) = .ok placed ∧
      graph.Completes zone record element.attributes placed slots := by
  obtain ⟨placed, filled, slots, rfl, placing, filling, puts⟩ :=
    (lowered.convert_record_eq_ok found).1 converted
  exact ⟨placed, slots, rfl, placing, puts.completes filling⟩

end Graph

end XmlRecords
