import Mathlib.Data.List.Forall2
import Mathlib.Data.List.Perm.Subperm
import XmlRecords.Proofs.ReadableJson

/-!
# JSON says what a value is

The JSON of a value has the form of the node that it is written against, and values with
the same JSON are the same.  As the members of an object and the entries of a map are in
no order for a reader who looks them up, this is shown too for an equality that does not
see order.
-/

namespace XmlRecords

/-- Two numbers are one, whatever the signs of zeros. -/
def Binary.Same {format : BinaryFormat} (x y : Binary format) : Prop :=
  x = y ∨ x.code = 0 ∧ y.code = 0

/-- JSON is the same, whatever the order of the members of objects. -/
inductive Json.Same : Json → Json → Prop where
  | null : Same .null .null
  | bool (value : Bool) : Same (.bool value) (.bool value)
  | integer (value : Int) : Same (.integer value) (.integer value)
  | number {x y : Binary64} (same : x.Same y) : Same (.number x) (.number y)
  | string (value : String) : Same (.string value) (.string value)
  | array {items twins : List Json} (each : List.Forall₂ Same items twins) :
      Same (.array items) (.array twins)
  | object {members twins : List (String × Json)}
      (names : (members.map (·.1)).Perm (twins.map (·.1)))
      (each : ∀ name value twin, (name, value) ∈ members → (name, twin) ∈ twins →
        Same value twin) : Same (.object members) (.object twins)

/-- Values are the same, whatever the order of the entries of maps. -/
inductive Value.Same : Value → Value → Prop where
  | same (value : Value) : Same value value
  | float {x y : Binary32} (same : x.Same y) : Same (.float x) (.float y)
  | double {x y : Binary64} (same : x.Same y) : Same (.double x) (.double y)
  | array {items twins : List Value} (each : List.Forall₂ Same items twins) :
      Same (.array items) (.array twins)
  | map {entries twins : List (String × String)} (perm : entries.Perm twins) :
      Same (.map entries) (.map twins)
  | record {slots twins : Slots} (each : List.Forall₂ (Option.Rel Same) slots twins) :
      Same (.record slots) (.record twins)

theorem Binary.Same.narrow {x y : Binary64} (same : x.Same y) :
    (x.convert .single).Same (y.convert .single) := by
  have zero : ∀ z : Binary64, z.code = 0 → (z.convert .single).code = 0 := by
    rintro ⟨negative, _⟩ rfl
    cases negative <;> decide
  rcases same with rfl | ⟨none, none'⟩
  · exact .inl rfl
  · exact .inr ⟨zero x none, zero y none'⟩

namespace Value

variable {value other : Value}

theorem same_of_primitive {graph : Graph} {node : Nat} {kind : Primitive}
    (own : value.kind? = some kind) (own' : other.kind? = some kind)
    (plain : value.IsPlain) (plain' : other.IsPlain)
    (same : (value.toJson graph node).Same (other.toJson graph node)) :
    value.Same other := by
  have read := primitiveOf?_toJson graph node plain own
  have read' := primitiveOf?_toJson graph node plain' own'
  generalize value.toJson graph node = json at read same
  generalize other.toJson graph node = json' at read' same
  cases same with
  | number same =>
      cases kind with
      | float =>
          cases read
          cases read'
          exact .float same.narrow
      | double =>
          cases read
          cases read'
          exact .double same
      | _ => cases read
  | array each => cases kind <;> cases read
  | object names each => cases kind <;> cases read
  | _ =>
      cases read.symm.trans read'
      exact .same value

/-- Entries are the same ones if the members for them are. -/
theorem perm_of_same {entries twins : List (String × String)}
    (distinct : (entries.map (·.1)).Nodup)
    (same : (Json.object (textMembers entries)).Same (.object (textMembers twins))) :
    entries.Perm twins := by
  cases same with
  | object names each =>
      rw [keys_textMembers, keys_textMembers] at names
      have length := names.length_eq
      rw [List.length_map, List.length_map] at length
      have subset : entries ⊆ twins := by
        rintro ⟨key, text⟩ member
        obtain ⟨⟨key', twin⟩, member', rfl⟩ :=
          List.mem_map.1 (names.subset (List.mem_map_of_mem member))
        have together := each key' (.string text) (.string twin)
          (List.mem_map.2 ⟨_, member, rfl⟩) (List.mem_map.2 ⟨_, member', rfl⟩)
        cases together
        exact member'
      exact (List.subperm_of_subset (.of_map _ distinct) subset).perm_of_length_le
        (Nat.le_of_eq length.symm)

end Value

namespace Graph

variable {graph : Graph} {pending : List Nat} {id : Nat} {value other : Value}

/-- Slots are the same if they are written as the same, since only one that is unset is
written as null. -/
theorem same_of_slotJson {node : Nat} {slot twin : Option Value}
    (notNull : ∀ value, slot = some value ∨ twin = some value →
      value.toJson graph node ≠ .null)
    (set : ∀ value other, slot = some value → twin = some other →
      (value.toJson graph node).Same (other.toJson graph node) → value.Same other)
    (same : (Value.slotJson graph node slot).Same (Value.slotJson graph node twin)) :
    Option.Rel Value.Same slot twin := by
  cases slot with
  | none =>
      cases twin with
      | none => exact .none
      | some other =>
          rw [Value.slotJson, Value.slotJson] at same
          generalize written : other.toJson graph node = json at same
          cases same
          exact absurd written (notNull other (.inr rfl))
  | some value =>
      cases twin with
      | none =>
          rw [Value.slotJson, Value.slotJson] at same
          generalize written : value.toJson graph node = json at same
          cases same
          exact absurd written (notNull value (.inl rfl))
      | some other => exact .some (set value other rfl rfl same)

theorem Congruent.same_of_toJson (linked : graph.Linked pending)
    (wellFormed : graph.WellFormed) (congruent : graph.Congruent id value)
    (congruent' : graph.Congruent id other) (plain : value.IsPlain) (plain' : other.IsPlain)
    (same : (value.toJson graph id).Same (other.toJson graph id)) :
    value.Same other := by
  induction congruent generalizing other with
  | primitive found own =>
      exact Value.same_of_primitive own (congruent'.hasShape found) plain plain' same
  | optional found _ ih =>
      rw [Value.toJson_optional linked found, Value.toJson_optional linked found] at same
      exact ih (congruent'.hasShape found) plain plain' same
  | array found each ih =>
      obtain ⟨twins, rfl, each'⟩ := congruent'.hasShape found
      rw [Value.toJson_array found, Value.toJson_array found] at same
      cases same with
      | array all =>
          rw [List.forall₂_map_left_iff, List.forall₂_map_right_iff] at all
          refine .array (List.forall₂_iff_get.2 ⟨all.length_eq, ?_⟩)
          intro index inside inside'
          have member := List.getElem_mem inside
          have member' := List.getElem_mem inside'
          exact ih _ member (each' _ member') (plain.item _ member) (plain'.item _ member')
            (all.get inside inside')
  | map found =>
      obtain ⟨twins, rfl⟩ := congruent'.hasShape found
      rw [Value.toJson_map plain.keys, Value.toJson_map plain'.keys] at same
      exact .map (Value.perm_of_same plain.keys same)
  | record found length each _ ih =>
      obtain ⟨twins, rfl, length', each'⟩ :=
        congruent'.hasShape (record?_eq_some_iff.1 found)
      rw [Value.toJson_record wellFormed found length,
        Value.toJson_record wellFormed found length'] at same
      cases same with
      | object _ together =>
          -- Both have the names of the fields, so the members of a place are compared.
          refine .record (List.forall₂_iff_get.2 ⟨length.trans length'.symm, ?_⟩)
          intro index inside inside'
          have listed := List.getElem?_eq_getElem (length ▸ inside)
          have same := together _ _ _
            (List.mem_of_getElem? (Value.getElem?_slotsJson graph listed inside))
            (List.mem_of_getElem? (Value.getElem?_slotsJson graph listed inside'))
          rw [← Slots.get?_eq_get inside, ← Slots.get?_eq_get inside']
          refine same_of_slotJson ?_ ?_ same
          · rintro value (held | held)
            · exact (each index _ value listed held).toJson_ne_null linked wellFormed
                (plain.slot held)
            · exact (each' index _ value listed held).toJson_ne_null linked wellFormed
                (plain'.slot held)
          · intro value other held held' same
            exact ih index _ value listed held (each' index _ other listed held')
              (plain.slot held) (plain'.slot held') same

/-- The members of an object are one for each field of a record, named and ordered as the
fields, and null stands for the slots that are unset. -/
structure WritesRecord (graph : Graph) (record : Record) (slots : Slots)
    (members : List (String × Json)) : Prop where
  names : members.map (·.1) = record.fields.map (·.name)
  distinct : (members.map (·.1)).Nodup
  length : slots.length = record.fields.length
  each : ∀ (index : Nat) (field : Field), record.fields[index]? = some field →
    members[index]? =
      some (field.name, Value.slotJson graph field.node (slots.get? index))
  null : ∀ (index : Nat) (field : Field), record.fields[index]? = some field →
    (Value.slotJson graph field.node (slots.get? index) = .null ↔ slots.get? index = none)

theorem Congruent.exists_writesRecord (linked : graph.Linked pending)
    (wellFormed : graph.WellFormed) {slots : Slots}
    (congruent : graph.Congruent id (.record slots)) (plain : (Value.record slots).IsPlain) :
    ∃ record members, graph.record? (graph.requiredType id) = some record ∧
      (Value.record slots).toJson graph id = .object members ∧
      graph.WritesRecord record slots members := by
  obtain ⟨required, written, below⟩ := congruent.required linked
  rw [← written]
  cases required with
  | primitive _ kind => cases kind
  | optional found _ => exact absurd found (below _)
  | @record _ record _ found length each _ =>
      have names := Value.names_slotsJson graph length
      refine ⟨record, _, found, Value.toJson_record wellFormed found length, names,
        names ▸ (wellFormed.records _ record found).distinct, length, ?_, ?_⟩
      · intro index field listed
        apply Value.getElem?_slotsJson graph listed
        rw [length]
        exact (List.getElem?_eq_some_iff.1 listed).1
      · intro index field listed
        cases held : slots.get? index with
        | none => simp [Value.slotJson]
        | some value =>
            have notNull := (each index field value listed held).toJson_ne_null linked
              wellFormed (plain.slot held)
            simp [Value.slotJson, notNull]

theorem Congruent.exists_item (linked : graph.Linked pending) {items : List Value}
    (congruent : graph.Congruent id (.array items)) :
    ∃ item, graph.node? (graph.requiredType id) = some (.array item) ∧
      (Value.array items).toJson graph id = .array (items.map (·.toJson graph item)) := by
  obtain ⟨required, written, below⟩ := congruent.required linked
  rw [← written]
  cases required with
  | primitive _ kind => cases kind
  | optional found _ => exact absurd found (below _)
  | array found _ => exact ⟨_, found, Value.toJson_array found items⟩

/-- JSON is faithful.  A record that is congruent with a node of a graph that was made from
components becomes an object with one member for each field, named and ordered as the
fields, and null stands for the slots that are unset; what an array or a map holds stays
in order.  The value is read back from its JSON against the node, and a value with the
same JSON is the same value, also if neither the order of members nor the signs of zeros
count on both sides. -/
theorem toJson_faithful_of_ofComponents {components : Components} {wanted : Option String}
    {graph : Graph} (built : ofComponents components wanted = .ok graph) {id : Nat}
    {value : Value} (congruent : graph.Congruent id value) (plain : value.IsPlain) :
    (∀ slots, value = .record slots →
      ∃ record members, graph.record? (graph.requiredType id) = some record ∧
        value.toJson graph id = .object members ∧
        graph.WritesRecord record slots members) ∧
    (∀ items, value = .array items →
      ∃ item, graph.node? (graph.requiredType id) = some (.array item) ∧
        value.toJson graph id = .array (items.map (·.toJson graph item))) ∧
    (∀ entries, value = .map entries →
      value.toJson graph id =
        .object (entries.map fun (key, text) => (key, .string text))) ∧
    Value.ofJson? graph id (value.toJson graph id) = some value ∧
    ∀ other, graph.Congruent id other → other.IsPlain →
      (value.toJson graph id = other.toJson graph id → value = other) ∧
      ((value.toJson graph id).Same (other.toJson graph id) → value.Same other) := by
  obtain ⟨root, lowered⟩ := exists_lowered_ofComponents built
  have linked := lowered.linked
  have wellFormed := wellFormed_ofComponents built
  have read := congruent.ofJson?_toJson linked wellFormed plain
  refine ⟨?_, ?_, ?_, read, ?_⟩
  · rintro slots rfl
    exact congruent.exists_writesRecord linked wellFormed plain
  · rintro items rfl
    exact congruent.exists_item linked
  · rintro entries rfl
    exact Value.toJson_map plain.keys
  · intro other congruent' plain'
    refine ⟨?_, congruent.same_of_toJson linked wellFormed congruent' plain plain'⟩
    intro same
    rw [same, congruent'.ofJson?_toJson linked wellFormed plain'] at read
    exact (Option.some.inj read).symm

end Graph

/-- The value of the report above. -/
def reportValue : Value :=
  .record [
    some (.array [
      .record [some (.record [some (.string "a"), some (.int 1)]), none],
      .record [none, some (.record [
        some (.array [.record [some (.record [some (.string "c"), none]), none]]),
        some (.map []), some (.int 8), some (.map [])])]]),
    some (.map [("author", "b")]), some (.int 7), some (.map [("lang", "en")])]

theorem toJson_faithful_reportValue :
    reportGraph.transcodeDocument {} report = .ok reportValue ∧
      reportGraph.Congruent 0 reportValue ∧ reportValue.IsPlain ∧
      Value.ofJson? reportGraph 0 (reportValue.toJson reportGraph 0) = some reportValue := by
  have transcoded : reportGraph.transcodeRoot {} 0 report = .ok reportValue := rfl
  have congruent : reportGraph.Congruent 0 reportValue := by
    obtain ⟨root, lowered⟩ :=
      Graph.exists_lowered_ofComponents ofComponents_reportComponents
    have rooted := lowered.rooted
    cases rooted
    exact lowered.congruent_of_transcodeRoot transcoded
  have plain : reportValue.IsPlain := ⟨rfl, by decide⟩
  have faithful := Graph.toJson_faithful_of_ofComponents ofComponents_reportComponents
    congruent plain
  exact ⟨rfl, congruent, plain, faithful.2.2.2.1⟩

end XmlRecords
