import XmlRecords.Proofs.Congruence
import XmlRecords.Proofs.WellFormed
import XmlRecords.Proofs.Widening
import XmlRecords.Proofs.Wrappers
import XmlRecords.Value.Json

/-!
# Values read back from JSON

A value that is congruent with a node is written as JSON from which it is read back
against the same node, if its numbers are finite.  The names of the fields of a record
are distinct, so that none of its members is replaced, and only a slot that is unset is
written as null.  The induction is on congruence, which goes down the value and takes
what is optional off the node.
-/

namespace XmlRecords

theorem Slots.get?_eq_get {slots : Slots} {index : Nat} (inside : index < slots.length) :
    slots.get? index = slots.get ⟨index, inside⟩ := by
  rw [get?, List.getElem?_eq_getElem inside]
  rfl

namespace Value

/-! ## Conditions on all parts of a value -/

mutual

/-- Check a value and all values within it. -/
def everywhere (test : Value → Bool) : Value → Bool
  | .array items => test (.array items) && everyItem test items
  | .record slots => test (.record slots) && everySlot test slots
  | value => test value

/-- Check items and all values within them. -/
def everyItem (test : Value → Bool) : List Value → Bool
  | [] => true
  | item :: items => item.everywhere test && everyItem test items

/-- Check the values in slots and all values within them. -/
def everySlot (test : Value → Bool) : List (Option Value) → Bool
  | [] => true
  | none :: slots => everySlot test slots
  | some value :: slots => value.everywhere test && everySlot test slots

end

/-- Recognise values that contain finite numbers alone. -/
def isFinite : Value → Bool :=
  everywhere fun
    | .float x => x.isFinite
    | .double x => x.isFinite
    | _ => true

/-- Recognise values with maps in which no key comes twice. -/
def hasDistinctKeys : Value → Bool :=
  everywhere fun
    | .map entries => decide (entries.map (·.1)).Nodup
    | _ => true

/-- What JSON can tell: the numbers are finite, and the entries of each map are an
association, in which no key comes twice. -/
def IsPlain (value : Value) : Prop :=
  value.isFinite ∧ value.hasDistinctKeys

theorem everyItem_iff {test : Value → Bool} {items : List Value} :
    everyItem test items ↔ ∀ item ∈ items, item.everywhere test := by
  induction items with
  | nil => simp [everyItem]
  | cons item items ih => simp [everyItem, ih]

theorem everySlot_iff {test : Value → Bool} {slots : Slots} :
    everySlot test slots ↔ ∀ value, some value ∈ slots → value.everywhere test := by
  induction slots with
  | nil => simp [everySlot]
  | cons slot slots ih => cases slot <;> simp [everySlot, ih]

namespace IsPlain

theorem item {items : List Value} (plain : (Value.array items).IsPlain) :
    ∀ item ∈ items, item.IsPlain := by
  simp only [IsPlain, isFinite, hasDistinctKeys, everywhere, Bool.and_eq_true,
    everyItem_iff] at plain
  exact fun item member => ⟨plain.1.2 item member, plain.2.2 item member⟩

theorem slot {slots : Slots} (plain : (Value.record slots).IsPlain) {index : Nat}
    {value : Value} (held : slots.get? index = some value) : value.IsPlain := by
  simp only [IsPlain, isFinite, hasDistinctKeys, everywhere, Bool.and_eq_true,
    everySlot_iff] at plain
  have member : some value ∈ slots := by
    rw [Slots.get?, Option.join_eq_some_iff] at held
    exact List.mem_of_getElem? held
  exact ⟨plain.1.2 value member, plain.2.2 value member⟩

theorem keys {entries : List (String × String)} (plain : (Value.map entries).IsPlain) :
    (entries.map (·.1)).Nodup :=
  of_decide_eq_true plain.2

end IsPlain

/-! ## The form of JSON -/

theorem itemsJson_eq_map (graph : Graph) (node : Nat) (items : List Value) :
    itemsJson graph node items = items.map (·.toJson graph node) := by
  induction items with
  | nil => rfl
  | cons item items ih => rw [itemsJson, ih, List.map_cons]

theorem slotsJson_eq_zipWith (graph : Graph) (fields : List Field) (slots : Slots) :
    slotsJson graph fields slots = List.zipWith
      (fun field slot => (field.name, slotJson graph field.node slot)) fields slots := by
  induction fields generalizing slots with
  | nil => simp [slotsJson]
  | cons field fields ih =>
      cases slots with
      | nil => simp [slotsJson]
      | cons slot slots => rw [slotsJson, ih, List.zipWith_cons_cons]

theorem names_slotsJson (graph : Graph) {fields : List Field} {slots : Slots}
    (length : slots.length = fields.length) :
    (slotsJson graph fields slots).map (·.1) = fields.map (·.name) := by
  induction fields generalizing slots with
  | nil => simp [slotsJson]
  | cons field fields ih =>
      cases slots with
      | nil => cases length
      | cons slot slots =>
          rw [slotsJson, List.map_cons, ih (Nat.succ.inj length), List.map_cons]


theorem getElem?_slotsJson (graph : Graph) {fields : List Field} {slots : Slots}
    {index : Nat} {field : Field} (listed : fields[index]? = some field)
    (inside : index < slots.length) :
    (slotsJson graph fields slots)[index]? =
      some (field.name, slotJson graph field.node (slots.get? index)) := by
  rw [slotsJson_eq_zipWith, List.getElem?_zipWith, listed, Slots.get?,
    List.getElem?_eq_getElem inside, Option.join_some]

/-- The members for the entries of a map. -/
def textMembers (entries : List (String × String)) : List (String × Json) :=
  entries.map fun (key, text) => (key, .string text)

theorem keys_textMembers (entries : List (String × String)) :
    (textMembers entries).map (·.1) = entries.map (·.1) := by
  rw [textMembers, List.map_map]
  rfl

section Nodes

variable {graph : Graph} {pending : List Nat} {id inner item values : Nat}

theorem toJson_optional (linked : graph.Linked pending)
    (found : graph.node? id = some (.optional inner)) (value : Value) :
    value.toJson graph id = value.toJson graph inner := by
  cases value <;> simp only [toJson, Graph.requiredType_optional linked found]

theorem toJson_array (found : graph.node? id = some (.array item)) (items : List Value) :
    (Value.array items).toJson graph id = .array (items.map (·.toJson graph item)) := by
  rw [toJson, Graph.requiredType_of_ne_optional found (by simp), itemNode, found,
    itemsJson_eq_map]

theorem toJson_map {entries : List (String × String)}
    (distinct : (entries.map (·.1)).Nodup) :
    (Value.map entries).toJson graph id = .object (textMembers entries) := by
  have members := keys_textMembers entries ▸ distinct
  rw [toJson, Json.objectOf, ← textMembers, Association.ofList_eq_self members]

theorem toJson_record (wellFormed : graph.WellFormed) {record : Record}
    (found : graph.record? id = some record) {slots : Slots}
    (length : slots.length = record.fields.length) :
    (Value.record slots).toJson graph id =
      .object (slotsJson graph record.fields slots) := by
  have distinct : ((slotsJson graph record.fields slots).map (·.1)).Nodup := by
    rw [names_slotsJson graph length]
    exact (wellFormed.records id record found).distinct
  have own := Graph.requiredType_of_ne_optional (Graph.record?_eq_some_iff.1 found) (by simp)
  rw [toJson, own, found]
  simp only [Json.objectOf, Association.ofList_eq_self distinct]

end Nodes

/-! ## Reading JSON against a node -/

/-- The bytes of a text with one character per byte. -/
def bytesOf? (text : String) : Option (List UInt8) :=
  text.toList.mapM fun c => if c.toNat < 256 then some (.ofNat c.toNat) else none

/-- The texts of members. -/
def textsOf? (members : List (String × Json)) : Option (List (String × String)) :=
  members.mapM fun
    | (name, .string text) => some (name, text)
    | _ => none

/-- The value of a primitive kind. -/
def primitiveOf? : Primitive → Json → Option Value
  | .boolean, .bool value => some (.boolean value)
  | .int, .integer value => some (.int value)
  | .long, .integer value => some (.long value)
  | .float, .number x => some (.float (x.convert .single))
  | .double, .number x => some (.double x)
  | .bytes, .string text => (bytesOf? text).map .bytes
  | .string, .string text => some (.string text)
  | _, _ => none

mutual

/-- The value that was written as JSON against a node. -/
def ofJson? (graph : Graph) (node : Nat) : Json → Option Value
  | .array items =>
      match graph.node? (graph.requiredType node) with
      | some (.array item) => (itemsOf? graph item items).map .array
      | _ => none
  | .object members =>
      match graph.node? (graph.requiredType node) with
      | some (.map _) => (textsOf? members).map .map
      | some (.record target) => (slotsOf? graph target.fields members).map .record
      | _ => none
  | json =>
      match graph.node? (graph.requiredType node) with
      | some (.primitive kind _) => primitiveOf? kind json
      | _ => none

/-- The items of an array. -/
def itemsOf? (graph : Graph) (node : Nat) : List Json → Option (List Value)
  | [] => some []
  | json :: rest =>
      (ofJson? graph node json).bind fun value =>
        (itemsOf? graph node rest).map (value :: ·)

/-- The slots of a record, of which null stands for one that is unset. -/
def slotsOf? (graph : Graph) : List Field → List (String × Json) → Option Slots
  | _ :: fields, (_, .null) :: members => (slotsOf? graph fields members).map (none :: ·)
  | field :: fields, (_, json) :: members =>
      (ofJson? graph field.node json).bind fun value =>
        (slotsOf? graph fields members).map (some value :: ·)
  | [], [] => some []
  | _, _ => none

end

theorem bytesOf?_latin1 (bytes : List UInt8) : bytesOf? (latin1 bytes) = some bytes := by
  have each : ∀ byte : UInt8, (Char.ofNat byte.toNat).toNat = byte.toNat := by
    intro byte
    have small := byte.toNat_lt
    have valid : byte.toNat.isValidChar := .inl (by omega)
    rw [Char.ofNat, dif_pos valid]
    rfl
  rw [bytesOf?, latin1, String.toList_ofList]
  induction bytes with
  | nil => rfl
  | cons byte rest ih =>
      have small := byte.toNat_lt
      simp [each byte, small, ih]

theorem textsOf?_textMembers (entries : List (String × String)) :
    textsOf? (textMembers entries) = some entries := by
  induction entries with
  | nil => rfl
  | cons entry rest ih =>
      rw [textMembers, textsOf?] at ih ⊢
      simp [ih]

/-- A value of a primitive kind is read back, whatever the node it is written against. -/
theorem primitiveOf?_toJson (graph : Graph) (node : Nat) {value : Value} {kind : Primitive}
    (plain : value.IsPlain) (same : value.kind? = some kind) :
    primitiveOf? kind (value.toJson graph node) = some value := by
  cases value with
  | boolean value => cases same; rfl
  | int value => cases same; rfl
  | long value => cases same; rfl
  | float x =>
      cases same
      have finite : x.isFinite := plain.1
      obtain ⟨wide, narrow⟩ := Binary.convert_single_double finite
      rw [toJson, Json.ofBinary, if_pos wide, primitiveOf?, narrow]
  | double x =>
      cases same
      have finite : x.isFinite := plain.1
      rw [toJson, Json.ofBinary, if_pos finite, primitiveOf?]
  | bytes value =>
      cases same
      rw [toJson, primitiveOf?, bytesOf?_latin1, Option.map_some]
  | string value => cases same; rfl
  | array items => cases same
  | map entries => cases same
  | record slots => cases same

end Value

namespace Graph

/-- What a value that is congruent with a node is like, whatever the node. -/
def HasShape (graph : Graph) (value : Value) : Node → Prop
  | .primitive kind _ => value.kind? = some kind
  | .optional inner => graph.Congruent inner value
  | .array item => ∃ items, value = .array items ∧
      ∀ inner ∈ items, graph.Congruent item inner
  | .map _ => ∃ entries, value = .map entries
  | .record target => ∃ slots : Slots, value = .record slots ∧
      slots.length = target.fields.length ∧
      ∀ (index : Nat) (field : Field) (inner : Value),
        target.fields[index]? = some field → slots.get? index = some inner →
          graph.Congruent field.node inner

variable {graph : Graph} {pending : List Nat} {id : Nat} {value other : Value}

theorem Congruent.hasShape (congruent : graph.Congruent id value) {node : Node}
    (found : graph.node? id = some node) : graph.HasShape value node := by
  cases congruent with
  | primitive found' kind =>
      cases found.symm.trans found'
      exact kind
  | optional found' present =>
      cases found.symm.trans found'
      exact present
  | array found' each =>
      cases found.symm.trans found'
      exact ⟨_, rfl, each⟩
  | map found' =>
      cases found.symm.trans found'
      exact ⟨_, rfl⟩
  | record found' length each _ =>
      cases found.symm.trans (record?_eq_some_iff.1 found')
      exact ⟨_, rfl, length, each⟩

/-- Below what is optional, a value is congruent with a node that is not, and written as
the same JSON. -/
theorem Congruent.required (linked : graph.Linked pending)
    (congruent : graph.Congruent id value) :
    graph.Congruent (graph.requiredType id) value ∧
      value.toJson graph (graph.requiredType id) = value.toJson graph id ∧
      ∀ inner, graph.node? (graph.requiredType id) ≠ some (.optional inner) := by
  induction congruent with
  | optional found _ ih =>
      rw [requiredType_optional linked found, Value.toJson_optional linked found]
      exact ih
  | primitive found kind =>
      rw [requiredType_of_ne_optional found (by simp), found]
      exact ⟨.primitive found kind, rfl, by simp⟩
  | array found each _ =>
      rw [requiredType_of_ne_optional found (by simp), found]
      exact ⟨.array found each, rfl, by simp⟩
  | map found =>
      rw [requiredType_of_ne_optional found (by simp), found]
      exact ⟨.map found, rfl, by simp⟩
  | record found length each complete _ =>
      have node := record?_eq_some_iff.1 found
      rw [requiredType_of_ne_optional node (by simp), node]
      exact ⟨.record found length each complete, rfl, by simp⟩

/-- Nothing that is set is written as null. -/
theorem Congruent.toJson_ne_null (linked : graph.Linked pending)
    (wellFormed : graph.WellFormed) (congruent : graph.Congruent id value)
    (plain : value.IsPlain) : value.toJson graph id ≠ .null := by
  induction congruent with
  | @primitive id value kind _ _ same =>
      intro null
      have read := Value.primitiveOf?_toJson graph id plain same
      rw [null] at read
      cases kind <;> cases read
  | optional found _ ih =>
      rw [Value.toJson_optional linked found]
      exact ih plain
  | array found _ _ => simp [Value.toJson_array found]
  | map _ => simp [Value.toJson_map plain.keys]
  | record found length _ _ _ => simp [Value.toJson_record wellFormed found length]

theorem itemsOf?_map {item : Nat} {items : List Value}
    (each : ∀ value ∈ items,
      Value.ofJson? graph item (value.toJson graph item) = some value) :
    Value.itemsOf? graph item (items.map (·.toJson graph item)) = some items := by
  induction items with
  | nil => rfl
  | cons first rest ih =>
      rw [List.map_cons, Value.itemsOf?, each first List.mem_cons_self,
        ih fun value member => each value (List.mem_cons_of_mem _ member)]
      rfl

theorem slotsOf?_slotsJson {fields : List Field} {slots : Slots}
    (length : slots.length = fields.length)
    (each : ∀ index field value, fields[index]? = some field →
      slots.get? index = some value →
        value.toJson graph field.node ≠ .null ∧
          Value.ofJson? graph field.node (value.toJson graph field.node) = some value) :
    Value.slotsOf? graph fields (Value.slotsJson graph fields slots) = some slots := by
  induction fields generalizing slots with
  | nil =>
      obtain rfl := List.eq_nil_of_length_eq_zero length
      rfl
  | cons field fields ih =>
      cases slots with
      | nil => cases length
      | cons slot slots =>
          have others := ih (Nat.succ.inj length) fun index last value listed held =>
            each (index + 1) last value listed held
          rw [Value.slotsJson]
          cases slot with
          | none => rw [Value.slotJson, Value.slotsOf?, others, Option.map_some]
          | some value =>
              obtain ⟨notNull, read⟩ := each 0 field value rfl rfl
              rw [Value.slotJson, Value.slotsOf?, read, others]
              · rfl
              · exact notNull

theorem ofJson?_optional (linked : graph.Linked pending) {inner : Nat}
    (found : graph.node? id = some (.optional inner)) (json : Json) :
    Value.ofJson? graph id json = Value.ofJson? graph inner json := by
  cases json <;> simp only [Value.ofJson?, requiredType_optional linked found]

/-- What is written is read back against the same node. -/
theorem Congruent.ofJson?_toJson (linked : graph.Linked pending)
    (wellFormed : graph.WellFormed) (congruent : graph.Congruent id value)
    (plain : value.IsPlain) :
    Value.ofJson? graph id (value.toJson graph id) = some value := by
  induction congruent with
  | @primitive id value kind _ found same =>
      have own := requiredType_of_ne_optional found (by simp)
      have read := Value.primitiveOf?_toJson graph id plain same
      generalize value.toJson graph id = json at read ⊢
      -- No primitive is written as an array or an object, which are read by other nodes.
      cases json with
      | array items => cases kind <;> cases read
      | object members => cases kind <;> cases read
      | _ => simpa only [Value.ofJson?, own, found] using read
  | optional found _ ih =>
      rw [Value.toJson_optional linked found, ofJson?_optional linked found]
      exact ih plain
  | array found _ ih =>
      have own := requiredType_of_ne_optional found (by simp)
      have items := itemsOf?_map fun value member => ih value member (plain.item value member)
      simp only [Value.toJson_array found, Value.ofJson?, own, found, items, Option.map_some]
  | map found =>
      have own := requiredType_of_ne_optional found (by simp)
      simp only [Value.toJson_map plain.keys, Value.ofJson?, own, found,
        Value.textsOf?_textMembers, Option.map_some]
  | record found length each _ ih =>
      have node := record?_eq_some_iff.1 found
      have own := requiredType_of_ne_optional node (by simp)
      have slots := slotsOf?_slotsJson length fun index field value listed held =>
        ⟨(each index field value listed held).toJson_ne_null linked wellFormed
          (plain.slot held), ih index field value listed held (plain.slot held)⟩
      simp only [Value.toJson_record wellFormed found length, Value.ofJson?, own, node, slots,
        Option.map_some]

end Graph

end XmlRecords
