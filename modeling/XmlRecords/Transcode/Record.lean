import XmlRecords.Association
import XmlRecords.Transcode.Route
import XmlRecords.Value.Literal
import XmlRecords.Xml.InnerMarkup

/-!
# Filling records

A record is filled from an element in three steps: its children follow their
routes, its attributes go to the fields of their names or to the wildcard, and
its text goes to the field for text.  What has no place is an error.

A round of a repeated group ends when a child would need a field of it that is
taken.  A round of a choice also ends when another field of it is in use.
-/

namespace XmlRecords

/-- The slots of a record value. -/
abbrev Slots := List (Option Value)

/-- A child element together with what it becomes against any node. -/
structure Child where
  element : Element
  convert : Nat → Except Error Value

namespace Slots

/-- The value in a slot. -/
def get? (slots : Slots) (index : Nat) : Option Value := slots[index]?.join

/-- Set a slot. -/
def put (slots : Slots) (index : Nat) (value : Value) : Slots :=
  slots.set index (some value)

/-- Decide whether a slot holds anything. -/
def isPopulated (slots : Slots) (index : Nat) : Bool :=
  match slots.get? index with
  | none => false
  | some (.array items) => !items.isEmpty
  | some (.map entries) => !entries.isEmpty
  | some _ => true

/-- Put an entry into the map in a slot. -/
def putEntry (slots : Slots) (index : Nat) (key text : String) : Slots :=
  match slots.get? index with
  | some (.map entries) =>
      slots.put index (.map (Association.insert key text entries))
  | _ => slots

/-- Put an item behind the array in a slot. -/
def putItem (slots : Slots) (index : Nat) (value : Value) : Slots :=
  match slots.get? index with
  | some (.array items) => slots.put index (.array (items ++ [value]))
  | _ => slots

end Slots

namespace Graph

/-- The value of a field that nothing has been put into. -/
def emptySlot (graph : Graph) (field : Field) : Option Value :=
  match graph.node? field.node with
  | some (.array _) => some (.array [])
  | some (.map _) => some (.map [])
  | _ => none

/-- The slots of a record that nothing has been put into: arrays and maps are
there and empty. -/
def emptySlots (graph : Graph) (record : Record) : Slots :=
  record.fields.map graph.emptySlot

/-- Decide whether the field at a place is an array. -/
def isArrayField (graph : Graph) (record : Record) (index : Nat) : Bool :=
  match record.fields[index]?.bind fun field => graph.node? field.node with
  | some (.array _) => true
  | _ => false

/-- Recognise the fields that the children of a choice compete for. -/
def isArm (field : Field) : Bool :=
  match field.origin with
  | .element _ | .group => true
  | _ => false

/-- Decide whether a child that goes to the field at a place needs a new round
of a group. -/
def isRoundOver (graph : Graph) (item : Record) (slots : Slots)
    (target : Nat) : Bool :=
  (!graph.isArrayField item target && (slots.get? target).isSome) ||
    (item.source == .group .choice &&
      item.fields.zipIdx.any fun (field, index) =>
        index != target && isArm field && slots.isPopulated index)

/-- The rounds of a group in front of the one that a child goes to, and the
slots of that one. -/
def currentRound (graph : Graph) (item : Record) (target : Nat)
    (rounds : List Value) : List Value × Slots :=
  match rounds.getLast? with
  | some (.record slots) =>
      if graph.isRoundOver item slots target then
        (rounds, graph.emptySlots item)
      else (rounds.dropLast, slots)
  | _ => (rounds, graph.emptySlots item)

/-- Put a child into the slots of a record along its route. -/
def place (graph : Graph) (child : Child) (record : Record) :
    Route → Slots → Except Error Slots
  | .field index, slots =>
      match record.fields[index]? with
      | none => .ok slots
      | some field =>
          match graph.node? field.node with
          | some (.array item) =>
              (child.convert item).map (slots.putItem index)
          | _ =>
              if (slots.get? index).isSome then
                .error (.field
                  (.repeatedElement child.element.name record.title))
              else (child.convert field.node).map (slots.put index)
  | .group index item rest, slots =>
      match slots.get? index with
      | some (.array rounds) => do
          let (front, round) := graph.currentRound item rest.index rounds
          let round ← graph.place child item rest round
          return slots.put index (.array (front ++ [.record round]))
      | _ => .ok slots
  | .wildcard index, slots =>
      .ok (slots.putEntry index child.element.name.name
        child.element.innerMarkup)

/-- Put children into the slots of a record, each along its route. -/
def placeChildren (graph : Graph) (record : Record) :
    Slots → List Child → Except Error Slots
  | slots, [] => .ok slots
  | slots, child :: rest =>
      match graph.route? record child.element.name with
      | none =>
          .error (.field (.unknownElement child.element.name record.title))
      | some route => do
          let slots ← graph.place child record route slots
          graph.placeChildren record slots rest

/-- Read the value of an attribute against the node of a field. -/
def readAttribute (graph : Graph) (zone : Zone) (node : Nat) (text : String) :
    Except Error Value :=
  match graph.node? (graph.elementType node) with
  | some (.primitive kind logical) =>
      Value.readPrimitive zone kind logical text
  | _ => .error (.field (.attributeNotPrimitive text))

/-- Put an attribute into the slots of a record. -/
def placeAttribute (graph : Graph) (zone : Zone) (record : Record)
    (slots : Slots) (a : Attribute) : Except Error Slots :=
  match record.attributeField? a.name with
  | some index =>
      match record.fields[index]? with
      | none => .ok slots
      | some field =>
          (graph.readAttribute zone field.node a.value).map (slots.put index)
  | none =>
      match record.attributeWildcard with
      | some index => .ok (slots.putEntry index a.name.name a.value)
      | none => .error (.field (.unknownAttribute a.name record.title))

/-- Put the attributes that carry data into the slots of a record. -/
def placeAttributes (graph : Graph) (zone : Zone) (record : Record) :
    Slots → List Attribute → Except Error Slots
  | slots, [] => .ok slots
  | slots, a :: rest =>
      if a.isMeta then graph.placeAttributes zone record slots rest
      else do
        let slots ← graph.placeAttribute zone record slots a
        graph.placeAttributes zone record slots rest

end Graph

end XmlRecords
