import XmlRecords.Json.Basic
import XmlRecords.Value.Basic

/-!
# Values as JSON

A value is written against the node that it was made for.  A record becomes an
object with its fields in order, an unset slot becomes null, and so does a
number that is not finite.  Each byte becomes the character with its number.
-/

namespace XmlRecords.Value

/-- A text with one character per byte. -/
def latin1 (bytes : List UInt8) : String :=
  String.ofList (bytes.map fun byte => Char.ofNat byte.toNat)

/-- The node of the items of an array. -/
def itemNode (graph : Graph) (node : Nat) : Nat :=
  match graph.node? node with
  | some (.array item) => item
  | _ => node

mutual

/-- Write a value against a node. -/
def toJson (graph : Graph) (node : Nat) : Value → Json
  | .boolean value => .bool value
  | .int value | .long value => .integer value
  | .float value => .ofBinary (value.convert .double)
  | .double value => .ofBinary value
  | .bytes value => .string (latin1 value)
  | .string value => .string value
  | .array items =>
      .array (itemsJson graph (itemNode graph (graph.requiredType node)) items)
  | .map entries =>
      .objectOf (entries.map fun (key, value) => (key, .string value))
  | .record slots =>
      match graph.record? (graph.requiredType node) with
      | none => .null
      | some target => .objectOf (slotsJson graph target.fields slots)

/-- Write the items of an array. -/
def itemsJson (graph : Graph) (node : Nat) : List Value → List Json
  | [] => []
  | item :: items => item.toJson graph node :: itemsJson graph node items

/-- Write the slot of a field. -/
def slotJson (graph : Graph) (node : Nat) : Option Value → Json
  | none => .null
  | some value => value.toJson graph node

/-- Write the slots of a record as members. -/
def slotsJson (graph : Graph) :
    List Field → List (Option Value) → List (String × Json)
  | field :: fields, slot :: slots =>
      (field.name, slotJson graph field.node slot) ::
        slotsJson graph fields slots
  | _, _ => []

end

end XmlRecords.Value
