import XmlRecords.Graph.Basic
import XmlRecords.Number.Binary

/-!
# Values

A value has the shape of the schema node that it was made for.  A record has one
slot for each field of its node, in the same order, and a slot may be unset.
-/

namespace XmlRecords

/-- A value. -/
inductive Value where
  | boolean (value : Bool)
  | int (value : Int)
  | long (value : Int)
  | float (value : Binary32)
  | double (value : Binary64)
  | bytes (value : List UInt8)
  | string (value : String)
  | array (items : List Value)
  | map (entries : List (String × String))
  | record (slots : List (Option Value))
  deriving Inhabited

namespace Value

/-- The slot of a record value for the field with a name. -/
def slotNamed? (value : Value) (record : Record) (name : String) :
    Option Value :=
  match value with
  | .record slots =>
      (record.fieldNamed? name).bind fun index => slots[index]?.join
  | _ => none

end Value

end XmlRecords
