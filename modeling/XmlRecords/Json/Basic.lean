import XmlRecords.Association
import XmlRecords.Number.Binary

/-!
# JSON values

A JSON value as it is written and read here.  Whole numbers are kept apart from
the others, and the members of an object are a list, so their order is part of
the value.
-/

namespace XmlRecords

/-- A JSON value. -/
inductive Json where
  | null
  | bool (value : Bool)
  | integer (value : Int)
  | number (value : Binary64)
  | string (value : String)
  | array (items : List Json)
  | object (members : List (String × Json))
  deriving Inhabited

namespace Json

/-- The object of a list of members, of which a later one of the same name
replaces the value of an earlier one. -/
def objectOf (members : List (String × Json)) : Json :=
  .object (Association.ofList members)

/-- A finite number as a number, any other as null. -/
def ofBinary (x : Binary64) : Json :=
  if x.isFinite then .number x else .null

/-- The first member of an object with a name. -/
def member? (name : String) : Json → Option Json
  | .object members => (members.find? fun (key, _) => key == name).map (·.2)
  | _ => none

end Json

end XmlRecords
