import XmlRecords.Json.Basic

/-!
# Record schemas as they are written

The written form of a record schema is JSON.  A type is a name, a union, or an
object that says what kind of type it describes.  A record is described once and
is referred to by its name everywhere else.
-/

namespace XmlRecords

mutual

/-- A written type. -/
inductive TypeText where
  | name (name : String)
  | union (arms : List TypeText)
  | record (name : String) (ns source : Option String)
      (fields : List FieldText)
  | array (items : TypeText)
  | map (values : TypeText)
  | long (logicalType : Option String)
  | bytes (xmlEncoding : Option String)
  | plain (name : String)

/-- A written field: its name, its type, where it comes from, and whether its
default is null. -/
inductive FieldText where
  | field (name : String) (type : TypeText) (source : String)
      (nullDefault : Bool)

end

namespace TypeText

/-- A member that is left out where it has no value. -/
def optionalMember (name : String) : Option String → List (String × Json)
  | none => []
  | some value => [(name, .string value)]

/-- The object that describes a kind of type. -/
def describe (kind : String) (members : List (String × Json)) : Json :=
  .object (("type", .string kind) :: members)

mutual

/-- Write a type as JSON. -/
def toJson : TypeText → Json
  | .name text => .string text
  | .union arms => .array (armsToJson arms)
  | .record title ns source fields =>
      describe "record"
        (("name", .string title) :: (optionalMember "namespace" ns ++
          optionalMember "source" source ++
          [("fields", .array (fieldsToJson fields))]))
  | .array items => describe "array" [("items", items.toJson)]
  | .map values => describe "map" [("values", values.toJson)]
  | .long logicalType =>
      describe "long" (optionalMember "logicalType" logicalType)
  | .bytes xmlEncoding =>
      describe "bytes" (optionalMember "xmlEncoding" xmlEncoding)
  | .plain kind => describe kind []

/-- Write the arms of a union. -/
def armsToJson : List TypeText → List Json
  | [] => []
  | arm :: arms => arm.toJson :: armsToJson arms

/-- Write a field as JSON. -/
def fieldToJson : FieldText → Json
  | .field title type source nullDefault =>
      .object ([("name", .string title), ("type", type.toJson),
        ("source", .string source)] ++
        if nullDefault then [("default", .null)] else [])

/-- Write the fields of a record. -/
def fieldsToJson : List FieldText → List Json
  | [] => []
  | field :: fields => fieldToJson field :: fieldsToJson fields

end

end TypeText

/-- The name of the meaning of a long that holds a date-time. -/
def timestampMillisName : String := "timestamp-millis"

end XmlRecords
