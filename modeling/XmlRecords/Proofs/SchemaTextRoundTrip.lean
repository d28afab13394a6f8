import XmlRecords.Proofs.JsonRoundTrip
import XmlRecords.SchemaText.Reader

/-!
# Written types read back from JSON

What is written of a type means the type, except that a default of null is not
kept; nothing depends on it.  So a type that is written as text is read back as
the same graph, unless its text nests too deeply.
-/

namespace XmlRecords

namespace TypeText

mutual

/-- A type without the defaults of its fields. -/
def bare : TypeText → TypeText
  | .union arms => .union (bareArms arms)
  | .record title ns source fields =>
      .record title ns source (bareFields fields)
  | .array items => .array items.bare
  | .map values => .map values.bare
  | type => type

/-- The arms of a union without the defaults of their fields. -/
def bareArms : List TypeText → List TypeText
  | [] => []
  | arm :: arms => arm.bare :: bareArms arms

/-- Fields without their defaults. -/
def bareFields : List FieldText → List FieldText
  | [] => []
  | .field title type source _ :: rest =>
      .field title type.bare source false :: bareFields rest

end

mutual

/-- No kind of type in a type is described that has a name. -/
def isTerse : TypeText → Bool
  | .union arms => areTerse arms
  | .record _ _ _ fields => haveTerse fields
  | .array items => items.isTerse
  | .map values => values.isTerse
  | .plain _ => false
  | _ => true

/-- No kind of type in the arms of a union is described that has a name. -/
def areTerse : List TypeText → Bool
  | [] => true
  | arm :: arms => arm.isTerse && areTerse arms

/-- No kind of type in the types of fields is described that has a name. -/
def haveTerse : List FieldText → Bool
  | [] => true
  | .field _ type _ _ :: rest => type.isTerse && haveTerse rest

end

mutual

/-- The written form of a type holds no numbers. -/
theorem isUnnumbered_toJson (type : TypeText) : type.toJson.isUnnumbered := by
  cases type with
  | name text => rfl
  | union arms => exact areUnnumbered_armsToJson arms
  | record title ns source fields =>
      have inside := areUnnumbered_fieldsToJson fields
      cases ns <;> cases source <;>
        simp [toJson, describe, optionalMember, Json.isUnnumbered,
          Json.holdUnnumbered, inside]
  | array items =>
      have inside := isUnnumbered_toJson items
      simp [toJson, describe, Json.isUnnumbered, Json.holdUnnumbered, inside]
  | map values =>
      have inside := isUnnumbered_toJson values
      simp [toJson, describe, Json.isUnnumbered, Json.holdUnnumbered, inside]
  | long logicalType => cases logicalType <;> rfl
  | bytes xmlEncoding => cases xmlEncoding <;> rfl
  | plain kind => rfl

theorem areUnnumbered_armsToJson (arms : List TypeText) :
    Json.areUnnumbered (armsToJson arms) := by
  cases arms with
  | nil => rfl
  | cons arm rest =>
      rw [armsToJson, Json.areUnnumbered, isUnnumbered_toJson arm,
        areUnnumbered_armsToJson rest]
      rfl

theorem areUnnumbered_fieldsToJson (fields : List FieldText) :
    Json.areUnnumbered (fieldsToJson fields) := by
  match fields with
  | [] => rfl
  | .field title type source nullDefault :: rest =>
      have inside := isUnnumbered_toJson type
      have others := areUnnumbered_fieldsToJson rest
      cases nullDefault <;>
        simp [fieldsToJson, fieldToJson, Json.areUnnumbered, Json.isUnnumbered,
          Json.holdUnnumbered, inside, others]

end

end TypeText

namespace Meaning

open TypeText

mutual

/-- What is written of a type means the type without defaults. -/
theorem type_ofJson_toJson (type : TypeText) (terse : type.isTerse) :
    (ofJson type.toJson).type = some type.bare := by
  cases type with
  | name text => rfl
  | union arms =>
      have inside := mapM_type_armsToJson arms terse
      simp [toJson, ofJson, ofItems, inside, bare]
  | record title ns source fields =>
      have inside := mapM_field_fieldsToJson fields terse
      cases ns <;> cases source <;>
        simp [toJson, describe, optionalMember, ofJson, ofJsonMembers, ofMembers,
          ofItems, namedMembers?, kind?, kinds, describedType?, text?,
          optionalText?, inside, bare]
  | array items =>
      have inside := type_ofJson_toJson items terse
      simp [toJson, describe, ofJson, ofJsonMembers, ofMembers, namedMembers?,
        kind?, kinds, describedType?, inside, bare]
  | map values =>
      have inside := type_ofJson_toJson values terse
      simp [toJson, describe, ofJson, ofJsonMembers, ofMembers, namedMembers?,
        kind?, kinds, describedType?, inside, bare]
  | long logicalType => cases logicalType <;> rfl
  | bytes xmlEncoding => cases xmlEncoding <;> rfl
  | plain kind => cases terse

theorem mapM_type_armsToJson (arms : List TypeText) (terse : areTerse arms) :
    (ofJsonItems (armsToJson arms)).mapM (·.type) = some (bareArms arms) := by
  cases arms with
  | nil => rfl
  | cons arm rest =>
      rw [areTerse, Bool.and_eq_true] at terse
      rw [armsToJson, ofJsonItems, List.mapM_cons,
        type_ofJson_toJson arm terse.1, mapM_type_armsToJson rest terse.2]
      rfl

theorem mapM_field_fieldsToJson (fields : List FieldText)
    (terse : haveTerse fields) :
    (ofJsonItems (fieldsToJson fields)).mapM (·.field) =
      some (bareFields fields) := by
  match fields with
  | [] => rfl
  | .field title type source nullDefault :: rest =>
      rw [haveTerse, Bool.and_eq_true] at terse
      have inside := type_ofJson_toJson type terse.1
      have first :
          (ofJson (fieldToJson (.field title type source nullDefault))).field =
            some (.field title type.bare source false) := by
        cases nullDefault <;>
          simp [fieldToJson, ofJson, ofJsonMembers, ofMembers, namedMembers?,
            fieldMembers, describedField?, text?, inside]
      rw [fieldsToJson, ofJsonItems, List.mapM_cons, first,
        mapM_field_fieldsToJson rest terse.2]
      rfl

end

end Meaning

namespace SchemaReader

open TypeText

/-- Only a union of nothing and a type is one without its defaults. -/
theorem exists_arms_of_bareArms {arms : List TypeText} {inner : TypeText}
    (union : bareArms arms = [.name "null", inner]) :
    ∃ type, arms = [.name "null", type] := by
  match arms with
  | [first, second] =>
      cases first <;> cases union
      exact ⟨second, rfl⟩
  | [] | [_] | _ :: _ :: _ :: _ => simp [bareArms] at union

mutual

/-- Defaults do not matter for the node of a type. -/
theorem typeNode_bare (type : TypeText) : typeNode type.bare = typeNode type := by
  cases type with
  | union arms =>
      by_cases union : ∃ inner, arms = [.name "null", inner]
      · obtain ⟨inner, rfl⟩ := union
        simp only [bare, bareArms, typeNode, typeNode_bare inner]
      · rw [bare, typeNode.eq_3 arms fun inner same => union ⟨inner, same⟩,
          typeNode.eq_3 (bareArms arms) fun inner same =>
            union (exists_arms_of_bareArms same)]
  | record title ns source fields =>
      rw [bare, typeNode, typeNode, fieldNodes_bareFields title fields]
  | array items => rw [bare, typeNode, typeNode, typeNode_bare items]
  | map values => rw [bare, typeNode, typeNode, typeNode_bare values]
  | _ => rfl

theorem fieldNodes_bareFields (title : String) (fields : List FieldText) :
    fieldNodes title (bareFields fields) = fieldNodes title fields := by
  match fields with
  | [] => rfl
  | .field label type source nullDefault :: rest =>
      simp only [bareFields, fieldNodes, typeNode_bare type,
        fieldNodes_bareFields title rest]

end

end SchemaReader

namespace Graph

theorem ofTypeText_bare (type : TypeText) :
    ofTypeText type.bare = ofTypeText type := by
  rw [ofTypeText, ofTypeText, SchemaReader.typeNode_bare]

/-- A written type is read from its text as it is, unless the text nests too
deeply. -/
theorem ofText_pretty {type : TypeText} (terse : type.isTerse) :
    ofText type.toJson.pretty.toList =
      if type.toJson.nesting ≤ Json.maxNesting then ofTypeText type
      else .error (.format .notJson) := by
  rw [ofText, Json.read_pretty type.isUnnumbered_toJson]
  by_cases fits : type.toJson.nesting ≤ Json.maxNesting
  · simp [fits, Meaning.type_ofJson_toJson type terse, ofTypeText_bare]
  · simp [fits]

end Graph

end XmlRecords
