import XmlRecords.Proofs.RoundTrip
import XmlRecords.Proofs.SchemaTextRoundTrip

/-!
# Texts of schemas that can be read

The text of a schema nests as deeply as records are described within each other,
which is as deep as a chain of types that refer to each other for the first time.
It is read back as a copy of the schema up to the deepest nesting that is read, and
not at all beyond that.
-/

namespace XmlRecords

namespace SchemaWriter

variable {graph : Graph}

theorem haveTerse_fieldTexts {write : Nat → List Nat → TypeText × List Nat}
    (terse : ∀ id written, (write id written).1.isTerse)
    (written : List Nat) (fields : List Field) :
    TypeText.haveTerse (fieldTexts graph write written fields).1 := by
  induction fields generalizing written with
  | nil => rfl
  | cons field rest ih =>
      rw [fieldTexts, TypeText.haveTerse, terse, ih]
      rfl

/-- The writer describes no kind of type that has a name. -/
theorem isTerse_typeText (graph : Graph) (names : List (Nat × String))
    (fuel id : Nat) (written : List Nat) :
    (typeText graph names fuel id written).1.isTerse := by
  induction fuel generalizing id written with
  | zero => rfl
  | succ fuel ih =>
      rw [typeText]
      split
      · rfl
      · next kind logical _ =>
          cases logical with
          | none => rfl
          | some logical => cases logical <;> rfl
      · dsimp only
        split
        · rfl
        · exact haveTerse_fieldTexts ih _ _
      · exact ih _ _
      · next inner _ =>
          have inside := ih inner written
          simp [TypeText.isTerse, TypeText.areTerse, inside]
      · exact ih _ _

end SchemaWriter

namespace Graph

variable {graph : Graph}

theorem isTerse_of_toTypeText {type : TypeText}
    (written : graph.toTypeText = .ok type) : type.isTerse := by
  unfold toTypeText at written
  split at written
  · cases written
  · cases written
    exact SchemaWriter.isTerse_typeText _ _ _ _ _

theorem ofText_of_toTypeText {type : TypeText}
    (written : graph.toTypeText = .ok type) :
    graph.toText = .ok type.toJson.pretty ∧
      ofText type.toJson.pretty.toList =
        if type.toJson.nesting ≤ Json.maxNesting then ofTypeText type
        else .error (.format .notJson) := by
  constructor
  · rw [toText, written]
    rfl
  · exact ofText_pretty (isTerse_of_toTypeText written)

/-- The text of a graph that was lowered is read back as a copy of the graph
exactly if it nests no deeper than is read. -/
theorem ofText_of_ofComponents {components : Components}
    (plain : ∀ name ∈ components.names, name.Plain) {wanted : Option String}
    (built : ofComponents components wanted = .ok graph) :
    ∃ type text copy place, graph.toTypeText = .ok type ∧
      graph.toText = .ok text ∧ copy.Mirrors graph place ∧
        ofText text.toList =
          if type.toJson.nesting ≤ Json.maxNesting then .ok copy
          else .error (.format .notJson) := by
  obtain ⟨root, writable⟩ := (Obtained.lowered plain built).writable
  obtain ⟨type, copy, place, written, read, mirrors, _⟩ :=
    writable.exists_copy
  obtain ⟨texted, readable⟩ := ofText_of_toTypeText written
  rw [read] at readable
  exact ⟨type, _, copy, place, written, texted, mirrors, readable⟩

/-- The schema of trees nests five levels of arrays and objects. -/
theorem ofText_treeGraph :
    (∀ name ∈ treeComponents.names, name.Plain) ∧
      ofComponents treeComponents none = .ok treeGraph ∧
        ∃ text copy place, treeGraph.toText = .ok text ∧
          copy.Mirrors treeGraph place ∧ ofText text.toList = .ok copy := by
  refine ⟨plain_names_treeComponents, ofComponents_treeComponents, ?_⟩
  obtain ⟨type, text, copy, place, written, texted, mirrors, read⟩ :=
    ofText_of_ofComponents plain_names_treeComponents
      ofComponents_treeComponents
  have shallow : treeGraph.toTypeText.toOption.map (·.toJson.nesting) =
      some 5 := by
    decide +kernel
  have nesting : type.toJson.nesting = 5 := by
    simpa [written, Except.toOption] using shallow
  have fits : type.toJson.nesting ≤ Json.maxNesting := by
    rw [nesting]
    decide
  rw [if_pos fits] at read
  exact ⟨text, copy, place, texted, mirrors, read⟩

/-- A chain of types without names, each with one element of the next. -/
def chainComponents (count : Nat) : Components where
  roots := [⟨⟨"r", none⟩, .complex 0⟩]
  types := ((List.range count).map fun id =>
    { content := some (.element .once ⟨⟨"a", none⟩,
        if id + 1 < count then .complex (id + 1) else .simple .string⟩) }).toArray

/-- Each type of a chain is described three levels below the one before, so the
text of the schema of forty-three types cannot be read. -/
theorem text_of_chain_unreadable :
    (∀ name ∈ (chainComponents 43).names, name.Plain) ∧
      ∃ graph text, ofComponents (chainComponents 43) none = .ok graph ∧
        graph.toText = .ok text ∧
          ofText text.toList = .error (.format .notJson) := by
  refine ⟨by decide +kernel, ?_⟩
  have deep : ((ofComponents (chainComponents 43) none).toOption.bind fun graph =>
      graph.toTypeText.toOption).map (·.toJson.nesting) = some 129 := by
    decide +kernel
  cases built : ofComponents (chainComponents 43) none with
  | error e => simp [built, Except.toOption] at deep
  | ok graph =>
      cases written : graph.toTypeText with
      | error e => simp [built, written, Except.toOption] at deep
      | ok type =>
          obtain ⟨texted, read⟩ := ofText_of_toTypeText written
          have nesting : type.toJson.nesting = 129 := by
            simpa [built, written, Except.toOption] using deep
          have exceeds : ¬ type.toJson.nesting ≤ Json.maxNesting := by
            rw [nesting]
            decide
          rw [if_neg exceeds] at read
          exact ⟨graph, _, rfl, texted, read⟩

end Graph

end XmlRecords
