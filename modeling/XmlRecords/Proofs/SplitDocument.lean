import XmlRecords.Proofs.Beside
import XmlRecords.Proofs.Collecting
import XmlRecords.Proofs.LoweredGraph

/-!
# Documents split into their children

A document that can be transcoded as a whole can also be split.  The children of
its document element then become the values that the whole document holds along
their routes.
-/

namespace XmlRecords

namespace Graph

variable {graph : Graph} {allowed : QName → Prop} {root id : Nat}
  {record : Record} {settings : Settings}

/-- The record that a document element with a name is matched against, if it is
matched against one. -/
def rootRecord? (graph : Graph) (name : QName) : Option Record := do
  let root ← graph.root
  match graph.documentRecord? root with
  | none => graph.record? root
  | some choice => do
      let index ← choice.elementField? name
      let field ← choice.fields[index]?
      graph.record? (graph.elementType field.node)

/-- What the value of a document holds for a document element with a name. -/
def rootValue? (graph : Graph) (name : QName) (value : Value) : Option Value :=
  match graph.root.bind graph.documentRecord? with
  | none => some value
  | some choice => (choice.elementField? name).bind value.slots.get?

theorem depth_lt_of_mem_children {element child : Element}
    (member : child ∈ element.children) : child.depth < element.depth := by
  obtain ⟨name, attributes, content⟩ := element
  rw [Element.children] at member
  change child.depth < Content.depthOfList content + 1
  induction content with
  | nil => cases member
  | cons item rest ih =>
      rw [Content.depthOfList]
      rw [List.filterMap_cons] at member
      cases item with
      | text value =>
          have below := ih member
          omega
      | element name attributes content =>
          rcases List.mem_cons.1 member with rfl | member
          · have same : (Element.mk name attributes content).depth =
                (Content.element name attributes content).depth := rfl
            omega
          · have below := ih member
            omega

theorem checkDepth_of_fits {element : Element}
    (fits : element.depth ≤ settings.maxDepth) :
    checkDepth settings element = .ok () := by
  rw [checkDepth, if_neg (Nat.not_lt_of_le fits)]

theorem childrenRecord_of_record? (rooted : graph.root = some root)
    (plain : graph.documentRecord? root = none)
    (found : graph.record? root = some record) (name : QName) :
    Stream.childrenRecord graph name = .ok root := by
  rw [Stream.childrenRecord, rootNode, rooted]
  simp only [bind, Except.bind, pure, Except.pure, plain, found,
    Option.isSome_some, if_true]

theorem childrenRecord_of_documentRecord? {choice : Record} {index : Nat}
    {field : Field} {name : QName} (rooted : graph.root = some root)
    (isChoice : graph.documentRecord? root = some choice)
    (named : choice.elementField? name = some index)
    (listed : choice.fields[index]? = some field)
    (found : graph.record? (graph.elementType field.node) = some record) :
    Stream.childrenRecord graph name = .ok (graph.elementType field.node) := by
  rw [Stream.childrenRecord, rootNode, rooted]
  simp only [bind, Except.bind, pure, Except.pure, isChoice, documentField,
    named, listed, found, Option.isSome_some, if_true]

theorem exists_field_of_rootRecord? {choice : Record} {name : QName}
    (rooted : graph.root = some root)
    (isChoice : graph.documentRecord? root = some choice)
    (matched : graph.rootRecord? name = some record) :
    ∃ index field, choice.elementField? name = some index ∧
      choice.fields[index]? = some field ∧
        graph.record? (graph.elementType field.node) = some record := by
  rw [rootRecord?, rooted] at matched
  simp only [bind, Option.bind_some, isChoice] at matched
  obtain ⟨index, named, matched⟩ := Option.bind_eq_some_iff.1 matched
  obtain ⟨field, listed, matched⟩ := Option.bind_eq_some_iff.1 matched
  exact ⟨index, field, named, listed, matched⟩

theorem source_of_documentRecord? {choice : Record}
    (isChoice : graph.documentRecord? id = some choice) :
    graph.record? id = some choice ∧ choice.source = .document := by
  obtain ⟨found, source⟩ := Option.filter_eq_some_iff.1 isChoice
  exact ⟨found, eq_of_beq source⟩

/-- A field for the choice of a document element is matched as what it may
hold. -/
theorem Lowered.convert_choice (lowered : graph.Lowered allowed root)
    {choice : Record} {index : Nat} {field : Field}
    (isChoice : graph.documentRecord? root = some choice)
    (listed : choice.fields[index]? = some field) (zone : Zone)
    (element : Element) :
    graph.convert zone field.node element =
      graph.convert zone (graph.elementType field.node) element := by
  obtain ⟨found, source⟩ := source_of_documentRecord? isChoice
  obtain ⟨inner, optional⟩ := lowered.choices choice found source field
    (List.mem_of_getElem? listed)
  have base : graph.IsBase inner := (lowered.fits _ _ optional).wraps
  obtain ⟨node, present, plain⟩ := base.exists_node
  rw [elementType_optional lowered.linked optional,
    elementType_of_isWrapper_eq_false present plain]
  exact lowered.convert_optional optional zone element

/-- A document that is transcoded as a whole is split below the node that its
element is matched against. -/
theorem Lowered.exists_parent (lowered : graph.Lowered allowed root)
    {element : Element} {value : Value}
    (whole : graph.transcodeRoot settings root element = .ok value)
    (matched : graph.rootRecord? element.name = some record) :
    ∃ parent inner, graph.rootValue? element.name value = some inner ∧
      Stream.childrenRecord graph element.name = .ok parent ∧
      graph.record? parent = some record ∧
      element.depth ≤ settings.maxDepth ∧
      graph.convert settings.zone parent element = .ok inner := by
  obtain ⟨_, checked, whole⟩ := Outcome.bind_eq_ok.1 whole
  have fits : element.depth ≤ settings.maxDepth := by
    rw [checkDepth] at checked
    split at checked
    · cases checked
    · omega
  rw [rootValue?, lowered.rooted, Option.bind_some]
  cases isChoice : graph.documentRecord? root with
  | none =>
      rw [isChoice] at whole
      have found : graph.record? root = some record := by
        rw [rootRecord?, lowered.rooted] at matched
        simpa only [bind, Option.bind_some, isChoice] using matched
      exact ⟨root, value, rfl,
        childrenRecord_of_record? lowered.rooted isChoice found element.name,
        found, fits, whole⟩
  | some choice =>
      obtain ⟨index, field, named, listed, found⟩ :=
        exists_field_of_rootRecord? lowered.rooted isChoice matched
      have chosen : documentField choice element.name =
          .ok (index, field.node) := by
        simp only [documentField, named, listed]
      rw [isChoice] at whole
      obtain ⟨_, choosing, whole⟩ := Outcome.bind_eq_ok.1 whole
      cases chosen.symm.trans choosing
      obtain ⟨inner, converted, same⟩ := Outcome.bind_eq_ok.1 whole
      cases same
      rw [lowered.convert_choice isChoice listed] at converted
      have inside : index < (choice.fields.map fun _ =>
          (none : Option Value)).length := by
        rw [List.length_map]
        exact (List.getElem?_eq_some_iff.1 listed).1
      refine ⟨graph.elementType field.node, inner, ?_,
        childrenRecord_of_documentRecord? lowered.rooted isChoice named listed
          found, found, fits, converted⟩
      dsimp only
      rw [named]
      exact Slots.get?_put inside inner

end Graph

namespace Stream

variable {graph : Graph} {settings : Settings} {record : Record} {parent : Nat}

end Stream

/-- Two keys, the first with a value, and something else. -/
def pairs : Element :=
  ⟨⟨"pairs", none⟩, [], [
    .element ⟨"key", none⟩ [] [.text "a"],
    .element ⟨"value", none⟩ [] [.text "1"],
    .element ⟨"key", none⟩ [] [.text "b"],
    .element ⟨"note", none⟩ [] []]⟩

end XmlRecords
