import XmlRecords.Proofs.TwinValues
import XmlRecords.Value.Json

/-!
# Documents that do not depend on the copy

Transcoding a document, whole or split into the children of its element, gives
the same values with a graph and with its copy, and these are written as the same
JSON.
-/

namespace XmlRecords

namespace Graph

/-- A node that can be reached and its copy. -/
def SameNode (graph : Graph) (place : Nat → Nat) (id copyId : Nat) : Prop :=
  graph.Reachable id ∧ copyId = place id

namespace Twins

variable {graph copy : Graph} {place : Nat → Nat}

theorem rootNode_agree (twins : graph.Twins copy place) :
    Agree (graph.SameNode place) graph.rootNode copy.rootNode := by
  rw [rootNode, rootNode, twins.mirrors.root]
  cases rooted : graph.root with
  | none => exact .error rfl
  | some root => exact .ok ⟨.root rooted, rfl⟩

theorem documentRecord? (twins : graph.Twins copy place) {id : Nat}
    (reachable : graph.Reachable id) :
    Option.Rel (graph.Paired place) (graph.documentRecord? id)
      (copy.documentRecord? (place id)) := by
  rw [Graph.documentRecord?, Graph.documentRecord?]
  have records := twins.record? reachable
  generalize graph.record? id = here, copy.record? (place id) = there
    at records ⊢
  cases records with
  | none => exact .none
  | @some r s paired =>
      rw [Option.filter_some, Option.filter_some, paired.source]
      split
      · exact .some paired
      · exact .none

theorem documentField_agree {r s : Record} (paired : graph.Paired place r s)
    (name : QName) :
    Agree (fun here there =>
        there.1 = here.1 ∧ graph.SameNode place here.2 there.2)
      (documentField r name) (documentField s name) := by
  rw [documentField, documentField, paired.elementField?]
  cases r.elementField? name with
  | none => exact .error rfl
  | some index =>
      simp only [paired.getElem?]
      cases found : r.fields[index]? with
      | none => exact .error rfl
      | some field =>
          exact .ok ⟨rfl, paired.reachable (List.mem_of_getElem? found), rfl⟩

/-- A document element becomes the same against a node and its copy. -/
theorem transcodeRoot_agree (twins : graph.Twins copy place)
    (settings : Settings) {id : Nat} (reachable : graph.Reachable id)
    (element : Element) :
    Agree Eq (graph.transcodeRoot settings id element)
      (copy.transcodeRoot settings (place id) element) := by
  rw [transcodeRoot, transcodeRoot]
  refine (Agree.refl (checkDepth settings element)).bind ?_
  rintro _ _ rfl
  have records := twins.documentRecord? reachable
  generalize graph.documentRecord? id = here,
    copy.documentRecord? (place id) = there at records ⊢
  cases records with
  | none => exact twins.convert_agree settings.zone reachable element
  | @some r s paired =>
      refine (documentField_agree paired element.name).bind ?_
      rintro ⟨index, node⟩ ⟨index', node'⟩ ⟨same, inside, copied⟩
      obtain rfl : index' = index := same
      obtain rfl : node' = place node := copied
      refine (twins.convert_agree settings.zone inside element).bind ?_
      rintro value _ rfl
      rw [paired.fields, List.map_map]
      exact .refl _

theorem transcodeDocument_agree (twins : graph.Twins copy place)
    (settings : Settings) (element : Element) :
    Agree Eq (graph.transcodeDocument settings element)
      (copy.transcodeDocument settings element) := by
  rw [transcodeDocument, transcodeDocument]
  refine twins.rootNode_agree.bind ?_
  rintro root _ ⟨reachable, rfl⟩
  exact twins.transcodeRoot_agree settings reachable element

theorem itemNode (twins : graph.Twins copy place) {id : Nat}
    (reachable : graph.Reachable id) :
    graph.Reachable (Value.itemNode graph id) ∧
      Value.itemNode copy (place id) = place (Value.itemNode graph id) := by
  obtain ⟨node, found, present⟩ := twins.mirrors.nodes id reachable
  rw [Value.itemNode, Value.itemNode, found, present]
  cases node with
  | array item => exact ⟨.target reachable found List.mem_cons_self, rfl⟩
  | _ => exact ⟨reachable, rfl⟩

mutual

/-- A value is written against a node as against its copy. -/
theorem toJson_eq (twins : graph.Twins copy place) {id : Nat}
    (reachable : graph.Reachable id) (value : Value) :
    value.toJson copy (place id) = value.toJson graph id := by
  cases value with
  | array items =>
      obtain ⟨required, same⟩ := twins.requiredType reachable
      obtain ⟨inside, item⟩ := twins.itemNode required
      rw [Value.toJson, Value.toJson, same, item, itemsJson_eq twins inside items]
  | record slots =>
      obtain ⟨required, same⟩ := twins.requiredType reachable
      rw [Value.toJson, Value.toJson, same]
      have records := twins.record? required
      generalize graph.record? (graph.requiredType id) = here,
        copy.record? (place (graph.requiredType id)) = there at records ⊢
      cases records with
      | none => rfl
      | @some r s paired =>
          simp only [paired.fields,
            slotsJson_eq twins (fun _ member => paired.reachable member) slots]
  | _ => rw [Value.toJson, Value.toJson]

theorem itemsJson_eq (twins : graph.Twins copy place) {id : Nat}
    (reachable : graph.Reachable id) (items : List Value) :
    Value.itemsJson copy (place id) items = Value.itemsJson graph id items := by
  cases items with
  | nil => rfl
  | cons item rest =>
      rw [Value.itemsJson, Value.itemsJson, toJson_eq twins reachable item,
        itemsJson_eq twins reachable rest]

theorem slotJson_eq (twins : graph.Twins copy place) {id : Nat}
    (reachable : graph.Reachable id) (slot : Option Value) :
    Value.slotJson copy (place id) slot = Value.slotJson graph id slot := by
  cases slot with
  | none => rfl
  | some value =>
      rw [Value.slotJson, Value.slotJson, toJson_eq twins reachable value]

theorem slotsJson_eq (twins : graph.Twins copy place) {fields : List Field}
    (reachable : ∀ field ∈ fields, graph.Reachable field.node)
    (slots : List (Option Value)) :
    Value.slotsJson copy (fields.map (Field.moved place)) slots =
      Value.slotsJson graph fields slots := by
  cases slots with
  | nil => cases fields <;> rfl
  | cons slot rest =>
      cases fields with
      | nil => rfl
      | cons field fields =>
          obtain ⟨first, others⟩ := List.forall_mem_cons.1 reachable
          rw [List.map_cons, Value.slotsJson, Value.slotsJson,
            slotsJson_eq twins others rest, Field.moved,
            slotJson_eq twins first slot]

end

end Twins

end Graph

end XmlRecords
