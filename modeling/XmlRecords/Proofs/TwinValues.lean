import XmlRecords.Proofs.Twins

/-!
# Values that do not depend on the copy

Whatever is put into the slots of a record is also put into those of its copy,
and what fails for one fails in the same way for the other.  So an element
becomes the same value against a node and against its copy.
-/

namespace XmlRecords

namespace Graph

/-- A child together with what it becomes against the nodes of a graph and
against their copies. -/
structure SameChild (graph : Graph) (place : Nat → Nat) (c d : Child) :
    Prop where
  element : d.element = c.element
  convert : ∀ id, graph.Reachable id →
    Agree Eq (c.convert id) (d.convert (place id))

namespace Twins

variable {graph copy : Graph} {place : Nat → Nat} {r s : Record}

theorem node? (twins : graph.Twins copy place) {id : Nat}
    (reachable : graph.Reachable id) :
    copy.node? (place id) =
      (graph.node? id).map (Node.copied (graph.recordName id) place) := by
  obtain ⟨node, found, present⟩ := twins.mirrors.nodes id reachable
  rw [found, present]
  rfl

theorem emptySlot (twins : graph.Twins copy place) {field : Field}
    (reachable : graph.Reachable field.node) :
    copy.emptySlot (field.moved place) = graph.emptySlot field := by
  rw [Graph.emptySlot, Graph.emptySlot, Field.moved, twins.node? reachable]
  cases graph.node? field.node with
  | none => rfl
  | some node => cases node <;> rfl

theorem emptySlots (twins : graph.Twins copy place)
    (paired : graph.Paired place r s) :
    copy.emptySlots s = graph.emptySlots r := by
  rw [Graph.emptySlots, Graph.emptySlots, paired.fields, List.map_map]
  exact List.map_congr_left fun field member =>
    twins.emptySlot (paired.reachable member)

theorem isArrayField (twins : graph.Twins copy place)
    (paired : graph.Paired place r s) (index : Nat) :
    copy.isArrayField s index = graph.isArrayField r index := by
  rw [Graph.isArrayField, Graph.isArrayField, paired.getElem?]
  cases found : r.fields[index]? with
  | none => rfl
  | some field =>
      have reachable := paired.reachable (List.mem_of_getElem? found)
      simp only [Option.map_some, Option.bind_some, Field.moved,
        twins.node? reachable]
      cases graph.node? field.node with
      | none => rfl
      | some node => cases node <;> rfl

theorem isRoundOver (twins : graph.Twins copy place)
    (paired : graph.Paired place r s) (slots : Slots) (target : Nat) :
    copy.isRoundOver s slots target = graph.isRoundOver r slots target := by
  rw [Graph.isRoundOver, Graph.isRoundOver, twins.isArrayField paired,
    paired.source, paired.fields, List.zipIdx_map, List.any_map]
  rfl

theorem currentRound (twins : graph.Twins copy place)
    (paired : graph.Paired place r s) (target : Nat) (rounds : List Value) :
    copy.currentRound s target rounds = graph.currentRound r target rounds := by
  rw [Graph.currentRound, Graph.currentRound, twins.emptySlots paired]
  split
  · rw [twins.isRoundOver paired]
  · rfl

/-- A child that follows one route in a record and in its copy changes the slots
in the same way. -/
theorem place_agree (twins : graph.Twins copy place) {c d : Child}
    (same : graph.SameChild place c d) {route route' : Route}
    (routes : graph.SameRoute place route route')
    (paired : graph.Paired place r s) (slots : Slots) :
    Agree Eq (graph.place c r route slots) (copy.place d s route' slots) := by
  induction routes generalizing r s slots with
  | field index =>
      rw [Graph.place, Graph.place, paired.getElem?]
      cases found : r.fields[index]? with
      | none => exact .refl _
      | some field =>
          have reachable := paired.reachable (List.mem_of_getElem? found)
          obtain ⟨node, original, present⟩ :=
            twins.mirrors.nodes field.node reachable
          have single : Agree Eq
              (if (slots.get? index).isSome then
                .error (.field (.repeatedElement c.element.name r.title))
              else (c.convert field.node).map (slots.put index))
              (if (slots.get? index).isSome then
                .error (.field (.repeatedElement d.element.name s.title))
              else (d.convert (place field.node)).map (slots.put index)) := by
            split
            · exact .error rfl
            · exact (same.convert field.node reachable).map
                fun _ _ value => congrArg _ value
          simp only [Option.map_some, Field.moved, original, present]
          cases node with
          | array item =>
              exact (same.convert item
                (.target reachable original List.mem_cons_self)).map
                fun _ _ value => congrArg _ value
          | _ => exact single
  | group index items more ih =>
      rw [Graph.place, Graph.place]
      split
      · next rounds _ =>
          rw [more.index_eq, twins.currentRound items]
          exact (ih items _).bind fun round round' value =>
            value ▸ .refl _
      · exact .refl _
  | wildcard index =>
      rw [Graph.place, Graph.place, same.element]
      exact .refl _

theorem placeChildren_agree (twins : graph.Twins copy place)
    (paired : graph.Paired place r s) {cs ds : List Child}
    (children : List.Forall₂ (graph.SameChild place) cs ds) (slots : Slots) :
    Agree Eq (graph.placeChildren r slots cs) (copy.placeChildren s slots ds) := by
  induction children generalizing slots with
  | nil => exact .refl _
  | @cons c d _ _ same _ ih =>
      rw [Graph.placeChildren, Graph.placeChildren, same.element]
      have led := twins.route? c.element.name paired
      generalize graph.route? r c.element.name = route,
        copy.route? s c.element.name = route' at led ⊢
      cases led with
      | none => exact .error rfl
      | some routes =>
          exact (twins.place_agree same routes paired slots).bind
            fun filled filled' value => value ▸ ih filled

theorem readAttribute_agree (twins : graph.Twins copy place) (zone : Zone)
    {id : Nat} (reachable : graph.Reachable id) (text : String) :
    Agree Eq (graph.readAttribute zone id text)
      (copy.readAttribute zone (place id) text) := by
  obtain ⟨below, same⟩ := twins.elementType reachable
  rw [Graph.readAttribute, Graph.readAttribute, same, twins.node? below]
  cases graph.node? (graph.elementType id) with
  | none => exact .refl _
  | some node => cases node <;> exact .refl _

theorem placeAttribute_agree (twins : graph.Twins copy place) (zone : Zone)
    (paired : graph.Paired place r s) (slots : Slots) (a : Attribute) :
    Agree Eq (graph.placeAttribute zone r slots a)
      (copy.placeAttribute zone s slots a) := by
  rw [Graph.placeAttribute, Graph.placeAttribute, paired.attributeField?,
    paired.attributeWildcard]
  cases r.attributeField? a.name with
  | some index =>
      simp only [paired.getElem?]
      cases found : r.fields[index]? with
      | none => exact .refl _
      | some field =>
          have reachable := paired.reachable (List.mem_of_getElem? found)
          exact (twins.readAttribute_agree zone reachable a.value).map
            fun _ _ value => congrArg _ value
  | none =>
      cases r.attributeWildcard with
      | none => exact .error rfl
      | some index => exact .refl _

theorem placeAttributes_agree (twins : graph.Twins copy place) (zone : Zone)
    (paired : graph.Paired place r s) (attributes : List Attribute)
    (slots : Slots) :
    Agree Eq (graph.placeAttributes zone r slots attributes)
      (copy.placeAttributes zone s slots attributes) := by
  induction attributes generalizing slots with
  | nil => exact .refl _
  | cons a rest ih =>
      rw [Graph.placeAttributes, Graph.placeAttributes]
      split
      · exact ih slots
      · exact (twins.placeAttribute_agree zone paired slots a).bind
          fun filled filled' value => value ▸ ih filled

theorem entries_eq {cs ds : List Child}
    (children : List.Forall₂ (graph.SameChild place) cs ds)
    (entries : List (String × String)) :
    ds.foldl (fun entries (child : Child) =>
        Association.insert child.element.name.name
          child.element.innerMarkup entries) entries =
      cs.foldl (fun entries (child : Child) =>
        Association.insert child.element.name.name
          child.element.innerMarkup entries) entries := by
  induction children generalizing entries with
  | nil => rfl
  | cons same _ ih =>
      rw [List.foldl_cons, List.foldl_cons, same.element]
      exact ih _

/-- Against a node and its copy an element becomes the same in the same number of
steps. -/
theorem convertWith_agree (twins : graph.Twins copy place) (zone : Zone)
    (element : Element) {cs ds : List Child}
    (children : List.Forall₂ (graph.SameChild place) cs ds) (fuel : Nat)
    {id : Nat} (reachable : graph.Reachable id) :
    Agree Eq (graph.convertWith zone element cs fuel id)
      (copy.convertWith zone element ds fuel (place id)) := by
  induction fuel generalizing id with
  | zero => exact .refl _
  | succ fuel ih =>
      obtain ⟨node, found, present⟩ := twins.mirrors.nodes id reachable
      rw [convertWith, convertWith, found, present]
      cases node with
      | primitive kind logical => exact .refl _
      | record r =>
          have paired : graph.Paired place r
              (r.copied (graph.recordName id) place) :=
            ⟨id, reachable, record?_eq_some_iff.2 found, rfl⟩
          simp only [Node.copied, twins.emptySlots paired]
          refine (twins.placeChildren_agree paired children _).bind ?_
          rintro slots _ rfl
          refine (twins.placeAttributes_agree zone paired _ slots).bind ?_
          rintro slots _ rfl
          simp only [paired.text, paired.getElem?]
          cases r.text with
          | none => exact .refl _
          | some index =>
              rw [Option.bind_some, Option.bind_some]
              cases listed : r.fields[index]? with
              | none => exact .refl _
              | some field =>
                  have member := List.mem_of_getElem? listed
                  refine (ih (paired.reachable member)).bind ?_
                  rintro value _ rfl
                  exact .refl _
      | array item =>
          have items := Agree.mapM children fun c d same =>
            same.convert item (.target reachable found List.mem_cons_self)
          exact items.map fun values values' equal => by
            rw [List.forall₂_eq_eq_eq] at equal
            rw [equal]
      | optional inner =>
          exact ih (.target reachable found List.mem_cons_self)
      | map values =>
          simp only [Node.copied, entries_eq children]
          exact .refl _

theorem convert_agree_of_children (twins : graph.Twins copy place) (zone : Zone)
    (element : Element) {cs ds : List Child}
    (children : List.Forall₂ (graph.SameChild place) cs ds) {id : Nat}
    (reachable : graph.Reachable id) :
    Agree Eq
      (graph.convertWith zone element cs (graph.nodes.size + 1) id)
      (copy.convertWith zone element ds (copy.nodes.size + 1) (place id)) := by
  rw [twins.steps zone element cs id reachable]
  exact twins.convertWith_agree zone element children _ reachable

mutual

/-- The children of an element become the same against nodes and their copies. -/
theorem childrenOf_same (twins : graph.Twins copy place) (zone : Zone)
    (items : List Content) :
    List.Forall₂ (graph.SameChild place) (graph.childrenOf zone items)
      (copy.childrenOf zone items) := by
  cases items with
  | nil => exact .nil
  | cons item rest =>
      rw [childrenOf, childrenOf]
      exact List.rel_append (childOf_same twins zone item)
        (childrenOf_same twins zone rest)

theorem childOf_same (twins : graph.Twins copy place) (zone : Zone)
    (item : Content) :
    List.Forall₂ (graph.SameChild place) (graph.child? zone item).toList
      (copy.child? zone item).toList := by
  cases item with
  | text value => exact .nil
  | element name attributes content =>
      have children := childrenOf_same twins zone content
      rw [child?, child?]
      exact .cons ⟨rfl, fun id reachable =>
        twins.convert_agree_of_children zone _ children reachable⟩ .nil

end

theorem convert_agree (twins : graph.Twins copy place) (zone : Zone) {id : Nat}
    (reachable : graph.Reachable id) (element : Element) :
    Agree Eq (graph.convert zone id element)
      (copy.convert zone (place id) element) :=
  twins.convert_agree_of_children zone element
    (twins.childrenOf_same zone element.content) reachable

end Twins

end Graph

end XmlRecords
