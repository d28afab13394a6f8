import XmlRecords.Proofs.Growth

/-!
# Below wrappers

Wrappers refer to nodes in front of them, so the bounded search for the node
below them always gets there.
-/

namespace XmlRecords

namespace Graph

variable {graph : Graph} {pending : List Nat} {id inner : Nat}

theorem stripWrappers_of_lt (linked : graph.Linked pending) {fuel more : Nat}
    (enough : id < fuel) (alsoEnough : id < more) :
    graph.stripWrappers fuel id = graph.stripWrappers more id := by
  induction fuel generalizing more id with
  | zero => exact absurd enough (Nat.not_lt_zero _)
  | succ fuel ih =>
      obtain ⟨more, rfl⟩ := Nat.exists_eq_succ_of_ne_zero (Nat.ne_zero_of_lt alsoEnough)
      rw [stripWrappers, stripWrappers]
      split
      · next inner found =>
          have below := linked.descends id _ found rfl inner List.mem_cons_self
          exact ih (by omega) (by omega)
      · next inner found =>
          have below := linked.descends id _ found rfl inner List.mem_cons_self
          exact ih (by omega) (by omega)
      · rfl

theorem stripOptional_of_lt (linked : graph.Linked pending) {fuel more : Nat}
    (enough : id < fuel) (alsoEnough : id < more) :
    graph.stripOptional fuel id = graph.stripOptional more id := by
  induction fuel generalizing more id with
  | zero => exact absurd enough (Nat.not_lt_zero _)
  | succ fuel ih =>
      obtain ⟨more, rfl⟩ := Nat.exists_eq_succ_of_ne_zero (Nat.ne_zero_of_lt alsoEnough)
      rw [stripOptional, stripOptional]
      split
      · next inner found =>
          have below := linked.descends id _ found rfl inner List.mem_cons_self
          exact ih (by omega) (by omega)
      · rfl

theorem elementType_optional (linked : graph.Linked pending)
    (found : graph.node? id = some (.optional inner)) :
    graph.elementType id = graph.elementType inner := by
  have below := linked.descends id _ found rfl inner List.mem_cons_self
  have inside := lt_size_of_node? found
  rw [elementType, stripWrappers, found]
  exact stripWrappers_of_lt linked (by omega) (by omega)

theorem elementType_array (linked : graph.Linked pending)
    (found : graph.node? id = some (.array inner)) :
    graph.elementType id = graph.elementType inner := by
  have below := linked.descends id _ found rfl inner List.mem_cons_self
  have inside := lt_size_of_node? found
  rw [elementType, stripWrappers, found]
  exact stripWrappers_of_lt linked (by omega) (by omega)

theorem requiredType_optional (linked : graph.Linked pending)
    (found : graph.node? id = some (.optional inner)) :
    graph.requiredType id = graph.requiredType inner := by
  have below := linked.descends id _ found rfl inner List.mem_cons_self
  have inside := lt_size_of_node? found
  rw [requiredType, stripOptional, found]
  exact stripOptional_of_lt linked (by omega) (by omega)

theorem elementType_of_isWrapper_eq_false {node : Node}
    (found : graph.node? id = some node) (plain : node.isWrapper = false) :
    graph.elementType id = id := by
  rw [elementType, stripWrappers, found]
  cases node with
  | primitive kind logical => rfl
  | record r => rfl
  | _ => cases plain

theorem elementType_map {values : Nat}
    (found : graph.node? id = some (.map values)) :
    graph.elementType id = id := by
  rw [elementType, stripWrappers, found]

theorem requiredType_of_ne_optional {node : Node}
    (found : graph.node? id = some node)
    (required : ∀ inner, node ≠ .optional inner) : graph.requiredType id = id := by
  rw [requiredType, stripOptional, found]
  cases node with
  | optional inner => exact absurd rfl (required inner)
  | _ => rfl

end Graph

end XmlRecords
