import Mathlib.Algebra.BigOperators.Group.Finset.Basic
import Mathlib.Data.List.Nodup
import XmlRecords.Proofs.Growth
import XmlRecords.Proofs.Names
import XmlRecords.SchemaText.Writer

/-!
# The way through a graph

Writing goes through a graph from its root and comes to every wrapper once.  What
it does is described by a relation without bounds: nodes are written in a list,
after others that came before.  The order in which a reader will make the nodes
is noted along the way: a record stands in front of its fields and a wrapper
behind what it is around.
-/

namespace XmlRecords

namespace SchemaWriter

/-- The written form of a field with a written type. -/
def fieldText (graph : Graph) (field : Field) (type : TypeText) : FieldText :=
  .field field.name type field.origin.provenance (graph.isOptional field.node)

/-- What is written for a node that is no wrapper when it is met again. -/
def nameText (graph : Graph) (id : Nat) : Node → TypeText
  | .primitive kind logical => primitiveText kind logical
  | _ => .name (graph.recordName id)

/-- The description of a record whose fields have written types. -/
def recordText (graph : Graph) (id : Nat) (r : Record) (types : List TypeText) :
    TypeText :=
  .record (graph.recordName id) (r.name.bind (·.ns)) (sourceText r.source)
    (List.zipWith (fieldText graph) r.fields types)

/-- The written form of a wrapper around a written type. -/
def wrapperText (type : TypeText) : Node → TypeText
  | .array _ => .array type
  | .optional _ => .union [.name "null", type]
  | .map _ => .map type
  | _ => type

/-- The nodes of a list are written as texts, which turns the order of the nodes
before them into a longer one. -/
inductive Writes (graph : Graph) :
    List Nat → List Nat → List TypeText → List Nat → Prop where
  | done (order : List Nat) : Writes graph [] order [] order
  | again {id : Nat} {node : Node} {rest order last : List Nat}
      {texts : List TypeText} (found : graph.node? id = some node)
      (plain : node.isWrapper = false) (member : id ∈ order)
      (more : Writes graph rest order texts last) :
      Writes graph (id :: rest) order (nameText graph id node :: texts) last
  | primitive {id : Nat} {kind : Primitive} {logical : Option Logical}
      {rest order last : List Nat} {texts : List TypeText}
      (found : graph.node? id = some (.primitive kind logical))
      (fresh : id ∉ order)
      (more : Writes graph rest (order ++ [id]) texts last) :
      Writes graph (id :: rest) order (primitiveText kind logical :: texts) last
  | record {id : Nat} {r : Record} {rest order between last : List Nat}
      {types texts : List TypeText}
      (found : graph.node? id = some (.record r)) (fresh : id ∉ order)
      (fields : Writes graph (r.fields.map (·.node)) (order ++ [id]) types
        between)
      (more : Writes graph rest between texts last) :
      Writes graph (id :: rest) order (recordText graph id r types :: texts)
        last
  | wrapper {id inner : Nat} {node : Node} {rest order between last : List Nat}
      {type : TypeText} {texts : List TypeText}
      (found : graph.node? id = some node) (isWrapper : node.isWrapper)
      (around : node.targets = [inner])
      (inside : Writes graph [inner] order [type] between)
      (fresh : id ∉ between)
      (more : Writes graph rest (between ++ [id]) texts last) :
      Writes graph (id :: rest) order (wrapperText type node :: texts) last

namespace Writes

variable {graph : Graph} {ids rest order between last : List Nat}
  {texts more : List TypeText}

theorem append (first : Writes graph ids order texts between)
    (second : Writes graph rest between more last) :
    Writes graph (ids ++ rest) order (texts ++ more) last := by
  induction first with
  | done => exact second
  | again found plain member _ ih => exact .again found plain member (ih second)
  | primitive found fresh _ ih => exact .primitive found fresh (ih second)
  | record found fresh fields _ _ ih =>
      exact .record found fresh fields (ih second)
  | wrapper found isWrapper around inside fresh _ _ ih =>
      exact .wrapper found isWrapper around inside fresh (ih second)

/-- There is one way to write nodes. -/
theorem deterministic {last' : List Nat}
    (one : Writes graph ids order texts last)
    (two : Writes graph ids order more last') : texts = more ∧ last = last' := by
  induction one generalizing more last' with
  | done =>
      cases two
      exact ⟨rfl, rfl⟩
  | again found plain member _ ih =>
      cases two with
      | again found' _ _ two =>
          obtain ⟨rfl, rfl⟩ := ih two
          rw [found] at found'
          cases found'
          exact ⟨rfl, rfl⟩
      | primitive _ fresh => exact absurd member fresh
      | record _ fresh => exact absurd member fresh
      | wrapper found' isWrapper =>
          rw [found] at found'
          cases found'
          rw [plain] at isWrapper
          cases isWrapper
  | primitive found fresh _ ih =>
      cases two with
      | again _ _ member => exact absurd member fresh
      | primitive found' _ two =>
          obtain ⟨rfl, rfl⟩ := ih two
          rw [found] at found'
          cases found'
          exact ⟨rfl, rfl⟩
      | record found' =>
          rw [found] at found'
          cases found'
      | wrapper found' isWrapper =>
          rw [found] at found'
          cases found'
          cases isWrapper
  | record found fresh _ _ ihFields ih =>
      cases two with
      | again _ _ member => exact absurd member fresh
      | primitive found' =>
          rw [found] at found'
          cases found'
      | record found' _ fields two =>
          rw [found] at found'
          cases found'
          obtain ⟨rfl, rfl⟩ := ihFields fields
          obtain ⟨rfl, rfl⟩ := ih two
          exact ⟨rfl, rfl⟩
      | wrapper found' isWrapper =>
          rw [found] at found'
          cases found'
          cases isWrapper
  | wrapper found isWrapper around _ _ _ ihInside ih =>
      cases two with
      | again found' plain =>
          rw [found] at found'
          cases found'
          rw [plain] at isWrapper
          cases isWrapper
      | primitive found' =>
          rw [found] at found'
          cases found'
          cases isWrapper
      | record found' =>
          rw [found] at found'
          cases found'
          cases isWrapper
      | wrapper found' _ around' inside' _ two =>
          rw [found] at found'
          cases found'
          rw [around] at around'
          cases around'
          obtain ⟨types, rfl⟩ := ihInside inside'
          cases types
          obtain ⟨rfl, rfl⟩ := ih two
          exact ⟨rfl, rfl⟩

theorem isPrefix (writes : Writes graph ids order texts last) :
    order <+: last := by
  induction writes with
  | done => exact List.prefix_rfl
  | again _ _ _ _ ih => exact ih
  | primitive _ _ _ ih => exact (List.prefix_append _ _).trans ih
  | record _ _ _ _ ihFields ih =>
      exact (List.prefix_append _ _).trans (ihFields.trans ih)
  | wrapper _ _ _ _ _ _ ihInside ih =>
      exact ihInside.trans ((List.prefix_append _ _).trans ih)

theorem mem_last (writes : Writes graph ids order texts last) :
    ∀ id ∈ ids, id ∈ last := by
  induction writes with
  | done => simp
  | again _ _ member more ih =>
      exact List.forall_mem_cons.2 ⟨more.isPrefix.subset member, ih⟩
  | primitive _ _ more ih =>
      exact List.forall_mem_cons.2 ⟨more.isPrefix.subset (by simp), ih⟩
  | record _ _ fields more _ ih =>
      have member := fields.isPrefix.subset (List.mem_append_right _
        (List.mem_singleton.2 rfl))
      exact List.forall_mem_cons.2 ⟨more.isPrefix.subset member, ih⟩
  | wrapper _ _ _ _ _ more _ ih =>
      exact List.forall_mem_cons.2 ⟨more.isPrefix.subset (by simp), ih⟩

end Writes

end SchemaWriter

end XmlRecords
