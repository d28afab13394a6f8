import Mathlib.Algebra.BigOperators.Fin
import Mathlib.Data.Finset.Card
import XmlRecords.Proofs.Writing

/-!
# Every wrapper is met once

While a graph is walked through, each reference to a wrapper either is still to
be found at a node that has not been met, or waits to be followed, or has been
followed.  Since there is at most one such reference, no wrapper is met again.
Each node can be met for the first time only once, and so the walk comes to its
end within as many steps as there are nodes.
-/

namespace XmlRecords

namespace Graph

variable {graph : Graph} {seen : Finset Nat} {pending : List Nat} {id : Nat}

/-- The nodes that the node with a number refers to. -/
def targets (graph : Graph) (id : Nat) : List Nat :=
  (graph.node? id).elim [] Node.targets

theorem targets_of_node? {node : Node} (found : graph.node? id = some node) :
    graph.targets id = node.targets := by
  rw [targets, found]
  rfl

/-- The nodes that have not been met. -/
def unseen (graph : Graph) (seen : Finset Nat) : Finset Nat :=
  Finset.range graph.nodes.size \ seen

theorem count_references (graph : Graph) (id : Nat) :
    ∑ owner ∈ graph.unseen ∅, (graph.targets owner).count id =
      graph.references.count id := by
  have each : ∀ owner : Fin graph.nodes.toList.length,
      graph.targets owner = graph.nodes.toList[owner].targets := by
    intro owner
    apply targets_of_node?
    rw [node?, ← Array.getElem?_toList]
    exact List.getElem?_eq_getElem owner.isLt
  rw [unseen, Finset.sdiff_empty, references, List.count_flatMap,
    ← Array.length_toList, Finset.sum_range, ← Fin.sum_univ_fun_getElem]
  exact Finset.sum_congr rfl fun owner _ => by
    rw [each, Function.comp_apply]
    rfl

/-- Each wrapper has at most one reference to it, followed or not. -/
structure Budget (graph : Graph) (seen : Finset Nat) (pending : List Nat) :
    Prop where
  known : ∀ id ∈ pending, id < graph.nodes.size
  once : ∀ id node, graph.node? id = some node → node.isWrapper →
    pending.count id + ∑ owner ∈ graph.unseen seen, (graph.targets owner).count id +
      (if id ∈ seen then 1 else 0) ≤ 1

namespace Budget

theorem start (linked : graph.Linked pending) : graph.Budget ∅ pending where
  known := linked.known
  once := by
    intro id node found wrapper
    rw [count_references, ← List.count_append, if_neg (Finset.notMem_empty id)]
    exact linked.unshared id node found wrapper

theorem skip (budget : graph.Budget seen (id :: pending)) :
    graph.Budget seen pending where
  known := fun other member => budget.known other (List.mem_cons_of_mem _ member)
  once := by
    intro other node found wrapper
    have atMost := budget.once other node found wrapper
    rw [List.count_cons] at atMost
    omega

/-- A wrapper that waits has not been met. -/
theorem notMem {node : Node} (budget : graph.Budget seen (id :: pending))
    (found : graph.node? id = some node) (wrapper : node.isWrapper) :
    id ∉ seen := by
  intro member
  have atMost := budget.once id node found wrapper
  rw [List.count_cons_self, if_pos member] at atMost
  omega

/-- A node is met, and the references at it wait to be followed. -/
theorem expand (budget : graph.Budget seen (id :: pending)) (fresh : id ∉ seen)
    (closed : ∀ target ∈ graph.targets id, target < graph.nodes.size) :
    graph.Budget (insert id seen) (graph.targets id ++ pending) where
  known := by
    intro other member
    rcases List.mem_append.1 member with member | member
    · exact closed other member
    · exact budget.known other (List.mem_cons_of_mem _ member)
  once := by
    intro other node found wrapper
    have atMost := budget.once other node found wrapper
    have present : id ∈ graph.unseen seen :=
      Finset.mem_sdiff.2
        ⟨Finset.mem_range.2 (budget.known id List.mem_cons_self), fresh⟩
    have moved := Finset.add_sum_erase _
      (fun owner => (graph.targets owner).count other) present
    have rest : graph.unseen (insert id seen) = (graph.unseen seen).erase id :=
      Finset.sdiff_insert _ _ _
    rw [rest, List.count_append]
    rw [← moved, List.count_cons] at atMost
    by_cases same : other = id
    · subst same
      rw [if_pos (Finset.mem_insert_self _ _)]
      rw [if_neg fresh, beq_self_eq_true, if_pos rfl] at atMost
      omega
    · have kept : other ∈ insert id seen ↔ other ∈ seen := by
        rw [Finset.mem_insert, or_iff_right same]
      simp only [kept]
      omega

end Budget

theorem card_unseen_insert (inside : id < graph.nodes.size)
    (fresh : id ∉ seen) :
    (graph.unseen (insert id seen)).card + 1 = (graph.unseen seen).card := by
  have present : id ∈ graph.unseen seen :=
    Finset.mem_sdiff.2 ⟨Finset.mem_range.2 inside, fresh⟩
  rw [unseen, Finset.sdiff_insert]
  exact Finset.card_erase_add_one present

theorem card_unseen_le {later : Finset Nat} (more : seen ⊆ later) :
    (graph.unseen later).card ≤ (graph.unseen seen).card :=
  Finset.card_le_card (Finset.sdiff_subset_sdiff (Finset.Subset.refl _) more)

end Graph

namespace SchemaWriter

variable {graph : Graph}

/-- Where the walk stands: what is written, in which order nodes are noted, which
nodes have been met, and which wait. -/
structure Walk (graph : Graph) (written order : List Nat) (seen : Finset Nat)
    (pending : List Nat) : Prop where
  budget : graph.Budget seen pending
  met : ∀ id ∈ order, id ∈ seen
  noted : ∀ id node, graph.node? id = some node → node.isWrapper = false →
    id ∈ seen → id ∈ order
  written : ∀ id r, graph.node? id = some (.record r) →
    (id ∈ written ↔ id ∈ order)

/-- The walk went on to where nodes are written and noted, of which it had met
none before. -/
def Walked (graph : Graph) (ids order : List Nat) (seen : Finset Nat)
    (pending : List Nat) (texts : List TypeText) (written : List Nat) : Prop :=
  ∃ later last, Writes graph ids order texts last ∧
    Walk graph written last later pending ∧ seen ⊆ later ∧
    ∀ id ∈ last, id ∈ order ∨ id ∉ seen

/-- A way to write nodes that follows the walk while few nodes are unseen. -/
def Follows (graph : Graph) (steps : Nat)
    (write : Nat → List Nat → TypeText × List Nat) : Prop :=
  ∀ id written order seen pending,
    Walk graph written order seen (id :: pending) →
      (graph.unseen seen).card < steps →
        Walked graph [id] order seen pending [(write id written).1]
          (write id written).2

theorem walked_fieldTexts {steps : Nat}
    {write : Nat → List Nat → TypeText × List Nat}
    (follows : Follows graph steps write) {fields : List Field}
    {written order pending : List Nat} {seen : Finset Nat}
    (walk : Walk graph written order seen (fields.map (·.node) ++ pending))
    (enough : (graph.unseen seen).card < steps) :
    ∃ types, (fieldTexts graph write written fields).1 =
        List.zipWith (fieldText graph) fields types ∧
      Walked graph (fields.map (·.node)) order seen pending types
        (fieldTexts graph write written fields).2 := by
  induction fields generalizing written order seen with
  | nil =>
      exact ⟨[], rfl, seen, order, .done order, walk, Finset.Subset.refl _,
        fun id member => .inl member⟩
  | cons field rest ih =>
      obtain ⟨middle, between, one, walkRest, growth, fresh⟩ :=
        follows _ _ _ _ _ walk enough
      obtain ⟨types, same, later, last, more, walkEnd, growth', fresh'⟩ :=
        ih walkRest (Nat.lt_of_le_of_lt (Graph.card_unseen_le growth) enough)
      refine ⟨(write field.node written).1 :: types, ?_, later, last,
        one.append more, walkEnd, growth.trans growth', ?_⟩
      · rw [List.zipWith_cons_cons, ← same]
        rfl
      · intro id member
        rcases fresh' id member with old | new
        · exact fresh id old
        · exact .inr fun before => new (growth before)

/-- A node that is no wrapper and was noted is not written out again. -/
theorem walked_again {id : Nat} {node : Node} {written order pending : List Nat}
    {seen : Finset Nat} (found : graph.node? id = some node)
    (plain : node.isWrapper = false) (member : id ∈ order)
    (walk : Walk graph written order seen (id :: pending)) :
    Walked graph [id] order seen pending [nameText graph id node] written :=
  ⟨seen, order, .again found plain member (.done order),
    { walk with budget := walk.budget.skip }, Finset.Subset.refl _,
    fun _ member => .inl member⟩

theorem walked_primitive {id : Nat} {kind : Primitive}
    {logical : Option Logical} {written order pending : List Nat}
    {seen : Finset Nat}
    (found : graph.node? id = some (.primitive kind logical))
    (walk : Walk graph written order seen (id :: pending)) :
    Walked graph [id] order seen pending [primitiveText kind logical]
      written := by
  by_cases member : id ∈ order
  · exact walked_again found rfl member walk
  · have fresh : id ∉ seen := fun met => member (walk.noted id _ found rfl met)
    have noTargets : graph.targets id = [] := Graph.targets_of_node? found
    have budget := walk.budget.expand fresh (by simp [noTargets])
    rw [noTargets, List.nil_append] at budget
    refine ⟨insert id seen, order ++ [id],
      .primitive found member (.done _), ⟨budget, ?_, ?_, ?_⟩,
      Finset.subset_insert _ _, ?_⟩
    · intro other noted
      rcases List.mem_append.1 noted with noted | noted
      · exact Finset.mem_insert_of_mem (walk.met other noted)
      · exact List.mem_singleton.1 noted ▸ Finset.mem_insert_self _ _
    · intro other node present plain met
      rcases Finset.mem_insert.1 met with rfl | met
      · simp
      · exact List.mem_append_left _ (walk.noted other node present plain met)
    · intro other r present
      have differs : other ≠ id := by
        rintro rfl
        rw [found] at present
        cases present
      rw [walk.written other r present, List.mem_append, List.mem_singleton,
        or_iff_left differs]
    · intro other noted
      rcases List.mem_append.1 noted with noted | noted
      · exact .inl noted
      · exact .inr (List.mem_singleton.1 noted ▸ fresh)

/-- A record is noted and then its fields are written. -/
theorem walked_record {steps id : Nat} {r : Record}
    {write : Nat → List Nat → TypeText × List Nat}
    (follows : Follows graph steps write)
    {written order pending : List Nat} {seen : Finset Nat}
    (found : graph.node? id = some (.record r)) (unmet : id ∉ order)
    (closed : ∀ target ∈ graph.targets id, target < graph.nodes.size)
    (walk : Walk graph written order seen (id :: pending))
    (enough : (graph.unseen seen).card < steps + 1) :
    Walked graph [id] order seen pending
      [.record (graph.recordName id) (r.name.bind (·.ns)) (sourceText r.source)
        (fieldTexts graph write (id :: written) r.fields).1]
      (fieldTexts graph write (id :: written) r.fields).2 := by
  have fresh : id ∉ seen := fun met => unmet (walk.noted id _ found rfl met)
  have inside := walk.budget.known id List.mem_cons_self
  have started : Walk graph (id :: written) (order ++ [id]) (insert id seen)
      (r.fields.map (·.node) ++ pending) := by
    refine ⟨?_, ?_, ?_, ?_⟩
    · have budget := walk.budget.expand fresh closed
      rwa [Graph.targets_of_node? found] at budget
    · intro other noted
      rcases List.mem_append.1 noted with noted | noted
      · exact Finset.mem_insert_of_mem (walk.met other noted)
      · exact List.mem_singleton.1 noted ▸ Finset.mem_insert_self _ _
    · intro other node present plain met
      rcases Finset.mem_insert.1 met with rfl | met
      · simp
      · exact List.mem_append_left _ (walk.noted other node present plain met)
    · intro other s present
      rw [List.mem_cons, List.mem_append, List.mem_singleton,
        walk.written other s present, or_comm]
  have fewer := graph.card_unseen_insert inside fresh
  obtain ⟨types, same, later, last, fields, walkEnd, growth, new⟩ :=
    walked_fieldTexts follows started (by omega)
  refine ⟨later, last, ?_, walkEnd, (Finset.subset_insert _ _).trans growth, ?_⟩
  · rw [same]
    exact .record found unmet fields (.done last)
  · intro other noted
    rcases new other noted with old | unseen
    · rcases List.mem_append.1 old with old | old
      · exact .inl old
      · exact .inr (List.mem_singleton.1 old ▸ fresh)
    · exact .inr fun met => unseen (Finset.mem_insert_of_mem met)

/-- What a wrapper is around is written, and then the wrapper is noted. -/
theorem walked_wrapper {steps id inner : Nat} {node : Node}
    {write : Nat → List Nat → TypeText × List Nat}
    (follows : Follows graph steps write)
    {written order pending : List Nat} {seen : Finset Nat}
    (found : graph.node? id = some node) (isWrapper : node.isWrapper)
    (around : node.targets = [inner])
    (closed : ∀ target ∈ graph.targets id, target < graph.nodes.size)
    (walk : Walk graph written order seen (id :: pending))
    (enough : (graph.unseen seen).card < steps + 1) :
    Walked graph [id] order seen pending
      [wrapperText (write inner written).1 node] (write inner written).2 := by
  have fresh := walk.budget.notMem found isWrapper
  have inside := walk.budget.known id List.mem_cons_self
  have started : Walk graph written order (insert id seen)
      (inner :: pending) := by
    refine { walk with budget := ?_, met := ?_, noted := ?_ }
    · have budget := walk.budget.expand fresh closed
      rwa [Graph.targets_of_node? found, around] at budget
    · exact fun other noted => Finset.mem_insert_of_mem (walk.met other noted)
    · intro other node' present plain met
      rcases Finset.mem_insert.1 met with rfl | met
      · rw [found] at present
        cases present
        rw [plain] at isWrapper
        cases isWrapper
      · exact walk.noted other node' present plain met
  have fewer := graph.card_unseen_insert inside fresh
  obtain ⟨later, between, inner, walkEnd, growth, new⟩ :=
    follows _ _ _ _ _ started (by omega)
  have absent : id ∉ between := by
    intro noted
    rcases new id noted with old | unseen
    · exact fresh (walk.met id old)
    · exact unseen (Finset.mem_insert_self _ _)
  refine ⟨later, between ++ [id],
    .wrapper found isWrapper around inner absent (.done _),
    { walkEnd with met := ?_, noted := ?_, written := ?_ },
    (Finset.subset_insert _ _).trans growth, ?_⟩
  · intro other noted
    rcases List.mem_append.1 noted with noted | noted
    · exact walkEnd.met other noted
    · exact List.mem_singleton.1 noted ▸ growth (Finset.mem_insert_self _ _)
  · intro other node' present plain met
    exact List.mem_append_left _ (walkEnd.noted other node' present plain met)
  · intro other r present
    have differs : other ≠ id := by
      rintro rfl
      rw [found] at present
      cases present
      cases isWrapper
    rw [walkEnd.written other r present, List.mem_append, List.mem_singleton,
      or_iff_left differs]
  · intro other noted
    rcases List.mem_append.1 noted with noted | noted
    · rcases new other noted with old | unseen
      · exact .inl old
      · exact .inr fun met => unseen (Finset.mem_insert_of_mem met)
    · exact .inr (List.mem_singleton.1 noted ▸ fresh)

/-- Writing follows the walk with one step for each node that is unseen. -/
theorem follows_typeText
    (closed : ∀ id, ∀ target ∈ graph.targets id, target < graph.nodes.size)
    (steps : Nat) :
    Follows graph steps (typeText graph graph.recordNames steps) := by
  induction steps with
  | zero =>
      intro id written order seen pending walk enough
      exact absurd enough (Nat.not_lt_zero _)
  | succ steps follows =>
      intro id written order seen pending walk enough
      obtain ⟨node, found⟩ := Graph.exists_node?_of_lt
        (walk.budget.known id List.mem_cons_self)
      rw [typeText, found]
      cases node with
      | primitive kind logical => exact walked_primitive found walk
      | record r =>
          by_cases met : id ∈ written
          · have member := (walk.written id r found).1 met
            simp only [List.contains_eq_mem, met, decide_true, if_true]
            exact walked_again found rfl member walk
          · have unmet := (walk.written id r found).not.1 met
            simp only [List.contains_eq_mem, met, decide_false,
              Bool.false_eq_true, if_false]
            exact walked_record follows found unmet (closed id) walk enough
      | array item =>
          exact walked_wrapper follows found rfl rfl (closed id) walk enough
      | optional inner =>
          exact walked_wrapper follows found rfl rfl (closed id) walk enough
      | map values =>
          exact walked_wrapper follows found rfl rfl (closed id) walk enough

end SchemaWriter

/-- What a graph is written as. -/
theorem Graph.writes_toTypeText {graph : Graph} {root : Nat}
    (rooted : graph.root = some root) (linked : graph.Linked [root]) :
    ∃ text last, graph.toTypeText = .ok text ∧
      SchemaWriter.Writes graph [root] [] [text] last := by
  have closed : ∀ id, ∀ target ∈ graph.targets id,
      target < graph.nodes.size := by
    intro id target member
    cases found : graph.node? id with
    | none =>
        rw [targets, found] at member
        cases member
    | some node =>
        rw [targets_of_node? found] at member
        exact linked.closed id node found target member
  have walk : SchemaWriter.Walk graph [] [] ∅ [root] :=
    ⟨.start linked, by simp, by simp, by simp⟩
  have enough : (graph.unseen ∅).card <
      (graph.nodes.size + 1) * (graph.nodes.size + 2) := by
    rw [unseen, Finset.sdiff_empty, Finset.card_range]
    calc
      graph.nodes.size < graph.nodes.size + 1 := Nat.lt_succ_self _
      _ ≤ (graph.nodes.size + 1) * (graph.nodes.size + 2) :=
        Nat.le_mul_of_pos_right _ (Nat.succ_pos _)
  obtain ⟨_, last, writes, _⟩ :=
    SchemaWriter.follows_typeText closed _ root [] [] ∅ [] walk enough
  rw [toTypeText, rooted]
  exact ⟨_, last, rfl, writes⟩

end XmlRecords
