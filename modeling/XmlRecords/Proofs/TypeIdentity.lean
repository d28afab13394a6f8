import XmlRecords.Proofs.DeclaredRoutes

/-!
# The identity of types

In a graph that was lowered every type with a name has one record, which whatever
refers to the type leads to.  A type without a name has a record for each place
where it is used, but within what is made for one of them all that refers to the
type leads to that one.  What generated names look like does not matter: records
for different types or groups are different ones.
-/

namespace XmlRecords

open Lowering

/-- The complex types that documents may lead to: those of the roots, and those of
the elements that may occur in the content of such a type. -/
inductive Components.Reaches (components : Components)
    (roots : List ElementDecl) : Nat → Prop where
  | root {declaration : ElementDecl} {type : Nat} (chosen : declaration ∈ roots)
      (isComplex : declaration.type = .complex type) :
      components.Reaches roots type
  | content {owner : Nat} {declaration : ElementDecl} {type : Nat}
      (reached : components.Reaches roots owner)
      (declared : declaration ∈ (components.typeAt owner).declarations)
      (isComplex : declaration.type = .complex type) :
      components.Reaches roots type

namespace Graph

variable {components : Components} {graph : Graph} {roles : Nat → Role}
  {roots : List ElementDecl} {root : Nat} {id owner target type stop : Nat}
  {kind : FieldKind} {role : Role} {allowed : QName → Prop} {pending : List Nat}

/-- What refers to a role, and by which node: the root, where there is but one
declaration for documents to begin with, and a field of a record that is planned
for the role. -/
inductive Refers (graph : Graph) (components : Components)
    (roots : List ElementDecl) (roles : Nat → Role) (root : Nat) :
    Option Nat → Role → Nat → Prop where
  | root {only : ElementDecl} {type : Nat} (single : roots = [only])
      (isComplex : only.type = .complex type) :
      Refers graph components roots roles root none (.type type) root
  | field {owner index : Nat} {r : Record} {plan : FieldPlan} {field : Field}
      {role : Role} (found : graph.record? owner = some r)
      (planned : (components.plan (roles owner))[index]? = some plan)
      (listed : r.fields[index]? = some field)
      (leads : plan.kind.role? = some role) :
      Refers graph components roots roles root (some owner) role field.node

/-- What was made while a record was being made.  Numbers are given out as nodes
are added, so a field leads to a greater number than that of its own record only
if the target was made while that record was. -/
inductive MadeWithin (graph : Graph) (outer : Nat) : Nat → Prop where
  | self : MadeWithin graph outer outer
  | field {owner : Nat} {r : Record} {field : Field}
      (made : MadeWithin graph outer owner)
      (found : graph.record? owner = some r) (member : field ∈ r.fields)
      (behind : owner < graph.elementType field.node) :
      MadeWithin graph outer (graph.elementType field.node)

/-- Records are told apart as the types and groups are that they are for. -/
structure TellsApart (graph : Graph) (components : Components)
    (roots : List ElementDecl) (roles : Nat → Role) (root : Nat) : Prop where
  leads : ∀ place role node,
    graph.Refers components roots roles root place role node →
      ∃ r, graph.record? (graph.elementType node) = some r ∧
        roles (graph.elementType node) = role
  apart : ∀ place place' role role' node node',
    graph.Refers components roots roles root place role node →
      graph.Refers components roots roles root place' role' node' →
        role ≠ role' → graph.elementType node ≠ graph.elementType node'
  named : ∀ type name, (components.typeAt type).name = some name →
    components.Reaches roots type →
      ∃ id r, graph.record? id = some r ∧ roles id = .type type ∧
        r.name = some name ∧
        (∀ other r', graph.record? other = some r' →
          roles other = .type type → other = id) ∧
        ∀ place node,
          graph.Refers components roots roles root place (.type type) node →
            graph.elementType node = id
  unnamed : ∀ type, (components.typeAt type).name = none →
    ∀ id r, graph.record? id = some r → roles id = .type type →
      (∃ stop, ∀ owner r', graph.record? owner = some r' →
        (graph.MadeWithin id owner ↔ id ≤ owner ∧ owner < stop)) ∧
      ∀ owner node, graph.MadeWithin id owner →
        graph.Refers components roots roles root (some owner) (.type type)
            node →
          graph.elementType node = id

theorem stripWrappers_le (linked : graph.Linked pending) (fuel id : Nat) :
    graph.stripWrappers fuel id ≤ id := by
  induction fuel generalizing id with
  | zero => exact Nat.le_refl _
  | succ fuel ih =>
      rw [stripWrappers]
      split
      · next inner found =>
          have below := linked.descends id _ found rfl inner List.mem_cons_self
          exact (ih inner).trans below.le
      · next inner found =>
          have below := linked.descends id _ found rfl inner List.mem_cons_self
          exact (ih inner).trans below.le
      · exact Nat.le_refl _

theorem elementType_of_record? {r : Record} (found : graph.record? id = some r) :
    graph.elementType id = id :=
  elementType_of_isWrapper_eq_false (record?_eq_some_iff.1 found) rfl

theorem StandsFor.elementType_eq (linked : graph.Linked pending) {r : Record}
    (found : graph.record? target = some r)
    (stands : graph.StandsFor id target) : graph.elementType id = target := by
  have below := elementType_of_record? found
  rcases stands with rfl | wrapped | wrapped
  · exact below
  · rw [elementType_optional linked wrapped, below]
  · rw [elementType_array linked wrapped, below]

theorem Represents.exists_record
    (represents : graph.Represents (· = ·) roles (.complex type) id) :
    ∃ r, graph.record? id = some r ∧ roles id = .type type := by
  obtain ⟨r, _, found, role, rfl⟩ := represents
  exact ⟨r, found, role⟩

/-- A field for a role stands for a record for the role. -/
theorem Realizes.exists_record
    (realizes : graph.Realizes (· = ·) roles kind id)
    (leads : kind.role? = some role) :
    ∃ target r, graph.StandsFor id target ∧
      graph.record? target = some r ∧ roles target = role := by
  match kind, leads with
  | .one (.complex type), rfl =>
      obtain ⟨r, found, role⟩ := Represents.exists_record realizes
      exact ⟨id, r, .inl rfl, found, role⟩
  | .optional (.complex type), rfl =>
      obtain ⟨inner, wrapped, represents⟩ := realizes
      obtain ⟨r, found, role⟩ := represents.exists_record
      exact ⟨inner, r, .inr (.inl wrapped), found, role⟩
  | .many (.complex type), rfl =>
      obtain ⟨item, wrapped, represents⟩ := realizes
      obtain ⟨r, found, role⟩ := represents.exists_record
      exact ⟨item, r, .inr (.inr wrapped), found, role⟩
  | .rounds compositor particles, rfl =>
      obtain ⟨item, r, wrapped, found, role⟩ := realizes
      exact ⟨item, r, .inr (.inr wrapped), found, role⟩

namespace Encloses

variable {opened : List Nat}

theorem of_madeWithin
    (encloses : graph.Encloses components roles opened type id stop)
    (linked : graph.Linked pending) (made : graph.MadeWithin id owner) :
    id ≤ owner ∧ owner < stop := by
  induction made with
  | self => exact ⟨Nat.le_refl _, encloses.begins⟩
  | field _ found member behind ih =>
      refine ⟨ih.1.trans behind.le, ?_⟩
      exact (stripWrappers_le linked _ _).trans_lt
        (encloses.within _ _ ih.1 ih.2 found _ member)

/-- What was made within a record are the records of its stretch of the graph. -/
theorem madeWithin_iff
    (encloses : graph.Encloses components roles opened type id stop)
    (linked : graph.Linked pending) {r : Record}
    (found : graph.record? owner = some r) :
    graph.MadeWithin id owner ↔ id ≤ owner ∧ owner < stop := by
  refine ⟨encloses.of_madeWithin linked, ?_⟩
  rintro ⟨after, before⟩
  induction owner using Nat.strong_induction_on generalizing r with
  | _ owner ih =>
      rcases after.eq_or_lt with rfl | after
      · exact .self
      · obtain ⟨other, behind, inFront, r', isRecord, field, member, stands⟩ :=
          encloses.covered owner r after before found
        have made := ih other inFront isRecord behind (inFront.trans before)
        have leads := stands.elementType_eq linked found
        rw [← leads] at inFront ⊢
        exact .field made isRecord member inFront

theorem elementType_eq
    (encloses : graph.Encloses components roles opened type id stop)
    (linked : graph.Linked pending) {first : Record}
    (isRecord : graph.record? id = some first)
    (made : graph.MadeWithin id owner) {node : Nat}
    (refers : graph.Refers components roots roles root (some owner) (.type type)
      node) : graph.elementType node = id := by
  obtain ⟨after, before⟩ := encloses.of_madeWithin linked made
  cases refers with
  | field found planned listed leads =>
      obtain ⟨plan, planned', heeds⟩ := exists_getElem?_of_forall₂
        (encloses.heeds _ _ after before found) listed
      cases planned.symm.trans planned'
      exact (heeds leads).elementType_eq linked isRecord

end Encloses

namespace Depicts

variable (depicts : graph.Depicts components (· = ·) roots roles root)
  (lowered : graph.Lowered allowed root)

include depicts lowered

/-- Whatever refers to a role leads to a record for the role. -/
theorem exists_record_of_refers {place : Option Nat} {node : Nat}
    (refers : graph.Refers components roots roles root place role node) :
    ∃ r, graph.record? (graph.elementType node) = some r ∧
      roles (graph.elementType node) = role := by
  cases refers with
  | root single isComplex =>
      have isRoot := depicts.forRoots
      rw [single, IsForRoots, isComplex] at isRoot
      obtain ⟨r, found, role⟩ := isRoot.exists_record
      rw [elementType_of_record? found]
      exact ⟨r, found, role⟩
  | field found planned listed leads =>
      obtain ⟨plan', planned', kept⟩ :=
        (depicts.follows _ _ found).exists_plan listed
      cases planned.symm.trans planned'
      obtain ⟨target, r, stands, found, role⟩ := kept.2.exists_record leads
      rw [stands.elementType_eq lowered.linked found]
      exact ⟨r, found, role⟩

/-- The types of the elements that are declared for a record have records.  The
records of groups come behind those that they belong to, which bounds the
search. -/
theorem exists_record_of_declared {r : Record}
    (found : graph.record? owner = some r) {declaration : ElementDecl}
    (declared : declaration ∈ components.declarations (roles owner))
    (isComplex : declaration.type = .complex type) :
    ∃ id r, graph.record? id = some r ∧ roles id = .type type := by
  induction bound : graph.nodes.size - owner using Nat.strong_induction_on
    generalizing owner r with
  | _ bound ih =>
      obtain ⟨plan, planned, offers⟩ := Components.exists_offers declared
      obtain ⟨index, field, listed, origin, realizes⟩ :=
        (depicts.follows _ _ found).exists_field planned
      cases offers with
      | element repeated optional =>
          have leads : (FieldKind.ofOccurrence repeated optional
              declaration.type).role? = some (.type type) := by
            rw [isComplex]
            cases repeated <;> cases optional <;> rfl
          obtain ⟨id, r', _, isRecord, role⟩ := realizes.exists_record leads
          exact ⟨id, r', isRecord, role⟩
      | group compositor within =>
          obtain ⟨item, r', _, isItem, role, behind⟩ :=
            lowered.exists_item found (List.mem_of_getElem? listed) origin
              realizes
          have inside := lt_size_of_node? (record?_eq_some_iff.1 isItem)
          exact ih (graph.nodes.size - item) (by omega) isItem
            (by rw [role]; exact within) rfl

/-- Each type that documents may lead to has a record. -/
theorem exists_record_of_reaches (reached : components.Reaches roots type) :
    ∃ id r, graph.record? id = some r ∧ roles id = .type type := by
  induction reached with
  | @root declaration type chosen isComplex =>
      have isRoot := depicts.forRoots
      match roots, chosen, isRoot with
      | [only], chosen, isRoot =>
          cases List.mem_singleton.1 chosen
          rw [IsForRoots, isComplex] at isRoot
          obtain ⟨r, found, role⟩ := isRoot.exists_record
          exact ⟨root, r, found, role⟩
      | first :: second :: rest, chosen, ⟨r, found, role⟩ =>
          exact depicts.exists_record_of_declared lowered found
            (by rw [role]; exact chosen) isComplex
  | content _ declared isComplex ih =>
      obtain ⟨id, r, found, role⟩ := ih
      exact depicts.exists_record_of_declared lowered found
        (by rw [role]; exact declared) isComplex

end Depicts

/-- Where types have distinct names, each that has one and that documents may lead
to has exactly one record, which all that refers to the type leads to.  What was
made while a record for a type without a name was being made leads to that record
for the type.  Whatever refers to different types or groups leads to different
records. -/
theorem tellsApart_of_ofComponents {components : Components}
    (distinct : components.NamesDistinct) {wanted : Option String}
    {graph : Graph} (built : ofComponents components wanted = .ok graph) :
    ∃ roots roles root,
      Lowering.chosenRoots components wanted = .ok roots ∧
        graph.Depicts components (· = ·) roots roles root ∧
          graph.TellsApart components roots roles root := by
  obtain ⟨root', lowered⟩ := exists_lowered_ofComponents built
  obtain ⟨roots, roles, root, b, chosen, rfl, planned, isRoot⟩ :=
    exists_planned_of_ofComponents (Lowering.identifies_eq distinct) built
  have depicts := depicts_of_planned planned isRoot
  cases lowered.rooted.symm.trans depicts.rooted
  refine ⟨roots, roles, root', chosen, depicts, ?_, ?_, ?_, ?_⟩
  · intro place role node refers
    exact depicts.exists_record_of_refers lowered refers
  · intro place place' role role' node node' refers refers' apart same
    obtain ⟨_, _, isRole⟩ := depicts.exists_record_of_refers lowered refers
    obtain ⟨_, _, isRole'⟩ := depicts.exists_record_of_refers lowered refers'
    exact apart (isRole.symm.trans ((congrArg roles same).trans isRole'))
  · intro type name isNamed reached
    obtain ⟨id, r, found, role⟩ :=
      depicts.exists_record_of_reaches lowered reached
    obtain ⟨titled, listed⟩ := planned.listed id r type name found role isNamed
    have only : ∀ other r', b.graph.record? other = some r' →
        roles other = .type type → other = id := by
      intro other r' found' role'
      obtain ⟨_, listed'⟩ :=
        planned.listed other r' type name found' role' isNamed
      exact Option.some.inj (listed'.symm.trans listed)
    refine ⟨id, r, found, role, titled, only, fun place node refers => ?_⟩
    obtain ⟨r', found', role'⟩ :=
      depicts.exists_record_of_refers lowered refers
    exact only _ r' found' role'
  · intro type isUnnamed id r found role
    obtain ⟨stop, encloses⟩ :=
      planned.nested.enclosed id r type found (by simp) role isUnnamed
    have encloses : ({ b.graph with root := some root' } : Graph).Encloses
        components roles [] type id stop :=
      encloses.mono (.of_extends (.setRoot b.graph _) roles)
        (fun _ _ _ present => present) (by simp)
    refine ⟨⟨stop, fun owner r' => encloses.madeWithin_iff lowered.linked⟩, ?_⟩
    intro owner node made refers
    exact encloses.elementType_eq lowered.linked found made refers

end Graph

/-- Types that lead to each other.  The one without a name is given the name that
the other one has. -/
def knotComponents : Components where
  roots := [⟨⟨"r", none⟩, .complex 0⟩]
  types := #[
    { content := some (.group .once .sequence
        [.element .once ⟨⟨"a", none⟩, .complex 1⟩,
          .group ⟨0, none⟩ .choice
            [.element .once ⟨⟨"a", none⟩, .complex 1⟩,
              .element .once ⟨⟨"r", none⟩, .complex 0⟩]]) },
    { name := some ⟨"type0", none⟩
      content := some (.element ⟨0, some 1⟩ ⟨⟨"r", none⟩, .complex 0⟩) }]

/-- The graph of these types. -/
def knotGraph : Graph where
  nodes := #[
    .record ⟨some ⟨"type0", none⟩, .type,
      [⟨"a", .element ⟨"a", none⟩, 1⟩, ⟨"group", .group, 6⟩], none, none, none⟩,
    .record ⟨some ⟨"type0", none⟩, .type,
      [⟨"r", .element ⟨"r", none⟩, 2⟩], none, none, none⟩,
    .optional 0,
    .record ⟨some ⟨"group0", none⟩, .group .choice,
      [⟨"a", .element ⟨"a", none⟩, 4⟩, ⟨"r", .element ⟨"r", none⟩, 5⟩],
      none, none, none⟩,
    .optional 1, .optional 0, .array 3]
  root := some 0

theorem ofComponents_knotComponents :
    Graph.ofComponents knotComponents none = .ok knotGraph := by
  rfl

/-- Two records have one name here, and are told apart. -/
theorem tellsApart_knotGraph :
    knotComponents.NamesDistinct ∧
      Graph.ofComponents knotComponents none = .ok knotGraph ∧
        ∃ roles, knotGraph.Depicts knotComponents (· = ·) knotComponents.roots
            roles 0 ∧
          knotGraph.TellsApart knotComponents knotComponents.roots roles 0 := by
  have distinct : knotComponents.NamesDistinct := by
    decide
  obtain ⟨roots, roles, root, chosen, depicts, apart⟩ :=
    Graph.tellsApart_of_ofComponents distinct ofComponents_knotComponents
  cases chosen
  cases depicts.rooted
  exact ⟨distinct, ofComponents_knotComponents, roles, depicts, apart⟩

end XmlRecords
