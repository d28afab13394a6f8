import XmlRecords.Proofs.Planning

/-!
# Graphs that follow the components

A graph that was lowered from components is what the components say: each of its
records is for a type, a repeated group or the choice of a document element, and
has the fields that are planned for that.
-/

namespace XmlRecords

namespace Lowering

variable {components : Components} {same : Nat → Nat → Prop}
  {b c : Builder} {roles : Nat → Role} {opened : List Nat}

theorem fills_documentFields (identifies : Identifies components same)
    (roots : List ElementDecl) :
    Fills components same (documentFields components · roots)
      (roots.map (.ofElement false true)) := by
  induction roots with
  | nil => exact .nothing
  | cons root rest ih =>
      have enters := entersPlanned_typeNode identifies
        (components.types.size + 1)
      have filled := Fills.bind (.push (.ofElement false true root)
        (fun isWildcard => by cases isWildcard)
        (makes_element enters root.type false true)) ih
      simp only [bind_assoc] at filled
      exact filled

end Lowering

/-- The node is for documents that begin with one of some roots. -/
def Graph.IsForRoots (graph : Graph) (same : Nat → Nat → Prop)
    (roles : Nat → Role) : List ElementDecl → Nat → Prop
  | [only], id => graph.Represents same roles only.type id
  | roots, id => ∃ r, graph.record? id = some r ∧ roles id = .document roots

namespace Lowering

variable {components : Components} {same : Nat → Nat → Prop}
  {b c : Builder} {roles : Nat → Role} {opened : List Nat}

/-- A record that is added with its fields might as well get them afterwards. -/
theorem add_withFields (graph : Graph) (r : Record) (fields : List Field) :
    (graph.add (.record (r.withFields fields))).2 =
      (graph.add (.record r)).2.setFields graph.nodes.size fields := by
  have found : (graph.add (.record r)).2.record? graph.nodes.size = some r :=
    Graph.record?_eq_some_iff.2 (Graph.node?_add_size graph _)
  rw [Graph.setFields, found]
  simp [Graph.add, Array.setIfInBounds, Array.set_push]

/-- The node of all documents is for the roots. -/
theorem planned_rootNode (identifies : Identifies components same)
    {roots : List ElementDecl} {root : Nat}
    (ended : (rootNode components roots).run {} = .ok (root, c)) :
    ∃ later, c.Planned components same later [] ∧
      c.graph.IsForRoots same later roots root := by
  have planned := Builder.Planned.empty components same fun _ => .type 0
  unfold rootNode at ended
  split at ended
  · obtain ⟨later, planned, _, _, _, suits⟩ :=
      entersPlanned_typeNode identifies _ _ _ _ _ _ _ planned ended
    exact ⟨later, planned, suits.realizes⟩
  · next several =>
      obtain ⟨all, b₁, filling, adding⟩ := Run.bind_eq_ok.1 ended
      obtain ⟨roles₁, planned₁, _, _, scope, drafted⟩ :=
        fills_documentFields identifies roots _ _ _ 0 _ _ _ _ planned
          (Nat.zero_le _) (by simp) (.nothing _ _ _ _ (Nat.le_refl _)) filling
      obtain ⟨rfl, rfl⟩ := addNode_eq_ok.1 adding
      rw [add_withFields]
      let begun : Builder := { b₁ with graph := (b₁.graph.add (.record
        (.empty (some (.unqualified documentRecord)) .document))).2 }
      obtain ⟨later, planned₂, growth₂, settled₂, found, role⟩ := planned₁.begin
        (some (.unqualified documentRecord)) (.document roots) (c := begun) rfl
        rfl (fun _ _ => .inl) (fun _ _ => .inl) (fun _ _ known => known)
        (fun _ _ isType => by cases isType)
      have complete : Drafted begun.graph same later begun.anonymous
          (b₁.graph.nodes.size + 1) all
          (components.plan (later b₁.graph.nodes.size)) := by
        rw [role]
        exact scope ▸ drafted.mono growth₂ (Graph.size_add ..).le
      obtain ⟨planned₃, growth₃⟩ := planned₂.finish found complete
        (fun type isType => by cases role.symm.trans isType)
      obtain ⟨r', found', _⟩ := growth₃.grows.record found
      refine ⟨later, planned₃, ?_⟩
      cases roots with
      | nil => exact ⟨r', found', role⟩
      | cons first rest =>
          cases rest with
          | nil => exact absurd rfl (several first)
          | cons second rest => exact ⟨r', found', role⟩

end Lowering

/-- Two complex types are one, or have one name. -/
def Components.SharesName (components : Components) (first second : Nat) : Prop :=
  first = second ∨ ∃ name, (components.typeAt first).name = some name ∧
    (components.typeAt second).name = some name

namespace Graph

/-- What a graph from components holds, and what every record of it is for. -/
structure Depicts (graph : Graph) (components : Components)
    (same : Nat → Nat → Prop) (roots : List ElementDecl) (roles : Nat → Role)
    (root : Nat) : Prop where
  rooted : graph.root = some root
  forRoots : graph.IsForRoots same roles roots root
  follows : ∀ id r, graph.record? id = some r →
    graph.Follows components same roles id r
  interned : ∀ kind logical id other,
    graph.node? id = some (.primitive kind logical) →
      graph.node? other = some (.primitive kind logical) → id = other

/-- The graph of a state in which no record is open depicts the components. -/
theorem depicts_of_planned {components : Components}
    {same : Nat → Nat → Prop} {b : Lowering.Builder} {roles : Nat → Role}
    {roots : List ElementDecl} {root : Nat}
    (planned : b.Planned components same roles [])
    (isRoot : b.graph.IsForRoots same roles roots root) :
    ({ b.graph with root := some root } : Graph).Depicts components same roots
      roles root := by
  have growth : b.graph.Continues roles { b.graph with root := some root }
      roles := .of_extends (.setRoot b.graph (some root)) roles
  refine ⟨rfl, isRoot, ?_, ?_⟩
  · intro id r found
    have inside := lt_size_of_node? (record?_eq_some_iff.1 found)
    exact growth.follows inside (planned.follows id r found (by simp))
  · intro kind logical id other found again
    exact planned.interned.unique found again

/-- A graph is that of the state in which lowering ends. -/
theorem exists_planned_of_ofComponents {components : Components}
    {same : Nat → Nat → Prop} (identifies : Lowering.Identifies components same)
    {wanted : Option String} {graph : Graph}
    (built : ofComponents components wanted = .ok graph) :
    ∃ roots roles root, ∃ b : Lowering.Builder,
      Lowering.chosenRoots components wanted = .ok roots ∧
        graph = { b.graph with root := some root } ∧
          b.Planned components same roles [] ∧
            b.graph.IsForRoots same roles roots root := by
  unfold ofComponents at built
  obtain ⟨roots, chosen, built⟩ := Outcome.bind_eq_ok.1 built
  obtain ⟨⟨root, b⟩, ended, built⟩ := Outcome.bind_eq_ok.1 built
  cases built
  obtain ⟨roles, planned, isRoot⟩ := Lowering.planned_rootNode identifies ended
  exact ⟨roots, roles, root, b, chosen, rfl, planned, isRoot⟩

theorem exists_depicts_of_ofComponents {components : Components}
    {same : Nat → Nat → Prop} (identifies : Lowering.Identifies components same)
    {wanted : Option String} {graph : Graph}
    (built : ofComponents components wanted = .ok graph) :
    ∃ roots roles root,
      Lowering.chosenRoots components wanted = .ok roots ∧
        graph.Depicts components same roots roles root := by
  obtain ⟨roots, roles, root, b, chosen, rfl, planned, isRoot⟩ :=
    exists_planned_of_ofComponents identifies built
  exact ⟨roots, roles, root, chosen, depicts_of_planned planned isRoot⟩

/-- Where types have distinct names, they are told apart by their numbers. -/
theorem Lowering.identifies_eq {components : Components}
    (distinct : components.NamesDistinct) :
    Lowering.Identifies components (· = ·) := by
  have apart : ∀ first second name, first < second →
      (components.typeAt first).name = some name →
        (components.typeAt second).name ≠ some name := by
    intro first second name before named again
    rw [Components.NamesDistinct, List.Nodup, List.pairwise_filterMap,
      List.pairwise_iff_getElem] at distinct
    have inside : second < components.types.size := by
      by_contra outside
      simp [Components.typeAt, outside] at again
    have inFront : first < components.types.size := before.trans inside
    simp only [Components.typeAt, Array.getElem?_eq_getElem, inside, inFront,
      Option.getD_some] at named again
    exact distinct first second (by simpa using inFront) (by simpa using inside)
      before name (by simpa using named) name (by simpa using again) rfl
  refine ⟨fun _ => rfl, fun first second name named again => ?_⟩
  rcases Nat.lt_trichotomy first second with before | same | behind
  · exact absurd again (apart first second name before named)
  · exact same
  · exact absurd named (apart second first name behind again)

/-- It may not matter which of several types a record is for. -/
theorem Lowering.identifies_any (components : Components) :
    Lowering.Identifies components fun _ _ => True :=
  ⟨fun _ => trivial, fun _ _ _ _ _ => trivial⟩

/-- Types of one name are not told apart. -/
theorem Lowering.identifies_sharesName (components : Components) :
    Lowering.Identifies components components.SharesName where
  refl := fun _ => .inl rfl
  named := fun _ _ name first second => .inr ⟨name, first, second⟩

/-- The node of the only root is for its type, if this has no name. -/
theorem Depicts.role_root {components : Components} {graph : Graph}
    {roles : Nat → Role} {root type : Nat} {only : ElementDecl}
    (depicts : graph.Depicts components components.SharesName [only] roles root)
    (isComplex : only.type = .complex type)
    (unnamed : (components.typeAt type).name = none) : roles root = .type type := by
  have represents : graph.Represents components.SharesName roles only.type root :=
    depicts.forRoots
  rw [isComplex] at represents
  obtain ⟨_, other, _, role, rfl | ⟨name, named, _⟩⟩ := represents
  · exact role
  · cases unnamed.symm.trans named

/-- Lowering goes by the components.  Where types have distinct names, each record
is for one type, repeated group or choice of a document element.  Its fields are
those that are planned for it without any graph, in their order and under the
names that are handed out in this order, and each leads through the planned
wrapper to the only node of a primitive or to a record for the planned type or
group. -/
theorem exists_roles_of_ofComponents {components : Components}
    (distinct : components.NamesDistinct) {wanted : Option String}
    {graph : Graph} (built : ofComponents components wanted = .ok graph) :
    ∃ roots roles root,
      Lowering.chosenRoots components wanted = .ok roots ∧
        graph.Depicts components (· = ·) roots roles root :=
  exists_depicts_of_ofComponents (Lowering.identifies_eq distinct) built

end Graph

/-- Reports on notes and on further reports, and on anything else. -/
def reportComponents : Components where
  roots := [⟨⟨"report", none⟩, .complex 0⟩]
  types := #[
    { name := some ⟨"report", none⟩
      attributes := [⟨⟨"id", none⟩, true, .int⟩]
      anyAttribute := true
      content := some (.group .once .sequence
        [.group ⟨1, none⟩ .choice
          [.element .once ⟨⟨"note", none⟩, .complex 1⟩,
            .element .once ⟨⟨"report", none⟩, .complex 0⟩],
          .wildcard ⟨0, none⟩]) },
    { attributes := [⟨⟨"id", none⟩, false, .int⟩]
      simpleContent := some .string }]

/-- The graph of reports. -/
def reportGraph : Graph where
  nodes := #[
    .record ⟨some ⟨"report", none⟩, .type,
      [⟨"group", .group, 8⟩, ⟨"others", .elementWildcard, 9⟩,
        ⟨"id", .attribute ⟨"id", none⟩, 4⟩,
        ⟨"others0", .attributeWildcard, 10⟩], some 1, some 3, none⟩,
    .record ⟨some ⟨"group0", none⟩, .group .choice,
      [⟨"note", .element ⟨"note", none⟩, 6⟩,
        ⟨"report", .element ⟨"report", none⟩, 7⟩], none, none, none⟩,
    .record ⟨some ⟨"type0", none⟩, .type,
      [⟨"text", .text, 3⟩, ⟨"id", .attribute ⟨"id", none⟩, 5⟩],
      none, none, some 0⟩,
    .primitive .string none, .primitive .int none, .optional 4, .optional 2,
    .optional 0, .array 1, .map 3, .map 3]
  root := some 0

theorem ofComponents_reportComponents :
    Graph.ofComponents reportComponents none = .ok reportGraph := by
  have computed : (Graph.ofComponents reportComponents none).toOption =
      some reportGraph := by
    decide +kernel
  cases built : Graph.ofComponents reportComponents none with
  | error e =>
      rw [built] at computed
      cases computed
  | ok graph =>
      rw [built] at computed
      cases computed
      rfl

theorem exists_roles_reportGraph :
    reportComponents.NamesDistinct ∧ ∃ roles root,
      reportGraph.Depicts reportComponents (· = ·) reportComponents.roots roles
        root := by
  have distinct : reportComponents.NamesDistinct := by
    decide
  obtain ⟨roots, roles, root, chosen, depicts⟩ :=
    Graph.exists_roles_of_ofComponents distinct ofComponents_reportComponents
  cases chosen
  exact ⟨distinct, roles, root, depicts⟩

end XmlRecords
