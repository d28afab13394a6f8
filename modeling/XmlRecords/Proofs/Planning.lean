import XmlRecords.Proofs.Drafting

/-!
# Lowering goes by the plans

Each step of lowering makes the node that was planned, so every record follows
its role in the end.  The recursion is that of lowering: through particles on the
particles themselves, through types by how many may still be entered.  The roles
of records are given as the records are begun, which is before anything can
refer to them.
-/

namespace XmlRecords

namespace Lowering

variable {components : Components} {same : Nat → Nat → Prop}
  {b c : Builder} {roles : Nat → Role} {opened : List Nat} {id node : Nat}

/-- A step has led from one state to another, where the same types are open, and
has made, or found, a node for something. -/
structure Gives (components : Components) (same : Nat → Nat → Prop)
    (b : Builder) (roles : Nat → Role) (opened : List Nat)
    (holds : Graph → (Nat → Role) → Prop) (c : Builder) (later : Nat → Role) :
    Prop where
  planned : c.Planned components same later opened
  growth : b.graph.Continues roles c.graph later
  settled : b.graph.Settled opened c.graph
  scope : c.anonymous = b.anonymous
  holds : holds c.graph later

theorem Gives.trans {d : Builder} {later last : Nat → Role}
    {first holds : Graph → (Nat → Role) → Prop}
    (one : Gives components same b roles opened first c later)
    (two : Gives components same c later opened holds d last) :
    Gives components same b roles opened holds d last where
  planned := two.planned
  growth := one.growth.trans two.growth
  settled := one.settled.trans two.settled
  scope := two.scope.trans one.scope
  holds := two.holds

/-- A way to make nodes for what is planned. -/
def Makes (components : Components) (same : Nat → Nat → Prop) (kind : FieldKind)
    (make : Build Nat) : Prop :=
  ∀ b roles opened id c, b.Planned components same roles opened →
    make.run b = .ok (id, c) →
      ∃ later, Gives components same b roles opened
        (fun graph roles => graph.Suits same roles b.anonymous
          b.graph.nodes.size kind id) c later

theorem makes_datatype (datatype : Datatype) :
    Makes components same (.one (.simple datatype)) (datatypeNode datatype) := by
  intro b roles opened id c planned ended
  rw [datatypeNode, primitiveNode, Run.get_bind] at ended
  have nothing := Graph.Covered.of_size_le b.graph [id] (Nat.le_refl _)
  split at ended
  · next known found =>
      obtain ⟨rfl, rfl⟩ := Run.pure_eq_ok.1 ended
      exact ⟨roles, planned, .refl _ _, .refl _ _, rfl,
        .of_role?_eq_none ((planned.interned _ id).1 found) rfl nothing⟩
  · next missing =>
      cases ended
      let added : Node := .primitive datatype.primitive.1 datatype.primitive.2
      obtain ⟨planned', growth⟩ := planned.add (c := { b with
          graph := (b.graph.add added).2
          primitives := (datatype.primitive, b.graph.nodes.size) ::
            b.primitives }) added rfl rfl
        (planned.interned.add_primitive missing) rfl rfl
      exact ⟨roles, planned', growth, .add _ _ _, rfl,
        .of_role?_eq_none (Graph.node?_add_size b.graph added) rfl
          (nothing.add rfl)⟩

theorem gives_wrapper {wrapper : Node}
    (ended : (addNode wrapper).run b = .ok (id, c))
    (isWrapper : wrapper.isWrapper)
    (planned : b.Planned components same roles opened) :
    Gives components same b roles opened
      (fun graph _ => id = b.graph.nodes.size ∧ graph = (b.graph.add wrapper).2)
      c roles := by
  obtain ⟨rfl, rfl⟩ := addNode_eq_ok.1 ended
  have plain : wrapper.record? = none := by
    cases wrapper <;> first | rfl | cases isWrapper
  have primitives : ∀ kind logical, wrapper ≠ .primitive kind logical := by
    rintro kind logical rfl
    cases isWrapper
  obtain ⟨planned', growth⟩ := planned.add
    (c := { b with graph := (b.graph.add wrapper).2 }) wrapper plain rfl
    (planned.interned.add_other primitives) rfl rfl
  exact ⟨planned', growth, .add _ _ _, rfl, rfl, rfl⟩

theorem makes_texts : Makes components same .texts mapNode := by
  intro b roles opened id c planned ended
  obtain ⟨values, between, texting, ended⟩ := Run.bind_eq_ok.1 ended
  replace texting : (datatypeNode .string).run b = .ok (values, between) :=
    texting
  obtain ⟨later, first⟩ := makes_datatype _ _ _ _ _ _ planned texting
  have second := gives_wrapper ended rfl first.planned
  obtain ⟨rfl, added⟩ := second.holds
  have isText : between.graph.node? values = some (.primitive .string none) :=
    first.holds.realizes
  have covered : between.graph.Covered b.graph.nodes.size [] :=
    .drop first.holds.covered isText rfl (by simp)
  refine ⟨later, { first.trans second with holds := .of_role?_eq_none ?_ rfl ?_ }⟩
  · refine ⟨values, ?_, second.growth.grows.primitive isText⟩
    rw [added]
    exact Graph.node?_add_size ..
  · rw [added]
    exact (covered.add rfl).mono (by simp)

/-- A node that suits a type suits it too when it is optional. -/
theorem gives_optional {type : TypeRef} {scope : List (Nat × Nat)}
    {start inner : Nat} (ended : (optionalNode inner).run b = .ok (id, c))
    (planned : b.Planned components same roles opened)
    (suits : b.graph.Suits same roles scope start (.one type) inner) :
    Gives components same b roles opened
      (fun graph roles => graph.Suits same roles scope start (.optional type) id)
      c roles := by
  rw [optionalNode, Run.get_bind] at ended
  obtain ⟨node, found, plain⟩ := Graph.Represents.exists_node suits.realizes
  rw [found] at ended
  -- The node of a type is no wrapper, so there is none to be reused.
  have wrapping : (addNode (.optional inner)).run b = .ok (id, c) := by
    cases node <;> first | exact ended | cases plain
  have wrapped := gives_wrapper wrapping rfl planned
  obtain ⟨rfl, added⟩ := wrapped.holds
  exact { wrapped with holds := added ▸ suits.optional }

theorem gives_occurrence {type : TypeRef} {scope : List (Nat × Nat)} {start : Nat}
    {repeated optional : Bool}
    (ended : (occurrenceNode repeated optional node).run b = .ok (id, c))
    (planned : b.Planned components same roles opened)
    (suits : b.graph.Suits same roles scope start (.one type) node) :
    Gives components same b roles opened
      (fun graph roles => graph.Suits same roles scope start
        (.ofOccurrence repeated optional type) id)
      c roles := by
  rw [occurrenceNode] at ended
  cases repeated with
  | true =>
      have wrapped := gives_wrapper ended rfl planned
      obtain ⟨rfl, added⟩ := wrapped.holds
      exact { wrapped with holds := added ▸ suits.many }
  | false =>
      cases optional with
      | true => exact gives_optional ended planned suits
      | false =>
          obtain ⟨rfl, rfl⟩ := Run.pure_eq_ok.1 ended
          exact ⟨planned, .refl _ _, .refl _ _, rfl, suits⟩

/-- A way to make nodes of types that goes by the plans. -/
def EntersPlanned (components : Components) (same : Nat → Nat → Prop)
    (enter : TypeRef → Build Nat) : Prop :=
  ∀ type, Makes components same (.one type) (enter type)

theorem makes_element {enter : TypeRef → Build Nat}
    (enters : EntersPlanned components same enter) (type : TypeRef)
    (repeated optional : Bool) :
    Makes components same (.ofOccurrence repeated optional type)
      (enter type >>= occurrenceNode repeated optional) := by
  intro b roles opened id c planned ended
  obtain ⟨node, between, entering, occurring⟩ := Run.bind_eq_ok.1 ended
  obtain ⟨later, entered⟩ := enters _ _ _ _ _ _ planned entering
  exact ⟨later,
    entered.trans (gives_occurrence occurring entered.planned entered.holds)⟩

/-- A way to make fields that goes by plans, behind those that there are. -/
def Fills (components : Components) (same : Nat → Nat → Prop)
    (fill : Fields → Build Fields) (more : List FieldPlan) : Prop :=
  ∀ b roles opened start all plans next c,
    b.Planned components same roles opened →
      start ≤ b.graph.nodes.size → (∀ id ∈ opened, id < start) →
        Drafted b.graph same roles b.anonymous start all plans →
          (fill all).run b = .ok (next, c) →
            ∃ later, Gives components same b roles opened
              (fun graph roles => Drafted graph same roles b.anonymous start next
                (mergePlans plans more)) c later

namespace Fills

variable {fill next : Fields → Build Fields} {first second : List FieldPlan}

theorem nothing : Fills components same (fun all => pure all) [] := by
  intro b roles opened start all plans next c planned _ _ drafted ended
  obtain ⟨rfl, rfl⟩ := Run.pure_eq_ok.1 ended
  exact ⟨roles, planned, .refl _ _, .refl _ _, rfl, drafted⟩

theorem bind (one : Fills components same fill first)
    (two : Fills components same next second) :
    Fills components same (fun all => fill all >>= next) (first ++ second) := by
  intro b roles opened start all plans last c planned inside before drafted ended
  obtain ⟨between, b', filling, ended⟩ := Run.bind_eq_ok.1 ended
  obtain ⟨roles', first⟩ :=
    one _ _ _ _ _ _ _ _ planned inside before drafted filling
  obtain ⟨later, second⟩ := two _ _ _ _ _ _ _ _ first.planned
    (inside.trans first.growth.grows.size_le) before
    (first.scope ▸ first.holds) ended
  rw [first.scope] at second
  rw [mergePlans_append]
  exact ⟨later, first.trans second⟩

/-- One field, for which a node is made. -/
theorem push {make : Build Nat} (plan : FieldPlan)
    (texts : plan.isWildcard → plan.kind = .texts)
    (makes : Makes components same plan.kind make) :
    Fills components same
      (fun all => do
        let node ← make
        return all.push plan.raw plan.origin node) [plan] := by
  intro b roles opened start all plans next c planned inside before drafted ended
  obtain ⟨node, between, making, ended⟩ := Run.bind_eq_ok.1 ended
  obtain ⟨rfl, rfl⟩ := Run.pure_eq_ok.1 ended
  obtain ⟨later, made⟩ := makes _ _ _ _ _ planned making
  exact ⟨later, { made with
    holds := drafted.push made.growth made.settled inside before plan texts
      made.holds }⟩

end Fills

/-- A record that was begun is completed when all its fields are drafted. -/
theorem planned_of_filled {b₁ b₂ : Builder} {roles₁ later : Nat → Role}
    {role : Role} {begun : Record} {all : Fields}
    (growth : b.graph.Continues roles b₁.graph roles₁)
    (settled : b.graph.Settled opened b₁.graph)
    (found : b₁.graph.record? b.graph.nodes.size = some begun)
    (isRole : roles₁ b.graph.nodes.size = role)
    (own : ∀ type, role = .type type → (components.typeAt type).name = none →
      b₁.anonymous.lookup type = some b.graph.nodes.size)
    (filled : Gives components same b₁ roles₁ (b.graph.nodes.size :: opened)
      (fun graph roles => Drafted graph same roles b₁.anonymous
        (b.graph.nodes.size + 1) all (components.plan role)) b₂ later)
    (graph : c = { b₂ with
      graph := b₂.graph.setFields b.graph.nodes.size all.fields }) :
    c.Planned components same later opened ∧
      b.graph.Continues roles c.graph later ∧
        b.graph.Settled opened c.graph ∧
          (∃ r, c.graph.record? b.graph.nodes.size = some r) ∧
            later b.graph.nodes.size = role ∧
              c.graph.Covered b.graph.nodes.size [b.graph.nodes.size] := by
  subst graph
  obtain ⟨r, found₂, _⟩ := filled.growth.grows.record found
  have kept : later b.graph.nodes.size = role :=
    (filled.growth.role (Graph.record?_eq_some_iff.1 found)).trans isRole
  have drafted := filled.holds
  rw [← filled.scope, ← kept] at drafted
  obtain ⟨planned, growth'⟩ := filled.planned.finish found₂ drafted
    (by rwa [kept, filled.scope])
  obtain ⟨r', found', _⟩ := growth'.grows.record found₂
  exact ⟨planned, growth.trans (filled.growth.trans growth'),
    settled.around (filled.settled.trans (.setFields all.fields)), ⟨r', found'⟩,
    kept, drafted.covered.complete found₂⟩

/-- The rounds of a group have a record that is open while their fields are
made. -/
theorem makes_group {compositor : Compositor} {particles : List Particle}
    {fill : Fields → Build Fields}
    (fills : Fills components same fill
      (Particle.planAll (compositor == .choice) particles)) :
    Makes components same (.rounds compositor particles)
      (groupNode compositor (fill {})) := by
  intro b roles opened id c planned ended
  obtain ⟨name, b₁, naming, ended⟩ := Run.bind_eq_ok.1 ended
  obtain ⟨item, b₂, adding, ended⟩ := Run.bind_eq_ok.1 ended
  obtain ⟨inner, b₃, filling, ended⟩ := Run.bind_eq_ok.1 ended
  obtain ⟨_, b₄, setting, wrapping⟩ := Run.bind_eq_ok.1 ended
  cases naming
  cases setting
  obtain ⟨rfl, rfl⟩ := addNode_eq_ok.1 adding
  obtain ⟨roles₂, planned₂, growth₂, settled₂, found₂, role₂⟩ :=
    planned.begin (some (.unqualified ("group" ++ toString b.nextGroup)))
      (.group compositor particles)
      (c := { b with
        graph := (b.graph.add (.record (.empty
          (some (.unqualified ("group" ++ toString b.nextGroup)))
          (.group compositor)))).2
        nextGroup := b.nextGroup + 1 })
      rfl rfl (fun _ _ => .inl) (fun _ _ => .inl) (fun _ _ known => known)
      (fun _ _ isType => by cases isType)
  obtain ⟨later, filled⟩ := fills _ _ _ _ _ _ _ _ planned₂
    (planned₂.nested.lt_size _ List.mem_cons_self) planned₂.nested.lt_head
    (.nothing _ _ _ _ (by simp)) filling
  obtain ⟨planned₄, growth₄, settled₄, ⟨r, found₄⟩, role, covered⟩ :=
    planned_of_filled growth₂ settled₂ found₂ role₂
      (fun _ isType => by cases isType) filled rfl
  have wrapped := gives_wrapper wrapping rfl planned₄
  obtain ⟨rfl, added⟩ := wrapped.holds
  obtain ⟨r', found', _⟩ := wrapped.growth.grows.record found₄
  refine ⟨later, wrapped.planned, growth₄.trans wrapped.growth,
    settled₄.trans wrapped.settled, wrapped.scope.trans filled.scope,
    ⟨_, r', ?_, found', role⟩, (fun _ _ _ role => by cases role), ?_⟩
  · rw [added]
    exact Graph.node?_add_size ..
  · rw [added]
    exact covered.wrap (Graph.record?_eq_some_iff.1 found₄) rfl (.inr rfl)

mutual

theorem fills_flatten {enter : TypeRef → Build Nat}
    (enters : EntersPlanned components same enter) (optional : Bool)
    (particle : Particle) :
    Fills components same (flatten enter optional · particle)
      (particle.plan optional) := by
  cases particle with
  | element occurs declaration =>
      simp only [flatten, Particle.plan]
      split
      · exact .nothing
      · have filled := Fills.push
          (.ofElement occurs.isRepeated (occurs.least == 0 || optional)
            declaration) (fun isWildcard => by cases isWildcard)
          (makes_element enters _ _ _)
        simp only [bind_assoc] at filled
        exact filled
  | group occurs compositor particles =>
      simp only [flatten, Particle.plan]
      split
      · exact .nothing
      · split
        · exact .push (.ofGroup compositor particles)
            (fun isWildcard => by cases isWildcard)
            (makes_group (fills_flattenAll enters _ particles))
        · exact fills_flattenAll enters _ particles
  | wildcard occurs =>
      simp only [flatten, Particle.plan]
      split
      · exact .nothing
      · exact .push (.ofWildcard .elementWildcard) (fun _ => rfl) makes_texts
  | unsupported occurs tag =>
      simp only [flatten, Particle.plan]
      split
      · exact .nothing
      · intro b roles opened start all plans next c planned _ _ drafted ended
        exact absurd ended Run.throw_ne_ok

theorem fills_flattenAll {enter : TypeRef → Build Nat}
    (enters : EntersPlanned components same enter) (optional : Bool)
    (particles : List Particle) :
    Fills components same (flattenAll enter optional · particles)
      (Particle.planAll optional particles) := by
  cases particles with
  | nil => exact .nothing
  | cons particle rest =>
      simp only [flattenAll, Particle.planAll]
      exact .bind (fills_flatten enters optional particle)
        (fills_flattenAll enters optional rest)

end

theorem makes_attribute (a : AttributeUse) :
    Makes components same (FieldPlan.ofAttribute a).kind (attributeNode a) := by
  intro b roles opened id c planned ended
  obtain ⟨node, between, entering, ended⟩ := Run.bind_eq_ok.1 ended
  obtain ⟨later, entered⟩ := makes_datatype _ _ _ _ _ _ planned entering
  rw [FieldPlan.ofAttribute]
  split at ended
  · next required =>
      obtain ⟨rfl, rfl⟩ := Run.pure_eq_ok.1 ended
      rw [required]
      exact ⟨later, entered⟩
  · next free =>
      rw [Bool.not_eq_true] at free
      rw [free]
      exact ⟨later,
        entered.trans (gives_optional ended entered.planned entered.holds)⟩

theorem fills_addAttributes (attributes : List AttributeUse) :
    Fills components same (addAttributes · attributes)
      (attributes.map .ofAttribute) := by
  induction attributes with
  | nil => exact .nothing
  | cons a rest ih =>
      have filled := Fills.bind (.push (.ofAttribute a)
        (fun isWildcard => by cases isWildcard) (makes_attribute a)) ih
      simp only [bind_assoc, pure_bind] at filled
      exact filled

theorem fills_addContent {enter : TypeRef → Build Nat}
    (enters : EntersPlanned components same enter) (type : ComplexType) :
    Fills components same (addContent enter · type)
      (type.content.elim [] (Particle.plan false)) := by
  simp only [addContent]
  cases type.content with
  | none => exact .nothing
  | some content => exact fills_flatten enters false content

theorem fills_addAttributeWildcard (type : ComplexType) :
    Fills components same (addAttributeWildcard · type)
      (if type.anyAttribute then [.ofWildcard .attributeWildcard] else []) := by
  simp only [addAttributeWildcard]
  split
  · exact .push (.ofWildcard .attributeWildcard) (fun _ => rfl) makes_texts
  · exact .nothing

theorem drafted_textFields {type : ComplexType} {all : Fields} {start : Nat}
    (planned : b.Planned components same roles opened)
    (atEnd : start = b.graph.nodes.size) (before : ∀ id ∈ opened, id < start)
    (ended : (textFields type).run b = .ok (all, c)) :
    ∃ later, Gives components same b roles opened
      (fun graph roles => Drafted graph same roles b.anonymous start all
        (mergePlans [] (type.simpleContent.toList.map .ofText))) c later := by
  have nothing := Drafted.nothing b.graph same roles b.anonymous atEnd.ge
  rw [textFields] at ended
  cases simple : type.simpleContent with
  | none =>
      rw [simple] at ended
      exact Fills.nothing _ _ _ _ _ _ _ _ planned atEnd.le before nothing ended
  | some datatype =>
      rw [simple] at ended
      have fills : Fills components same _ _ := .push (.ofText datatype)
        (fun isWildcard => by cases isWildcard) (makes_datatype datatype)
      exact fills _ _ _ _ _ _ _ _ planned atEnd.le before nothing ended

/-- The fields of a type are the planned ones. -/
theorem drafted_typeFields {enter : TypeRef → Build Nat}
    (enters : EntersPlanned components same enter) {type : ComplexType}
    {all : Fields} {start : Nat}
    (planned : b.Planned components same roles opened)
    (atEnd : start = b.graph.nodes.size) (before : ∀ id ∈ opened, id < start)
    (ended : (typeFields enter type).run b = .ok (all, c)) :
    ∃ later, Gives components same b roles opened
      (fun graph roles => Drafted graph same roles b.anonymous start all
        (mergePlans [] type.plan)) c later := by
  obtain ⟨text, between, texting, ended⟩ := Run.bind_eq_ok.1 ended
  obtain ⟨_, first⟩ := drafted_textFields planned atEnd before texting
  have others := (fills_addContent enters type).bind
    ((fills_addAttributes type.attributes).bind
      (fills_addAttributeWildcard type))
  obtain ⟨later, second⟩ := others _ _ _ _ _ _ _ _ first.planned
    (atEnd.le.trans first.growth.grows.size_le) before
    (first.scope ▸ first.holds) ended
  rw [first.scope] at second
  rw [ComplexType.plan, mergePlans_append]
  exact ⟨later, first.trans second⟩

/-- Types are not told apart by their numbers where they have one name. -/
structure Identifies (components : Components) (same : Nat → Nat → Prop) :
    Prop where
  refl : ∀ type, same type type
  named : ∀ first second name, (components.typeAt first).name = some name →
    (components.typeAt second).name = some name → same first second

/-- The types that are open while the fields of one are made. -/
def scopeWithin (type : ComplexType) (number node : Nat)
    (scope : List (Nat × Nat)) : List (Nat × Nat) :=
  if type.name.isNone then (number, node) :: scope else scope

theorem lookup_scopeWithin {type : ComplexType} {number other : Nat}
    {scope : List (Nat × Nat)}
    (fresh : type.name = none → scope.lookup number = none)
    (known : scope.lookup other = some id) :
    (scopeWithin type number node scope).lookup other = some id := by
  rw [scopeWithin]
  split
  · next unnamed =>
      exact Association.lookup_cons_of_fresh (fresh (Option.isNone_iff_eq_none.1 unnamed))
        known
  · exact known

/-- The record of a type has its role as soon as the type leads back to it. -/
theorem planned_beginType {number : Nat}
    (fresh : openRecord? b number (components.typeAt number) = none)
    (ended : (beginType number (components.typeAt number)).run b = .ok (node, c))
    (planned : b.Planned components same roles opened) :
    node = b.graph.nodes.size ∧ c.graph.nodes.size = node + 1 ∧
      c.anonymous = scopeWithin (components.typeAt number) number node
        b.anonymous ∧
      ∃ later, c.Planned components same later (node :: opened) ∧
        b.graph.Continues roles c.graph later ∧
          b.graph.Settled opened c.graph ∧
            (∃ r, c.graph.record? node = some r) ∧ later node = .type number := by
  rw [openRecord?] at fresh
  cases isNamed : (components.typeAt number).name with
  | some name =>
      rw [isNamed] at fresh
      cases (run_beginType_of_name isNamed b number).symm.trans ended
      have named : ∀ other id,
          ((name, b.graph.nodes.size) :: b.named).lookup other = some id →
            b.named.lookup other = some id ∨
              id = b.graph.nodes.size ∧ ∃ type, Role.type number = .type type ∧
                (components.typeAt type).name = some other := by
        intro other id known
        rcases Association.lookup_cons_cases known with ⟨rfl, rfl⟩ | known
        · exact .inr ⟨rfl, number, rfl, isNamed⟩
        · exact .inl known
      have listed : ∀ type other, Role.type number = .type type →
          (components.typeAt type).name = some other → some name = some other ∧
            ((name, b.graph.nodes.size) :: b.named).lookup other =
              some b.graph.nodes.size := by
        rintro type other ⟨⟩ otherNamed
        cases isNamed.symm.trans otherNamed
        exact ⟨rfl, List.lookup_cons_self⟩
      obtain ⟨later, planned', growth, settled, found, role⟩ :=
        planned.begin (c := { b with
            graph := (b.graph.add (.record (.empty (some name) .type))).2
            named := (name, b.graph.nodes.size) :: b.named })
          (some name) (.type number) rfl rfl named (fun _ _ => .inl)
          (fun _ _ known => Association.lookup_cons_of_fresh fresh known) listed
      exact ⟨rfl, by simp, by simp [scopeWithin, isNamed], later, planned',
        growth, settled, ⟨_, found⟩, role⟩
  | none =>
      cases (run_beginType_of_unnamed isNamed b number).symm.trans ended
      have anonymous : ∀ type id,
          ((number, b.graph.nodes.size) :: b.anonymous).lookup type = some id →
            b.anonymous.lookup type = some id ∨
              id = b.graph.nodes.size ∧ Role.type number = .type type ∧
                (components.typeAt type).name = none := by
        intro type id known
        rcases Association.lookup_cons_cases known with ⟨rfl, rfl⟩ | known
        · exact .inr ⟨rfl, rfl, isNamed⟩
        · exact .inl known
      let given : QName := .unqualified ("type" ++ toString b.nextType)
      obtain ⟨later, planned', growth, settled, found, role⟩ :=
        planned.begin (c := { b with
            graph := (b.graph.add (.record (.empty (some given) .type))).2
            nextType := b.nextType + 1
            anonymous := (number, b.graph.nodes.size) :: b.anonymous })
          (some given) (.type number) rfl rfl (fun _ _ => .inl) anonymous
          (fun _ _ known => known)
          (by
            rintro type other ⟨⟩ otherNamed
            cases isNamed.symm.trans otherNamed)
      exact ⟨rfl, by simp, by simp [scopeWithin, isNamed], later, planned',
        growth, settled, ⟨_, found⟩, role⟩

/-- Closing a type takes back what beginning it noted. -/
theorem closeType_eq_ok {number : Nat} {type : ComplexType} {u : Unit}
    {scope : List (Nat × Nat)}
    (fresh : type.name = none → scope.lookup number = none)
    (begun : b.anonymous = scopeWithin type number node scope)
    (ended : (closeType number type).run b = .ok (u, c)) :
    c = { b with anonymous := scope } := by
  rw [closeType] at ended
  rw [scopeWithin] at begun
  split at ended
  · next unnamed =>
      cases ended
      rw [if_pos unnamed] at begun
      have absent := List.lookup_eq_none_iff.1
        (fresh (Option.isNone_iff_eq_none.1 unnamed))
      have others : ∀ entry ∈ scope, (entry.1 != number) = true := by
        intro entry member
        rw [bne_comm]
        simpa using absent entry member
      dsimp only
      rw [begun, List.filter_cons_of_neg (by simp),
        List.filter_eq_self.2 others]
  · next isNamed =>
      cases ended
      rw [if_neg isNamed] at begun
      rw [← begun]

/-- A type that leads back leads to the record for it that is open, or to that of
its name. -/
theorem Builder.Planned.suits_of_openRecord?
    (planned : b.Planned components same roles opened)
    (identifies : Identifies components same) {number : Nat}
    (opens : openRecord? b number (components.typeAt number) = some node) :
    b.graph.Suits same roles b.anonymous b.graph.nodes.size
      (.one (.complex number)) node := by
  have nothing := Graph.Covered.of_size_le b.graph [node] (Nat.le_refl _)
  rw [openRecord?] at opens
  cases isNamed : (components.typeAt number).name with
  | some name =>
      simp only [isNamed] at opens
      obtain ⟨r, other, found, role, otherNamed⟩ := planned.named _ _ opens
      refine ⟨⟨r, other, found, role,
        identifies.named number other name isNamed otherNamed⟩, ?_, nothing⟩
      rintro type target known ⟨⟩
      obtain ⟨_, _, _, unnamed⟩ := planned.anonymous _ _ known
      cases isNamed.symm.trans unnamed
  | none =>
      simp only [isNamed] at opens
      obtain ⟨r, found, role, _⟩ := planned.anonymous _ _ opens
      refine ⟨⟨r, number, found, role, identifies.refl number⟩, ?_, nothing⟩
      rintro type target known ⟨⟩
      exact .inl (Option.some.inj (known.symm.trans opens))

/-- The record of a type is open while its fields are made. -/
theorem makes_type (identifies : Identifies components same)
    {enter : TypeRef → Build Nat} (enters : EntersPlanned components same enter)
    {number : Nat} {b c : Builder} {id : Nat}
    (planned : b.Planned components same roles opened)
    (fresh : openRecord? b number (components.typeAt number) = none)
    (ended : (do
      let node ← beginType number (components.typeAt number)
      let fields ← typeFields enter (components.typeAt number)
      closeType number (components.typeAt number)
      setFields node fields
      return node : Build Nat).run b = .ok (id, c)) :
    ∃ later, Gives components same b roles opened
      (fun graph roles => graph.Suits same roles b.anonymous
        b.graph.nodes.size (.one (.complex number)) id) c later := by
  obtain ⟨record, b₁, beginning, ended⟩ := Run.bind_eq_ok.1 ended
  obtain ⟨all, b₂, filling, ended⟩ := Run.bind_eq_ok.1 ended
  obtain ⟨_, b₃, closing, ended⟩ := Run.bind_eq_ok.1 ended
  rw [setFields, Run.modify_bind] at ended
  obtain ⟨rfl, rfl⟩ := Run.pure_eq_ok.1 ended
  have unlisted : (components.typeAt number).name = none →
      b.anonymous.lookup number = none := by
    intro unnamed
    simpa only [openRecord?, unnamed] using fresh
  obtain ⟨rfl, atEnd, begun, roles₁, planned₁, growth₁, settled₁, ⟨r, found₁⟩,
    role₁⟩ := planned_beginType fresh beginning planned
  obtain ⟨later, filled⟩ :=
    drafted_typeFields enters planned₁ atEnd.symm planned₁.nested.lt_head filling
  obtain rfl := closeType_eq_ok unlisted (filled.scope.trans begun) closing
  have own : ∀ type, Role.type number = .type type →
      (components.typeAt type).name = none →
        b₁.anonymous.lookup type = some b.graph.nodes.size := by
    rintro type ⟨⟩ unnamed
    rw [begun, scopeWithin, unnamed]
    exact List.lookup_cons_self
  -- The record is complete only now; until then it was one of the open ones,
  -- which types behind it may have led back to.
  obtain ⟨planned₂, growth₂, settled₂, ⟨r', found₂⟩, role₂, covered⟩ :=
    planned_of_filled growth₁ settled₁ found₁ role₁ own filled rfl
  have narrower : ∀ type node, b.anonymous.lookup type = some node →
      b₂.anonymous.lookup type = some node := by
    intro type node known
    rw [filled.scope, begun]
    exact lookup_scopeWithin unlisted known
  refine ⟨later, planned₂.narrow narrower, growth₂, settled₂, rfl,
    ⟨r', number, found₂, role₂, identifies.refl number⟩, ?_, covered⟩
  rintro type target known ⟨⟩
  obtain ⟨_, _, _, unnamed⟩ := planned.anonymous _ _ known
  cases (unlisted unnamed).symm.trans known

/-- Types are entered as planned, by induction on how many more may be. -/
theorem entersPlanned_typeNode (identifies : Identifies components same)
    (fuel : Nat) :
    EntersPlanned components same (typeNode components fuel) := by
  induction fuel with
  | zero =>
      intro type
      cases type with
      | simple datatype => exact makes_datatype datatype
      | complex number =>
          intro b roles opened id c planned ended
          exact absurd ended Run.throw_ne_ok
  | succ fuel ih =>
      intro type
      cases type with
      | simple datatype => exact makes_datatype datatype
      | complex number =>
          intro b roles opened id c planned ended
          rw [typeNode, Run.get_bind] at ended
          split at ended
          · next known opens =>
              obtain ⟨rfl, rfl⟩ := Run.pure_eq_ok.1 ended
              exact ⟨roles, planned, .refl _ _, .refl _ _, rfl,
                planned.suits_of_openRecord? identifies opens⟩
          · next fresh => exact makes_type identifies ih planned fresh ended

end Lowering

end XmlRecords
