import XmlRecords.Proofs.Acceptance

/-!
# Required elements

A field for one element is required only where every word of the content has the
element.  Whatever may be left out of a word stands below an optional particle, or
is an arm of a choice, and this makes its field optional.  A repeated group is
looked at in each of its rounds, which begin anew.
-/

namespace XmlRecords

/-- The names are those of children that are matched by the labels of a word, one
after the other.  A wildcard matches any name. -/
def FitLabels (labels : List Label) (names : List QName) : Prop :=
  List.Forall₂ (fun (label : Label) name =>
    ∀ declaration ∈ label, declaration.name = name) labels names

theorem FieldKind.ofOccurrence_eq_one {repeated optional : Bool} {type other : TypeRef}
    (one : FieldKind.ofOccurrence repeated optional type = .one other) :
    repeated = false ∧ optional = false := by
  cases repeated <;> cases optional <;> first | exact ⟨rfl, rfl⟩ | cases one

/-- What has to occur is spelled in each word. -/
theorem Occurs.Repeats.exists_subset {occurs : Occurs} {spells : List Label → Prop}
    {word : List Label} (repeats : occurs.Repeats spells word)
    (required : occurs.least ≠ 0) : ∃ round, spells round ∧ round ⊆ word := by
  obtain ⟨rounds, rfl, least, _, each⟩ := repeats
  obtain ⟨round, member⟩ := List.exists_mem_of_length_pos
    (Nat.lt_of_lt_of_le (Nat.pos_of_ne_zero required) least)
  exact ⟨round, each round member, fun _ within =>
    List.mem_flatten.2 ⟨round, member, within⟩⟩

/-- Unless one of several particles is chosen, a word is made of words of all of
them. -/
theorem Particle.exists_subset_of_spellsAll {compositor : Compositor}
    {particle : Particle} {rest : List Particle} {word : List Label}
    (all : compositor ≠ .choice)
    (spells : Particle.SpellsAll compositor (particle :: rest) word) :
    ∃ first others, particle.Spells first ∧
      Particle.SpellsAll compositor rest others ∧ first ⊆ word ∧ others ⊆ word := by
  cases compositor with
  | choice => exact absurd rfl all
  | sequence =>
      obtain ⟨first, others, here, there, rfl⟩ := spells
      exact ⟨first, others, here, there, List.subset_append_left ..,
        List.subset_append_right ..⟩
  | all =>
      obtain ⟨first, others, here, there, interleaved⟩ := spells
      have same := interleaved.perm.symm.subset
      exact ⟨first, others, here, there, fun _ member =>
        same (List.mem_append_left _ member), fun _ member =>
        same (List.mem_append_right _ member)⟩

mutual

/-- A field for one element is required only where nothing around it is optional, and
then each word has a declaration of its name. -/
theorem Particle.exists_mem_of_required (particle : Particle) {optional : Bool}
    {plan : FieldPlan} {name : QName} {type : TypeRef}
    (planned : plan ∈ particle.plan optional) (origin : plan.origin = .element name)
    (required : plan.kind = .one type) :
    optional = false ∧ ∀ word, particle.Spells word →
      ∃ declaration, some declaration ∈ word ∧ declaration.name = name := by
  cases particle with
  | element occurs declaration =>
      rw [Particle.plan] at planned
      split at planned
      · cases planned
      · obtain rfl := List.mem_singleton.1 planned
        obtain ⟨_, both⟩ := FieldKind.ofOccurrence_eq_one required
        rw [Bool.or_eq_false_iff, beq_eq_false_iff_ne] at both
        refine ⟨both.2, fun word spells => ?_⟩
        rw [Particle.Spells] at spells
        obtain ⟨round, rfl, within⟩ := spells.exists_subset both.1
        cases origin
        exact ⟨declaration, within List.mem_cons_self, rfl⟩
  | group occurs compositor particles =>
      rw [Particle.plan] at planned
      split at planned
      · cases planned
      · split at planned
        · rw [List.mem_singleton.1 planned] at origin
          cases origin
        · obtain ⟨none, each⟩ := Particle.exists_mem_of_required_of_all compositor
            particles planned origin required
          simp only [Bool.or_eq_false_iff, beq_eq_false_iff_ne] at none
          refine ⟨none.1.1, fun word spells => ?_⟩
          rw [Particle.Spells] at spells
          obtain ⟨round, spells, within⟩ := spells.exists_subset none.1.2
          obtain ⟨declaration, member, named⟩ := each none.2 round spells
          exact ⟨declaration, within member, named⟩
  | wildcard occurs =>
      rw [Particle.plan] at planned
      split at planned
      · cases planned
      · rw [List.mem_singleton.1 planned] at origin
        cases origin
  | unsupported occurs tag => simp [Particle.plan] at planned

theorem Particle.exists_mem_of_required_of_all (compositor : Compositor)
    (particles : List Particle) {optional : Bool} {plan : FieldPlan} {name : QName}
    {type : TypeRef} (planned : plan ∈ Particle.planAll optional particles)
    (origin : plan.origin = .element name) (required : plan.kind = .one type) :
    optional = false ∧ (compositor ≠ .choice → ∀ word,
      Particle.SpellsAll compositor particles word →
        ∃ declaration, some declaration ∈ word ∧ declaration.name = name) := by
  cases particles with
  | nil => simp [Particle.planAll] at planned
  | cons particle rest =>
      rw [Particle.planAll, List.mem_append] at planned
      rcases planned with planned | planned
      · obtain ⟨none, each⟩ :=
          Particle.exists_mem_of_required particle planned origin required
        refine ⟨none, fun all word spells => ?_⟩
        obtain ⟨first, _, here, _, within, _⟩ :=
          Particle.exists_subset_of_spellsAll all spells
        obtain ⟨declaration, member, named⟩ := each first here
        exact ⟨declaration, within member, named⟩
      · obtain ⟨none, each⟩ := Particle.exists_mem_of_required_of_all compositor rest
          planned origin required
        refine ⟨none, fun all word spells => ?_⟩
        obtain ⟨_, others, _, there, _, within⟩ :=
          Particle.exists_subset_of_spellsAll all spells
        obtain ⟨declaration, member, named⟩ := each all others there
        exact ⟨declaration, within member, named⟩

end

/-- Where a declaration is in a word, its name is among the names that fit. -/
theorem FitLabels.name_mem {labels : List Label} {names : List QName}
    (fit : FitLabels labels names) {declaration : ElementDecl}
    (member : some declaration ∈ labels) : declaration.name ∈ names := by
  induction fit with
  | nil => cases member
  | cons first _ ih =>
      rcases List.mem_cons.1 member with here | there
      · rw [first declaration here.symm]
        exact List.mem_cons_self
      · exact List.mem_cons_of_mem _ (ih there)

/-- The words of what a record is for: of the content of a type, of one round of a
group, or of the choice of a document element. -/
def Components.RoleSpells (components : Components) : Role → List Label → Prop
  | .type id, word => (components.typeAt id).Spells word
  | .group compositor particles, word =>
      Particle.SpellsAll compositor particles word
  | .document roots, word => ∃ root ∈ roots, word = [some root]

/-- A field that is planned for one element is for an element of each word. -/
theorem Components.exists_mem_of_required {components : Components} {role : Role}
    {plan : FieldPlan} {name : QName} {type : TypeRef}
    (planned : plan ∈ components.rolePlan role) (origin : plan.origin = .element name)
    (required : plan.kind = .one type) {word : List Label}
    (spells : components.RoleSpells role word) :
    ∃ declaration, some declaration ∈ word ∧ declaration.name = name := by
  cases role with
  | type id =>
      obtain ⟨content, same, planned⟩ := ComplexType.exists_content_of_mem_plan
        planned (.inr (.inr ⟨name, origin⟩))
      rw [RoleSpells, ComplexType.Spells, same] at spells
      exact (content.exists_mem_of_required planned origin required).2 word spells
  | group compositor particles =>
      obtain ⟨all, each⟩ := Particle.exists_mem_of_required_of_all compositor
        particles planned origin required
      exact each (by simpa using all) word spells
  | document roots =>
      obtain ⟨declaration, _, rfl⟩ := List.mem_map.1 planned
      cases required

/-- A field for an element that leads to no wrapper is planned for one element. -/
theorem Graph.Keeps.exists_kind_eq_one {graph : Graph} {same : Nat → Nat → Prop}
    {roles : Nat → Role} {declarations : List ElementDecl} {plan : FieldPlan}
    {field : Field} {name : QName} (kept : graph.Keeps same roles plan field)
    (isFor : plan.IsFor declarations) (origin : plan.origin = .element name)
    (given : ∀ inner, graph.node? field.node ≠ some (.optional inner))
    (single : ∀ item, graph.node? field.node ≠ some (.array item)) :
    ∃ type, plan.kind = .one type := by
  have realizes := kept.2
  cases isFor with
  | @element repeated optional declaration declared =>
      cases repeated with
      | true =>
          obtain ⟨item, found, _⟩ := realizes
          exact absurd found (single item)
      | false =>
          cases optional with
          | true =>
              obtain ⟨inner, found, _⟩ := realizes
              exact absurd found (given inner)
          | false => exact ⟨declaration.type, rfl⟩
  | group compositor declared => cases origin
  | wildcard => cases origin

/-- What the labels of a valid element match are its children. -/
theorem Components.Valid.exists_fitLabels {components : Components} {zone : Zone}
    {rule : ComplexType → List Element → List Label → Prop} {number : Nat}
    {element : Element} (valid : components.Valid zone rule (.complex number) element) :
    ∃ labels, (components.typeAt number).Spells labels ∧
      FitLabels labels (element.children.map (·.name)) := by
  cases valid with
  | @complex _ type _ labels known spelled length named =>
      refine ⟨labels, by rwa [typeAt, known], ?_⟩
      rw [FitLabels, List.forall₂_map_right_iff]
      refine List.Forall₂.flip (List.forall₂_iff_zip.2 ⟨length, ?_⟩)
      intro child label paired declaration here
      obtain rfl := Option.mem_def.1 here
      exact (named child declaration paired).symm

/-- What is required is never left out.  Where a field for an element is neither
optional nor an array, each word of the content of its type has the element, and
so has each round of its group, whatever the names of the children that are left to
wildcards.  In particular no valid element is without it. -/
theorem Graph.name_mem_of_required {components : Components}
    {wanted : Option String} {graph : Graph}
    (built : ofComponents components wanted = .ok graph) :
    ∃ roots roles root, Lowering.chosenRoots components wanted = .ok roots ∧
      graph.Depicts components components.SharesName roots roles root ∧
      ∀ id record field name, graph.record? id = some record →
        field ∈ record.fields → field.origin = .element name →
        (∀ inner, graph.node? field.node ≠ some (.optional inner)) →
        (∀ item, graph.node? field.node ≠ some (.array item)) →
        (∀ word names, components.RoleSpells (roles id) word →
          FitLabels word names → name ∈ names) ∧
        ∀ zone rule number element, roles id = .type number →
          components.Valid zone rule (.complex number) element →
          name ∈ element.children.map (·.name) := by
  obtain ⟨roots, roles, root, chosen, depicts⟩ := exists_depicts_of_ofComponents
    (Lowering.identifies_sharesName components) built
  refine ⟨roots, roles, root, chosen, depicts, ?_⟩
  intro id record field name found member origin given single
  obtain ⟨index, listed⟩ := List.getElem?_of_mem member
  obtain ⟨plan, planned, kept⟩ := (depicts.follows id record found).exists_plan listed
  have planned := List.mem_of_getElem? planned
  have origin : plan.origin = .element name := kept.1.symm.trans origin
  obtain ⟨type, required⟩ := kept.exists_kind_eq_one
    (Components.isFor_of_mem_plan planned (.inl ⟨name, origin⟩)) origin given single
  have each : ∀ word names, components.RoleSpells (roles id) word →
      FitLabels word names → name ∈ names := by
    intro word names spells fit
    obtain ⟨declaration, listed, rfl⟩ := Components.exists_mem_of_required
      (Components.mem_rolePlan_of_mem_plan planned) origin required spells
    exact fit.name_mem listed
  refine ⟨each, fun zone rule number element role valid => ?_⟩
  obtain ⟨labels, spells, fit⟩ := valid.exists_fitLabels
  exact each labels _ (by rw [role]; exact spells) fit

/-- A stamp, which may be marked. -/
def stampParticles : List Particle :=
  [.element .once ⟨⟨"stamp", none⟩, .simple .int⟩,
    .element ⟨0, some 1⟩ ⟨⟨"mark", none⟩, .simple .string⟩]

/-- A parcel has a sender, it is a letter or a box, and it has stamps that may be
marked. -/
def parcelComponents : Components where
  roots := [⟨⟨"parcel", none⟩, .complex 0⟩]
  types := #[
    { content := some (.group .once .sequence
        [.element .once ⟨⟨"sender", none⟩, .simple .string⟩,
          .group .once .choice
            [.element .once ⟨⟨"letter", none⟩, .simple .string⟩,
              .element .once ⟨⟨"box", none⟩, .simple .string⟩],
          .group ⟨0, none⟩ .sequence stampParticles]) }]

/-- The graph of parcels. -/
def parcelGraph : Graph where
  nodes := #[
    .record ⟨some ⟨"type0", none⟩, .type,
      [⟨"sender", .element ⟨"sender", none⟩, 1⟩,
        ⟨"letter", .element ⟨"letter", none⟩, 2⟩,
        ⟨"box", .element ⟨"box", none⟩, 3⟩, ⟨"group", .group, 7⟩], none, none, none⟩,
    .primitive .string none, .optional 1, .optional 1,
    .record ⟨some ⟨"group0", none⟩, .group .sequence,
      [⟨"stamp", .element ⟨"stamp", none⟩, 5⟩,
        ⟨"mark", .element ⟨"mark", none⟩, 6⟩], none, none, none⟩,
    .primitive .int none, .optional 1, .array 4]
  root := some 0

theorem ofComponents_parcelComponents :
    Graph.ofComponents parcelComponents none = .ok parcelGraph := by
  have computed : (Graph.ofComponents parcelComponents none).toOption =
      some parcelGraph := by
    decide +kernel
  cases built : Graph.ofComponents parcelComponents none with
  | error e =>
      rw [built] at computed
      cases computed
  | ok graph =>
      rw [built] at computed
      cases computed
      rfl

/-- Of the fields of a parcel the sender is required, and of those of a stamp only
the stamp itself. -/
theorem name_mem_of_required_parcelGraph :
    (∀ zone rule element,
      parcelComponents.Valid zone rule (.complex 0) element →
        ⟨"sender", none⟩ ∈ element.children.map (·.name)) ∧
    ∀ word names, Particle.SpellsAll .sequence stampParticles word →
      FitLabels word names → ⟨"stamp", none⟩ ∈ names := by
  obtain ⟨roots, roles, root, chosen, depicts, required⟩ :=
    Graph.name_mem_of_required ofComponents_parcelComponents
  cases chosen
  obtain rfl : 0 = root := Option.some.inj depicts.rooted
  have role : roles 0 = .type 0 := depicts.role_root rfl rfl
  constructor
  · intro zone rule element valid
    exact (required 0 _ ⟨"sender", .element ⟨"sender", none⟩, 1⟩ ⟨"sender", none⟩ rfl
      List.mem_cons_self rfl nofun nofun).2 zone rule 0 element role valid
  · intro word names spells fit
    have listed : [(⟨"sender", .element ⟨"sender", none⟩, 1⟩ : Field),
        ⟨"letter", .element ⟨"letter", none⟩, 2⟩,
        ⟨"box", .element ⟨"box", none⟩, 3⟩, ⟨"group", .group, 7⟩][3]? =
          some ⟨"group", .group, 7⟩ := rfl
    obtain ⟨plan, planned, _, realizes⟩ :=
      (depicts.follows 0 _ rfl).exists_plan listed
    rw [role] at planned
    cases planned
    obtain ⟨item, record, array, _, round⟩ := realizes
    cases array
    exact (required 4 _ ⟨"stamp", .element ⟨"stamp", none⟩, 5⟩ ⟨"stamp", none⟩ rfl
      List.mem_cons_self rfl nofun nofun).1 word names (by rw [round]; exact spells) fit

end XmlRecords
