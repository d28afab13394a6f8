import XmlRecords.Proofs.FreePlaces
import XmlRecords.Proofs.SplitDocument
import XmlRecords.Proofs.ValidDocument

/-!
# Valid documents are accepted

A valid element becomes a value of every node for its type, by induction on what
makes it valid.  Its children have routes, because they are declared or left to a
wildcard, and they do not get in each other's way, because a name for one element
comes up once.  Attributes and text are read by the fields that were planned for
them.

A valid document can be refused where its labels are ambiguous: children are routed
by their names, to the first field for them.
-/

namespace XmlRecords

theorem exists_mem_zip {α β : Type} {xs : List α} {ys : List β}
    (length : xs.length = ys.length) {x : α} (member : x ∈ xs) :
    ∃ y, (x, y) ∈ xs.zip ys := by
  rw [← List.map_fst_zip (Nat.le_of_eq length)] at member
  obtain ⟨⟨_, y⟩, paired, rfl⟩ := List.mem_map.1 member
  exact ⟨y, paired⟩

theorem exists_findIdx?_of_mem {fields : List Field} {field : Field}
    (member : field ∈ fields) :
    ∃ index, fields.findIdx? (·.origin == field.origin) = some index := by
  rw [← Option.isSome_iff_exists, List.findIdx?_isSome, List.any_eq_true]
  exact ⟨field, member, beq_self_eq_true field.origin⟩

namespace Graph

variable {components : Components} {same : Nat → Nat → Prop} {graph : Graph}
  {roles : Nat → Role} {roots : List ElementDecl} {root id number : Nat}
  {allowed : QName → Prop} {record : Record} {zone : Zone}

/-- Whatever belongs to a role has a field of its origin. -/
theorem Follows.exists_origin
    (follows : graph.Follows components same roles id record) {plan : FieldPlan}
    (planned : plan ∈ components.rolePlan (roles id)) :
    ∃ index, record.fields.findIdx? (·.origin == plan.origin) = some index := by
  obtain ⟨other, kept, origin, _⟩ := exists_mem_mergePlans [] planned
  obtain ⟨index, field, listed, keeps⟩ := follows.exists_field kept
  rw [← origin, ← keeps.1]
  exact exists_findIdx?_of_mem (List.mem_of_getElem? listed)

theorem exists_find?_of_findIdx? {plans : List FieldPlan} {fields : List Field}
    (kept : List.Forall₂ (graph.Keeps same roles) plans fields) {origin : Origin}
    {index : Nat}
    (first : fields.findIdx? (·.origin == origin) = some index) :
    ∃ plan field, plans.find? (·.origin == origin) = some plan ∧
      fields[index]? = some field ∧ graph.Keeps same roles plan field := by
  induction kept generalizing index with
  | nil => cases first
  | @cons plan field plans fields keeps _ ih =>
      rw [List.findIdx?_cons] at first
      by_cases here : field.origin = origin
      · rw [if_pos (beq_iff_eq.2 here)] at first
        cases first
        exact ⟨plan, field, by simp [← keeps.1, here], rfl, keeps⟩
      · rw [if_neg (by simpa using here)] at first
        obtain ⟨index, later, rfl⟩ := Option.map_eq_some_iff.1 first
        obtain ⟨other, last, found, listed, keeps'⟩ := ih later
        refine ⟨other, last, ?_, listed, keeps'⟩
        rw [List.find?_cons_of_neg (by simpa [← keeps.1] using here), found]

theorem exists_readAttribute (lowered : graph.Lowered allowed root)
    {datatype : Datatype} {optional : Bool}
    (realizes : graph.Realizes same roles
      (.ofOccurrence false optional (.simple datatype)) id) {text : String}
    (accepts : datatype.Accepts zone text) :
    ∃ value, graph.readAttribute zone id text = .ok value := by
  rw [readAttribute]
  cases optional with
  | false =>
      have found : graph.node? id = some
          (.primitive datatype.primitive.1 datatype.primitive.2) := realizes
      rw [elementType_of_isWrapper_eq_false found rfl, found]
      exact accepts
  | true =>
      obtain ⟨inner, wrapped, represents⟩ := realizes
      have found : graph.node? inner = some
          (.primitive datatype.primitive.1 datatype.primitive.2) := represents
      rw [elementType_optional lowered.linked wrapped,
        elementType_of_isWrapper_eq_false found rfl, found]
      exact accepts

/-- What can be converted against each node for a type can be put into a field for
elements of the type. -/
theorem exists_convert_itemNode (lowered : graph.Lowered allowed root)
    {repeated optional : Bool} {type : TypeRef}
    (realizes : graph.Realizes same roles
      (.ofOccurrence repeated optional type) id) {element : Element}
    (converts : ∀ node, graph.Represents same roles type node →
      ∃ value, graph.convert zone node element = .ok value) :
    ∃ value, graph.convert zone (Value.itemNode graph id) element =
      .ok value := by
  cases repeated with
  | true =>
      obtain ⟨item, array, represents⟩ := realizes
      rw [Value.itemNode, array]
      exact converts item represents
  | false =>
      cases optional with
      | true =>
          obtain ⟨inner, wrapped, represents⟩ := realizes
          rw [Value.itemNode, wrapped]
          dsimp only
          rw [lowered.convert_optional wrapped]
          exact converts inner represents
      | false =>
          have represents : graph.Represents same roles type id := realizes
          obtain ⟨node, found, plain⟩ := represents.exists_node
          have itself : Value.itemNode graph id = id := by
            rw [Value.itemNode, found]
            cases node <;> first | rfl | cases plain
          rw [itself]
          exact converts id represents

namespace Depicts

/-- The record of a type takes the attributes that the type admits. -/
theorem exists_placeAttribute
    (depicts : graph.Depicts components same roots roles root)
    (lowered : graph.Lowered allowed root)
    (found : graph.record? id = some record) (role : roles id = .type number)
    {a : Attribute} (admits : (components.typeAt number).Admits zone a)
    (slots : Slots) :
    ∃ next, graph.placeAttribute zone record slots a = .ok next := by
  have follows := depicts.follows id record found
  have rolePlan : components.rolePlan (roles id) =
      (components.typeAt number).plan := by
    rw [role]
    rfl
  rw [placeAttribute]
  cases named : record.attributeField? a.name with
  | some index =>
      obtain ⟨field, listed, origin⟩ := Record.exists_field_of_findIdx? named
      obtain ⟨plan, planned, keeps⟩ := follows.exists_plan listed
      have planned := Components.mem_rolePlan_of_mem_plan
        (List.mem_of_getElem? planned)
      rw [rolePlan] at planned
      obtain ⟨declared, member, rfl, sameName⟩ :=
        ComplexType.exists_attribute_of_mem_plan planned
          (keeps.1.symm.trans origin)
      obtain ⟨value, read⟩ := exists_readAttribute lowered keeps.2
        (admits.2 declared member sameName)
      dsimp only
      rw [listed]
      exact ⟨_, Outcome.map_eq_ok.2 ⟨value, read, rfl⟩⟩
  | none =>
      rcases admits.1 with isOpen | ⟨declared, member, sameName⟩
      · have planned : .ofWildcard .attributeWildcard ∈
            components.rolePlan (roles id) := by
          rw [rolePlan]
          simp [ComplexType.plan, isOpen]
        obtain ⟨index, first⟩ := follows.exists_origin planned
        rw [(lowered.indexed found).attributeWildcard_eq.trans first]
        exact ⟨_, rfl⟩
      · have planned : .ofAttribute declared ∈
            components.rolePlan (roles id) := by
          rw [rolePlan]
          exact List.mem_append_right _ (List.mem_append_right _
            (List.mem_append_left _ (List.mem_map_of_mem member)))
        obtain ⟨index, first⟩ := follows.exists_origin planned
        rw [FieldPlan.ofAttribute, sameName] at first
        cases named.symm.trans first

/-- The field for text reads it as the simple content of the type. -/
theorem exists_text (depicts : graph.Depicts components same roots roles root)
    (lowered : graph.Lowered allowed root)
    (found : graph.record? id = some record) (role : roles id = .type number)
    {index : Nat} (text : record.text = some index) :
    ∃ field, record.fields[index]? = some field ∧
      ∃ datatype ∈ (components.typeAt number).simpleContent,
        graph.node? field.node =
          some (.primitive datatype.primitive.1 datatype.primitive.2) := by
  obtain ⟨field, listed, origin⟩ := Record.exists_field_of_findIdx?
    ((lowered.indexed found).text_eq.symm.trans text)
  obtain ⟨plan, planned, keeps⟩ :=
    (depicts.follows id record found).exists_plan listed
  have planned := Components.mem_rolePlan_of_mem_plan
    (List.mem_of_getElem? planned)
  rw [role] at planned
  obtain ⟨datatype, simple, rfl⟩ :=
    ComplexType.exists_text_of_mem_plan planned (keeps.1.symm.trans origin)
  exact ⟨field, listed, datatype, simple, keeps.2⟩

/-- A name that goes to a field for one element is single. -/
theorem isSingle_of_route?
    (depicts : graph.Depicts components same roots roles root)
    (found : graph.record? id = some record) (role : roles id = .type number)
    {name : QName} {index : Nat}
    (routed : graph.route? record name = some (.field index))
    (single : graph.isArrayField record index = false) :
    (components.typeAt number).isSingle name := by
  obtain ⟨plan, field, first, listed, keeps⟩ := exists_find?_of_findIdx?
    (depicts.follows id record found).fields (elementField?_of_route? routed)
  have origin : plan.origin = .element name := by
    simpa using List.find?_some first
  rw [role, Components.plan, find?_mergePlans, List.find?_nil, Option.none_or]
    at first
  obtain ⟨content, _, planned⟩ := ComplexType.exists_content_of_mem_plan
    (List.mem_of_find?_eq_some first) (.inr (.inr ⟨name, origin⟩))
  rw [ComplexType.isSingle, Option.any_eq_true]
  refine ⟨plan, first, ?_⟩
  cases content.isFor_of_mem_plan planned with
  | element repeated optional declared =>
      rw [FieldPlan.ofElement, FieldKind.isSingle_ofOccurrence]
      cases repeated with
      | false => rfl
      | true =>
          obtain ⟨item, array, _⟩ := keeps.2
          exact absurd array ((isArrayField_eq_false_iff listed).1 single item)
  | group compositor declared => cases origin
  | wildcard => cases origin

/-- An element becomes a value of the record of its type, if its children find
their places, its attributes are admitted, and its text can be read. -/
theorem exists_convert_of_finds
    (depicts : graph.Depicts components same roots roles root)
    (lowered : graph.Lowered allowed root)
    (found : graph.record? id = some record) (role : roles id = .type number)
    {element : Element}
    (finds : ∀ child ∈ element.children, graph.Finds zone record child)
    (separate : graph.Separate record element.children)
    (attributes : ∀ a ∈ element.attributes, a.isMeta = false →
      (components.typeAt number).Admits zone a)
    (text : ∀ datatype ∈ (components.typeAt number).simpleContent,
      datatype.Accepts zone element.text) :
    ∃ value, graph.convert zone id element = .ok value := by
  obtain ⟨placed, placing⟩ := (Placed.start lowered found zone)
    |>.exists_placeChildren lowered found finds (by rwa [List.nil_append])
  obtain ⟨filled, filling⟩ := exists_placeAttributes_of_each
    (fun a member isData slots => depicts.exists_placeAttribute lowered found
      role (attributes a member isData) slots) placed
  have puts : ∃ slots,
      graph.PutsText zone record element.text filled slots := by
    cases isText : record.text with
    | none => exact ⟨filled, .none isText⟩
    | some index =>
        obtain ⟨field, listed, datatype, simple, primitive⟩ :=
          depicts.exists_text lowered found role isText
        obtain ⟨value, read⟩ := text datatype simple
        exact ⟨_, .field isText listed primitive read⟩
  obtain ⟨slots, puts⟩ := puts
  exact ⟨.record slots, (lowered.convert_record_eq_ok found).2
    ⟨placed, filled, slots, rfl, placing, filling, puts⟩⟩

/-- A child that is not declared finds its place in the field for a wildcard. -/
theorem finds_of_isOpen
    (depicts : graph.Depicts components same roots roles root)
    (lowered : graph.Lowered allowed root)
    (found : graph.record? id = some record) (role : roles id = .type number)
    {child : Element} (isOpen : (components.typeAt number).isOpen)
    (absent : child.name ∉
      (components.typeAt number).declarations.map (·.name)) :
    graph.Finds zone record child := by
  rw [ComplexType.isOpen, List.any_eq_true] at isOpen
  obtain ⟨plan, planned, origin⟩ := isOpen
  have belongs : plan ∈ components.rolePlan (roles id) := by
    rw [role]
    exact planned
  obtain ⟨index, first⟩ :=
    (depicts.follows id record found).exists_origin belongs
  rw [eq_of_beq origin] at first
  have undeclared : child.name ∉
      (components.declarations (roles id)).map (·.name) := by
    rw [role]
    exact absent
  refine .inr ⟨index, ?_⟩
  rw [depicts.route?_eq_wildcard lowered found undeclared,
    (lowered.indexed found).elementWildcard_eq.trans first]
  rfl

/-- A child that is declared finds its place if all declarations of its name have
one type, and it can be converted against the nodes for that. -/
theorem finds_of_declared
    (depicts : graph.Depicts components same roots roles root)
    (lowered : graph.Lowered allowed root)
    (found : graph.record? id = some record) (role : roles id = .type number)
    {child : Element} {type : TypeRef}
    (declared : child.name ∈
      (components.typeAt number).declarations.map (·.name))
    (types : ∀ other ∈ (components.typeAt number).declarations,
      other.name = child.name → other.type = type)
    (converts : ∀ node, graph.Represents same roles type node →
      ∃ value, graph.convert zone node child = .ok value) :
    graph.Finds zone record child := by
  have declarations : components.declarations (roles id) =
      (components.typeAt number).declarations := by
    rw [role]
    rfl
  rw [← declarations] at declared types
  obtain ⟨route, field, routed, leads, other, listed, repeated, optional,
    sameName, realizes⟩ := depicts.exists_route lowered found declared
  rw [types other listed sameName] at realizes
  exact .inl ⟨route, field, routed, leads,
    exists_convert_itemNode lowered realizes converts⟩

/-- A valid element becomes a value of each node for its type. -/
theorem exists_convert_of_valid
    (depicts : graph.Depicts components (· = ·) roots roles root)
    (lowered : graph.Lowered allowed root) {type : TypeRef} {element : Element}
    (valid : components.Valid zone ComplexType.Unambiguous type element)
    (node : Nat) (represents : graph.Represents (· = ·) roles type node) :
    ∃ value, graph.convert zone node element = .ok value := by
  induction valid generalizing node with
  | @simple datatype element alone text =>
      have found : graph.node? node = some
          (.primitive datatype.primitive.1 datatype.primitive.2) := represents
      rw [convert_primitive found]
      exact text
  | @complex number type element labels known spelled length named children
      attributes text unambiguous ih =>
      obtain ⟨record, _, found, role, rfl⟩ := represents
      obtain rfl : components.typeAt number = type := by
        rw [Components.typeAt, known, Option.getD_some]
      refine depicts.exists_convert_of_finds lowered found role ?_ ?_ attributes
        text
      · intro child member
        obtain ⟨label, paired⟩ := exists_mem_zip length member
        cases label with
        | none =>
            obtain ⟨isOpen, absent⟩ := unambiguous.wildcards child paired
            exact depicts.finds_of_isOpen lowered found role isOpen absent
        | some declaration =>
            have listed : some declaration ∈ labels := (List.of_mem_zip paired).2
            have declared := ComplexType.mem_declarations_of_spells spelled listed
            have sameName := named child declaration paired
            -- The route may lead to another declaration than the label names.
            refine depicts.finds_of_declared lowered found role ?_ ?_
              (ih child declaration paired)
            · rw [sameName]
              exact List.mem_map_of_mem declared
            · intro other declared' sameName'
              exact unambiguous.types declaration listed other declared'
                (sameName'.trans sameName)
      · intro name index routed single
        have isSingle := depicts.isSingle_of_route? found role routed single
        exact unambiguous.count_name_le_one spelled length named isSingle

/-- The root stands for the choice of a document element unless there is only
one. -/
theorem exists_choice
    (depicts : graph.Depicts components same roots roles root)
    {declaration : ElementDecl} (declared : declaration ∈ roots)
    (several : roots ≠ [declaration]) :
    ∃ choice, graph.record? root = some choice ∧
      roles root = .document roots := by
  have forRoots := depicts.forRoots
  unfold IsForRoots at forRoots
  split at forRoots
  · next only =>
      rw [List.mem_singleton.1 declared] at several
      exact absurd rfl several
  · exact forRoots

theorem documentRecord?_eq_none
    (depicts : graph.Depicts components same roots roles root) {type : TypeRef}
    (represents : graph.Represents same roles type id) :
    graph.documentRecord? id = none := by
  cases type with
  | simple datatype =>
      have found : graph.node? id = some
          (.primitive datatype.primitive.1 datatype.primitive.2) := represents
      rw [documentRecord?, record?, found]
      rfl
  | complex number =>
      obtain ⟨record, other, found, role, _⟩ := represents
      have source := (depicts.follows id record found).source
      rw [role] at source
      rw [documentRecord?, found, Option.filter_some, source]
      rfl

/-- The choice of a document element has an optional field for each root. -/
theorem exists_field_of_root
    (depicts : graph.Depicts components same roots roles root) {choice : Record}
    (found : graph.record? root = some choice)
    (role : roles root = .document roots) {declaration : ElementDecl}
    (declared : declaration ∈ roots)
    (agreed : ∀ other ∈ roots, other.name = declaration.name →
      other.type = declaration.type) :
    ∃ index field inner, choice.elementField? declaration.name = some index ∧
      choice.fields[index]? = some field ∧
      graph.node? field.node = some (.optional inner) ∧
      graph.Represents same roles declaration.type inner := by
  have follows := depicts.follows root choice found
  have belongs : .ofElement false true declaration ∈
      components.rolePlan (roles root) := by
    rw [role]
    exact List.mem_map_of_mem declared
  obtain ⟨index, first⟩ := follows.exists_origin belongs
  obtain ⟨field, listed, origin⟩ := Record.exists_field_of_findIdx? first
  obtain ⟨plan, planned, keeps⟩ := follows.exists_plan listed
  have planned := Components.mem_rolePlan_of_mem_plan
    (List.mem_of_getElem? planned)
  rw [role] at planned
  obtain ⟨other, isRoot, rfl⟩ := List.mem_map.1 planned
  have sameName : other.name = declaration.name := by
    have together := keeps.1.symm.trans origin
    simpa [FieldPlan.ofElement] using together
  obtain ⟨inner, optional, represents⟩ := keeps.2
  rw [agreed other isRoot sameName] at represents
  exact ⟨index, field, inner, first, listed, optional, represents⟩

/-- A document element becomes a value of the root if it becomes one of each node
for its type. -/
theorem exists_transcodeRoot
    (depicts : graph.Depicts components same roots roles root)
    (lowered : graph.Lowered allowed root) {declaration : ElementDecl}
    (declared : declaration ∈ roots)
    (agreed : ∀ other ∈ roots, other.name = declaration.name →
      other.type = declaration.type) {settings : Settings} {element : Element}
    (named : roots = [declaration] ∨ element.name = declaration.name)
    (converts : ∀ node, graph.Represents same roles declaration.type node →
      ∃ value, graph.convert settings.zone node element = .ok value)
    (fits : element.depth ≤ settings.maxDepth) :
    ∃ value, graph.transcodeRoot settings root element = .ok value := by
  have checked := checkDepth_of_fits fits
  by_cases single : roots = [declaration]
  · subst single
    have represents : graph.Represents same roles declaration.type root :=
      depicts.forRoots
    obtain ⟨value, converted⟩ := converts root represents
    refine ⟨value, Outcome.bind_eq_ok.2 ⟨(), checked, ?_⟩⟩
    rw [depicts.documentRecord?_eq_none represents]
    exact converted
  · have sameName := named.resolve_left single
    obtain ⟨choice, found, role⟩ := depicts.exists_choice declared single
    have isChoice : graph.documentRecord? root = some choice := by
      rw [documentRecord?, found, Option.filter_some,
        (depicts.follows root choice found).source, role]
      rfl
    obtain ⟨index, field, inner, first, listed, optional, represents⟩ :=
      depicts.exists_field_of_root found role declared agreed
    obtain ⟨value, converted⟩ := converts inner represents
    rw [← lowered.convert_optional optional] at converted
    have selected : documentField choice element.name =
        .ok (index, field.node) := by
      rw [documentField, sameName, first]
      dsimp only
      rw [listed]
    refine ⟨.record (Slots.put (choice.fields.map fun _ => none) index value),
      Outcome.bind_eq_ok.2 ⟨(), checked, ?_⟩⟩
    rw [isChoice]
    exact Outcome.bind_eq_ok.2 ⟨(index, field.node), selected,
      Outcome.bind_eq_ok.2 ⟨value, converted, rfl⟩⟩

end Depicts

/-- A valid document whose labels are unambiguous is accepted. -/
theorem exists_value_of_valid {components : Components}
    (distinct : components.NamesDistinct) {wanted : Option String}
    {graph : Graph} (built : ofComponents components wanted = .ok graph)
    {roots : List ElementDecl}
    (chosen : Lowering.chosenRoots components wanted = .ok roots)
    {declaration : ElementDecl} (declared : declaration ∈ roots)
    (agreed : ∀ other ∈ roots, other.name = declaration.name →
      other.type = declaration.type) {settings : Settings} {element : Element}
    (named : roots = [declaration] ∨ element.name = declaration.name)
    (valid : components.Valid settings.zone ComplexType.Unambiguous
      declaration.type element) (fits : element.depth ≤ settings.maxDepth) :
    ∃ value, graph.transcodeDocument settings element = .ok value := by
  obtain ⟨root, lowered⟩ := exists_lowered_ofComponents built
  obtain ⟨roots', roles, root', chosen', depicts⟩ :=
    exists_depicts_of_ofComponents (Lowering.identifies_eq distinct) built
  cases chosen.symm.trans chosen'
  cases lowered.rooted.symm.trans depicts.rooted
  rw [transcodeDocument, rootNode, depicts.rooted]
  exact depicts.exists_transcodeRoot lowered declared agreed named
    (depicts.exists_convert_of_valid lowered valid) fits

end Graph

/-- The declaration of an element of text. -/
def textDecl (name : String) : ElementDecl := ⟨⟨name, none⟩, .simple .string⟩

/-- A root for rows of a type. -/
def rowRoot (number : Nat) : ElementDecl := ⟨⟨"row", none⟩, .complex number⟩

/-- A row of empty elements. -/
def rowOf (names : List String) : Element :=
  ⟨⟨"row", none⟩, [], names.map fun name => .element ⟨name, none⟩ [] []⟩

theorem children_rowOf (names : List String) :
    (rowOf names).children = names.map fun name => ⟨⟨name, none⟩, [], []⟩ := by
  induction names with
  | nil => rfl
  | cons name rest ih => exact congrArg (⟨⟨name, none⟩, [], []⟩ :: ·) ih

/-- A row is valid if its names spell a word of the content. -/
theorem valid_rowOf {components : Components} {zone : Zone}
    {rule : ComplexType → List Element → List Label → Prop} {number : Nat}
    {type : ComplexType} {names : List String} {labels : List Label}
    (known : components.types[number]? = some type)
    (plain : type.simpleContent = none) (spelled : type.Spells labels)
    (matched : List.Forall₂ (fun name label =>
      ∀ declaration ∈ label, declaration = textDecl name) names labels)
    (ruled : rule type (rowOf names).children labels) :
    components.Valid zone rule (.complex number) (rowOf names) := by
  have together : List.Forall₂ (fun (child : Element) (label : Label) =>
      ∀ declaration ∈ label, child.name = declaration.name ∧
        components.Valid zone rule declaration.type child)
      (rowOf names).children labels := by
    rw [children_rowOf, List.forall₂_map_left_iff]
    refine matched.imp fun name label isText declaration listed => ?_
    rw [isText declaration listed]
    exact ⟨rfl, .simple rfl ⟨_, rfl⟩⟩
  refine .complex known spelled together.length_eq ?_ ?_ (by simp [rowOf])
    (by simp [plain]) ruled
  · intro child declaration paired
    exact (List.forall₂_zip together paired declaration rfl).1
  · intro child declaration paired
    exact (List.forall₂_zip together paired declaration rfl).2

/-- Rows of one `a`, of any number of both `a` and `b`, and of anything else. -/
def rowType : ComplexType where
  content := some (.group .once .sequence [.element .once (textDecl "a"),
    .group ⟨0, none⟩ .choice
      [.element .once (textDecl "a"), .element .once (textDecl "b")],
    .wildcard ⟨0, none⟩])

/-- The components of rows. -/
def rowComponents : Components where
  roots := [rowRoot 0]
  types := #[rowType]

/-- The graph of rows. -/
def rowGraph : Graph where
  nodes := #[
    .record ⟨some ⟨"type0", none⟩, .type,
      [⟨"a", .element ⟨"a", none⟩, 1⟩, ⟨"group", .group, 5⟩,
        ⟨"others", .elementWildcard, 6⟩], some 2, none, none⟩,
    .primitive .string none,
    .record ⟨some ⟨"group0", none⟩, .group .choice,
      [⟨"a", .element ⟨"a", none⟩, 3⟩, ⟨"b", .element ⟨"b", none⟩, 4⟩],
      none, none, none⟩,
    .optional 1, .optional 1, .array 2, .map 1]
  root := some 0

/-- A row in which `a` comes up once, although it is declared twice. -/
theorem exists_value_of_row :
    rowComponents.Valid .utc ComplexType.Unambiguous (.complex 0)
      (rowOf ["a", "b", "b", "c"]) ∧
    ∃ value, rowGraph.transcodeDocument {} (rowOf ["a", "b", "b", "c"]) =
      .ok value := by
  have built : Graph.ofComponents rowComponents none = .ok rowGraph := by
    rfl
  have spelled : rowType.Spells
      [some (textDecl "a"), some (textDecl "b"), some (textDecl "b"), none] := by
    have rounds : (Particle.group ⟨0, none⟩ .choice
        [.element .once (textDecl "a"), .element .once (textDecl "b")]).Spells
          [some (textDecl "b"), some (textDecl "b")] :=
      ⟨[[some (textDecl "b")], [some (textDecl "b")]], rfl, by decide, by simp,
        by simpa using .inr (.inl (.once rfl))⟩
    exact .once ⟨[_], [_, _, _], .once rfl, ⟨[_, _], [_], rounds,
      ⟨[_], [], ⟨[[none]], rfl, by decide, by simp, by simp⟩,
        ⟨by simp, rfl⟩, rfl⟩, rfl⟩, rfl⟩
  have unambiguous : rowType.Unambiguous
      (rowOf ["a", "b", "b", "c"]).children
      [some (textDecl "a"), some (textDecl "b"), some (textDecl "b"), none] := by
    refine ⟨?_, ?_, ?_⟩
    · intro declaration listed other declared _
      have texts : ∀ other ∈ rowType.declarations, other.type = .simple .string := by
        decide
      rw [texts other declared, texts declaration
        (ComplexType.mem_declarations_of_spells spelled listed)]
    · intro child paired
      rw [children_rowOf] at paired
      simp only [List.map_cons, List.map_nil, List.zip_cons_cons,
        List.zip_nil_right, List.mem_cons, Prod.mk.injEq, reduceCtorEq, and_false,
        false_or, and_true, List.not_mem_nil, or_false] at paired
      subst paired
      decide
    · intro name single
      by_cases first : name = ⟨"a", none⟩
      · subst first
        exact .inr (by decide)
      · have plan : rowType.plan = [.ofElement false false (textDecl "a"),
            .ofGroup .choice [.element .once (textDecl "a"),
              .element .once (textDecl "b")],
            .ofWildcard .elementWildcard] := rfl
        rw [ComplexType.isSingle, plan] at single
        simp [FieldPlan.ofElement, FieldPlan.ofGroup, FieldPlan.ofWildcard,
          textDecl, Ne.symm first] at single
  have valid : rowComponents.Valid .utc ComplexType.Unambiguous (.complex 0)
      (rowOf ["a", "b", "b", "c"]) :=
    valid_rowOf rfl rfl spelled (by simp) unambiguous
  exact ⟨valid, Graph.exists_value_of_valid (by decide) built rfl
    List.mem_cons_self (by decide) (.inl rfl) valid (by decide)⟩

/-- A document that is valid for a root is refused. -/
def Components.Refuses (components : Components) (element : Element) : Prop :=
  ∃ root ∈ components.roots, root.name = element.name ∧
    components.Valid .utc (fun _ _ _ => True) root.type element ∧
    element.depth ≤ ({} : Settings).maxDepth ∧
    ∃ graph fault, Graph.ofComponents components none = .ok graph ∧
      graph.transcodeDocument {} element = .error fault

/-- Rows of some particles, one after the other. -/
def rowsOf (particles : List Particle) : Components where
  roots := [rowRoot 0]
  types := #[{ content := some (.group .once .sequence particles) }]

/-- Valid rows are refused: where a name is declared behind its first declaration
again, where a wildcard matches a declared name, where two declarations of a name
differ in their types, and where two roots or two types have one name. -/
theorem refuses_ambiguous_rows :
    (rowsOf [.element .once (textDecl "a"), .element .once (textDecl "b"),
      .element .once (textDecl "a")]).Refuses (rowOf ["a", "b", "a"]) ∧
    (rowsOf [.element .once (textDecl "a"), .wildcard .once]).Refuses
      (rowOf ["a", "a"]) ∧
    (rowsOf [.group .once .choice
      [.element .once ⟨⟨"a", none⟩, .simple .int⟩,
        .element .once (textDecl "a")]]).Refuses (rowOf ["a"]) ∧
    ({ roots := [rowRoot 0, rowRoot 1]
       types := #[{ content := some (.element .once (textDecl "a")) },
        { content := some (.element .once (textDecl "b")) }] } :
      Components).Refuses (rowOf ["b"]) ∧
    ({ roots := [⟨⟨"first", none⟩, .complex 0⟩, rowRoot 1]
       types := #[
        { name := some ⟨"t", none⟩
          content := some (.element .once (textDecl "a")) },
        { name := some ⟨"t", none⟩
          content := some (.element .once (textDecl "b")) }] } :
      Components).Refuses (rowOf ["b"]) := by
  refine ⟨?_, ?_, ?_, ?_, ?_⟩
  · refine ⟨_, List.mem_cons_self, rfl, ?_, by decide, _, _, rfl, rfl⟩
    have spelled : (Particle.group .once .sequence
        [.element .once (textDecl "a"), .element .once (textDecl "b"),
          .element .once (textDecl "a")]).Spells
        [some (textDecl "a"), some (textDecl "b"), some (textDecl "a")] :=
      .once ⟨[_], [_, _], .once rfl, ⟨[_], [_], .once rfl,
        ⟨[_], [], .once rfl, ⟨by simp, rfl⟩, rfl⟩, rfl⟩, rfl⟩
    exact valid_rowOf rfl rfl spelled (by simp) trivial
  · refine ⟨_, List.mem_cons_self, rfl, ?_, by decide, _, _, rfl, rfl⟩
    have spelled : (Particle.group .once .sequence
        [.element .once (textDecl "a"), .wildcard .once]).Spells
        [some (textDecl "a"), none] :=
      .once ⟨[_], [_], .once rfl,
        ⟨[_], [], .once rfl, ⟨by simp, rfl⟩, rfl⟩, rfl⟩
    exact valid_rowOf rfl rfl spelled (by simp) trivial
  · refine ⟨_, List.mem_cons_self, rfl, ?_, by decide, _, _, rfl, rfl⟩
    have spelled : (Particle.group .once .sequence [.group .once .choice
        [.element .once ⟨⟨"a", none⟩, .simple .int⟩,
          .element .once (textDecl "a")]]).Spells [some (textDecl "a")] :=
      .once ⟨[_], [], .once (.inr (.inl (.once rfl))), ⟨by simp, rfl⟩, rfl⟩
    exact valid_rowOf rfl rfl spelled (by simp) trivial
  · refine ⟨_, List.mem_cons_of_mem _ List.mem_cons_self, rfl, ?_, by decide, _,
      _, rfl, rfl⟩
    have spelled : (Particle.element .once (textDecl "b")).Spells
        [some (textDecl "b")] := .once rfl
    exact valid_rowOf rfl rfl spelled (by simp) trivial
  · refine ⟨_, List.mem_cons_of_mem _ List.mem_cons_self, rfl, ?_, by decide, _,
      _, rfl, rfl⟩
    have spelled : (Particle.element .once (textDecl "b")).Spells
        [some (textDecl "b")] := .once rfl
    exact valid_rowOf rfl rfl spelled (by simp) trivial

end XmlRecords
