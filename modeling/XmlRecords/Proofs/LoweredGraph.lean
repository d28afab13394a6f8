import XmlRecords.Proofs.Lowering

/-!
# Graphs from components

The invariant of lowering goes through particles by recursion on them, and
through types by the number of types that may still be entered.  The graph that
is left in the end fits as a whole.
-/

namespace XmlRecords

namespace Lowering

variable {allowed : QName → Prop}

/-- A way to make nodes of types that keeps the invariant. -/
def Enters (allowed : QName → Prop) (enter : TypeRef → Build Nat) : Prop :=
  ∀ type b pending id c, b.Sound allowed pending →
    (enter type).run b = .ok (id, c) →
      Entered allowed b pending Graph.IsBase id c

/-- What an element becomes by the number of its occurrences. -/
theorem entered_occurrence (owner : Nat) (name : QName) {b c : Builder}
    {pending : List Nat} {node id : Nat} {repeated optional : Bool}
    (ended : (occurrenceNode repeated optional node).run b = .ok (id, c))
    (sound : b.Sound allowed (node :: pending)) (base : b.graph.IsBase node) :
    Entered allowed b pending
      (fun graph id => graph.Holds owner (.element name) id) id c := by
  rw [occurrenceNode] at ended
  cases repeated with
  | true =>
      obtain ⟨sound, growth, found⟩ :=
        entered_wrapper ended sound rfl (.inl base)
      exact ⟨sound, growth, .inr ⟨node, growth.isBase base, .inl found⟩⟩
  | false =>
      cases optional with
      | true =>
          obtain ⟨sound, growth, found⟩ := entered_optional ended sound base
          exact ⟨sound, growth, .inr ⟨node, growth.isBase base, .inr found⟩⟩
      | false =>
          obtain ⟨rfl, rfl⟩ := Run.pure_eq_ok.1 ended
          exact ⟨sound, .refl _, .inl base⟩

/-- What a repeated group becomes, where `fill` makes the fields of its
rounds. -/
theorem entered_group {owner : Nat} {b c : Builder} {pending : List Nat}
    {id : Nat} {compositor : Compositor} {fill : Build Fields}
    (ended : (groupNode compositor fill).run b = .ok (id, c))
    (fills : ∀ item b c inner, b.Sound allowed pending →
      item < b.graph.nodes.size → fill.run b = .ok (inner, c) →
        Filling allowed c item pending inner ∧ b.graph.Extends c.graph)
    (sound : b.Sound allowed pending) (inside : owner < b.graph.nodes.size) :
    Entered allowed b pending
      (fun graph id => graph.Holds owner .group id) id c := by
  obtain ⟨name, b₁, naming, ended⟩ := Run.bind_eq_ok.1 ended
  obtain ⟨item, b₂, adding, ended⟩ := Run.bind_eq_ok.1 ended
  obtain ⟨inner, b₃, filling, ended⟩ := Run.bind_eq_ok.1 ended
  obtain ⟨_, b₄, setting, wrapping⟩ := Run.bind_eq_ok.1 ended
  cases naming
  cases setting
  have behind : owner < item := (addNode_eq_ok.1 adding).1 ▸ inside
  obtain ⟨sound₂, growth₂, empty⟩ :=
    entered_record adding (sound.congr rfl rfl rfl rfl) (by simp)
  have present := Graph.lt_size_of_node? (Graph.record?_eq_some_iff.1 empty)
  obtain ⟨filled, growth₃⟩ := fills item _ _ _
    (sound₂.mono fun _ => List.count_le_count_cons) present filling
  have growth₄ := growth₃.trans
    (Graph.Extends.setFields b₃.graph item inner.fields)
  have round := growth₄.isRound ⟨_, compositor, empty, rfl⟩
  obtain ⟨node, found, plain⟩ := round.exists_node
  obtain ⟨sound₅, growth₅, array⟩ :=
    entered_wrapper wrapping (filled.finish.visit found plain) rfl (.inr round)
  exact ⟨sound₅, (growth₂.trans growth₄).trans growth₅,
    item, array, growth₅.isRound round, behind⟩

mutual

/-- The fields of a particle are those of the record around it. -/
theorem filling_flatten {enter : TypeRef → Build Nat}
    (enters : Enters allowed enter) (optional : Bool) (owner : Nat)
    (particle : Particle) (names : ∀ name ∈ particle.names, allowed name)
    {b c : Builder} {pending : List Nat} {all more : Fields}
    (filling : Filling allowed b owner pending all)
    (inside : owner < b.graph.nodes.size)
    (ended : (flatten enter optional all particle).run b = .ok (more, c)) :
    Filling allowed c owner pending more ∧ b.graph.Extends c.graph := by
  cases particle with
  | element occurs declaration =>
      rw [flatten] at ended
      split at ended
      · obtain ⟨rfl, rfl⟩ := Run.pure_eq_ok.1 ended
        exact ⟨filling, .refl _⟩
      · obtain ⟨node, between, entering, ended⟩ := Run.bind_eq_ok.1 ended
        have entered := enters _ _ _ _ _ filling.sound entering
        obtain ⟨id, last, occurring, ended⟩ := Run.bind_eq_ok.1 ended
        obtain ⟨rfl, rfl⟩ := Run.pure_eq_ok.1 ended
        have occurred := entered_occurrence owner declaration.name occurring
          entered.sound entered.kind
        have growth := entered.growth.trans occurred.growth
        refine ⟨filling.push _ ⟨occurred.sound, growth, occurred.kind⟩ ?_,
          growth⟩
        intro name same
        cases same
        exact names _ (List.mem_singleton.2 rfl)
  | group occurs compositor particles =>
      rw [flatten] at ended
      split at ended
      · obtain ⟨rfl, rfl⟩ := Run.pure_eq_ok.1 ended
        exact ⟨filling, .refl _⟩
      · split at ended
        · obtain ⟨id, last, grouping, ended⟩ := Run.bind_eq_ok.1 ended
          obtain ⟨rfl, rfl⟩ := Run.pure_eq_ok.1 ended
          have entered := entered_group grouping
            (fun item b c inner sound inside flattening =>
              filling_flattenAll enters _ item particles names
                (.start item sound) inside flattening)
            filling.sound inside
          exact ⟨filling.push _ entered (by simp [Origin.name?]),
            entered.growth⟩
        · exact filling_flattenAll enters _ owner particles names filling
            inside ended
  | wildcard occurs =>
      rw [flatten] at ended
      split at ended
      · obtain ⟨rfl, rfl⟩ := Run.pure_eq_ok.1 ended
        exact ⟨filling, .refl _⟩
      · obtain ⟨node, between, mapping, ended⟩ := Run.bind_eq_ok.1 ended
        obtain ⟨rfl, rfl⟩ := Run.pure_eq_ok.1 ended
        have entered := entered_map mapping filling.sound
        exact ⟨filling.push _ ⟨entered.sound, entered.growth, entered.kind⟩
          (by simp [Origin.name?]), entered.growth⟩
  | unsupported occurs tag =>
      rw [flatten] at ended
      split at ended
      · obtain ⟨rfl, rfl⟩ := Run.pure_eq_ok.1 ended
        exact ⟨filling, .refl _⟩
      · exact absurd ended Run.throw_ne_ok

/-- The fields of several particles are those of the record around them. -/
theorem filling_flattenAll {enter : TypeRef → Build Nat}
    (enters : Enters allowed enter) (optional : Bool) (owner : Nat)
    (particles : List Particle)
    (names : ∀ name ∈ Particle.namesOfList particles, allowed name)
    {b c : Builder} {pending : List Nat} {all more : Fields}
    (filling : Filling allowed b owner pending all)
    (inside : owner < b.graph.nodes.size)
    (ended : (flattenAll enter optional all particles).run b = .ok (more, c)) :
    Filling allowed c owner pending more ∧ b.graph.Extends c.graph := by
  cases particles with
  | nil =>
      rw [flattenAll] at ended
      obtain ⟨rfl, rfl⟩ := Run.pure_eq_ok.1 ended
      exact ⟨filling, .refl _⟩
  | cons particle rest =>
      rw [flattenAll] at ended
      obtain ⟨fields, between, first, ended⟩ := Run.bind_eq_ok.1 ended
      rw [Particle.namesOfList] at names
      obtain ⟨filling, growth⟩ := filling_flatten enters optional owner
        particle (fun name member => names name (List.mem_append_left _ member))
        filling inside first
      obtain ⟨filling, growth'⟩ := filling_flattenAll enters optional owner
        rest (fun name member => names name (List.mem_append_right _ member))
        filling (Nat.lt_of_lt_of_le inside growth.size_le) ended
      exact ⟨filling, growth.trans growth'⟩

end

theorem entered_attribute (owner : Nat) {a : AttributeUse} {b c : Builder}
    {pending : List Nat} {id : Nat}
    (ended : (attributeNode a).run b = .ok (id, c))
    (sound : b.Sound allowed pending) :
    Entered allowed b pending
      (fun graph id => graph.Holds owner (.attribute a.name) id) id c := by
  obtain ⟨node, between, entering, ended⟩ := Run.bind_eq_ok.1 ended
  obtain ⟨sound, growth, primitive⟩ := entered_datatype entering sound
  split at ended
  · obtain ⟨rfl, rfl⟩ := Run.pure_eq_ok.1 ended
    exact ⟨sound, growth, .inl primitive⟩
  · obtain ⟨sound, growth', found⟩ :=
      entered_optional ended sound (.inl primitive)
    exact ⟨sound, growth.trans growth',
      .inr ⟨node, growth'.isPrimitive primitive, found⟩⟩

/-- The fields of attributes are those of the record that they are added to. -/
theorem filling_addAttributes {owner : Nat} {b c : Builder}
    {pending : List Nat} {all more : Fields} (attributes : List AttributeUse)
    (names : ∀ a ∈ attributes, allowed a.name)
    (filling : Filling allowed b owner pending all)
    (ended : (addAttributes all attributes).run b = .ok (more, c)) :
    Filling allowed c owner pending more ∧ b.graph.Extends c.graph := by
  induction attributes generalizing b all with
  | nil =>
      obtain ⟨rfl, rfl⟩ := Run.pure_eq_ok.1 ended
      exact ⟨filling, .refl _⟩
  | cons a rest ih =>
      obtain ⟨id, between, entering, ended⟩ := Run.bind_eq_ok.1 ended
      have entered := entered_attribute owner entering filling.sound
      have allowedName : ∀ name ∈ (Origin.attribute a.name).name?,
          allowed name := by
        intro name same
        cases same
        exact names a List.mem_cons_self
      obtain ⟨filled, growth⟩ := ih
        (fun a member => names a (List.mem_cons_of_mem _ member))
        (filling.push a.name.name entered allowedName) ended
      exact ⟨filled, entered.growth.trans growth⟩

/-- The fields of a type are those of its record. -/
theorem filling_typeFields {enter : TypeRef → Build Nat}
    (enters : Enters allowed enter) {type : ComplexType} {owner : Nat}
    {b c : Builder} {pending : List Nat} {all : Fields}
    (names : ∀ name ∈ type.names, allowed name)
    (sound : b.Sound allowed pending) (inside : owner < b.graph.nodes.size)
    (ended : (typeFields enter type).run b = .ok (all, c)) :
    Filling allowed c owner pending all ∧ b.graph.Extends c.graph := by
  obtain ⟨text, b₁, texting, ended⟩ := Run.bind_eq_ok.1 ended
  obtain ⟨content, b₂, filling, ended⟩ := Run.bind_eq_ok.1 ended
  obtain ⟨attributes, b₃, adding, ended⟩ := Run.bind_eq_ok.1 ended
  have first : Filling allowed b₁ owner pending text ∧
      b.graph.Extends b₁.graph := by
    rw [textFields] at texting
    split at texting
    · obtain ⟨rfl, rfl⟩ := Run.pure_eq_ok.1 texting
      exact ⟨.start owner sound, .refl _⟩
    · obtain ⟨id, between, entering, texting⟩ := Run.bind_eq_ok.1 texting
      obtain ⟨rfl, rfl⟩ := Run.pure_eq_ok.1 texting
      have entered := entered_datatype entering sound
      have filled := Filling.start owner sound
      exact ⟨filled.push textField
        ⟨entered.sound, entered.growth, entered.kind⟩ (by simp [Origin.name?]),
        entered.growth⟩
  have second : Filling allowed b₂ owner pending content ∧
      b₁.graph.Extends b₂.graph := by
    rw [addContent] at filling
    split at filling
    · obtain ⟨rfl, rfl⟩ := Run.pure_eq_ok.1 filling
      exact ⟨first.1, .refl _⟩
    · next particle same =>
        apply filling_flatten enters false owner particle _ first.1
          (Nat.lt_of_lt_of_le inside first.2.size_le) filling
        intro name member
        apply names name
        rw [ComplexType.names, same]
        exact List.mem_append_left _ member
  have third := filling_addAttributes type.attributes
    (fun a member => names a.name (List.mem_append_right _
      (List.mem_map_of_mem member))) second.1 adding
  have growth := (first.2.trans second.2).trans third.2
  rw [addAttributeWildcard] at ended
  split at ended
  · obtain ⟨id, between, mapping, ended⟩ := Run.bind_eq_ok.1 ended
    obtain ⟨rfl, rfl⟩ := Run.pure_eq_ok.1 ended
    have entered := entered_map mapping third.1.sound
    exact ⟨third.1.push wildcardField
      ⟨entered.sound, entered.growth, entered.kind⟩ (by simp [Origin.name?]),
      growth.trans entered.growth⟩
  · obtain ⟨rfl, rfl⟩ := Run.pure_eq_ok.1 ended
    exact ⟨third.1, growth⟩

/-- Looking up what is left of a table finds what was there. -/
theorem lookup_of_lookup_filter {table : List (Nat × Nat)} {key id value : Nat}
    (found : (table.filter (·.1 != key)).lookup id = some value) :
    table.lookup id = some value := by
  induction table with
  | nil => simp at found
  | cons entry rest ih =>
      obtain ⟨first, second⟩ := entry
      by_cases dropped : first = key
      · subst dropped
        rw [List.filter_cons_of_neg (by simp)] at found
        have differs : id ≠ first := by
          rintro rfl
          have absent : (rest.filter (·.1 != id)).lookup id = none := by
            rw [List.lookup_eq_none_iff]
            intro entry member
            have kept := (List.mem_filter.1 member).2
            rwa [bne_comm] at kept
          rw [absent] at found
          cases found
        rw [List.lookup_cons, beq_false_of_ne differs]
        exact ih found
      · rw [List.filter_cons_of_pos (by simpa using dropped),
          List.lookup_cons] at found
        rw [List.lookup_cons]
        split at found
        · exact found
        · exact ih found

theorem Builder.Sound.isType_of_openRecord? {type : ComplexType} {b : Builder}
    {pending : List Nat} {id node : Nat} (sound : b.Sound allowed pending)
    (opened : openRecord? b id type = some node) : b.graph.IsType node := by
  rw [openRecord?] at opened
  split at opened
  · exact sound.named _ _ opened
  · exact sound.anonymous _ _ opened

/-- The record of a type is noted when it is added. -/
theorem entered_beginType {type : ComplexType} {b c : Builder}
    {pending : List Nat} {id node : Nat}
    (ended : (beginType id type).run b = .ok (node, c))
    (sound : b.Sound allowed pending) :
    Entered allowed b pending Graph.IsType node c := by
  have adding : ∀ {b : Builder} {name : QName},
      (addNode (.record (.empty (some name) .type))).run b = _ :=
    fun {_ _} => rfl
  cases isNamed : type.name with
  | some name =>
      cases (run_beginType_of_name isNamed b id).symm.trans ended
      obtain ⟨sound, growth, found⟩ := entered_record adding sound (by simp)
      exact ⟨{ sound with named := sound.named.cons ⟨_, found, rfl⟩ }, growth,
        _, found, rfl⟩
  | none =>
      cases (run_beginType_of_unnamed isNamed b id).symm.trans ended
      obtain ⟨sound, growth, found⟩ := entered_record (b := { b with
        nextType := b.nextType + 1 }) adding (sound.congr rfl rfl rfl rfl)
        (by simp)
      exact ⟨{ sound with anonymous := sound.anonymous.cons ⟨_, found, rfl⟩ },
        growth, _, found, rfl⟩

theorem sound_closeType {type : ComplexType} {b c : Builder}
    {pending : List Nat} {id : Nat} {u : Unit}
    (ended : (closeType id type).run b = .ok (u, c))
    (sound : b.Sound allowed pending) :
    c.Sound allowed pending ∧ c.graph = b.graph := by
  rw [closeType] at ended
  split at ended
  · cases ended
    refine ⟨{ sound with anonymous := ?_ }, rfl⟩
    intro other node known
    exact sound.anonymous other node (lookup_of_lookup_filter known)
  · cases ended
    exact ⟨sound, rfl⟩

theorem names_type_subset (components : Components) (id : Nat) :
    (components.types[id]?.getD {}).names ⊆ components.names := by
  intro name member
  cases found : components.types[id]? with
  | none =>
      rw [found] at member
      simp [ComplexType.names] at member
  | some type =>
      rw [found] at member
      apply List.mem_append_right
      rw [List.mem_flatMap]
      exact ⟨type, Array.mem_toList_iff.2 (Array.mem_of_getElem? found), member⟩

/-- Types are entered by induction on how many more may be. -/
theorem enters_typeNode {components : Components}
    (names : ∀ name ∈ components.names, allowed name) (fuel : Nat) :
    Enters allowed (typeNode components fuel) := by
  induction fuel with
  | zero =>
      intro ref b pending node c sound ended
      cases ref with
      | simple datatype =>
          rw [typeNode] at ended
          obtain ⟨sound, growth, primitive⟩ := entered_datatype ended sound
          exact ⟨sound, growth, .inl primitive⟩
      | complex id =>
          rw [typeNode] at ended
          exact absurd ended Run.throw_ne_ok
  | succ fuel ih =>
      intro ref b pending node c sound ended
      cases ref with
      | simple datatype =>
          rw [typeNode] at ended
          obtain ⟨sound, growth, primitive⟩ := entered_datatype ended sound
          exact ⟨sound, growth, .inl primitive⟩
      | complex id =>
          have typeNames : ∀ name ∈ (components.types[id]?.getD {}).names,
              allowed name :=
            fun name member =>
              names name (names_type_subset components id member)
          rw [typeNode] at ended
          generalize components.types[id]?.getD {} = type at ended typeNames
          rw [Run.get_bind] at ended
          split at ended
          · next known opened =>
              obtain ⟨rfl, rfl⟩ := Run.pure_eq_ok.1 ended
              have isType := sound.isType_of_openRecord? opened
              obtain ⟨r, found, source⟩ := isType
              exact ⟨sound.visit (Graph.record?_eq_some_iff.1 found) rfl,
                .refl _, .inr ⟨r, found, source⟩⟩
          · obtain ⟨record, b₁, beginning, ended⟩ := Run.bind_eq_ok.1 ended
            obtain ⟨all, b₂, filling, ended⟩ := Run.bind_eq_ok.1 ended
            obtain ⟨_, b₃, closing, ended⟩ := Run.bind_eq_ok.1 ended
            rw [setFields, Run.modify_bind] at ended
            obtain ⟨rfl, rfl⟩ := Run.pure_eq_ok.1 ended
            obtain ⟨sound₁, growth₁, begun⟩ := entered_beginType beginning sound
            have inside := (begun : b₁.graph.IsType _).lt_size
            obtain ⟨filled, growth₂⟩ := filling_typeFields ih typeNames
              (sound₁.mono fun _ => List.count_le_count_cons) inside filling
            obtain ⟨sound₃, same⟩ := sound_closeType closing filled.sound
            have closed : Filling allowed b₃ node pending all :=
              ⟨sound₃, filled.made, filled.names, same ▸ filled.holds⟩
            have growth₃ : b₂.graph.Extends
                (b₃.graph.setFields node all.fields) :=
              same ▸ Graph.Extends.setFields b₂.graph node all.fields
            have isType := (growth₂.trans growth₃).isType begun
            obtain ⟨r, found, source⟩ := isType
            exact ⟨closed.finish.visit (Graph.record?_eq_some_iff.1 found) rfl,
              growth₁.trans (growth₂.trans growth₃), .inr ⟨r, found, source⟩⟩

/-- The fields of a record for the choice of a document element, all of which are
optional. -/
theorem filling_documentFields {components : Components}
    (names : ∀ name ∈ components.names, allowed name) (owner : Nat)
    (roots : List ElementDecl) (rootNames : ∀ root ∈ roots, allowed root.name)
    {b c : Builder} {all more : Fields}
    (filling : Filling allowed b owner [] all)
    (choices : ∀ field ∈ all.fields, b.graph.IsOptional field.node)
    (ended : (documentFields components all roots).run b = .ok (more, c)) :
    Filling allowed c owner [] more ∧
      ∀ field ∈ more.fields, c.graph.IsOptional field.node := by
  induction roots generalizing b all with
  | nil =>
      obtain ⟨rfl, rfl⟩ := Run.pure_eq_ok.1 ended
      exact ⟨filling, choices⟩
  | cons root rest ih =>
      obtain ⟨inner, b₁, entering, ended⟩ := Run.bind_eq_ok.1 ended
      obtain ⟨node, b₂, wrapping, ended⟩ := Run.bind_eq_ok.1 ended
      obtain ⟨sound₁, growth₁, base⟩ :=
        enters_typeNode names _ _ _ _ _ _ filling.sound entering
      obtain ⟨sound₂, growth₂, found⟩ := entered_optional wrapping sound₁ base
      have holds : b₂.graph.Holds owner (.element root.name) node :=
        .inr ⟨inner, growth₂.isBase base, .inr found⟩
      have allowedName : ∀ name ∈ (Origin.element root.name).name?,
          allowed name := by
        intro name same
        cases same
        exact rootNames root List.mem_cons_self
      have pushed := filling.push root.name.name
        ⟨sound₂, growth₁.trans growth₂, holds⟩ allowedName
      refine ih (fun root member => rootNames root
        (List.mem_cons_of_mem _ member)) pushed ?_ ended
      intro field member
      rcases all.push_fields root.name.name (.element root.name) node with
        same | ⟨title, added⟩
      · rw [same] at member
        exact (growth₁.trans growth₂).isOptional (choices field member)
      · rw [added, List.mem_append, List.mem_singleton] at member
        rcases member with member | rfl
        · exact (growth₁.trans growth₂).isOptional (choices field member)
        · exact ⟨inner, found⟩

end Lowering

/-- What is known of a graph that was lowered from components with names that are
allowed. -/
structure Graph.Lowered (allowed : QName → Prop) (graph : Graph) (root : Nat) :
    Prop where
  rooted : graph.root = some root
  linked : graph.Linked [root]
  interned : ∃ table, graph.Interned table
  fits : ∀ id node, graph.node? id = some node →
    Lowering.NodeFits allowed graph id node
  rootKind : graph.IsBase root ∨
    ∃ r, graph.record? root = some r ∧ r.source = .document
  documents : ∀ id r, graph.record? id = some r → r.source = .document →
    id = root
  choices : ∀ r, graph.record? root = some r → r.source = .document →
    ∀ field ∈ r.fields, graph.IsOptional field.node

namespace Lowering

theorem mem_names_of_chosenRoots {components : Components}
    {wanted : Option String} {roots : List ElementDecl}
    (chosen : chosenRoots components wanted = .ok roots) :
    ∀ root ∈ roots, root.name ∈ components.names := by
  have subset : roots ⊆ components.roots := by
    unfold chosenRoots at chosen
    split at chosen
    · cases chosen
    · split at chosen
      · cases chosen
        exact List.Subset.refl _
      · split at chosen
        · next found =>
            cases chosen
            intro root member
            rw [List.mem_singleton.1 member]
            exact List.mem_of_find?_eq_some found
        · cases chosen
  intro root member
  exact List.mem_append_left _ (List.mem_map_of_mem (subset member))

/-- A state that keeps the invariant is known as a whole once its root is a node
of a type. -/
theorem Builder.Sound.lowered {b : Builder} {root : Nat}
    (sound : b.Sound allowed [root]) (base : b.graph.IsBase root) :
    Graph.Lowered allowed { b.graph with root := some root } root where
  rooted := rfl
  linked := { sound.linked with }
  interned := ⟨b.primitives, sound.interned⟩
  fits := fun id node found =>
    (sound.fits id node found).mono (.setRoot b.graph (some root))
  rootKind := .inl base
  documents := fun id r found document =>
    absurd document (sound.sources id r found)
  choices := fun r found document =>
    absurd document (sound.sources root r found)

/-- The record for the choice of a document element is the last node. -/
theorem Filling.lowered {b : Builder} {all : Fields} {name : QName}
    {graph : Graph}
    (filling : Filling allowed b b.graph.nodes.size [] all)
    (choices : ∀ field ∈ all.fields, b.graph.IsOptional field.node)
    (added : graph = (b.graph.add (.record
      ((Record.empty (some name) .document).withFields all.fields))).2) :
    Graph.Lowered allowed { graph with root := some b.graph.nodes.size }
      b.graph.nodes.size := by
  subst added
  have fits : NodeFits allowed b.graph b.graph.nodes.size
      (.record ((Record.empty (some name) .document).withFields all.fields)) :=
    (NodeFits.emptyRecord name .document).withFields filling.made
      filling.names filling.holds
  refine ⟨rfl, ?_, ?_, ?_, ?_, ?_, ?_⟩
  · exact { filling.sound.linked.add with }
  · exact ⟨b.primitives, filling.sound.interned.add_other (by simp)⟩
  · intro id node found
    exact (NodeFits.add filling.sound.fits fits node found).mono
      (.setRoot _ (some b.graph.nodes.size))
  · exact .inr ⟨_, Graph.record?_eq_some_iff.2 (Graph.node?_add_size b.graph _),
      rfl⟩
  · intro id r found document
    by_contra differs
    rw [Graph.record?_eq_some_iff] at found
    have old := (Graph.node?_add b.graph _ id).symm.trans found
    rw [if_neg differs] at old
    exact filling.sound.sources id r (Graph.record?_eq_some_iff.2 old) document
  · intro r found _ field member
    have last := (Graph.node?_add_size b.graph _).symm.trans
      (Graph.record?_eq_some_iff.1 found)
    cases last
    exact (Graph.Extends.add b.graph _).isOptional (choices field member)

/-- The node of all documents. -/
theorem lowered_rootNode {components : Components}
    (names : ∀ name ∈ components.names, allowed name)
    {roots : List ElementDecl} (rootNames : ∀ root ∈ roots, allowed root.name)
    {b : Builder} {root : Nat}
    (ended : (rootNode components roots).run {} = .ok (root, b)) :
    Graph.Lowered allowed { b.graph with root := some root } root := by
  unfold rootNode at ended
  split at ended
  · obtain ⟨sound, _, base⟩ :=
      enters_typeNode names _ _ _ _ _ _ .empty ended
    exact sound.lowered base
  · obtain ⟨all, between, filling, adding⟩ := Run.bind_eq_ok.1 ended
    obtain ⟨rfl, rfl⟩ := addNode_eq_ok.1 adding
    obtain ⟨filled, choices⟩ := filling_documentFields names _ roots rootNames
      (.start _ .empty) (by simp) filling
    exact filled.lowered choices rfl

end Lowering

/-- A graph that is lowered from components is known as a whole. -/
theorem Graph.lowered_ofComponents {allowed : QName → Prop}
    {components : Components} (names : ∀ name ∈ components.names, allowed name)
    {wanted : Option String} {graph : Graph}
    (built : Graph.ofComponents components wanted = .ok graph) :
    ∃ root, graph.Lowered allowed root := by
  unfold Graph.ofComponents at built
  cases chosen : Lowering.chosenRoots components wanted with
  | error e =>
      rw [chosen] at built
      cases built
  | ok roots =>
      rw [chosen] at built
      cases ended : (Lowering.rootNode components roots).run {} with
      | error e =>
          simp only [bind, Except.bind, ended] at built
          cases built
      | ok result =>
          simp only [bind, Except.bind, ended] at built
          cases built
          exact ⟨result.1, Lowering.lowered_rootNode names
            (fun root member => names _
              (Lowering.mem_names_of_chosenRoots chosen root member)) ended⟩

theorem Graph.exists_lowered_ofComponents {components : Components}
    {wanted : Option String} {graph : Graph}
    (built : Graph.ofComponents components wanted = .ok graph) :
    ∃ root, graph.Lowered (fun _ => True) root :=
  Graph.lowered_ofComponents (fun _ _ => trivial) built

end XmlRecords
